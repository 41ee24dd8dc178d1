import TwoChoice.Accumulation
import TwoChoice.Capacity
import TwoChoice.Counted
import TwoChoice.Decimal.Binary64
import TwoChoice.Decimal.Fixed
import TwoChoice.Fault
import TwoChoice.FiniteMap
import TwoChoice.Group
import TwoChoice.Group.Lemmas
import TwoChoice.Hash
import TwoChoice.Integer
import TwoChoice.Key
import TwoChoice.Layout
import TwoChoice.Occupancy.Bar
import TwoChoice.Occupancy.Description
import TwoChoice.Occupancy.Histogram
import TwoChoice.Operation
import TwoChoice.Operation.Reachable
import TwoChoice.Proofs.Allocation
import TwoChoice.Proofs.Alternation
import TwoChoice.Proofs.Answers
import TwoChoice.Proofs.Arrangement
import TwoChoice.Proofs.Balance
import TwoChoice.Proofs.Bars
import TwoChoice.Proofs.Batches
import TwoChoice.Proofs.BoundedLists
import TwoChoice.Proofs.ByteAccounts
import TwoChoice.Proofs.Bytes
import TwoChoice.Proofs.Charge
import TwoChoice.Proofs.Clearing
import TwoChoice.Proofs.Comparisons
import TwoChoice.Proofs.Doubling
import TwoChoice.Proofs.Edits
import TwoChoice.Proofs.Exchange
import TwoChoice.Proofs.Faults
import TwoChoice.Proofs.Filling
import TwoChoice.Proofs.ForeignHashes
import TwoChoice.Proofs.Frame
import TwoChoice.Proofs.Growth
import TwoChoice.Proofs.Indexed
import TwoChoice.Proofs.Invariant
import TwoChoice.Proofs.KeyFormats
import TwoChoice.Proofs.LeastGrowth
import TwoChoice.Proofs.Ledger
import TwoChoice.Proofs.Likeness
import TwoChoice.Proofs.LiveSlots
import TwoChoice.Proofs.Lockstep
import TwoChoice.Proofs.Lookup
import TwoChoice.Proofs.Measurements
import TwoChoice.Proofs.Mixing
import TwoChoice.Proofs.NewTables
import TwoChoice.Proofs.Pairs
import TwoChoice.Proofs.Parallel
import TwoChoice.Proofs.Placement
import TwoChoice.Proofs.ProbeOrder
import TwoChoice.Proofs.ProbeTotals
import TwoChoice.Proofs.Readback
import TwoChoice.Proofs.Recovery
import TwoChoice.Proofs.Refinement
import TwoChoice.Proofs.Removal
import TwoChoice.Proofs.Room
import TwoChoice.Proofs.Search
import TwoChoice.Proofs.Sessions
import TwoChoice.Proofs.Shadowing
import TwoChoice.Proofs.SignedTotals
import TwoChoice.Proofs.Splitting
import TwoChoice.Proofs.Storing
import TwoChoice.Proofs.Totals
import TwoChoice.Proofs.Trusting
import TwoChoice.Proofs.Undoing
import TwoChoice.Proofs.ValueBlindness
import TwoChoice.Proofs.Views
import TwoChoice.Proofs.Withdrawal
import TwoChoice.Scheme
import TwoChoice.Session
import TwoChoice.Statistics.Basic
import TwoChoice.Statistics.Report
import TwoChoice.Table.Basic
import TwoChoice.Table.Batch
import TwoChoice.Table.Growth
import TwoChoice.Table.Lookup
import TwoChoice.Table.Total
import TwoChoice.Table.Update
import TwoChoice.Table.WellFormed
import TwoChoice.Word
