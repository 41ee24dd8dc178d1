import TwoChoice.Occupancy.Description
import TwoChoice.Statistics.Report
import TwoChoice.Table.Total
import TwoChoice.Table.Update

/-!
# Operations

The public operations of a table as data, so that sequences of them can be run and reasoned about.

## Main Definitions

* `Operation` — an operation with its arguments
* `Answer` — what an operation answers
* `State` — a table and the comparison counter handed to its lookups
* `Operation.perform` — carries out one operation
* `Operation.run` — carries out operations one after another, and records what is seen of each
* `Call` — an operation with the comparison counter that it is handed
* `Call.run` — carries out calls one after another

## Main Statements

* `Operation.perform_copy` — copying leaves the state as it is
* `Call.exists_run_eq` — operations that share one counter are calls

## Design Notes

An operation that fails answers with its fault and leaves a state behind like any other, so a run
goes on after it. After a table was copied the run goes on with the copy, so that what the later
operations answer is answered by the copy.
-/

namespace TwoChoice

universe u v w x

/-- An operation of a table, with its arguments. -/
inductive Operation (K : Type u) (V : Type v) where
  /-- Stores an entry. -/
  | insert (key : K) (value : V)
  /-- Looks a key up. -/
  | get (key : K)
  /-- Asks whether a key is stored. -/
  | contains (key : K)
  /-- Looks up a key that should be stored. -/
  | find (key : K)
  /-- Looks up a key that is known to be stored. -/
  | findUnchecked (key : K)
  /-- Looks a key up in the groups that a hash names. -/
  | getIndexed (key : K) (hash : UInt64)
  /-- Looks up a key that should be stored in the groups that a hash names. -/
  | findIndexed (key : K) (hash : UInt64)
  /-- Looks up a key that is known to be stored in the groups that a hash names. -/
  | findIndexedUnchecked (key : K) (hash : UInt64)
  /-- Takes out the entry of a key. -/
  | erase (key : K)
  /-- Takes out the entry of a key that is known to be stored. -/
  | eraseUnchecked (key : K)
  /-- Asks for the hash of a key. -/
  | hashOf (key : K)
  /-- Hashes a key ahead of its lookup. -/
  | prefetch (key : K)
  /-- Grows. -/
  | grow
  /-- Takes out all entries. -/
  | clear
  /-- Copies the table and goes on with the copy. -/
  | copy
  /-- Asks for the number of entries and the capacity. -/
  | sizes
  /-- Asks for the bytes that the table occupies. -/
  | memoryUsage
  /-- Adds all values up. -/
  | total
  /-- Describes the table on one line. -/
  | describe
  /-- Describes the table on several lines. -/
  | describeIndented
  /-- Counts the groups at each fill. -/
  | histogram
  /-- Draws the number of groups at each fill. -/
  | chart
  /-- Measures the table. -/
  | statistics
  /-- Measures the table and writes the measurements out. -/
  | report

/-- What an operation answers. -/
inductive Answer (V : Type u) (A : Type v) where
  /-- There is nothing to tell. -/
  | done
  /-- The value of a key, if it is stored. -/
  | lookup (value? : Option V)
  /-- The value of a key. -/
  | value (value : V)
  /-- Yes or no. -/
  | flag (flag : Bool)
  /-- The hash of a key. -/
  | hash (hash : UInt64)
  /-- The number of entries, whether there are none, and the number of groups. -/
  | sizes (size : Nat) (isEmpty : Bool) (capacity : Nat)
  /-- A number of bytes. -/
  | bytes (bytes : Nat)
  /-- The total of all values. -/
  | total (total : A)
  /-- A text. -/
  | text (text : String)
  /-- The number of groups at each fill. -/
  | histogram (histogram : Histogram)
  /-- The measurements of a table. -/
  | statistics (statistics : Statistics)

/-- A table, and the comparison counter handed to its lookups. -/
structure State (K : Type u) (V : Type v) (slots : Nat) where
  /-- The table. -/
  table : Table K V slots
  /-- The comparison counter. -/
  counter : UInt64

/-- The answer to an operation, and the state it leaves. -/
structure Step (K : Type u) (V : Type v) (slots : Nat) (A : Type w) where
  /-- The answer, or why there is none. -/
  answer : Except Fault (Answer V A)
  /-- The state afterwards. -/
  state : State K V slots

/-- What is seen of one operation of a run. -/
structure Observation (V : Type u) (A : Type v) where
  /-- The answer, or why there is none. -/
  answer : Except Fault (Answer V A)
  /-- The comparison counter afterwards. -/
  counter : UInt64
  /-- The number of entries afterwards. -/
  size : Nat
  /-- The number of groups afterwards. -/
  capacity : Nat

variable {K : Type u} {V : Type v} {slots : Nat} {A : Type w}

namespace Step

/-- The step of an operation that changes nothing. -/
def observed (st : State K V slots) (answer : Except Fault (Answer V A)) : Step K V slots A :=
  ⟨answer, st⟩

/-- The step of an operation that looks a key up in a table. -/
def counted {α : Type x} (t : Table K V slots) (c : Counted α) (answer : α → Answer V A) :
    Step K V slots A :=
  ⟨c.result.map answer, ⟨t, c.counter⟩⟩

/-- The step of an operation that updates a table. -/
def updated {α : Type x} (counter : UInt64) (u : Updated K V slots α) (answer : α → Answer V A) :
    Step K V slots A :=
  ⟨u.result.map answer, ⟨u.table, counter⟩⟩

/-- The step of an operation that goes on with another table, if it can be made. -/
def replaced (st : State K V slots) : Except Fault (Table K V slots) → Step K V slots A
  | .error fault => ⟨.error fault, st⟩
  | .ok t => ⟨.ok .done, ⟨t, st.counter⟩⟩

/-- What is seen of a step. -/
def observation (step : Step K V slots A) : Observation V A where
  answer := step.answer
  counter := step.state.counter
  size := step.state.table.size
  capacity := step.state.table.capacity

end Step

namespace Operation

variable [Key K] [DecidableEq K]

/-- Carries out an operation. -/
def perform (s : Scheme K) (acc : Accumulation V A) :
    Operation K V → State K V slots → Step K V slots A
  | insert key value, ⟨t, counter⟩ => .updated counter (t.insert s key value) fun _ => .done
  | get key, ⟨t, counter⟩ => .counted t (t.get s key counter) .lookup
  | contains key, ⟨t, counter⟩ => .counted t (t.contains s key counter) .flag
  | find key, ⟨t, counter⟩ => .counted t (t.find s key counter) .value
  | findUnchecked key, ⟨t, counter⟩ => .counted t (t.findUnchecked s key counter) .value
  | getIndexed key hash, ⟨t, counter⟩ => .counted t (t.getIndexed key hash counter) .lookup
  | findIndexed key hash, ⟨t, counter⟩ => .counted t (t.findIndexed key hash counter) .value
  | findIndexedUnchecked key hash, ⟨t, counter⟩ =>
    .counted t (t.findIndexedUnchecked key hash counter) .value
  | erase key, ⟨t, counter⟩ => .updated counter (t.erase s key) .flag
  | eraseUnchecked key, ⟨t, counter⟩ => .updated counter (t.eraseUnchecked s key) fun _ => .done
  | hashOf key, st => .observed st (.ok (.hash (s.hash key)))
  | prefetch key, st => .observed st ((st.table.prefetch s key).map .hash)
  | grow, ⟨t, counter⟩ => .updated counter (t.grow s) fun _ => .done
  | clear, ⟨t, counter⟩ => ⟨.ok .done, ⟨t.clear, counter⟩⟩
  | copy, st => .replaced st (st.table.copy s)
  | sizes, st =>
    .observed st (.ok (.sizes st.table.size st.table.isEmpty st.table.capacity))
  | memoryUsage, st => .observed st ((st.table.memoryUsage s).map .bytes)
  | total, st => .observed st ((st.table.total acc).map .total)
  | describe, st => .observed st (.ok (.text st.table.describe))
  | describeIndented, st => .observed st (.ok (.text st.table.describeIndented))
  | histogram, st => .observed st (st.table.countFills.map .histogram)
  | chart, st => .observed st ((st.table.countFills.bind Histogram.print).map .text)
  | statistics, st => .observed st ((st.table.statistics s).map .statistics)
  | report, st => .observed st ((st.table.statistics s).map fun m => .text m.report)

/-- Copying leaves the state as it is, because the copy equals the table. -/
theorem perform_copy (s : Scheme K) (acc : Accumulation V A) (st : State K V slots) :
    copy.perform s acc st = .observed st ((st.table.copy s).map fun _ => .done) := by
  show Step.replaced st (st.table.copy s) = _
  rw [Table.copy_eq]
  cases (Table.allocate s.layout st.table.capacity : Except Fault (Table K V slots)) with
  | error fault => rfl
  | ok fresh => rfl

/-- Carries out some operations one after another. The result has what is seen of each of them
and the last state. -/
def run (s : Scheme K) (acc : Accumulation V A) :
    List (Operation K V) → State K V slots → List (Observation V A) × State K V slots
  | [], st => ([], st)
  | op :: ops, st =>
    let step := op.perform s acc st
    let rest := run s acc ops step.state
    (step.observation :: rest.1, rest.2)

end Operation

/-! ### Calls -/

/-- An operation, and the comparison counter that it is handed. -/
structure Call (K : Type u) (V : Type v) where
  /-- The operation. -/
  operation : Operation K V
  /-- The comparison counter before it. -/
  counter : UInt64

variable [Key K] [DecidableEq K]

namespace Call

/-- Carries out a call. -/
def perform (s : Scheme K) (acc : Accumulation V A) (call : Call K V) (t : Table K V slots) :
    Step K V slots A :=
  call.operation.perform s acc ⟨t, call.counter⟩

/-- Carries out some calls one after another, each on the table that the one before it leaves. The
result has what is seen of each of them and the last table. -/
def run (s : Scheme K) (acc : Accumulation V A) :
    List (Call K V) → Table K V slots → List (Observation V A) × Table K V slots
  | [], t => ([], t)
  | call :: calls, t =>
    let step := call.perform s acc t
    let rest := run s acc calls step.state.table
    (step.observation :: rest.1, rest.2)

/-- Operations that share one counter are calls, each handed what the one before it counted. -/
theorem exists_run_eq (s : Scheme K) (acc : Accumulation V A) (ops : List (Operation K V))
    (st : State K V slots) :
    ∃ calls : List (Call K V), calls.map Call.operation = ops ∧
      run s acc calls st.table =
        ((Operation.run s acc ops st).1, (Operation.run s acc ops st).2.table) := by
  induction ops generalizing st with
  | nil => exact ⟨[], rfl, rfl⟩
  | cons op ops ih =>
    obtain ⟨calls, operations, same⟩ := ih (op.perform s acc st).state
    refine ⟨⟨op, st.counter⟩ :: calls, by rw [List.map_cons, operations], ?_⟩
    simp only [run, perform, Operation.run, same]

end Call

end TwoChoice
