import TwoChoice.Occupancy.Bar
import TwoChoice.Table.Basic

/-!
# Fill histograms

How many groups of a table hold no entry, one entry, and so on up to all their slots.

## Main Definitions

* `Histogram` — the number of groups at each fill
* `Histogram.ofFills` — how often each fill occurs
* `Histogram.tally` — counts one more group of a fill
* `Histogram.chart` — a histogram drawn as one bar to a line
* `Histogram.print` — the chart, for which the numbers are added up
* `Table.histogram` — the histogram of a table
* `Table.countFills` — the histogram of a table, counted group by group

## Design Notes

Counting tests the index and the sum at each of its steps, and there is a result only if none of
them is out of range. `histogram` says what the result is then. Operations count.
-/

namespace TwoChoice

universe u v

/-- The number of groups at each fill, from none of the slots to all of them. -/
structure Histogram where
  /-- The numbers, indexed by fill. -/
  counts : List Nat
  deriving DecidableEq, Repr

namespace Histogram

/-- How often each of the fills from none to all of some slots occurs. -/
def ofFills (slots : Nat) (fills : List Nat) : Histogram :=
  ⟨(List.range (slots + 1)).map fun n => fills.count n⟩

/-- Counts one more group of a fill. -/
def tally (h : Histogram) (fill : Nat) : Except Fault Histogram :=
  match h.counts[fill]? with
  | none => .error (.breach .fillIndex)
  | some number => (Word.add number 1).map fun more => ⟨h.counts.set fill more⟩

/-- The number of groups. -/
def groups (h : Histogram) : Nat :=
  h.counts.foldr (· + ·) 0

/-- The number of groups without a vacant slot. -/
def fullGroups (h : Histogram) : Nat :=
  h.counts.getLast?.getD 0

/-- The largest of the numbers. -/
def largest (h : Histogram) : Nat :=
  h.counts.max?.getD 0

/-- The line for one fill: the fill, its bar, and the number of groups that have it. -/
def line (largest fill count : Nat) : String :=
  let label := toString fill
  "".pushn ' ' (2 - label.length) ++ label ++ " | " ++
    String.ofList (Bar.make count largest) ++ " (" ++ toString count ++ ")\n"

/-- The histogram as text, with a heading and a line for each fill. -/
def chart (h : Histogram) : String :=
  if h.largest = 0 then "group histogram: empty\n"
  else
    "group histogram (" ++ toString h.groups ++ " groups):\n" ++
      String.join (h.counts.zipIdx.map fun entry => line h.largest entry.2 entry.1)

/-- The chart. Its heading has the sum of the numbers. -/
def print (h : Histogram) : Except Fault String :=
  if h.largest = 0 then .ok h.chart else (Word.sum h.counts).map fun _ => h.chart

end Histogram

namespace Table

variable {K : Type u} {V : Type v} {slots : Nat} [Key K] [DecidableEq K]

/-- The fills of all groups. -/
def fills (t : Table K V slots) : List Nat :=
  t.groups.toList.map Group.fill

@[simp] theorem length_fills (t : Table K V slots) : t.fills.length = t.capacity := by
  rw [fills, List.length_map, Array.length_toList, capacity]

/-- The number of groups at each fill. -/
def histogram (t : Table K V slots) : Histogram :=
  .ofFills slots t.fills

/-- Counts the groups at each fill, one group after another. -/
def countFills (t : Table K V slots) : Except Fault Histogram :=
  t.fills.foldlM Histogram.tally ⟨List.replicate (slots + 1) 0⟩

end Table

end TwoChoice
