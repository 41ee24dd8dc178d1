import TwoChoice.Occupancy.Histogram
import TwoChoice.Table.Lookup

/-!
# Statistics

How well a table uses its slots, and what it costs to look its keys up.

## Main Definitions

* `Statistics` — the measurements
* `Table.fullGroups` — the number of full groups
* `Table.countFull` — the number of full groups, counted group by group
* `Table.lookupCost` — the comparisons of one lookup
* `Table.statistics` — the measurements of a table, which looks every stored key up once
-/

namespace TwoChoice

universe u v

/-- Measurements of a table. -/
structure Statistics where
  /-- The number of entries. -/
  populated : Nat
  /-- The number of groups. -/
  groups : Nat
  /-- The number of slots in a group. -/
  slotsPerGroup : Nat
  /-- The number of slots in all groups. -/
  totalSlots : Nat
  /-- The number of groups without a vacant slot. -/
  fullGroups : Nat
  /-- The entries as a share of the slots. -/
  slotUtilization : Float
  /-- The comparisons of a lookup of a stored key, on average. -/
  meanProbes : Float
  /-- The comparisons of the costliest lookup of a stored key. -/
  maxProbes : Nat
  /-- The bytes that the table occupies. -/
  totalBytes : Nat
  /-- The bytes of the keys and values of vacant slots. -/
  wastedBytes : Nat

namespace Statistics

/-- The quotient of two sizes, each taken as the nearest floating point number, and zero if
there is nothing to divide by. -/
def ratio (part whole : Nat) : Float :=
  if whole = 0 then 0.0 else Float.ofNat part / Float.ofNat whole

end Statistics

namespace Table

variable {K : Type u} {V : Type v} {slots : Nat} [Key K] [DecidableEq K]

/-- The number of groups without a vacant slot. -/
def fullGroups (t : Table K V slots) : Nat :=
  t.groups.toList.countP fun g => g.fill = slots

/-- The full groups are those whose fill is the number of slots. -/
theorem fullGroups_eq_count (t : Table K V slots) : t.fullGroups = t.fills.count slots := by
  rw [fullGroups, fills, List.count, List.countP_map]
  rfl

/-- Counts the groups without a vacant slot, one group after another. -/
def countFull (t : Table K V slots) : Except Fault Nat :=
  t.fills.foldlM (fun full fill => if fill = slots then Word.add full 1 else .ok full) 0

/-- The number of comparisons that a lookup of a key makes. -/
def lookupCost (s : Scheme K) (t : Table K V slots) (key : K) : Except Fault Nat :=
  let lookup := t.contains s key 0
  lookup.result.map fun _ => lookup.counter.toNat

/-- The numbers of comparisons that lookups of the stored keys make, in the order in which the
entries lie. -/
def lookupCosts (s : Scheme K) (t : Table K V slots) : Except Fault (List Nat) :=
  t.liveKeys.mapM (t.lookupCost s)

/-- Measures a table. -/
def statistics (s : Scheme K) (t : Table K V slots) : Except Fault Statistics := do
  let totalSlots ← Word.mul t.capacity slots
  let fullGroups ← t.countFull
  let costs ← t.lookupCosts s
  let totalProbes ← Word.sum costs
  let totalBytes ← t.memoryUsage s
  let vacant ← Word.sub totalSlots t.size
  let wastedBytes ← Word.mul vacant s.layout.entryBytes
  return {
    populated := t.size
    groups := t.capacity
    slotsPerGroup := slots
    totalSlots := totalSlots
    fullGroups := fullGroups
    slotUtilization := Statistics.ratio t.size totalSlots
    meanProbes := Statistics.ratio totalProbes t.size
    maxProbes := costs.max?.getD 0
    totalBytes := totalBytes
    wastedBytes := wastedBytes }

end Table

end TwoChoice
