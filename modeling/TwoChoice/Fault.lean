/-!
# Faults

Everything that can stop an operation on a two-choice table.

## Main Definitions

* `Fault` — the reasons an operation gives up
* `Breach` — the internal conditions whose failure is a fault of its own
* `Fault.message` — the wording of a fault

## Design Notes

A fault is a cause, and its wording is derived from it. A `Breach` names a condition that the
operations of this library check but that no table built by them violates; it is kept apart
from the faults a caller can provoke, so that "this operation never breaches" can be stated.
-/

namespace TwoChoice

/-- An internal condition that fails. -/
inductive Breach where
  /-- The number of groups is not a power of two. -/
  | groupCount
  /-- A group index lies outside the table. -/
  | groupIndex
  /-- A slot index lies outside its group. -/
  | slotIndex
  /-- The groups to be copied are not as many as those to be overwritten. -/
  | copyLength
  /-- A fill has no number in a histogram. -/
  | fillIndex
  /-- A new entry would leave a vacant slot before it. -/
  | gap
  /-- The value of a slot that holds no entry is read. -/
  | vacantSlot
  /-- The recorded number of entries differs from the entries stored. -/
  | entryCount
  /-- A sum leaves the 64-bit range. -/
  | wordSum
  /-- A product leaves the 64-bit range. -/
  | wordProduct
  /-- A difference falls below zero. -/
  | wordDifference
  deriving DecidableEq, Repr

/-- The reason an operation gives up. -/
inductive Fault where
  /-- The key that marks vacant slots was offered as the key of an entry. -/
  | vacantKey
  /-- The key looked for is not stored. -/
  | missingKey
  /-- The comparison counter is full and one more comparison is due. -/
  | counterOverflow
  /-- A partial sum of the stored values leaves the range of their type. -/
  | totalOverflow
  /-- The number of groups asked for has no power of two above it in 64 bits. -/
  | capacityOverflow
  /-- The groups asked for occupy more bytes than one allocation may have. -/
  | layoutOverflow
  /-- An internal condition fails. -/
  | breach (cause : Breach)
  deriving DecidableEq, Repr

/-- The wording of a failed internal condition. -/
def Breach.message : Breach → String
  | groupCount => "the number of groups is not a power of two"
  | groupIndex => "group index out of range"
  | slotIndex => "slot index out of range"
  | copyLength => "the numbers of groups differ"
  | fillIndex => "fill out of range"
  | gap => "an entry would leave a vacant slot before it"
  | vacantSlot => "the slot holds no entry"
  | entryCount => "the number of entries is wrong"
  | wordSum => "attempt to add with overflow"
  | wordProduct => "attempt to multiply with overflow"
  | wordDifference => "attempt to subtract with overflow"

/-- The wording of a fault. A full comparison counter and a sum that leaves its range are the
same kind of mistake, an addition that overflows, and read the same. -/
def Fault.message : Fault → String
  | vacantKey => "the empty sentinel cannot be used as a key"
  | missingKey => "key not present in table"
  | counterOverflow => "attempt to add with overflow"
  | totalOverflow => "attempt to add with overflow"
  | capacityOverflow => "capacity overflow"
  | layoutOverflow => "allocation size overflow: LayoutError"
  | breach cause => cause.message

/-! ### Several results -/

universe u v

/-- If every element has a result, the elements together have the list of them. -/
theorem mapM_eq_ok {α : Type u} {β : Type v} {f : α → Except Fault β} {h : α → β} {l : List α}
    (succeeds : ∀ a ∈ l, f a = .ok (h a)) : l.mapM f = .ok (l.map h) := by
  induction l with
  | nil => rfl
  | cons a rest ih =>
    rw [List.mapM_cons, succeeds a List.mem_cons_self,
      ih fun b mem => succeeds b (List.mem_cons_of_mem a mem)]
    rfl

end TwoChoice
