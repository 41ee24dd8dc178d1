import Mathlib.Data.Nat.Log
import TwoChoice.Operation.Reachable
import TwoChoice.Proofs.Growth
import TwoChoice.Proofs.Removal

/-!
# The representation invariant

Every operation keeps a table well-formed, whether it succeeds or fails. One argument is left out:
an operation that takes a key to be stored may not be told to take out the vacant key. What a run
leaves of a new table is therefore well-formed after each of its calls, and this can be read off the
key slots alone.

## Main Definitions

* `Table.SlotInvariant` — the invariant in terms of key slots

## Main Statements

* `Capacity.usable_of_ofGroups` — a new table has a usable number of groups
* `Table.WellFormed.perform` — every operation keeps a table well-formed
* `Table.Reachable.wellFormed` — reachable tables are well-formed
* `Table.slotInvariant_run` — the invariant holds after every call of a run
-/

namespace TwoChoice

universe u v w x

/-! ### New tables -/

namespace Capacity

variable {n capacity : Nat}

theorem isPowerOfTwo_atLeast (n : Nat) : (atLeast n).isPowerOfTwo := by
  unfold atLeast
  split
  · exact ⟨0, rfl⟩
  · exact ⟨(n - 1).log2 + 1, by rw [Nat.shiftLeft_eq, Nat.one_mul]⟩

theorem le_atLeast (n : Nat) : n ≤ atLeast n := by
  unfold atLeast
  split
  · assumption
  · rw [Nat.shiftLeft_eq, Nat.one_mul]
    have below : n - 1 < 2 ^ ((n - 1).log2 + 1) := Nat.lt_log2_self
    omega

/-- A new table has a usable number of groups. -/
theorem usable_of_ofGroups {groups : Nat} (found : ofGroups groups = .ok capacity) :
    Usable capacity := by
  unfold ofGroups at found
  by_cases below : atLeast (max groups minimum) < Word.limit
  · rw [if_pos below] at found
    cases found
    exact ⟨isPowerOfTwo_atLeast _, (Nat.le_max_right groups minimum).trans (le_atLeast _), below⟩
  · rw [if_neg below] at found
    cases found

end Capacity

/-- The scheme of 32-bit keys and 64-bit values, with keys mixed into both halves of the hash. -/
def Scheme.ofWords : Scheme ZeroVacant :=
  Scheme.ofMixer Hash.avalanche ⟨4, 4, 8, 8⟩

variable {K : Type u} {V : Type v} {slots : Nat} {A : Type w} [Key K] [DecidableEq K]

namespace Table

variable {s : Scheme K} {t : Table K V slots} {key : K} {value : V}

/-! ### Single operations -/

/-- A new table is well-formed and empty. -/
theorem wellFormed_of_withGroups {groups : Nat} (made : withGroups s groups = .ok t) :
    t.WellFormed s ∧ t.toList = [] := by
  unfold withGroups at made
  cases found : Capacity.ofGroups groups with
  | error fault =>
    rw [found] at made
    cases made
  | ok capacity =>
    have usable := Capacity.usable_of_ofGroups found
    have allocated : allocate s.layout capacity = .ok t := by rwa [found] at made
    obtain ⟨-, -, rfl⟩ := of_allocate allocated
    exact ⟨wellFormed_empty_of_usable s usable, toList_empty capacity⟩

omit [DecidableEq K] in
/-- A number of groups up to the least capacity leads to a table of the least capacity, if there is
an allocation for it. -/
theorem withGroups_eq_of_le {groups : Nat} (le : groups ≤ Capacity.minimum)
    (fits : s.layout.Fits slots Capacity.minimum) :
    (withGroups s groups : Except Fault (Table K V slots)) = .ok (empty Capacity.minimum) := by
  have found : Capacity.ofGroups groups = .ok Capacity.minimum := by
    rw [Capacity.ofGroups, Nat.max_eq_right le]
    rfl
  have usable := Capacity.usable_of_ofGroups found
  rw [withGroups, found]
  show allocate s.layout Capacity.minimum = _
  rw [allocate, if_neg (not_not.mpr usable.isPowerOfTwo), if_neg (not_not.mpr fits)]

@[simp] theorem toList_clear (t : Table K V slots) : t.clear.toList = [] := by
  simp [toList, clear]

/-- Taking all entries out keeps a table well-formed. -/
theorem WellFormed.clear (wellFormed : t.WellFormed s) : t.clear.WellFormed s where
  isPowerOfTwo := by simpa [Table.clear, capacity] using wellFormed.isPowerOfTwo
  minimum_le := by simpa [Table.clear, capacity] using wellFormed.minimum_le
  mask_succ := by simpa [Table.clear, capacity] using wellFormed.mask_succ
  packed := by
    intro g mem
    obtain ⟨old, -, rfl⟩ := Array.mem_map.mp mem
    exact Group.packed_reset old
  written := by
    intro g mem
    obtain ⟨old, -, rfl⟩ := Array.mem_map.mp mem
    exact Group.written_reset old
  placed := by
    intro i inRange entry mem
    simp [Table.clear] at mem
  size_eq := by
    rw [toList_clear]
    rfl

theorem Insertion.wellFormed {u : Updated K V slots Unit} (insertion : Insertion s t key value u)
    (wellFormed : t.WellFormed s) : u.table.WellFormed s := by
  cases insertion with
  | refused => exact wellFormed
  | stored _ wellFormed' => exact wellFormed'
  | stuck _ _ wellFormed' => exact wellFormed'

theorem Erasure.wellFormed {α : Type x} {miss : Except Fault α} {hit : α}
    {u : Updated K V slots α} (erasure : Erasure t key miss hit u) (wellFormed : t.WellFormed s) :
    u.table.WellFormed s := by
  cases erasure with
  | absent => exact wellFormed
  | removed _ _ _ stored removes => exact removes.wellFormed wellFormed stored
  | overflowed => exact wellFormed

theorem WellFormed.grow (wellFormed : t.WellFormed s) : (t.grow s).table.WellFormed s := by
  unfold Table.grow
  cases grew : t.grown s with
  | error fault => exact wellFormed
  | ok larger => exact (wellFormed.of_grown grew).1

/-- Every operation keeps a table well-formed, also one that fails. -/
theorem WellFormed.perform (wellFormed : t.WellFormed s) (acc : Accumulation V A)
    {op : Operation K V} (permitted : op.Permitted) (counter : UInt64) :
    (op.perform s acc ⟨t, counter⟩).state.table.WellFormed s := by
  cases op with
  | insert key value => exact (wellFormed.insertion_insert key value).wellFormed wellFormed
  | erase key => exact (wellFormed.erasure_erase key).wellFormed wellFormed
  | eraseUnchecked key => exact (wellFormed.erasure_eraseUnchecked permitted).wellFormed wellFormed
  | grow => exact wellFormed.grow
  | clear => exact wellFormed.clear
  | copy =>
    rw [Operation.perform_copy]
    exact wellFormed
  | _ => exact wellFormed

/-- Every run keeps a table well-formed. -/
theorem WellFormed.run {calls : List (Call K V)} (wellFormed : t.WellFormed s)
    (acc : Accumulation V A) (permitted : ∀ call ∈ calls, call.operation.Permitted) :
    (Call.run s acc calls t).2.WellFormed s := by
  induction calls generalizing t with
  | nil => exact wellFormed
  | cons call calls ih =>
    have next := wellFormed.perform acc (permitted call List.mem_cons_self) call.counter
    exact ih next fun later mem => permitted later (List.mem_cons_of_mem call mem)

/-- Legal operations lead from a new table of the least capacity to reachable ones. -/
theorem Reachable.run_empty (acc : Accumulation V A)
    (fits : s.layout.Fits slots Capacity.minimum) {ops : List (Operation K V)}
    (legal : ∀ op ∈ ops, op.Legal) (counter : UInt64) :
    Reachable s (Operation.run s acc ops
      ⟨(empty Capacity.minimum : Table K V slots), counter⟩).2.table :=
  Reachable.run acc (Reachable.made (withGroups_eq_of_le (Nat.le_refl _) fits)) legal

/-- Reachable tables are well-formed. -/
theorem Reachable.wellFormed (reachable : Reachable s t) : t.WellFormed s := by
  induction reachable with
  | made made => exact (wellFormed_of_withGroups made).1
  | performed op counter _ legal ih => exact ih.perform Accumulation.listing legal.permitted counter

/-! ### Key slots -/

/-- The invariant of a table in terms of its key slots. -/
structure SlotInvariant (s : Scheme K) (t : Table K V slots) : Prop where
  /-- The number of groups is a power of two. -/
  isPowerOfTwo : t.groups.size.isPowerOfTwo
  /-- There are not too few groups. -/
  minimum_le : Capacity.minimum ≤ t.groups.size
  /-- The mask is the number of groups less one. -/
  mask_eq : t.mask.toNat = t.groups.size - 1
  /-- In every group the keys of entries come before all vacant slots. -/
  packed : ∀ g ∈ t.groups, g.Packed
  /-- Every key that is not vacant lies in a group that its hash names under the mask. -/
  placed : ∀ (i : Nat) (inRange : i < t.groups.size), ∀ key ∈ t.groups[i].keys,
    key ≠ Key.vacant → i = (Candidates.ofHash t.mask (s.hash key)).first ∨
      i = (Candidates.ofHash t.mask (s.hash key)).second
  /-- The recorded size is the number of slots that are not vacant, over all groups. -/
  size_eq : t.size =
    (t.groups.toList.flatMap fun g => g.keys.toList).countP fun key => key ≠ Key.vacant

/-- What is known of the entries of a well-formed table holds of its key slots. -/
theorem WellFormed.slotInvariant (wellFormed : t.WellFormed s) : t.SlotInvariant s where
  isPowerOfTwo := wellFormed.isPowerOfTwo
  minimum_le := wellFormed.minimum_le
  mask_eq := by
    have mask_succ := wellFormed.mask_succ
    unfold capacity at mask_succ
    omega
  packed := wellFormed.packed
  placed := by
    intro i inRange key mem live
    obtain ⟨value, inGroup⟩ := (Group.mem_keys_iff_exists_mem_toList
      (wellFormed.packed_getElem inRange) (wellFormed.written_getElem inRange) live).mp mem
    exact wellFormed.placed i inRange _ inGroup
  size_eq := by
    rw [wellFormed.size_eq, toList, List.length_flatMap, List.countP_flatMap]
    refine congrArg List.sum (List.map_congr_left fun g mem => ?_)
    have mem' := Array.mem_toList_iff.mp mem
    rw [Group.length_toList (wellFormed.written g mem')]
    exact (Group.countP_keys (wellFormed.packed g mem')).symm

/-- The invariant holds after every call of a run that starts from a new table. -/
theorem slotInvariant_run {groups : Nat} (made : withGroups s groups = .ok t)
    (acc : Accumulation V A) (calls : List (Call K V))
    (permitted : ∀ call ∈ calls, call.operation.Permitted) :
    ∀ before, before <+: calls → (Call.run s acc before t).2.SlotInvariant s := by
  intro before beginning
  have permitted' : ∀ call ∈ before, call.operation.Permitted :=
    fun call mem => permitted call (beginning.subset mem)
  exact ((wellFormed_of_withGroups made).1.run acc permitted').slotInvariant

/-- A run that stores a key twice, fails to store the vacant one, grows and takes an entry out. -/
theorem slotInvariant_run_duplicate :
    (withGroups Scheme.ofWords 1 : Except Fault (Table ZeroVacant UInt64 2)) = .ok (empty 8) ∧
      (Call.run Scheme.ofWords Accumulation.listing
        [⟨.insert ⟨1⟩ 10, 0⟩, ⟨.insert ⟨1⟩ 11, 0⟩, ⟨.insert ⟨0⟩ 12, 0⟩, ⟨.find ⟨2⟩, 5⟩, ⟨.grow, 5⟩,
          ⟨.eraseUnchecked ⟨1⟩, 5⟩]
        (empty 8 : Table ZeroVacant UInt64 2)).2.SlotInvariant Scheme.ofWords := by
  have made : (withGroups Scheme.ofWords 1 : Except Fault (Table ZeroVacant UInt64 2)) =
      .ok (empty 8) := withGroups_eq_of_le (by decide) (by decide)
  refine ⟨made, slotInvariant_run made Accumulation.listing _ ?_ _ (List.prefix_refl _)⟩
  simp [Operation.Permitted, Key.vacant]

end Table

end TwoChoice
