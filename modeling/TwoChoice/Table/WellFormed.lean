import TwoChoice.Group.Lemmas
import TwoChoice.Table.Basic

/-!
# Well-formed tables

The condition that holds of every table built by the operations of this library.

## Main Definitions

* `Table.toList` — the entries of a table
* `Table.WellFormed` — the groups, the mask and the recorded size fit together, and every entry
  lies in one of the two groups that the hash of its key names

## Main Statements

* `Table.WellFormed.groupAt_first`, `Table.WellFormed.groupAt_second` — the candidates of a hash
  are groups of the table
* `Table.WellFormed.entries_eq` — reading all entries yields the list of them
* `Table.wellFormed_empty` — a table of empty groups is well-formed
-/

namespace TwoChoice

universe u v

variable {K : Type u} {V : Type v} {slots : Nat}

namespace Candidates

theorem first_le (mask hash : UInt64) : (ofHash mask hash).first ≤ mask.toNat := by
  simp only [ofHash, UInt64.toNat_and]
  exact Nat.and_le_right

theorem second_le (mask hash : UInt64) : (ofHash mask hash).second ≤ mask.toNat := by
  simp only [ofHash, UInt64.toNat_and]
  exact Nat.and_le_right

end Candidates

namespace Table

variable [Key K] [DecidableEq K]

/-- The entries of a table, group by group and in each group slot by slot. -/
def toList (t : Table K V slots) : List (K × V) :=
  t.groups.toList.flatMap Group.toList

/-- The groups, the mask and the recorded size of a table fit together. -/
structure WellFormed (s : Scheme K) (t : Table K V slots) : Prop where
  /-- The number of groups is a power of two. -/
  isPowerOfTwo : t.capacity.isPowerOfTwo
  /-- There are not too few groups. -/
  minimum_le : Capacity.minimum ≤ t.capacity
  /-- The mask is the number of groups less one. -/
  mask_succ : t.mask.toNat + 1 = t.capacity
  /-- In every group the entries come first. -/
  packed : ∀ g ∈ t.groups, g.Packed
  /-- Every entry has a value. -/
  written : ∀ g ∈ t.groups, g.Written
  /-- Every entry lies in one of the two groups that the hash of its key names. -/
  placed : ∀ (i : Nat) (inRange : i < t.groups.size), ∀ entry ∈ t.groups[i].toList,
    i = (t.candidates (s.hash entry.1)).first ∨ i = (t.candidates (s.hash entry.1)).second
  /-- The recorded size is the number of entries. -/
  size_eq : t.size = t.toList.length

omit [Key K] [DecidableEq K] in
/-- A group is found at every index up to the mask. -/
theorem groupAt_of_le {t : Table K V slots} {i : Nat} (le : i ≤ t.mask.toNat)
    (inRange : i < t.groups.size) : t.groupAt i = .ok t.groups[i] := by
  rw [groupAt, if_neg (Nat.not_lt.mpr le), Array.getElem?_eq_getElem inRange]

namespace WellFormed

variable {s : Scheme K} {t : Table K V slots}

theorem first_lt (wellFormed : t.WellFormed s) (hash : UInt64) :
    (t.candidates hash).first < t.groups.size := by
  have le := Candidates.first_le t.mask hash
  have mask_succ := wellFormed.mask_succ
  unfold Table.capacity at mask_succ
  unfold Table.candidates
  omega

theorem second_lt (wellFormed : t.WellFormed s) (hash : UInt64) :
    (t.candidates hash).second < t.groups.size := by
  have le := Candidates.second_le t.mask hash
  have mask_succ := wellFormed.mask_succ
  unfold Table.capacity at mask_succ
  unfold Table.candidates
  omega

theorem groupAt_first (wellFormed : t.WellFormed s) (hash : UInt64) :
    t.groupAt (t.candidates hash).first =
      .ok (getElem t.groups (t.candidates hash).first (wellFormed.first_lt hash)) :=
  groupAt_of_le (Candidates.first_le t.mask hash) (wellFormed.first_lt hash)

theorem groupAt_second (wellFormed : t.WellFormed s) (hash : UInt64) :
    t.groupAt (t.candidates hash).second =
      .ok (getElem t.groups (t.candidates hash).second (wellFormed.second_lt hash)) :=
  groupAt_of_le (Candidates.second_le t.mask hash) (wellFormed.second_lt hash)

/-- Both groups that a hash names are found. -/
theorem candidateGroups_eq (wellFormed : t.WellFormed s) (hash : UInt64) :
    t.candidateGroups hash =
      .ok (getElem t.groups (t.candidates hash).first (wellFormed.first_lt hash),
        getElem t.groups (t.candidates hash).second (wellFormed.second_lt hash)) := by
  rw [candidateGroups, wellFormed.groupAt_first, wellFormed.groupAt_second]

/-- Reading all entries yields the list of them. -/
theorem entries_eq (wellFormed : t.WellFormed s) : t.entries = .ok t.toList := by
  have read : t.groups.toList.mapM Group.entries = .ok (t.groups.toList.map Group.toList) :=
    mapM_eq_ok fun g mem => Group.entries_eq (wellFormed.written g (Array.mem_toList_iff.mp mem))
  rw [entries, read, toList, List.flatMap_def]
  rfl

end WellFormed

@[simp] theorem toList_empty (capacity : Nat) :
    (empty capacity : Table K V slots).toList = [] := by
  simp [toList, empty, List.flatMap_replicate]

/-- A table of empty groups is well-formed if their number is a capacity. -/
theorem wellFormed_empty (s : Scheme K) {capacity : Nat} (isPowerOfTwo : capacity.isPowerOfTwo)
    (minimum_le : Capacity.minimum ≤ capacity) (fits : capacity ≤ Word.limit) :
    (empty capacity : Table K V slots).WellFormed s where
  isPowerOfTwo := by simpa [Table.capacity, empty] using isPowerOfTwo
  minimum_le := by simpa [Table.capacity, empty] using minimum_le
  mask_succ := by
    have eight : (8 : Nat) ≤ capacity := minimum_le
    have bound : capacity - 1 < 2 ^ 64 := by
      have : capacity ≤ 2 ^ 64 := fits
      omega
    simp only [Table.capacity, empty, Array.size_replicate, UInt64.toNat_ofNat',
      Nat.mod_eq_of_lt bound]
    omega
  packed := by
    intro g mem
    rw [(Array.mem_replicate.mp mem).2]
    exact Group.packed_empty
  written := by
    intro g mem
    rw [(Array.mem_replicate.mp mem).2]
    exact Group.written_empty
  placed := by
    intro i inRange entry mem
    simp [empty] at mem
  size_eq := by
    rw [toList_empty]
    rfl

end Table

end TwoChoice
