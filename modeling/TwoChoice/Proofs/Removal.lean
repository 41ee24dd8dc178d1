import Mathlib.Data.List.Perm.Basic
import TwoChoice.Proofs.Lookup
import TwoChoice.Table.Update

/-!
# Removal

Taking out the entry at a position shortens the list of its group by that entry and touches nothing
else. Erasing a key takes out the entry that a lookup finds. It changes nothing if the key is not
stored, and it can fail only if a group has so many slots that the comparisons with two of them
cannot be counted in 64 bits.

## Main Definitions

* `Table.Removes` — an edit that takes out the entry at a position
* `Table.Erasure` — the ways in which erasing a key ends

## Main Statements

* `Table.WellFormed.removal_eq` — where there is an entry, it can be taken out
* `Table.Removes.wellFormed`, `Table.Removes.perm` — what is left then
* `Table.WellFormed.erasure_erase`, `Table.WellFormed.erasure_eraseUnchecked` — erasing a key ends
  in one of the ways
-/

namespace TwoChoice.Table

universe u v w

variable {K : Type u} {V : Type v} {slots : Nat} [Key K] [DecidableEq K]
variable {s : Scheme K} {t : Table K V slots} {key : K} {entry : K × V} {p : Position}
variable {change : Edit K V slots}

/-! ### One position -/

/-- The edit takes out what lies at a position. -/
structure Removes (t : Table K V slots) (p : Position) (change : Edit K V slots) : Prop where
  /-- The edit is one of the position's group. -/
  index_eq : change.index = p.group
  /-- The group exists. -/
  inRange : change.index < t.groups.size
  /-- The new contents are the old ones with the position's slot vacated. -/
  removed : t.groups[change.index].remove p.slot = .ok change.group

/-- Where there is an entry, it can be taken out. -/
theorem WellFormed.removal_eq (wellFormed : t.WellFormed s)
    (stored : t.entryAt? p = some entry) :
    ∃ change, t.removal p = .ok change ∧ t.Removes p change := by
  obtain ⟨inRange, told⟩ := entryAt?_eq_some_iff.mp stored
  have inSlots : p.slot < slots :=
    Nat.lt_of_lt_of_le (wellFormed.slot_lt_fill told) (Group.fill_le _)
  obtain ⟨g', removed⟩ : ∃ g', t.groups[p.group].remove p.slot = .ok g' :=
    ⟨_, by rw [Group.remove, if_pos inSlots]⟩
  have notEmpty : t.size ≠ 0 := by
    rw [wellFormed.size_eq]
    exact Nat.ne_of_gt (List.length_pos_of_mem (mem_toList_of_entryAt? stored))
  refine ⟨⟨p.group, g'⟩, ?_, ⟨rfl, inRange, removed⟩⟩
  rw [removal, wellFormed.groupAt_eq inRange]
  simp only [removed, if_neg notEmpty]

namespace Removes

/-- The group of the edit loses the entry and keeps the others in order. -/
theorem toList_group (removes : t.Removes p change) (wellFormed : t.WellFormed s)
    (stored : t.entryAt? p = some entry) :
    change.group.toList =
      (getElem t.groups change.index removes.inRange).toList.eraseIdx p.slot := by
  obtain ⟨inRange, told⟩ := entryAt?_eq_some_iff.mp stored
  have before : p.slot < (getElem t.groups change.index removes.inRange).fill := by
    simp only [removes.index_eq]
    exact wellFormed.slot_lt_fill told
  exact Group.toList_remove (wellFormed.written_getElem removes.inRange) before removes.removed

/-- The table loses the entry at the position and keeps the others. -/
theorem perm (removes : t.Removes p change) (wellFormed : t.WellFormed s)
    (stored : t.entryAt? p = some entry) (n : Nat) :
    t.toList.Perm (entry :: (t.edit change n).toList) := by
  obtain ⟨inRange, told⟩ := entryAt?_eq_some_iff.mp stored
  obtain ⟨before, after, old, new⟩ := toList_edit removes.inRange change.group n
  have told' : (getElem t.groups change.index removes.inRange).toList[p.slot]? = some entry := by
    simp only [removes.index_eq]
    exact told
  obtain ⟨inList, same⟩ := List.getElem?_eq_some_iff.mp told'
  have inGroup := (List.getElem_cons_eraseIdx_perm inList).symm
  rw [same, ← removes.toList_group wellFormed stored] at inGroup
  rw [old, new]
  exact ((inGroup.append_right after).append_left before).trans List.perm_middle

/-- Taking an entry out keeps a table well-formed. -/
theorem wellFormed (removes : t.Removes p change) (wellFormed : t.WellFormed s)
    (stored : t.entryAt? p = some entry) : (t.edit change (t.size - 1)).WellFormed s := by
  have toList_eq := removes.toList_group wellFormed stored
  have packed := wellFormed.packed_getElem removes.inRange
  have written := wellFormed.written_getElem removes.inRange
  refine wellFormed.edit removes.inRange (Group.packed_remove packed removes.removed)
    (Group.written_remove written removes.removed) ?_ ?_
  · intro entry' mem
    rw [toList_eq] at mem
    exact wellFormed.placed _ removes.inRange entry' (List.mem_of_mem_eraseIdx mem)
  · have count := (removes.perm wellFormed stored 0).length_eq
    obtain ⟨before, after, old, new⟩ := toList_edit removes.inRange change.group 0
    have size_eq := wellFormed.size_eq
    rw [old] at size_eq count
    rw [new] at count
    simp only [List.length_append, List.length_cons] at size_eq count
    omega

end Removes

/-! ### Erasing a key -/

/-- The ways in which erasing a key ends. What a miss and a hit lead to is up to the operation. -/
inductive Erasure {α : Type w} (t : Table K V slots) (key : K) (miss : Except Fault α) (hit : α) :
    Updated K V slots α → Prop
  /-- The key is not stored. -/
  | absent (notStored : ∀ value, (key, value) ∉ t.toList) : Erasure t key miss hit ⟨miss, t⟩
  /-- An entry of the key is taken out. -/
  | removed (p : Position) (value : V) (change : Edit K V slots)
      (stored : t.entryAt? p = some (key, value)) (removes : t.Removes p change) :
      Erasure t key miss hit ⟨.ok hit, t.edit change (t.size - 1)⟩
  /-- The comparisons cannot be counted. -/
  | overflowed (tooMany : Word.limit ≤ 2 * slots) :
      Erasure t key miss hit ⟨.error .counterOverflow, t⟩

namespace WellFormed

/-- Erasing a key ends in one of the ways. -/
theorem erasure_erase (wellFormed : t.WellFormed s) (key : K) :
    Erasure t key (.ok false) true (t.erase s key) := by
  have location := wellFormed.location_locate key 0
  unfold erase
  cases located : (t.locate key (s.hash key) 0).result with
  | error fault =>
    rw [located] at location
    cases location with
    | overflowed tooMany => exact .overflowed (by simpa using tooMany)
  | ok place =>
    rw [located] at location
    cases location with
    | absent notStored => exact .absent notStored
    | found p value stored =>
      obtain ⟨change, removal_eq, removes⟩ := wellFormed.removal_eq stored
      simp only [removal_eq]
      exact .removed p value change stored removes

/-- So does erasing a key that is taken to be stored. -/
theorem erasure_eraseUnchecked (wellFormed : t.WellFormed s) (live : key ≠ Key.vacant) :
    Erasure t key (.error .missingKey) () (t.eraseUnchecked s key) := by
  have location := wellFormed.location_locateUnchecked live 0
  unfold eraseUnchecked
  cases located : (t.locateUnchecked key (s.hash key) 0).result with
  | error fault =>
    rw [located] at location
    cases location with
    | absent notStored => exact .absent notStored
    | overflowed tooMany => exact .overflowed (by simpa using tooMany)
  | ok p =>
    rw [located] at location
    cases location with
    | found p value stored =>
      obtain ⟨change, removal_eq, removes⟩ := wellFormed.removal_eq stored
      simp only [id_eq, removal_eq]
      exact .removed p value change stored removes

end WellFormed

end TwoChoice.Table
