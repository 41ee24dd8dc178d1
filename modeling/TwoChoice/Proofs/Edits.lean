import TwoChoice.Proofs.LiveSlots
import TwoChoice.Table.Growth
import TwoChoice.Table.WellFormed

/-!
# Edits of one group

Every update of a table other than growth and clearing gives one group new contents and leaves the
others alone. What such an edit does to the list of entries, to the fills and to well-formedness is
said here once. Placement and removal only have to say what becomes of their group.

## Main Definitions

* `Table.fillAt` — the number of entries in the group at an index

## Main Statements

* `Table.toList_edit` — an edit replaces the entries of its group, in their place
* `Table.fillAt_edit` — an edit changes the fill of its group only
* `Table.WellFormed.edit` — an edit keeps well-formedness if the new contents are in order
-/

namespace TwoChoice.Table

universe u v

variable {K : Type u} {V : Type v} {slots : Nat} {t : Table K V slots} {g' : Group K V slots}
variable {i n : Nat}

/-! ### What an edit leaves alone -/

@[simp] theorem groups_edit (t : Table K V slots) (i : Nat) (g' : Group K V slots) (n : Nat) :
    (t.edit ⟨i, g'⟩ n).groups = t.groups.setIfInBounds i g' := rfl

@[simp] theorem mask_edit (t : Table K V slots) (change : Edit K V slots) (n : Nat) :
    (t.edit change n).mask = t.mask := rfl

@[simp] theorem size_edit (t : Table K V slots) (change : Edit K V slots) (n : Nat) :
    (t.edit change n).size = n := rfl

@[simp] theorem candidates_edit (t : Table K V slots) (change : Edit K V slots) (n : Nat)
    (hash : UInt64) : (t.edit change n).candidates hash = t.candidates hash := rfl

variable [Key K] [DecidableEq K]

/-! ### Fills -/

/-- The number of entries in the group at an index. Outside the table there are none. -/
def fillAt (t : Table K V slots) (i : Nat) : Nat :=
  t.groups[i]?.elim 0 Group.fill

theorem fillAt_eq (inRange : i < t.groups.size) : t.fillAt i = t.groups[i].fill := by
  rw [fillAt, Array.getElem?_eq_getElem inRange]
  rfl

theorem fillAt_le (t : Table K V slots) (i : Nat) : t.fillAt i ≤ slots := by
  unfold fillAt
  cases t.groups[i]? with
  | none => exact Nat.zero_le slots
  | some g => exact g.fill_le

/-- An edit changes the fill of its group only. -/
theorem fillAt_edit (inRange : i < t.groups.size) (g' : Group K V slots) (n j : Nat) :
    (t.edit ⟨i, g'⟩ n).fillAt j = if j = i then g'.fill else t.fillAt j := by
  unfold fillAt
  rw [groups_edit, Array.getElem?_setIfInBounds]
  by_cases same : j = i
  · subst same
    simp [inRange]
  · rw [if_neg (Ne.symm same), if_neg same]

/-! ### Entries -/

/-- The entries before, in and after the group at an index. -/
theorem toList_split (inRange : i < t.groups.size) :
    t.toList = (t.groups.toList.take i).flatMap Group.toList ++
      (t.groups[i].toList ++ (t.groups.toList.drop (i + 1)).flatMap Group.toList) := by
  have inList : i < t.groups.toList.length := by rwa [Array.length_toList]
  have split : t.groups.toList =
      t.groups.toList.take i ++ t.groups[i] :: t.groups.toList.drop (i + 1) := by
    rw [← Array.getElem_toList, ← List.drop_eq_getElem_cons inList, List.take_append_drop]
  calc t.toList
      = (t.groups.toList.take i ++ t.groups[i] :: t.groups.toList.drop (i + 1)).flatMap
          Group.toList := congrArg (List.flatMap Group.toList) split
    _ = _ := by rw [List.flatMap_append, List.flatMap_cons]

/-- An edit replaces the entries of its group. Those before and after them stay where they are. -/
theorem toList_edit (inRange : i < t.groups.size) (g' : Group K V slots) (n : Nat) :
    ∃ before after, t.toList = before ++ (t.groups[i].toList ++ after) ∧
      (t.edit ⟨i, g'⟩ n).toList = before ++ (g'.toList ++ after) := by
  refine ⟨_, _, toList_split inRange, ?_⟩
  have inRange' : i < (t.edit ⟨i, g'⟩ n).groups.size := by simpa using inRange
  rw [toList_split inRange']
  simp only [groups_edit, Array.toList_setIfInBounds, Array.getElem_setIfInBounds_self]
  rw [List.take_set_of_le (Nat.le_refl i), List.drop_set_of_lt (Nat.lt_succ_self i)]

/-- The entries of a group are entries of its table. -/
theorem mem_toList_of_mem_group (inRange : i < t.groups.size) {entry : K × V}
    (mem : entry ∈ t.groups[i].toList) : entry ∈ t.toList :=
  List.mem_flatMap.mpr ⟨t.groups[i], by simp, mem⟩

/-- Every entry of a table lies in one of its groups. -/
theorem exists_group_of_mem_toList {entry : K × V} (mem : entry ∈ t.toList) :
    ∃ (i : Nat) (inRange : i < t.groups.size), entry ∈ t.groups[i].toList := by
  obtain ⟨g, inGroups, inGroup⟩ := List.mem_flatMap.mp mem
  obtain ⟨i, inRange, rfl⟩ := List.getElem_of_mem inGroups
  exact ⟨i, inRange, inGroup⟩

/-- The vacant key is the key of no entry. -/
theorem key_ne_vacant_of_mem_toList {entry : K × V} (mem : entry ∈ t.toList) :
    entry.1 ≠ Key.vacant := by
  obtain ⟨i, inRange, inGroup⟩ := exists_group_of_mem_toList mem
  exact Group.key_ne_vacant_of_mem_toList inGroup

/-! ### Well-formedness -/

namespace WellFormed

variable {s : Scheme K}

theorem packed_getElem (wellFormed : t.WellFormed s) (inRange : i < t.groups.size) :
    t.groups[i].Packed :=
  wellFormed.packed _ (Array.getElem_mem inRange)

theorem written_getElem (wellFormed : t.WellFormed s) (inRange : i < t.groups.size) :
    t.groups[i].Written :=
  wellFormed.written _ (Array.getElem_mem inRange)

/-- Every group of a well-formed table is found at its index. -/
theorem groupAt_eq (wellFormed : t.WellFormed s) (inRange : i < t.groups.size) :
    t.groupAt i = .ok t.groups[i] := by
  have mask_succ := wellFormed.mask_succ
  unfold capacity at mask_succ
  exact groupAt_of_le (by omega) inRange

/-- A group of a well-formed table has as many entries as the fill at its index says. -/
theorem length_toList_getElem (wellFormed : t.WellFormed s) (inRange : i < t.groups.size) :
    t.groups[i].toList.length = t.fillAt i := by
  rw [fillAt_eq inRange, Group.length_toList (wellFormed.written_getElem inRange)]

/-- New contents of one group keep a table well-formed if they are packed and written, if all of
them belong there, and if the recorded size follows their number. -/
theorem edit (wellFormed : t.WellFormed s) (inRange : i < t.groups.size) (packed : g'.Packed)
    (written : g'.Written)
    (placed : ∀ entry ∈ g'.toList, i = (t.candidates (s.hash entry.1)).first ∨
      i = (t.candidates (s.hash entry.1)).second)
    (size_eq : n + t.groups[i].toList.length = t.size + g'.toList.length) :
    (t.edit ⟨i, g'⟩ n).WellFormed s where
  isPowerOfTwo := by simpa using wellFormed.isPowerOfTwo
  minimum_le := by simpa using wellFormed.minimum_le
  mask_succ := by simpa using wellFormed.mask_succ
  packed := by
    intro g mem
    rcases Array.mem_or_eq_of_mem_setIfInBounds mem with old | rfl
    · exact wellFormed.packed g old
    · exact packed
  written := by
    intro g mem
    rcases Array.mem_or_eq_of_mem_setIfInBounds mem with old | rfl
    · exact wellFormed.written g old
    · exact written
  placed := by
    intro j inRange' entry mem
    have inOld : j < t.groups.size := by simpa using inRange'
    simp only [groups_edit, Array.getElem_setIfInBounds inOld] at mem
    by_cases same : i = j
    · subst same
      rw [if_pos rfl] at mem
      exact placed entry mem
    · rw [if_neg same] at mem
      exact wellFormed.placed j inOld entry mem
  size_eq := by
    obtain ⟨before, after, old, new⟩ := toList_edit inRange g' n
    have count := wellFormed.size_eq
    rw [old] at count
    rw [new, size_edit]
    simp only [List.length_append] at count ⊢
    omega

end WellFormed

end TwoChoice.Table
