import Mathlib.Data.List.TakeWhile
import TwoChoice.Group.Lemmas

/-!
# Live slots

A packed group can be looked at in two ways: as an array of keys some of which are vacant, and as
the list of its entries. This module passes from one to the other. The slots that hold a key other
than the vacant one are exactly the slots before the fill, and the entry at a position of the list
is the key and the value of the slot with the same index.

## Main Statements

* `Group.map_fst_toList` — the keys of the entries are the keys before the fill
* `Group.lt_fill_iff` — a slot of a packed group is live exactly if it comes before the fill
* `Group.mem_keys_iff` — where a live key of a packed group is to be found
* `Group.countP_keys` — a packed group has as many live keys as its fill says
* `Group.read_eq` — the value read from a live slot is the value of its entry
-/

namespace TwoChoice.Group

universe u v

variable {K : Type u} {V : Type v} {slots : Nat} [Key K] [DecidableEq K]
variable {g g' : Group K V slots}

/-! ### Entries and slots -/

/-- The vacant key is the key of no entry. -/
theorem key_ne_vacant_of_mem_toList {entry : K × V} (mem : entry ∈ g.toList) :
    entry.1 ≠ Key.vacant := by
  obtain ⟨slot, live, told⟩ := List.mem_filterMap.mp mem
  obtain ⟨value, -, rfl⟩ := Option.map_eq_some_iff.mp told
  simpa using List.mem_takeWhile_imp live

/-- The keys of the entries are the keys before the fill. -/
theorem map_fst_toList (written : g.Written) : g.toList.map Prod.fst = g.liveKeys := by
  have marked := congrArg (List.map Prod.fst) (map_toList written)
  rw [List.map_map, List.map_take, contents, List.map_fst_zip (by simp)] at marked
  exact marked

/-- The key of an entry is the key of its slot. -/
theorem fst_getElem_toList (written : g.Written) {i : Nat} (before : i < g.fill) :
    (getElem g.toList i (by rwa [length_toList written])).1 =
      getElem g.keys i (Nat.lt_of_lt_of_le before g.fill_le) := by
  have keys := List.getElem_of_eq (map_fst_toList written)
    (i := i) (by rwa [List.length_map, length_toList written])
  rw [List.getElem_map] at keys
  simp only [keys, liveKeys, List.getElem_take, Vector.getElem_toList]

/-- The value read from a live slot is the value of its entry. -/
theorem read_eq (written : g.Written) {i : Nat} (before : i < g.fill) :
    g.read i = .ok (getElem g.toList i (by rwa [length_toList written])).2 := by
  have entry := entryAt_eq written before
  rw [entryAt, dif_pos (Nat.lt_of_lt_of_le before g.fill_le)] at entry
  cases told : g.read i with
  | error fault =>
    rw [told] at entry
    cases entry
  | ok value =>
    rw [told] at entry
    rw [← Except.ok.inj entry]

/-! ### Live keys of a packed group -/

/-- From the fill on, the slots of a packed group are vacant. -/
theorem key_eq_vacant_of_fill_le (packed : g.Packed) {i : Nat} (inRange : i < slots)
    (after : g.fill ≤ i) : g.keys[i] = Key.vacant := by
  rcases Nat.eq_or_lt_of_le after with atFill | beyond
  · subst atFill
    exact key_fill_eq_vacant inRange
  · exact packed g.fill i inRange beyond (key_fill_eq_vacant (Nat.lt_trans beyond inRange))

/-- A slot of a packed group is live exactly if it comes before the fill. -/
theorem lt_fill_iff (packed : g.Packed) {i : Nat} (inRange : i < slots) :
    i < g.fill ↔ g.keys[i] ≠ Key.vacant := by
  constructor
  · exact key_ne_vacant_of_lt_fill
  · intro live
    by_contra notBefore
    exact live (key_eq_vacant_of_fill_le packed inRange (Nat.le_of_not_lt notBefore))

/-- A live key of a packed group lies in a slot before the fill. -/
theorem mem_keys_iff (packed : g.Packed) {key : K} (entry : key ≠ Key.vacant) :
    key ∈ g.keys ↔ ∃ (i : Nat) (before : i < g.fill),
      getElem g.keys i (Nat.lt_of_lt_of_le before g.fill_le) = key := by
  constructor
  · intro mem
    obtain ⟨i, inRange, rfl⟩ := Vector.getElem_of_mem mem
    exact ⟨i, (lt_fill_iff packed inRange).mpr entry, rfl⟩
  · rintro ⟨i, before, rfl⟩
    exact Vector.getElem_mem _

/-- A packed group holds a key other than the vacant one exactly if it has an entry for it. -/
theorem mem_keys_iff_exists_mem_toList (packed : g.Packed) (written : g.Written) {key : K}
    (entry : key ≠ Key.vacant) : key ∈ g.keys ↔ ∃ value, (key, value) ∈ g.toList := by
  rw [mem_keys_iff packed entry]
  constructor
  · rintro ⟨i, before, rfl⟩
    have inList : i < g.toList.length := by rwa [length_toList written]
    refine ⟨g.toList[i].2, ?_⟩
    rw [← fst_getElem_toList written before]
    exact List.getElem_mem inList
  · rintro ⟨value, mem⟩
    obtain ⟨i, inList, same⟩ := List.getElem_of_mem mem
    have before : i < g.fill := by rwa [length_toList written] at inList
    refine ⟨i, before, ?_⟩
    rw [← fst_getElem_toList written before, same]

/-- A packed group has as many live keys as its fill says. -/
theorem countP_keys (packed : g.Packed) :
    (g.keys.toList.countP fun key => key ≠ Key.vacant) = g.fill := by
  -- Every key before the fill counts, and none from the fill on.
  have live : ((g.keys.toList.take g.fill).countP fun key => key ≠ Key.vacant) =
      (g.keys.toList.take g.fill).length := by
    rw [List.countP_eq_length]
    intro key mem
    obtain ⟨i, inTake, rfl⟩ := List.getElem_of_mem mem
    have before : i < g.fill := by
      rw [List.length_take] at inTake
      omega
    simpa using key_ne_vacant_of_lt_fill before
  have vacant : ((g.keys.toList.drop g.fill).countP fun key => key ≠ Key.vacant) = 0 := by
    rw [List.countP_eq_zero]
    intro key mem
    obtain ⟨i, inDrop, rfl⟩ := List.getElem_of_mem mem
    rw [List.length_drop, Vector.length_toList] at inDrop
    simpa using key_eq_vacant_of_fill_le packed (i := g.fill + i) (by omega) (by omega)
  rw [← List.take_append_drop g.fill g.keys.toList, List.countP_append, live, vacant,
    List.length_take, Vector.length_toList, Nat.min_eq_left g.fill_le, Nat.add_zero]

end TwoChoice.Group
