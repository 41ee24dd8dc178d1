import TwoChoice.Group.Lemmas

/-!
# Groups implement bounded lists

A packed group is a list that has room for as many entries as the group has slots. Its fill is the
length of the list, a push at the fill appends to it, a removal takes one element out, and a reset
empties it. Each of these leaves a packed group again, so they can follow one another in any order.

The list is all there is to a group: what lies behind its end, vacant keys and values that were left
behind, never shows. A removal beyond the end therefore leaves the list alone, although it does move
what lies there.

## Main Definitions

* `Group.Represents` — a packed group has the entries of a list
* `Group.ActsAsList` — the operations of a group are those of a bounded list

## Main Statements

* `Group.toList_remove_of_le` — a removal beyond the entries leaves them alone
* `Group.Represents.push`, `Group.Represents.remove`, `Group.represents_reset` — what the operations
  make of the list
* `Group.Represents.actsAsList` — a group that represents a list acts as that list
-/

namespace TwoChoice.Group

universe u v

variable {K : Type u} {V : Type v} {slots : Nat} [Key K] [DecidableEq K]
variable {g g' : Group K V slots} {entries : List (K × V)} {key : K} {value : V} {slot : Nat}

/-! ### Beyond the entries -/

/-- Groups that agree up to their common fill have the same entries. -/
theorem toList_eq_of_agree (written : g.Written) (written' : g'.Written)
    (fill_eq : g'.fill = g.fill)
    (agree : ∀ (i : Nat) (inRange : i < slots), i < g.fill →
      g'.keys[i] = g.keys[i] ∧ g'.values[i] = g.values[i]) : g'.toList = g.toList := by
  apply eq_of_map_some_eq
  rw [map_toList written', map_toList written, fill_eq]
  refine List.ext_getElem (by simp only [List.length_take, length_contents]) fun i inLeft _ => ?_
  rw [List.length_take] at inLeft
  obtain ⟨key_eq, value_eq⟩ := agree i (by rw [length_contents] at inLeft; omega) (by omega)
  rw [List.getElem_take, List.getElem_take, getElem_contents, getElem_contents, key_eq, value_eq]

/-- A removal beyond the entries meets vacant slots only, and moves one of them to the fill. -/
theorem fill_remove_of_le (packed : g.Packed) (beyond : g.fill ≤ slot)
    (removed : g.remove slot = .ok g') : g'.fill = g.fill := by
  have bound := g.fill_le
  refine (fill_eq_iff bound).mpr ⟨fun i before => ?_, fun room => ?_⟩
  · rw [keys_remove removed, if_pos (by omega)]
    exact key_ne_vacant_of_lt_fill before
  · have vacant := key_fill_eq_vacant room
    rw [keys_remove removed]
    by_cases before : g.fill < slot
    · rwa [if_pos before]
    · rw [if_neg before]
      by_cases next : g.fill + 1 < slots
      · rw [dif_pos next]
        exact packed g.fill (g.fill + 1) next (by omega) vacant
      · rw [dif_neg next]

/-- A removal beyond the entries leaves them alone. -/
theorem toList_remove_of_le (packed : g.Packed) (written : g.Written) (beyond : g.fill ≤ slot)
    (removed : g.remove slot = .ok g') : g'.toList = g.toList := by
  refine toList_eq_of_agree written (written_remove written removed)
    (fill_remove_of_le packed beyond removed) fun i inRange before => ?_
  rw [keys_remove removed, values_remove removed, if_pos (by omega), if_pos (by omega)]
  exact ⟨rfl, rfl⟩

/-! ### Lists -/

/-- A packed group whose entries, up to the first vacant slot, are those of a list. -/
structure Represents (g : Group K V slots) (entries : List (K × V)) : Prop where
  /-- No entry comes after a vacant slot. -/
  packed : g.Packed
  /-- Every entry has a value. -/
  written : g.Written
  /-- The entries are those of the list. -/
  toList_eq : g.toList = entries

/-- A reset empties the list. -/
theorem represents_reset (g : Group K V slots) : g.reset.Represents [] :=
  ⟨g.packed_reset, g.written_reset, g.toList_reset⟩

namespace Represents

theorem fill_eq (represents : g.Represents entries) : g.fill = entries.length := by
  rw [← represents.toList_eq, length_toList represents.written]

theorem length_le (represents : g.Represents entries) : entries.length ≤ slots :=
  represents.fill_eq ▸ g.fill_le

/-- Each slot before the fill has the element of the list at its index, with its own value. -/
theorem entryAt (represents : g.Represents entries) {entry : K × V}
    (listed : entries[slot]? = some entry) : g.entryAt slot = .ok entry := by
  obtain ⟨inList, rfl⟩ := List.getElem?_eq_some_iff.mp listed
  rw [entryAt_eq represents.written (represents.fill_eq ▸ inList)]
  simp only [represents.toList_eq]

/-- A push at the fill appends to the list. -/
theorem push (represents : g.Represents entries) (live : key ≠ Key.vacant)
    (room : entries.length < slots) (value : V) :
    ∃ g', g.push g.fill key value = .ok g' ∧ g'.Represents (entries ++ [(key, value)]) := by
  have stored := push_fill (represents.fill_eq ▸ room) key value
  refine ⟨_, stored, packed_push represents.packed live stored,
    written_push represents.written stored, ?_⟩
  rw [toList_push represents.packed represents.written live stored, represents.toList_eq]

/-- A removal takes the element at its index out of the list, if there is one, and keeps the others
in order. The last slot is vacant afterwards. -/
theorem remove (represents : g.Represents entries) (inRange : slot < slots) :
    ∃ g', g.remove slot = .ok g' ∧ g'.Represents (entries.eraseIdx slot) ∧
      g'.keys[slots - 1]? = some Key.vacant := by
  obtain ⟨g', removed⟩ : ∃ g', g.remove slot = .ok g' := ⟨_, if_pos inRange⟩
  have last : slots - 1 < slots := by omega
  refine ⟨g', removed, ⟨packed_remove represents.packed removed,
    written_remove represents.written removed, ?_⟩, ?_⟩
  · rw [← represents.toList_eq]
    by_cases before : slot < g.fill
    · exact toList_remove represents.written before removed
    · have beyond : g.fill ≤ slot := Nat.le_of_not_lt before
      rw [toList_remove_of_le represents.packed represents.written beyond removed,
        List.eraseIdx_of_length_le]
      rwa [length_toList represents.written]
  · rw [Vector.getElem?_eq_getElem last, key_last_remove removed last]

end Represents

/-- The operations of a group are those of a list that is never longer than the group has slots. -/
structure ActsAsList (g : Group K V slots) (entries : List (K × V)) : Prop where
  /-- The fill is the length. -/
  fill_eq : g.fill = entries.length
  /-- There are not more elements than slots. -/
  length_le : entries.length ≤ slots
  /-- The slots hold the elements in their order. -/
  entryAt_eq : ∀ slot entry, entries[slot]? = some entry → g.entryAt slot = .ok entry
  /-- Where there is room, a push at the fill appends. -/
  appended : entries.length < slots → ∀ key value, key ≠ Key.vacant →
    ∃ g', g.push g.fill key value = .ok g' ∧ g'.Represents (entries ++ [(key, value)])
  /-- Where there is none, it is refused. -/
  refused : entries.length = slots → ∀ key value,
    g.push g.fill key value = .error (.breach .slotIndex)
  /-- A removal takes out the element at its index and no other, and vacates the last slot. Beyond
  the end there is no element to take out. -/
  removed : ∀ slot < slots, ∃ g', g.remove slot = .ok g' ∧
    g'.Represents (entries.eraseIdx slot) ∧ g'.keys[slots - 1]? = some Key.vacant
  /-- A reset leaves no element. -/
  cleared : g.reset.Represents []

/-- A group that represents a list acts as that list, and represents the list that an operation
makes of it afterwards. -/
theorem Represents.actsAsList (represents : g.Represents entries) : g.ActsAsList entries where
  fill_eq := represents.fill_eq
  length_le := represents.length_le
  entryAt_eq _ _ listed := represents.entryAt listed
  appended room _ value live := represents.push live room value
  refused full key value := by
    rw [Group.push, dif_neg (by rw [represents.fill_eq]; omega)]
  removed _ inRange := represents.remove inRange
  cleared := represents_reset g

/-- A group without a vacant slot. -/
def crowded : Group ZeroVacant UInt64 3 where
  keys := #v[⟨1⟩, ⟨2⟩, ⟨3⟩]
  values := #v[some 10, some 20, some 30]

theorem represents_crowded : crowded.Represents [(⟨1⟩, 10), (⟨2⟩, 20), (⟨3⟩, 30)] := by
  have live : ∀ i : Fin 3, crowded.keys[i] ≠ Key.vacant := by decide
  have told : ∀ i : Fin 3, crowded.values[i].isSome := by decide
  refine ⟨fun i j inRange before vacant => ?_, fun i inRange _ => ?_, by decide⟩
  · exact absurd vacant (live ⟨i, Nat.lt_trans before inRange⟩)
  · exact told ⟨i, inRange⟩

/-- Taking the entry in the middle out moves the last one, with its value, and leaves a vacant slot
where there was none. -/
theorem actsAsList_crowded :
    crowded.Represents [(⟨1⟩, 10), (⟨2⟩, 20), (⟨3⟩, 30)] ∧
      crowded.push crowded.fill ⟨4⟩ 40 = .error (.breach .slotIndex) ∧
      ∃ g', crowded.remove 1 = .ok g' ∧ g'.Represents [(⟨1⟩, 10), (⟨3⟩, 30)] ∧
        g'.keys[2]? = some Key.vacant := by
  have acts := represents_crowded.actsAsList
  exact ⟨represents_crowded, acts.refused rfl ⟨4⟩ 40, acts.removed 1 (by decide)⟩

end TwoChoice.Group
