import TwoChoice.Group

/-!
# Groups as bounded lists

A packed group whose entries have their values is the list of its entries, in slot order. Its
operations are operations on that list.

## Main Statements

* `Group.fill_eq_iff` — the fill is where the entries end
* `Group.map_toList` — the entries are the slots before the fill
* `Group.toList_push` — writing the slot at the fill appends an entry
* `Group.toList_remove` — vacating a slot takes one entry out and keeps the others in order
* `Group.toList_reset` — a reset group has no entries

Each operation keeps `Packed` and `Written`.
-/

namespace TwoChoice.Group

universe u v w

variable {K : Type u} {V : Type v} {slots : Nat} [Key K] [DecidableEq K]

/-! ### The fill -/

theorem fill_le (g : Group K V slots) : g.fill ≤ slots := by
  have bound : g.fill ≤ g.keys.toArray.size := Array.findIdx_le_size
  rwa [g.keys.size_toArray] at bound

/-- The slots before the fill hold entries. -/
theorem key_ne_vacant_of_lt_fill {g : Group K V slots} {i : Nat} (before : i < g.fill) :
    getElem g.keys i (Nat.lt_of_lt_of_le before g.fill_le) ≠ Key.vacant := by
  have notVacant := Array.not_of_lt_findIdx before
  exact of_decide_eq_false notVacant

/-- The slot at the fill, if there is one, is vacant. -/
theorem key_fill_eq_vacant {g : Group K V slots} (room : g.fill < slots) :
    g.keys[g.fill] = Key.vacant := by
  have inArray : g.fill < g.keys.toArray.size := by rwa [g.keys.size_toArray]
  have vacant := Array.findIdx_getElem (w := inArray)
  exact of_decide_eq_true vacant

/-- The fill is the number of slots before which all hold entries and at which none does. -/
theorem fill_eq_iff {g : Group K V slots} {n : Nat} (le : n ≤ slots) :
    g.fill = n ↔
      (∀ (i : Nat) (before : i < n), g.keys[i] ≠ Key.vacant) ∧
        ∀ room : n < slots, g.keys[n] = Key.vacant := by
  constructor
  · rintro rfl
    exact ⟨fun i before => key_ne_vacant_of_lt_fill before, key_fill_eq_vacant⟩
  · rintro ⟨entries, vacancy⟩
    rcases Nat.lt_trichotomy g.fill n with less | equal | greater
    · exact absurd (key_fill_eq_vacant (Nat.lt_of_lt_of_le less le)) (entries _ less)
    · exact equal
    · have room := Nat.lt_of_lt_of_le greater g.fill_le
      exact absurd (vacancy room) (key_ne_vacant_of_lt_fill greater)

/-! ### The entries -/

omit [Key K] [DecidableEq K] in
theorem length_contents (g : Group K V slots) : g.contents.length = slots := by
  simp [contents]

omit [Key K] [DecidableEq K] in
theorem getElem_contents (g : Group K V slots) {i : Nat} (inRange : i < g.contents.length) :
    g.contents[i] =
      (getElem g.keys i (g.length_contents ▸ inRange),
        getElem g.values i (g.length_contents ▸ inRange)) := by
  simp [contents]

/-- The slots before the first vacant one are the slots before the fill. -/
theorem takeWhile_contents (g : Group K V slots) :
    (g.contents.takeWhile fun slot => slot.1 ≠ Key.vacant) = g.contents.take g.fill := by
  rw [List.takeWhile_eq_take_findIdx_not]
  congr 1
  have keys_eq : g.keys.toList = g.contents.map Prod.fst := by
    rw [contents, List.map_fst_zip (by simp)]
  have fill_list : g.fill = g.keys.toList.findIdx fun key => key = Key.vacant := by
    rw [fill, ← List.findIdx_toArray]
    rfl
  rw [fill_list, keys_eq, List.findIdx_map]
  congr 1
  funext slot
  simp

omit [Key K] [DecidableEq K] in
/-- Slots whose values were all written are told by their entries. -/
theorem map_filterMap_of_isSome {l : List (K × Option V)} (written : ∀ slot ∈ l, slot.2.isSome) :
    (l.filterMap fun slot => slot.2.map fun value => (slot.1, value)).map
      (fun entry => (entry.1, some entry.2)) = l := by
  induction l with
  | nil => rfl
  | cons slot rest ih =>
    obtain ⟨key, value?⟩ := slot
    have rest_eq := ih fun slot mem => written slot (List.mem_cons_of_mem _ mem)
    cases value? with
    | none => simpa using written _ List.mem_cons_self
    | some value => simp [rest_eq]

/-- The entries, each with a value that was written, are the slots before the fill. -/
theorem map_toList {g : Group K V slots} (written : g.Written) :
    g.toList.map (fun entry => (entry.1, some entry.2)) = g.contents.take g.fill := by
  rw [toList, takeWhile_contents]
  apply map_filterMap_of_isSome
  intro slot mem
  obtain ⟨i, inRange, rfl⟩ := List.getElem_of_mem mem
  have before : i < g.fill := by
    rw [List.length_take] at inRange
    omega
  rw [List.getElem_take, getElem_contents]
  exact written i _ (key_ne_vacant_of_lt_fill before)

/-- A group has as many entries as its fill says. -/
theorem length_toList {g : Group K V slots} (written : g.Written) : g.toList.length = g.fill := by
  have lengths := congrArg List.length (map_toList written)
  rw [List.length_map, List.length_take, length_contents] at lengths
  rw [lengths]
  exact Nat.min_eq_left g.fill_le

omit [Key K] [DecidableEq K] in
/-- Two lists of entries are equal if they are when every value is marked as written. -/
theorem eq_of_map_some_eq {l l' : List (K × V)}
    (equal : l.map (fun entry => (entry.1, some entry.2)) =
      l'.map fun entry => (entry.1, some entry.2)) : l = l' := by
  apply List.map_inj_right _ |>.mp equal
  intro a b same
  simp only [Prod.mk.injEq, Option.some.injEq] at same
  exact Prod.ext same.1 same.2

/-- The entry in a slot before the fill. -/
theorem entryAt_eq {g : Group K V slots} (written : g.Written) {i : Nat} (before : i < g.fill) :
    g.entryAt i = .ok (getElem g.toList i (by rwa [length_toList written])) := by
  have inRange := Nat.lt_of_lt_of_le before g.fill_le
  have entry := key_ne_vacant_of_lt_fill before
  obtain ⟨value, value_eq⟩ := Option.isSome_iff_exists.mp (written i inRange entry)
  have stored : getElem g.toList i (by rwa [length_toList written]) = (g.keys[i], value) := by
    have marked := List.getElem_of_eq (map_toList written)
      (i := i) (by rwa [List.length_map, length_toList written])
    rw [List.getElem_map, List.getElem_take, getElem_contents, value_eq] at marked
    simp only [Prod.mk.injEq, Option.some.injEq] at marked
    exact Prod.ext marked.1 marked.2
  rw [stored, entryAt, dif_pos inRange, read, dif_pos inRange, if_neg entry, value_eq]
  rfl

/-- Reading a group slot by slot yields its entries. -/
theorem entries_eq {g : Group K V slots} (written : g.Written) : g.entries = .ok g.toList := by
  have length_eq := length_toList written
  have readUpTo (n : Nat) (le : n ≤ g.fill) :
      (List.range n).mapM g.entryAt = .ok (g.toList.take n) := by
    induction n with
    | zero => rfl
    | succ n ih =>
      have inList : n < g.toList.length := by omega
      rw [List.range_succ, List.mapM_append, ih (by omega), List.mapM_cons,
        entryAt_eq written (by omega), List.take_succ_eq_append_getElem inList]
      rfl
  rw [entries, readUpTo _ (Nat.le_refl _), List.take_of_length_le (by omega)]

/-! ### Operations -/

section Empty

omit [DecidableEq K]

theorem packed_empty : (empty : Group K V slots).Packed := by
  intro i j inRange before _
  simp [empty]

theorem written_empty : (empty : Group K V slots).Written := by
  intro i inRange entry
  simp [empty] at entry

theorem packed_reset (g : Group K V slots) : g.reset.Packed := by
  intro i j inRange before _
  simp [reset]

theorem written_reset (g : Group K V slots) : g.reset.Written := by
  intro i inRange entry
  simp [reset] at entry

end Empty

@[simp] theorem fill_empty : (empty : Group K V slots).fill = 0 :=
  (fill_eq_iff (Nat.zero_le _)).mpr ⟨by simp, by simp [empty]⟩

@[simp] theorem fill_reset (g : Group K V slots) : g.reset.fill = 0 :=
  (fill_eq_iff (Nat.zero_le _)).mpr ⟨by simp, by simp [reset]⟩

@[simp] theorem toList_empty : (empty : Group K V slots).toList = [] :=
  List.eq_nil_of_length_eq_zero (by rw [length_toList written_empty, fill_empty])

/-- A reset group has no entries. -/
@[simp] theorem toList_reset (g : Group K V slots) : g.reset.toList = [] :=
  List.eq_nil_of_length_eq_zero (by rw [length_toList g.written_reset, fill_reset])

section Push

variable {g g' : Group K V slots} {key : K} {value : V}

/-- A group with a vacant slot takes another entry. -/
theorem push_fill (room : g.fill < slots) (key : K) (value : V) :
    g.push g.fill key value =
      .ok ⟨g.keys.set g.fill key, g.values.set g.fill (some value)⟩ := by
  rw [push, dif_pos room, if_neg]
  rintro ⟨notFirst, vacant⟩
  exact key_ne_vacant_of_lt_fill (i := g.fill - 1) (by omega) vacant

theorem lt_of_push {slot : Nat} (stored : g.push slot key value = .ok g') : slot < slots := by
  unfold push at stored
  split at stored
  · assumption
  · cases stored

theorem keys_push (stored : g.push g.fill key value = .ok g') {i : Nat} (inRange : i < slots) :
    g'.keys[i] = if g.fill = i then key else g.keys[i] := by
  have room := lt_of_push stored
  rw [push_fill room] at stored
  obtain rfl := Except.ok.inj stored
  exact Vector.getElem_set room inRange

theorem values_push (stored : g.push g.fill key value = .ok g') {i : Nat} (inRange : i < slots) :
    g'.values[i] = if g.fill = i then some value else g.values[i] := by
  have room := lt_of_push stored
  rw [push_fill room] at stored
  obtain rfl := Except.ok.inj stored
  exact Vector.getElem_set room inRange

theorem packed_push (packed : g.Packed) (entry : key ≠ Key.vacant)
    (stored : g.push g.fill key value = .ok g') : g'.Packed := by
  intro i j inRange before vacant
  rw [keys_push stored] at vacant ⊢
  by_cases atFill : g.fill = i
  · rw [if_pos atFill] at vacant
    exact absurd vacant entry
  · rw [if_neg atFill] at vacant
    have fill_le_i : g.fill ≤ i := by
      apply Nat.le_of_not_lt
      intro less
      exact key_ne_vacant_of_lt_fill less vacant
    rw [if_neg (by omega)]
    exact packed i j inRange before vacant

theorem written_push (written : g.Written) (stored : g.push g.fill key value = .ok g') :
    g'.Written := by
  intro i inRange entry
  rw [values_push stored]
  rw [keys_push stored] at entry
  by_cases atFill : g.fill = i
  · rw [if_pos atFill]
    rfl
  · rw [if_neg atFill] at entry ⊢
    exact written i inRange entry

theorem fill_push (packed : g.Packed) (entry : key ≠ Key.vacant)
    (stored : g.push g.fill key value = .ok g') : g'.fill = g.fill + 1 := by
  have room := lt_of_push stored
  refine (fill_eq_iff room).mpr ⟨?_, ?_⟩
  · intro i before
    rw [keys_push stored]
    split
    · exact entry
    · exact key_ne_vacant_of_lt_fill (by omega)
  · intro more
    rw [keys_push stored, if_neg (by omega)]
    exact packed g.fill (g.fill + 1) more (by omega) (key_fill_eq_vacant room)

/-- Writing the slot at the fill appends an entry. -/
theorem toList_push (packed : g.Packed) (written : g.Written) (entry : key ≠ Key.vacant)
    (stored : g.push g.fill key value = .ok g') : g'.toList = g.toList ++ [(key, value)] := by
  have room := lt_of_push stored
  apply eq_of_map_some_eq
  rw [map_toList (written_push written stored), List.map_append, map_toList written,
    fill_push packed entry stored]
  have fits : g.fill < g'.contents.length := by rwa [length_contents]
  rw [List.take_succ_eq_append_getElem fits]
  congr 1
  · apply List.ext_getElem
    · simp only [List.length_take, length_contents]
    · intro i inLeft inRight
      have before : i < g.fill := by
        rw [List.length_take] at inLeft
        omega
      rw [List.getElem_take, List.getElem_take, getElem_contents, getElem_contents,
        keys_push stored, values_push stored, if_neg (by omega), if_neg (by omega)]
  · rw [getElem_contents, keys_push stored, values_push stored, if_pos rfl, if_pos rfl]
    rfl

end Push

section Shift

omit [Key K] [DecidableEq K]

theorem getElem_pull {α : Type w} (xs : Vector α slots) (slot : Nat) {i : Nat}
    (inRange : i < slots) :
    (pull xs slot)[i] = if next : i = slot ∧ i + 1 < slots then xs[i + 1] else xs[i] := by
  unfold pull
  by_cases last : slot + 1 < slots
  · rw [dif_pos last, Vector.getElem_set]
    by_cases here : slot = i
    · subst here
      rw [if_pos rfl, dif_pos ⟨rfl, last⟩]
    · rw [if_neg here, dif_neg (by omega)]
  · rw [dif_neg last, dif_neg (by omega)]

/-- Copying from the next slot, at one slot after another, moves everything after the first of them
by one slot. What a slot takes over is what lay there from the beginning, because the next slot is
overwritten only after that. -/
theorem getElem_foldl_pull {α : Type w} (xs : Vector α slots) {slot n i : Nat}
    (fits : slot + n < slots) (inRange : i < slots) :
    ((List.range' slot n).foldl pull xs)[i] =
      if moved : slot ≤ i ∧ i < slot + n then xs[i + 1] else xs[i] := by
  induction n generalizing i with
  | zero =>
    rw [dif_neg (by omega)]
    rfl
  | succ n ih =>
    rw [List.range'_concat, List.foldl_append, List.foldl_cons, List.foldl_nil, Nat.one_mul,
      getElem_pull]
    by_cases here : i = slot + n
    · rw [dif_pos (by omega), ih (by omega), dif_neg (by omega), dif_pos (by omega)]
    · rw [dif_neg (by omega), ih (by omega)]
      by_cases moved : slot ≤ i ∧ i < slot + n
      · rw [dif_pos moved, dif_pos (by omega)]
      · rw [dif_neg moved, dif_neg (by omega)]

theorem keys_foldl_shift (g : Group K V slots) (visited : List Nat) :
    (visited.foldl shift g).keys = visited.foldl pull g.keys :=
  (List.foldl_hom Group.keys fun _ _ => rfl).symm

theorem values_foldl_shift (g : Group K V slots) (visited : List Nat) :
    (visited.foldl shift g).values = visited.foldl pull g.values :=
  (List.foldl_hom Group.values fun _ _ => rfl).symm

end Shift

section Remove

variable {g g' : Group K V slots} {slot : Nat}

omit [DecidableEq K] in
theorem lt_of_remove (removed : g.remove slot = .ok g') : slot < slots := by
  unfold remove at removed
  split at removed
  · assumption
  · cases removed

omit [DecidableEq K] in
theorem keys_remove (removed : g.remove slot = .ok g') {i : Nat} (inRange : i < slots) :
    g'.keys[i] =
      if i < slot then g.keys[i]
      else if next : i + 1 < slots then g.keys[i + 1]
      else Key.vacant := by
  have slot_lt := lt_of_remove removed
  have fits : slot + (slots - 1 - slot) < slots := by omega
  rw [remove, if_pos slot_lt] at removed
  cases removed
  simp only [keys_foldl_shift, Vector.getElem_setIfInBounds, getElem_foldl_pull g.keys fits]
  by_cases before : i < slot
  · rw [if_neg (by omega), dif_neg (by omega), if_pos before]
  · rw [if_neg before]
    by_cases next : i + 1 < slots
    · rw [if_neg (by omega), dif_pos (by omega), dif_pos next]
    · rw [if_pos (by omega), dif_neg next]

omit [DecidableEq K] in
theorem values_remove (removed : g.remove slot = .ok g') {i : Nat} (inRange : i < slots) :
    g'.values[i] =
      if i < slot then g.values[i]
      else if next : i + 1 < slots then g.values[i + 1]
      else g.values[i] := by
  have slot_lt := lt_of_remove removed
  have fits : slot + (slots - 1 - slot) < slots := by omega
  rw [remove, if_pos slot_lt] at removed
  cases removed
  simp only [values_foldl_shift, getElem_foldl_pull g.values fits]
  by_cases before : i < slot
  · rw [dif_neg (by omega), if_pos before]
  · rw [if_neg before]
    by_cases next : i + 1 < slots
    · rw [dif_pos (by omega), dif_pos next]
    · rw [dif_neg (by omega), dif_neg next]

omit [DecidableEq K] in
/-- The last slot is vacant once any slot has been vacated. -/
theorem key_last_remove (removed : g.remove slot = .ok g') (inRange : slots - 1 < slots) :
    g'.keys[slots - 1] = Key.vacant := by
  have slot_lt := lt_of_remove removed
  rw [keys_remove removed, if_neg (by omega), dif_neg (by omega)]

omit [DecidableEq K] in
theorem packed_remove (packed : g.Packed) (removed : g.remove slot = .ok g') : g'.Packed := by
  intro i j inRange before vacant
  rw [keys_remove removed] at vacant ⊢
  split at vacant
  · split
    · exact packed i j inRange before vacant
    · split
      · exact packed i (j + 1) _ (by omega) vacant
      · rfl
  · rw [if_neg (by omega)]
    split
    · rw [dif_pos (by omega)] at vacant
      exact packed (i + 1) (j + 1) _ (by omega) vacant
    · rfl

omit [DecidableEq K] in
theorem written_remove (written : g.Written) (removed : g.remove slot = .ok g') :
    g'.Written := by
  intro i inRange entry
  rw [keys_remove removed] at entry
  rw [values_remove removed]
  by_cases before : i < slot
  · rw [if_pos before] at entry ⊢
    exact written i inRange entry
  · rw [if_neg before] at entry ⊢
    by_cases next : i + 1 < slots
    · rw [dif_pos next] at entry ⊢
      exact written (i + 1) next entry
    · rw [dif_neg next] at entry
      exact absurd rfl entry

theorem fill_remove (entry : slot < g.fill)
    (removed : g.remove slot = .ok g') : g'.fill = g.fill - 1 := by
  have bound := g.fill_le
  refine (fill_eq_iff (by omega)).mpr ⟨?_, ?_⟩
  · intro i before
    rw [keys_remove removed]
    split
    · exact key_ne_vacant_of_lt_fill (by omega)
    · rw [dif_pos (by omega)]
      exact key_ne_vacant_of_lt_fill (by omega)
  · intro room
    rw [keys_remove removed, if_neg (by omega)]
    have fill_eq : g.fill - 1 + 1 = g.fill := by omega
    by_cases next : g.fill - 1 + 1 < slots
    · rw [dif_pos next]
      simp only [fill_eq]
      exact key_fill_eq_vacant (by omega)
    · rw [dif_neg next]

/-- Vacating a slot takes its entry out and keeps the others in order. -/
theorem toList_remove (written : g.Written) (entry : slot < g.fill)
    (removed : g.remove slot = .ok g') : g'.toList = g.toList.eraseIdx slot := by
  have bound := g.fill_le
  apply eq_of_map_some_eq
  rw [map_toList (written_remove written removed), List.eraseIdx_eq_take_drop_succ,
    List.map_append, List.map_take, List.map_drop, ← List.eraseIdx_eq_take_drop_succ,
    map_toList written, fill_remove entry removed]
  apply List.ext_getElem
  · simp only [List.length_take, List.length_eraseIdx, length_contents]
    split <;> omega
  · intro i inLeft inRight
    have before : i < g.fill - 1 := by
      rw [List.length_take] at inLeft
      omega
    rw [List.getElem_take, getElem_contents, keys_remove removed, values_remove removed,
      List.getElem_eraseIdx]
    split
    · rw [List.getElem_take, getElem_contents]
    · rw [List.getElem_take, getElem_contents, dif_pos (by omega), dif_pos (by omega)]

end Remove

end TwoChoice.Group
