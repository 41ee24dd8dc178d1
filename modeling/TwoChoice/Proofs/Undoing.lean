import TwoChoice.Proofs.Frame
import TwoChoice.Proofs.Lockstep
import TwoChoice.Proofs.Storing

/-!
# Insertions and erasures that undo each other

An insertion that does not grow writes the slot at the fill of a group. If its key was not stored
before, the erasure that follows finds it in that slot and vacates it, and what it moves is vacant.
So both together leave nothing but a value in a vacant slot. In between, every other key that is
stored is found where it was.

The other way round, an erasure leaves a vacant slot in a candidate of its key, so that the
insertion that follows has room. It may choose the other candidate. If no key is stored twice this
makes no difference to what lookups answer.

## Main Definitions

* `Table.FoundAlike` — a lookup that finds the same entry in two tables at the same cost
* `Table.InsertUndone` — an insertion that an erasure follows
* `Table.EraseUndone` — an erasure that an insertion follows

## Main Statements

* `Group.parallel_remove_push` — vacating the slot that was written restores a group
* `Table.WellFormed.insert_of_capacity_eq` — an insertion that leaves the capacity
* `Table.Removes.not_blocked` — a key that was taken out finds room
* `Table.Reachable.updates_undone` — insertions and erasures undo each other
-/

namespace TwoChoice

universe u v

variable {K : Type u} {V : Type v} {slots : Nat} [Key K]

/-! ### Groups -/

namespace Group

variable {g g' g'' : Group K V slots} {key other : K} {value : V}

theorem parallel_self (g : Group K V slots) : g.Parallel Eq Eq g where
  keys i inRange := Or.inl rfl
  values i inRange live := by
    cases g.values[i] with
    | none => exact .none
    | some value => exact .some rfl

variable [DecidableEq K]

/-- Vacating the slot that was written restores a group, but for the values of vacant slots. -/
theorem parallel_remove_push (packed : g.Packed) (pushed : g.push g.fill key value = .ok g')
    (removed : g'.remove g.fill = .ok g'') : g''.Parallel Eq Eq g := by
  have kept (i : Nat) (inRange : i < slots) (before : i < g.fill) :
      g''.keys[i] = g.keys[i] ∧ g''.values[i] = g.values[i] := by
    rw [keys_remove removed, values_remove removed, if_pos before, if_pos before, keys_push pushed,
      values_push pushed, if_neg (by omega), if_neg (by omega)]
    exact ⟨rfl, rfl⟩
  have vacated (i : Nat) (inRange : i < slots) (after : g.fill ≤ i) :
      g''.keys[i] = Key.vacant ∧ g.keys[i] = Key.vacant := by
    refine ⟨?_, key_eq_vacant_of_fill_le packed inRange after⟩
    rw [keys_remove removed, if_neg (by omega)]
    split
    · rw [keys_push pushed, if_neg (by omega)]
      exact key_eq_vacant_of_fill_le packed _ (by omega)
    · rfl
  constructor
  · intro i inRange
    rcases Nat.lt_or_ge i g.fill with before | after
    · exact Or.inl (kept i inRange before).1
    · exact Or.inr (vacated i inRange after)
  · intro i inRange live
    rcases Nat.lt_or_ge i g.fill with before | after
    · rw [(kept i inRange before).2]
      exact (parallel_self g).values i inRange ((kept i inRange before).1 ▸ live)
    · exact absurd (vacated i inRange after).1 live

/-- Writing an entry of one key leaves the first slot of any other. -/
theorem slotOf_push (pushed : g.push g.fill key value = .ok g') (live : other ≠ Key.vacant)
    (different : other ≠ key) : g'.slotOf other = g.slotOf other := by
  have room := lt_of_push pushed
  have same_iff (i : Nat) (inRange : i < slots) : g'.keys[i] = other ↔ g.keys[i] = other := by
    rw [keys_push pushed]
    by_cases atFill : g.fill = i
    · subst atFill
      rw [if_pos rfl, key_fill_eq_vacant room]
      exact iff_of_false (Ne.symm different) (Ne.symm live)
    · rw [if_neg atFill]
  refine (slotOf_eq_iff (g.slotOf_le other)).mpr ⟨fun i before => ?_, fun found => ?_⟩
  · exact mt (same_iff i _).mp (key_ne_of_lt_slotOf before)
  · exact (same_iff _ found).mpr (key_slotOf found)

end Group

namespace Table

variable [DecidableEq K] {s : Scheme K} {t t' : Table K V slots} {key other : K} {hash : UInt64}
variable {p : Position} {value : V} {entry : K × V} {change : Edit K V slots} {n : Nat}

omit [DecidableEq K] in
theorem parallel_self (t : Table K V slots) : t.Parallel Eq Eq t where
  groups_size_eq := rfl
  group i _ _ := t.groups[i].parallel_self
  mask_eq := rfl
  size_eq := rfl

/-! ### An insertion that does not grow -/

/-- An insertion that leaves the capacity stores its entry, or it fails and leaves the table. -/
theorem WellFormed.insert_of_capacity_eq (wellFormed : t.WellFormed s) (live : key ≠ Key.vacant)
    (same : (t.insert s key value).table.capacity = t.capacity) :
    (∃ change, t.Stores (s.hash key) key value change ∧
        t.insert s key value = ⟨.ok (), t.edit change (t.size + 1)⟩) ∨
      ∃ fault, t.insert s key value = ⟨.error fault, t⟩ := by
  rw [insert, if_neg live] at same ⊢
  rcases wellFormed.placement_cases (s.hash key) key value with
    ⟨-, noRoom⟩ | ⟨-, change, decided, stores⟩
  · cases grew : t.grown s with
    | error fault => exact Or.inr ⟨fault, insertLoop_of_stuck noRoom grew⟩
    | ok larger =>
      -- Once the table has grown, the capacity does not come back.
      have grows := (capacity_grown grew).1
      have le : larger.capacity ≤ (insertLoop s key value larger).table.capacity :=
        capacity_insertLoop (P := (larger.capacity ≤ ·)) (Nat.le_refl _)
          (fun _ _ le grew => le.trans (Nat.le_of_lt (capacity_grown grew).1)) key value
      rw [insertLoop_of_grown noRoom grew] at same
      omega
  · exact Or.inl ⟨change, stores, insertLoop_of_room decided⟩

/-- A lookup of a key finds the same entry in both tables, at the same cost. -/
def FoundAlike (s : Scheme K) (t t' : Table K V slots) (key : K) (hash : UInt64) : Prop :=
  ∃ p value cost, t.entryAt? p = some (key, value) ∧ t'.entryAt? p = some (key, value) ∧
    LooksUp s t key hash cost (some p) ∧ LooksUp s t' key hash cost (some p)

/-- A key that is stored is found alike in a table and in the same table. -/
theorem WellFormed.foundAlike_self (wellFormed : t.WellFormed s)
    (stored : (key, value) ∈ t.toList) : FoundAlike s t t key (s.hash key) := by
  have lookup := wellFormed.looksUp key (s.hash key)
  obtain ⟨p, found⟩ := Option.isSome_iff_exists.mp
    ((wellFormed.isSome_firstOccurrence?_hash_iff key).mpr ⟨value, stored⟩)
  obtain ⟨-, value', told⟩ := entryAt?_of_firstOccurrence? found
  rw [found] at lookup
  exact ⟨p, value', _, told, told, lookup, lookup⟩

namespace Stores

/-- The entries that there were stay where they are. -/
theorem entryAt?_edit_of_stored (stores : t.Stores hash key value change)
    (wellFormed : t.WellFormed s) (live : key ≠ Key.vacant) (stored : t.entryAt? p = some entry) :
    (t.edit change n).entryAt? p = some entry := by
  obtain ⟨inRange, told⟩ := entryAt?_eq_some_iff.mp stored
  obtain ⟨index, group⟩ := change
  rw [entryAt?_edit stores.inRange]
  by_cases same : p.group = index
  · subst same
    rw [if_pos rfl, stores.toList_group wellFormed live,
      List.getElem?_append_left (List.getElem?_eq_some_iff.mp told).1]
    exact told
  · rw [if_neg same, stored]

/-- So do the first slots of other keys. -/
theorem slotAt_edit (stores : t.Stores hash key value change) (live : other ≠ Key.vacant)
    (different : other ≠ key) (n i : Nat) :
    (t.edit change n).slotAt i other = t.slotAt i other := by
  obtain ⟨index, group⟩ := change
  rw [Table.slotAt_edit stores.inRange]
  by_cases same : i = index
  · subst same
    rw [if_pos rfl, Group.slotOf_push stores.pushed live different, slotAt_eq stores.inRange]
  · rw [if_neg same]

/-- So another key is matched where it was, at the cost that it had. -/
theorem firstMatch?_edit_of_ne (stores : t.Stores (s.hash key) key value change)
    (wellFormed : t.WellFormed s) (live : key ≠ Key.vacant) (live' : other ≠ Key.vacant)
    (different : other ≠ key) (hash : UInt64) :
    (t.edit change (t.size + 1)).firstMatch? other hash = t.firstMatch? other hash := by
  rw [(stores.wellFormed wellFormed live).firstMatch?_eq, candidates_edit,
    stores.slotAt_edit live' different, stores.slotAt_edit live' different,
    ← wellFormed.firstMatch?_eq]

/-- And if it is stored it is found there. -/
theorem foundAlike (stores : t.Stores (s.hash key) key value change) (wellFormed : t.WellFormed s)
    (live : key ≠ Key.vacant) (different : other ≠ key) {value' : V}
    (stored : (other, value') ∈ t.toList) :
    FoundAlike s t (t.edit change (t.size + 1)) other (s.hash other) := by
  have live' : other ≠ Key.vacant := key_ne_vacant_of_mem_toList stored
  have wellFormed' := stores.wellFormed wellFormed live
  obtain ⟨cost, p, found⟩ := wellFormed.exists_match live'
    (wellFormed.holds_hash_iff.mpr ⟨value', stored⟩)
  have found' := stores.firstMatch?_edit_of_ne wellFormed live live' different (s.hash other)
  rw [found] at found'
  obtain ⟨-, value'', told⟩ := wellFormed.entryAt?_of_match live' found
  exact ⟨p, value'', cost, told, stores.entryAt?_edit_of_stored wellFormed live told,
    wellFormed.looksUp_of_match live' found, wellFormed'.looksUp_of_match live' found'⟩

/-- A key that was not stored is found where it has just been stored. -/
theorem exists_match (stores : t.Stores (s.hash key) key value change) (wellFormed : t.WellFormed s)
    (live : key ≠ Key.vacant) (notStored : ∀ value, (key, value) ∉ t.toList) :
    ∃ cost, (t.edit change (t.size + 1)).firstMatch? key (s.hash key) =
      some (cost, ⟨t.chosen (s.hash key), t.fillAt (t.chosen (s.hash key))⟩) := by
  have wellFormed' := stores.wellFormed wellFormed live
  have stored : (key, value) ∈ (t.edit change (t.size + 1)).toList :=
    (stores.perm wellFormed live _).mem_iff.mpr List.mem_cons_self
  obtain ⟨cost, p, found⟩ := wellFormed'.exists_match live
    (wellFormed'.holds_hash_iff.mpr ⟨value, stored⟩)
  obtain ⟨-, value', told⟩ := wellFormed'.entryAt?_of_match live found
  rcases stores.entryAt?_edit_cases wellFormed live told with old | ⟨rfl, -⟩
  · exact absurd (mem_toList_of_entryAt? old) (notStored value')
  · exact ⟨cost, found⟩

/-- Vacating the slot that has just been written restores the table. -/
theorem parallel_of_removes {change' : Edit K V slots} {m : Nat}
    (stores : t.Stores hash key value change) (wellFormed : t.WellFormed s)
    (removes : (t.edit change n).Removes ⟨t.chosen hash, t.fillAt (t.chosen hash)⟩ change')
    (size_eq : m = t.size) : ((t.edit change n).edit change' m).Parallel Eq Eq t := by
  obtain ⟨index, group⟩ := change
  obtain ⟨index', group'⟩ := change'
  obtain rfl : index = t.chosen hash := stores.index_eq
  obtain rfl : index' = t.chosen hash := removes.index_eq
  have inRange : t.chosen hash < t.groups.size := stores.inRange
  have removed := removes.removed
  simp only [groups_edit, Array.getElem_setIfInBounds_self, fillAt_eq inRange] at removed
  refine ⟨by simp, fun i inRange' inOld => ?_, rfl, size_eq⟩
  simp only [groups_edit, Array.setIfInBounds_setIfInBounds, Array.getElem_setIfInBounds inOld]
  by_cases same : t.chosen hash = i
  · subst same
    rw [if_pos rfl]
    exact Group.parallel_remove_push (wellFormed.packed_getElem inRange) stores.pushed removed
  · rw [if_neg same]
    exact Group.parallel_self _

end Stores

/-- An insertion that the erasure of its key undoes. -/
structure InsertUndone (s : Scheme K) (t : Table K V slots) (key : K) (value : V) : Prop where
  /-- The erasure takes an entry out if the insertion has returned. -/
  erased : (t.insert s key value).result = .ok () →
    ((t.insert s key value).table.erase s key).result = .ok true
  /-- Both together leave all keys, the values of entries, the mask and the size. -/
  restored : ((t.insert s key value).table.erase s key).table.Parallel Eq Eq t
  /-- In between, every other key that is stored is found where it was, at the same cost. -/
  found : ∀ other value', other ≠ key → (other, value') ∈ t.toList →
    FoundAlike s t (t.insert s key value).table other (s.hash other)

/-- An insertion that leaves the capacity is undone by erasing its key, if that was not stored. -/
theorem WellFormed.insertUndone (wellFormed : t.WellFormed s) (live : key ≠ Key.vacant)
    (counted : 2 * slots < Word.limit) (notStored : ∀ value, (key, value) ∉ t.toList)
    (same : (t.insert s key value).table.capacity = t.capacity) : InsertUndone s t key value := by
  rcases wellFormed.insert_of_capacity_eq live same with
    ⟨change, stores, insert_eq⟩ | ⟨fault, insert_eq⟩
  · obtain ⟨cost, found⟩ := stores.exists_match wellFormed live notStored
    obtain ⟨value', yields⟩ :=
      (stores.wellFormed wellFormed live).yields_of_match live counted found
    obtain ⟨change', removes, erase_eq⟩ := yields.erase_eq
    constructor
    · intro returned
      rw [insert_eq, erase_eq]
    · rw [insert_eq, erase_eq]
      exact stores.parallel_of_removes wellFormed removes (Nat.add_sub_cancel ..)
    · intro other value' different stored
      rw [insert_eq]
      exact stores.foundAlike wellFormed live different stored
  · -- The table is the same, and there is nothing to be taken out.
    have lacks := wellFormed.lacks_of_notStored (fun _ => counted) notStored
    constructor
    · intro returned
      rw [insert_eq] at returned
      cases returned
    · rw [insert_eq, lacks.erase_eq]
      exact parallel_self t
    · intro other value' different stored
      rw [insert_eq]
      exact wellFormed.foundAlike_self stored

/-! ### An erasure before an insertion -/

/-- A group that has lost an entry has a vacant slot. -/
theorem Removes.fillAt_lt (removes : t.Removes p change) (wellFormed : t.WellFormed s)
    (stored : t.entryAt? p = some entry) (n : Nat) :
    (t.edit change n).fillAt p.group < slots := by
  have before := wellFormed.slot_lt_fillAt stored
  have le := t.fillAt_le p.group
  rw [removes.fillAt_edit wellFormed stored, if_pos rfl]
  omega

/-- A key that has been taken out finds room for another entry. -/
theorem Removes.not_blocked (removes : t.Removes p change) (wellFormed : t.WellFormed s)
    (stored : t.entryAt? p = some (key, value)) (n : Nat) :
    ¬(t.edit change n).Blocked (s.hash key) := by
  have room := removes.fillAt_lt wellFormed stored n
  intro blocked
  rw [Blocked, candidates_edit] at blocked
  rcases wellFormed.candidate_of_entryAt? stored with first | second
  · rw [first] at room
    exact Nat.ne_of_lt room blocked.1
  · rw [second] at room
    exact Nat.ne_of_lt room blocked.2

/-- An erasure that is followed by an insertion of the same key. -/
structure EraseUndone (s : Scheme K) (t : Table K V slots) (key : K) (value : V) : Prop where
  /-- The insertion stores its entry. -/
  returned : ((t.erase s key).table.insert s key value).result = .ok ()
  /-- It does not grow. -/
  capacity_eq : ((t.erase s key).table.insert s key value).table.capacity = t.capacity
  /-- If no key is stored twice, the key then has the new value. -/
  answers : t.DistinctKeys →
    Answers s ((t.erase s key).table.insert s key value).table key (some value)
  /-- Every other key has the value that it had, or none. -/
  others : t.DistinctKeys → ∀ other, other ≠ key → ∃ value?, Answers s t other value? ∧
    Answers s ((t.erase s key).table.insert s key value).table other value?

/-- An erasure of a stored key makes room for another insertion of the key. -/
theorem WellFormed.eraseUndone (wellFormed : t.WellFormed s) (counted : 2 * slots < Word.limit)
    {old : V} (stored : (key, old) ∈ t.toList) (value : V) : EraseUndone s t key value := by
  have live : key ≠ Key.vacant := key_ne_vacant_of_mem_toList stored
  obtain ⟨p, old', yields⟩ := wellFormed.exists_yields (fun _ => counted)
    (Multiset.card_pos_iff_exists_mem.mpr ⟨old, mem_valuesOf.mpr stored⟩)
  obtain ⟨change, removes, erase_eq⟩ := yields.erase_eq
  have erased := yields.perm
  have wellFormed' : (t.erase s key).table.WellFormed s := by
    rw [erase_eq]
    exact removes.wellFormed wellFormed yields.stored
  have open' : ¬(t.erase s key).table.Blocked (s.hash key) := by
    rw [erase_eq]
    exact removes.not_blocked wellFormed yields.stored _
  obtain ⟨returned, appends⟩ := wellFormed'.insert_of_not_blocked live open' value
  have inserted := (wellFormed'.insert_of_returned returned).1
  have wellFormed'' := (wellFormed'.insertion_insert key value).wellFormed wellFormed'
  have distinct'' (distinct : t.DistinctKeys) :
      ((t.erase s key).table.insert s key value).table.DistinctKeys :=
    distinct.of_perm ((inserted.map Prod.fst).trans (erased.map Prod.fst).symm)
  refine ⟨returned, appends.capacity_eq.trans (capacity_erase t key), fun distinct => ?_,
    fun distinct other different => ?_⟩
  · exact wellFormed''.answers_of_stored (distinct'' distinct)
      (inserted.mem_iff.mpr List.mem_cons_self)
  · refine wellFormed.exists_answers wellFormed'' distinct fun kept => ?_
    rw [inserted.mem_iff, erased.mem_iff, List.mem_cons, List.mem_cons]
    simp [different]

/-- Insertions that do not grow and erasures undo each other. An insertion of a key that is not
stored is undone by an erasure of the key, if the capacity is still the same. An erasure of a key
that is stored lets another insertion of the key do without growth. -/
theorem Reachable.updates_undone (reachable : Reachable s t) (aligned : s.layout.Aligned)
    (sized : ∀ key : K, key ≠ Key.vacant → 0 < s.layout.keyBytes) :
    (∀ key value, key ≠ Key.vacant → (∀ value', (key, value') ∉ t.toList) →
        (t.insert s key value).table.capacity = t.capacity → InsertUndone s t key value) ∧
      ∀ key old value, (key, old) ∈ t.toList → EraseUndone s t key value := by
  have wellFormed := reachable.wellFormed
  constructor
  · intro key value live notStored same
    have counted := reachable.two_mul_slots_lt aligned (sized key live)
    exact wellFormed.insertUndone live counted notStored same
  · intro key old value stored
    have counted := reachable.two_mul_slots_lt aligned
      (sized key (key_ne_vacant_of_mem_toList stored))
    exact wellFormed.eraseUndone counted stored value

/-- A fifth key is stored beside three others and taken out again. In the table of four entries both
candidates are full, and a key that is taken out can be stored again all the same. -/
theorem updates_undone_stacked :
    Reachable colliding shaken ∧ InsertUndone colliding shaken ⟨5⟩ 50 ∧
      Reachable colliding stacked ∧ stacked.Blocked (colliding.hash ⟨1⟩) ∧
      EraseUndone colliding stacked ⟨1⟩ 11 ∧ stacked.DistinctKeys := by
  have aligned : colliding.layout.Aligned := by decide
  have sized : ∀ key : ZeroVacant, key ≠ Key.vacant → 0 < colliding.layout.keyBytes :=
    fun _ _ => by decide
  have inserted := (reachable_shaken.updates_undone aligned sized).1 ⟨5⟩ 50 (by decide)
    (card_valuesOf_eq_zero_iff.mp (by decide +kernel)) (by decide +kernel)
  have erased := (reachable_stacked.updates_undone aligned sized).2 ⟨1⟩ 10 11 (by decide +kernel)
  exact ⟨reachable_shaken, inserted, reachable_stacked, by decide +kernel, erased,
    by decide +kernel⟩

end Table

end TwoChoice
