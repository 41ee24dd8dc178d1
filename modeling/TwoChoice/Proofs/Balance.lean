import TwoChoice.Proofs.Comparisons
import TwoChoice.Proofs.Invariant

/-!
# The balance of two choices

An entry is stored in the less full of its two candidates, so at that time the other one has at
least as many entries as come before it. As long as nothing is taken out, fills only grow and this
stays so: an entry at some slot of its first candidate has as many entries beside it in the second,
and one in the second has one more in the first. Growth stores all entries anew and establishes the
balance again, whatever was taken out before.

A lookup goes through both candidates side by side. In a balanced table it meets nothing but entries
on its way to a stored key.

## Main Definitions

* `Table.Balanced` — every entry has enough entries beside it in its other candidate
* `Operation.Erases` — an operation that takes an entry out
* `Table.MeetsEntries` — a lookup of a key compares it with keys of entries only
* `Table.Fresh` — a table without entries, or one that growth has just yielded

## Main Statements

* `Table.Stores.balanced` — storing an entry keeps the balance
* `Table.WellFormed.balanced_of_grown` — growth establishes it
* `Table.Balanced.run` — runs that take nothing out keep it
* `Table.WellFormed.meetsEntries` — lookups in a balanced table
* `Table.Fresh.balanced_run` — what runs from a fresh table lead to

## Design Notes

The two candidates of an entry may be one group. The balance holds of it as well, since an entry has
fewer entries before it than its group has in all.
-/

namespace TwoChoice

universe u v w

variable {K : Type u} {V : Type v} {slots : Nat} {A : Type w} [Key K]

/-- An operation that takes an entry out. -/
def Operation.Erases : Operation K V → Prop
  | erase _ | eraseUnchecked _ => True
  | _ => False

/-- An operation that takes nothing out is not told to take out the vacant key. -/
theorem Operation.permitted_of_not_erases {op : Operation K V} (keeps : ¬op.Erases) :
    op.Permitted := by
  cases op with
  | eraseUnchecked key => exact absurd trivial keeps
  | _ => trivial

variable [DecidableEq K]

namespace Table

variable {s : Scheme K} {t t' : Table K V slots} {key : K} {value : V} {entry : K × V}
variable {hash : UInt64} {p : Position} {change : Edit K V slots} {n : Nat}

/-! ### The balance -/

/-- An entry at some slot of its first candidate has as many entries in the second, and one at some
slot of its second candidate has one more in the first. -/
def Balanced (s : Scheme K) (t : Table K V slots) : Prop :=
  ∀ (p : Position) (entry : K × V), t.entryAt? p = some entry →
    (p.group = (t.candidates (s.hash entry.1)).first →
        p.slot ≤ t.fillAt (t.candidates (s.hash entry.1)).second) ∧
      (p.group = (t.candidates (s.hash entry.1)).second →
        p.slot + 1 ≤ t.fillAt (t.candidates (s.hash entry.1)).first)

/-- A table without entries is balanced. -/
theorem balanced_of_toList_eq_nil (vacant : t.toList = []) : t.Balanced s := by
  intro p entry stored
  have mem := mem_toList_of_entryAt? stored
  rw [vacant] at mem
  cases mem

/-- What lies at a position once one group has new contents. -/
theorem entryAt?_edit {i : Nat} (inRange : i < t.groups.size) (g' : Group K V slots) (n : Nat)
    (p : Position) :
    (t.edit ⟨i, g'⟩ n).entryAt? p =
      if p.group = i then g'.toList[p.slot]? else t.entryAt? p := by
  unfold entryAt?
  rw [groups_edit, Array.getElem?_setIfInBounds]
  by_cases same : p.group = i
  · rw [if_pos same.symm, if_pos (same ▸ inRange), if_pos same]
    rfl
  · rw [if_neg (Ne.symm same), if_neg same]

namespace Stores

/-- Where an entry lies once another has been stored: where it lay before, or it is the new one, at
the end of the chosen group. -/
theorem entryAt?_edit_cases (stores : t.Stores hash key value change) (wellFormed : t.WellFormed s)
    (live : key ≠ Key.vacant) (stored : (t.edit change n).entryAt? p = some entry) :
    t.entryAt? p = some entry ∨
      p = ⟨t.chosen hash, t.fillAt (t.chosen hash)⟩ ∧ entry = (key, value) := by
  obtain ⟨group, slot⟩ := p
  have inRange := stores.inRange
  have length_eq := wellFormed.length_toList_getElem inRange
  rw [Table.entryAt?_edit inRange, stores.toList_group wellFormed live] at stored
  dsimp only at stored
  by_cases same : group = change.index
  · subst same
    rw [if_pos rfl, List.getElem?_append] at stored
    split at stored
    · exact Or.inl (entryAt?_eq_some_iff.mpr ⟨inRange, stored⟩)
    · obtain ⟨atEnd, new⟩ := List.getElem?_eq_some_iff.mp stored
      rw [List.getElem_singleton] at new
      have slot_eq : slot = t.fillAt change.index := by
        rw [List.length_singleton] at atEnd
        omega
      rw [← stores.index_eq, slot_eq]
      exact Or.inr ⟨rfl, new.symm⟩
  · rw [if_neg same] at stored
    exact Or.inl stored

/-- Storing an entry keeps the balance: fills do not shrink, and the new entry has gone to the less
full of its candidates. -/
theorem balanced (stores : t.Stores (s.hash key) key value change) (wellFormed : t.WellFormed s)
    (live : key ≠ Key.vacant) (balanced : t.Balanced s) (n : Nat) :
    (t.edit change n).Balanced s := by
  have fillAt_eq := stores.fillAt_edit wellFormed live n
  have fillAt_mono : ∀ i, t.fillAt i ≤ (t.edit change n).fillAt i := by
    intro i
    rw [fillAt_eq]
    split <;> omega
  intro p entry stored
  rw [candidates_edit]
  rcases stores.entryAt?_edit_cases wellFormed live stored with old | ⟨rfl, rfl⟩
  · obtain ⟨inFirst, inSecond⟩ := balanced p entry old
    exact ⟨fun first => (inFirst first).trans (fillAt_mono _),
      fun second => (inSecond second).trans (fillAt_mono _)⟩
  · dsimp only
    by_cases less : t.fillAt (t.candidates (s.hash key)).first ≤
        t.fillAt (t.candidates (s.hash key)).second
    · have chosen_eq : t.chosen (s.hash key) = (t.candidates (s.hash key)).first :=
        Candidates.lessFull_of_le less
      have more := fillAt_eq (t.candidates (s.hash key)).first
      rw [if_pos chosen_eq.symm] at more
      rw [chosen_eq, more]
      exact ⟨fun _ => less.trans (fillAt_mono _), fun _ => Nat.le_refl _⟩
    · have chosen_eq : t.chosen (s.hash key) = (t.candidates (s.hash key)).second :=
        Candidates.lessFull_of_lt (Nat.lt_of_not_le less)
      rw [chosen_eq]
      refine ⟨fun same => absurd (same ▸ Nat.le_refl _) less, fun _ => ?_⟩
      exact (Nat.lt_of_not_le less).trans_le (fillAt_mono _)

end Stores

/-! ### Growth and runs -/

/-- Placing entries one after another keeps the balance. -/
theorem WellFormed.balanced_placeAll {entries : List (K × V)} (wellFormed : t.WellFormed s)
    (live : ∀ entry ∈ entries, entry.1 ≠ Key.vacant) (balanced : t.Balanced s)
    (placed : placeAll s entries t = .ok (some t')) : t'.Balanced s := by
  fun_induction placeAll s entries t with
  | case1 t =>
    cases placed
    exact balanced
  | case2 => cases placed
  | case3 => cases placed
  | case4 t key value rest change decided ih =>
    have stores := wellFormed.stores decided
    have live' := live _ List.mem_cons_self
    exact ih (stores.wellFormed wellFormed live')
      (fun entry mem => live entry (List.mem_cons_of_mem _ mem))
      (stores.balanced wellFormed live' balanced _) placed

/-- Growth yields a balanced table, whether or not it began with one. -/
theorem WellFormed.balanced_of_grown (wellFormed : t.WellFormed s) (grew : t.grown s = .ok t') :
    t'.Balanced s := by
  have growth := wellFormed.growth_grown
  rw [grew] at growth
  cases growth with
  | reached before after larger split noRoom fits placed =>
    have usable := wellFormed.usable_of_mem_doublings (split ▸ List.mem_append_cons_self)
    exact (wellFormed_empty_of_usable s usable).balanced_placeAll
      (fun entry mem => key_ne_vacant_of_mem_toList mem)
      (balanced_of_toList_eq_nil (toList_empty larger)) placed

namespace Balanced

/-- An insertion keeps the balance, however often it grows and also if growth fails. -/
theorem insert (balanced : t.Balanced s) (wellFormed : t.WellFormed s) (key : K) (value : V) :
    (t.insert s key value).table.Balanced s :=
  wellFormed.insert_induction balanced
    (fun wellFormed' live stores balanced' => stores.balanced wellFormed' live balanced' _)
    fun wellFormed' grew _ => wellFormed'.balanced_of_grown grew

theorem grow (balanced : t.Balanced s) (wellFormed : t.WellFormed s) :
    (t.grow s).table.Balanced s := by
  rcases wellFormed.grow_cases with ⟨fault, -, grow_eq⟩ | ⟨larger, grew, -, -, grow_eq⟩
  · rwa [grow_eq]
  · rw [grow_eq]
    exact wellFormed.balanced_of_grown grew

/-- An operation that takes nothing out keeps the balance. -/
theorem perform (balanced : t.Balanced s) (wellFormed : t.WellFormed s) (acc : Accumulation V A)
    {op : Operation K V} (keeps : ¬op.Erases) (counter : UInt64) :
    (op.perform s acc ⟨t, counter⟩).state.table.Balanced s := by
  cases op with
  | insert key value => exact balanced.insert wellFormed key value
  | erase key => exact absurd trivial keeps
  | eraseUnchecked key => exact absurd trivial keeps
  | grow => exact balanced.grow wellFormed
  | clear => exact balanced_of_toList_eq_nil (toList_clear t)
  | copy =>
    rw [Operation.perform_copy]
    exact balanced
  | _ => exact balanced

/-- So does a run of such operations. -/
theorem run {calls : List (Call K V)} (balanced : t.Balanced s) (wellFormed : t.WellFormed s)
    (acc : Accumulation V A) (keeps : ∀ call ∈ calls, ¬call.operation.Erases) :
    (Call.run s acc calls t).2.Balanced s ∧ (Call.run s acc calls t).2.WellFormed s := by
  induction calls generalizing t with
  | nil => exact ⟨balanced, wellFormed⟩
  | cons call calls ih =>
    have keepsNow := keeps call List.mem_cons_self
    exact ih (balanced.perform wellFormed acc keepsNow call.counter)
      (wellFormed.perform acc (Operation.permitted_of_not_erases keepsNow) call.counter)
      fun later mem => keeps later (List.mem_cons_of_mem call mem)

end Balanced

/-! ### Lookups -/

/-- Looking a key up compares it with keys of entries only, the last of which is its own and lies at
position `p`. Whether or not the key is taken to be stored makes no difference. -/
structure MeetsEntries (s : Scheme K) (t : Table K V slots) (key : K) (p : Position) : Prop where
  /-- The position is that of an entry of the key. -/
  stored : ∃ value, t.entryAt? p = some (key, value)
  /-- The last comparison is made there. -/
  last : (t.comparisons key (s.hash key)).getLast? = some p
  /-- There is an entry wherever a comparison is made. -/
  occupied : ∀ q ∈ t.comparisons key (s.hash key), (t.entryAt? q).isSome
  /-- These are the comparisons that the bounded scan counts. -/
  locate_eq : ∀ counter, t.locate key (s.hash key) counter =
    .charge (t.comparisons key (s.hash key)).length (.ok (some p)) counter
  /-- The scan for stored keys makes the same ones. -/
  unchecked_eq : t.comparisonsUnchecked key (s.hash key) = t.comparisons key (s.hash key)
  /-- It counts them as well. -/
  locateUnchecked_eq : ∀ counter, t.locateUnchecked key (s.hash key) counter =
    .charge (t.comparisonsUnchecked key (s.hash key)).length (.ok p) counter

namespace WellFormed

/-- There is an entry at every slot before the fill of a group. -/
theorem isSome_entryAt? (wellFormed : t.WellFormed s) (inRange : p.group < t.groups.size)
    (before : p.slot < t.fillAt p.group) : (t.entryAt? p).isSome := by
  rw [← wellFormed.length_toList_getElem inRange] at before
  rw [entryAt?, Array.getElem?_eq_getElem inRange, Option.bind_some,
    List.getElem?_eq_getElem before]
  rfl

/-- A position with an entry comes before the fill of its group. -/
theorem slot_lt_fillAt (wellFormed : t.WellFormed s) (stored : t.entryAt? p = some entry) :
    p.slot < t.fillAt p.group := by
  obtain ⟨inRange, told⟩ := entryAt?_eq_some_iff.mp stored
  rw [fillAt_eq inRange]
  exact wellFormed.slot_lt_fill told

/-- The cost of a match, by its slot and by the candidate that it is in. -/
theorem match_cases (wellFormed : t.WellFormed s) {cost : Nat}
    (found : t.firstMatch? key hash = some (cost, p)) :
    (p.group = (t.candidates hash).first ∧ cost = 2 * p.slot + 1) ∨
      p.group = (t.candidates hash).second ∧ cost = 2 * p.slot + 2 := by
  rw [firstMatch?, wellFormed.candidateGroups_eq] at found
  rcases sideBySide_cases found with ⟨-, -, rfl, rfl⟩ | ⟨-, -, rfl, rfl⟩
  · exact Or.inl ⟨rfl, rfl⟩
  · exact Or.inr ⟨rfl, rfl⟩

/-- In a balanced table every comparison up to a match is with the key of an entry. -/
theorem isSome_entryAt?_comparison (wellFormed : t.WellFormed s) (balanced : t.Balanced s)
    (live : key ≠ Key.vacant) {cost k : Nat}
    (found : t.firstMatch? key (s.hash key) = some (cost, p)) (before : k < cost) :
    (t.entryAt? (comparison (t.candidates (s.hash key)).first
      (t.candidates (s.hash key)).second k)).isSome := by
  obtain ⟨-, value, stored⟩ := wellFormed.entryAt?_of_match live found
  obtain ⟨inFirst, inSecond⟩ := balanced p _ stored
  have beforeFill := wellFormed.slot_lt_fillAt stored
  have match_cases := wellFormed.match_cases found
  dsimp only at inFirst inSecond
  by_cases even : k % 2 = 0
  · rw [comparison, if_pos even]
    refine wellFormed.isSome_entryAt? (wellFormed.first_lt _) ?_
    show k / 2 < t.fillAt (t.candidates (s.hash key)).first
    rcases match_cases with ⟨first, cost_eq⟩ | ⟨second, cost_eq⟩
    · rw [first] at beforeFill
      omega
    · have more := inSecond second
      omega
  · rw [comparison, if_neg even]
    refine wellFormed.isSome_entryAt? (wellFormed.second_lt _) ?_
    show k / 2 < t.fillAt (t.candidates (s.hash key)).second
    rcases match_cases with ⟨first, cost_eq⟩ | ⟨second, cost_eq⟩
    · have more := inFirst first
      omega
    · rw [second] at beforeFill
      omega

/-- In a balanced table a lookup of a stored key meets nothing but entries. -/
theorem meetsEntries (wellFormed : t.WellFormed s) (balanced : t.Balanced s)
    (stored : (key, value) ∈ t.toList) : ∃ p, MeetsEntries s t key p := by
  have live : key ≠ Key.vacant := key_ne_vacant_of_mem_toList stored
  have held := wellFormed.holds_hash_iff.mpr ⟨value, stored⟩
  obtain ⟨cost, p, found⟩ := wellFormed.exists_match live held
  have comparisons_eq := wellFormed.comparisons_eq live found
  have unchecked_eq := wellFormed.comparisonsUnchecked_eq live found
  have length_eq : (t.comparisons key (s.hash key)).length = cost := by
    rw [comparisons_eq, List.length_map, List.length_range]
  obtain ⟨positive, last_eq⟩ : 0 < cost ∧ comparison (t.candidates (s.hash key)).first
      (t.candidates (s.hash key)).second (cost - 1) = p := by
    rw [firstMatch?, wellFormed.candidateGroups_eq] at found
    exact comparison_of_match found
  refine ⟨p, (wellFormed.entryAt?_of_match live found).2, ?_, ?_, ?_,
    unchecked_eq.trans comparisons_eq.symm, ?_⟩
  · obtain ⟨rest, rfl⟩ := Nat.exists_eq_add_of_le' positive
    rw [comparisons_eq, List.range_succ, List.map_append, List.map_singleton,
      List.getLast?_concat, ← last_eq]
    rfl
  · intro q mem
    rw [comparisons_eq] at mem
    obtain ⟨k, inRange, rfl⟩ := List.mem_map.mp mem
    exact wellFormed.isSome_entryAt?_comparison balanced live found (List.mem_range.mp inRange)
  · intro counter
    rw [wellFormed.locate_eq live, found, length_eq]
  · intro counter
    rw [wellFormed.locateUnchecked_eq, found, unchecked_eq, ← comparisons_eq, length_eq]

end WellFormed

/-! ### Fresh tables -/

/-- A table without entries, or one that growth has just yielded. -/
inductive Fresh (s : Scheme K) : Table K V slots → Prop
  /-- Nothing is stored in the table. -/
  | vacant {t : Table K V slots} : Reachable s t → t.toList = [] → Fresh s t
  /-- Growth has succeeded and left the table. -/
  | grown {t : Table K V slots} : Reachable s t → (t.grow s).result = .ok () →
      Fresh s (t.grow s).table

theorem Fresh.balanced (fresh : Fresh s t) : t.Balanced s ∧ t.WellFormed s := by
  cases fresh with
  | vacant reachable vacant =>
    exact ⟨balanced_of_toList_eq_nil vacant, reachable.wellFormed⟩
  | @grown old reachable returned =>
    have wellFormed := reachable.wellFormed
    refine ⟨?_, wellFormed.grow⟩
    rcases wellFormed.grow_cases with ⟨fault, -, grow_eq⟩ | ⟨larger, grew, -, -, grow_eq⟩
    · rw [grow_eq] at returned
      cases returned
    · rw [grow_eq]
      exact wellFormed.balanced_of_grown grew

/-- Whatever calls that take nothing out make of a fresh table is balanced, and a lookup of a key
stored in it meets nothing but entries. -/
theorem Fresh.balanced_run (fresh : Fresh s t) (acc : Accumulation V A)
    (calls : List (Call K V)) (keeps : ∀ call ∈ calls, ¬call.operation.Erases) :
    (Call.run s acc calls t).2.Balanced s ∧
      ∀ key value, (key, value) ∈ (Call.run s acc calls t).2.toList →
        ∃ p, MeetsEntries s (Call.run s acc calls t).2 key p := by
  obtain ⟨balanced, wellFormed⟩ := fresh.balanced
  obtain ⟨balanced', wellFormed'⟩ := balanced.run wellFormed acc keeps
  exact ⟨balanced', fun key value stored => wellFormed'.meetsEntries balanced' stored⟩

/-- The scheme that sends every key to groups two and five. -/
def colliding : Scheme ZeroVacant where
  hash _ := 0x500000002
  layout := ⟨4, 4, 8, 8⟩

/-- A table that has lost the balance: four entries were stored and the first was taken out. -/
def shaken : Table ZeroVacant UInt64 2 :=
  (Operation.run colliding Accumulation.listing
    [.insert ⟨1⟩ 10, .insert ⟨2⟩ 20, .insert ⟨3⟩ 30, .insert ⟨4⟩ 40, .erase ⟨1⟩]
    ⟨empty 8, 0⟩).2.table

theorem reachable_shaken : Reachable colliding shaken :=
  Reachable.run_empty Accumulation.listing (by decide) (by simp [Operation.Legal]) 0

/-- Growth restores the balance that taking an entry out destroyed, and the next insertion keeps it.
-/
theorem balanced_run_shaken :
    ¬shaken.Balanced colliding ∧ Fresh colliding (shaken.grow colliding).table ∧
      (Call.run colliding Accumulation.listing [⟨.insert ⟨5⟩ 50, 0⟩]
        (shaken.grow colliding).table).2.Balanced colliding ∧
      ∃ p, MeetsEntries colliding (Call.run colliding Accumulation.listing [⟨.insert ⟨5⟩ 50, 0⟩]
        (shaken.grow colliding).table).2 ⟨4⟩ p := by
  have made : (withGroups colliding 8 : Except Fault (Table ZeroVacant UInt64 2)) =
      .ok (empty 8) := withGroups_eq_of_le (by decide) (by decide)
  have reachable : Reachable colliding shaken :=
    Reachable.run Accumulation.listing (Reachable.made made) (by simp [Operation.Legal])
  have fresh : Fresh colliding (shaken.grow colliding).table :=
    .grown reachable (by decide +kernel)
  obtain ⟨balanced, meets⟩ := fresh.balanced_run Accumulation.listing
    [⟨.insert ⟨5⟩ 50, 0⟩] (by simp [Operation.Erases])
  refine ⟨?_, fresh, balanced, meets ⟨4⟩ 40 (by decide +kernel)⟩
  intro balanced'
  -- The entry of the fourth key has one entry before it, and only one is left beside it.
  have more := (balanced' ⟨5, 1⟩ (⟨4⟩, 40) (by decide +kernel)).2 (by decide +kernel)
  exact absurd more (by decide +kernel)

end Table

end TwoChoice
