import Mathlib.Data.Multiset.Filter
import TwoChoice.Proofs.Charge
import TwoChoice.Proofs.Removal
import TwoChoice.Table.Batch

/-!
# Withdrawals

A key may be stored several times. A lookup and an erasure of the key go through the same slots, so
the entry that an erasure takes out is the one that a lookup finds, and all others stay. A key that
is stored `n` times can therefore be taken out `n` times in a row, and is then stored no longer.

## Main Definitions

* `valuesOf` — the values that some entries have for a key
* `Table.Yields` — a lookup of a key finds the entry that an erasure takes out
* `Table.Lacks` — there is no entry of a key to be found or taken out
* `Table.Withdraws` — what erasing a key so many times in a row leaves

## Main Statements

* `Table.WellFormed.yields_or_lacks` — every key is in one of the two cases
* `Table.WellFormed.withdraws` — erasing a key many times in a row

## Design Notes

An erasure counts its comparisons on a counter of its own, so that two comparisons a slot must be
countable from zero. They are compared with keys that are not vacant only.
-/

namespace TwoChoice

universe u v

variable {K : Type u} {V : Type v} {slots : Nat} [DecidableEq K]

/-! ### The values of a key -/

/-- The values that some entries have for a key, each as often as it occurs. -/
def valuesOf (key : K) (entries : List (K × V)) : Multiset V :=
  ((entries.filter fun entry => entry.1 = key).map Prod.snd : List V)

@[simp] theorem valuesOf_cons_self (key : K) (value : V) (rest : List (K × V)) :
    valuesOf key ((key, value) :: rest) = value ::ₘ valuesOf key rest := by
  simp [valuesOf]

theorem valuesOf_cons_of_ne {key other : K} (different : other ≠ key) (value : V)
    (rest : List (K × V)) : valuesOf key ((other, value) :: rest) = valuesOf key rest := by
  simp [valuesOf, different]

theorem valuesOf_append (key : K) (entries entries' : List (K × V)) :
    valuesOf key (entries ++ entries') = valuesOf key entries + valuesOf key entries' := by
  simp [valuesOf]

theorem valuesOf_eq_of_perm {entries entries' : List (K × V)} (perm : entries.Perm entries')
    (key : K) : valuesOf key entries = valuesOf key entries' :=
  Multiset.coe_eq_coe.mpr ((perm.filter _).map _)

theorem mem_valuesOf {key : K} {value : V} {entries : List (K × V)} :
    value ∈ valuesOf key entries ↔ (key, value) ∈ entries := by
  simp [valuesOf]

/-- There are no values of a key exactly if there is no entry of the key. -/
theorem card_valuesOf_eq_zero_iff {key : K} {entries : List (K × V)} :
    (valuesOf key entries).card = 0 ↔ ∀ value, (key, value) ∉ entries := by
  rw [Multiset.card_eq_zero, Multiset.eq_zero_iff_forall_notMem]
  exact forall_congr' fun value => not_congr mem_valuesOf

variable [Key K]

namespace Table

variable {s : Scheme K} {t : Table K V slots} {key : K} {value : V} {p : Position}

/-! ### One erasure -/

/-- A lookup of a key finds its entry at a position, and erasing the key takes that entry out. -/
structure Yields (s : Scheme K) (t : Table K V slots) (key : K) (p : Position) (value : V) :
    Prop where
  /-- The entry is stored. -/
  stored : t.entryAt? p = some (key, value)
  /-- Every lookup of the key finds it, at the same cost. -/
  lookups_eq : ∃ cost, cost ≤ 2 * slots ∧ ∀ counter,
    t.locate key (s.hash key) counter = .charge cost (.ok (some p)) counter ∧
      t.get s key counter = .charge cost (.ok (some value)) counter ∧
      t.contains s key counter = .charge cost (.ok true) counter
  /-- Erasing the key vacates its slot. -/
  erase_eq : ∃ change, t.Removes p change ∧
    t.erase s key = ⟨.ok true, t.edit change (t.size - 1)⟩
  /-- All other entries are left. -/
  perm : t.toList.Perm ((key, value) :: (t.erase s key).table.toList)

/-- There is no entry of a key, no lookup finds one, and erasing the key changes nothing. -/
structure Lacks (s : Scheme K) (t : Table K V slots) (key : K) : Prop where
  /-- No entry of the key is stored. -/
  notStored : ∀ value, (key, value) ∉ t.toList
  /-- Every lookup of the key misses, at the same cost. -/
  lookups_eq : ∃ cost, cost ≤ 2 * slots ∧ ∀ counter,
    t.get s key counter = .charge cost (.ok none) counter ∧
      t.contains s key counter = .charge cost (.ok false) counter
  /-- Erasing the key changes nothing. -/
  erase_eq : t.erase s key = ⟨.ok false, t⟩

/-- The vacant key is never there. -/
theorem lacks_vacant (t : Table K V slots) : Lacks s t Key.vacant where
  notStored value mem := key_ne_vacant_of_mem_toList mem rfl
  lookups_eq := by
    refine ⟨0, Nat.zero_le _, fun counter => ?_⟩
    rw [get, getIndexed, contains, locate, if_pos rfl, Counted.charge_zero, Counted.charge_zero]
    exact ⟨rfl, rfl⟩
  erase_eq := by
    rw [erase, locate, if_pos rfl]

namespace WellFormed

/-- A key with a match is found there, and taken out there. -/
theorem yields_of_match (wellFormed : t.WellFormed s) (live : key ≠ Key.vacant)
    (counted : 2 * slots < Word.limit) {cost : Nat}
    (found : t.firstMatch? key (s.hash key) = some (cost, p)) :
    ∃ value, Yields s t key p value := by
  obtain ⟨-, value, stored⟩ := wellFormed.entryAt?_of_match live found
  obtain ⟨change, removal_eq, removes⟩ := wellFormed.removal_eq stored
  have cost_le := wellFormed.cost_le found
  have locate_eq (counter : UInt64) :
      t.locate key (s.hash key) counter = .charge cost (.ok (some p)) counter := by
    rw [wellFormed.locate_eq live, found]
  have located : (t.locate key (s.hash key) 0).result = .ok (some p) := by
    rw [locate_eq, Counted.charge_from_zero (cost_le.trans_lt counted)]
  have erase_eq : t.erase s key = ⟨.ok true, t.edit change (t.size - 1)⟩ := by
    simp only [erase, located, removal_eq]
  refine ⟨value, stored, ⟨cost, cost_le, fun counter => ⟨locate_eq counter, ?_, ?_⟩⟩,
    ⟨change, removes, erase_eq⟩, ?_⟩
  · rw [get, getIndexed, locate_eq, Counted.andThen_charge]
    show Counted.charge cost ((t.valueAt p).map some) counter = _
    rw [wellFormed.valueAt_eq stored]
    rfl
  · rw [contains, locate_eq, Counted.andThen_charge]
    rfl
  · rw [erase_eq]
    exact removes.perm wellFormed stored _

/-- A key without a match is not there. -/
theorem lacks_of_no_match (wellFormed : t.WellFormed s) (live : key ≠ Key.vacant)
    (counted : 2 * slots < Word.limit)
    (none_eq : t.firstMatch? key (s.hash key) = none) : Lacks s t key := by
  have first_le := t.fillAt_le (t.candidates (s.hash key)).first
  have second_le := t.fillAt_le (t.candidates (s.hash key)).second
  obtain ⟨cost, cost_le, locate_eq⟩ : ∃ cost, cost ≤ 2 * slots ∧ ∀ counter,
      t.locate key (s.hash key) counter = .charge cost (.ok none) counter := by
    refine ⟨2 * max (t.fillAt (t.candidates (s.hash key)).first)
      (t.fillAt (t.candidates (s.hash key)).second), by omega, fun counter => ?_⟩
    rw [wellFormed.locate_eq live, none_eq]
  refine ⟨wellFormed.notStored_of_no_match live none_eq,
    ⟨cost, cost_le, fun counter => ⟨?_, ?_⟩⟩, ?_⟩
  · rw [get, getIndexed, locate_eq, Counted.andThen_charge]
    rfl
  · rw [contains, locate_eq, Counted.andThen_charge]
    rfl
  · have located : (t.locate key (s.hash key) 0).result = .ok none := by
      rw [locate_eq, Counted.charge_from_zero (cost_le.trans_lt counted)]
    simp only [erase, located]

/-- A key is either found and taken out, or not there. -/
theorem yields_or_lacks (wellFormed : t.WellFormed s)
    (counted : key ≠ Key.vacant → 2 * slots < Word.limit) :
    (∃ p value, Yields s t key p value) ∨ Lacks s t key := by
  by_cases vacant : key = Key.vacant
  · rw [vacant]
    exact Or.inr (lacks_vacant t)
  · cases found : t.firstMatch? key (s.hash key) with
    | none => exact Or.inr (wellFormed.lacks_of_no_match vacant (counted vacant) found)
    | some place =>
      obtain ⟨value, yields⟩ := wellFormed.yields_of_match vacant (counted vacant) found
      exact Or.inl ⟨place.2, value, yields⟩

/-- A key that is stored is found and taken out. -/
theorem exists_yields (wellFormed : t.WellFormed s)
    (counted : key ≠ Key.vacant → 2 * slots < Word.limit)
    (stored : 0 < (valuesOf key t.toList).card) : ∃ p value, Yields s t key p value := by
  refine (wellFormed.yields_or_lacks counted).resolve_right fun lacks => ?_
  exact Nat.ne_of_gt stored (card_valuesOf_eq_zero_iff.mpr lacks.notStored)

/-- A key that is not stored is not there. -/
theorem lacks_of_notStored (wellFormed : t.WellFormed s)
    (counted : key ≠ Key.vacant → 2 * slots < Word.limit)
    (notStored : ∀ value, (key, value) ∉ t.toList) : Lacks s t key := by
  refine (wellFormed.yields_or_lacks counted).resolve_left ?_
  rintro ⟨p, value, yields⟩
  exact notStored value (mem_toList_of_entryAt? yields.stored)

end WellFormed

/-! ### Erasures in a row -/

/-- Erasing a key so many times in a row takes an entry out as long as there is one, and tells so.
-/
structure Withdraws (s : Scheme K) (t : Table K V slots) (key : K) (times : Nat) : Prop where
  /-- A call tells whether there are more entries of the key than calls before it. -/
  flags_eq : (eraseAll s (List.replicate times key) t).result =
    .ok ((List.range times).map fun i => decide (i < (valuesOf key t.toList).card))
  /-- Every lookup afterwards tells whether there are more entries of the key than calls. -/
  contains_eq : ∃ cost, cost ≤ 2 * slots ∧ ∀ counter,
    (eraseAll s (List.replicate times key) t).table.contains s key counter =
      .charge cost (.ok (decide (times < (valuesOf key t.toList).card))) counter
  /-- So many entries of the key are left. -/
  card_eq : (valuesOf key (eraseAll s (List.replicate times key) t).table.toList).card =
    (valuesOf key t.toList).card - times
  /-- The entries of other keys are left. -/
  others_eq : ∀ other, other ≠ key →
    valuesOf other (eraseAll s (List.replicate times key) t).table.toList =
      valuesOf other t.toList

/-- Erasing some keys when the first erasure returns. -/
theorem eraseAll_cons_of_ok {flag : Bool} (returned : (t.erase s key).result = .ok flag)
    (rest : List K) :
    eraseAll s (key :: rest) t =
      ⟨(eraseAll s rest (t.erase s key).table).result.map fun flags => flag :: flags,
        (eraseAll s rest (t.erase s key).table).table⟩ := by
  rw [eraseAll]
  rcases erased : t.erase s key with ⟨result, table⟩
  rw [erased] at returned
  subst returned
  dsimp only
  rcases eraseAll s rest table with ⟨result', table'⟩
  cases result' with
  | error fault => rfl
  | ok flags => rfl

/-- A well-formed table tells whether a key is stored. -/
theorem WellFormed.contains_eq (wellFormed : t.WellFormed s)
    (counted : key ≠ Key.vacant → 2 * slots < Word.limit) :
    ∃ cost, cost ≤ 2 * slots ∧ ∀ counter, t.contains s key counter =
      .charge cost (.ok (decide (0 < (valuesOf key t.toList).card))) counter := by
  rcases wellFormed.yields_or_lacks counted with ⟨p, value, yields⟩ | lacks
  · obtain ⟨cost, cost_le, lookups_eq⟩ := yields.lookups_eq
    have stored := mem_valuesOf.mpr (mem_toList_of_entryAt? yields.stored)
    rw [decide_eq_true (Multiset.card_pos_iff_exists_mem.mpr ⟨value, stored⟩)]
    exact ⟨cost, cost_le, fun counter => (lookups_eq counter).2.2⟩
  · obtain ⟨cost, cost_le, lookups_eq⟩ := lacks.lookups_eq
    rw [card_valuesOf_eq_zero_iff.mpr lacks.notStored]
    exact ⟨cost, cost_le, fun counter => (lookups_eq counter).2⟩

/-- One erasure takes out one entry of the key, if there is one. -/
theorem WellFormed.erase_step (wellFormed : t.WellFormed s)
    (counted : key ≠ Key.vacant → 2 * slots < Word.limit) :
    (t.erase s key).result = .ok (decide (0 < (valuesOf key t.toList).card)) ∧
      (t.erase s key).table.WellFormed s ∧
      (valuesOf key (t.erase s key).table.toList).card = (valuesOf key t.toList).card - 1 ∧
      ∀ other, other ≠ key →
        valuesOf other (t.erase s key).table.toList = valuesOf other t.toList := by
  rcases wellFormed.yields_or_lacks counted with ⟨p, value, yields⟩ | lacks
  · obtain ⟨change, removes, erase_eq⟩ := yields.erase_eq
    have values_eq := valuesOf_eq_of_perm yields.perm key
    rw [valuesOf_cons_self] at values_eq
    have card_eq := congrArg Multiset.card values_eq
    rw [Multiset.card_cons] at card_eq
    refine ⟨?_, ?_, by omega, fun other different => ?_⟩
    · rw [decide_eq_true (by omega), erase_eq]
    · rw [erase_eq]
      exact removes.wellFormed wellFormed yields.stored
    · rw [valuesOf_eq_of_perm yields.perm, valuesOf_cons_of_ne (Ne.symm different)]
  · have card_eq := card_valuesOf_eq_zero_iff.mpr lacks.notStored
    rw [lacks.erase_eq, card_eq]
    exact ⟨rfl, wellFormed, rfl, fun _ _ => rfl⟩

/-- A key can be taken out as often as it is stored. -/
theorem WellFormed.withdraws (wellFormed : t.WellFormed s)
    (counted : key ≠ Key.vacant → 2 * slots < Word.limit) (times : Nat) :
    Withdraws s t key times := by
  -- Every call is the first of those that follow it, on a table with one entry less.
  induction times generalizing t with
  | zero => exact ⟨rfl, wellFormed.contains_eq counted, rfl, fun _ _ => rfl⟩
  | succ times ih =>
    obtain ⟨returned, wellFormed', card_eq, others_eq⟩ := wellFormed.erase_step counted
    obtain ⟨flags_eq', ⟨cost, cost_le, contains_eq'⟩, card_eq', others_eq'⟩ := ih wellFormed'
    rw [card_eq] at flags_eq' contains_eq' card_eq'
    have less (i : Nat) : i < (valuesOf key t.toList).card - 1 ↔
        i + 1 < (valuesOf key t.toList).card := by omega
    have unfolded := eraseAll_cons_of_ok returned (List.replicate times key)
    rw [← List.replicate_succ] at unfolded
    refine ⟨?_, ⟨cost, cost_le, fun counter => ?_⟩, ?_, fun other different => ?_⟩
    · rw [unfolded, flags_eq', List.range_succ_eq_map, List.map_cons, List.map_map]
      simp only [less]
      rfl
    · rw [unfolded, contains_eq', decide_eq_decide.mpr (less times)]
    · rw [unfolded, card_eq', Nat.sub_sub, Nat.add_comm]
    · rw [unfolded, others_eq' other different, others_eq other different]

end Table

end TwoChoice
