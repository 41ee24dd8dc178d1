import TwoChoice.Proofs.Answers

/-!
# Lookups with a hash at hand

A lookup that is given a hash goes through the groups that the hash names, whether or not it is the
hash of the key. It compares keys, so that it never answers with the value of another key. But it
finds no entry outside those groups. With a hash that is not the key's own it can miss a key that is
stored, and it can find one if the groups happen to be the same.

The hash of a key depends on the key alone. One that was told ahead is as good after any updates as
it was before: it names other groups once the table has grown, and those are the groups in which the
entries of the key lie by then.

## Main Definitions

* `Table.IndexedLookup` — what a lookup with any hash comes to
* `Table.GoodHash` — a hash with which lookups are those by key

## Main Statements

* `Table.WellFormed.indexedLookup` — every hash finds the entries in the groups that it names
* `Table.Reachable.indexed_exact` — that, and a hash told ahead of a run is good after it
-/

namespace TwoChoice

universe u v w

/-- What a lookup returns is its result. On a counter that cannot take the comparisons it fails. -/
theorem Counted.CountedAs.result_eq {α : Type u} {cost : Nat} {result : Except Fault α}
    {lookup : UInt64 → Counted α} {counter : UInt64} {a : α}
    (counted : CountedAs cost result lookup) (returned : (lookup counter).result = .ok a) :
    result = .ok a := by
  by_cases room : counter.toNat + cost ≤ 2 ^ 64 - 1
  · exact (counted.counted counter room).1.symm.trans returned
  · have failed := (counted.overflowed counter (Nat.lt_of_not_le room)).1
    rw [returned] at failed
    cases failed

namespace Table

variable {K : Type u} {V : Type v} {slots : Nat} {A : Type w} [Key K] [DecidableEq K]
variable {s : Scheme K} {t : Table K V slots} {key : K} {value : V} {hash counter : UInt64}

open Counted (CountedAs)

/-! ### Any hash -/

/-- A lookup of a key with some hash. -/
structure IndexedLookup (s : Scheme K) (t : Table K V slots) (key : K) (hash : UInt64) :
    Prop where
  /-- What is returned is the value of an entry of the key in a group that the hash names. -/
  sound : ∀ counter value, (t.getIndexed key hash counter).result = .ok (some value) ∨
    (t.findIndexed key hash counter).result = .ok value →
      ∃ p, (p.group = (t.candidates hash).first ∨ p.group = (t.candidates hash).second) ∧
        t.entryAt? p = some (key, value)
  /-- There is a value exactly if one of these groups holds the key. If no key is stored twice, it
  is the one that a lookup by key answers with. Without a value the one lookup answers with none,
  and the other fails. -/
  exact : ∃ cost value?, cost ≤ 2 * slots ∧
    CountedAs cost (.ok value?) (t.getIndexed key hash) ∧
    CountedAs cost (value?.elim (.error .missingKey) .ok) (t.findIndexed key hash) ∧
    (value?.isSome ↔ t.Holds key hash) ∧
    (t.DistinctKeys → value? = none ∨ Answers s t key value?)

/-- The vacant key is held by no group. -/
theorem not_holds_vacant (t : Table K V slots) (hash : UInt64) : ¬t.Holds Key.vacant hash := by
  rintro ⟨i, inRange, value, -, mem⟩
  exact Group.key_ne_vacant_of_mem_toList mem rfl

namespace WellFormed

/-- A key is found exactly if one of the candidates holds it. -/
theorem isSome_valueOf?_iff (wellFormed : t.WellFormed s) (key : K) (hash : UInt64) :
    (t.valueOf? (t.firstOccurrence? key hash)).isSome ↔ t.Holds key hash := by
  rw [isSome_valueOf?]
  by_cases vacant : key = Key.vacant
  · subst vacant
    rw [firstOccurrence?_vacant]
    exact iff_of_false Bool.false_ne_true (not_holds_vacant t hash)
  · exact wellFormed.isSome_firstOccurrence?_iff vacant hash

/-- A lookup that returns a value has found it at the first entry of the key. -/
theorem valueOf?_of_returned (wellFormed : t.WellFormed s)
    (returned : (t.getIndexed key hash counter).result = .ok (some value) ∨
      (t.findIndexed key hash counter).result = .ok value) :
    t.valueOf? (t.firstOccurrence? key hash) = some value := by
  have lookup := wellFormed.looksUp key hash
  rcases returned with got | found
  · exact Except.ok.inj (lookup.getIndexed.result_eq got)
  · have result_eq := lookup.findIndexed.result_eq found
    cases answer : t.valueOf? (t.firstOccurrence? key hash) with
    | none =>
      rw [answer] at result_eq
      cases result_eq
    | some value' =>
      rw [answer] at result_eq
      exact congrArg some (Except.ok.inj result_eq)

/-- What a lookup with some hash comes to is told by the first entry of the key. -/
theorem indexedLookup (wellFormed : t.WellFormed s) (key : K) (hash : UInt64) :
    IndexedLookup s t key hash where
  sound counter value returned := by
    obtain ⟨p, found, stored⟩ :=
      valueOf?_eq_some_iff.mp (wellFormed.valueOf?_of_returned returned)
    exact ⟨p, (entryAt?_of_firstOccurrence? found).1, stored⟩
  exact := by
    have lookup := wellFormed.looksUp key hash
    refine ⟨_, _, wellFormed.scanCost_le key hash, lookup.getIndexed, lookup.findIndexed,
      wellFormed.isSome_valueOf?_iff key hash, fun distinct => ?_⟩
    cases answer : t.valueOf? (t.firstOccurrence? key hash) with
    | none => exact Or.inl rfl
    | some value =>
      exact Or.inr (wellFormed.answers_of_stored distinct (mem_toList_of_valueOf? answer))

end WellFormed

/-! ### Hashes told ahead -/

/-- A hash with which lookups of a key are those by key. -/
structure GoodHash (s : Scheme K) (t : Table K V slots) (key : K) (hash : UInt64) : Prop where
  /-- A lookup with the hash has the result and the counter of one by key. -/
  get_eq : ∀ counter, t.getIndexed key hash counter = t.get s key counter
  /-- So has a lookup that fails if the key is not stored. -/
  find_eq : ∀ counter, t.findIndexed key hash counter = t.find s key counter
  /-- The key is found exactly if it is stored. -/
  lookup : ∃ cost found?, cost ≤ 2 * slots ∧ LooksUp s t key hash cost found? ∧
    (found?.isSome ↔ ∃ value, (key, value) ∈ t.toList)

/-- The hash of a key is good. -/
theorem WellFormed.goodHash (wellFormed : t.WellFormed s) (key : K) :
    GoodHash s t key (s.hash key) where
  get_eq _ := rfl
  find_eq _ := rfl
  lookup := ⟨_, _, wellFormed.scanCost_le key _, wellFormed.looksUp key _,
    wellFormed.isSome_firstOccurrence?_hash_iff key⟩

/-- A lookup with any hash finds the entries of its key in the groups that the hash names, and
nothing else. The hash that a table tells for a key is good for that table, and it is good for
whatever a run makes of the table. -/
theorem Reachable.indexed_exact (reachable : Reachable s t) (acc : Accumulation V A) (key : K)
    (counter : UInt64) :
    (∀ hash, IndexedLookup s t key hash) ∧
      ∃ hash, ((Operation.prefetch key).perform s acc ⟨t, counter⟩).answer = .ok (.hash hash) ∧
        ((Operation.hashOf key).perform s acc ⟨t, counter⟩).answer = .ok (.hash hash) ∧
        ∀ calls : List (Call K V), (∀ call ∈ calls, call.operation.Permitted) →
          GoodHash s (Call.run s acc calls t).2 key hash := by
  have wellFormed := reachable.wellFormed
  refine ⟨wellFormed.indexedLookup key, s.hash key, ?_, rfl, fun calls permitted => ?_⟩
  · show ((t.prefetch s key).map Answer.hash : Except Fault (Answer V A)) = _
    rw [prefetch, wellFormed.candidateGroups_eq]
    rfl
  · exact (wellFormed.run acc permitted).goodHash key

/-- Calls that double the groups of a table and store another entry. -/
def growingCalls : List (Call ZeroVacant UInt64) :=
  [⟨.grow, 0⟩, ⟨.insert ⟨5⟩ 50, 0⟩]

/-- A hash that names one of the candidates twice misses the fourth key, which lies in the other.
The hash told for the key finds it, also in twice as many groups. -/
theorem indexed_exact_shaken :
    Reachable colliding shaken ∧ IndexedLookup colliding shaken ⟨4⟩ 0x200000002 ∧
      (shaken.getIndexed ⟨4⟩ 0x200000002 0).result = .ok none ∧
      (Call.run colliding Accumulation.listing growingCalls shaken).2.capacity = 16 ∧
      ∃ hash, GoodHash colliding
        (Call.run colliding Accumulation.listing growingCalls shaken).2 ⟨4⟩ hash := by
  obtain ⟨lookups, hash, -, -, good⟩ :=
    reachable_shaken.indexed_exact Accumulation.listing ⟨4⟩ 0
  have permitted : ∀ call ∈ growingCalls, call.operation.Permitted := by
    simp [growingCalls, Operation.Permitted]
  exact ⟨reachable_shaken, lookups 0x200000002, by decide +kernel, by decide +kernel, hash,
    good growingCalls permitted⟩

end Table

end TwoChoice
