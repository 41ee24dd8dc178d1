import TwoChoice.Proofs.Invariant

/-!
# Operations that trust their caller

The unbounded scan compares keys until it finds the one it was promised. Where a candidate holds the
key it stops at the same match as the bounded scan, after the same comparisons, so everything that
follows is the same as well. Where no candidate does it makes two comparisons a slot and fails; the
bounded scan would have stopped as soon as both groups have no further entry.

## Main Definitions

* `Counted.Misses` — two comparisons a slot, and then the fault of a missing key

## Main Statements

* `Table.WellFormed.locate_eq_andThen` — both scans find the same match at the same cost
* `Table.WellFormed.locateUnchecked_of_not_holds` — the unbounded scan of a key that is not there
* `Table.Reachable.trusting_agrees` — the operations that trust their caller against the others

## Design Notes

A key is compared with the slots of both candidates in turn, and a slot that holds no entry has the
vacant key. That the key itself is not vacant is therefore the one promise that agreement needs.
-/

namespace TwoChoice

universe u v w x

/-- A lookup that finds nothing in two groups: it compares the key with every slot of both and
reports it missing, unless the counter cannot take so many comparisons. -/
structure Counted.Misses {α : Type w} (slots : Nat) (counter : UInt64) (c : Counted α) : Prop where
  /-- If the counter can take two comparisons a slot, the key is reported missing after them. -/
  missing : counter.toNat + 2 * slots < Word.limit →
    c.result.mapError Fault.message = .error "key not present in table" ∧
      c.counter.toNat = counter.toNat + 2 * slots
  /-- Otherwise the lookup fails once the counter is full. -/
  overflowed : Word.limit ≤ counter.toNat + 2 * slots →
    c.result = .error .counterOverflow ∧ c.counter = fullCounter

/-- What a lookup results in has no bearing on what it counts. -/
theorem Counted.counter_charge {α : Type w} {β : Type x} {cost : Nat} {counter : UInt64}
    (result : Except Fault α) (result' : Except Fault β) :
    (charge cost result counter).counter = (charge cost result' counter).counter := by
  unfold charge
  split <;> rfl

/-- Two comparisons a slot, charged for a missing key, are a miss. -/
theorem Counted.misses_charge {α : Type w} (slots : Nat) (counter : UInt64) :
    (charge (2 * slots) (.error .missingKey) counter : Counted α).Misses slots counter where
  missing := by
    intro fits
    rw [charge_of_lt fits]
    exact ⟨rfl, toNat_add fits⟩
  overflowed := by
    intro tooMany
    rw [charge_of_not_lt (Nat.not_lt.mpr tooMany)]
    exact ⟨rfl, rfl⟩

namespace Table

variable {K : Type u} {V : Type v} {slots : Nat} [Key K] [DecidableEq K]
variable {s : Scheme K} {t : Table K V slots} {key : K} {hash : UInt64}

namespace WellFormed

/-! ### Keys that a candidate holds -/

/-- Where a candidate holds the key, the bounded scan ends as the unbounded one does. -/
theorem locate_eq_andThen (wellFormed : t.WellFormed s) (live : key ≠ Key.vacant)
    (held : t.Holds key hash) (counter : UInt64) :
    t.locate key hash counter =
      (t.locateUnchecked key hash counter).andThen fun p => .ok (some p) := by
  obtain ⟨cost, p, found⟩ := wellFormed.exists_match live held
  rw [wellFormed.locate_eq live, wellFormed.locateUnchecked_eq, found]
  dsimp only
  rw [Counted.andThen_charge]
  rfl

theorem findIndexedUnchecked_eq (wellFormed : t.WellFormed s) (live : key ≠ Key.vacant)
    (held : t.Holds key hash) (counter : UInt64) :
    t.findIndexedUnchecked key hash counter = t.findIndexed key hash counter := by
  rw [findIndexed, wellFormed.locate_eq_andThen live held, findIndexedUnchecked]
  unfold Counted.andThen
  cases (t.locateUnchecked key hash counter).result with
  | error fault => rfl
  | ok p => rfl

/-- Erasing a stored key says so, and is otherwise the same whether or not the caller is trusted. -/
theorem erase_eq (wellFormed : t.WellFormed s) (live : key ≠ Key.vacant)
    (held : t.Holds key (s.hash key)) :
    t.erase s key =
      ⟨(t.eraseUnchecked s key).result.map fun _ => true, (t.eraseUnchecked s key).table⟩ := by
  rw [erase, wellFormed.locate_eq_andThen live held, eraseUnchecked]
  unfold Counted.andThen
  cases (t.locateUnchecked key (s.hash key) 0).result with
  | error fault => rfl
  | ok p =>
    dsimp only
    cases t.removal p with
    | error fault => rfl
    | ok change => rfl

/-! ### Keys that no candidate holds -/

/-- Where no candidate holds the key, the unbounded scan compares it with every slot of both. -/
theorem locateUnchecked_of_not_holds (wellFormed : t.WellFormed s) (live : key ≠ Key.vacant)
    (notHeld : ¬t.Holds key hash) (counter : UInt64) :
    t.locateUnchecked key hash counter = .charge (2 * slots) (.error .missingKey) counter := by
  have none_eq := (wellFormed.firstMatch?_eq_none_iff live hash).mpr notHeld
  rw [wellFormed.locateUnchecked_eq, none_eq]

theorem misses_findIndexedUnchecked (wellFormed : t.WellFormed s) (live : key ≠ Key.vacant)
    (notHeld : ¬t.Holds key hash) (counter : UInt64) :
    (t.findIndexedUnchecked key hash counter).Misses slots counter := by
  rw [findIndexedUnchecked, wellFormed.locateUnchecked_of_not_holds live notHeld,
    Counted.andThen_charge]
  exact Counted.misses_charge slots counter

/-- Erasing a key that is not stored takes nothing out, and fails as its scan does. -/
theorem eraseUnchecked_of_not_holds (wellFormed : t.WellFormed s) (live : key ≠ Key.vacant)
    (notHeld : ¬t.Holds key (s.hash key)) :
    t.eraseUnchecked s key =
      ⟨(Counted.charge (2 * slots) (.error .missingKey) 0 : Counted Unit).result, t⟩ := by
  rw [eraseUnchecked, wellFormed.locateUnchecked_of_not_holds live notHeld]
  unfold Counted.charge
  by_cases fits : (0 : UInt64).toNat + 2 * slots < Word.limit
  · rw [if_pos fits, if_pos fits]
  · rw [if_neg fits, if_neg fits]

end WellFormed

/-! ### Reachable tables -/

/-- On a reachable table the operations that trust their caller agree with the others where a
candidate holds the key, and otherwise make two comparisons a slot, fail and change nothing. -/
theorem Reachable.trusting_agrees (reachable : Reachable s t) (live : key ≠ Key.vacant)
    (hash counter : UInt64) :
    (t.Holds key hash →
        t.findIndexedUnchecked key hash counter = t.findIndexed key hash counter) ∧
      (t.Holds key (s.hash key) →
        t.findUnchecked s key counter = t.find s key counter ∧
          (t.eraseUnchecked s key).table = (t.erase s key).table ∧
          (t.erase s key).result = (t.eraseUnchecked s key).result.map fun _ => true) ∧
      (¬t.Holds key hash → (t.findIndexedUnchecked key hash counter).Misses slots counter) ∧
      (¬t.Holds key (s.hash key) →
        (t.findUnchecked s key counter).Misses slots counter ∧
          (⟨(t.eraseUnchecked s key).result, (t.locateUnchecked key (s.hash key) 0).counter⟩ :
            Counted Unit).Misses slots 0 ∧
          (t.eraseUnchecked s key).table = t) := by
  have wellFormed := reachable.wellFormed
  refine ⟨fun held => wellFormed.findIndexedUnchecked_eq live held counter, fun held => ?_,
    fun notHeld => wellFormed.misses_findIndexedUnchecked live notHeld counter, fun notHeld => ?_⟩
  · rw [wellFormed.erase_eq live held]
    exact ⟨wellFormed.findIndexedUnchecked_eq live held counter, rfl, rfl⟩
  · rw [wellFormed.eraseUnchecked_of_not_holds live notHeld,
      wellFormed.locateUnchecked_of_not_holds live notHeld]
    refine ⟨wellFormed.misses_findIndexedUnchecked live notHeld counter, ?_, rfl⟩
    show Counted.Misses slots 0 ⟨(Counted.charge (2 * slots) (.error .missingKey) 0).result, _⟩
    rw [Counted.counter_charge _ (.error .missingKey : Except Fault Unit)]
    exact Counted.misses_charge slots 0

/-- A table in which a key was stored twice. -/
def storedTwice : Table ZeroVacant UInt64 2 :=
  (Operation.run Scheme.ofWords Accumulation.listing [.insert ⟨1⟩ 10, .insert ⟨1⟩ 11]
    ⟨empty 8, 0⟩).2.table

/-- Both ways of looking the key up that was stored twice find the same value, and looking for
another key compares it with all four slots of its candidates. -/
theorem trusting_agrees_storedTwice :
    Reachable Scheme.ofWords storedTwice ∧
      storedTwice.findUnchecked Scheme.ofWords ⟨1⟩ 7 = storedTwice.find Scheme.ofWords ⟨1⟩ 7 ∧
      (storedTwice.findUnchecked Scheme.ofWords ⟨2⟩ 7).Misses 2 7 := by
  have made : (withGroups Scheme.ofWords 8 : Except Fault (Table ZeroVacant UInt64 2)) =
      .ok (empty 8) := withGroups_eq_of_le (by decide) (by decide)
  have reachable : Reachable Scheme.ofWords storedTwice :=
    Reachable.run Accumulation.listing (Reachable.made made) (by simp [Operation.Legal])
  have toList_eq : storedTwice.toList = [(⟨1⟩, 10), (⟨1⟩, 11)] := by decide +kernel
  have held : storedTwice.Holds ⟨1⟩ (Scheme.ofWords.hash ⟨1⟩) :=
    reachable.wellFormed.holds_hash_iff.mpr ⟨10, by simp [toList_eq]⟩
  have notHeld : ¬storedTwice.Holds ⟨2⟩ (Scheme.ofWords.hash ⟨2⟩) := by
    rw [reachable.wellFormed.holds_hash_iff, toList_eq]
    simp
  exact ⟨reachable, ((reachable.trusting_agrees (by decide) 0 7).2.1 held).1,
    ((reachable.trusting_agrees (by decide) 0 7).2.2.2 notHeld).1⟩

end Table

end TwoChoice
