import TwoChoice.Proofs.Comparisons
import TwoChoice.Proofs.Balance

/-!
# The order of a lookup

A lookup goes through slot 0 of the first candidate, slot 0 of the second, slot 1 of the first, and
so on. This module says what it finds, and what it costs, in terms of the entries of the table and
of that order alone: it finds the first position with an entry of the key, and it has compared the
key with every position up to there. If there is no such position, it has compared the key at every
offset at which one of the candidates has an entry.

The caller counts comparisons on a counter of its own. The counter has no say in what is found,
except that a lookup fails on a counter that cannot take the comparisons.

## Main Definitions

* `Candidates.positions` — the positions of two candidates, in the order of a lookup
* `Candidates.costAt` — how many comparisons come up to a position
* `Table.firstOccurrence?` — the first of them with an entry of a key
* `Counted.CountedAs` — a lookup with a result and a cost that do not depend on the counter
* `Table.LooksUp` — what looking a key up comes to, for every kind of lookup

## Main Statements

* `Table.WellFormed.firstOccurrence?_eq` — a scan matches at the first entry of the key
* `Table.WellFormed.lookup_exact` — the result and the cost of every lookup
-/

namespace TwoChoice

universe u v w

/-! ### The order -/

/-- The positions of two candidates in the order of a lookup: slot by slot, and of the slots with
one index that of the first candidate before that of the second. -/
def Candidates.positions (c : Candidates) (slots : Nat) : List Position :=
  (List.range slots).flatMap fun slot => [⟨c.first, slot⟩, ⟨c.second, slot⟩]

/-- The positions are those of the comparisons, one after another. -/
theorem Candidates.positions_eq_map (c : Candidates) (slots : Nat) :
    c.positions slots = (List.range (2 * slots)).map (comparison c.first c.second) := by
  induction slots with
  | zero => rfl
  | succ slots ih =>
    have twoMore : 2 * (slots + 1) = 2 * slots + 1 + 1 := by omega
    unfold positions at ih ⊢
    rw [List.range_succ, List.flatMap_append, ih, twoMore, List.range_succ, List.range_succ]
    simp

theorem Candidates.length_positions (c : Candidates) (slots : Nat) :
    (c.positions slots).length = 2 * slots := by
  rw [positions_eq_map, List.length_map, List.length_range]

theorem Candidates.getElem_positions (c : Candidates) {slots n : Nat}
    (inRange : n < (c.positions slots).length) :
    (c.positions slots)[n] = comparison c.first c.second n := by
  simp only [positions_eq_map, List.getElem_map, List.getElem_range]

/-- The positions are the slots of either candidate. -/
theorem Candidates.mem_positions_iff {c : Candidates} {slots : Nat} {p : Position} :
    p ∈ c.positions slots ↔ p.slot < slots ∧ (p.group = c.first ∨ p.group = c.second) := by
  unfold positions
  rw [List.mem_flatMap]
  constructor
  · rintro ⟨slot, inRange, mem⟩
    rw [List.mem_range] at inRange
    rcases List.mem_pair.mp mem with rfl | rfl
    · exact ⟨inRange, Or.inl rfl⟩
    · exact ⟨inRange, Or.inr rfl⟩
  · rintro ⟨inRange, either⟩
    refine ⟨p.slot, List.mem_range.mpr inRange, List.mem_pair.mpr ?_⟩
    rcases either with first | second
    · exact Or.inl (first ▸ rfl)
    · exact Or.inr (second ▸ rfl)

/-- The number of comparisons that a lookup has made once it has come to a position. -/
def Candidates.costAt (c : Candidates) (p : Position) : Nat :=
  if p.group = c.first then 2 * p.slot + 1 else 2 * p.slot + 2

/-- The last of these comparisons is the one with the position. -/
theorem Candidates.comparison_costAt {c : Candidates} {p : Position}
    (named : p.group = c.first ∨ p.group = c.second) :
    ∃ n, c.costAt p = n + 1 ∧ comparison c.first c.second n = p := by
  unfold costAt
  by_cases first : p.group = c.first
  · refine ⟨2 * p.slot, if_pos first, ?_⟩
    rw [comparison_two_mul, ← first]
  · refine ⟨2 * p.slot + 1, if_neg first, ?_⟩
    rw [comparison_two_mul_add_one, ← named.resolve_left first]

/-- So positions of the candidates with one cost are the same. -/
theorem Candidates.eq_of_costAt_eq {c : Candidates} {p q : Position}
    (named : p.group = c.first ∨ p.group = c.second)
    (named' : q.group = c.first ∨ q.group = c.second) (same : c.costAt p = c.costAt q) :
    p = q := by
  obtain ⟨n, cost_eq, rfl⟩ := comparison_costAt named
  obtain ⟨m, cost_eq', rfl⟩ := comparison_costAt named'
  obtain rfl : n = m := by omega
  rfl

/-! ### Counters -/

namespace Counted

variable {α : Type u} {cost : Nat} {result : Except Fault α} {lookup : UInt64 → Counted α}

/-- A lookup makes `cost` comparisons and has a result, whatever its counter, unless the counter
cannot take the comparisons. -/
structure CountedAs (cost : Nat) (result : Except Fault α) (lookup : UInt64 → Counted α) :
    Prop where
  /-- A counter that can take the comparisons is advanced by them. -/
  counted : ∀ counter, counter.toNat + cost ≤ 2 ^ 64 - 1 →
    (lookup counter).result = result ∧ (lookup counter).counter.toNat = counter.toNat + cost
  /-- On any other the lookup fails once the counter is full. -/
  overflowed : ∀ counter, 2 ^ 64 - 1 < counter.toNat + cost →
    (lookup counter).result.mapError Fault.message = .error "attempt to add with overflow" ∧
      (lookup counter).counter.toNat = 2 ^ 64 - 1

/-- What is charged is counted. -/
theorem countedAs_of_charge (charged : ∀ counter, lookup counter = charge cost result counter) :
    CountedAs cost result lookup where
  counted := by
    intro counter room
    have fits : counter.toNat + cost < Word.limit := Nat.lt_of_le_of_lt room (by decide)
    rw [charged, charge_of_lt fits]
    exact ⟨rfl, toNat_add fits⟩
  overflowed := by
    intro counter tooMany
    have overflows : ¬counter.toNat + cost < Word.limit := by
      show ¬counter.toNat + cost < 2 ^ 64
      omega
    rw [charged, charge_of_not_lt overflows]
    exact ⟨rfl, rfl⟩

end Counted

open Counted (CountedAs)

/-! ### Lookups -/

namespace Table

variable {K : Type u} {V : Type v} {slots : Nat} [Key K] [DecidableEq K]
variable {s : Scheme K} {t : Table K V slots} {key : K} {hash : UInt64} {cost : Nat}
variable {p : Position} {entry : K × V}

/-- The first position with an entry of the key, in the order of a lookup in the candidates of a
hash. -/
def firstOccurrence? (t : Table K V slots) (key : K) (hash : UInt64) : Option Position :=
  ((t.candidates hash).positions slots).find? fun p =>
    (t.entryAt? p).map Prod.fst = some key

/-- The value of the entry at a position that was found. -/
def valueOf? (t : Table K V slots) (found? : Option Position) : Option V :=
  found?.bind fun p => (t.entryAt? p).map Prod.snd

/-- Looking a key up in the candidates of a hash makes `cost` comparisons and finds the entry at a
position, or none. -/
structure LooksUp (s : Scheme K) (t : Table K V slots) (key : K) (hash : UInt64) (cost : Nat)
    (found? : Option Position) : Prop where
  /-- The scan tells the position. -/
  locate : CountedAs cost (.ok found?) (t.locate key hash)
  /-- A lookup tells the value. -/
  getIndexed : CountedAs cost (.ok (t.valueOf? found?)) (t.getIndexed key hash)
  /-- So does a lookup of a key that should be stored, which fails if it is not. -/
  findIndexed : CountedAs cost ((t.valueOf? found?).elim (.error .missingKey) .ok)
    (t.findIndexed key hash)
  /-- With the hash of the key itself it is a lookup by key. -/
  get : hash = s.hash key → CountedAs cost (.ok (t.valueOf? found?)) (t.get s key)
  /-- Then there is also the question whether the key is stored. -/
  contains : hash = s.hash key → CountedAs cost (.ok found?.isSome) (t.contains s key)
  /-- And a lookup by key that fails if it is not. -/
  find : hash = s.hash key →
    CountedAs cost ((t.valueOf? found?).elim (.error .missingKey) .ok) (t.find s key)

namespace WellFormed

/-- Every kind of lookup follows the scan. -/
theorem looksUp_of_locate (wellFormed : t.WellFormed s) {found? : Option Position}
    (stored : ∀ p, found? = some p → ∃ value, t.entryAt? p = some (key, value))
    (located : ∀ counter, t.locate key hash counter = .charge cost (.ok found?) counter) :
    LooksUp s t key hash cost found? := by
  have told : ∀ p, found? = some p →
      ∃ value, t.valueAt p = .ok value ∧ t.valueOf? found? = some value := by
    rintro p rfl
    obtain ⟨value, stored⟩ := stored p rfl
    refine ⟨value, wellFormed.valueAt_eq stored, ?_⟩
    rw [valueOf?, Option.bind_some, stored, Option.map_some]
  have getIndexed : ∀ counter, t.getIndexed key hash counter =
      .charge cost (.ok (t.valueOf? found?)) counter := by
    intro counter
    rw [Table.getIndexed, located, Counted.andThen_charge]
    cases found? with
    | none => rfl
    | some p =>
      obtain ⟨value, read, value_eq⟩ := told p rfl
      show Counted.charge cost ((t.valueAt p).map some) counter = _
      rw [read, value_eq]
      rfl
  have findIndexed : ∀ counter, t.findIndexed key hash counter =
      .charge cost ((t.valueOf? found?).elim (.error .missingKey) .ok) counter := by
    intro counter
    rw [Table.findIndexed, located, Counted.andThen_charge]
    cases found? with
    | none => rfl
    | some p =>
      obtain ⟨value, read, value_eq⟩ := told p rfl
      show Counted.charge cost (t.valueAt p) counter = _
      rw [read, value_eq]
      rfl
  refine ⟨Counted.countedAs_of_charge located, Counted.countedAs_of_charge getIndexed,
    Counted.countedAs_of_charge findIndexed, ?_, ?_, ?_⟩
  · rintro rfl
    exact Counted.countedAs_of_charge getIndexed
  · rintro rfl
    refine Counted.countedAs_of_charge fun counter => ?_
    rw [Table.contains, located, Counted.andThen_charge]
    rfl
  · rintro rfl
    exact Counted.countedAs_of_charge findIndexed

/-! ### The first entry of a key -/

/-- An entry of a key does not lie before the first slot of the key in its group. -/
theorem slotOf_le_of_entryAt? (wellFormed : t.WellFormed s) (inRange : p.group < t.groups.size)
    (stored : t.entryAt? p = some entry) : t.groups[p.group].slotOf entry.1 ≤ p.slot := by
  obtain ⟨inRange', told⟩ := entryAt?_eq_some_iff.mp stored
  have before := wellFormed.slot_lt_fill told
  obtain ⟨inList, same⟩ := List.getElem?_eq_some_iff.mp told
  have key_eq := Group.fst_getElem_toList (wellFormed.written_getElem inRange) before
  rw [same] at key_eq
  exact Group.slotOf_le_of_key_eq key_eq.symm

/-- No position before a match has an entry of the key. -/
theorem key_ne_of_lt_match (wellFormed : t.WellFormed s)
    (found : t.firstMatch? key hash = some (cost, p)) {n : Nat} (before : n + 1 < cost)
    (stored : t.entryAt? (comparison (t.candidates hash).first (t.candidates hash).second n) =
      some entry) : entry.1 ≠ key := by
  rintro rfl
  rw [firstMatch?, wellFormed.candidateGroups_eq] at found
  have match_cases := sideBySide_cases found
  by_cases even : n % 2 = 0
  · rw [comparison, if_pos even] at stored
    have le := wellFormed.slotOf_le_of_entryAt? (wellFormed.first_lt hash) stored
    dsimp only at le
    omega
  · rw [comparison, if_neg even] at stored
    have le := wellFormed.slotOf_le_of_entryAt? (wellFormed.second_lt hash) stored
    dsimp only at le
    omega

/-- The slot of a match and the candidate that it is in fix the cost. A match that both candidates
have is in the first. -/
theorem cost_of_match (wellFormed : t.WellFormed s)
    (found : t.firstMatch? key hash = some (cost, p)) :
    cost = if p.group = (t.candidates hash).first then 2 * p.slot + 1 else 2 * p.slot + 2 := by
  rw [firstMatch?, wellFormed.candidateGroups_eq] at found
  rcases sideBySide_cases found with ⟨-, -, rfl, rfl⟩ | ⟨-, less, rfl, rfl⟩
  · exact (if_pos rfl).symm
  · have apart : (t.candidates hash).second ≠ (t.candidates hash).first := by
      intro same
      simp only [same, Nat.lt_irrefl] at less
    exact (if_neg apart).symm

theorem costAt_of_match (wellFormed : t.WellFormed s)
    (found : t.firstMatch? key hash = some (cost, p)) : (t.candidates hash).costAt p = cost :=
  (wellFormed.cost_of_match found).symm

/-- An entry lies in a candidate of its key. -/
theorem candidate_of_entryAt? (wellFormed : t.WellFormed s) {value : V}
    (stored : t.entryAt? p = some (key, value)) :
    p.group = (t.candidates (s.hash key)).first ∨ p.group = (t.candidates (s.hash key)).second := by
  obtain ⟨inRange, told⟩ := entryAt?_eq_some_iff.mp stored
  exact wellFormed.placed _ inRange _ (List.mem_of_getElem? told)

/-- No entry of the key in a candidate costs less than the match. -/
theorem le_costAt_of_entryAt? (wellFormed : t.WellFormed s)
    (found : t.firstMatch? key hash = some (cost, p)) {q : Position} {value : V}
    (named : q.group = (t.candidates hash).first ∨ q.group = (t.candidates hash).second)
    (stored : t.entryAt? q = some (key, value)) : cost ≤ (t.candidates hash).costAt q := by
  obtain ⟨n, cost_eq, comparison_eq⟩ := Candidates.comparison_costAt named
  by_contra more
  rw [← comparison_eq] at stored
  exact wellFormed.key_ne_of_lt_match found (by omega) stored rfl

/-- An entry of the key in a candidate is the match if no other such entry costs less. -/
theorem firstMatch?_eq_of_least (wellFormed : t.WellFormed s) (live : key ≠ Key.vacant) {value : V}
    (named : p.group = (t.candidates hash).first ∨ p.group = (t.candidates hash).second)
    (stored : t.entryAt? p = some (key, value))
    (least : ∀ q value', t.entryAt? q = some (key, value') →
      (t.candidates hash).costAt p ≤ (t.candidates hash).costAt q) :
    t.firstMatch? key hash = some ((t.candidates hash).costAt p, p) := by
  obtain ⟨inRange, told⟩ := entryAt?_eq_some_iff.mp stored
  obtain ⟨cost, q, found⟩ := wellFormed.exists_match live
    ⟨p.group, inRange, value, named, List.mem_of_getElem? told⟩
  obtain ⟨named', value', stored'⟩ := wellFormed.entryAt?_of_match live found
  have cost_eq := wellFormed.costAt_of_match found
  have le := wellFormed.le_costAt_of_entryAt? found named stored
  have ge := least q value' stored'
  obtain rfl : p = q := Candidates.eq_of_costAt_eq named named' (by omega)
  rw [found, cost_eq]

/-- The first match of a scan is at the first entry of the key. -/
theorem firstOccurrence?_eq (wellFormed : t.WellFormed s) (live : key ≠ Key.vacant)
    (hash : UInt64) : t.firstOccurrence? key hash = (t.firstMatch? key hash).map Prod.snd := by
  cases found : t.firstMatch? key hash with
  | none =>
    have notHeld := (wellFormed.firstMatch?_eq_none_iff live hash).mp found
    rw [firstOccurrence?, Option.map_none, List.find?_eq_none]
    intro p mem held
    obtain ⟨entry, stored, rfl⟩ := Option.map_eq_some_iff.mp (of_decide_eq_true held)
    obtain ⟨inRange, told⟩ := entryAt?_eq_some_iff.mp stored
    exact notHeld ⟨p.group, inRange, entry.2, (Candidates.mem_positions_iff.mp mem).2,
      List.mem_of_getElem? told⟩
  | some hit =>
    obtain ⟨cost, p⟩ := hit
    obtain ⟨-, value, stored⟩ := wellFormed.entryAt?_of_match live found
    have cost_le := wellFormed.cost_le found
    obtain ⟨positive, last_eq⟩ : 0 < cost ∧ comparison (t.candidates hash).first
        (t.candidates hash).second (cost - 1) = p := by
      rw [firstMatch?, wellFormed.candidateGroups_eq] at found
      exact comparison_of_match found
    rw [firstOccurrence?, Option.map_some, List.find?_eq_some_iff_getElem]
    refine ⟨by simp [stored], cost - 1, ?_, ?_, ?_⟩
    · rw [Candidates.length_positions]
      omega
    · rw [Candidates.getElem_positions, last_eq]
    · intro n before
      rw [Candidates.getElem_positions, Bool.not_eq_true', decide_eq_false_iff_not]
      intro held
      obtain ⟨entry, stored', same⟩ := Option.map_eq_some_iff.mp held
      exact wellFormed.key_ne_of_lt_match found (by omega) stored' same

/-- There is a first entry of the key exactly if one of the candidates holds the key. -/
theorem isSome_firstOccurrence?_iff (wellFormed : t.WellFormed s) (live : key ≠ Key.vacant)
    (hash : UInt64) : (t.firstOccurrence? key hash).isSome ↔ t.Holds key hash := by
  rw [wellFormed.firstOccurrence?_eq live, Option.isSome_map, ← Option.ne_none_iff_isSome, ne_eq,
    wellFormed.firstMatch?_eq_none_iff live, not_not]

/-- A lookup costs what the first match does, and finds the entry there. -/
theorem looksUp_of_match (wellFormed : t.WellFormed s) (live : key ≠ Key.vacant)
    (found : t.firstMatch? key hash = some (cost, p)) :
    LooksUp s t key hash cost (some p) := by
  refine wellFormed.looksUp_of_locate ?_ fun counter => ?_
  · rintro q ⟨⟩
    exact (wellFormed.entryAt?_of_match live found).2
  · rw [wellFormed.locate_eq live, found]

/-- Without a match a lookup compares the key at every offset at which one of the candidates has an
entry. -/
theorem looksUp_of_no_match (wellFormed : t.WellFormed s) (live : key ≠ Key.vacant)
    (missed : t.firstMatch? key hash = none) :
    LooksUp s t key hash (2 * max (t.fillAt (t.candidates hash).first)
      (t.fillAt (t.candidates hash).second)) none := by
  refine wellFormed.looksUp_of_locate (by simp) fun counter => ?_
  rw [wellFormed.locate_eq live, missed]

/-- The vacant key is not looked for. -/
theorem looksUp_vacant (wellFormed : t.WellFormed s) (hash : UInt64) :
    LooksUp s t Key.vacant hash 0 none := by
  refine wellFormed.looksUp_of_locate (by simp) fun counter => ?_
  rw [Table.locate, if_pos rfl, Counted.charge_zero]

/-- A lookup of a key finds the first entry of the key in the order of the lookup, at a cost that
its slot and its candidate fix. It finds none exactly if no candidate holds the key, and then the
cost is fixed by the greater fill. The vacant key is not looked for. -/
theorem lookup_exact (wellFormed : t.WellFormed s) (hash : UInt64) :
    (∀ key, key ≠ Key.vacant → ∃ cost, cost ≤ 2 * slots ∧
        LooksUp s t key hash cost (t.firstOccurrence? key hash) ∧
        ((t.firstOccurrence? key hash).isSome ↔ t.Holds key hash) ∧
        (∀ p, t.firstOccurrence? key hash = some p →
          cost = if p.group = (t.candidates hash).first then 2 * p.slot + 1
            else 2 * p.slot + 2) ∧
        (t.firstOccurrence? key hash = none →
          cost = 2 * max (t.fillAt (t.candidates hash).first)
            (t.fillAt (t.candidates hash).second))) ∧
      LooksUp s t Key.vacant hash 0 none := by
  refine ⟨fun key live => ?_, wellFormed.looksUp_vacant hash⟩
  have held_iff := wellFormed.isSome_firstOccurrence?_iff live hash
  rw [wellFormed.firstOccurrence?_eq live hash] at held_iff ⊢
  cases found : t.firstMatch? key hash with
  | none =>
    have first_le := t.fillAt_le (t.candidates hash).first
    have second_le := t.fillAt_le (t.candidates hash).second
    rw [found] at held_iff
    refine ⟨_, ?_, wellFormed.looksUp_of_no_match live found, held_iff, ?_, fun _ => rfl⟩
    · omega
    · rintro q ⟨⟩
  | some hit =>
    obtain ⟨cost, p⟩ := hit
    rw [found] at held_iff
    refine ⟨cost, wellFormed.cost_le found, wellFormed.looksUp_of_match live found, held_iff, ?_,
      ?_⟩
    · rintro q ⟨⟩
      exact wellFormed.cost_of_match found
    · rintro ⟨⟩

end WellFormed

/-- The fourth key lies behind a slot that has become vacant in the other candidate, and is found
after four comparisons. With a hash that names the other candidate twice it is missed after two. -/
theorem lookup_exact_shaken :
    shaken.WellFormed colliding ∧
      LooksUp colliding shaken ⟨4⟩ 0x500000002 4 (some ⟨5, 1⟩) ∧
      LooksUp colliding shaken ⟨4⟩ 0x200000002 2 none ∧
      (shaken.find colliding ⟨4⟩ 7).result = .ok 40 ∧
      (shaken.find colliding ⟨4⟩ 0xFFFFFFFFFFFFFFFC).result.mapError Fault.message =
        .error "attempt to add with overflow" := by
  have made : (withGroups colliding 8 : Except Fault (Table ZeroVacant UInt64 2)) =
      .ok (empty 8) := withGroups_eq_of_le (by decide) (by decide)
  have reachable : Reachable colliding shaken :=
    Reachable.run Accumulation.listing (Reachable.made made) (by simp [Operation.Legal])
  have found : shaken.firstOccurrence? ⟨4⟩ 0x500000002 = some ⟨5, 1⟩ := by decide +kernel
  have missed : shaken.firstOccurrence? ⟨4⟩ 0x200000002 = none := by decide +kernel
  have value_eq : shaken.valueOf? (some ⟨5, 1⟩) = some 40 := by decide +kernel
  have second_eq : (5 : Nat) ≠ (shaken.candidates 0x500000002).first := by decide +kernel
  have fills : 2 * max (shaken.fillAt (shaken.candidates 0x200000002).first)
      (shaken.fillAt (shaken.candidates 0x200000002).second) = 2 := by decide +kernel
  obtain ⟨cost, -, hit, -, cost_eq, -⟩ :=
    (reachable.wellFormed.lookup_exact 0x500000002).1 ⟨4⟩ (by decide)
  obtain ⟨cost', -, miss, -, -, cost_eq'⟩ :=
    (reachable.wellFormed.lookup_exact 0x200000002).1 ⟨4⟩ (by decide)
  have four := cost_eq _ found
  rw [if_neg second_eq] at four
  rw [four, found] at hit
  rw [(cost_eq' missed).trans fills, missed] at miss
  have find := hit.find rfl
  rw [value_eq] at find
  exact ⟨reachable.wellFormed, hit, miss, (find.counted 7 (by decide)).1,
    (find.overflowed 0xFFFFFFFFFFFFFFFC (by decide)).1⟩

end Table

end TwoChoice
