import Mathlib.Data.Nat.Bitwise
import TwoChoice.Proofs.Allocation
import TwoChoice.Proofs.Indexed
import TwoChoice.Proofs.Mixing

/-!
# Lookups with a foreign hash

A lookup that is given a hash compares keys, not hashes. It uses the hash to name two groups and
keeps nothing of it but what the mask leaves. So a hash that is not the key's own, a foreign hash,
misses the key exactly if neither of the groups that it names holds the key. It does so for a key
that is not stored, and it does so if it names none of the key's own candidates. It need not do so
otherwise. The first candidate does not depend on the highest bit of the hash, nor the second on the
lowest, so every stored key is found with some foreign hash.

## Main Definitions

* `Candidates.Disjoint` — two hashes name no group in common
* `Table.Tells` — what both lookups with a hash come to
* `Table.ForeignHashes` — with which hashes a key is missed, and with which it is found

## Main Statements

* `Candidates.first_ofHash_xor`, `Candidates.second_ofHash_xor` — changes to a hash that a candidate
  does not depend on
* `Table.Reachable.foreign_hashes` — a foreign hash misses exactly the keys that its groups do not
  hold, and some foreign hash finds each stored key
* `Table.foreign_hash_not_missed` — a foreign hash that does not miss
-/

namespace TwoChoice

universe u v

/-! ### What the mask removes -/

namespace Candidates

/-- Two pairs of candidates have no group in common. -/
structure Disjoint (c c' : Candidates) : Prop where
  /-- Neither candidate is the first one of the other pair. -/
  first_ne : c.first ≠ c'.first ∧ c.second ≠ c'.first
  /-- Nor is it the second. -/
  second_ne : c.first ≠ c'.second ∧ c.second ≠ c'.second

instance (c c' : Candidates) : Decidable (c.Disjoint c') :=
  decidable_of_iff ((c.first ≠ c'.first ∧ c.second ≠ c'.first) ∧
    c.first ≠ c'.second ∧ c.second ≠ c'.second)
    ⟨fun ⟨first, second⟩ => ⟨first, second⟩, fun apart => ⟨apart.1, apart.2⟩⟩

variable {mask bits : UInt64}

/-- The first candidate does not depend on bits that the mask removes. -/
theorem first_ofHash_xor (removed : bits &&& mask = 0) (hash : UInt64) :
    (ofHash mask (hash ^^^ bits)).first = (ofHash mask hash).first := by
  have difference_eq : hash ^^^ bits ^^^ hash = bits := by
    rw [UInt64.xor_comm hash bits, UInt64.xor_assoc, UInt64.xor_self, UInt64.xor_zero]
  refine congrArg UInt64.toNat ((Word.and_eq_and_iff _ _ mask).mpr ?_)
  rw [difference_eq, removed]

/-- The second does not depend on bits that the mask removes from the upper half. -/
theorem second_ofHash_xor (removed : (bits >>> 32) &&& mask = 0) (hash : UInt64) :
    (ofHash mask (hash ^^^ bits)).second = (ofHash mask hash).second := by
  have shifted : (ofHash mask (hash ^^^ bits)).second =
      (ofHash mask (hash >>> 32 ^^^ bits >>> 32)).first := by
    rw [ofHash, ofHash, UInt64.shiftRight_xor]
  rw [shifted, first_ofHash_xor removed]
  rfl

end Candidates

/-- The highest bit of a word is removed by a mask of less than half the words. -/
theorem Word.highest_and_eq_zero {mask : UInt64} (narrow : mask.toNat < 2 ^ 63) :
    0x8000000000000000 &&& mask = 0 := by
  apply UInt64.toNat_inj.mp
  rw [UInt64.toNat_and]
  show 2 ^ 63 &&& mask.toNat = 0
  rw [Nat.and_comm, Nat.and_two_pow, Nat.testBit_lt_two_pow narrow]
  rfl

/-- A usable number of groups needs a mask that removes the highest bit. -/
theorem Capacity.Usable.le_half {capacity : Nat} (usable : Usable capacity) :
    capacity ≤ 2 ^ 63 := by
  obtain ⟨k, rfl⟩ := usable.isPowerOfTwo
  have below : k < 64 := (Nat.pow_lt_pow_iff_right (a := 2) (by decide)).mp usable.lt_limit
  exact Nat.pow_le_pow_right (by decide) (by omega)

namespace Table

variable {K : Type u} {V : Type v} {slots : Nat} [Key K] [DecidableEq K]
variable {s : Scheme K} {t : Table K V slots} {key : K} {value : V} {hash hash' : UInt64}

open Counted (CountedAs)

/-! ### What lookups with a hash tell -/

/-- Lookups of a key with a hash tell a value, or none, and the one that refuses to miss fails in
the latter case. -/
def Tells (t : Table K V slots) (key : K) (hash : UInt64) (value? : Option V) : Prop :=
  ∃ cost, cost ≤ 2 * slots ∧ CountedAs cost (.ok value?) (t.getIndexed key hash) ∧
    CountedAs cost (value?.elim (.error .missingKey) .ok) (t.findIndexed key hash)

/-- With every hash lookups tell what the first entry of the key in its groups says. -/
theorem WellFormed.tells (wellFormed : t.WellFormed s) (key : K) (hash : UInt64) :
    t.Tells key hash (t.valueOf? (t.firstOccurrence? key hash)) :=
  have lookup := wellFormed.looksUp key hash
  ⟨_, wellFormed.scanCost_le key hash, lookup.getIndexed, lookup.findIndexed⟩

/-- A hash misses a key that its groups do not hold. -/
theorem WellFormed.tells_none (wellFormed : t.WellFormed s) (notHeld : ¬t.Holds key hash) :
    t.Tells key hash none := by
  have told := wellFormed.tells key hash
  have missed := mt (wellFormed.isSome_valueOf?_iff key hash).mp notHeld
  rwa [Option.not_isSome_iff_eq_none.mp missed] at told

/-- A hash finds an entry of a key that one of its groups holds. -/
theorem WellFormed.tells_some (wellFormed : t.WellFormed s) (held : t.Holds key hash) :
    ∃ value, (key, value) ∈ t.toList ∧ t.Tells key hash (some value) := by
  have told := wellFormed.tells key hash
  obtain ⟨value, found⟩ :=
    Option.isSome_iff_exists.mp ((wellFormed.isSome_valueOf?_iff key hash).mpr held)
  rw [found] at told
  exact ⟨value, mem_toList_of_valueOf? found, told⟩

/-! ### Groups that do not hold the key -/

/-- No group holds a key that is not stored. -/
theorem not_holds_of_notStored (notStored : ∀ value, (key, value) ∉ t.toList) (hash : UInt64) :
    ¬t.Holds key hash := by
  rintro ⟨i, inRange, value, -, mem⟩
  exact notStored value (mem_toList_of_mem_group inRange mem)

/-- No group but the candidates of a key holds it. -/
theorem WellFormed.not_holds_of_disjoint (wellFormed : t.WellFormed s)
    (apart : (t.candidates hash).Disjoint (t.candidates (s.hash key))) : ¬t.Holds key hash := by
  rintro ⟨i, inRange, value, named, mem⟩
  rcases named with rfl | rfl
  · rcases wellFormed.placed _ inRange _ mem with same | same
    · exact apart.first_ne.1 same
    · exact apart.second_ne.1 same
  · rcases wellFormed.placed _ inRange _ mem with same | same
    · exact apart.first_ne.2 same
    · exact apart.second_ne.2 same

/-! ### Hashes with the same candidates -/

omit [Key K] [DecidableEq K] in
theorem candidateGroups_congr (same : t.candidates hash = t.candidates hash') :
    t.candidateGroups hash = t.candidateGroups hash' := by
  simp only [candidateGroups, same]

/-- A scan knows a hash by its candidates only. -/
theorem locate_congr (same : t.candidates hash = t.candidates hash') (key : K) (counter : UInt64) :
    t.locate key hash counter = t.locate key hash' counter := by
  simp only [locate, candidateGroups_congr same, same]

/-- A hash with the candidates of the key is as good as the key's own. -/
theorem WellFormed.goodHash_of_candidates_eq (wellFormed : t.WellFormed s)
    (same : t.candidates hash = t.candidates (s.hash key)) : GoodHash s t key hash where
  get_eq counter := by
    rw [get, getIndexed, getIndexed, locate_congr same]
  find_eq counter := by
    rw [find, findIndexed, findIndexed, locate_congr same]
  lookup := by
    have found_iff := wellFormed.isSome_firstOccurrence?_hash_iff key
    have first_eq : t.firstOccurrence? key hash = t.firstOccurrence? key (s.hash key) := by
      rw [firstOccurrence?, firstOccurrence?, same]
    rw [← first_eq] at found_iff
    exact ⟨_, _, wellFormed.scanCost_le key hash, wellFormed.looksUp key hash, found_iff⟩

/-! ### Foreign hashes that find a key -/

/-- A hash that differs from the key's own in some bit. -/
theorem xor_hash_ne {bits : UInt64} (some_bit : bits ≠ 0) (hash : UInt64) :
    hash ^^^ bits ≠ hash := by
  intro same
  refine some_bit (UInt64.xor_right_inj hash |>.mp ?_)
  rw [same, UInt64.xor_zero]

/-- With the highest bit changed a hash names the same first candidate, and with the lowest bit
changed the same second one. So whichever of the two holds a key, a foreign hash names it. -/
theorem Reachable.exists_foreign_holds (reachable : Reachable s t)
    (stored : (key, value) ∈ t.toList) : ∃ hash, hash ≠ s.hash key ∧ t.Holds key hash := by
  have wellFormed := reachable.wellFormed
  have narrow : t.mask.toNat < 2 ^ 63 := by
    have mask_succ := wellFormed.mask_succ
    have half := reachable.usable.le_half
    omega
  obtain ⟨i, inRange, mem⟩ := exists_group_of_mem_toList stored
  rcases wellFormed.placed i inRange _ mem with isFirst | isSecond
  · have first_eq := Candidates.first_ofHash_xor (Word.highest_and_eq_zero narrow) (s.hash key)
    exact ⟨_, xor_hash_ne (by decide) _, i, inRange, value, Or.inl (isFirst.trans first_eq.symm),
      mem⟩
  · have removed : ((1 : UInt64) >>> 32) &&& t.mask = 0 := UInt64.zero_and
    have second_eq := Candidates.second_ofHash_xor removed (s.hash key)
    exact ⟨_, xor_hash_ne (by decide) _, i, inRange, value, Or.inr (isSecond.trans second_eq.symm),
      mem⟩

/-- With which hashes a key is missed, and with which it is found. -/
structure ForeignHashes (s : Scheme K) (t : Table K V slots) (key : K) : Prop where
  /-- A hash misses the key exactly if none of its groups holds the key. Otherwise it finds an entry
  of the key. -/
  told : ∀ hash, (¬t.Holds key hash ∧ t.Tells key hash none) ∨
    t.Holds key hash ∧ ∃ value, (key, value) ∈ t.toList ∧ t.Tells key hash (some value)
  /-- Every hash misses a key that is not stored. -/
  missed : (∀ value, (key, value) ∉ t.toList) → ∀ hash, t.Tells key hash none
  /-- So does a hash that names none of the key's own candidates, whether it is stored or not. -/
  missed_apart : ∀ hash, (t.candidates hash).Disjoint (t.candidates (s.hash key)) →
    t.Tells key hash none
  /-- A hash that differs from the key's own in bits that the mask removes is as good as that. -/
  unnoticed : ∀ hash, (hash ^^^ s.hash key) &&& t.mask = 0 →
    ((hash ^^^ s.hash key) >>> 32) &&& t.mask = 0 → GoodHash s t key hash
  /-- A key that is stored is found with some hash that is not its own. -/
  found : (∃ value, (key, value) ∈ t.toList) → ∃ hash, hash ≠ s.hash key ∧
    ∃ value, (key, value) ∈ t.toList ∧ t.Tells key hash (some value)

/-- A foreign hash misses a key exactly if the groups that it names do not hold the key. There is
one that finds each stored key, since a mask does not keep all bits of both halves. -/
theorem Reachable.foreign_hashes (reachable : Reachable s t) (key : K) :
    ForeignHashes s t key := by
  have wellFormed := reachable.wellFormed
  constructor
  case told =>
    intro hash
    by_cases held : t.Holds key hash
    · exact Or.inr ⟨held, wellFormed.tells_some held⟩
    · exact Or.inl ⟨held, wellFormed.tells_none held⟩
  case missed =>
    intro notStored hash
    exact wellFormed.tells_none (not_holds_of_notStored notStored hash)
  case missed_apart =>
    intro hash apart
    exact wellFormed.tells_none (wellFormed.not_holds_of_disjoint apart)
  case unnoticed =>
    intro hash lower upper
    have same := (Candidates.ofHash_eq_iff t.mask hash (s.hash key)).mpr ⟨lower, upper⟩
    exact wellFormed.goodHash_of_candidates_eq same
  case found =>
    rintro ⟨value, stored⟩
    obtain ⟨hash, foreign, held⟩ := reachable.exists_foreign_holds stored
    exact ⟨hash, foreign, wellFormed.tells_some held⟩

/-- A table with one entry. -/
def single : Table ZeroVacant UInt64 4 :=
  (Operation.run Scheme.ofWords Accumulation.listing [.insert ⟨5⟩ 50] ⟨empty 8, 0⟩).2.table

theorem reachable_single : Reachable Scheme.ofWords single :=
  Reachable.run_empty Accumulation.listing (by decide) (by simp [Operation.Legal]) 0

/-- The hash of the key in the one entry, with its highest bit changed. -/
def changedHash : UInt64 := 18059001895955609914

/-- The changed hash is foreign, and as good as the key's own. One that names neither candidate
misses the key. -/
theorem foreign_hashes_single :
    Reachable Scheme.ofWords single ∧ ForeignHashes Scheme.ofWords single ⟨5⟩ ∧
      changedHash ≠ Scheme.ofWords.hash ⟨5⟩ ∧
      GoodHash Scheme.ofWords single ⟨5⟩ changedHash ∧ single.Tells ⟨5⟩ 0 none := by
  have foreign := reachable_single.foreign_hashes ⟨5⟩
  exact ⟨reachable_single, foreign, by decide,
    foreign.unnoticed changedHash (by decide +kernel) (by decide +kernel),
    foreign.missed_apart 0 (by decide +kernel)⟩

/-- It is not so that every foreign hash misses: with the changed hash both lookups of the stored
key return its value. -/
theorem foreign_hash_not_missed :
    Reachable Scheme.ofWords single ∧ changedHash ≠ Scheme.ofWords.hash ⟨5⟩ ∧
      (single.getIndexed ⟨5⟩ changedHash 0).result = .ok (some 50) ∧
      (single.findIndexed ⟨5⟩ changedHash 0).result = .ok 50 ∧
      ¬∀ (t : Table ZeroVacant UInt64 4) (key : ZeroVacant) (hash : UInt64),
        Reachable Scheme.ofWords t → hash ≠ Scheme.ofWords.hash key →
          t.Tells key hash none := by
  have got : (single.getIndexed ⟨5⟩ changedHash 0).result = .ok (some 50) := by decide +kernel
  have found : (single.findIndexed ⟨5⟩ changedHash 0).result = .ok 50 := by decide +kernel
  have different : changedHash ≠ Scheme.ofWords.hash ⟨5⟩ := by decide
  refine ⟨reachable_single, different, got, found, fun always => ?_⟩
  obtain ⟨cost, -, lookup, -⟩ := always single ⟨5⟩ changedHash reachable_single different
  cases lookup.result_eq got

end Table

end TwoChoice
