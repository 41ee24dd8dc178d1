import Mathlib.Data.List.Nodup
import TwoChoice.Proofs.ProbeOrder
import TwoChoice.Proofs.Withdrawal

/-!
# What a lookup answers, and why

What a lookup finds and what it costs are fixed by the first slot of the key in each candidate,
and by the fills if there is none. So two tables are compared, lookup by lookup, through these
numbers alone. What a lookup answers is always the value of an entry of the key. In a table that
stores no key twice there is at most one such entry, and lookups with any two hashes that both find
the key agree.

## Main Definitions

* `Table.slotAt` — the first slot of a key in the group at an index
* `Table.scanCost` — the number of comparisons that a lookup makes
* `Table.DistinctKeys` — no key is stored twice
* `Table.answer?` — the value that a lookup by key finds
* `Table.Answers` — what a lookup by key answers

## Main Statements

* `Table.WellFormed.looksUp` — every lookup, by its cost and by what it finds
* `Table.slotAt_cases` — the three ways in which a lookup ends, and
  `Table.WellFormed.scanCost_of_first`, `Table.WellFormed.scanCost_of_second`,
  `Table.WellFormed.scanCost_of_none` — what it costs in each of them
* `Table.DistinctKeys.valueOf?_eq` — what is stored under a key that is not stored twice fixes the
  answer
-/

namespace TwoChoice.Table

universe u v

variable {K : Type u} {V : Type v} {slots : Nat} [Key K] [DecidableEq K]
variable {s : Scheme K} {t t' : Table K V slots} {key : K} {hash : UInt64} {p : Position}
variable {value value' : V} {i j : Nat}

/-! ### What is found -/

/-- What is found is an entry of the key in one of the candidates. -/
theorem entryAt?_of_firstOccurrence? (found : t.firstOccurrence? key hash = some p) :
    (p.group = (t.candidates hash).first ∨ p.group = (t.candidates hash).second) ∧
      ∃ value, t.entryAt? p = some (key, value) := by
  have held := List.find?_some found
  obtain ⟨⟨key', value⟩, stored, same⟩ := Option.map_eq_some_iff.mp (of_decide_eq_true held)
  obtain rfl : key' = key := same
  exact ⟨(Candidates.mem_positions_iff.mp (List.mem_of_find?_eq_some found)).2, value, stored⟩

/-- The vacant key is never found. -/
theorem firstOccurrence?_vacant (t : Table K V slots) (hash : UInt64) :
    t.firstOccurrence? Key.vacant hash = none := by
  cases found : t.firstOccurrence? Key.vacant hash with
  | none => rfl
  | some p =>
    obtain ⟨-, value, stored⟩ := entryAt?_of_firstOccurrence? found
    exact absurd rfl (key_ne_vacant_of_mem_toList (mem_toList_of_entryAt? stored))

/-- A lookup answers with the value at the position that it finds. -/
theorem valueOf?_eq_some_iff :
    t.valueOf? (t.firstOccurrence? key hash) = some value ↔
      ∃ p, t.firstOccurrence? key hash = some p ∧ t.entryAt? p = some (key, value) := by
  rw [valueOf?, Option.bind_eq_some_iff]
  refine exists_congr fun p => and_congr_right fun found => ?_
  obtain ⟨-, value', stored⟩ := entryAt?_of_firstOccurrence? found
  rw [stored, Option.map_some]
  simp

/-- So the answer is the value of an entry of the key. -/
theorem mem_toList_of_valueOf? (answered : t.valueOf? (t.firstOccurrence? key hash) = some value) :
    (key, value) ∈ t.toList := by
  obtain ⟨p, -, stored⟩ := valueOf?_eq_some_iff.mp answered
  exact mem_toList_of_entryAt? stored

/-- There is an answer exactly if something is found. -/
theorem isSome_valueOf? (t : Table K V slots) (key : K) (hash : UInt64) :
    (t.valueOf? (t.firstOccurrence? key hash)).isSome =
      (t.firstOccurrence? key hash).isSome := by
  cases found : t.firstOccurrence? key hash with
  | none => rfl
  | some p =>
    obtain ⟨-, value, stored⟩ := entryAt?_of_firstOccurrence? found
    rw [valueOf?, Option.bind_some, stored]
    rfl

/-- With its own hash a key is found exactly if it is stored. -/
theorem WellFormed.isSome_firstOccurrence?_hash_iff (wellFormed : t.WellFormed s) (key : K) :
    (t.firstOccurrence? key (s.hash key)).isSome ↔ ∃ value, (key, value) ∈ t.toList := by
  by_cases vacant : key = Key.vacant
  · subst vacant
    rw [firstOccurrence?_vacant]
    exact iff_of_false Bool.false_ne_true fun ⟨_, mem⟩ => key_ne_vacant_of_mem_toList mem rfl
  · rw [wellFormed.isSome_firstOccurrence?_iff vacant, wellFormed.holds_hash_iff]

/-! ### First slots -/

/-- The first slot of a key in the group at an index, or the number of slots if it is in none. -/
def slotAt (t : Table K V slots) (i : Nat) (key : K) : Nat :=
  t.groups[i]?.elim slots fun g => g.slotOf key

omit [Key K] in
theorem slotAt_eq (inRange : i < t.groups.size) (key : K) :
    t.slotAt i key = t.groups[i].slotOf key := by
  rw [slotAt, Array.getElem?_eq_getElem inRange]
  rfl

omit [Key K] in
theorem slotAt_le (t : Table K V slots) (i : Nat) (key : K) : t.slotAt i key ≤ slots := by
  unfold slotAt
  cases t.groups[i]? with
  | none => exact Nat.le_refl slots
  | some g => exact g.slotOf_le key

omit [Key K] in
/-- A key is in the first candidate of a hash and does not come before it in the second, or it comes
before it there, or it is in neither. -/
theorem slotAt_cases (t : Table K V slots) (key : K) (hash : UInt64) :
    (t.slotAt (t.candidates hash).first key < slots ∧
        t.slotAt (t.candidates hash).first key ≤ t.slotAt (t.candidates hash).second key) ∨
      (t.slotAt (t.candidates hash).second key < slots ∧
        t.slotAt (t.candidates hash).second key < t.slotAt (t.candidates hash).first key) ∨
      t.slotAt (t.candidates hash).first key = slots ∧
        t.slotAt (t.candidates hash).second key = slots := by
  have first_le := t.slotAt_le (t.candidates hash).first key
  have second_le := t.slotAt_le (t.candidates hash).second key
  omega

omit [Key K] in
/-- An edit changes the first slots in its group only. -/
theorem slotAt_edit (inRange : i < t.groups.size) (g' : Group K V slots) (n j : Nat) (key : K) :
    (t.edit ⟨i, g'⟩ n).slotAt j key = if j = i then g'.slotOf key else t.slotAt j key := by
  unfold slotAt
  rw [groups_edit, Array.getElem?_setIfInBounds]
  by_cases same : j = i
  · rw [if_pos same.symm, if_pos (same ▸ inRange), if_pos same]
    rfl
  · rw [if_neg (Ne.symm same), if_neg same]

/-- The number of comparisons that a lookup of a key in the candidates of a hash makes. -/
def scanCost (t : Table K V slots) (key : K) (hash : UInt64) : Nat :=
  if key = Key.vacant then 0
  else (t.firstMatch? key hash).elim
    (2 * max (t.fillAt (t.candidates hash).first) (t.fillAt (t.candidates hash).second)) Prod.fst

namespace WellFormed

/-- What a lookup finds, in terms of the first slots of the key. -/
theorem firstMatch?_eq (wellFormed : t.WellFormed s) (key : K) (hash : UInt64) :
    t.firstMatch? key hash =
      if t.slotAt (t.candidates hash).first key < slots ∧
          t.slotAt (t.candidates hash).first key ≤ t.slotAt (t.candidates hash).second key then
        some (2 * t.slotAt (t.candidates hash).first key + 1,
          ⟨(t.candidates hash).first, t.slotAt (t.candidates hash).first key⟩)
      else if t.slotAt (t.candidates hash).second key < slots then
        some (2 * t.slotAt (t.candidates hash).second key + 2,
          ⟨(t.candidates hash).second, t.slotAt (t.candidates hash).second key⟩)
      else none := by
  rw [firstMatch?, wellFormed.candidateGroups_eq, slotAt_eq (wellFormed.first_lt hash),
    slotAt_eq (wellFormed.second_lt hash)]
  rfl

/-- Something is found exactly if the key has a first slot in one of the candidates. -/
theorem isSome_firstOccurrence?_iff_slotAt (wellFormed : t.WellFormed s) (live : key ≠ Key.vacant)
    (hash : UInt64) :
    (t.firstOccurrence? key hash).isSome ↔
      t.slotAt (t.candidates hash).first key < slots ∨
        t.slotAt (t.candidates hash).second key < slots := by
  rw [wellFormed.firstOccurrence?_eq live, Option.isSome_map, wellFormed.firstMatch?_eq]
  split
  · simp only [Option.isSome_some, true_iff]
    omega
  · split
    · simp only [Option.isSome_some, true_iff]
      omega
    · simp only [Option.isSome_none, Bool.false_eq_true, false_iff]
      omega

/-- A match in the first candidate, if the key does not come before it in the second. -/
theorem scanCost_of_first (wellFormed : t.WellFormed s) (live : key ≠ Key.vacant) (hash : UInt64)
    (found : t.slotAt (t.candidates hash).first key < slots)
    (le : t.slotAt (t.candidates hash).first key ≤ t.slotAt (t.candidates hash).second key) :
    t.scanCost key hash = 2 * t.slotAt (t.candidates hash).first key + 1 := by
  rw [scanCost, if_neg live, wellFormed.firstMatch?_eq, if_pos ⟨found, le⟩]
  rfl

/-- A match in the second candidate, if the key comes before it in the second. -/
theorem scanCost_of_second (wellFormed : t.WellFormed s) (live : key ≠ Key.vacant) (hash : UInt64)
    (found : t.slotAt (t.candidates hash).second key < slots)
    (less : t.slotAt (t.candidates hash).second key < t.slotAt (t.candidates hash).first key) :
    t.scanCost key hash = 2 * t.slotAt (t.candidates hash).second key + 2 := by
  rw [scanCost, if_neg live, wellFormed.firstMatch?_eq, if_neg (by omega), if_pos found]
  rfl

/-- A miss goes on to the greater fill. -/
theorem scanCost_of_none (wellFormed : t.WellFormed s) (live : key ≠ Key.vacant) (hash : UInt64)
    (first_eq : t.slotAt (t.candidates hash).first key = slots)
    (second_eq : t.slotAt (t.candidates hash).second key = slots) :
    t.scanCost key hash =
      2 * max (t.fillAt (t.candidates hash).first) (t.fillAt (t.candidates hash).second) := by
  rw [scanCost, if_neg live, wellFormed.firstMatch?_eq, if_neg (by omega), if_neg (by omega)]
  rfl

/-- A lookup does not go beyond the key in the first candidate. -/
theorem scanCost_le_first (wellFormed : t.WellFormed s) (live : key ≠ Key.vacant) (hash : UInt64)
    (found : t.slotAt (t.candidates hash).first key < slots) :
    t.scanCost key hash ≤ 2 * t.slotAt (t.candidates hash).first key + 1 := by
  rcases Nat.lt_or_ge (t.slotAt (t.candidates hash).second key)
    (t.slotAt (t.candidates hash).first key) with less | le
  · rw [wellFormed.scanCost_of_second live hash (less.trans found) less]
    omega
  · exact Nat.le_of_eq (wellFormed.scanCost_of_first live hash found le)

/-- Nor does it go beyond the key in the second. -/
theorem scanCost_le_second (wellFormed : t.WellFormed s) (live : key ≠ Key.vacant) (hash : UInt64)
    (found : t.slotAt (t.candidates hash).second key < slots) :
    t.scanCost key hash ≤ 2 * t.slotAt (t.candidates hash).second key + 2 := by
  rcases Nat.lt_or_ge (t.slotAt (t.candidates hash).second key)
    (t.slotAt (t.candidates hash).first key) with less | le
  · exact Nat.le_of_eq (wellFormed.scanCost_of_second live hash found less)
  · rw [wellFormed.scanCost_of_first live hash (le.trans_lt found) le]
    omega

/-- A lookup makes as many comparisons as that, and finds the first entry of the key. -/
theorem looksUp (wellFormed : t.WellFormed s) (key : K) (hash : UInt64) :
    LooksUp s t key hash (t.scanCost key hash) (t.firstOccurrence? key hash) := by
  by_cases vacant : key = Key.vacant
  · subst vacant
    rw [firstOccurrence?_vacant, scanCost, if_pos rfl]
    exact wellFormed.looksUp_vacant hash
  · rw [wellFormed.firstOccurrence?_eq vacant hash, scanCost, if_neg vacant]
    cases found : t.firstMatch? key hash with
    | none => exact wellFormed.looksUp_of_no_match vacant found
    | some hit => exact wellFormed.looksUp_of_match vacant found

/-- Two comparisons a slot are enough. -/
theorem scanCost_le (wellFormed : t.WellFormed s) (key : K) (hash : UInt64) :
    t.scanCost key hash ≤ 2 * slots := by
  have first_le := t.fillAt_le (t.candidates hash).first
  have second_le := t.fillAt_le (t.candidates hash).second
  by_cases vacant : key = Key.vacant
  · rw [scanCost, if_pos vacant]
    exact Nat.zero_le _
  · rcases t.slotAt_cases key hash with ⟨found, le⟩ | ⟨found, less⟩ | ⟨first_eq, second_eq⟩
    · rw [wellFormed.scanCost_of_first vacant hash found le]
      omega
    · rw [wellFormed.scanCost_of_second vacant hash found less]
      omega
    · rw [wellFormed.scanCost_of_none vacant hash first_eq second_eq]
      omega

end WellFormed

/-! ### Tables that store no key twice -/

/-- No key is stored twice. -/
def DistinctKeys (t : Table K V slots) : Prop :=
  (t.toList.map Prod.fst).Nodup

instance (t : Table K V slots) : Decidable t.DistinctKeys :=
  inferInstanceAs (Decidable (List.Nodup _))

namespace DistinctKeys

/-- A key has one value. -/
theorem value_eq (distinct : t.DistinctKeys) (stored : (key, value) ∈ t.toList)
    (stored' : (key, value') ∈ t.toList) : value = value' :=
  congrArg Prod.snd (List.inj_on_of_nodup_map distinct stored stored' rfl)

/-- A key lies in one group. -/
theorem group_eq (distinct : t.DistinctKeys) (inRange : i < t.groups.size)
    (inRange' : j < t.groups.size) (stored : (key, value) ∈ t.groups[i].toList)
    (stored' : (key, value') ∈ t.groups[j].toList) : i = j := by
  have groups : (t.groups.toList.flatMap fun g => g.toList.map Prod.fst).Nodup := by
    rw [← List.map_flatMap]
    exact distinct
  have disjoint := List.pairwise_iff_getElem.mp (List.nodup_flatMap.mp groups).2
  have inFirst : key ∈ t.groups[i].toList.map Prod.fst := List.mem_map_of_mem stored
  have inSecond : key ∈ t.groups[j].toList.map Prod.fst := List.mem_map_of_mem stored'
  rcases Nat.lt_trichotomy i j with less | same | greater
  · exact absurd inSecond (disjoint i j inRange inRange' less inFirst)
  · exact same
  · exact absurd inFirst (disjoint j i inRange' inRange greater inSecond)

/-- So it has a first slot in one group at most. -/
theorem eq_of_slotAt_lt (distinct : t.DistinctKeys) (wellFormed : t.WellFormed s)
    (live : key ≠ Key.vacant) (inRange : i < t.groups.size) (inRange' : j < t.groups.size)
    (found : t.slotAt i key < slots) (found' : t.slotAt j key < slots) : i = j := by
  have exists_mem {i : Nat} (inRange : i < t.groups.size) (found : t.slotAt i key < slots) :
      ∃ value, (key, value) ∈ t.groups[i].toList := by
    rw [slotAt_eq inRange, Group.slotOf_lt_iff] at found
    exact (Group.mem_keys_iff_exists_mem_toList (wellFormed.packed_getElem inRange)
      (wellFormed.written_getElem inRange) live).mp found
  obtain ⟨value, stored⟩ := exists_mem inRange found
  obtain ⟨value', stored'⟩ := exists_mem inRange' found'
  exact distinct.group_eq inRange inRange' stored stored'

/-- Two tables of which the one has no other entries of the key than the other give the same answer,
if both give one or neither does. -/
theorem valueOf?_eq (distinct : t.DistinctKeys) {hash' : UInt64}
    (stored : ∀ value, (key, value) ∈ t'.toList → (key, value) ∈ t.toList)
    (found : (t'.firstOccurrence? key hash').isSome = (t.firstOccurrence? key hash).isSome) :
    t'.valueOf? (t'.firstOccurrence? key hash') = t.valueOf? (t.firstOccurrence? key hash) := by
  rw [← isSome_valueOf?, ← isSome_valueOf?] at found
  cases answer : t.valueOf? (t.firstOccurrence? key hash) with
  | none =>
    rw [answer, Option.isSome_none] at found
    exact Option.isNone_iff_eq_none.mp (Option.isSome_eq_false_iff.mp found)
  | some value =>
    rw [answer] at found
    obtain ⟨value', answer'⟩ := Option.isSome_iff_exists.mp found
    rw [answer', distinct.value_eq (stored _ (mem_toList_of_valueOf? answer'))
      (mem_toList_of_valueOf? answer)]

/-- Tables with the same keys, each as often, are alike in storing none twice. -/
theorem of_perm (distinct : t.DistinctKeys)
    (keys : (t'.toList.map Prod.fst).Perm (t.toList.map Prod.fst)) : t'.DistinctKeys :=
  keys.nodup_iff.mpr distinct

end DistinctKeys

/-- The value that a lookup by key finds. -/
def answer? (s : Scheme K) (t : Table K V slots) (key : K) : Option V :=
  t.valueOf? (t.firstOccurrence? key (s.hash key))

/-- A lookup by key answers with a value, or with none, whatever its counter. -/
def Answers (s : Scheme K) (t : Table K V slots) (key : K) (value? : Option V) : Prop :=
  ∃ cost found?, cost ≤ 2 * slots ∧ LooksUp s t key (s.hash key) cost found? ∧
    t.valueOf? found? = value?

theorem WellFormed.answers (wellFormed : t.WellFormed s) (key : K) :
    Answers s t key (t.valueOf? (t.firstOccurrence? key (s.hash key))) :=
  ⟨_, _, wellFormed.scanCost_le key _, wellFormed.looksUp key _, rfl⟩

/-- If no key is stored twice, the answer is the value stored under the key. -/
theorem WellFormed.answers_of_stored (wellFormed : t.WellFormed s) (distinct : t.DistinctKeys)
    (stored : (key, value) ∈ t.toList) : Answers s t key (some value) := by
  have found := (wellFormed.isSome_firstOccurrence?_hash_iff key).mpr ⟨value, stored⟩
  rw [← isSome_valueOf?] at found
  obtain ⟨value', answer⟩ := Option.isSome_iff_exists.mp found
  have answers := wellFormed.answers key
  rwa [answer, distinct.value_eq (mem_toList_of_valueOf? answer) stored] at answers

/-- Tables with the same entries of a key, none of them stored twice, answer alike. -/
theorem WellFormed.exists_answers (wellFormed : t.WellFormed s) (wellFormed' : t'.WellFormed s)
    (distinct : t.DistinctKeys)
    (same : ∀ value, (key, value) ∈ t'.toList ↔ (key, value) ∈ t.toList) :
    ∃ value?, Answers s t key value? ∧ Answers s t' key value? := by
  have found : (t'.firstOccurrence? key (s.hash key)).isSome =
      (t.firstOccurrence? key (s.hash key)).isSome := by
    rw [Bool.eq_iff_iff, wellFormed'.isSome_firstOccurrence?_hash_iff,
      wellFormed.isSome_firstOccurrence?_hash_iff]
    exact exists_congr same
  refine ⟨_, wellFormed.answers key, ?_⟩
  rw [← distinct.valueOf?_eq (fun value => (same value).mp) found]
  exact wellFormed'.answers key

end TwoChoice.Table
