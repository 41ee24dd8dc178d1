import Mathlib.Order.MinMax
import TwoChoice.Proofs.Charge
import TwoChoice.Proofs.Edits
import TwoChoice.Table.Lookup

/-!
# Searches

Both scans of a table go through two groups side by side. What they find is fixed by the first slot
of the key in either group: the lesser slot wins, and of equal slots the one in the first group. The
number of comparisons is fixed by it as well. The two scans differ only when the key is in neither
group.

## Main Definitions

* `Group.slotOf` — the first slot with a key
* `sideBySide` — the cost and the position of the first match in two groups
* `settle` — what is left of a search after some comparisons

## Main Statements

* `Table.scan_eq_settle`, `Table.scanUnchecked_eq_settle` — both scans settle the search for the
  first match
* `sideBySide_cases`, `sideBySide_eq_none_iff` — where a match is, and when there is none
-/

namespace TwoChoice

universe u v w

variable {K : Type u} {V : Type v} {slots : Nat} [DecidableEq K]

/-! ### The first slot of a key -/

namespace Group

variable {g : Group K V slots} {key : K}

/-- The first slot with the given key, or the number of slots if there is none. -/
def slotOf (g : Group K V slots) (key : K) : Nat :=
  g.keys.toArray.findIdx fun key' => key' = key

theorem slotOf_le (g : Group K V slots) (key : K) : g.slotOf key ≤ slots := by
  have bound : g.slotOf key ≤ g.keys.toArray.size := Array.findIdx_le_size
  rwa [g.keys.size_toArray] at bound

/-- The key lies in its first slot. -/
theorem key_slotOf (found : g.slotOf key < slots) : g.keys[g.slotOf key] = key := by
  have inArray : g.slotOf key < g.keys.toArray.size := by rwa [g.keys.size_toArray]
  exact of_decide_eq_true (Array.findIdx_getElem (w := inArray))

/-- The key lies in no slot before its first one. -/
theorem key_ne_of_lt_slotOf {i : Nat} (before : i < g.slotOf key) :
    getElem g.keys i (Nat.lt_of_lt_of_le before (g.slotOf_le key)) ≠ key :=
  of_decide_eq_false (Array.not_of_lt_findIdx before)

theorem slotOf_le_of_key_eq {i : Nat} {inRange : i < slots} (same : g.keys[i] = key) :
    g.slotOf key ≤ i := by
  by_contra before
  exact key_ne_of_lt_slotOf (Nat.lt_of_not_le before) same

/-- A key has a first slot exactly if it lies in some slot. -/
theorem slotOf_lt_iff : g.slotOf key < slots ↔ key ∈ g.keys := by
  constructor
  · intro found
    rw [← key_slotOf found]
    exact Vector.getElem_mem found
  · intro mem
    obtain ⟨i, inRange, same⟩ := Vector.getElem_of_mem mem
    exact Nat.lt_of_le_of_lt (slotOf_le_of_key_eq same) inRange

/-- The first slot of a key is the number of slots before which none has the key and at which one
does. -/
theorem slotOf_eq_iff {n : Nat} (le : n ≤ slots) :
    g.slotOf key = n ↔
      (∀ (i : Nat) (before : i < n), getElem g.keys i (Nat.lt_of_lt_of_le before le) ≠ key) ∧
        ∀ found : n < slots, g.keys[n] = key := by
  constructor
  · rintro rfl
    exact ⟨fun i before => key_ne_of_lt_slotOf before, key_slotOf⟩
  · rintro ⟨different, same⟩
    rcases Nat.lt_trichotomy (g.slotOf key) n with less | equal | greater
    · exact absurd (key_slotOf (Nat.lt_of_lt_of_le less le)) (different _ less)
    · exact equal
    · have found := Nat.lt_of_lt_of_le greater (g.slotOf_le key)
      exact absurd (same found) (key_ne_of_lt_slotOf greater)

/-- The first slot of a key that is not vacant comes before the fill. -/
theorem slotOf_lt_fill [Key K] (packed : g.Packed) (live : key ≠ Key.vacant)
    (found : g.slotOf key < slots) : g.slotOf key < g.fill := by
  rw [lt_fill_iff packed found, key_slotOf found]
  exact live

end Group

/-! ### Two groups -/

/-- The number of comparisons with two groups side by side up to the first match, and where the
match is. -/
def sideBySide (at₁ at₂ : Nat) (first second : Group K V slots) (key : K) :
    Option (Nat × Position) :=
  if first.slotOf key < slots ∧ first.slotOf key ≤ second.slotOf key then
    some (2 * first.slotOf key + 1, ⟨at₁, first.slotOf key⟩)
  else if second.slotOf key < slots then
    some (2 * second.slotOf key + 2, ⟨at₂, second.slotOf key⟩)
  else none

section SideBySide

variable {at₁ at₂ slot : Nat} {first second : Group K V slots} {key : K}

theorem sideBySide_eq_none_iff :
    sideBySide at₁ at₂ first second key = none ↔ key ∉ first.keys ∧ key ∉ second.keys := by
  rw [← Group.slotOf_lt_iff, ← Group.slotOf_lt_iff]
  unfold sideBySide
  split
  · simp only [reduceCtorEq, false_iff]
    omega
  · split
    · simp only [reduceCtorEq, false_iff]
      omega
    · simp only [true_iff]
      omega

/-- A match is the first slot of the key in one of the groups, and comes before it in the other. -/
theorem sideBySide_cases {cost : Nat} {p : Position}
    (found : sideBySide at₁ at₂ first second key = some (cost, p)) :
    (first.slotOf key < slots ∧ first.slotOf key ≤ second.slotOf key ∧
        cost = 2 * first.slotOf key + 1 ∧ p = ⟨at₁, first.slotOf key⟩) ∨
      second.slotOf key < slots ∧ second.slotOf key < first.slotOf key ∧
        cost = 2 * second.slotOf key + 2 ∧ p = ⟨at₂, second.slotOf key⟩ := by
  unfold sideBySide at found
  by_cases inFirst : first.slotOf key < slots ∧ first.slotOf key ≤ second.slotOf key
  · rw [if_pos inFirst] at found
    cases found
    exact Or.inl ⟨inFirst.1, inFirst.2, rfl, rfl⟩
  · rw [if_neg inFirst] at found
    by_cases inSecond : second.slotOf key < slots
    · rw [if_pos inSecond] at found
      cases found
      exact Or.inr ⟨inSecond, by omega, rfl, rfl⟩
    · rw [if_neg inSecond] at found
      cases found

/-- A slot of the first group with the key, none before it having the key, is the match. -/
theorem sideBySide_of_first {inRange : slot < slots} (le₁ : slot ≤ first.slotOf key)
    (le₂ : slot ≤ second.slotOf key) (same : first.keys[slot] = key) :
    sideBySide at₁ at₂ first second key = some (2 * slot + 1, ⟨at₁, slot⟩) := by
  have slot_eq : first.slotOf key = slot := Nat.le_antisymm (Group.slotOf_le_of_key_eq same) le₁
  rw [sideBySide, if_pos (by omega), slot_eq]

/-- A slot of the second group with the key, none before it nor beside it having the key, is the
match. -/
theorem sideBySide_of_second {inRange : slot < slots} (le₁ : slot ≤ first.slotOf key)
    (le₂ : slot ≤ second.slotOf key) (different : first.keys[slot] ≠ key)
    (same : second.keys[slot] = key) :
    sideBySide at₁ at₂ first second key = some (2 * slot + 2, ⟨at₂, slot⟩) := by
  have slot_eq : second.slotOf key = slot := Nat.le_antisymm (Group.slotOf_le_of_key_eq same) le₂
  have slot_ne : first.slotOf key ≠ slot := by
    rintro rfl
    exact different (Group.key_slotOf inRange)
  rw [sideBySide, if_neg (by omega), if_pos (by omega), slot_eq]

theorem lt_slotOf_of_key_ne {g : Group K V slots} {inRange : slot < slots}
    (le : slot ≤ g.slotOf key) (different : g.keys[slot] ≠ key) : slot + 1 ≤ g.slotOf key := by
  refine Nat.lt_of_le_of_ne le ?_
  rintro rfl
  exact different (Group.key_slotOf inRange)

/-- A match at or after an offset costs more than the comparisons before the offset. -/
theorem lt_cost_of_sideBySide {cost : Nat} {p : Position} (le₁ : slot ≤ first.slotOf key)
    (le₂ : slot ≤ second.slotOf key)
    (found : sideBySide at₁ at₂ first second key = some (cost, p)) : 2 * slot < cost := by
  rcases sideBySide_cases found with ⟨-, -, rfl, -⟩ | ⟨-, -, rfl, -⟩ <;> omega

/-- A match beyond an offset of the first group costs more than one comparison at the offset. -/
theorem succ_lt_cost_of_sideBySide {cost : Nat} {p : Position}
    (less₁ : slot + 1 ≤ first.slotOf key) (le₂ : slot ≤ second.slotOf key)
    (found : sideBySide at₁ at₂ first second key = some (cost, p)) : 2 * slot + 1 < cost := by
  rcases sideBySide_cases found with ⟨-, -, rfl, -⟩ | ⟨-, -, rfl, -⟩ <;> omega

end SideBySide

/-! ### Settling a search

A scan that has come to an offset without a match owes the comparisons that are left. The lemmas
below are the steps of both scans: what is owed at an offset is a fault, a match, or what is owed at
the next offset after two comparisons. -/

/-- What is left of a search after `made` comparisons, where a miss costs `missCost` in all. -/
def settle {α : Type w} (found : Option (Nat × Position)) (missCost : Nat) (hit : Position → α)
    (miss : Except Fault α) (made : Nat) (counter : UInt64) : Counted α :=
  match found with
  | some (cost, p) => .charge (cost - made) (.ok (hit p)) counter
  | none => .charge (missCost - made) miss counter

section Settle

variable {α : Type w} {at₁ at₂ slot missCost : Nat} {first second : Group K V slots} {key : K}
variable {hit : Position → α} {miss : Except Fault α} {counter : UInt64}

theorem settle_of_full (le₁ : slot ≤ first.slotOf key) (le₂ : slot ≤ second.slotOf key)
    (owed : 2 * slot < missCost) (full : counter = fullCounter) :
    settle (sideBySide at₁ at₂ first second key) missCost hit miss (2 * slot) counter =
      ⟨.error .counterOverflow, counter⟩ := by
  cases found : sideBySide at₁ at₂ first second key with
  | none => exact Counted.charge_of_full full (by omega)
  | some hit' =>
    have := lt_cost_of_sideBySide le₁ le₂ found
    exact Counted.charge_of_full full (by omega)

theorem settle_of_first {inRange : slot < slots} (hit : Position → α)
    (le₁ : slot ≤ first.slotOf key) (le₂ : slot ≤ second.slotOf key) (free : counter ≠ fullCounter)
    (same : first.keys[slot] = key) :
    settle (sideBySide at₁ at₂ first second key) missCost hit miss (2 * slot) counter =
      ⟨.ok (hit ⟨at₁, slot⟩), counter + 1⟩ := by
  rw [sideBySide_of_first le₁ le₂ same]
  simp only [settle, Nat.add_sub_cancel_left]
  exact Counted.charge_one free

theorem settle_of_next_full {inRange : slot < slots} (le₁ : slot ≤ first.slotOf key)
    (le₂ : slot ≤ second.slotOf key) (owed : 2 * slot + 1 < missCost)
    (free : counter ≠ fullCounter) (different : first.keys[slot] ≠ key)
    (full : counter + 1 = fullCounter) :
    settle (sideBySide at₁ at₂ first second key) missCost hit miss (2 * slot) counter =
      ⟨.error .counterOverflow, counter + 1⟩ := by
  cases found : sideBySide at₁ at₂ first second key with
  | none => exact Counted.charge_of_next_full free full (by omega)
  | some hit' =>
    have := succ_lt_cost_of_sideBySide (lt_slotOf_of_key_ne le₁ different) le₂ found
    exact Counted.charge_of_next_full free full (by omega)

theorem settle_of_second {inRange : slot < slots} (hit : Position → α)
    (le₁ : slot ≤ first.slotOf key) (le₂ : slot ≤ second.slotOf key) (free : counter ≠ fullCounter)
    (different : first.keys[slot] ≠ key) (free' : counter + 1 ≠ fullCounter)
    (same : second.keys[slot] = key) :
    settle (sideBySide at₁ at₂ first second key) missCost hit miss (2 * slot) counter =
      ⟨.ok (hit ⟨at₂, slot⟩), counter + 2⟩ := by
  rw [sideBySide_of_second le₁ le₂ different same]
  simp only [settle, Nat.add_sub_cancel_left]
  exact (Counted.charge_two free free' 0).trans Counted.charge_zero

/-- Two comparisons without a match lead to the next offset. -/
theorem settle_succ (less₁ : slot + 1 ≤ first.slotOf key) (less₂ : slot + 1 ≤ second.slotOf key)
    (owed : 2 * (slot + 1) ≤ missCost) (free : counter ≠ fullCounter)
    (free' : counter + 1 ≠ fullCounter) :
    settle (sideBySide at₁ at₂ first second key) missCost hit miss (2 * slot) counter =
      settle (sideBySide at₁ at₂ first second key) missCost hit miss (2 * (slot + 1))
        (counter + 2) := by
  cases found : sideBySide at₁ at₂ first second key with
  | none =>
    obtain ⟨rest, rfl⟩ := Nat.exists_eq_add_of_le owed
    simp only [settle, Nat.add_sub_cancel_left]
    rw [← Counted.charge_two free free']
    congr 1
    omega
  | some hit' =>
    obtain ⟨cost, p⟩ := hit'
    obtain ⟨rest, rfl⟩ :=
      Nat.exists_eq_add_of_le (Nat.le_of_lt (lt_cost_of_sideBySide less₁ less₂ found))
    simp only [settle, Nat.add_sub_cancel_left]
    rw [← Counted.charge_two free free']
    congr 1
    omega

/-- Nothing is owed when neither group has the key and all comparisons of a miss were made. -/
theorem settle_of_miss (absent₁ : ¬first.slotOf key < slots) (absent₂ : ¬second.slotOf key < slots)
    (paid : missCost ≤ 2 * slot) :
    settle (sideBySide at₁ at₂ first second key) missCost hit miss (2 * slot) counter =
      ⟨miss, counter⟩ := by
  rw [sideBySide, if_neg (by omega), if_neg absent₂]
  simp only [settle, Nat.sub_eq_zero_of_le paid]
  exact Counted.charge_zero

end Settle

namespace Table

variable {at₁ at₂ slot : Nat} {first second : Group K V slots} {key : K} {counter : UInt64}

/-- The scan for stored keys settles the search. A miss costs a comparison with every slot. -/
theorem scanUnchecked_eq_settle (le₁ : slot ≤ first.slotOf key)
    (le₂ : slot ≤ second.slotOf key) :
    scanUnchecked at₁ at₂ first second key slot counter =
      settle (sideBySide at₁ at₂ first second key) (2 * slots) id (.error .missingKey)
        (2 * slot) counter := by
  fun_induction scanUnchecked at₁ at₂ first second key slot counter with
  | case1 slot inRange => exact (settle_of_full le₁ le₂ (by omega) rfl).symm
  | case2 slot counter inRange free same => exact (settle_of_first id le₁ le₂ free same).symm
  | case3 slot counter inRange free different full =>
    exact (settle_of_next_full le₁ le₂ (by omega) free different full).symm
  | case4 slot counter inRange free different free' same =>
    exact (settle_of_second id le₁ le₂ free different free' same).symm
  | case5 slot counter inRange free different free' different' ih =>
    have less₁ := lt_slotOf_of_key_ne le₁ different
    have less₂ := lt_slotOf_of_key_ne le₂ different'
    rw [ih less₁ less₂]
    exact (settle_succ less₁ less₂ (by omega) free free').symm
  | case6 slot counter beyond => exact (settle_of_miss (by omega) (by omega) (by omega)).symm

variable [Key K]

/-- The bounded scan of packed groups settles the search. A miss costs a comparison with every slot
at the offsets at which one of the groups has an entry. -/
theorem scan_eq_settle (packed₁ : first.Packed) (packed₂ : second.Packed)
    (live : key ≠ Key.vacant) (le₁ : slot ≤ first.slotOf key) (le₂ : slot ≤ second.slotOf key) :
    scan at₁ at₂ first second key slot counter =
      settle (sideBySide at₁ at₂ first second key) (2 * max first.fill second.fill) some (.ok none)
        (2 * slot) counter := by
  -- An offset at which one of the groups has an entry comes before the greater fill.
  have before_of_occupied {slot : Nat} {inRange : slot < slots}
      (occupied : ¬(first.keys[slot] = Key.vacant ∧ second.keys[slot] = Key.vacant)) :
      slot < max first.fill second.fill := by
    rw [lt_max_iff, Group.lt_fill_iff packed₁ inRange, Group.lt_fill_iff packed₂ inRange]
    exact Decidable.not_and_iff_or_not.mp occupied
  fun_induction scan at₁ at₂ first second key slot counter with
  | case1 slot counter inRange vacant =>
    -- Both fills are at the offset or before it, and a match would have come before them.
    have fill₁ : first.fill ≤ slot :=
      Nat.le_of_not_lt fun before => (Group.lt_fill_iff packed₁ inRange).mp before vacant.1
    have fill₂ : second.fill ≤ slot :=
      Nat.le_of_not_lt fun before => (Group.lt_fill_iff packed₂ inRange).mp before vacant.2
    have absent₁ : ¬first.slotOf key < slots := fun found =>
      absurd (Group.slotOf_lt_fill packed₁ live found) (by omega)
    have absent₂ : ¬second.slotOf key < slots := fun found =>
      absurd (Group.slotOf_lt_fill packed₂ live found) (by omega)
    exact (settle_of_miss absent₁ absent₂ (by omega)).symm
  | case2 slot inRange occupied =>
    have before := before_of_occupied occupied
    exact (settle_of_full le₁ le₂ (by omega) rfl).symm
  | case3 slot counter inRange occupied free same =>
    exact (settle_of_first some le₁ le₂ free same).symm
  | case4 slot counter inRange occupied free different full =>
    have before := before_of_occupied occupied
    exact (settle_of_next_full le₁ le₂ (by omega) free different full).symm
  | case5 slot counter inRange occupied free different free' same =>
    exact (settle_of_second some le₁ le₂ free different free' same).symm
  | case6 slot counter inRange occupied free different free' different' ih =>
    have before := before_of_occupied occupied
    have less₁ := lt_slotOf_of_key_ne le₁ different
    have less₂ := lt_slotOf_of_key_ne le₂ different'
    rw [ih less₁ less₂]
    exact (settle_succ less₁ less₂ (by omega) free free').symm
  | case7 slot counter beyond =>
    have fill₁ := first.fill_le
    have fill₂ := second.fill_le
    exact (settle_of_miss (by omega) (by omega) (by omega)).symm

end Table

end TwoChoice
