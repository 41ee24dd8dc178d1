import TwoChoice.Proofs.Lookup

/-!
# The comparisons of a scan

A scan compares a key with one slot after another, and its cost says with how many of them. This
module records which ones. They are always the first slots in one fixed order: a slot of the first
group, the slot beside it in the second, then the next slot of each.

## Main Definitions

* `scanned` — the positions that a scan compares a key with, in order
* `Table.comparisons`, `Table.comparisonsUnchecked` — those of the two scans of a table
* `comparison` — the position of each comparison in the fixed order

## Main Statements

* `scanned_eq_map` — a scan with a match makes the comparisons up to it, in the fixed order
* `Table.WellFormed.comparisons_eq`, `Table.WellFormed.comparisonsUnchecked_eq` — so do the scans of
  a table

## Design Notes

The two scans differ in when they give up: one stops at an offset at which both groups have a vacant
slot, the other does not. `scanned` takes that condition as an argument.
-/

namespace TwoChoice

universe u v

variable {K : Type u} {V : Type v} {slots : Nat} [DecidableEq K]

/-- The positions whose keys a scan of two groups compares with a key, from an offset on. At an
offset whose two keys make it stop, it compares nothing any more. -/
def scanned (stops : K → K → Bool) (at₁ at₂ : Nat) (first second : Group K V slots) (key : K)
    (slot : Nat) : List Position :=
  if inRange : slot < slots then
    if stops first.keys[slot] second.keys[slot] then []
    else if first.keys[slot] = key then [⟨at₁, slot⟩]
    else if second.keys[slot] = key then [⟨at₁, slot⟩, ⟨at₂, slot⟩]
    else ⟨at₁, slot⟩ :: ⟨at₂, slot⟩ :: scanned stops at₁ at₂ first second key (slot + 1)
  else []
termination_by slots - slot

/-- The position of a comparison with two groups side by side. Even ones are with the first group,
odd ones with the second. -/
def comparison (at₁ at₂ n : Nat) : Position :=
  ⟨if n % 2 = 0 then at₁ else at₂, n / 2⟩

@[simp] theorem comparison_two_mul (at₁ at₂ slot : Nat) :
    comparison at₁ at₂ (2 * slot) = ⟨at₁, slot⟩ := by
  rw [comparison, if_pos (by omega), Nat.mul_div_cancel_left slot (by decide)]

@[simp] theorem comparison_two_mul_add_one (at₁ at₂ slot : Nat) :
    comparison at₁ at₂ (2 * slot + 1) = ⟨at₂, slot⟩ := by
  have half : (2 * slot + 1) / 2 = slot := by omega
  rw [comparison, if_neg (by omega), half]

section Scanned

variable {at₁ at₂ slot cost : Nat} {first second : Group K V slots} {key : K} {p : Position}

/-- The last comparison up to a match is the one with its position. -/
theorem comparison_of_match (found : sideBySide at₁ at₂ first second key = some (cost, p)) :
    0 < cost ∧ comparison at₁ at₂ (cost - 1) = p := by
  rcases sideBySide_cases found with ⟨-, -, rfl, rfl⟩ | ⟨-, -, rfl, rfl⟩
  · exact ⟨by omega, comparison_two_mul ..⟩
  · exact ⟨by omega, comparison_two_mul_add_one ..⟩

/-- A match has a slot. -/
theorem lt_slots_of_match (found : sideBySide at₁ at₂ first second key = some (cost, p)) :
    first.slotOf key < slots ∨ second.slotOf key < slots := by
  rcases sideBySide_cases found with ⟨inRange, -⟩ | ⟨inRange, -⟩
  · exact Or.inl inRange
  · exact Or.inr inRange

variable [Key K]

/-- A scan that stops only where both groups have no further entry makes the comparisons up to the
match, in order. -/
theorem scanned_eq_map {stops : K → K → Bool}
    (idle : ∀ a b, stops a b → a = Key.vacant ∧ b = Key.vacant) (packed₁ : first.Packed)
    (packed₂ : second.Packed) (live : key ≠ Key.vacant)
    (found : sideBySide at₁ at₂ first second key = some (cost, p))
    (le₁ : slot ≤ first.slotOf key) (le₂ : slot ≤ second.slotOf key) :
    scanned stops at₁ at₂ first second key slot =
      (List.range' (2 * slot) (cost - 2 * slot)).map (comparison at₁ at₂) := by
  fun_induction scanned stops at₁ at₂ first second key slot with
  | case1 slot inRange stopped =>
    -- Where the scan stops, the match would have come before.
    obtain ⟨vacant₁, vacant₂⟩ := idle _ _ stopped
    rcases lt_slots_of_match found with found₁ | found₂
    · have before := Group.slotOf_lt_fill packed₁ live found₁
      exact absurd vacant₁ ((Group.lt_fill_iff packed₁ inRange).mp (by omega))
    · have before := Group.slotOf_lt_fill packed₂ live found₂
      exact absurd vacant₂ ((Group.lt_fill_iff packed₂ inRange).mp (by omega))
  | case2 slot inRange goesOn same =>
    rw [sideBySide_of_first le₁ le₂ same] at found
    obtain ⟨rfl, -⟩ := Prod.mk.inj (Option.some.inj found)
    rw [Nat.add_sub_cancel_left]
    simp
  | case3 slot inRange goesOn different same =>
    rw [sideBySide_of_second le₁ le₂ different same] at found
    obtain ⟨rfl, -⟩ := Prod.mk.inj (Option.some.inj found)
    rw [Nat.add_sub_cancel_left]
    simp [List.range'_succ]
  | case4 slot inRange goesOn different different' ih =>
    have less₁ := lt_slotOf_of_key_ne le₁ different
    have less₂ := lt_slotOf_of_key_ne le₂ different'
    have paid := lt_cost_of_sideBySide less₁ less₂ found
    have owed : cost - 2 * slot = cost - 2 * (slot + 1) + 1 + 1 := by omega
    rw [ih less₁ less₂, owed, List.range'_succ, List.range'_succ, List.map_cons, List.map_cons,
      comparison_two_mul, comparison_two_mul_add_one]
    rfl
  | case5 slot beyond =>
    rcases lt_slots_of_match found with found₁ | found₂ <;> omega

end Scanned

namespace Table

variable [Key K] {s : Scheme K} {t : Table K V slots} {key : K} {hash : UInt64} {cost : Nat}
variable {p : Position}

/-- The positions that a scan of the candidates of a hash compares a key with, in order. -/
def scannedAt (stops : K → K → Bool) (t : Table K V slots) (key : K) (hash : UInt64) :
    List Position :=
  match t.candidateGroups hash with
  | .ok (first, second) =>
    scanned stops (t.candidates hash).first (t.candidates hash).second first second key 0
  | .error _ => []

/-- The positions that the bounded scan compares a key with. It stops at two vacant slots. -/
def comparisons (t : Table K V slots) (key : K) (hash : UInt64) : List Position :=
  t.scannedAt (fun a b => a = Key.vacant ∧ b = Key.vacant) key hash

/-- The positions that the scan for stored keys compares a key with. -/
def comparisonsUnchecked (t : Table K V slots) (key : K) (hash : UInt64) : List Position :=
  t.scannedAt (fun _ _ => false) key hash

namespace WellFormed

theorem scannedAt_eq (wellFormed : t.WellFormed s) (live : key ≠ Key.vacant)
    {stops : K → K → Bool} (idle : ∀ a b, stops a b → a = Key.vacant ∧ b = Key.vacant)
    (found : t.firstMatch? key hash = some (cost, p)) :
    t.scannedAt stops key hash = (List.range cost).map
      (comparison (t.candidates hash).first (t.candidates hash).second) := by
  rw [firstMatch?, wellFormed.candidateGroups_eq] at found
  rw [scannedAt, wellFormed.candidateGroups_eq]
  dsimp only at found ⊢
  rw [scanned_eq_map idle (wellFormed.packed_getElem _) (wellFormed.packed_getElem _) live found
    (Nat.zero_le _) (Nat.zero_le _), List.range_eq_range']
  rfl

/-- The bounded scan of a table makes the comparisons up to the match, in order. -/
theorem comparisons_eq (wellFormed : t.WellFormed s) (live : key ≠ Key.vacant)
    (found : t.firstMatch? key hash = some (cost, p)) :
    t.comparisons key hash = (List.range cost).map
      (comparison (t.candidates hash).first (t.candidates hash).second) :=
  wellFormed.scannedAt_eq live (fun _ _ stopped => of_decide_eq_true stopped) found

/-- So does the scan for stored keys. -/
theorem comparisonsUnchecked_eq (wellFormed : t.WellFormed s) (live : key ≠ Key.vacant)
    (found : t.firstMatch? key hash = some (cost, p)) :
    t.comparisonsUnchecked key hash = (List.range cost).map
      (comparison (t.candidates hash).first (t.candidates hash).second) :=
  wellFormed.scannedAt_eq live (fun _ _ stopped => nomatch stopped) found

end WellFormed

end Table

end TwoChoice
