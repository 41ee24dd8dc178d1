import Mathlib.Algebra.BigOperators.Group.Finset.Basic
import Mathlib.Algebra.BigOperators.Group.Finset.Piecewise
import Mathlib.Tactic.ByContra
import TwoChoice.Proofs.Placement

/-!
# Filling groups

Whether entries find room depends on nothing but the fills: an entry goes to the less full of its
two candidates, and finds no room if both are full. So it can be told without any table, from the
candidates of the entries in their order.

Elements that find no room are out of luck because of others. What is in some groups got there
because it has one of them among its candidates, and these are never fewer than the fills of the
groups together. An element that has few enough rivals for one of its candidates, or for both of
them, therefore always finds room, whatever comes before it.

## Main Definitions

* `AllFit` — elements find room, one after another
* `rivals` — how many elements have one of some groups among their candidates
* `Uncrowded` — an element that has few rivals among the others

## Main Statements

* `Table.WellFormed.exists_placeAll_iff` — placing entries succeeds exactly if they all fit
* `allFit_of_uncrowded` — elements that are not crowded fit in every order

## Design Notes

The number of rivals is counted for a set of groups. With one group it bounds the fill of a
candidate, with two it bounds the fills of both together.
-/

namespace TwoChoice

universe u v

/-! ### Filling one group after another -/

/-- Elements go to the less full of their candidates, one after another, and none of them finds
both of its candidates full. -/
def AllFit (slots : Nat) : List Candidates → (Nat → Nat) → Prop
  | [], _ => True
  | c :: rest, fill =>
    (fill c.first < slots ∨ fill c.second < slots) ∧
      AllFit slots rest fun i => if i = c.lessFull fill then fill i + 1 else fill i

instance decidableAllFit (slots : Nat) :
    (elements : List Candidates) → (fill : Nat → Nat) → Decidable (AllFit slots elements fill)
  | [], _ => isTrue trivial
  | c :: rest, fill =>
    have := decidableAllFit slots rest fun i => if i = c.lessFull fill then fill i + 1 else fill i
    inferInstanceAs (Decidable (_ ∧ _))

/-! ### Rivals -/

/-- How many of some elements have one of some groups among their candidates. -/
def rivals (groups : Finset Nat) (elements : List Candidates) : Nat :=
  elements.countP fun c => c.first ∈ groups ∨ c.second ∈ groups

/-- An element has few rivals among the others: fewer than a group has slots for one of its
candidates, or fewer than two groups have if its candidates differ. -/
def Uncrowded (slots : Nat) (c : Candidates) (others : List Candidates) : Prop :=
  rivals {c.first} others < slots ∨ rivals {c.second} others < slots ∨
    c.first ≠ c.second ∧ rivals {c.first, c.second} others < 2 * slots

/-- The fills of any groups together are not more than the elements that have one of them among
their candidates. -/
def AccountedFor (fill : Nat → Nat) (elements : List Candidates) : Prop :=
  ∀ groups : Finset Nat, ∑ i ∈ groups, fill i ≤ rivals groups elements

section Rivals

variable {slots : Nat} {c : Candidates} {groups : Finset Nat} {fill : Nat → Nat}
variable {elements others stored rest : List Candidates}

theorem rivals_append (groups : Finset Nat) (elements others : List Candidates) :
    rivals groups (elements ++ others) = rivals groups elements + rivals groups others :=
  List.countP_append

theorem rivals_cons (groups : Finset Nat) (c : Candidates) (elements : List Candidates) :
    rivals groups (c :: elements) =
      rivals groups elements + if c.first ∈ groups ∨ c.second ∈ groups then 1 else 0 := by
  simp [rivals, List.countP_cons]

theorem rivals_le_length (groups : Finset Nat) (elements : List Candidates) :
    rivals groups elements ≤ elements.length :=
  List.countP_le_length

/-- An element with two different candidates is not crowded by fewer others than two groups have
slots. -/
theorem uncrowded_of_length_lt (apart : c.first ≠ c.second) (few : others.length < 2 * slots) :
    Uncrowded slots c others :=
  Or.inr (Or.inr ⟨apart, (rivals_le_length _ others).trans_lt few⟩)

theorem Uncrowded.of_perm (uncrowded : Uncrowded slots c others) (perm : others.Perm elements) :
    Uncrowded slots c elements := by
  have same : ∀ groups, rivals groups elements = rivals groups others :=
    fun groups => (perm.countP_eq _).symm
  unfold Uncrowded
  simp only [same]
  exact uncrowded

/-- Empty groups are accounted for. -/
theorem accountedFor_zero (elements : List Candidates) : AccountedFor (fun _ => 0) elements := by
  intro groups
  simp

/-- Storing one more element in one of its candidates leaves the fills accounted for. -/
theorem AccountedFor.store (accounted : AccountedFor fill stored) (c : Candidates) :
    AccountedFor (fun i => if i = c.lessFull fill then fill i + 1 else fill i) (c :: stored) := by
  intro groups
  have split : ∀ i, (if i = c.lessFull fill then fill i + 1 else fill i) =
      fill i + if i = c.lessFull fill then 1 else 0 := by
    intro i
    split <;> rfl
  have before := accounted groups
  simp only [split, Finset.sum_add_distrib, Finset.sum_ite_eq', rivals_cons]
  by_cases counted : c.lessFull fill ∈ groups
  · have rival : c.first ∈ groups ∨ c.second ∈ groups := by
      rcases c.lessFull_eq_or fill with first | second
      · exact Or.inl (first ▸ counted)
      · exact Or.inr (second ▸ counted)
    rw [if_pos counted, if_pos rival]
    omega
  · rw [if_neg counted]
    omega

/-- An element that is not crowded does not find both of its candidates full. -/
theorem Uncrowded.hasRoom (uncrowded : Uncrowded slots c others)
    (accounted : AccountedFor fill stored) (among : ∀ groups, rivals groups stored ≤
      rivals groups others) : fill c.first < slots ∨ fill c.second < slots := by
  by_contra full
  obtain ⟨full₁, full₂⟩ := not_or.mp full
  rcases uncrowded with few | few | ⟨apart, few⟩
  · have held := (accounted {c.first}).trans (among _)
    rw [Finset.sum_singleton] at held
    omega
  · have held := (accounted {c.second}).trans (among _)
    rw [Finset.sum_singleton] at held
    omega
  · have held := (accounted {c.first, c.second}).trans (among _)
    rw [Finset.sum_pair apart] at held
    omega

/-- Elements find room in groups that are filled with others if each of them has few rivals among
all the rest. -/
theorem AccountedFor.allFit (accounted : AccountedFor fill stored)
    (uncrowded : ∀ c others, (stored ++ rest).Perm (c :: others) → Uncrowded slots c others) :
    AllFit slots rest fill := by
  -- An element passes from those to come to those that are stored; the rest stays the same.
  induction rest generalizing stored fill with
  | nil => trivial
  | cons c rest ih =>
    refine ⟨?_, ih (accounted.store c) ?_⟩
    · have few := uncrowded c (stored ++ rest) List.perm_middle
      refine few.hasRoom accounted fun groups => ?_
      rw [rivals_append]
      exact Nat.le_add_right _ _
    · intro c' others perm
      exact uncrowded c' others (List.perm_middle.trans perm)

/-- Elements find room in empty groups if each of them has few rivals among the others. -/
theorem allFit_of_uncrowded
    (uncrowded : ∀ c others, elements.Perm (c :: others) → Uncrowded slots c others) :
    AllFit slots elements fun _ => 0 :=
  (accountedFor_zero []).allFit uncrowded

end Rivals

/-! ### Filling a table -/

namespace Table

variable {K : Type u} {V : Type v} {slots : Nat} [Key K] [DecidableEq K]
variable {s : Scheme K} {t : Table K V slots} {hash : UInt64} {entries : List (K × V)}

/-- An entry finds room unless both of its candidates are full. -/
theorem not_blocked_iff (t : Table K V slots) (hash : UInt64) :
    ¬t.Blocked hash ↔
      t.fillAt (t.candidates hash).first < slots ∨ t.fillAt (t.candidates hash).second < slots := by
  have first_le := t.fillAt_le (t.candidates hash).first
  have second_le := t.fillAt_le (t.candidates hash).second
  unfold Blocked
  omega

/-- Placing some entries one after another succeeds exactly if all of them fit. -/
theorem WellFormed.exists_placeAll_iff (wellFormed : t.WellFormed s)
    (live : ∀ entry ∈ entries, entry.1 ≠ Key.vacant) :
    (∃ t', placeAll s entries t = .ok (some t')) ↔
      AllFit slots (entries.map fun entry => t.candidates (s.hash entry.1)) t.fillAt := by
  induction entries generalizing t with
  | nil => exact ⟨fun _ => trivial, fun _ => ⟨t, rfl⟩⟩
  | cons entry rest ih =>
    rw [List.map_cons, AllFit, ← not_blocked_iff]
    by_cases blocked : t.Blocked (s.hash entry.1)
    · simp [wellFormed.placeAll_cons_of_blocked blocked, blocked]
    · obtain ⟨more, gains⟩ := wellFormed.exists_gains (live entry List.mem_cons_self) blocked
      have live' : ∀ later ∈ rest, later.1 ≠ Key.vacant :=
        fun later mem => live later (List.mem_cons_of_mem _ mem)
      have fills : more.fillAt = fun i =>
          if i = (t.candidates (s.hash entry.1)).lessFull t.fillAt then t.fillAt i + 1
          else t.fillAt i := funext gains.fillAt_eq
      rw [gains.placeAll_cons, ih gains.wellFormed live', fills]
      simp only [gains.candidates_eq]
      exact (and_iff_right blocked).symm

end Table

end TwoChoice
