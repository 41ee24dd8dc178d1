import Mathlib.Data.Finset.Card
import Mathlib.Data.Finset.Powerset
import Mathlib.Data.Finset.Max

/-!
# Exchanging assignments

Elements are assigned to groups, and every group has room for only so many of them. If each element
would rather be in some group that has room at all, the elements can be assigned anew, within the
room of every group, so that one of them is where it would rather be. Either its group has room to
spare and it moves there alone, or every such group is full and some elements can trade places in a
circle.

## Main Definitions

* `load` — the number of elements assigned to a group

## Main Statements

* `exists_cycle` — a map of a finite set into itself goes around in a circle somewhere
* `exists_reassignment` — an assignment can be changed in favour of one of its elements
-/

namespace TwoChoice

universe u

variable {ι : Type u} {S : Finset ι} {assigned assigned' : ι → Nat}

/-- How many elements of a set are assigned to a group. -/
def load (S : Finset ι) (assigned : ι → Nat) (i : Nat) : Nat :=
  (S.filter fun k => assigned k = i).card

/-- If elements of one group can be sent to different elements of another, the other has as many. -/
theorem load_le_of_injOn {i j : Nat} (place : ι → ι)
    (places : ∀ k ∈ S, assigned' k = i → place k ∈ S ∧ assigned (place k) = j)
    (injective : ∀ k ∈ S, ∀ l ∈ S, place k = place l → k = l) :
    load S assigned' i ≤ load S assigned j := by
  refine Finset.card_le_card_of_injOn place ?_ ?_
  · intro k mem
    obtain ⟨inSet, here⟩ := Finset.mem_filter.mp mem
    exact Finset.mem_filter.mpr (places k inSet here)
  · intro k mem l mem' same
    exact injective k (Finset.mem_filter.mp mem).1 l (Finset.mem_filter.mp mem').1 same

variable [DecidableEq ι]

/-- Taking an element out of a set leaves one less in its group and as many in the others. -/
theorem load_erase {k : ι} (mem : k ∈ S) (assigned : ι → Nat) (i : Nat) :
    load (S.erase k) assigned i + (if i = assigned k then 1 else 0) = load S assigned i := by
  unfold load
  rw [Finset.filter_erase]
  by_cases here : i = assigned k
  · have inFilter : k ∈ S.filter fun l => assigned l = i := Finset.mem_filter.mpr ⟨mem, here.symm⟩
    rw [if_pos here, Finset.card_erase_add_one inFilter]
  · have notInFilter : k ∉ S.filter fun l => assigned l = i :=
      fun inFilter => here (Finset.mem_filter.mp inFilter).2.symm
    rw [if_neg here, Finset.erase_eq_of_notMem notInFilter, Nat.add_zero]

/-- Moving one element adds one element to the group it moves to, and none to any other. -/
theorem load_update_le (S : Finset ι) (assigned : ι → Nat) (k : ι) (target i : Nat) :
    load S (Function.update assigned k target) i ≤
      load S assigned i + if i = target then 1 else 0 := by
  unfold load
  have covered : (S.filter fun l => Function.update assigned k target l = i) ⊆
      (S.filter fun l => assigned l = i) ∪ if i = target then {k} else ∅ := by
    intro l mem
    obtain ⟨inSet, here⟩ := Finset.mem_filter.mp mem
    rw [Finset.mem_union, Finset.mem_filter]
    by_cases moved : l = k
    · subst moved
      rw [Function.update_self] at here
      rw [if_pos here.symm]
      exact Or.inr (Finset.mem_singleton_self l)
    · rw [Function.update_of_ne moved] at here
      exact Or.inl ⟨inSet, here⟩
  refine (Finset.card_le_card covered).trans ((Finset.card_union_le _ _).trans ?_)
  split
  · rw [Finset.card_singleton]
  · rw [Finset.card_empty]

/-- A map of a finite set into itself has a part on which it goes around in circles. -/
theorem exists_cycle (nonempty : S.Nonempty) {next : ι → ι} (closed : ∀ k ∈ S, next k ∈ S) :
    ∃ T ⊆ S, T.Nonempty ∧ (∀ k ∈ T, next k ∈ T) ∧ ∀ k ∈ T, ∀ l ∈ T, next k = next l → k = l := by
  -- The part is a smallest one that the map does not leave.
  let parts := S.powerset.filter fun T => T.Nonempty ∧ ∀ k ∈ T, next k ∈ T
  have whole : S ∈ parts :=
    Finset.mem_filter.mpr ⟨Finset.mem_powerset_self S, nonempty, closed⟩
  obtain ⟨T, isPart, smallest⟩ := Finset.exists_min_image parts Finset.card ⟨S, whole⟩
  obtain ⟨inPowerset, nonempty', closed'⟩ := Finset.mem_filter.mp isPart
  have subset : T ⊆ S := Finset.mem_powerset.mp inPowerset
  have image_subset : T.image next ⊆ T := Finset.image_subset_iff.mpr closed'
  have image_isPart : T.image next ∈ parts := by
    refine Finset.mem_filter.mpr
      ⟨Finset.mem_powerset.mpr (image_subset.trans subset), nonempty'.image next, ?_⟩
    intro k mem
    exact Finset.mem_image_of_mem next (image_subset mem)
  have injective : Set.InjOn next T :=
    Finset.card_image_iff.mp (Nat.le_antisymm Finset.card_image_le (smallest _ image_isPart))
  exact ⟨T, subset, nonempty', closed', fun k mem l mem' same => injective mem mem' same⟩

/-- If every element has a favourite group that has room at all, the elements can be assigned anew,
each to its old group or its favourite, so that one of them is in its favourite. -/
theorem exists_reassignment (nonempty : S.Nonempty) (room : Nat → Nat) (favourite : ι → Nat)
    (fits : ∀ i, load S assigned i ≤ room i) (free : ∀ k ∈ S, 0 < room (favourite k)) :
    ∃ assigned' : ι → Nat, (∀ k, assigned' k = assigned k ∨ assigned' k = favourite k) ∧
      (∀ i, load S assigned' i ≤ room i) ∧ ∃ k ∈ S, assigned' k = favourite k := by
  by_cases spare : ∃ k ∈ S, load S assigned (favourite k) < room (favourite k)
  · obtain ⟨k, mem, less⟩ := spare
    refine ⟨Function.update assigned k (favourite k), ?_, ?_, k, mem, Function.update_self ..⟩
    · intro l
      by_cases moved : l = k
      · subst moved
        exact Or.inr (Function.update_self ..)
      · exact Or.inl (Function.update_of_ne moved ..)
    · intro i
      have moved := load_update_le S assigned k (favourite k) i
      by_cases here : i = favourite k
      · rw [if_pos here] at moved
        subst here
        omega
      · rw [if_neg here] at moved
        exact moved.trans (fits i)
  · -- Every favourite is full, so each element has one that is in its favourite.
    push Not at spare
    have occupied : ∀ k ∈ S, ∃ l ∈ S, assigned l = favourite k := by
      intro k mem
      have positive : 0 < load S assigned (favourite k) := (free k mem).trans_le (spare k mem)
      obtain ⟨l, mem'⟩ := Finset.card_pos.mp positive
      exact ⟨l, Finset.mem_filter.mp mem'⟩
    choose! next inSet favourite_eq using occupied
    -- Going from element to element ends in circles, and there each takes the place of the next.
    obtain ⟨T, subset, ⟨k, mem⟩, closed, injective⟩ := exists_cycle nonempty inSet
    refine ⟨fun l => if l ∈ T then favourite l else assigned l, ?_, ?_, k, subset mem, if_pos mem⟩
    · intro l
      by_cases trades : l ∈ T
      · exact Or.inr (if_pos trades)
      · exact Or.inl (if_neg trades)
    · intro i
      refine (load_le_of_injOn (fun l => if l ∈ T then next l else l) ?_ ?_).trans (fits i)
      · intro l inSet' here
        by_cases trades : l ∈ T
        · simp only [if_pos trades] at here ⊢
          exact ⟨inSet l inSet', (favourite_eq l inSet').trans here⟩
        · simp only [if_neg trades] at here ⊢
          exact ⟨inSet', here⟩
      · intro l inSet' m inSet'' same
        by_cases trades : l ∈ T
        · by_cases trades' : m ∈ T
          · simp only [if_pos trades, if_pos trades'] at same
            exact injective l trades m trades' same
          · simp only [if_pos trades, if_neg trades'] at same
            exact absurd (same ▸ closed l trades) trades'
        · by_cases trades' : m ∈ T
          · simp only [if_neg trades, if_pos trades'] at same
            exact absurd (same ▸ closed m trades') trades
          · simpa only [if_neg trades, if_neg trades'] using same

end TwoChoice
