import TwoChoice.Proofs.Allocation
import TwoChoice.Proofs.Answers

/-!
# What an erasure leaves alone

Erasing a key takes one entry out of one group. The entries behind it move one slot to the left, and
nothing else moves. So the first slot of another key stays where it is or moves one to the left, in
that group only, and the group has one entry less. A lookup of the other key finds it if it did
before, and does not become dearer.

What it costs can drop by one: if the key is stored in both of its candidates, a lookup may find the
one entry before and the other after. A key that is not stored twice is found in the same candidate
as before, so that its cost stays or drops by the two comparisons of an offset.

## Main Definitions

* `Table.LosesAt` — a table that has lost the entry at a position
* `Table.AdvancesAt` — what becomes of the first slot of another key in a group
* `Table.Nearer` — a lookup that finds as much in another table at no higher cost

## Main Statements

* `Group.slotOf_remove` — the first slot of another key after a slot was vacated
* `Table.Removes.advancesAt` — taking out an entry lets every other key advance
* `Table.nearer_of_advances` — lookups of a key that advances come nearer
* `Table.Reachable.erase_frames` — what erasing a key changes
-/

namespace TwoChoice

universe u v

variable {K : Type u} {V : Type v} {slots : Nat} [Key K] [DecidableEq K]

/-- Vacating a slot moves the first slot of another key one to the left if it lies behind. -/
theorem Group.slotOf_remove {g g' : Group K V slots} {slot : Nat} {key : K}
    (removed : g.remove slot = .ok g') (live : key ≠ Key.vacant)
    (different : getElem g.keys slot (lt_of_remove removed) ≠ key) :
    g'.slotOf key =
      if slot < g.slotOf key ∧ g.slotOf key < slots then g.slotOf key - 1 else g.slotOf key := by
  have le := g.slotOf_le key
  by_cases behind : slot < g.slotOf key ∧ g.slotOf key < slots
  · rw [if_pos behind]
    obtain ⟨after, found⟩ := behind
    have back : g.slotOf key - 1 + 1 = g.slotOf key := by omega
    refine (slotOf_eq_iff (by omega)).mpr ⟨fun i before => ?_, fun _ => ?_⟩
    · rw [keys_remove removed]
      split
      · exact key_ne_of_lt_slotOf (by omega)
      · rw [dif_pos (by omega)]
        exact key_ne_of_lt_slotOf (by omega)
    · rw [keys_remove removed, if_neg (by omega), dif_pos (by omega)]
      simp only [back]
      exact key_slotOf found
  · rw [if_neg behind]
    refine (slotOf_eq_iff le).mpr ⟨fun i before => ?_, fun found => ?_⟩
    · rw [keys_remove removed]
      split
      · exact key_ne_of_lt_slotOf before
      · split
        · exact key_ne_of_lt_slotOf (by omega)
        · exact Ne.symm live
    · have slot_ne : g.slotOf key ≠ slot := by
        intro same
        apply different
        simp only [← same]
        exact key_slotOf found
      rw [keys_remove removed, if_pos (by omega)]
      exact key_slotOf found

namespace Table

variable {s : Scheme K} {t t' : Table K V slots} {key other : K} {hash : UInt64} {p : Position}
variable {value : V} {entry : K × V} {change : Edit K V slots} {i j : Nat}

/-! ### The group that loses an entry -/

/-- A table that has lost the entry at a position. The other entries of the group keep their order,
and nothing else differs but the recorded size. -/
structure LosesAt (t : Table K V slots) (p : Position) (entry : K × V) (t' : Table K V slots) :
    Prop where
  /-- The capacity is the same. -/
  capacity_eq : t'.capacity = t.capacity
  /-- So is the mask. -/
  mask_eq : t'.mask = t.mask
  /-- There is one entry less. -/
  size_eq : t'.size + 1 = t.size
  /-- Every other group is the same. -/
  others : ∀ j, j ≠ p.group → t'.groups[j]? = t.groups[j]?
  /-- The group has its entries in their order, but for the one at the position. -/
  removed : ∃ old new, t.groups[p.group]? = some old ∧ t'.groups[p.group]? = some new ∧
    old.toList[p.slot]? = some entry ∧ new.toList = old.toList.eraseIdx p.slot

namespace Removes

theorem losesAt (removes : t.Removes p change) (wellFormed : t.WellFormed s)
    (stored : t.entryAt? p = some entry) :
    LosesAt t p entry (t.edit change (t.size - 1)) where
  capacity_eq := capacity_edit ..
  mask_eq := mask_edit ..
  size_eq := by
    have positive : 0 < t.toList.length := List.length_pos_of_mem (mem_toList_of_entryAt? stored)
    rw [← wellFormed.size_eq] at positive
    exact Nat.sub_add_cancel positive
  others := by
    intro j other
    rw [← removes.index_eq] at other
    exact Array.getElem?_setIfInBounds_ne (Ne.symm other)
  removed := by
    obtain ⟨inRange, told⟩ := entryAt?_eq_some_iff.mp stored
    have toList_eq := removes.toList_group wellFormed stored
    simp only [removes.index_eq] at toList_eq
    refine ⟨_, change.group, Array.getElem?_eq_getElem inRange, ?_, told, toList_eq⟩
    rw [← removes.index_eq]
    exact Array.getElem?_setIfInBounds_self_of_lt removes.inRange

/-- Only the fill of the group changes. -/
theorem fillAt_edit (removes : t.Removes p change) (wellFormed : t.WellFormed s)
    (stored : t.entryAt? p = some entry) (n j : Nat) :
    (t.edit change n).fillAt j = if j = p.group then t.fillAt j - 1 else t.fillAt j := by
  obtain ⟨inRange, told⟩ := entryAt?_eq_some_iff.mp stored
  have before := wellFormed.slot_lt_fill told
  obtain ⟨index, group⟩ := change
  obtain rfl : index = p.group := removes.index_eq
  rw [Table.fillAt_edit inRange]
  by_cases same : j = p.group
  · subst same
    rw [if_pos rfl, if_pos rfl, fillAt_eq inRange]
    exact Group.fill_remove before removes.removed
  · rw [if_neg same, if_neg same]

/-- Only first slots behind the position change, and they move one to the left. -/
theorem slotAt_edit (removes : t.Removes p change) (wellFormed : t.WellFormed s)
    (stored : t.entryAt? p = some (key, value)) (live : other ≠ Key.vacant)
    (different : other ≠ key) (n j : Nat) :
    (t.edit change n).slotAt j other =
      if j = p.group ∧ p.slot < t.slotAt j other ∧ t.slotAt j other < slots then
        t.slotAt j other - 1
      else t.slotAt j other := by
  obtain ⟨inRange, told⟩ := entryAt?_eq_some_iff.mp stored
  obtain ⟨inList, entry_eq⟩ := List.getElem?_eq_some_iff.mp told
  have key_eq := Group.fst_getElem_toList (wellFormed.written_getElem inRange)
    (wellFormed.slot_lt_fill told)
  rw [entry_eq] at key_eq
  obtain ⟨index, group⟩ := change
  obtain rfl : index = p.group := removes.index_eq
  rw [Table.slotAt_edit inRange]
  by_cases same : j = p.group
  · subst same
    rw [if_pos rfl, slotAt_eq inRange]
    simp only [true_and]
    exact Group.slotOf_remove removes.removed live
      fun taken => different (key_eq.trans taken).symm
  · rw [if_neg same, if_neg fun behind => same behind.1]

end Removes

/-! ### First slots of other keys -/

/-- In the group at an index, the first slot of a key stays or moves one to the left, and the fill
stays or drops by one. -/
structure AdvancesAt (t t' : Table K V slots) (key : K) (i : Nat) : Prop where
  /-- The first slot of the key. -/
  slotAt_cases : t'.slotAt i key = t.slotAt i key ∨
    t.slotAt i key < slots ∧ t'.slotAt i key + 1 = t.slotAt i key
  /-- The fill. -/
  fillAt_cases : t'.fillAt i = t.fillAt i ∨ t'.fillAt i + 1 = t.fillAt i

/-- The greater of two fills stays or drops by one. -/
theorem AdvancesAt.max_cases (first : AdvancesAt t t' key i) (second : AdvancesAt t t' key j) :
    max (t'.fillAt i) (t'.fillAt j) = max (t.fillAt i) (t.fillAt j) ∨
      max (t'.fillAt i) (t'.fillAt j) + 1 = max (t.fillAt i) (t.fillAt j) := by
  have firstFill := first.fillAt_cases
  have secondFill := second.fillAt_cases
  omega

/-- Taking out an entry lets every other key advance. -/
theorem Removes.advancesAt (removes : t.Removes p change) (wellFormed : t.WellFormed s)
    (stored : t.entryAt? p = some (key, value)) (live : other ≠ Key.vacant)
    (different : other ≠ key) (n i : Nat) : AdvancesAt t (t.edit change n) other i where
  slotAt_cases := by
    rw [removes.slotAt_edit wellFormed stored live different]
    split <;> omega
  fillAt_cases := by
    rw [removes.fillAt_edit wellFormed stored]
    split <;> omega

/-! ### Lookups of other keys -/

/-- A lookup of a key finds an entry in both tables or in neither, and its cost in the second is not
higher. If no key is stored twice, the answer is the same, and the cost is the same or lower by the
comparisons of one offset. -/
structure Nearer (s : Scheme K) (t t' : Table K V slots) (key : K) (hash : UInt64) : Prop where
  /-- The lookup in the first table. -/
  before : LooksUp s t key hash (t.scanCost key hash) (t.firstOccurrence? key hash)
  /-- The lookup in the second. -/
  after : LooksUp s t' key hash (t'.scanCost key hash) (t'.firstOccurrence? key hash)
  /-- Both find an entry, or neither does. -/
  found_eq : (t'.firstOccurrence? key hash).isSome = (t.firstOccurrence? key hash).isSome
  /-- The cost is not higher. -/
  cost_le : t'.scanCost key hash ≤ t.scanCost key hash
  /-- If no key is stored twice, the answer is the same. -/
  answer_eq : t.DistinctKeys → t'.valueOf? (t'.firstOccurrence? key hash) =
    t.valueOf? (t.firstOccurrence? key hash)
  /-- Then the cost is also the same, or lower by two. -/
  cost_cases : t.DistinctKeys →
    t'.scanCost key hash = t.scanCost key hash ∨ t'.scanCost key hash + 2 = t.scanCost key hash

/-- The vacant key is found in neither table, at no cost. -/
theorem nearer_vacant (wellFormed : t.WellFormed s) (wellFormed' : t'.WellFormed s)
    (hash : UInt64) : Nearer s t t' Key.vacant hash where
  before := wellFormed.looksUp Key.vacant hash
  after := wellFormed'.looksUp Key.vacant hash
  found_eq := by rw [firstOccurrence?_vacant, firstOccurrence?_vacant]
  cost_le := by rw [scanCost, if_pos rfl, scanCost, if_pos rfl]
  answer_eq _ := by
    rw [firstOccurrence?_vacant, firstOccurrence?_vacant]
    rfl
  cost_cases _ := by
    rw [scanCost, if_pos rfl, scanCost, if_pos rfl]
    exact Or.inl rfl

section Advances

variable (wellFormed : t.WellFormed s) (wellFormed' : t'.WellFormed s) (live : key ≠ Key.vacant)
variable (candidates_eq : t'.candidates hash = t.candidates hash)
variable (advances : ∀ i, AdvancesAt t t' key i)

include wellFormed wellFormed' live candidates_eq advances

/-- Advancing, a key is found if it was found before, and not otherwise. -/
theorem isSome_eq_of_advances :
    (t'.firstOccurrence? key hash).isSome = (t.firstOccurrence? key hash).isSome := by
  have first := (advances (t.candidates hash).first).slotAt_cases
  have second := (advances (t.candidates hash).second).slotAt_cases
  rw [Bool.eq_iff_iff, wellFormed'.isSome_firstOccurrence?_iff_slotAt live,
    wellFormed.isSome_firstOccurrence?_iff_slotAt live, candidates_eq]
  omega

/-- The candidate in which the key was found bounds the cost now, whether or not the key is found
there again. -/
theorem scanCost_le_of_advances : t'.scanCost key hash ≤ t.scanCost key hash := by
  have firstSlot := (advances (t.candidates hash).first).slotAt_cases
  have secondSlot := (advances (t.candidates hash).second).slotAt_cases
  rcases t.slotAt_cases key hash with ⟨found, le⟩ | ⟨found, less⟩ | ⟨first_eq, second_eq⟩
  · have bound := wellFormed'.scanCost_le_first live hash
    rw [candidates_eq] at bound
    rw [wellFormed.scanCost_of_first live hash found le]
    omega
  · have bound := wellFormed'.scanCost_le_second live hash
    rw [candidates_eq] at bound
    rw [wellFormed.scanCost_of_second live hash found less]
    omega
  · have missed := wellFormed'.scanCost_of_none live hash
    rw [candidates_eq] at missed
    rw [wellFormed.scanCost_of_none live hash first_eq second_eq, missed (by omega) (by omega)]
    rcases (advances (t.candidates hash).first).max_cases
      (advances (t.candidates hash).second) with same | less
    · rw [same]
    · exact Nat.mul_le_mul_left 2 (Nat.le.intro less)

/-- A key that is not stored twice is found in the candidate in which it was found before. So the
cost tells its slot. -/
theorem scanCost_cases_of_advances (distinct : t.DistinctKeys) :
    t'.scanCost key hash = t.scanCost key hash ∨
      t'.scanCost key hash + 2 = t.scanCost key hash := by
  have firstSlot := (advances (t.candidates hash).first).slotAt_cases
  have secondSlot := (advances (t.candidates hash).second).slotAt_cases
  have together := distinct.eq_of_slotAt_lt wellFormed live (wellFormed.first_lt hash)
    (wellFormed.second_lt hash)
  rcases t.slotAt_cases key hash with ⟨found, le⟩ | ⟨found, less⟩ | ⟨first_eq, second_eq⟩
  · have first := wellFormed'.scanCost_of_first live hash
    rw [candidates_eq] at first
    have le' : t'.slotAt (t.candidates hash).first key ≤
        t'.slotAt (t.candidates hash).second key := by
      rcases Nat.lt_or_ge (t.slotAt (t.candidates hash).second key) slots with found' | absent
      · rw [together found found']
      · omega
    rw [wellFormed.scanCost_of_first live hash found le, first (by omega) le']
    omega
  · have second := wellFormed'.scanCost_of_second live hash
    rw [candidates_eq] at second
    have absent : ¬t.slotAt (t.candidates hash).first key < slots := by
      intro found'
      rw [together found' found] at less
      exact Nat.lt_irrefl _ less
    rw [wellFormed.scanCost_of_second live hash found less, second (by omega) (by omega)]
    omega
  · have missed := wellFormed'.scanCost_of_none live hash
    rw [candidates_eq] at missed
    rw [wellFormed.scanCost_of_none live hash first_eq second_eq, missed (by omega) (by omega)]
    rcases (advances (t.candidates hash).first).max_cases
      (advances (t.candidates hash).second) with same | less
    · exact Or.inl (by rw [same])
    · exact Or.inr (by rw [← less, Nat.mul_add])

end Advances

/-- If a key advances, lookups of it come nearer. -/
theorem nearer_of_advances (wellFormed : t.WellFormed s) (wellFormed' : t'.WellFormed s)
    (mask_eq : t'.mask = t.mask) (live : key ≠ Key.vacant)
    (stored : ∀ value, (key, value) ∈ t'.toList → (key, value) ∈ t.toList)
    (advances : ∀ i, AdvancesAt t t' key i) (hash : UInt64) : Nearer s t t' key hash := by
  have candidates_eq : t'.candidates hash = t.candidates hash := by
    rw [candidates, mask_eq, candidates]
  have found_eq := isSome_eq_of_advances wellFormed wellFormed' live candidates_eq advances
  exact {
    before := wellFormed.looksUp key hash
    after := wellFormed'.looksUp key hash
    found_eq := found_eq
    cost_le := scanCost_le_of_advances wellFormed wellFormed' live candidates_eq advances
    answer_eq := fun distinct => distinct.valueOf?_eq stored found_eq
    cost_cases := scanCost_cases_of_advances wellFormed wellFormed' live candidates_eq advances }

/-! ### Erasing a key -/

/-- Erasing a stored key takes out the entry that a lookup of it finds. The other entries of its
group keep their order, and no other group changes. Any other key keeps its values, and a lookup of
it finds as much as before at no higher cost. Erasing a key that is not stored changes nothing. -/
theorem Reachable.erase_frames (reachable : Reachable s t) (aligned : s.layout.Aligned)
    (sized : ∀ key : K, key ≠ Key.vacant → 0 < s.layout.keyBytes) (key : K) :
    (∀ value, (key, value) ∈ t.toList → (t.erase s key).result = .ok true ∧
        (∃ p value', t.firstOccurrence? key (s.hash key) = some p ∧
          LosesAt t p (key, value') (t.erase s key).table) ∧
        ∀ other, other ≠ key →
          valuesOf other (t.erase s key).table.toList = valuesOf other t.toList ∧
            ∀ hash, Nearer s t (t.erase s key).table other hash) ∧
      ((∀ value, (key, value) ∉ t.toList) → t.erase s key = ⟨.ok false, t⟩) := by
  have wellFormed := reachable.wellFormed
  have counted : key ≠ Key.vacant → 2 * slots < Word.limit := fun live =>
    reachable.two_mul_slots_lt aligned (sized key live)
  constructor
  · intro value stored
    have live : key ≠ Key.vacant := key_ne_vacant_of_mem_toList stored
    have held := wellFormed.holds_hash_iff.mpr ⟨value, stored⟩
    obtain ⟨cost, p, found⟩ := wellFormed.exists_match live held
    obtain ⟨value', yields⟩ := wellFormed.yields_of_match live (counted live) found
    obtain ⟨change, removes, erase_eq⟩ := yields.erase_eq
    have first_eq : t.firstOccurrence? key (s.hash key) = some p := by
      rw [wellFormed.firstOccurrence?_eq live, found]
      rfl
    have wellFormed' := removes.wellFormed wellFormed yields.stored
    have perm := removes.perm wellFormed yields.stored (t.size - 1)
    rw [erase_eq]
    refine ⟨rfl, ⟨p, value', first_eq, removes.losesAt wellFormed yields.stored⟩,
      fun other different => ⟨?_, fun hash => ?_⟩⟩
    · rw [valuesOf_eq_of_perm perm, valuesOf_cons_of_ne (Ne.symm different)]
    · by_cases vacant : other = Key.vacant
      · rw [vacant]
        exact nearer_vacant wellFormed wellFormed' hash
      · refine nearer_of_advances wellFormed wellFormed' (mask_edit ..) vacant
          (fun value mem => perm.mem_iff.mpr (List.mem_cons_of_mem _ mem))
          (removes.advancesAt wellFormed yields.stored vacant different _) hash
  · intro notStored
    exact (wellFormed.lacks_of_notStored counted notStored).erase_eq

/-- A table of four entries, two in either of the groups that all keys have as candidates. -/
def stacked : Table ZeroVacant UInt64 2 :=
  (Operation.run colliding Accumulation.listing
    [.insert ⟨1⟩ 10, .insert ⟨2⟩ 20, .insert ⟨3⟩ 30, .insert ⟨4⟩ 40] ⟨empty 8, 0⟩).2.table

theorem reachable_stacked : Reachable colliding stacked :=
  Reachable.run_empty Accumulation.listing (by decide) (by simp [Operation.Legal]) 0

/-- The third key lies behind the first, and moves to its slot when the first is taken out. The
fifth is not stored. -/
theorem erase_frames_stacked :
    Reachable colliding stacked ∧ stacked.DistinctKeys ∧
      (stacked.erase colliding ⟨1⟩).result = .ok true ∧
      Nearer colliding stacked (stacked.erase colliding ⟨1⟩).table ⟨3⟩ 0x500000002 ∧
      stacked.scanCost ⟨3⟩ 0x500000002 = 3 ∧
      (stacked.erase colliding ⟨1⟩).table.scanCost ⟨3⟩ 0x500000002 = 1 ∧
      stacked.erase colliding ⟨5⟩ = ⟨.ok false, stacked⟩ := by
  have aligned : colliding.layout.Aligned := by decide
  have sized : ∀ key : ZeroVacant, key ≠ Key.vacant → 0 < colliding.layout.keyBytes :=
    fun _ _ => by decide
  obtain ⟨returned, -, others⟩ := (reachable_stacked.erase_frames aligned sized ⟨1⟩).1 10
    (by decide +kernel)
  have unchanged := (reachable_stacked.erase_frames aligned sized ⟨5⟩).2
    (card_valuesOf_eq_zero_iff.mp (by decide +kernel))
  exact ⟨reachable_stacked, by decide +kernel, returned, (others ⟨3⟩ (by decide)).2 0x500000002,
    by decide +kernel, by decide +kernel, unchanged⟩

end Table

end TwoChoice
