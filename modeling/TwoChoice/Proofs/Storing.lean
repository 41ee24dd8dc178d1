import Mathlib.Algebra.Order.BigOperators.Group.Finset
import TwoChoice.Proofs.LeastGrowth

/-!
# Where an insertion stores its entry

An insertion with room appends the entry to the less full candidate of its key and touches nothing
else. Without room it grows, and repeats that until there is room, so that the capacity is doubled
at least once.

Nothing but growth makes a table larger, and nothing makes it smaller. Growth is asked for, or it
comes from an insertion that finds both candidates full. The entries in a group all have it as a
candidate, so it takes as many entries as a group has slots to fill one of them, and twice as many
to fill two. A table with fewer entries does not grow on insertion.

## Main Definitions

* `Table.AppendsAt` — a table with one more entry at the end of one group
* `Operation.Grows` — an operation that calls for growth

## Main Statements

* `Table.WellFormed.accountedFor` — fills of groups against entries that have them as candidates
* `Table.WellFormed.exists_doublings_insertLoop` — how often an insertion doubles the capacity
* `Table.capacity_le_run`, `Table.capacity_perform_eq` — what a run makes of the capacity
* `Table.Reachable.insert_places` — where an insertion stores its entry, and when it grows

## Design Notes

What is said of runs needs no invariant. It holds of every table and of every operation, and also of
operations that fail.
-/

namespace TwoChoice

universe u v w

variable {K : Type u} {V : Type v} {slots : Nat} {A : Type w} [Key K] [DecidableEq K]
variable {s : Scheme K} {t t' : Table K V slots} {hash : UInt64} {key : K} {value : V}

/-! ### Runs -/

/-- A run that goes on is a run from what its beginning leaves. -/
theorem Call.run_append (s : Scheme K) (acc : Accumulation V A) (before after : List (Call K V))
    (t : Table K V slots) :
    (run s acc (before ++ after) t).2 = (run s acc after (run s acc before t).2).2 := by
  induction before generalizing t with
  | nil => rfl
  | cons call before ih => exact ih (call.perform s acc t).state.table

/-- An operation calls for growth: it is growth itself, or it stores an entry that finds both of its
candidates full. -/
def Operation.Grows (s : Scheme K) (t : Table K V slots) : Operation K V → Prop
  | grow => True
  | insert key _ => key ≠ Key.vacant ∧ t.Blocked (s.hash key)
  | _ => False

namespace Table

/-! ### Entries against fills -/

/-- A sum over the indexes of a list is one over its elements. -/
theorem sum_range_getElem? {α : Type v} (f : α → Nat) (l : List α) :
    ∑ i ∈ Finset.range l.length, l[i]?.elim 0 f = (l.map f).sum := by
  induction l with
  | nil => rfl
  | cons a l ih =>
    rw [List.length_cons, Finset.sum_range_succ', List.map_cons, List.sum_cons, ← ih,
      Nat.add_comm]
    simp

/-- Every entry has its group as a candidate. -/
theorem WellFormed.countP_group (wellFormed : t.WellFormed s) {i : Nat}
    (inRange : i < t.groups.size) {groups : Finset Nat} (mem : i ∈ groups) :
    (t.groups[i].toList.countP fun entry => (t.candidates (s.hash entry.1)).first ∈ groups ∨
      (t.candidates (s.hash entry.1)).second ∈ groups) = t.fillAt i := by
  rw [← wellFormed.length_toList_getElem inRange, List.countP_eq_length]
  intro entry stored
  rw [decide_eq_true_iff]
  rcases wellFormed.placed i inRange entry stored with first | second
  · exact Or.inl (first ▸ mem)
  · exact Or.inr (second ▸ mem)

/-- The fills of any groups together are not more than the entries that have one of them as a
candidate. -/
theorem WellFormed.accountedFor (wellFormed : t.WellFormed s) :
    AccountedFor t.fillAt (t.toList.map fun entry => t.candidates (s.hash entry.1)) := by
  intro groups
  let counted : Group K V slots → Nat := fun g => g.toList.countP fun entry =>
    (t.candidates (s.hash entry.1)).first ∈ groups ∨ (t.candidates (s.hash entry.1)).second ∈ groups
  have fill_eq : ∀ i ∈ groups, t.fillAt i = t.groups.toList[i]?.elim 0 counted := by
    intro i mem
    rw [Array.getElem?_toList]
    by_cases inRange : i < t.groups.size
    · rw [Array.getElem?_eq_getElem inRange]
      exact (wellFormed.countP_group inRange mem).symm
    · rw [fillAt, Array.getElem?_eq_none (Nat.le_of_not_lt inRange)]
      rfl
  -- Among all groups the entries of the others are counted as well.
  calc ∑ i ∈ groups, t.fillAt i
      = ∑ i ∈ groups, t.groups.toList[i]?.elim 0 counted := Finset.sum_congr rfl fill_eq
    _ ≤ ∑ i ∈ Finset.range t.groups.toList.length, t.groups.toList[i]?.elim 0 counted := by
        refine Finset.sum_le_sum_of_ne_zero fun i _ some => ?_
        rw [Finset.mem_range]
        by_contra beyond
        rw [List.getElem?_eq_none (Nat.le_of_not_lt beyond)] at some
        exact some rfl
    _ = (t.groups.toList.map counted).sum := sum_range_getElem? counted _
    _ = rivals groups (t.toList.map fun entry => t.candidates (s.hash entry.1)) := by
        rw [rivals, List.countP_map, toList, List.countP_flatMap]
        rfl

/-- A key that has few rivals among the entries does not find both of its candidates full. -/
theorem WellFormed.not_blocked_of_uncrowded (wellFormed : t.WellFormed s)
    (uncrowded : Uncrowded slots (t.candidates hash)
      (t.toList.map fun entry => t.candidates (s.hash entry.1))) : ¬t.Blocked hash :=
  (t.not_blocked_iff hash).mpr (uncrowded.hasRoom wellFormed.accountedFor fun _ => Nat.le_refl _)

/-- Both candidates are full only if there are as many entries as one group has slots, and twice as
many if the candidates differ. -/
theorem WellFormed.not_blocked_of_size_lt (wellFormed : t.WellFormed s)
    (few : t.size < slots ∨
      (t.candidates hash).first ≠ (t.candidates hash).second ∧ t.size < 2 * slots) :
    ¬t.Blocked hash := by
  apply wellFormed.not_blocked_of_uncrowded
  have length_eq : (t.toList.map fun entry => t.candidates (s.hash entry.1)).length = t.size := by
    rw [List.length_map, wellFormed.size_eq]
  rcases few with few | ⟨apart, few⟩
  · left
    exact (rivals_le_length _ _).trans_lt (length_eq ▸ few)
  · exact uncrowded_of_length_lt apart (length_eq ▸ few)

/-! ### One insertion -/

/-- A table with one more entry at the end of the group at an index. Nothing else differs but the
recorded size. -/
structure AppendsAt (t : Table K V slots) (i : Nat) (entry : K × V) (t' : Table K V slots) :
    Prop where
  /-- The capacity is the same. -/
  capacity_eq : t'.capacity = t.capacity
  /-- So is the mask. -/
  mask_eq : t'.mask = t.mask
  /-- So is every other group. -/
  others : ∀ j, j ≠ i → t'.groups[j]? = t.groups[j]?
  /-- The group has its entries in their order, and the new one after them. -/
  appended : ∃ old new, t.groups[i]? = some old ∧ t'.groups[i]? = some new ∧
    new.toList = old.toList ++ [entry]

theorem Stores.appendsAt {change : Edit K V slots} (stores : t.Stores hash key value change)
    (wellFormed : t.WellFormed s) (live : key ≠ Key.vacant) (n : Nat) :
    AppendsAt t (t.chosen hash) (key, value) (t.edit change n) where
  capacity_eq := capacity_edit ..
  mask_eq := mask_edit ..
  others := by
    intro j other
    rw [← stores.index_eq] at other
    exact Array.getElem?_setIfInBounds_ne (Ne.symm other)
  appended := by
    rw [← stores.index_eq]
    refine ⟨_, change.group, Array.getElem?_eq_getElem stores.inRange, ?_,
      stores.toList_group wellFormed live⟩
    exact Array.getElem?_setIfInBounds_self_of_lt stores.inRange

/-- An insertion with room stores its entry and does nothing else. -/
theorem WellFormed.insert_of_not_blocked (wellFormed : t.WellFormed s) (live : key ≠ Key.vacant)
    (open' : ¬t.Blocked (s.hash key)) (value : V) :
    (t.insert s key value).result = .ok () ∧
      AppendsAt t (t.chosen (s.hash key)) (key, value) (t.insert s key value).table := by
  obtain ⟨change, decided, stores⟩ := wellFormed.exists_stores open' key value
  have insert_eq : t.insert s key value = ⟨.ok (), t.edit change (t.size + 1)⟩ := by
    rw [insert, if_neg live, insertLoop_of_room decided]
  rw [insert_eq]
  exact ⟨rfl, stores.appendsAt wellFormed live _⟩

/-- Growth doubles the capacity once or more. -/
theorem WellFormed.exists_doublings_grown (wellFormed : t.WellFormed s)
    (grew : t.grown s = .ok t') : ∃ j, 1 ≤ j ∧ t'.capacity = t.capacity * 2 ^ j := by
  have enlargement := wellFormed.enlargement_grow
  rw [Table.grow, grew] at enlargement
  cases enlargement with
  | returned j least _ _ enlarges => exact ⟨j, least.positive, enlarges.capacity_eq⟩

/-- An insertion doubles the capacity some number of times, and at least once if it returns without
having found room at first. -/
theorem WellFormed.exists_doublings_insertLoop (wellFormed : t.WellFormed s) (key : K) (value : V) :
    ∃ j, (insertLoop s key value t).table.capacity = t.capacity * 2 ^ j ∧
      (t.Blocked (s.hash key) → (insertLoop s key value t).result = .ok () → 1 ≤ j) := by
  -- The doublings of one growth come to those of the growths after it.
  fun_induction insertLoop s key value t with
  | case1 t fault failed => exact absurd failed (wellFormed.placement_ne_error _ key value fault)
  | case2 t change decided =>
    refine ⟨0, by simp, fun blocked => ?_⟩
    rw [(wellFormed.placement_eq_none_iff _ key value).mpr blocked] at decided
    cases decided
  | case3 t noRoom fault failed => exact ⟨0, by simp, fun _ returned => by cases returned⟩
  | case4 t noRoom larger grew ih =>
    obtain ⟨i, positive, grown_eq⟩ := wellFormed.exists_doublings_grown grew
    obtain ⟨j, capacity_eq, -⟩ := ih (wellFormed.of_grown grew).1
    refine ⟨i + j, ?_, fun _ _ => Nat.le_add_right_of_le positive⟩
    rw [capacity_eq, grown_eq, Nat.mul_assoc, Nat.pow_add]

/-- An insertion that returns has stored its entry beside those there were. -/
theorem WellFormed.insert_of_returned (wellFormed : t.WellFormed s)
    (returned : (t.insert s key value).result = .ok ()) :
    (t.insert s key value).table.toList.Perm ((key, value) :: t.toList) ∧
      (t.insert s key value).table.size = t.size + 1 := by
  have insertion := wellFormed.insertion_insert key value
  generalize t.insert s key value = update at insertion returned
  cases insertion with
  | refused => cases returned
  | stored _ wellFormed' perm =>
    refine ⟨perm, ?_⟩
    rw [wellFormed'.size_eq, wellFormed.size_eq]
    exact perm.length_eq
  | stuck => cases returned

/-! ### The capacity along a run -/

theorem fillAt_of_groupAt {i : Nat} {g : Group K V slots} (found : t.groupAt i = .ok g) :
    t.fillAt i = g.fill := by
  unfold groupAt at found
  by_cases beyond : t.mask.toNat < i
  · rw [if_pos beyond] at found
    cases found
  · rw [if_neg beyond] at found
    cases present : t.groups[i]? with
    | none =>
      rw [present] at found
      cases found
    | some g' =>
      rw [present] at found
      cases found
      rw [fillAt, present]
      rfl

/-- A target is missing only where both candidates are full. -/
theorem blocked_of_target (missing : t.target hash = .ok none) : t.Blocked hash := by
  unfold target candidateGroups at missing
  rw [Blocked]
  by_cases powerOfTwo : t.capacity.isPowerOfTwo
  · rw [if_neg (not_not_intro powerOfTwo)] at missing
    cases first_eq : t.groupAt (t.candidates hash).first with
    | error fault => simp [first_eq] at missing
    | ok first =>
      cases second_eq : t.groupAt (t.candidates hash).second with
      | error fault => simp [first_eq, second_eq] at missing
      | ok second =>
        rw [fillAt_of_groupAt first_eq, fillAt_of_groupAt second_eq]
        by_contra open'
        simp only [first_eq, second_eq, if_neg open'] at missing
        split at missing <;> cases missing
  · rw [if_pos powerOfTwo] at missing
    cases missing

/-- A placement that finds no room has found both candidates full, whatever the table is like. -/
theorem blocked_of_placement (noRoom : t.placement hash key value = .ok none) :
    t.Blocked hash := by
  unfold placement at noRoom
  cases aimed : t.target hash with
  | error fault => simp [aimed] at noRoom
  | ok free? =>
    cases free? with
    | none => exact blocked_of_target aimed
    | some p =>
      -- A position that is free takes the entry, or a condition of the storing is violated.
      rw [aimed] at noRoom
      dsimp only at noRoom
      cases held : t.groupAt p.group with
      | error fault => simp [held] at noRoom
      | ok g =>
        cases pushed : g.push p.slot key value with
        | error fault => simp [held, pushed] at noRoom
        | ok g' => simp [held, pushed] at noRoom

/-- An operation that does not call for growth leaves the capacity. -/
theorem capacity_perform_eq (acc : Accumulation V A) {op : Operation K V}
    (calm : ¬op.Grows s t) (counter : UInt64) :
    (op.perform s acc ⟨t, counter⟩).state.table.capacity = t.capacity := by
  cases op with
  | insert key value =>
    show (t.insert s key value).table.capacity = t.capacity
    unfold insert
    by_cases vacant : key = Key.vacant
    · rw [if_pos vacant]
    · rw [if_neg vacant]
      cases decided : t.placement (s.hash key) key value with
      | error fault => rw [insertLoop_of_fault decided]
      | ok change? =>
        cases change? with
        | none => exact absurd ⟨vacant, blocked_of_placement decided⟩ calm
        | some change =>
          rw [insertLoop_of_room decided]
          exact capacity_edit ..
  | erase key => exact capacity_erase t key
  | eraseUnchecked key => exact capacity_eraseUnchecked t key
  | grow => exact absurd trivial calm
  | clear => exact capacity_clear t
  | copy =>
    rw [Operation.perform_copy]
    rfl
  | _ => rfl

/-- A run does not make a table smaller. -/
theorem capacity_le_run (acc : Accumulation V A) (calls : List (Call K V))
    (t : Table K V slots) : t.capacity ≤ (Call.run s acc calls t).2.capacity := by
  induction calls generalizing t with
  | nil => exact Nat.le_refl _
  | cons call calls ih =>
    have step : t.capacity ≤ (call.perform s acc t).state.table.capacity :=
      capacity_perform (P := (t.capacity ≤ ·)) (Nat.le_refl _)
        (fun _ _ le grew => Nat.le_trans le (Nat.le_of_lt (capacity_grown grew).1)) acc
        call.operation call.counter
    exact step.trans (ih _)

/-- Only a call for growth changes the capacity along a run. -/
theorem capacity_run_concat_eq (acc : Accumulation V A) (before : List (Call K V))
    {call : Call K V} (calm : ¬call.operation.Grows s (Call.run s acc before t).2) :
    (Call.run s acc (before ++ [call]) t).2.capacity =
      (Call.run s acc before t).2.capacity := by
  rw [Call.run_append]
  exact capacity_perform_eq acc calm call.counter

/-- An insertion with room keeps the capacity and all other groups, and appends its entry to the
less full candidate of its key. One that finds both candidates full and returns has doubled the
capacity at least once. An insertion that returns has stored its entry beside the others. Along a
run the capacity does not decrease, and only calls for growth change it. So an insertion into a
table that has fewer entries than its candidates have slots does not change it. -/
theorem Reachable.insert_places (reachable : Reachable s t) (live : key ≠ Key.vacant) (value : V)
    (acc : Accumulation V A) :
    (t.fillAt (t.candidates (s.hash key)).first < slots ∨
          t.fillAt (t.candidates (s.hash key)).second < slots →
        (t.insert s key value).result = .ok () ∧
        AppendsAt t (t.chosen (s.hash key)) (key, value) (t.insert s key value).table) ∧
      (t.fillAt (t.candidates (s.hash key)).first = slots ∧
          t.fillAt (t.candidates (s.hash key)).second = slots →
        (t.insert s key value).result = .ok () →
          ∃ j, 1 ≤ j ∧ (t.insert s key value).table.capacity = t.capacity * 2 ^ j) ∧
      ((t.insert s key value).result = .ok () →
        (t.insert s key value).table.toList.Perm ((key, value) :: t.toList) ∧
          (t.insert s key value).table.size = t.size + 1) ∧
      (∀ before after : List (Call K V), (Call.run s acc before t).2.capacity ≤
        (Call.run s acc (before ++ after) t).2.capacity) ∧
      (∀ (before : List (Call K V)) (call : Call K V),
        (Call.run s acc (before ++ [call]) t).2.capacity ≠ (Call.run s acc before t).2.capacity →
          call.operation.Grows s (Call.run s acc before t).2) ∧
      (t.size < slots ∨ (t.candidates (s.hash key)).first ≠ (t.candidates (s.hash key)).second ∧
          t.size < 2 * slots →
        (t.insert s key value).table.capacity = t.capacity) := by
  have wellFormed := reachable.wellFormed
  refine ⟨?_, ?_, wellFormed.insert_of_returned, ?_, ?_, ?_⟩
  · intro room
    exact wellFormed.insert_of_not_blocked live ((t.not_blocked_iff _).mpr room) value
  · intro blocked returned
    rw [insert, if_neg live] at returned ⊢
    obtain ⟨j, capacity_eq, positive⟩ := wellFormed.exists_doublings_insertLoop key value
    exact ⟨j, positive blocked returned, capacity_eq⟩
  · intro before after
    rw [Call.run_append]
    exact capacity_le_run acc after _
  · intro before call changed
    by_contra calm
    exact changed (capacity_run_concat_eq acc before calm)
  · intro few
    have open' := wellFormed.not_blocked_of_size_lt few
    exact (wellFormed.insert_of_not_blocked live open' value).2.capacity_eq

/-- A key whose first candidate is vacant in the table of three entries and whose second is full. -/
def openKey : FixedInt (.unsigned 64) := ⟨2, by decide, by decide⟩

/-- A key whose candidates are both full there. -/
def blockedKey : FixedInt (.unsigned 64) := ⟨3, by decide, by decide⟩

/-- The one key is appended to its first candidate. The other is stored after growth. -/
theorem insert_places_detoured :
    Reachable doublingScheme detoured ∧
      AppendsAt detoured 4 (openKey, 7) (detoured.insert doublingScheme openKey 7).table ∧
      detoured.Blocked (doublingScheme.hash blockedKey) ∧
      (∃ j, 1 ≤ j ∧ (detoured.insert doublingScheme blockedKey 8).table.capacity =
        detoured.capacity * 2 ^ j) ∧
      (detoured.insert doublingScheme blockedKey 8).table.toList.Perm
        ((blockedKey, 8) :: detoured.toList) := by
  have room : detoured.fillAt (detoured.candidates (doublingScheme.hash openKey)).first < 1 := by
    decide +kernel
  have chosen_eq : detoured.chosen (doublingScheme.hash openKey) = 4 := by decide +kernel
  have blocked : detoured.Blocked (doublingScheme.hash blockedKey) := by decide +kernel
  have returned : (detoured.insert doublingScheme blockedKey 8).result = .ok () := by
    decide +kernel
  have open_live : openKey ≠ Key.vacant := by decide
  have blocked_live : blockedKey ≠ Key.vacant := by decide
  obtain ⟨appends, -⟩ := reachable_detoured.insert_places open_live 7 Accumulation.listing
  obtain ⟨-, grows, stores, -⟩ :=
    reachable_detoured.insert_places blocked_live 8 Accumulation.listing
  have appended := (appends (Or.inl room)).2
  rw [chosen_eq] at appended
  exact ⟨reachable_detoured, appended, blocked, grows blocked returned, (stores returned).1⟩

end Table

end TwoChoice
