import TwoChoice.Proofs.Likeness

/-!
# Recovery from faults

An operation that fails leaves the table that it was given, except for an insertion whose growth
fails after an earlier growth did not. What that leaves is the table after the growths that returned
and no other change, so the entries and their number are those there were. Whatever is done later is
then seen as if the operation had not been attempted, up to the number of groups and to which of
several entries of a key comes first.

## Main Definitions

* `Operation.Inserts` — an operation that stores an entry
* `Table.Intact` — a table with the entries of another, and what calls on it show

## Main Statements

* `Table.table_perform_of_error` — what a failing operation leaves, other than an insertion
* `Table.WellFormed.exists_growths` — a failing insertion is some growths that return
* `Table.Reachable.intact_of_fault` — what a failing operation leaves of a reachable table
-/

namespace TwoChoice

universe u v w x y

variable {K : Type u} {V : Type v} {slots : Nat} {A : Type w} [Key K]

/-- An operation that stores an entry. The vacant key is the key of none. -/
def Operation.Inserts : Operation K V → Prop
  | insert key _ => key ≠ Key.vacant
  | _ => False

/-- What is made of a result fails only if the result does. -/
theorem eq_error_of_map {α : Type x} {β : Type y} {result : Except Fault α} {f : α → β}
    {fault : Fault} (failed : result.map f = .error fault) : result = .error fault := by
  cases result with
  | ok a => cases failed
  | error fault' =>
    cases failed
    rfl

variable [DecidableEq K]

namespace Table

variable {s : Scheme K} {t t' : Table K V slots} {key : K} {value : V} {fault : Fault}
variable {op : Operation K V} {counter : UInt64}

/-! ### Operations other than insertions -/

theorem table_erase_of_error (failed : (t.erase s key).result = .error fault) :
    (t.erase s key).table = t := by
  unfold erase at failed ⊢
  cases located : (t.locate key (s.hash key) 0).result with
  | error fault' => rfl
  | ok place =>
    cases place with
    | none => rfl
    | some p =>
      rw [located] at failed
      dsimp only at failed ⊢
      cases removal : t.removal p with
      | error fault' => rfl
      | ok change =>
        rw [removal] at failed
        cases failed

theorem table_eraseUnchecked_of_error (failed : (t.eraseUnchecked s key).result = .error fault) :
    (t.eraseUnchecked s key).table = t := by
  unfold eraseUnchecked at failed ⊢
  cases located : (t.locateUnchecked key (s.hash key) 0).result with
  | error fault' => rfl
  | ok p =>
    rw [located] at failed
    dsimp only at failed ⊢
    cases removal : t.removal p with
    | error fault' => rfl
    | ok change =>
      rw [removal] at failed
      cases failed

theorem table_grow_of_error (failed : (t.grow s).result = .error fault) :
    (t.grow s).table = t := by
  unfold Table.grow at failed ⊢
  cases grew : t.grown s with
  | error fault' => rfl
  | ok larger =>
    rw [grew] at failed
    cases failed

/-- An operation that fails leaves the table that it was given, unless it stores an entry. -/
theorem table_perform_of_error {acc : Accumulation V A} (stores : ¬op.Inserts)
    (failed : (op.perform s acc ⟨t, counter⟩).answer = .error fault) :
    (op.perform s acc ⟨t, counter⟩).state.table = t := by
  cases op with
  | insert key value =>
    show (t.insert s key value).table = t
    rw [insert, if_pos (not_not.mp stores)]
  | erase key => exact table_erase_of_error (eq_error_of_map failed)
  | eraseUnchecked key => exact table_eraseUnchecked_of_error (eq_error_of_map failed)
  | grow => exact table_grow_of_error (eq_error_of_map failed)
  | clear => cases failed
  | copy =>
    rw [Operation.perform_copy]
    rfl
  | _ => rfl

/-! ### Insertions -/

/-- An insertion that fails leaves what some growths leave, all of which return. -/
theorem WellFormed.exists_growths (wellFormed : t.WellFormed s) (acc : Accumulation V A)
    (counter : UInt64) (failed : (insertLoop s key value t).result = .error fault) :
    ∃ n, (∀ o ∈ (Call.run s acc (List.replicate n ⟨.grow, counter⟩) t).1, o.answer = .ok .done) ∧
      (Call.run s acc (List.replicate n ⟨.grow, counter⟩) t).2 =
        (insertLoop s key value t).table := by
  -- The growths of the insertion are the growths of the run, one by one.
  fun_induction insertLoop s key value t with
  | case1 t fault' failed' =>
    exact absurd failed' (wellFormed.placement_ne_error _ key value fault')
  | case2 => cases failed
  | case3 => exact ⟨0, by simp [Call.run], rfl⟩
  | case4 t _ larger grew ih =>
    obtain ⟨n, returned, left⟩ := ih (wellFormed.of_grown grew).1 failed
    have grow_eq : t.grow s = ⟨.ok (), larger⟩ := by
      rw [Table.grow, grew]
    have step_eq : (⟨.grow, counter⟩ : Call K V).perform s acc t =
        ⟨.ok .done, ⟨larger, counter⟩⟩ := by
      show Step.updated counter (t.grow s) _ = _
      rw [grow_eq]
      rfl
    refine ⟨n + 1, ?_, ?_⟩
    · rw [List.replicate_succ, Call.run, step_eq]
      exact List.forall_mem_cons.mpr ⟨rfl, returned⟩
    · rw [List.replicate_succ, Call.run, step_eq]
      exact left

/-! ### What is intact -/

/-- A table with the entries of another, and what later calls on both of them show. -/
structure Intact (s : Scheme K) (acc : Accumulation V A) (t t' : Table K V slots) : Prop where
  /-- The invariant holds. -/
  slotInvariant : t'.SlotInvariant s
  /-- The entries are the same. -/
  perm : t'.toList.Perm t.toList
  /-- There are recorded to be equally many. -/
  size_eq : t'.size = t.size
  /-- If no key is stored twice, calls on both tables show the same, unless they overflow. -/
  seen_run_eq : ∀ (m : FiniteMap K V) (calls : List (Call K V)), t.Represents s m →
    m.AdmitsAll (calls.map Call.operation) →
    (∀ o ∈ (Call.run s acc calls t).1, ¬Overflows o.answer) →
    (∀ o ∈ (Call.run s acc calls t').1, ¬Overflows o.answer) →
      (Call.run s acc calls t').1.map Observation.seen =
        (Call.run s acc calls t).1.map Observation.seen
  /-- In any case calls by key tell the same of the keys. -/
  alike_run : ∀ calls : List (Call K V), (∀ call ∈ calls, call.operation.ByKey) →
    (∀ o ∈ (Call.run s acc calls t).1, ¬Overflows o.answer) →
    (∀ o ∈ (Call.run s acc calls t').1, ¬Overflows o.answer) →
      List.Forall₂ Observation.Alike (Call.run s acc calls t').1 (Call.run s acc calls t).1

/-- A well-formed table with the entries of another is intact. -/
theorem WellFormed.intact (wellFormed : t.WellFormed s) (wellFormed' : t'.WellFormed s)
    (perm : t'.toList.Perm t.toList) (acc : Accumulation V A) : Intact s acc t t' where
  slotInvariant := wellFormed'.slotInvariant
  perm := perm
  size_eq := by rw [wellFormed'.size_eq, wellFormed.size_eq, perm.length_eq]
  seen_run_eq := by
    intro m calls represents admits returns returns'
    have represents' : t'.Represents s m := ⟨wellFormed', perm.trans represents.perm⟩
    rw [(represents.run admits returns).1, (represents'.run admits returns').1]
  alike_run := by
    intro calls byKey returns returns'
    have alike : Alike s t' t := ⟨wellFormed', wellFormed, perm.map Prod.fst⟩
    exact (alike.run acc byKey returns' returns).1

/-- Whatever operation fails on a reachable table leaves it intact. It leaves the very table, unless
it was to store an entry; and then it leaves what some growths leave, all of which return. -/
theorem Reachable.intact_of_fault (reachable : Reachable s t) (acc : Accumulation V A)
    (failed : (op.perform s acc ⟨t, counter⟩).answer = .error fault) :
    (¬op.Inserts → (op.perform s acc ⟨t, counter⟩).state.table = t) ∧
      Intact s acc t (op.perform s acc ⟨t, counter⟩).state.table ∧
      ∃ n, (∀ o ∈ (Call.run s acc (List.replicate n ⟨.grow, counter⟩) t).1,
          o.answer = .ok .done) ∧
        (Call.run s acc (List.replicate n ⟨.grow, counter⟩) t).2 =
          (op.perform s acc ⟨t, counter⟩).state.table := by
  have wellFormed := reachable.wellFormed
  refine ⟨fun stores => table_perform_of_error stores failed, ?_⟩
  by_cases stores : op.Inserts
  · cases op with
    | insert key value =>
      have unfolded : t.insert s key value = insertLoop s key value t := if_neg stores
      have failed' := eq_error_of_map failed
      have insertion := wellFormed.insertion_insert key value
      have growths := wellFormed.exists_growths acc counter (unfolded ▸ failed')
      rw [← unfolded] at growths
      refine ⟨?_, growths⟩
      show Intact s acc t (t.insert s key value).table
      generalize t.insert s key value = update at insertion failed'
      cases insertion with
      | refused => exact wellFormed.intact wellFormed (List.Perm.refl _) acc
      | stored => cases failed'
      | stuck _ _ wellFormed' perm => exact wellFormed.intact wellFormed' perm acc
    | _ => exact absurd stores id
  · rw [table_perform_of_error stores failed]
    exact ⟨wellFormed.intact wellFormed (List.Perm.refl _) acc, 0, by simp [Call.run], rfl⟩

/-- The scheme that sends every key to one group, and has room for sixteen groups of one slot in one
allocation. -/
def cramped : Scheme ZeroVacant where
  hash _ := 0
  layout := ⟨4, 4, 0x400000000000000, 1⟩

/-- A table whose one group with an entry is full. -/
def crowded : Table ZeroVacant UInt64 1 :=
  (Operation.run cramped Accumulation.listing [.insert ⟨1⟩ 10] ⟨empty 8, 0⟩).2.table

/-- An insertion that grows once and then finds no allocation leaves the table with the entries
there were. -/
theorem intact_of_fault_crowded :
    (Reachable cramped crowded ∧
        ((Operation.insert ⟨2⟩ 20).perform cramped Accumulation.listing ⟨crowded, 0⟩).answer =
          .error .layoutOverflow) ∧
      crowded.capacity = 8 ∧ (crowded.insert cramped ⟨2⟩ 20).table.capacity = 16 ∧
      Intact cramped Accumulation.listing crowded (crowded.insert cramped ⟨2⟩ 20).table := by
  have made : (withGroups cramped 8 : Except Fault (Table ZeroVacant UInt64 1)) =
      .ok (empty 8) := withGroups_eq_of_le (by decide) (by decide)
  have reachable : Reachable cramped crowded :=
    Reachable.run Accumulation.listing (Reachable.made made) (by simp [Operation.Legal])
  have stuck : (crowded.insert cramped ⟨2⟩ 20).result = .error .layoutOverflow := by
    decide +kernel
  have failed : ((Operation.insert ⟨2⟩ 20).perform cramped Accumulation.listing
      ⟨crowded, 0⟩).answer = .error .layoutOverflow :=
    congrArg (Except.map fun _ => Answer.done) stuck
  exact ⟨⟨reachable, failed⟩, by decide +kernel, by decide +kernel,
    (reachable.intact_of_fault Accumulation.listing failed).2.1⟩

end Table

end TwoChoice
