import TwoChoice.Proofs.Refinement

/-!
# Tables with the same keys

Two tables that store the same keys, each as often as the other, may differ in their capacity, in
the order of their entries, and in which of several entries of a key comes first. Calls that name a
key and do not report on the groups cannot tell them apart by anything but the value of a key that
is stored more than once, and leave tables that again store the same keys.

## Main Definitions

* `Agree` — two results that are the same fault, or related
* `Answer.Alike`, `Observation.Alike` — two answers that tell the same of the keys
* `Operation.ByKey` — an operation that names a key and does not report on the groups
* `Table.Alike` — two well-formed tables with the same keys

## Main Statements

* `Table.Alike.perform` — one operation on both tables
* `Table.Alike.run` — the same calls on both tables
-/

namespace TwoChoice

universe u v w x y

/-! ### Results and answers -/

/-- Two results that are the same fault, or that are there and related. -/
def Agree {α : Type x} (R : α → α → Prop) : Except Fault α → Except Fault α → Prop
  | .ok a, .ok a' => R a a'
  | .error fault, .error fault' => fault = fault'
  | _, _ => False

/-- What is made of related results is related if the results are. -/
theorem Agree.map {α : Type x} {β : Type y} {R : α → α → Prop} {R' : β → β → Prop}
    {result result' : Except Fault α} {f : α → β} (agree : Agree R result result')
    (related : ∀ a a', R a a' → R' (f a) (f a')) : Agree R' (result.map f) (result'.map f) := by
  cases result with
  | ok a =>
    cases result' with
    | ok a' => exact related a a' agree
    | error fault' => exact agree
  | error fault =>
    cases result' with
    | ok a' => exact agree
    | error fault' => exact agree

theorem agree_of_eq {α : Type x} {R : α → α → Prop} {result result' : Except Fault α}
    (refl : ∀ a, R a a) (same : result = result') : Agree R result result' := by
  subst same
  cases result with
  | ok a => exact refl a
  | error fault => rfl

/-- A result does not overflow if what is made of it does not. -/
theorem not_overflows_of_map {α : Type x} {β : Type y} {result : Except Fault α} {f : α → β}
    (returns : ¬Overflows (result.map f)) : ¬Overflows result :=
  fun overflows => returns (overflows.map f)

/-- A growth that fails overflows. -/
theorem overflows_of_cause {α : Type x} {fault : Fault}
    (cause : fault = .capacityOverflow ∨ fault = .layoutOverflow) :
    Overflows (.error fault : Except Fault α) := by
  rcases cause with rfl | rfl
  · exact ⟨_, rfl, trivial⟩
  · exact ⟨_, rfl, trivial⟩

variable {K : Type u} {V : Type v} {slots : Nat} {A : Type w}

/-- Two answers that tell the same of the keys. The values of a key may differ, and so may the
number of groups. -/
def Answer.Alike : Answer V A → Answer V A → Prop
  | .done, .done => True
  | .lookup found, .lookup found' => found.isSome = found'.isSome
  | .value _, .value _ => True
  | .flag told, .flag told' => told = told'
  | .hash word, .hash word' => word = word'
  | .sizes size isEmpty _, .sizes size' isEmpty' _ => size = size' ∧ isEmpty = isEmpty'
  | _, _ => False

/-- Two observations that tell the same of the keys. -/
structure Observation.Alike (o o' : Observation V A) : Prop where
  /-- The answers do. -/
  answer : Agree Answer.Alike o.answer o'.answer
  /-- There are equally many entries. -/
  size_eq : o.size = o'.size

variable [Key K]

/-- An operation that names a key, if any, and does not report on the groups. -/
def Operation.ByKey : Operation K V → Prop
  | findUnchecked key | eraseUnchecked key => key ≠ Key.vacant
  | insert _ _ | get _ | contains _ | find _ | erase _ | hashOf _ | prefetch _ | grow | clear | copy
  | sizes => True
  | _ => False

variable [DecidableEq K]

namespace Table

/-- A growth that does not overflow returns. -/
theorem WellFormed.grow_eq_ok {s : Scheme K} {t : Table K V slots} (wellFormed : t.WellFormed s)
    (returns : ¬Overflows (t.grow s).result) : (t.grow s).result = .ok () := by
  rcases wellFormed.grow_cases with ⟨fault, cause, grow_eq⟩ | ⟨larger, -, -, -, grow_eq⟩
  · rw [grow_eq] at returns
    exact absurd (overflows_of_cause cause) returns
  · rw [grow_eq]

/-! ### Two tables -/

/-- Two well-formed tables with the same keys. -/
structure Alike (s : Scheme K) (t t' : Table K V slots) : Prop where
  /-- The first table is well-formed. -/
  left : t.WellFormed s
  /-- So is the second. -/
  right : t'.WellFormed s
  /-- Their entries have the same keys. -/
  perm : (t.toList.map Prod.fst).Perm (t'.toList.map Prod.fst)

namespace Alike

variable {s : Scheme K} {t t' : Table K V slots} {key : K}

theorem size_eq (alike : Alike s t t') : t.size = t'.size := by
  have length_eq := alike.perm.length_eq
  rwa [List.length_map, List.length_map, ← alike.left.size_eq, ← alike.right.size_eq] at length_eq

/-- A key is stored in the second table if it is stored in the first. -/
theorem exists_of_mem (alike : Alike s t t') {value : V} (stored : (key, value) ∈ t.toList) :
    ∃ value', (key, value') ∈ t'.toList := by
  have mem : key ∈ t'.toList.map Prod.fst :=
    alike.perm.mem_iff.mp (List.mem_map.mpr ⟨_, stored, rfl⟩)
  obtain ⟨entry, stored', rfl⟩ := List.mem_map.mp mem
  exact ⟨entry.2, stored'⟩

theorem symm (alike : Alike s t t') : Alike s t' t :=
  ⟨alike.right, alike.left, alike.perm.symm⟩

/-! ### Lookups -/

/-- Looking for a key ends in the same way in both tables, unless the counter overflows. -/
theorem location {α : Type y} {β : Type x} {miss : Except Fault α} {hit hit' : Position → α}
    {result result' : Except Fault α} {counter : UInt64} {next next' : α → Except Fault β}
    {R : β → β → Prop} (alike : Alike s t t')
    (location : Location t key counter miss hit result)
    (location' : Location t' key counter miss hit' result')
    (misses : Agree R (miss.bind next) (miss.bind next'))
    (hits : ∀ p p' value value', t.valueAt p = .ok value → t'.valueAt p' = .ok value' →
      Agree R (next (hit p)) (next' (hit' p')))
    (returns : ¬Overflows (result.bind next)) (returns' : ¬Overflows (result'.bind next')) :
    Agree R (result.bind next) (result'.bind next') := by
  cases location with
  | absent notStored =>
    cases location' with
    | absent => exact misses
    | found p' value' stored' =>
      obtain ⟨value, stored⟩ := alike.symm.exists_of_mem (mem_toList_of_entryAt? stored')
      exact absurd stored (notStored value)
    | overflowed => exact absurd ⟨_, rfl, trivial⟩ returns'
  | found p value stored =>
    cases location' with
    | absent notStored' =>
      obtain ⟨value', stored'⟩ := alike.exists_of_mem (mem_toList_of_entryAt? stored)
      exact absurd stored' (notStored' value')
    | found p' value' stored' =>
      exact hits p p' value value' (alike.left.valueAt_eq stored) (alike.right.valueAt_eq stored')
    | overflowed => exact absurd ⟨_, rfl, trivial⟩ returns'
  | overflowed => exact absurd ⟨_, rfl, trivial⟩ returns

/-- What lookups of a key go on to is related if it is after a hit and after a miss. -/
theorem lookup {β : Type x} {counter : UInt64} {next next' : Option Position → Except Fault β}
    {R : β → β → Prop} (alike : Alike s t t') (misses : Agree R (next none) (next' none))
    (hits : ∀ p p' value value', t.valueAt p = .ok value → t'.valueAt p' = .ok value' →
      Agree R (next (some p)) (next' (some p')))
    (returns : ¬Overflows ((t.locate key (s.hash key) counter).andThen next).result)
    (returns' : ¬Overflows ((t'.locate key (s.hash key) counter).andThen next').result) :
    Agree R ((t.locate key (s.hash key) counter).andThen next).result
      ((t'.locate key (s.hash key) counter).andThen next').result := by
  rw [Counted.result_andThen] at returns returns' ⊢
  rw [Counted.result_andThen]
  exact alike.location (alike.left.location_locate key counter)
    (alike.right.location_locate key counter) misses hits returns returns'

/-- So is what follows lookups of a key that is taken to be stored. -/
theorem lookupUnchecked {β : Type x} {counter : UInt64} {next next' : Position → Except Fault β}
    {R : β → β → Prop} (alike : Alike s t t') (live : key ≠ Key.vacant)
    (hits : ∀ p p' value value', t.valueAt p = .ok value → t'.valueAt p' = .ok value' →
      Agree R (next p) (next' p'))
    (returns : ¬Overflows ((t.locateUnchecked key (s.hash key) counter).andThen next).result)
    (returns' : ¬Overflows ((t'.locateUnchecked key (s.hash key) counter).andThen next').result) :
    Agree R ((t.locateUnchecked key (s.hash key) counter).andThen next).result
      ((t'.locateUnchecked key (s.hash key) counter).andThen next').result := by
  rw [Counted.result_andThen] at returns returns' ⊢
  rw [Counted.result_andThen]
  exact alike.location (alike.left.location_locateUnchecked live counter)
    (alike.right.location_locateUnchecked live counter) rfl hits returns returns'

/-! ### Updates -/

/-- An entry stored in both tables is stored in both, unless growth fails. -/
theorem insertion {value : V} {u u' : Updated K V slots Unit} (alike : Alike s t t')
    (insertion : Insertion s t key value u) (insertion' : Insertion s t' key value u')
    (returns : ¬Overflows u.result) (returns' : ¬Overflows u'.result) :
    u.result = u'.result ∧ Alike s u.table u'.table := by
  cases insertion with
  | refused vacant =>
    cases insertion' with
    | refused => exact ⟨rfl, alike⟩
    | stored live => exact absurd vacant live
    | stuck live => exact absurd vacant live
  | stored live wellFormed perm =>
    cases insertion' with
    | refused vacant => exact absurd vacant live
    | stored _ wellFormed' perm' =>
      refine ⟨rfl, wellFormed, wellFormed', ?_⟩
      exact ((perm.map Prod.fst).trans (alike.perm.cons key)).trans (perm'.map Prod.fst).symm
    | stuck _ cause => exact absurd (overflows_of_cause cause) returns'
  | stuck _ cause => exact absurd (overflows_of_cause cause) returns

/-- A key erased from both tables is erased from both, unless the comparisons cannot be counted. -/
theorem erasure {α : Type x} {miss : Except Fault α} {hit : α} {u u' : Updated K V slots α}
    (alike : Alike s t t') (erasure : Erasure t key miss hit u)
    (erasure' : Erasure t' key miss hit u') (returns : ¬Overflows u.result)
    (returns' : ¬Overflows u'.result) :
    u.result = u'.result ∧ Alike s u.table u'.table := by
  cases erasure with
  | absent notStored =>
    cases erasure' with
    | absent => exact ⟨rfl, alike⟩
    | removed p' value' change' stored' =>
      obtain ⟨value, stored⟩ := alike.symm.exists_of_mem (mem_toList_of_entryAt? stored')
      exact absurd stored (notStored value)
    | overflowed => exact absurd ⟨_, rfl, trivial⟩ returns'
  | removed p value change stored removes =>
    cases erasure' with
    | absent notStored' =>
      obtain ⟨value', stored'⟩ := alike.exists_of_mem (mem_toList_of_entryAt? stored)
      exact absurd stored' (notStored' value')
    | removed p' value' change' stored' removes' =>
      refine ⟨rfl, removes.wellFormed alike.left stored,
        removes'.wellFormed alike.right stored', ?_⟩
      have left := (removes.perm alike.left stored (t.size - 1)).map Prod.fst
      have right := (removes'.perm alike.right stored' (t'.size - 1)).map Prod.fst
      exact ((left.symm.trans alike.perm).trans right).cons_inv
    | overflowed => exact absurd ⟨_, rfl, trivial⟩ returns'
  | overflowed => exact absurd ⟨_, rfl, trivial⟩ returns

/-- Growth leaves the keys, also if it fails. -/
theorem grow (wellFormed : t.WellFormed s) : Alike s t (t.grow s).table := by
  rcases wellFormed.grow_cases with ⟨fault, -, grow_eq⟩ | ⟨larger, -, wellFormed', perm, grow_eq⟩
  · rw [grow_eq]
    exact ⟨wellFormed, wellFormed, List.Perm.refl _⟩
  · rw [grow_eq]
    exact ⟨wellFormed, wellFormed', (perm.map Prod.fst).symm⟩

theorem trans {t'' : Table K V slots} (alike : Alike s t t') (alike' : Alike s t' t'') :
    Alike s t t'' :=
  ⟨alike.left, alike'.right, alike.perm.trans alike'.perm⟩

/-! ### Operations and runs -/

/-- An operation by key tells the same of the keys of both tables and leaves the same keys, unless
it overflows. -/
theorem perform (alike : Alike s t t') (acc : Accumulation V A) {op : Operation K V}
    (byKey : op.ByKey) (counter : UInt64)
    (returns : ¬Overflows (op.perform s acc ⟨t, counter⟩).answer)
    (returns' : ¬Overflows (op.perform s acc ⟨t', counter⟩).answer) :
    Agree Answer.Alike (op.perform s acc ⟨t, counter⟩).answer
        (op.perform s acc ⟨t', counter⟩).answer ∧
      Alike s (op.perform s acc ⟨t, counter⟩).state.table
        (op.perform s acc ⟨t', counter⟩).state.table := by
  cases op with
  | insert key value =>
    obtain ⟨same, next⟩ := alike.insertion (alike.left.insertion_insert key value)
      (alike.right.insertion_insert key value) (not_overflows_of_map returns)
      (not_overflows_of_map returns')
    exact ⟨(agree_of_eq (fun _ => rfl) same).map fun _ _ _ => trivial, next⟩
  | get key =>
    refine ⟨Agree.map (R := fun (found found' : Option V) => found.isSome = found'.isSome) ?_
      fun _ _ equal => equal, alike⟩
    refine alike.lookup rfl ?_ (not_overflows_of_map returns)
      (not_overflows_of_map returns')
    intro p p' value value' told told'
    simp only [told, told']
    rfl
  | contains key =>
    refine ⟨Agree.map (R := Eq) ?_ fun _ _ same => same, alike⟩
    exact alike.lookup rfl (fun _ _ _ _ _ _ => rfl) (not_overflows_of_map returns)
      (not_overflows_of_map returns')
  | find key =>
    refine ⟨Agree.map (R := fun _ _ => True) ?_ fun _ _ _ => trivial, alike⟩
    refine alike.lookup rfl ?_ (not_overflows_of_map returns)
      (not_overflows_of_map returns')
    intro p p' value value' told told'
    simp only [told, told']
    trivial
  | findUnchecked key =>
    refine ⟨Agree.map (R := fun _ _ => True) ?_ fun _ _ _ => trivial, alike⟩
    refine alike.lookupUnchecked byKey ?_ (not_overflows_of_map returns)
      (not_overflows_of_map returns')
    intro p p' value value' told told'
    rw [told, told']
    trivial
  | erase key =>
    obtain ⟨same, next⟩ := alike.erasure (alike.left.erasure_erase key)
      (alike.right.erasure_erase key) (not_overflows_of_map returns)
      (not_overflows_of_map returns')
    exact ⟨Agree.map (R := Eq) (agree_of_eq (fun _ => rfl) same) fun _ _ equal => equal, next⟩
  | eraseUnchecked key =>
    obtain ⟨same, next⟩ := alike.erasure (alike.left.erasure_eraseUnchecked byKey)
      (alike.right.erasure_eraseUnchecked byKey) (not_overflows_of_map returns)
      (not_overflows_of_map returns')
    exact ⟨(agree_of_eq (fun _ => rfl) same).map fun _ _ _ => trivial, next⟩
  | hashOf key => exact ⟨rfl, alike⟩
  | prefetch key =>
    refine ⟨?_, alike⟩
    show Agree Answer.Alike ((t.prefetch s key).map .hash) ((t'.prefetch s key).map .hash)
    rw [prefetch, prefetch, alike.left.candidateGroups_eq, alike.right.candidateGroups_eq]
    rfl
  | grow =>
    refine ⟨?_, ((grow alike.left).symm.trans alike).trans (grow alike.right)⟩
    have same : (t.grow s).result = (t'.grow s).result := by
      rw [alike.left.grow_eq_ok (not_overflows_of_map returns),
        alike.right.grow_eq_ok (not_overflows_of_map returns')]
    exact (agree_of_eq (fun _ => rfl) same).map fun _ _ _ => trivial
  | clear =>
    refine ⟨trivial, alike.left.clear, alike.right.clear, ?_⟩
    show (t.clear.toList.map Prod.fst).Perm (t'.clear.toList.map Prod.fst)
    rw [toList_clear, toList_clear]
  | copy =>
    rw [Operation.perform_copy] at returns returns' ⊢
    rw [Operation.perform_copy]
    have copied := of_not_overflows_map returns alike.left.copy_eq_or
    have copied' := of_not_overflows_map returns' alike.right.copy_eq_or
    refine ⟨?_, alike⟩
    simp only [Step.observed, copied, copied']
    trivial
  | sizes =>
    refine ⟨⟨alike.size_eq, ?_⟩, alike⟩
    rw [isEmpty, isEmpty, alike.size_eq]
  | _ => exact absurd byKey id

/-- So do calls by key, one after another, as long as none of them overflows. -/
theorem run {calls : List (Call K V)} (alike : Alike s t t') (acc : Accumulation V A)
    (byKey : ∀ call ∈ calls, call.operation.ByKey)
    (returns : ∀ o ∈ (Call.run s acc calls t).1, ¬Overflows o.answer)
    (returns' : ∀ o ∈ (Call.run s acc calls t').1, ¬Overflows o.answer) :
    List.Forall₂ Observation.Alike (Call.run s acc calls t).1 (Call.run s acc calls t').1 ∧
      Alike s (Call.run s acc calls t).2 (Call.run s acc calls t').2 := by
  -- Both tables take their steps together.
  induction calls generalizing t t' with
  | nil => exact ⟨.nil, alike⟩
  | cons call calls ih =>
    obtain ⟨agree, next⟩ := alike.perform acc (byKey call List.mem_cons_self) call.counter
      (returns _ List.mem_cons_self) (returns' _ List.mem_cons_self)
    obtain ⟨rest, last⟩ := ih next (fun later mem => byKey later (List.mem_cons_of_mem call mem))
      (fun o mem => returns o (List.mem_cons_of_mem _ mem))
      fun o mem => returns' o (List.mem_cons_of_mem _ mem)
    exact ⟨.cons ⟨agree, next.size_eq⟩ rest, last⟩

end Alike

end Table

end TwoChoice
