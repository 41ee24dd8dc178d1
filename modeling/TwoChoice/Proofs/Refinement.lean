import Mathlib.Data.List.Nodup
import TwoChoice.FiniteMap
import TwoChoice.Proofs.Invariant

/-!
# Refinement to finite maps

A table in which no key is ever stored twice answers as a finite map does. The map says nothing of
groups, candidates or fills: two tables whose entries are the bindings of one map answer alike,
however badly their keys are hashed and wherever the entries lie.

## Main Definitions

* `FiniteMap.Admits` — calls that store only keys that are not bound yet
* `FiniteMap.answer`, `FiniteMap.after` — what a map answers, and what it is afterwards
* `FiniteMap.answers`, `FiniteMap.afterAll` — the same for operations one after another
* `Fault.IsOverflow` — a fault of a growth that does not return or of a full counter
* `Table.Represents` — the entries of a well-formed table are the bindings of a map

## Main Statements

* `Table.Represents.perform` — one operation of a table and of the map that it represents
* `Table.Represents.run` — runs of them
* `Table.seen_run_eq_answers` — a new table answers as an empty map does

## Design Notes

A map answers with the text of a fault rather than with the fault, since a text is what a caller
sees. Its answers are about single keys and about the number of bindings; the operations that report
on the groups of a table have no counterpart for it.

Erasing counts its comparisons on a counter of its own, which starts at zero. It is full only if two
groups have `2 ^ 64` slots between them; see `Table.Erasure.overflowed`.
-/

namespace TwoChoice

universe u v w x y

variable {K : Type u} {V : Type v} {slots : Nat} {A : Type w}

/-! ### Bindings -/

namespace FiniteMap

variable [DecidableEq K] {m : FiniteMap K V} {key : K} {value : V} {rest : List (K × V)}

/-- The value of a key is the one that it is bound to. -/
theorem value?_eq_some_iff : m.value? key = some value ↔ (key, value) ∈ m.bindings := by
  unfold value?
  constructor
  · intro bound
    obtain ⟨binding, found, rfl⟩ := Option.map_eq_some_iff.mp bound
    have same : binding.1 = key := by simpa using List.find?_some found
    rw [← same]
    exact List.mem_of_find?_eq_some found
  · intro mem
    cases found : m.bindings.find? fun binding => binding.1 = key with
    | none =>
      have absent := List.find?_eq_none.mp found (key, value) mem
      simp at absent
    | some binding =>
      have same : binding.1 = key := by simpa using List.find?_some found
      have only := List.inj_on_of_nodup_map m.nodup (List.mem_of_find?_eq_some found) mem same
      rw [only, Option.map_some]

/-- A key has no value exactly if it is not bound. -/
theorem value?_eq_none_iff : m.value? key = none ↔ ∀ value, (key, value) ∉ m.bindings := by
  rw [Option.eq_none_iff_forall_ne_some]
  exact forall_congr' fun value => not_congr value?_eq_some_iff

/-- Unbinding a key that is not bound changes nothing. -/
theorem bindings_unbind (unbound : m.value? key = none) :
    (m.unbind key).bindings = m.bindings := by
  refine List.filter_eq_self.mpr fun binding mem => decide_eq_true ?_
  rintro rfl
  exact value?_eq_none_iff.mp unbound binding.2 mem

/-- Binding a key that was not bound adds its binding to the others. -/
theorem bindings_bind (unbound : m.value? key = none) (value : V) :
    (m.bind key value).bindings = (key, value) :: m.bindings :=
  congrArg (List.cons (key, value)) (bindings_unbind unbound)

/-- Unbinding a key leaves the bindings beside its own. -/
theorem perm_unbind (bound : m.bindings.Perm ((key, value) :: rest)) :
    (m.unbind key).bindings.Perm rest := by
  have distinct : ((key, value) :: rest).map Prod.fst |>.Nodup :=
    (bound.map Prod.fst).nodup_iff.mp m.nodup
  have others : ∀ binding ∈ rest, binding.1 ≠ key := by
    rintro binding mem rfl
    exact (List.nodup_cons.mp distinct).1 (List.mem_map.mpr ⟨binding, mem, rfl⟩)
  have kept : (rest.filter fun binding => binding.1 ≠ key) = rest :=
    List.filter_eq_self.mpr fun binding mem => decide_eq_true (others binding mem)
  have filtered := bound.filter fun binding => binding.1 ≠ key
  rw [List.filter_cons_of_neg (by simp), kept] at filtered
  exact filtered

end FiniteMap

/-! ### Operations of a map -/

namespace FiniteMap

variable [Key K] [DecidableEq K]

/-- The operations that a map has an answer to. A key is stored only if it is not bound yet, and
is taken to be stored only if it is bound. -/
def Admits (m : FiniteMap K V) : Operation K V → Prop
  | .insert key _ => key ≠ Key.vacant ∧ m.value? key = none
  | .eraseUnchecked key => (m.value? key).isSome
  | .get _ | .contains _ | .find _ | .erase _ | .grow | .clear | .copy => True
  | _ => False

instance (m : FiniteMap K V) : DecidablePred m.Admits
  | .insert _ _ => inferInstanceAs (Decidable (_ ∧ _))
  | .eraseUnchecked _ => inferInstanceAs (Decidable (_ = _))
  | .get _ | .contains _ | .find _ | .erase _ | .grow | .clear | .copy => .isTrue trivial
  | .findUnchecked _ | .getIndexed _ _ | .findIndexed _ _ | .findIndexedUnchecked _ _ | .hashOf _
  | .prefetch _ | .sizes | .memoryUsage | .total | .describe | .describeIndented | .histogram
  | .chart | .statistics | .report => .isFalse id

/-- What a map answers to an operation. -/
def answer (m : FiniteMap K V) : Operation K V → Except String (Answer V A)
  | .get key => .ok (.lookup (m.value? key))
  | .contains key => .ok (.flag (m.value? key).isSome)
  | .find key =>
    match m.value? key with
    | some value => .ok (.value value)
    | none => .error "key not present in table"
  | .erase key => .ok (.flag (m.value? key).isSome)
  | _ => .ok .done

/-- What an operation makes of a map. -/
def after (m : FiniteMap K V) : Operation K V → FiniteMap K V
  | .insert key value => m.bind key value
  | .erase key | .eraseUnchecked key => m.unbind key
  | .clear => empty
  | _ => m

/-- The map admits operations one after another. -/
def AdmitsAll : FiniteMap K V → List (Operation K V) → Prop
  | _, [] => True
  | m, op :: ops => m.Admits op ∧ AdmitsAll (m.after op) ops

instance decidableAdmitsAll : (m : FiniteMap K V) → DecidablePred m.AdmitsAll
  | _, [] => .isTrue trivial
  | m, op :: ops =>
    have := decidableAdmitsAll (m.after op) ops
    inferInstanceAs (Decidable (m.Admits op ∧ _))

/-- What operations, one after another, make of a map. -/
def afterAll (m : FiniteMap K V) (ops : List (Operation K V)) : FiniteMap K V :=
  ops.foldl after m

/-- The answers to operations, one after another, each with the number of bindings afterwards. -/
def answers : FiniteMap K V → List (Operation K V) → List (Except String (Answer V A) × Nat)
  | _, [] => []
  | m, op :: ops => (m.answer op, (m.after op).size) :: answers (m.after op) ops

end FiniteMap

/-! ### What is seen of a table -/

/-- The fault is that of a growth that does not return, or of a counter that is full. -/
def Fault.IsOverflow : Fault → Prop
  | counterOverflow | capacityOverflow | layoutOverflow => True
  | _ => False

instance : DecidablePred Fault.IsOverflow
  | .counterOverflow | .capacityOverflow | .layoutOverflow => .isTrue trivial
  | .vacantKey | .missingKey | .totalOverflow | .breach _ => .isFalse id

/-- There is no result because a growth does not return or a counter is full. -/
def Overflows {α : Type x} (result : Except Fault α) : Prop :=
  ∃ fault, result = .error fault ∧ fault.IsOverflow

instance {α : Type x} : (result : Except Fault α) → Decidable (Overflows result)
  | .ok _ => .isFalse fun ⟨_, impossible, _⟩ => nomatch impossible
  | .error fault =>
    decidable_of_iff fault.IsOverflow
      ⟨fun overflow => ⟨fault, rfl, overflow⟩, fun ⟨_, same, overflow⟩ =>
        Except.error.inj same ▸ overflow⟩

theorem Overflows.map {α : Type x} {β : Type y} {result : Except Fault α}
    (overflows : Overflows result) (f : α → β) : Overflows (result.map f) := by
  obtain ⟨fault, rfl, overflow⟩ := overflows
  exact ⟨fault, rfl, overflow⟩

/-- What holds of a result unless it overflows holds if what is made of the result does not. -/
theorem of_not_overflows_map {α : Type x} {β : Type y} {result : Except Fault α} {f : α → β}
    {P : Prop} (returns : ¬Overflows (result.map f)) (either : P ∨ Overflows result) : P :=
  either.resolve_right fun overflows => returns (overflows.map f)

/-- What a map and a table have in common: the answer, with a text for a fault, and the size. -/
def Observation.seen (o : Observation V A) : Except String (Answer V A) × Nat :=
  (o.answer.mapError Fault.message, o.size)

variable [Key K] [DecidableEq K]

namespace Table

variable {s : Scheme K} {acc : Accumulation V A} {t : Table K V slots} {m : FiniteMap K V}
variable {key : K} {value : V}

/-- A table can be copied, unless there is no allocation for the copy. -/
theorem WellFormed.copy_eq_or (wellFormed : t.WellFormed s) :
    t.copy s = .ok t ∨ Overflows (t.copy s) := by
  rw [Table.copy_eq, allocate, if_neg (not_not.mpr wellFormed.isPowerOfTwo)]
  by_cases fits : s.layout.Fits slots t.capacity
  · rw [if_neg (not_not.mpr fits)]
    exact Or.inl rfl
  · rw [if_pos fits]
    exact Or.inr ⟨_, rfl, trivial⟩

/-- The entries of a well-formed table are the bindings of a map. -/
structure Represents (s : Scheme K) (t : Table K V slots) (m : FiniteMap K V) : Prop where
  /-- The table is well-formed. -/
  wellFormed : t.WellFormed s
  /-- Its entries are the bindings. -/
  perm : t.toList.Perm m.bindings

namespace Represents

theorem size_eq (represents : t.Represents s m) : t.size = m.size :=
  represents.wellFormed.size_eq.trans represents.perm.length_eq

theorem value?_of_entryAt? (represents : t.Represents s m) {p : Position}
    (stored : t.entryAt? p = some (key, value)) : m.value? key = some value :=
  FiniteMap.value?_eq_some_iff.mpr (represents.perm.mem_iff.mp (mem_toList_of_entryAt? stored))

theorem value?_of_notStored (represents : t.Represents s m)
    (notStored : ∀ value, (key, value) ∉ t.toList) : m.value? key = none :=
  FiniteMap.value?_eq_none_iff.mpr fun value mem =>
    notStored value (represents.perm.mem_iff.mpr mem)

/-- What a lookup goes on to is decided by the value that the map binds the key to, unless the
counter overflows. -/
theorem lookup {α : Type x} (represents : t.Represents s m) (key : K) (counter : UInt64)
    {next : Option Position → Except Fault α} (result : Option V → Except Fault α)
    (hit : ∀ p value, t.valueAt p = .ok value → next (some p) = result (some value))
    (miss : next none = result none) :
    ((t.locate key (s.hash key) counter).andThen next).result = result (m.value? key) ∨
      Overflows ((t.locate key (s.hash key) counter).andThen next).result := by
  have location := represents.wellFormed.location_locate key counter
  cases located : (t.locate key (s.hash key) counter).result with
  | error fault =>
    rw [located] at location
    cases location with
    | overflowed => exact Or.inr ⟨_, Counted.result_andThen_of_error located next, trivial⟩
  | ok place =>
    left
    rw [located] at location
    rw [Counted.result_andThen_of_ok located]
    cases location with
    | found p value stored =>
      rw [represents.value?_of_entryAt? stored]
      exact hit p value (represents.wellFormed.valueAt_eq stored)
    | absent notStored => rw [represents.value?_of_notStored notStored, miss]

theorem get (represents : t.Represents s m) (key : K) (counter : UInt64) :
    (t.get s key counter).result = .ok (m.value? key) ∨
      Overflows (t.get s key counter).result := by
  refine represents.lookup key counter .ok ?_ rfl
  intro p value told
  simp only [told]
  rfl

theorem contains (represents : t.Represents s m) (key : K) (counter : UInt64) :
    (t.contains s key counter).result = .ok (m.value? key).isSome ∨
      Overflows (t.contains s key counter).result :=
  represents.lookup key counter (fun value? => .ok value?.isSome) (fun _ _ _ => rfl) rfl

theorem find (represents : t.Represents s m) (key : K) (counter : UInt64) :
    (t.find s key counter).result = (m.value? key).elim (.error .missingKey) .ok ∨
      Overflows (t.find s key counter).result :=
  represents.lookup key counter (fun value? => value?.elim (.error .missingKey) .ok)
    (fun _ _ told => told) rfl

/-- Storing a key that is not bound binds it, unless growth fails. -/
theorem insert (represents : t.Represents s m) (live : key ≠ Key.vacant)
    (unbound : m.value? key = none) (value : V) :
    ((t.insert s key value).result = .ok () ∧
        (t.insert s key value).table.Represents s (m.bind key value)) ∨
      Overflows (t.insert s key value).result := by
  have insertion := represents.wellFormed.insertion_insert key value
  generalize t.insert s key value = update at insertion
  cases insertion with
  | refused vacant => exact absurd vacant live
  | stored _ wellFormed perm =>
    refine Or.inl ⟨rfl, wellFormed, ?_⟩
    rw [FiniteMap.bindings_bind unbound]
    exact perm.trans (represents.perm.cons _)
  | stuck _ cause =>
    right
    rcases cause with rfl | rfl
    · exact ⟨_, rfl, trivial⟩
    · exact ⟨_, rfl, trivial⟩

/-- Taking the entry at a position out unbinds its key. -/
theorem removes (represents : t.Represents s m) {p : Position} {change : Edit K V slots}
    (stored : t.entryAt? p = some (key, value)) (removes : t.Removes p change) :
    (t.edit change (t.size - 1)).Represents s (m.unbind key) where
  wellFormed := removes.wellFormed represents.wellFormed stored
  perm := by
    have old := removes.perm represents.wellFormed stored (t.size - 1)
    have bound := represents.perm.symm.trans old
    exact (FiniteMap.perm_unbind bound).symm

theorem erase (represents : t.Represents s m) (key : K) :
    ((t.erase s key).result = .ok (m.value? key).isSome ∧
        (t.erase s key).table.Represents s (m.unbind key)) ∨
      Overflows (t.erase s key).result := by
  have erasure := represents.wellFormed.erasure_erase key
  generalize t.erase s key = update at erasure
  cases erasure with
  | absent notStored =>
    have unbound := represents.value?_of_notStored notStored
    refine Or.inl ⟨by rw [unbound]; rfl, represents.wellFormed, ?_⟩
    rw [FiniteMap.bindings_unbind unbound]
    exact represents.perm
  | removed p value change stored removes =>
    have bound := represents.value?_of_entryAt? stored
    exact Or.inl ⟨by rw [bound]; rfl, represents.removes stored removes⟩
  | overflowed => exact Or.inr ⟨_, rfl, trivial⟩

theorem eraseUnchecked (represents : t.Represents s m) (bound : (m.value? key).isSome) :
    ((t.eraseUnchecked s key).result = .ok () ∧
        (t.eraseUnchecked s key).table.Represents s (m.unbind key)) ∨
      Overflows (t.eraseUnchecked s key).result := by
  obtain ⟨value, value?_eq⟩ := Option.isSome_iff_exists.mp bound
  have mem : (key, value) ∈ t.toList :=
    represents.perm.mem_iff.mpr (FiniteMap.value?_eq_some_iff.mp value?_eq)
  have erasure := represents.wellFormed.erasure_eraseUnchecked (key_ne_vacant_of_mem_toList mem)
  generalize t.eraseUnchecked s key = update at erasure
  cases erasure with
  | absent notStored => exact absurd mem (notStored value)
  | removed p value change stored removes =>
    exact Or.inl ⟨rfl, represents.removes stored removes⟩
  | overflowed => exact Or.inr ⟨_, rfl, trivial⟩

/-- Growth changes no binding, unless it fails. -/
theorem grow (represents : t.Represents s m) :
    ((t.grow s).result = .ok () ∧ (t.grow s).table.Represents s m) ∨
      Overflows (t.grow s).result := by
  unfold Table.grow
  cases grew : t.grown s with
  | error fault =>
    right
    rcases represents.wellFormed.grown_fault grew with rfl | rfl
    · exact ⟨_, rfl, trivial⟩
    · exact ⟨_, rfl, trivial⟩
  | ok larger =>
    obtain ⟨wellFormed, perm⟩ := represents.wellFormed.of_grown grew
    exact Or.inl ⟨rfl, wellFormed, perm.trans represents.perm⟩

/-- An operation that the map admits answers as the map does and leaves a table that represents
what it makes of the map, unless it overflows. -/
theorem perform (represents : t.Represents s m) {op : Operation K V} (admits : m.Admits op)
    (counter : UInt64) (returns : ¬Overflows (op.perform s acc ⟨t, counter⟩).answer) :
    (op.perform s acc ⟨t, counter⟩).answer.mapError Fault.message = m.answer op ∧
      (op.perform s acc ⟨t, counter⟩).state.table.Represents s (m.after op) := by
  cases op with
  | insert key value =>
    obtain ⟨stored, represents'⟩ :=
      of_not_overflows_map returns (represents.insert admits.1 admits.2 value)
    refine ⟨?_, represents'⟩
    simp only [Operation.perform, Step.updated, stored]
    rfl
  | get key =>
    have found := of_not_overflows_map returns (represents.get key counter)
    refine ⟨?_, represents⟩
    simp only [Operation.perform, Step.counted, found]
    rfl
  | contains key =>
    have found := of_not_overflows_map returns (represents.contains key counter)
    refine ⟨?_, represents⟩
    simp only [Operation.perform, Step.counted, found]
    rfl
  | find key =>
    have found := of_not_overflows_map returns (represents.find key counter)
    refine ⟨?_, represents⟩
    simp only [Operation.perform, Step.counted, found, FiniteMap.answer]
    cases m.value? key with
    | none => rfl
    | some value => rfl
  | erase key =>
    obtain ⟨erased, represents'⟩ := of_not_overflows_map returns (represents.erase key)
    refine ⟨?_, represents'⟩
    simp only [Operation.perform, Step.updated, erased]
    rfl
  | eraseUnchecked key =>
    obtain ⟨erased, represents'⟩ := of_not_overflows_map returns (represents.eraseUnchecked admits)
    refine ⟨?_, represents'⟩
    simp only [Operation.perform, Step.updated, erased]
    rfl
  | grow =>
    obtain ⟨grew, represents'⟩ := of_not_overflows_map returns represents.grow
    refine ⟨?_, represents'⟩
    simp only [Operation.perform, Step.updated, grew]
    rfl
  | clear =>
    refine ⟨rfl, represents.wellFormed.clear, ?_⟩
    show t.clear.toList.Perm []
    rw [toList_clear]
  | copy =>
    rw [Operation.perform_copy] at returns ⊢
    have copied := of_not_overflows_map returns represents.wellFormed.copy_eq_or
    refine ⟨?_, represents⟩
    simp only [Step.observed, copied]
    rfl
  | _ => exact absurd admits id

/-- Calls that a map admits, one after another, show what the map answers and leave a table that
represents what they make of the map. -/
theorem run {calls : List (Call K V)} (represents : t.Represents s m)
    (admits : m.AdmitsAll (calls.map Call.operation))
    (returns : ∀ o ∈ (Call.run s acc calls t).1, ¬Overflows o.answer) :
    (Call.run s acc calls t).1.map Observation.seen = m.answers (calls.map Call.operation) ∧
      (Call.run s acc calls t).2.Represents s (m.afterAll (calls.map Call.operation)) := by
  -- The table and the map take their steps together.
  induction calls generalizing t m with
  | nil => exact ⟨rfl, represents⟩
  | cons call calls ih =>
    obtain ⟨now, later⟩ := admits
    obtain ⟨answer, next⟩ := represents.perform now call.counter (returns _ List.mem_cons_self)
    obtain ⟨seen, last⟩ := ih next later fun o mem => returns o (List.mem_cons_of_mem _ mem)
    refine ⟨?_, last⟩
    have seenNow : (call.perform s acc t).observation.seen =
        (m.answer call.operation, (m.after call.operation).size) :=
      Prod.ext answer next.size_eq
    rw [Call.run, List.map_cons, List.map_cons, FiniteMap.answers, seenNow]
    exact congrArg _ seen

end Represents

/-- Calls on a new table that never store the vacant key or a key that is stored already show what
a map answers that is empty at first, and leave the bindings of that map. -/
theorem seen_run_eq_answers {groups : Nat} (made : withGroups s groups = .ok t)
    (acc : Accumulation V A) (calls : List (Call K V))
    (admits : FiniteMap.empty.AdmitsAll (calls.map Call.operation))
    (returns : ∀ o ∈ (Call.run s acc calls t).1, ¬Overflows o.answer) :
    (Call.run s acc calls t).1.map Observation.seen =
        FiniteMap.empty.answers (calls.map Call.operation) ∧
      (Call.run s acc calls t).2.toList.Perm
        (FiniteMap.empty.afterAll (calls.map Call.operation)).bindings := by
  obtain ⟨wellFormed, toList_eq⟩ := wellFormed_of_withGroups made
  have represents : t.Represents s FiniteMap.empty := ⟨wellFormed, by rw [toList_eq]; rfl⟩
  obtain ⟨seen, last⟩ := represents.run admits returns
  exact ⟨seen, last.perm⟩

/-- Calls that store two keys, take one of them out, grow, and look for the one taken out. -/
def missingCalls : List (Call ZeroVacant UInt64) :=
  [⟨.insert ⟨1⟩ 10, 0⟩, ⟨.insert ⟨2⟩ 20, 0⟩, ⟨.get ⟨1⟩, 0⟩, ⟨.eraseUnchecked ⟨1⟩, 5⟩, ⟨.grow, 5⟩,
    ⟨.find ⟨1⟩, 5⟩]

/-- A run that stores two keys, takes one of them out, grows, and misses the one taken out. -/
theorem seen_run_eq_answers_missing :
    (withGroups Scheme.ofWords 8 : Except Fault (Table ZeroVacant UInt64 1)) = .ok (empty 8) ∧
      (Call.run Scheme.ofWords Accumulation.listing missingCalls
          (empty 8 : Table ZeroVacant UInt64 1)).1.map Observation.seen =
        [(.ok .done, 1), (.ok .done, 2), (.ok (.lookup (some 10)), 2), (.ok .done, 1),
          (.ok .done, 1), (.error "key not present in table", 1)] := by
  have made : (withGroups Scheme.ofWords 8 : Except Fault (Table ZeroVacant UInt64 1)) =
      .ok (empty 8) := withGroups_eq_of_le (by decide) (by decide)
  have returns : ∀ o ∈ (Call.run Scheme.ofWords Accumulation.listing missingCalls
      (empty 8 : Table ZeroVacant UInt64 1)).1, ¬Overflows o.answer := by
    decide +kernel
  exact ⟨made, (seen_run_eq_answers made Accumulation.listing missingCalls (by decide) returns).1⟩

end Table

end TwoChoice
