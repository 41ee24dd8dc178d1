import Mathlib.Algebra.Ring.Nat
import TwoChoice.Proofs.Answers
import TwoChoice.Proofs.Invariant
import TwoChoice.Table.Batch

/-!
# Lookups in batches

A batch looks keys up one after another under one counter and ends at the first fault. Its cost and
its result are those of its lookups, up to the first that fails. That all keys are hashed before the
first of them is looked up makes no difference: the batch answers as lookups by key do, key by key,
and as a run of such operations does.

## Main Definitions

* `Counted.costUpTo` — the comparisons of some lookups, up to the first that fails
* `Table.required` — what a lookup answers of a key that should be stored

## Main Statements

* `Counted.CountedAs.each` — lookups make their comparisons one after another
* `Table.mapM_answer_run` — a run of lookups answers as they do one after another
* `Table.WellFormed.findAll_inTurn`, `Table.WellFormed.getAll_inTurn` — batches answer as lookups by
  key do, key by key
-/

namespace TwoChoice

universe u v w x y

/-! ### One after another -/

namespace Counted

variable {α : Type u} {β : Type v} {γ : Type w} {next : α → UInt64 → Counted β}
variable {cost : α → Nat} {result : α → Except Fault β} {counter : UInt64}

/-- What is looked up for the images of some elements is looked up for the elements. -/
theorem each_map (next : α → UInt64 → Counted β) (f : γ → α) (l : List γ) (counter : UInt64) :
    each next (l.map f) counter = each (fun c => next (f c)) l counter := by
  induction l generalizing counter with
  | nil => rfl
  | cons c rest ih => simp only [List.map_cons, each, ih]

/-- If the first lookup fails, nothing else is looked up. -/
theorem each_of_error {a : α} {fault : Fault} (failed : (next a counter).result = .error fault)
    (rest : List α) :
    each next (a :: rest) counter = ⟨.error fault, (next a counter).counter⟩ := by
  rw [each]
  rcases first : next a counter with ⟨result', counter'⟩
  rw [first] at failed
  obtain rfl : result' = .error fault := failed
  rfl

/-- Otherwise the others are looked up on the counter that it leaves. -/
theorem each_of_ok {a : α} {b : β} (found : (next a counter).result = .ok b) (rest : List α) :
    each next (a :: rest) counter =
      (each next rest (next a counter).counter).andThen fun bs => .ok (b :: bs) := by
  rw [each]
  rcases first : next a counter with ⟨result', counter'⟩
  rw [first] at found
  obtain rfl : result' = .ok b := found
  rfl

/-- The comparisons of lookups that are made one after another up to the first that fails. -/
def costUpTo (cost : α → Nat) (result : α → Except Fault β) : List α → Nat
  | [] => 0
  | a :: rest =>
    cost a +
      match result a with
      | .error _ => 0
      | .ok _ => costUpTo cost result rest

/-- Lookups that do not fail are all made. -/
theorem costUpTo_of_ok {l : List α} {value : α → β} (found : ∀ a ∈ l, result a = .ok (value a)) :
    costUpTo cost result l = (l.map cost).sum := by
  induction l with
  | nil => rfl
  | cons a rest ih =>
    rw [costUpTo, found a List.mem_cons_self, List.map_cons, List.sum_cons]
    exact congrArg _ (ih fun b mem => found b (List.mem_cons_of_mem a mem))

/-- A result that fails with a text is a fault that reads so. -/
theorem exists_fault_of_mapError {found : Except Fault α} {message : String}
    (failed : found.mapError Fault.message = .error message) :
    ∃ fault, found = .error fault ∧ fault.message = message := by
  cases found with
  | error fault => exact ⟨fault, rfl, Except.error.inj failed⟩
  | ok a => cases failed

namespace CountedAs

/-- A lookup that fails ends the lookups. -/
theorem each_of_error {a : α} {fault : Fault}
    (first : CountedAs (cost a) (.error fault : Except Fault β) (next a)) (rest : List α) :
    CountedAs (cost a) (.error fault) (Counted.each next (a :: rest)) where
  counted := by
    intro counter room
    obtain ⟨failed, moved⟩ := first.counted counter room
    rw [Counted.each_of_error failed]
    exact ⟨rfl, moved⟩
  overflowed := by
    intro counter tooMany
    obtain ⟨failed, full⟩ := first.overflowed counter tooMany
    obtain ⟨fault', failed', reads⟩ := exists_fault_of_mapError failed
    rw [Counted.each_of_error failed']
    exact ⟨congrArg Except.error reads, full⟩

/-- A lookup that does not fail comes before the others. -/
theorem each_of_ok {a : α} {b : β} {rest : List α} {costs : Nat} {results : Except Fault (List β)}
    (first : CountedAs (cost a) (.ok b) (next a))
    (later : CountedAs costs results (Counted.each next rest)) :
    CountedAs (cost a + costs) (results.map (b :: ·)) (Counted.each next (a :: rest)) where
  counted := by
    intro counter room
    obtain ⟨found, moved⟩ := first.counted counter (by omega)
    obtain ⟨told, moved'⟩ := later.counted (next a counter).counter (by omega)
    rw [Counted.each_of_ok found, result_andThen, told, counter_andThen]
    refine ⟨?_, by omega⟩
    cases results <;> rfl
  overflowed := by
    intro counter tooMany
    -- The counter fills up during the first lookup, or during the others.
    by_cases room : counter.toNat + cost a ≤ 2 ^ 64 - 1
    · obtain ⟨found, moved⟩ := first.counted counter room
      obtain ⟨failed, full⟩ := later.overflowed (next a counter).counter (by omega)
      obtain ⟨fault, failed', reads⟩ := exists_fault_of_mapError failed
      rw [Counted.each_of_ok found, result_andThen, failed', counter_andThen]
      exact ⟨congrArg Except.error reads, full⟩
    · obtain ⟨failed, full⟩ := first.overflowed counter (by omega)
      obtain ⟨fault, failed', reads⟩ := exists_fault_of_mapError failed
      rw [Counted.each_of_error failed']
      exact ⟨congrArg Except.error reads, full⟩

/-- Lookups whose costs and results are known make these comparisons one after another, up to the
first that fails, and have these results. -/
theorem each {l : List α} (counted : ∀ a ∈ l, CountedAs (cost a) (result a) (next a)) :
    CountedAs (costUpTo cost result l) (l.mapM result) (Counted.each next l) := by
  induction l with
  | nil =>
    refine countedAs_of_charge fun counter => ?_
    rw [costUpTo, charge_zero]
    rfl
  | cons a rest ih =>
    have first := counted a List.mem_cons_self
    have later := ih fun b mem => counted b (List.mem_cons_of_mem a mem)
    rw [costUpTo, List.mapM_cons]
    cases answered : result a with
    | error fault =>
      rw [answered] at first
      exact first.each_of_error rest
    | ok b =>
      rw [answered] at first
      exact first.each_of_ok later

end CountedAs

/-- The comparisons made for a lookup are the number that it is known to make. -/
theorem CountedAs.measured {lookup : UInt64 → Counted β} {b : β} {made : Nat}
    (counted : CountedAs made (.ok b) lookup) :
    CountedAs made (.ok (b, made)) fun counter => (lookup counter).measured counter where
  counted := by
    intro counter room
    obtain ⟨found, moved⟩ := counted.counted counter room
    have le : counter ≤ (lookup counter).counter := by
      rw [UInt64.le_iff_toNat_le]
      omega
    have made_eq : ((lookup counter).counter - counter).toNat = made := by
      rw [UInt64.toNat_sub_of_le _ _ le]
      omega
    rw [Counted.measured, result_andThen, counter_andThen, found, made_eq]
    exact ⟨rfl, moved⟩
  overflowed := by
    intro counter tooMany
    obtain ⟨failed, full⟩ := counted.overflowed counter tooMany
    obtain ⟨fault, failed', reads⟩ := exists_fault_of_mapError failed
    rw [Counted.measured, result_andThen, counter_andThen, failed']
    exact ⟨congrArg Except.error reads, full⟩

end Counted

open Counted (CountedAs costUpTo)

/-! ### Batches -/

namespace Table

variable {K : Type u} {V : Type v} {slots : Nat} {A : Type w} [Key K] [DecidableEq K]
variable {s : Scheme K} {t : Table K V slots}

/-- A run of lookups answers as they do one after another, up to the first that fails. -/
theorem mapM_answer_run {α : Type x} {β : Type y} {next : α → UInt64 → Counted β}
    {op : α → Operation K V} {acc : Accumulation V A} {answer : β → Answer V A}
    (performs : ∀ a counter, (op a).perform s acc ⟨t, counter⟩ = .counted t (next a counter) answer)
    (l : List α) (counter : UInt64) :
    (Operation.run s acc (l.map op) ⟨t, counter⟩).1.mapM Observation.answer =
      (Counted.each next l counter).result.map (List.map answer) := by
  induction l generalizing counter with
  | nil => rfl
  | cons a rest ih =>
    rw [List.map_cons, Operation.run]
    dsimp only
    rw [performs, List.mapM_cons]
    -- Of the operations after one that fails nothing is asked, though they are carried out.
    cases first : (next a counter).result with
    | error fault =>
      rw [Counted.each_of_error first]
      simp only [Step.counted, Step.observation, first]
      rfl
    | ok b =>
      rw [Counted.each_of_ok first, Counted.result_andThen]
      simp only [Step.counted, Step.observation, first, ih]
      cases (Counted.each next rest (next a counter).counter).result with
      | error fault => rfl
      | ok bs => rfl

/-- The candidate groups of a key can be fetched ahead, and its hash is told. -/
theorem WellFormed.prefetch_eq (wellFormed : t.WellFormed s) (key : K) :
    t.prefetch s key = .ok (s.hash key) := by
  rw [prefetch, wellFormed.candidateGroups_eq]
  rfl

/-- What a lookup answers of a key that should be stored. -/
def required (s : Scheme K) (t : Table K V slots) (key : K) : Except Fault V :=
  (t.answer? s key).elim (.error .missingKey) .ok

/-- A batch that hashes its keys ahead answers as lookups by key do, one after another, up to the
first key that is missing. So does a run of such operations. -/
theorem WellFormed.findAll_inTurn (wellFormed : t.WellFormed s) (acc : Accumulation V A)
    (keys : List K) :
    ∃ hashed, t.prefetchAll s keys = .ok hashed ∧
      (∀ counter, t.findAll hashed counter = Counted.each (t.find s) keys counter) ∧
      (∀ counter, (t.findAll hashed counter).result.map (List.map Answer.value) =
        (Operation.run s acc (keys.map .find) ⟨t, counter⟩).1.mapM Observation.answer) ∧
      CountedAs (costUpTo (fun key => t.scanCost key (s.hash key)) (t.required s) keys)
        (keys.mapM (t.required s)) (t.findAll hashed) := by
  have inTurn (counter : UInt64) : t.findAll (keys.map fun key => (key, s.hash key)) counter =
      Counted.each (t.find s) keys counter :=
    Counted.each_map (fun entry : K × UInt64 => t.findIndexed entry.1 entry.2) _ keys counter
  have performs (key : K) (counter : UInt64) : (Operation.find key).perform s acc ⟨t, counter⟩ =
      .counted t (t.find s key counter) .value := rfl
  refine ⟨_, mapM_eq_ok fun key _ => ?_, inTurn, fun counter => ?_, ?_⟩
  · rw [wellFormed.prefetch_eq]
    rfl
  · rw [inTurn, mapM_answer_run performs]
  · have counted : CountedAs _ _ (Counted.each (t.find s) keys) :=
      CountedAs.each fun key _ => (wellFormed.looksUp key (s.hash key)).find rfl
    rwa [← funext inTurn] at counted

/-- A batch of lookups never misses. It answers as lookups by key do, one after another, and tells
the comparisons made for each of them. -/
theorem WellFormed.getAll_inTurn (wellFormed : t.WellFormed s) (acc : Accumulation V A)
    (keys : List K) :
    (∀ counter, (t.getAll s keys counter).result.map (List.map fun told => Answer.lookup told.1) =
        (Operation.run s acc (keys.map .get) ⟨t, counter⟩).1.mapM Observation.answer) ∧
      CountedAs (keys.map fun key => t.scanCost key (s.hash key)).sum
        (.ok (keys.map fun key => (t.answer? s key, t.scanCost key (s.hash key))))
        (t.getAll s keys) := by
  have performs (key : K) (counter : UInt64) : (Operation.get key).perform s acc ⟨t, counter⟩ =
      .counted t ((t.get s key counter).measured counter) fun told => .lookup told.1 := by
    show Step.counted t (t.get s key counter) Answer.lookup = _
    simp only [Step.counted, Counted.measured, Counted.result_andThen, Counted.counter_andThen]
    cases (t.get s key counter).result <;> rfl
  refine ⟨fun counter => (mapM_answer_run performs keys counter).symm, ?_⟩
  have got : ∀ key ∈ keys, CountedAs (t.scanCost key (s.hash key))
      (.ok (t.answer? s key, t.scanCost key (s.hash key)))
      fun counter => (t.get s key counter).measured counter :=
    fun key _ => ((wellFormed.looksUp key (s.hash key)).get rfl).measured
  have counted := CountedAs.each got
  rwa [Counted.costUpTo_of_ok fun _ _ => rfl, mapM_eq_ok fun _ _ => rfl] at counted

end Table

end TwoChoice
