import TwoChoice.Proofs.Lockstep

/-!
# Values have no influence

Two runs that store the same keys under the same hashes may store different values, even of
different types. Whatever a table decides, it decides by its keys: after each call both tables have
the same keys in the same slots, and every value that the one run finds is related to the value that
the other finds if the values that were stored are.

## Main Definitions

* `Table.SameControl` — two steps that differ only in values

## Main Statements

* `Accumulation.alike_listing` — lists of related values are related
* `Table.sameControl_run` — runs that differ only in values take steps that do

## Design Notes

The relation between values is arbitrary, so what is proved is what a function that is polymorphic
in its values would have to satisfy: it can move values about, but it cannot look at them.
-/

namespace TwoChoice

universe u v v' w w'

/-- The scheme of 32-bit keys and truth values, which hashes keys as `Scheme.ofWords` does. -/
def Scheme.ofFlags : Scheme ZeroVacant :=
  Scheme.ofMixer Hash.avalanche ⟨4, 4, 1, 1⟩

variable {K : Type u} {V : Type v} {V' : Type v'} {A : Type w} {A' : Type w'} {slots : Nat}
variable {R : V → V' → Prop} {T : A → A' → Prop}

/-- Lists of related values are related, value by value. -/
theorem Accumulation.alike_listing (R : V → V' → Prop) :
    Accumulation.Alike R (fun total total' => List.Forall₂ R total.toList total'.toList)
      listing listing where
  zero := .nil
  add := by
    intro total total' value value' related here
    refine .some ?_
    rw [Array.toList_push, Array.toList_push]
    exact List.rel_append related (.cons here .nil)

variable [Key K]

/-- The keys of parallel groups are the same if only the same keys correspond. -/
theorem Group.Parallel.keys_eq {g : Group K V slots} {g' : Group K V' slots}
    (parallel : g.Parallel Eq R g') : g.keys = g'.keys := by
  refine Vector.ext fun i inRange => ?_
  rcases parallel.keys i inRange with same | ⟨vacant, vacant'⟩
  · exact same
  · rw [vacant, vacant']

namespace Table

theorem Parallel.keys_eq {t : Table K V slots} {t' : Table K V' slots}
    (parallel : t.Parallel Eq R t') :
    t.groups.toList.map Group.keys = t'.groups.toList.map Group.keys := by
  rw [← List.forall₂_eq_eq_eq, List.forall₂_map_left_iff, List.forall₂_map_right_iff]
  exact parallel.groups.imp fun _ _ group => group.keys_eq

variable [DecidableEq K]

/-- Two steps that differ in nothing but values, which are related. -/
structure SameControl (s s' : Scheme K) (R : V → V' → Prop) (T : A → A' → Prop)
    (step : Step K V slots A) (step' : Step K V' slots A') : Prop extends
    StepPair Eq R T (fun _ _ => True) step step' where
  /-- The keys are the same, slot by slot. -/
  keys_eq : step.state.table.groups.toList.map Group.keys =
    step'.state.table.groups.toList.map Group.keys
  /-- The tables show the same. -/
  view : SameView s s' step.state.table step'.state.table

variable {s s' : Scheme K} {t : Table K V slots} {t' : Table K V' slots}

/-- Two runs of calls that differ only in values take steps that differ only in values, if neither
lacks an allocation. -/
theorem sameControl_run {groups : Nat} (hashes : ∀ key, s.hash key = s'.hash key)
    (aligned : s.layout.Aligned) (aligned' : s'.layout.Aligned)
    (made : withGroups s groups = .ok t) (made' : withGroups s' groups = .ok t')
    {acc : Accumulation V A} {acc' : Accumulation V' A'} {calls : List (Call K V)}
    {calls' : List (Call K V')} (pairs : List.Forall₂ (CallPair Eq R) calls calls')
    (totals : (∃ call ∈ calls, call.operation = .total) → acc.Alike R T acc')
    (returns : ∀ step ∈ Call.trace s acc calls t, ¬LacksAllocation step.answer)
    (returns' : ∀ step ∈ Call.trace s' acc' calls' t', ¬LacksAllocation step.answer) :
    List.Forall₂ (SameControl s s' R T) (Call.trace s acc calls t)
      (Call.trace s' acc' calls' t') := by
  have parallel : t.Parallel Eq R t' := Parallel.of_withGroups made made'
  have steps := parallel.forall₂_trace (Scheme.alike_of_hash_eq hashes) aligned aligned'
    (fits_of_withGroups made) (fits_of_withGroups made') pairs totals returns returns'
  exact steps.imp fun _ _ ⟨step, view⟩ => ⟨step, step.table.keys_eq, view⟩

/-- Calls that store what is made of some words. -/
def storingCalls (make : UInt64 → V) : List (Call ZeroVacant V) :=
  [⟨.insert ⟨1⟩ (make 10), 0⟩, ⟨.insert ⟨1⟩ (make 11), 0⟩, ⟨.insert ⟨2⟩ (make 21), 0⟩,
    ⟨.get ⟨1⟩, 0⟩, ⟨.erase ⟨1⟩, 0⟩, ⟨.grow, 0⟩, ⟨.findUnchecked ⟨1⟩, 3⟩, ⟨.total, 3⟩, ⟨.copy, 3⟩,
    ⟨.eraseUnchecked ⟨2⟩, 3⟩, ⟨.find ⟨2⟩, 3⟩, ⟨.statistics, 3⟩, ⟨.clear, 3⟩]

/-- Words, and whether they are odd, are stored and found in step. -/
theorem sameControl_run_odd :
    (withGroups Scheme.ofWords 8 : Except Fault (Table ZeroVacant UInt64 2)) = .ok (empty 8) ∧
      (withGroups Scheme.ofFlags 8 : Except Fault (Table ZeroVacant Bool 2)) = .ok (empty 8) ∧
      List.Forall₂
        (SameControl Scheme.ofWords Scheme.ofFlags (fun word odd => odd = (word % 2 == 1))
          fun words flags => List.Forall₂ (fun word odd => odd = (word % 2 == 1)) words.toList
            flags.toList)
        (Call.trace Scheme.ofWords Accumulation.listing (storingCalls id)
          (empty 8 : Table ZeroVacant UInt64 2))
        (Call.trace Scheme.ofFlags Accumulation.listing (storingCalls fun word => word % 2 == 1)
          (empty 8 : Table ZeroVacant Bool 2)) := by
  have made : (withGroups Scheme.ofWords 8 : Except Fault (Table ZeroVacant UInt64 2)) =
      .ok (empty 8) := withGroups_eq_of_le (by decide) (by decide)
  have made' : (withGroups Scheme.ofFlags 8 : Except Fault (Table ZeroVacant Bool 2)) =
      .ok (empty 8) := withGroups_eq_of_le (by decide) (by decide)
  have pairs : List.Forall₂ (CallPair Eq fun word odd => odd = (word % 2 == 1)) (storingCalls id)
      (storingCalls fun word => word % 2 == 1) := by
    repeat' constructor
  have hashes : ∀ key, Scheme.ofWords.hash key = Scheme.ofFlags.hash key := fun _ => rfl
  refine ⟨made, made', sameControl_run hashes (by decide) (by decide) made made' pairs
    (fun _ => Accumulation.alike_listing _) ?_ ?_⟩
  · decide +kernel
  · decide +kernel

end Table

end TwoChoice
