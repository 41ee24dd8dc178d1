import TwoChoice.Operation

/-!
# Reachable tables

The tables that operations lead to from a new one.

## Main Definitions

* `Operation.Legal` — an operation that is not told that the vacant key is stored
* `Operation.Permitted` — an operation that is not told to take out the vacant key
* `Table.Reachable` — a new table, or what legal operations make of one

## Main Statements

* `Operation.state_perform` — how values are added up has no bearing on the state that is left
* `Table.Reachable.run` — runs of legal operations lead from reachable tables to reachable ones

## Design Notes

The operations that trust their caller compare keys with slots that may be vacant. Told that the
vacant key is stored they would find it there, so that one argument is not theirs to be given. Only
the one of them that takes the entry out would spoil the table, and what is proved of every table
that is well-formed need forbid no more than that.
-/

namespace TwoChoice

universe u v w x

variable {K : Type u} {V : Type v} {A : Type w} {B : Type x} {slots : Nat} [Key K]

/-- An operation is legal unless it is told that the vacant key is stored. -/
def Operation.Legal : Operation K V → Prop
  | findUnchecked key => key ≠ Key.vacant
  | findIndexedUnchecked key _ => key ≠ Key.vacant
  | eraseUnchecked key => key ≠ Key.vacant
  | _ => True

/-- An operation is permitted unless it is told to take out the vacant key. -/
def Operation.Permitted : Operation K V → Prop
  | eraseUnchecked key => key ≠ Key.vacant
  | _ => True

theorem Operation.Legal.permitted {op : Operation K V} (legal : op.Legal) : op.Permitted := by
  cases op with
  | eraseUnchecked key => exact legal
  | _ => trivial

variable [DecidableEq K]

/-- How values are added up has no bearing on the state that an operation leaves. -/
theorem Operation.state_perform (s : Scheme K) (acc : Accumulation V A)
    (acc' : Accumulation V B) (op : Operation K V) (st : State K V slots) :
    (op.perform s acc st).state = (op.perform s acc' st).state := by
  cases op with
  | copy =>
    rw [perform_copy, perform_copy]
    rfl
  | _ => rfl

namespace Table

/-- The tables that legal operations lead to from a new one. -/
inductive Reachable (s : Scheme K) : Table K V slots → Prop
  /-- A new table is reachable. -/
  | made {groups : Nat} {t : Table K V slots} : withGroups s groups = .ok t → Reachable s t
  /-- So is what a legal operation leaves of a reachable table, also if the operation fails. -/
  | performed {t : Table K V slots} (op : Operation K V) (counter : UInt64) :
      Reachable s t → op.Legal →
        Reachable s (op.perform s Accumulation.listing ⟨t, counter⟩).state.table

namespace Reachable

variable {s : Scheme K}

theorem perform {t : Table K V slots} (reachable : Reachable s t) (acc : Accumulation V A)
    {op : Operation K V} (legal : op.Legal) (counter : UInt64) :
    Reachable s (op.perform s acc ⟨t, counter⟩).state.table := by
  rw [Operation.state_perform s acc Accumulation.listing]
  exact reachable.performed op counter legal

/-- Legal calls, one after another, lead from a reachable table to a reachable one. -/
theorem run_calls (acc : Accumulation V A) {calls : List (Call K V)} {t : Table K V slots}
    (reachable : Reachable s t) (legal : ∀ call ∈ calls, call.operation.Legal) :
    Reachable s (Call.run s acc calls t).2 := by
  induction calls generalizing t with
  | nil => exact reachable
  | cons call calls ih =>
    have next := reachable.perform acc (legal call List.mem_cons_self) call.counter
    exact ih next fun later mem => legal later (List.mem_cons_of_mem call mem)

/-- So do legal operations, which are calls. -/
theorem run (acc : Accumulation V A) {ops : List (Operation K V)} {st : State K V slots}
    (reachable : Reachable s st.table) (legal : ∀ op ∈ ops, op.Legal) :
    Reachable s (Operation.run s acc ops st).2.table := by
  obtain ⟨calls, rfl, same⟩ := Call.exists_run_eq s acc ops st
  have left := reachable.run_calls acc fun call mem => legal _ (List.mem_map_of_mem mem)
  rwa [same] at left

end Reachable

end Table

end TwoChoice
