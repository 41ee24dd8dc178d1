import TwoChoice.Proofs.Allocation
import TwoChoice.Proofs.Trusting
import TwoChoice.Proofs.Withdrawal

/-!
# Ledgers

Nothing keeps a key from being stored twice. What a run stores and takes out is entered in a ledger:
an insertion with its entry, an erasure with the entry that a lookup finds just before it. As long
as no growth fails, the entries of the table and those taken out are together those that were
stored, each as often as it was. So the values of a key are the inserted ones less the erased ones,
whatever group each of them lies in and however often the table has grown.

## Main Definitions

* `GrowthFails` — there is no result because a growth does not return
* `Table.found?` — the value that a lookup of a key finds
* `Ledger` — the entries stored and taken out
* `Ledger.enter`, `Ledger.ofRun` — the ledger of an operation and of a run
* `Ledger.Accounts` — the entries of a table are those stored less those taken out
* `Operation.Concerns` — an operation that may change the entries of a key

## Main Statements

* `Ledger.Accounts.perform` — the ledger of one operation
* `Ledger.Accounts.run` — the ledger of a run
* `Table.WellFormed.valuesOf_perform` — operations leave the values of other keys
* `Table.values_run` — the values of a key after a run, and what taking them out does

## Design Notes

An erasure counts its comparisons from zero, so two comparisons a slot must be countable. They are
if keys take up room, because the slots then fit one allocation. A type none of whose values takes
up room has one value only, and that is the vacant key.
-/

namespace TwoChoice

universe u v w x

/-! ### Growth that fails -/

/-- There is no result because a growth does not return. -/
def GrowthFails {α : Type x} (result : Except Fault α) : Prop :=
  result = .error .capacityOverflow ∨ result = .error .layoutOverflow

instance {α : Type x} : (result : Except Fault α) → Decidable (GrowthFails result)
  | .ok _ => .isFalse fun
    | .inl impossible => nomatch impossible
    | .inr impossible => nomatch impossible
  | .error fault =>
    decidable_of_iff (fault = .capacityOverflow ∨ fault = .layoutOverflow)
      (or_congr ⟨congrArg _, Except.error.inj⟩ ⟨congrArg _, Except.error.inj⟩)

variable {K : Type u} {V : Type v} {slots : Nat} {A : Type w} [Key K] [DecidableEq K]

/-! ### Ledgers -/

/-- The value that a lookup of a key finds, counting from zero. -/
def Table.found? (s : Scheme K) (t : Table K V slots) (key : K) : Option V :=
  match (t.get s key 0).result with
  | .ok value? => value?
  | .error _ => none

/-- The entries stored in a table and those taken out of it, the latest first. -/
structure Ledger (K : Type u) (V : Type v) where
  /-- The entries stored. -/
  inserted : List (K × V)
  /-- The entries taken out. -/
  erased : List (K × V)

namespace Ledger

/-- The ledger with what an operation on a table stores and takes out. The entry that an erasure
takes out is the one that a lookup finds just before. -/
def enter (s : Scheme K) (l : Ledger K V) (t : Table K V slots) : Operation K V → Ledger K V
  | .insert key value => if key = Key.vacant then l else ⟨(key, value) :: l.inserted, l.erased⟩
  | .erase key | .eraseUnchecked key =>
    match t.found? s key with
    | some value => ⟨l.inserted, (key, value) :: l.erased⟩
    | none => l
  | .clear => ⟨l.inserted, t.toList ++ l.erased⟩
  | _ => l

/-- The ledger with what some calls store and take out, one after another. -/
def enterAll (s : Scheme K) (acc : Accumulation V A) :
    List (Call K V) → Ledger K V → Table K V slots → Ledger K V
  | [], l, _ => l
  | call :: calls, l, t =>
    enterAll s acc calls (l.enter s t call.operation) (call.perform s acc t).state.table

/-- The ledger of a run that starts with nothing entered. -/
def ofRun (s : Scheme K) (acc : Accumulation V A) (calls : List (Call K V))
    (t : Table K V slots) : Ledger K V :=
  enterAll s acc calls ⟨[], []⟩ t

/-- The entries of a table and those taken out are together those that were stored. -/
def Accounts (l : Ledger K V) (t : Table K V slots) : Prop :=
  (t.toList ++ l.erased).Perm l.inserted

end Ledger

variable {s : Scheme K} {t t' : Table K V slots} {l : Ledger K V} {key : K} {value : V}
variable {op : Operation K V}

/-! ### One operation -/

namespace Table

theorem Yields.found?_eq {p : Position} (yields : Yields s t key p value)
    (counted : 2 * slots < Word.limit) : t.found? s key = some value := by
  obtain ⟨cost, cost_le, lookups_eq⟩ := yields.lookups_eq
  rw [found?, (lookups_eq 0).2.1, Counted.charge_from_zero (cost_le.trans_lt counted)]

theorem Lacks.found?_eq (lacks : Lacks s t key) : t.found? s key = none := by
  obtain ⟨cost, -, lookups_eq⟩ := lacks.lookups_eq
  rw [found?, (lookups_eq 0).1]
  unfold Counted.charge
  by_cases fits : (0 : UInt64).toNat + cost < Word.limit
  · rw [if_pos fits]
  · rw [if_neg fits]

/-- An erasure that trusts its caller leaves the table that an erasure leaves. -/
theorem WellFormed.table_eraseUnchecked (wellFormed : t.WellFormed s) (live : key ≠ Key.vacant)
    (counted : 2 * slots < Word.limit) :
    (t.eraseUnchecked s key).table = (t.erase s key).table := by
  by_cases held : t.Holds key (s.hash key)
  · rw [wellFormed.erase_eq live held]
  · have lacks := wellFormed.lacks_of_no_match live counted
      ((wellFormed.firstMatch?_eq_none_iff live _).mpr held)
    rw [wellFormed.eraseUnchecked_of_not_holds live held, lacks.erase_eq]

end Table

namespace Ledger.Accounts

/-- What erasing a key takes out is what is entered for it. -/
theorem erase (accounts : l.Accounts t) (wellFormed : t.WellFormed s)
    (counted : ∀ key : K, key ≠ Key.vacant → 2 * slots < Word.limit) (key : K) :
    (l.enter s t (.erase key)).Accounts (t.erase s key).table := by
  rcases wellFormed.yields_or_lacks (counted key) with ⟨p, value, yields⟩ | lacks
  · have live := Table.key_ne_vacant_of_mem_toList (Table.mem_toList_of_entryAt? yields.stored)
    simp only [enter, yields.found?_eq (counted key live)]
    have restored : ((key, value) :: (t.erase s key).table.toList ++ l.erased).Perm
        (t.toList ++ l.erased) := yields.perm.symm.append_right l.erased
    exact List.perm_middle.trans (restored.trans accounts)
  · simp only [enter, lacks.found?_eq, lacks.erase_eq]
    exact accounts

/-- What an operation stores and takes out is what is entered for it, unless its growth fails. -/
theorem perform (accounts : l.Accounts t) (wellFormed : t.WellFormed s)
    (counted : ∀ key : K, key ≠ Key.vacant → 2 * slots < Word.limit) (acc : Accumulation V A)
    (permitted : op.Permitted) (counter : UInt64)
    (returns : ¬GrowthFails (op.perform s acc ⟨t, counter⟩).answer) :
    (l.enter s t op).Accounts (op.perform s acc ⟨t, counter⟩).state.table := by
  cases op with
  | insert key value =>
    have insertion := wellFormed.insertion_insert key value
    simp only [Operation.perform, Step.updated] at returns ⊢
    generalize t.insert s key value = update at insertion returns
    cases insertion with
    | refused vacant =>
      rw [enter, if_pos vacant]
      exact accounts
    | stored live _ perm =>
      rw [enter, if_neg live]
      exact (perm.append_right l.erased).trans (accounts.cons (key, value))
    | stuck _ cause =>
      rcases cause with rfl | rfl
      · exact absurd (Or.inl rfl) returns
      · exact absurd (Or.inr rfl) returns
  | erase key => exact accounts.erase wellFormed counted key
  | eraseUnchecked key =>
    show (l.enter s t (.erase key)).Accounts (t.eraseUnchecked s key).table
    rw [wellFormed.table_eraseUnchecked permitted (counted key permitted)]
    exact accounts.erase wellFormed counted key
  | grow =>
    show l.Accounts (t.grow s).table
    rcases wellFormed.grow_cases with ⟨fault, -, grow_eq⟩ | ⟨larger, -, -, perm, grow_eq⟩
    · rw [grow_eq]
      exact accounts
    · rw [grow_eq]
      exact (perm.append_right l.erased).trans accounts
  | clear =>
    show (t.clear.toList ++ (t.toList ++ l.erased)).Perm l.inserted
    rw [Table.toList_clear]
    exact accounts
  | copy =>
    rw [Operation.perform_copy]
    exact accounts
  | _ => exact accounts

/-- What a run stores and takes out is what is entered for it, unless a growth fails. -/
theorem run {calls : List (Call K V)} (accounts : l.Accounts t) (wellFormed : t.WellFormed s)
    (counted : ∀ key : K, key ≠ Key.vacant → 2 * slots < Word.limit) (acc : Accumulation V A)
    (permitted : ∀ call ∈ calls, call.operation.Permitted)
    (returns : ∀ o ∈ (Call.run s acc calls t).1, ¬GrowthFails o.answer) :
    (enterAll s acc calls l t).Accounts (Call.run s acc calls t).2 := by
  induction calls generalizing t l with
  | nil => exact accounts
  | cons call calls ih =>
    have permittedNow := permitted call List.mem_cons_self
    exact ih (accounts.perform wellFormed counted acc permittedNow call.counter
        (returns _ List.mem_cons_self))
      (wellFormed.perform acc permittedNow call.counter)
      (fun later mem => permitted later (List.mem_cons_of_mem call mem))
      fun o mem => returns o (List.mem_cons_of_mem _ mem)

/-- The values of a key are the inserted ones less the erased ones. -/
theorem valuesOf_eq (accounts : l.Accounts t) (key : K) :
    valuesOf key t.toList + valuesOf key l.erased = valuesOf key l.inserted := by
  rw [← valuesOf_append]
  exact valuesOf_eq_of_perm accounts key

end Ledger.Accounts

/-! ### Other keys -/

/-- An operation that may change the entries of a key. -/
def Operation.Concerns : Operation K V → K → Prop
  | insert key _, other => key = other
  | erase key, other => key = other
  | eraseUnchecked key, other => key = other
  | clear, _ => True
  | _, _ => False

namespace Table

/-- Operations leave the values of the keys that they do not concern, also if they fail. -/
theorem WellFormed.valuesOf_perform (wellFormed : t.WellFormed s)
    (counted : ∀ key : K, key ≠ Key.vacant → 2 * slots < Word.limit) (acc : Accumulation V A)
    (permitted : op.Permitted) (counter : UInt64) (unconcerned : ¬op.Concerns key) :
    valuesOf key (op.perform s acc ⟨t, counter⟩).state.table.toList = valuesOf key t.toList := by
  cases op with
  | insert key' value =>
    have insertion := wellFormed.insertion_insert key' value
    show valuesOf key (t.insert s key' value).table.toList = _
    generalize t.insert s key' value = update at insertion
    cases insertion with
    | refused => rfl
    | stored _ _ perm => rw [valuesOf_eq_of_perm perm, valuesOf_cons_of_ne unconcerned]
    | stuck _ _ _ perm => exact valuesOf_eq_of_perm perm key
  | erase key' =>
    exact (wellFormed.erase_step (counted key')).2.2.2 key (Ne.symm unconcerned)
  | eraseUnchecked key' =>
    show valuesOf key (t.eraseUnchecked s key').table.toList = _
    rw [wellFormed.table_eraseUnchecked permitted (counted key' permitted)]
    exact (wellFormed.erase_step (counted key')).2.2.2 key (Ne.symm unconcerned)
  | grow =>
    show valuesOf key (t.grow s).table.toList = _
    rcases wellFormed.grow_cases with ⟨fault, -, grow_eq⟩ | ⟨larger, -, -, perm, grow_eq⟩
    · rw [grow_eq]
    · rw [grow_eq, valuesOf_eq_of_perm perm]
  | clear => exact absurd trivial unconcerned
  | copy =>
    rw [Operation.perform_copy]
    rfl
  | _ => rfl

/-! ### Runs -/

/-- After a run on a new table in which every growth returns, the values of a key are the inserted
ones less the erased ones. A key inserted more often than erased is found, and the entry found is
the one that an erasure takes out; it can be taken out as often as it is stored; and what does not
concern a key leaves its values. -/
theorem values_run {groups : Nat} {calls : List (Call K V)}
    {observations : List (Observation V A)} (made : withGroups s groups = .ok t)
    (aligned : s.layout.Aligned) (sized : ∀ key : K, key ≠ Key.vacant → 0 < s.layout.keyBytes)
    (acc : Accumulation V A) (permitted : ∀ call ∈ calls, call.operation.Permitted)
    (ran : Call.run s acc calls t = (observations, t'))
    (returns : ∀ o ∈ observations, ¬GrowthFails o.answer) :
    (∀ key, valuesOf key t'.toList + valuesOf key (Ledger.ofRun s acc calls t).erased =
        valuesOf key (Ledger.ofRun s acc calls t).inserted) ∧
      (∀ key, (valuesOf key (Ledger.ofRun s acc calls t).erased).card <
          (valuesOf key (Ledger.ofRun s acc calls t).inserted).card →
        ∃ p value, Yields s t' key p value) ∧
      (∀ key times, Withdraws s t' key times) ∧
      ∀ (key : K) (op : Operation K V) (counter : UInt64), op.Permitted → ¬op.Concerns key →
        valuesOf key (op.perform s acc ⟨t', counter⟩).state.table.toList =
          valuesOf key t'.toList := by
  obtain ⟨wellFormed, toList_eq⟩ := wellFormed_of_withGroups made
  have counted : ∀ key : K, key ≠ Key.vacant → 2 * slots < Word.limit := fun key live =>
    (fits_of_withGroups made).two_mul_slots_lt aligned (Nat.add_pos_left (sized key live) _)
      ((by decide : 2 ≤ Capacity.minimum).trans wellFormed.minimum_le)
  have blank : (⟨[], []⟩ : Ledger K V).Accounts t := by
    rw [Ledger.Accounts, toList_eq]
    exact List.Perm.nil
  have wellFormed' := wellFormed.run acc permitted
  have returns' : ∀ o ∈ (Call.run s acc calls t).1, ¬GrowthFails o.answer := by rwa [ran]
  have accounts := (blank.run wellFormed counted acc permitted returns').valuesOf_eq
  rw [ran] at wellFormed' accounts
  refine ⟨accounts, fun key more => ?_, fun key times => wellFormed'.withdraws (counted key) times,
    fun key op counter allowed unconcerned =>
      wellFormed'.valuesOf_perform counted acc allowed counter unconcerned⟩
  have card_eq := congrArg Multiset.card (accounts key)
  rw [Multiset.card_add] at card_eq
  refine wellFormed'.exists_yields (counted key) ?_
  unfold Ledger.ofRun at more
  omega

/-- Calls that store a key twice and another once, take the first key out once, and grow. -/
def repeatedCalls : List (Call ZeroVacant UInt64) :=
  [⟨.insert ⟨1⟩ 10, 0⟩, ⟨.insert ⟨1⟩ 11, 0⟩, ⟨.insert ⟨2⟩ 20, 0⟩, ⟨.erase ⟨1⟩, 0⟩, ⟨.grow, 0⟩,
    ⟨.get ⟨1⟩, 7⟩]

/-- A key that was stored twice and taken out once is found, and can be taken out once more. -/
theorem values_run_repeated :
    (withGroups Scheme.ofWords 8 : Except Fault (Table ZeroVacant UInt64 2)) = .ok (empty 8) ∧
      ∃ p value, Yields Scheme.ofWords
        (Call.run Scheme.ofWords Accumulation.listing repeatedCalls
          (empty 8 : Table ZeroVacant UInt64 2)).2 ⟨1⟩ p value := by
  have made : (withGroups Scheme.ofWords 8 : Except Fault (Table ZeroVacant UInt64 2)) =
      .ok (empty 8) := withGroups_eq_of_le (by decide) (by decide)
  have permitted : ∀ call ∈ repeatedCalls, call.operation.Permitted := by
    simp [repeatedCalls, Operation.Permitted]
  have returns : ∀ o ∈ (Call.run Scheme.ofWords Accumulation.listing repeatedCalls
      (empty 8 : Table ZeroVacant UInt64 2)).1, ¬GrowthFails o.answer := by
    decide +kernel
  have values := values_run made (by decide) (fun _ _ => by decide) Accumulation.listing permitted
    rfl returns
  exact ⟨made, values.2.1 ⟨1⟩ (by decide +kernel)⟩

end Table

end TwoChoice
