import Mathlib.Algebra.BigOperators.Group.List.Basic
import Mathlib.Algebra.Group.Prod
import Mathlib.Algebra.Ring.Int.Defs
import TwoChoice.Proofs.Storing
import TwoChoice.Table.Batch
import TwoChoice.Table.Total

/-!
# Totals that do not depend on the order

The values of a table are added up in the order in which its entries lie, and every update may
change that order. Each partial sum is checked. For unsigned integers the partial sums do not
decrease, so one of them is out of range exactly if the sum of all values is. For words modulo a
power of two there is no range to leave. So in both cases the total is told by the sum of all
values, which has no order.

It follows that the total of a table is fixed by its values, each counted as often as it is stored.
How the table came to have them makes no difference, nor do the keys, the hash function, the number
of slots or the number of groups.

## Main Definitions

* `Accumulation.wrappingBits`, `Accumulation.wrappingBitPairs` — words of any width, and pairs
* `Accumulation.SumsUp` — an accumulation whose totals are told by a sum
* `Table.TotalsExact` — totals of tables that are told by the sum of their values

## Main Statements

* `Accumulation.addAll_checked` — a partial sum is out of range exactly if the sum is
* `Accumulation.sumsUp_of_step` — totals without a range are told by the sum
* `Table.WellFormed.insertAll_of_returned` — entries that are stored one after another are all there
* `Table.totals_exact` — totals of unsigned integers and of words modulo a power of two
-/

namespace TwoChoice

universe u u' v w x

/-! ### Unsigned integers -/

/-- An unsigned integer is not negative. -/
theorem FixedInt.val_nonneg {width : Nat} (value : FixedInt (.unsigned width)) : 0 ≤ value.val :=
  value.least_le

/-- There is no integer of a format exactly where its range has none. -/
theorem FixedInt.ofInt?_eq_none_iff {f : IntFormat} {z : Int} :
    ofInt? f z = none ↔ ¬(f.least ≤ z ∧ z ≤ f.greatest) := by
  rw [ofInt?, dite_eq_right_iff]
  exact ⟨fun none inRange => Option.some_ne_none _ (none inRange),
    fun outside inRange => absurd inRange outside⟩

/-- Once a sum of unsigned integers is out of range, it stays so. -/
theorem FixedInt.ofInt?_add_eq_none {width : Nat} {z more : Int}
    (outside : ofInt? (.unsigned width) z = none) (nonneg : 0 ≤ z) (more_nonneg : 0 ≤ more) :
    ofInt? (.unsigned width) (z + more) = none := by
  have least_eq : (IntFormat.unsigned width).least = 0 := rfl
  rw [ofInt?_eq_none_iff] at outside ⊢
  omega

/-! ### Accumulations -/

namespace Accumulation

variable {V : Type v} {A : Type w} {N : Type x} [AddCommMonoid N]
variable {acc : Accumulation V A} {amount : V → N} {values values' : List V}

/-- Words of some width, added modulo a power of two. -/
def wrappingBits (width : Nat) : Accumulation (BitVec width) (BitVec width) where
  zero := 0
  add total value := some (total + value)

/-- Pairs of words of some widths, each half added modulo a power of two. -/
def wrappingBitPairs (width width' : Nat) :
    Accumulation (BitVec width × BitVec width') (BitVec width × BitVec width') where
  zero := (0, 0)
  add total value := some (total.1 + value.1, total.2 + value.2)

/-- The total of some values is told by the sum of their amounts. -/
def SumsUp (acc : Accumulation V A) (amount : V → N) (tell : N → Except Fault A) : Prop :=
  ∀ values, acc.run values = tell (values.map amount).sum

/-- So it does not depend on their order. -/
theorem SumsUp.run_eq_of_perm {tell : N → Except Fault A} (sums : SumsUp acc amount tell)
    (same : values'.Perm values) : acc.run values' = acc.run values := by
  rw [sums, sums, (same.map amount).sum_eq]

/-- If each value adds its amount to the total, some values add the sum of theirs. -/
theorem addAll_of_step {ofAmount : N → A}
    (step : ∀ n value, acc.add (ofAmount n) value = some (ofAmount (n + amount value))) (n : N)
    (values : List V) :
    acc.addAll (ofAmount n) values = .ok (ofAmount (n + (values.map amount).sum)) := by
  induction values generalizing n with
  | nil => rw [List.map_nil, List.sum_nil, add_zero, addAll]
  | cons value rest ih =>
    rw [addAll, step]
    dsimp only
    rw [ih, List.map_cons, List.sum_cons, add_assoc]

theorem sumsUp_of_step {ofAmount : N → A} (zero_eq : acc.zero = ofAmount 0)
    (step : ∀ n value, acc.add (ofAmount n) value = some (ofAmount (n + amount value))) :
    SumsUp acc amount fun n => .ok (ofAmount n) := by
  intro values
  rw [run, zero_eq, addAll_of_step step, zero_add]

theorem sumsUp_wrappingBits (width : Nat) :
    SumsUp (wrappingBits width) BitVec.toNat fun n => .ok (BitVec.ofNat width n) := by
  refine sumsUp_of_step rfl fun n value => ?_
  rw [BitVec.ofNat_add, BitVec.ofNat_toNat, BitVec.setWidth_eq]
  rfl

theorem sumsUp_wrappingBitPairs (width width' : Nat) :
    SumsUp (wrappingBitPairs width width') (fun value => (value.1.toNat, value.2.toNat))
      fun n => .ok (BitVec.ofNat width n.1, BitVec.ofNat width' n.2) := by
  refine sumsUp_of_step rfl fun n value => ?_
  simp [wrappingBitPairs, BitVec.ofNat_add]

theorem sumsUp_wrapping : SumsUp wrapping UInt64.toNat fun n => .ok (UInt64.ofNat n) := by
  refine sumsUp_of_step rfl fun n value => ?_
  rw [UInt64.ofNat_add, UInt64.ofNat_toNat]
  rfl

theorem sumsUp_wrappingPairs :
    SumsUp wrappingPairs (fun value => (value.1.toNat, value.2.toNat))
      fun n => .ok (UInt32.ofNat n.1, UInt32.ofNat n.2) := by
  refine sumsUp_of_step rfl fun n value => ?_
  simp [wrappingPairs, UInt32.ofNat_add]

section Checked

variable {width : Nat}

/-- A partial sum of unsigned integers is out of range exactly if the sum of all of them is. -/
theorem addAll_checked (total : FixedInt (.unsigned width))
    (values : List (FixedInt (.unsigned width))) :
    (checked (.unsigned width)).addAll total values =
      (FixedInt.ofInt? (.unsigned width) (total.val + (values.map FixedInt.val).sum)).elim
        (.error .totalOverflow) .ok := by
  -- The first partial sum that is out of range decides, since what is added is not negative.
  induction values generalizing total with
  | nil =>
    have told : FixedInt.ofInt? (.unsigned width) (total.val + 0) = some total :=
      FixedInt.ofInt?_eq_some_iff.mpr (add_zero _).symm
    rw [List.map_nil, List.sum_nil, told]
    rfl
  | cons value rest ih =>
    rw [List.map_cons, List.sum_cons, ← add_assoc, addAll, checked]
    dsimp only
    cases next : FixedInt.ofInt? (.unsigned width) (total.val + value.val) with
    | some total' =>
      rw [← FixedInt.ofInt?_eq_some_iff.mp next]
      exact ih total'
    | none =>
      have total_nonneg := total.val_nonneg
      have value_nonneg := value.val_nonneg
      have rest_nonneg : 0 ≤ (rest.map FixedInt.val).sum := by
        refine List.sum_nonneg fun z mem => ?_
        obtain ⟨value', -, rfl⟩ := List.mem_map.mp mem
        exact value'.val_nonneg
      rw [FixedInt.ofInt?_add_eq_none next (by omega) rest_nonneg]
      rfl

theorem sumsUp_checked (width : Nat) :
    SumsUp (checked (.unsigned width)) FixedInt.val fun z =>
      (FixedInt.ofInt? (.unsigned width) z).elim (.error .totalOverflow) .ok := by
  intro values
  have zero_eq : (checked (.unsigned width)).zero.val = 0 := rfl
  rw [run, addAll_checked, zero_eq, zero_add]

end Checked

end Accumulation

namespace Table

variable {K : Type u} {K' : Type u'} {V : Type v} {A : Type w} {N : Type x} {slots : Nat}
variable [Key K] [DecidableEq K] [AddCommMonoid N]
variable {s : Scheme K} {t : Table K V slots} {entries : List (K × V)}

/-! ### Tables -/

/-- The total of a table is that of its values. -/
theorem WellFormed.total_eq (wellFormed : t.WellFormed s) (acc : Accumulation V A) :
    t.total acc = acc.run (t.toList.map Prod.snd) := by
  rw [total, wellFormed.entries_eq]
  rfl

/-- Growing leaves the entries, also if it fails. -/
theorem WellFormed.perm_grow (wellFormed : t.WellFormed s) :
    (t.grow s).table.toList.Perm t.toList := by
  rcases wellFormed.grow_cases with ⟨fault, -, grow_eq⟩ | ⟨larger, -, -, perm, grow_eq⟩
  · rw [grow_eq]
  · rw [grow_eq]
    exact perm

/-- Storing some entries returns if storing the first and then the others does. -/
theorem insertAll_cons_of_returned {key : K} {value : V} {index : Nat}
    {growths : List (Nat × Nat)}
    (returned : (insertAll s index ((key, value) :: entries) t).result = .ok growths) :
    (t.insert s key value).result = .ok () ∧
      (∃ growths', (insertAll s (index + 1) entries (t.insert s key value).table).result =
        .ok growths') ∧
      (insertAll s index ((key, value) :: entries) t).table =
        (insertAll s (index + 1) entries (t.insert s key value).table).table := by
  rw [insertAll] at returned ⊢
  rcases inserted : t.insert s key value with ⟨result, t'⟩
  rw [inserted] at returned
  cases result with
  | error fault => cases returned
  | ok done =>
    dsimp only at returned ⊢
    rcases later : insertAll s (index + 1) entries t' with ⟨result', t''⟩
    rw [later] at returned
    cases result' with
    | error fault => cases returned
    | ok growths' => exact ⟨rfl, ⟨growths', rfl⟩, rfl⟩

/-- Entries that are stored one after another are all there, beside those that there were. -/
theorem WellFormed.insertAll_of_returned (wellFormed : t.WellFormed s) {index : Nat}
    {growths : List (Nat × Nat)} (returned : (insertAll s index entries t).result = .ok growths) :
    (insertAll s index entries t).table.WellFormed s ∧
      (insertAll s index entries t).table.toList.Perm (entries ++ t.toList) := by
  induction entries generalizing t index growths with
  | nil => exact ⟨wellFormed, List.Perm.refl _⟩
  | cons entry rest ih =>
    obtain ⟨inserted, ⟨growths', later⟩, table_eq⟩ := insertAll_cons_of_returned returned
    have wellFormed' := (wellFormed.insertion_insert entry.1 entry.2).wellFormed wellFormed
    obtain ⟨wellFormed'', perm⟩ := ih wellFormed' later
    rw [table_eq]
    refine ⟨wellFormed'', perm.trans ?_⟩
    exact ((wellFormed.insert_of_returned inserted).1.append_left rest).trans List.perm_middle

/-- Nothing is stored in a new table. -/
theorem toList_of_withGroups {groups : Nat} (made : withGroups s groups = .ok t) :
    t.toList = [] := by
  obtain ⟨capacity, -, -, rfl⟩ := exists_capacity_of_withGroups made
  exact toList_empty capacity

/-! ### Totals of tables -/

/-- Totals of tables that are told by the sum of the amounts of all values, and so by nothing but
the values. -/
structure TotalsExact (acc : Accumulation V A) (amount : V → N) (tell : N → Except String A) :
    Prop where
  /-- The total of a table is told by the sum over its entries, each of them counted once. -/
  exact : ∀ {K : Type u} [Key K] [DecidableEq K] {slots : Nat} {s : Scheme K}
    {t : Table K V slots}, Reachable s t →
      (t.total acc).mapError Fault.message = tell (t.toList.map fun entry => amount entry.2).sum
  /-- Tables with the same values, each as often, have the same total, whatever their keys, hash
  functions, slots and groups are. -/
  same : ∀ {K : Type u} {K' : Type u'} [Key K] [DecidableEq K] [Key K'] [DecidableEq K']
    {slots slots' : Nat} {s : Scheme K} {s' : Scheme K'} {t : Table K V slots}
    {t' : Table K' V slots'}, Reachable s t → Reachable s' t' →
      (t'.toList.map Prod.snd).Perm (t.toList.map Prod.snd) → t'.total acc = t.total acc
  /-- A table has the same total before and after growth. -/
  grow : ∀ {K : Type u} [Key K] [DecidableEq K] {slots : Nat} {s : Scheme K}
    {t : Table K V slots}, Reachable s t → (t.grow s).table.total acc = t.total acc
  /-- So have new tables, with any number of groups to begin with, once entries with the same values
  have been stored in them, in any order. -/
  stored : ∀ {K : Type u} {K' : Type u'} [Key K] [DecidableEq K] [Key K'] [DecidableEq K']
    {slots slots' groups groups' index index' : Nat} {s : Scheme K} {s' : Scheme K'}
    {t : Table K V slots} {t' : Table K' V slots'} {entries : List (K × V)}
    {entries' : List (K' × V)} {growths growths' : List (Nat × Nat)},
    withGroups s groups = .ok t → withGroups s' groups' = .ok t' →
      (insertAll s index entries t).result = .ok growths →
      (insertAll s' index' entries' t').result = .ok growths' →
      (entries'.map Prod.snd).Perm (entries.map Prod.snd) →
        (insertAll s' index' entries' t').table.total acc =
          (insertAll s index entries t).table.total acc

/-- Tables with the same values have the same total, if it is told by their sum. -/
theorem WellFormed.total_eq_of_perm [Key K'] [DecidableEq K'] {slots' : Nat} {s' : Scheme K'}
    {t' : Table K' V slots'} {acc : Accumulation V A} {amount : V → N} {tell : N → Except Fault A}
    (wellFormed : t.WellFormed s) (wellFormed' : t'.WellFormed s') (sums : acc.SumsUp amount tell)
    (values : (t'.toList.map Prod.snd).Perm (t.toList.map Prod.snd)) :
    t'.total acc = t.total acc := by
  rw [wellFormed.total_eq, wellFormed'.total_eq]
  exact sums.run_eq_of_perm values

/-- A new table in which entries have been stored has those and no others. -/
theorem insertAll_of_made {groups index : Nat} {growths : List (Nat × Nat)}
    (made : withGroups s groups = .ok t)
    (returned : (insertAll s index entries t).result = .ok growths) :
    (insertAll s index entries t).table.WellFormed s ∧
      (insertAll s index entries t).table.toList.Perm entries := by
  have stored := (Reachable.made made).wellFormed.insertAll_of_returned returned
  rwa [toList_of_withGroups made, List.append_nil] at stored

/-- Tables have exact totals if the totals of lists are told by a sum. -/
theorem totalsExact_of_sumsUp {acc : Accumulation V A} {amount : V → N} {tell : N → Except Fault A}
    {shown : N → Except String A} (sums : acc.SumsUp amount tell)
    (shown_eq : ∀ n, (tell n).mapError Fault.message = shown n) :
    TotalsExact.{u, u'} acc amount shown where
  exact reachable := by
    rw [reachable.wellFormed.total_eq, sums, shown_eq, List.map_map]
    rfl
  same reachable reachable' values :=
    reachable.wellFormed.total_eq_of_perm reachable'.wellFormed sums values
  grow reachable :=
    have wellFormed := reachable.wellFormed
    wellFormed.total_eq_of_perm wellFormed.grow sums (wellFormed.perm_grow.map Prod.snd)
  stored made made' returned returned' values := by
    obtain ⟨wellFormed, perm⟩ := insertAll_of_made made returned
    obtain ⟨wellFormed', perm'⟩ := insertAll_of_made made' returned'
    refine wellFormed.total_eq_of_perm wellFormed' sums ?_
    exact ((perm'.map Prod.snd).trans values).trans (perm.map Prod.snd).symm

/-- The totals of unsigned integers are their sum if it is in range, and the addition overflows
otherwise. The totals of words modulo a power of two, and of pairs of such words, are the sum modulo
that power. -/
theorem totals_exact :
    (∀ width, TotalsExact.{u, u'} (Accumulation.checked (.unsigned width)) FixedInt.val fun z =>
        (FixedInt.ofInt? (.unsigned width) z).elim (.error "attempt to add with overflow") .ok) ∧
      (∀ width, TotalsExact.{u, u'} (Accumulation.wrappingBits width) BitVec.toNat fun n =>
        .ok (BitVec.ofNat width n)) ∧
      (∀ width width', TotalsExact.{u, u'} (Accumulation.wrappingBitPairs width width')
        (fun value => (value.1.toNat, value.2.toNat))
        fun n => .ok (BitVec.ofNat width n.1, BitVec.ofNat width' n.2)) ∧
      TotalsExact.{u, u'} Accumulation.wrapping UInt64.toNat (fun n => .ok (UInt64.ofNat n)) ∧
      TotalsExact.{u, u'} Accumulation.wrappingPairs
        (fun value => (value.1.toNat, value.2.toNat))
        fun n => .ok (UInt32.ofNat n.1, UInt32.ofNat n.2) := by
  refine ⟨fun width => ?_, fun width => ?_, fun width width' => ?_, ?_, ?_⟩
  · refine totalsExact_of_sumsUp (Accumulation.sumsUp_checked width) fun z => ?_
    cases FixedInt.ofInt? (.unsigned width) z with
    | none => rfl
    | some total => rfl
  · exact totalsExact_of_sumsUp (Accumulation.sumsUp_wrappingBits width) fun _ => rfl
  · exact totalsExact_of_sumsUp (Accumulation.sumsUp_wrappingBitPairs width width') fun _ => rfl
  · exact totalsExact_of_sumsUp Accumulation.sumsUp_wrapping fun _ => rfl
  · exact totalsExact_of_sumsUp Accumulation.sumsUp_wrappingPairs fun _ => rfl

/-- A table whose values are bytes. -/
def byteTable : Table ZeroVacant (FixedInt (.unsigned 8)) 1 :=
  (Operation.run Scheme.ofWords Accumulation.listing
    [.insert ⟨1⟩ ⟨200, by decide, by decide⟩, .insert ⟨2⟩ ⟨55, by decide, by decide⟩,
      .insert ⟨2⟩ ⟨1, by decide, by decide⟩] ⟨empty 8, 0⟩).2.table

theorem reachable_byteTable : Reachable Scheme.ofWords byteTable :=
  Reachable.run_empty Accumulation.listing (by decide) (by simp [Operation.Legal]) 0

/-- The three bytes add up to 256, which is out of range, also after growth. Once one of them has
been taken out, the others are in range. -/
theorem totals_exact_byteTable :
    (byteTable.total (.checked (.unsigned 8))).mapError Fault.message =
        .error "attempt to add with overflow" ∧
      (byteTable.grow Scheme.ofWords).table.capacity = 16 ∧
      (byteTable.grow Scheme.ofWords).table.total (.checked (.unsigned 8)) =
        byteTable.total (.checked (.unsigned 8)) ∧
      ((byteTable.erase Scheme.ofWords ⟨2⟩).table.total (.checked (.unsigned 8))).mapError
        Fault.message = .ok ⟨201, by decide, by decide⟩ := by
  have totals := totals_exact.{0, 0}.1 8
  have erased : Reachable Scheme.ofWords (byteTable.erase Scheme.ofWords ⟨2⟩).table :=
    reachable_byteTable.performed (Operation.erase (⟨2⟩ : ZeroVacant)) 0 trivial
  refine ⟨?_, by decide +kernel, totals.grow reachable_byteTable, ?_⟩
  · rw [totals.exact reachable_byteTable]
    decide +kernel
  · rw [totals.exact erased]
    decide +kernel

end Table

end TwoChoice
