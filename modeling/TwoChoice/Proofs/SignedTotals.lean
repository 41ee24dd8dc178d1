import Mathlib.Algebra.Order.BigOperators.Group.List
import Mathlib.Algebra.Order.Group.PosPart
import Mathlib.Algebra.Order.Ring.Int
import TwoChoice.Proofs.Faults
import TwoChoice.Proofs.Totals

/-!
# Totals of signed integers

A positive and a negative number can cancel each other out. So a partial sum of signed integers may
be out of range although the sum of all is not, and which partial sums there are is up to the order
in which the entries lie. Growth places the entries again, in another order, and with it the total
of a table may come and go.

What does not depend on the order is the sum of the positive numbers, and that of the negative ones.
No partial sum is greater than the one or less than the other, and there are orders in which each of
them is reached. So the total is told in every order exactly if both of these sums are in range. It
is enough that no two numbers have opposite signs and that the sum of all is in range. A total that
is told is exact in any case.

## Main Definitions

* `IntFormat.Keeps` — adding some numbers one after another never leaves the range of a format
* `gains`, `losses` — the sums of the positive and of the negative numbers
* `Table.TotalsByOrder` — which totals a table has, before and after growth

## Main Statements

* `Accumulation.run_checked_eq_ok_iff` — a total is told exactly if no partial sum is out of range
* `forall_perm_keeps_iff` — that is so in every order exactly if gains and losses are in range
* `Table.Reachable.signed_totals` — totals of tables
-/

namespace TwoChoice

universe u v

/-! ### Partial sums -/

namespace IntFormat

/-- The integers from the least of a format to the greatest. -/
def InRange (f : IntFormat) (z : Int) : Prop :=
  f.least ≤ z ∧ z ≤ f.greatest

instance (f : IntFormat) (z : Int) : Decidable (f.InRange z) :=
  inferInstanceAs (Decidable (_ ∧ _))

/-- Adding some numbers to a start, one after another, never leaves the range of a format. -/
def Keeps (f : IntFormat) (start : Int) (numbers : List Int) : Prop :=
  ∀ front, front <+: numbers → f.InRange (start + front.sum)

variable {f : IntFormat} {start z : Int} {numbers : List Int}

@[simp] theorem keeps_nil : f.Keeps start [] ↔ f.InRange start := by
  simp [Keeps]

@[simp] theorem keeps_cons :
    f.Keeps start (z :: numbers) ↔ f.InRange start ∧ f.Keeps (start + z) numbers := by
  constructor
  · intro keeps
    refine ⟨by simpa using keeps [] List.nil_prefix, fun front before => ?_⟩
    have longer := keeps (z :: front) ((List.prefix_cons_inj z).mpr before)
    rwa [List.sum_cons, ← add_assoc] at longer
  · rintro ⟨now, later⟩ front before
    rcases List.prefix_cons_iff.mp before with rfl | ⟨front', rfl, before'⟩
    · simpa using now
    · rw [List.sum_cons, ← add_assoc]
      exact later front' before'

end IntFormat

theorem FixedInt.inRange_val {f : IntFormat} (value : FixedInt f) : f.InRange value.val :=
  ⟨value.least_le, value.le_greatest⟩

namespace Accumulation

variable {f : IntFormat} {values : List (FixedInt f)}

/-- Checked additions, one after another, come to an end exactly if no partial sum is out of range,
and then what they come to is the sum. -/
theorem addAll_checked_eq_ok_iff {total total' : FixedInt f} :
    (checked f).addAll total values = .ok total' ↔
      f.Keeps total.val (values.map FixedInt.val) ∧
        total'.val = total.val + (values.map FixedInt.val).sum := by
  induction values generalizing total with
  | nil =>
    have inRange := total.inRange_val
    simp [addAll, inRange, FixedInt.ext_iff, eq_comm]
  | cons value rest ih =>
    have inRange := total.inRange_val
    rw [List.map_cons, IntFormat.keeps_cons, List.sum_cons, ← add_assoc, addAll, checked]
    dsimp only
    cases next : FixedInt.ofInt? f (total.val + value.val) with
    | some sum =>
      rw [← FixedInt.ofInt?_eq_some_iff.mp next, and_iff_right inRange]
      exact ih
    | none =>
      have outside := FixedInt.ofInt?_eq_none_iff.mp next
      constructor
      · rintro ⟨⟩
      · rintro ⟨⟨-, keeps⟩, -⟩
        have next_inRange : f.InRange (total.val + value.val) := by
          simpa using keeps [] List.nil_prefix
        exact absurd next_inRange outside

/-- A total of integers is told exactly if no partial sum is out of range, and it is the sum. -/
theorem run_checked_eq_ok_iff {total : FixedInt f} :
    (checked f).run values = .ok total ↔
      f.Keeps 0 (values.map FixedInt.val) ∧ total.val = (values.map FixedInt.val).sum := by
  have zero_eq : (checked f).zero.val = 0 := rfl
  rw [run, addAll_checked_eq_ok_iff, zero_eq, zero_add]

/-- Otherwise the addition overflows. -/
theorem run_checked_of_not_keeps (leaves : ¬f.Keeps 0 (values.map FixedInt.val)) :
    (checked f).run values = .error .totalOverflow := by
  cases told : (checked f).run values with
  | ok total => exact absurd (run_checked_eq_ok_iff.mp told).1 leaves
  | error fault =>
    have cause := (checked f).failsOnly_addAll values (checked f).zero fault told
    rw [List.mem_singleton.mp cause]

end Accumulation

/-! ### Gains and losses -/

/-- The sum of the positive numbers among some. -/
def gains (numbers : List Int) : Int :=
  (numbers.map fun z => z⁺).sum

/-- The sum of the negative numbers among some, without its sign. -/
def losses (numbers : List Int) : Int :=
  (numbers.map fun z => z⁻).sum

section Envelope

variable {f : IntFormat} {numbers numbers' : List Int}

/-- The gains less the losses are the sum. -/
theorem gains_sub_losses (numbers : List Int) : gains numbers - losses numbers = numbers.sum := by
  induction numbers with
  | nil => rfl
  | cons z rest ih =>
    have split : z⁺ - z⁻ = z := posPart_sub_negPart z
    simp only [gains, losses, List.map_cons, List.sum_cons] at ih ⊢
    omega

/-- Losses are the gains of the numbers with opposite signs. -/
theorem losses_eq_gains (numbers : List Int) :
    losses numbers = gains (numbers.map fun z => -z) := by
  simp only [losses, gains, List.map_map, Function.comp_def, posPart_neg]

theorem gains_eq_of_perm (same : numbers'.Perm numbers) : gains numbers' = gains numbers :=
  (same.map _).sum_eq

theorem losses_eq_of_perm (same : numbers'.Perm numbers) : losses numbers' = losses numbers :=
  (same.map _).sum_eq

theorem gains_nonneg (numbers : List Int) : 0 ≤ gains numbers := by
  refine List.sum_nonneg fun z mem => ?_
  obtain ⟨z', -, rfl⟩ := List.mem_map.mp mem
  exact posPart_nonneg z'

theorem losses_nonneg (numbers : List Int) : 0 ≤ losses numbers :=
  losses_eq_gains numbers ▸ gains_nonneg _

/-- Some of the numbers have no greater gains than all of them. -/
theorem gains_le_of_sublist (some : numbers'.Sublist numbers) : gains numbers' ≤ gains numbers := by
  refine (some.map _).sum_le_sum fun z mem => ?_
  obtain ⟨z', -, rfl⟩ := List.mem_map.mp mem
  exact posPart_nonneg z'

/-- Nor have they greater losses. -/
theorem losses_le_of_sublist (some : numbers'.Sublist numbers) :
    losses numbers' ≤ losses numbers := by
  rw [losses_eq_gains, losses_eq_gains]
  exact gains_le_of_sublist (some.map _)

theorem gains_eq_zero (nonpos : ∀ z ∈ numbers, z ≤ 0) : gains numbers = 0 := by
  refine List.sum_eq_zero fun z mem => ?_
  obtain ⟨z', inList, rfl⟩ := List.mem_map.mp mem
  exact posPart_of_nonpos (nonpos z' inList)

/-- Numbers that are not negative are their own gains. -/
theorem losses_eq_zero (nonneg : ∀ z ∈ numbers, 0 ≤ z) : losses numbers = 0 := by
  rw [losses_eq_gains]
  refine gains_eq_zero fun z mem => ?_
  obtain ⟨z', inList, rfl⟩ := List.mem_map.mp mem
  exact neg_nonpos.mpr (nonneg z' inList)

/-- No partial sum exceeds the gains or falls below the losses. -/
theorem keeps_of_envelope (low : f.least ≤ -losses numbers) (high : gains numbers ≤ f.greatest) :
    f.Keeps 0 numbers := by
  intro front before
  have gains_le := gains_le_of_sublist before.sublist
  have losses_le := losses_le_of_sublist before.sublist
  have split := gains_sub_losses front
  have gains_nonneg := gains_nonneg front
  have losses_nonneg := losses_nonneg front
  constructor <;> omega

theorem gains_append (numbers numbers' : List Int) :
    gains (numbers ++ numbers') = gains numbers + gains numbers' := by
  simp [gains]

theorem losses_append (numbers numbers' : List Int) :
    losses (numbers ++ numbers') = losses numbers + losses numbers' := by
  simp [losses]

/-- The numbers that are not negative add up to the gains, and the others to the losses. -/
theorem exists_perm_append (numbers : List Int) :
    ∃ front back : List Int, (front ++ back).Perm numbers ∧ front.sum = gains numbers ∧
      back.sum = -losses numbers := by
  have perm := List.filter_append_perm (fun z : Int => decide (0 ≤ z)) numbers
  refine ⟨_, _, perm, ?_⟩
  have noLosses : losses (numbers.filter fun z => decide (0 ≤ z)) = 0 :=
    losses_eq_zero fun z mem => by simpa using (List.mem_filter.mp mem).2
  have noGains : gains (numbers.filter fun z => !decide (0 ≤ z)) = 0 := by
    refine gains_eq_zero fun z mem => ?_
    have negative : z < 0 := by simpa using (List.mem_filter.mp mem).2
    exact negative.le
  have gains_eq := gains_eq_of_perm perm
  have losses_eq := losses_eq_of_perm perm
  rw [gains_append, noGains, add_zero] at gains_eq
  rw [losses_append, noLosses, zero_add] at losses_eq
  rw [← gains_sub_losses, ← gains_sub_losses, noLosses, noGains, gains_eq, losses_eq]
  constructor <;> omega

/-- No order of some numbers leaves the range exactly if their gains and their losses are in it. -/
theorem forall_perm_keeps_iff :
    (∀ numbers', numbers'.Perm numbers → f.Keeps 0 numbers') ↔
      f.least ≤ -losses numbers ∧ gains numbers ≤ f.greatest := by
  constructor
  · intro always
    obtain ⟨front, back, perm, front_eq, back_eq⟩ := exists_perm_append numbers
    have rise := always _ perm front (List.prefix_append front back)
    have fall := always _ (List.perm_append_comm.trans perm) back (List.prefix_append back front)
    rw [zero_add, front_eq] at rise
    rw [zero_add, back_eq] at fall
    exact ⟨fall.1, rise.2⟩
  · rintro ⟨low, high⟩ numbers' same
    exact keeps_of_envelope (losses_eq_of_perm same ▸ low) (gains_eq_of_perm same ▸ high)

/-- Numbers without opposite signs leave the range only if the sum of all of them does. -/
theorem envelope_of_oneSign (inRange : f.InRange numbers.sum)
    (oneSign : (∀ z ∈ numbers, 0 ≤ z) ∨ ∀ z ∈ numbers, z ≤ 0) :
    f.least ≤ -losses numbers ∧ gains numbers ≤ f.greatest := by
  have split := gains_sub_losses numbers
  have least_le_zero := f.least_le_zero
  have zero_le_greatest := f.zero_le_greatest
  obtain ⟨low, high⟩ := inRange
  rcases oneSign with nonneg | nonpos
  · have noLosses := losses_eq_zero nonneg
    constructor <;> omega
  · have noGains := gains_eq_zero nonpos
    constructor <;> omega

end Envelope

/-! ### Tables -/

namespace Table

variable {K : Type u} {slots : Nat} {f : IntFormat} [Key K] [DecidableEq K]
variable {s : Scheme K} {t t' : Table K (FixedInt f) slots}

/-- The values of a table as integers, in the order in which they are added up. -/
def amounts (t : Table K (FixedInt f) slots) : List Int :=
  t.toList.map fun entry => entry.2.val

/-- A table has the sum of its values as its total, before growth and after it. -/
def KeepsTotal (s : Scheme K) (t : Table K (FixedInt f) slots) : Prop :=
  ∃ total : FixedInt f, total.val = t.amounts.sum ∧ t.total (.checked f) = .ok total ∧
    (t.grow s).table.total (.checked f) = .ok total

namespace WellFormed

theorem total_checked_eq (wellFormed : t.WellFormed s) :
    t.total (.checked f) = (Accumulation.checked f).run (t.toList.map Prod.snd) ∧
      (t.toList.map Prod.snd).map FixedInt.val = t.amounts := by
  refine ⟨wellFormed.total_eq _, ?_⟩
  rw [List.map_map]
  rfl

/-- The total of a table is told exactly if no partial sum is out of range, and it is the sum. -/
theorem total_eq_ok_iff (wellFormed : t.WellFormed s) {total : FixedInt f} :
    t.total (.checked f) = .ok total ↔ f.Keeps 0 t.amounts ∧ total.val = t.amounts.sum := by
  obtain ⟨total_eq, amounts_eq⟩ := wellFormed.total_checked_eq
  rw [total_eq, ← amounts_eq]
  exact Accumulation.run_checked_eq_ok_iff

theorem total_of_not_keeps (wellFormed : t.WellFormed s) (leaves : ¬f.Keeps 0 t.amounts) :
    t.total (.checked f) = .error .totalOverflow := by
  obtain ⟨total_eq, amounts_eq⟩ := wellFormed.total_checked_eq
  rw [total_eq]
  exact Accumulation.run_checked_of_not_keeps (amounts_eq ▸ leaves)

theorem perm_amounts_grow (wellFormed : t.WellFormed s) :
    (t.grow s).table.amounts.Perm t.amounts :=
  wellFormed.perm_grow.map _

/-- If gains and losses are in range, a table keeps its total through growth. -/
theorem keepsTotal (wellFormed : t.WellFormed s) (low : f.least ≤ -losses t.amounts)
    (high : gains t.amounts ≤ f.greatest) : t.KeepsTotal s := by
  have always := forall_perm_keeps_iff.mpr ⟨low, high⟩
  have inRange := always _ (List.Perm.refl _) _ (List.prefix_refl _)
  rw [zero_add] at inRange
  have perm := wellFormed.perm_amounts_grow
  refine ⟨⟨_, inRange.1, inRange.2⟩, rfl, ?_, ?_⟩
  · exact wellFormed.total_eq_ok_iff.mpr ⟨always _ (List.Perm.refl _), rfl⟩
  · exact wellFormed.grow.total_eq_ok_iff.mpr ⟨always _ perm, perm.sum_eq.symm⟩

end WellFormed

/-- Which totals a table of integers has, before growth and after it. -/
structure TotalsByOrder (s : Scheme K) (t : Table K (FixedInt f) slots) : Prop where
  /-- The total is told exactly if no partial sum, in the order in which the entries lie, is out of
  range. Then it is the sum. -/
  told : ∀ total, t.total (.checked f) = .ok total ↔
    f.Keeps 0 t.amounts ∧ total.val = t.amounts.sum
  /-- Otherwise the addition overflows. -/
  overflows : ¬f.Keeps 0 t.amounts →
    (t.total (.checked f)).mapError Fault.message = .error "attempt to add with overflow"
  /-- Totals that are told before and after growth are the same. -/
  agrees : ∀ total total', t.total (.checked f) = .ok total →
    (t.grow s).table.total (.checked f) = .ok total' → total' = total
  /-- The total is told in every order of the values exactly if the sum of the positive ones and
  that of the negative ones are in range. -/
  everyOrder : (∀ numbers, numbers.Perm t.amounts → f.Keeps 0 numbers) ↔
    f.least ≤ -losses t.amounts ∧ gains t.amounts ≤ f.greatest
  /-- Then it is the same before and after growth. -/
  steady : f.least ≤ -losses t.amounts → gains t.amounts ≤ f.greatest → t.KeepsTotal s
  /-- So it is if no two values have opposite signs and their sum is in range. -/
  oneSign : ((∀ z ∈ t.amounts, 0 ≤ z) ∨ ∀ z ∈ t.amounts, z ≤ 0) → f.InRange t.amounts.sum →
    t.KeepsTotal s

/-- A total that is told is the sum of the values. It is told as long as no partial sum is out of
range, which is so in every order exactly if the sum of the positive values and that of the negative
ones are in range. Then growth keeps the total. -/
theorem Reachable.signed_totals (reachable : Reachable s t) : t.TotalsByOrder s := by
  have wellFormed := reachable.wellFormed
  constructor
  case told => exact fun total => wellFormed.total_eq_ok_iff
  case overflows =>
    intro leaves
    rw [wellFormed.total_of_not_keeps leaves]
    rfl
  case agrees =>
    intro total total' before after
    have total_eq := (wellFormed.total_eq_ok_iff.mp before).2
    have total'_eq := (wellFormed.grow.total_eq_ok_iff.mp after).2
    rw [FixedInt.ext_iff, total_eq, total'_eq]
    exact wellFormed.perm_amounts_grow.sum_eq
  case everyOrder => exact forall_perm_keeps_iff
  case steady => exact wellFormed.keepsTotal
  case oneSign =>
    intro oneSign inRange
    obtain ⟨low, high⟩ := envelope_of_oneSign inRange oneSign
    exact wellFormed.keepsTotal low high

/-! ### A total that growth takes away -/

/-- Keys and values in one byte each, the keys hashed to themselves. -/
def byteScheme : Scheme (FixedInt (.twosComplement 8)) :=
  Scheme.ofMixer (Hash.affine 1 0) ⟨1, 1, 1, 1⟩

/-- A table in which a negative value lies between two positive ones. -/
def cancelling : Table (FixedInt (.twosComplement 8)) (FixedInt (.twosComplement 8)) 4 :=
  (Operation.run byteScheme Accumulation.listing
    [.insert ⟨1, by decide, by decide⟩ ⟨100, by decide, by decide⟩,
      .insert ⟨10, by decide, by decide⟩ ⟨-100, by decide, by decide⟩,
      .insert ⟨3, by decide, by decide⟩ ⟨100, by decide, by decide⟩] ⟨empty 8, 0⟩).2.table

theorem reachable_cancelling : Reachable byteScheme cancelling :=
  Reachable.run_empty Accumulation.listing (by decide) (by simp [Operation.Legal]) 0

/-- The values add up to 100, and the total is told. Their gains are out of range, and growth brings
the positive values together. -/
theorem signed_totals_cancelling :
    Reachable byteScheme cancelling ∧ cancelling.TotalsByOrder byteScheme ∧
      cancelling.amounts = [100, -100, 100] ∧
      cancelling.total (.checked (.twosComplement 8)) = .ok ⟨100, by decide, by decide⟩ ∧
      gains cancelling.amounts = 200 := by
  have totals := reachable_cancelling.signed_totals
  have amounts_eq : cancelling.amounts = [100, -100, 100] := by decide +kernel
  have keeps : (IntFormat.twosComplement 8).Keeps 0 cancelling.amounts := by
    rw [amounts_eq]
    simp only [IntFormat.keeps_cons, IntFormat.keeps_nil]
    decide
  refine ⟨reachable_cancelling, totals, amounts_eq, ?_, ?_⟩
  · refine (totals.told _).mpr ⟨keeps, ?_⟩
    rw [amounts_eq]
    rfl
  · rw [amounts_eq]
    rfl

/-- It is not so that a table keeps a total that is in range. After growth the addition
overflows. -/
theorem total_lost_by_growth :
    Reachable byteScheme cancelling ∧
      (IntFormat.twosComplement 8).InRange cancelling.amounts.sum ∧
      ((cancelling.grow byteScheme).table.total (.checked (.twosComplement 8))).mapError
        Fault.message = .error "attempt to add with overflow" ∧
      ¬∀ t : Table (FixedInt (.twosComplement 8)) (FixedInt (.twosComplement 8)) 4,
        Reachable byteScheme t → (IntFormat.twosComplement 8).InRange t.amounts.sum →
          t.KeepsTotal byteScheme := by
  have inRange : (IntFormat.twosComplement 8).InRange cancelling.amounts.sum := by decide +kernel
  have overflows : (cancelling.grow byteScheme).table.total (.checked (.twosComplement 8)) =
      .error .totalOverflow := by decide +kernel
  refine ⟨reachable_cancelling, inRange, by rw [overflows]; rfl, fun always => ?_⟩
  obtain ⟨total, -, -, told⟩ := always cancelling reachable_cancelling inRange
  rw [overflows] at told
  cases told

end Table

end TwoChoice
