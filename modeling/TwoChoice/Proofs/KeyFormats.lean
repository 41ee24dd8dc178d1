import TwoChoice.Proofs.Lockstep

/-!
# Formats of keys

A table compares keys, asks whether they are vacant, and hashes their 64-bit patterns. Two formats
extend a number that both can store to the same pattern, whatever their widths and whether or not
they have a sign. So runs that name the same numbers as keys stay in step, although each format
marks vacant slots by a number of its own.

## Main Definitions

* `FixedInt.pattern` — a number in as many bits as its format has
* `SameNumber` — two keys of different formats that are the same number and not vacant
* `Table.numbers` — the numbers that a table has in its slots
* `Table.SameNumbers` — two steps that differ only in the format of keys

## Main Statements

* `FixedInt.toBitVec_bits_eq` — patterns are extended by the sign, or by zeros if there is none
* `Scheme.alike_ofMixer` — the same number is hashed alike in every format
* `Table.sameNumbers_run` — runs that differ only in the format of keys take steps that do
-/

namespace TwoChoice

universe v w

/-! ### Patterns -/

namespace FixedInt

variable {f : IntFormat}

/-- The number in as many bits as its format has. -/
def pattern (a : FixedInt f) : BitVec f.width :=
  BitVec.ofInt f.width a.val

/-- With a sign, the number is read off its pattern in two's complement. -/
theorem toInt_pattern (a : FixedInt f) (signed : f.signed = true) (positive : 0 < f.width) :
    a.pattern.toInt = a.val := by
  have least_le := a.least_le
  have le_greatest := a.le_greatest
  simp only [IntFormat.least, IntFormat.greatest, signed, if_true, Nat.one_shiftLeft]
    at least_le le_greatest
  have double : 2 ^ f.width = 2 ^ (f.width - 1) * 2 := by
    rw [← Nat.pow_succ, Nat.succ_eq_add_one, Nat.sub_add_cancel positive]
  rw [pattern, BitVec.toInt_ofInt, double]
  apply Int.bmod_eq_of_le
  · push_cast at least_le ⊢
    omega
  · push_cast at le_greatest ⊢
    omega

/-- Without a sign, it is the pattern as a natural number. -/
theorem toNat_pattern (a : FixedInt f) (unsigned : f.signed = false) :
    (a.pattern.toNat : Int) = a.val := by
  have least_le := a.least_le
  have le_greatest := a.le_greatest
  simp only [IntFormat.least, IntFormat.greatest, unsigned, Bool.false_eq_true, if_false,
    Nat.one_shiftLeft] at least_le le_greatest
  have modulus_ne : ((2 ^ f.width : Nat) : Int) ≠ 0 := by
    have positive := Nat.two_pow_pos f.width
    omega
  rw [pattern, BitVec.toNat_ofInt, Int.toNat_of_nonneg (Int.emod_nonneg _ modulus_ne),
    Int.emod_eq_of_lt least_le (by omega)]

/-- The pattern that is hashed is the number in 64 bits, in two's complement. -/
theorem toBitVec_bits (a : FixedInt f) : a.bits.toBitVec = BitVec.ofInt 64 a.val := by
  have below : (a.val % 2 ^ 64).toNat < 2 ^ 64 := by
    have lt := Int.emod_lt_of_pos a.val (by decide : (0 : Int) < 2 ^ 64)
    omega
  apply BitVec.eq_of_toNat_eq
  rw [bits, UInt64.ofInt, UInt64.toNat_toBitVec, UInt64.toNat_ofNat_of_lt' below,
    BitVec.toNat_ofInt]
  rfl

/-- The pattern that is hashed is that of the number, extended by its sign or else by zeros. -/
theorem toBitVec_bits_eq (a : FixedInt f) (positive : 0 < f.width) :
    a.bits.toBitVec = if f.signed then a.pattern.signExtend 64 else a.pattern.setWidth 64 := by
  rw [toBitVec_bits]
  by_cases signed : f.signed = true
  · rw [if_pos signed, BitVec.signExtend, a.toInt_pattern signed positive]
  · rw [if_neg signed, ← a.toNat_pattern (Bool.eq_false_of_not_eq_true signed),
      BitVec.ofInt_natCast, BitVec.ofNat_toNat]

/-- The number of a key, and none for the key that marks vacant slots. -/
def number? (a : FixedInt f) : Option Int :=
  if a = Key.vacant then none else some a.val

end FixedInt

/-! ### The same numbers -/

variable {f f' : IntFormat}

/-- Two keys that are the same number, and that mark vacant slots in neither format. -/
structure SameNumber (a : FixedInt f) (b : FixedInt f') : Prop where
  /-- The numbers are the same. -/
  val_eq : a.val = b.val
  /-- The first key is not vacant. -/
  left_live : a ≠ Key.vacant
  /-- Nor is the second. -/
  right_live : b ≠ Key.vacant

instance (a : FixedInt f) (b : FixedInt f') : Decidable (SameNumber a b) :=
  decidable_of_iff (a.val = b.val ∧ a ≠ Key.vacant ∧ b ≠ Key.vacant)
    ⟨fun ⟨same, left, right⟩ => ⟨same, left, right⟩,
      fun same => ⟨same.val_eq, same.left_live, same.right_live⟩⟩

/-- The same number is hashed alike in every format. -/
theorem Scheme.alike_ofMixer (mix : UInt64 → UInt64) (l l' : Layout) :
    Alike (SameNumber : FixedInt f → FixedInt f' → Prop) (ofMixer mix l) (ofMixer mix l') where
  vacant_iff same := iff_of_false same.left_live same.right_live
  eq_iff same other := by
    rw [FixedInt.ext_iff, FixedInt.ext_iff, same.val_eq, other.val_eq]
  hash_eq same := by
    -- A pattern depends on the number alone.
    show mix (UInt64.ofInt _) = mix (UInt64.ofInt _)
    rw [same.val_eq]

/-- Slots that correspond hold the same number or are both vacant. -/
theorem SlotKeys.number?_eq {a : FixedInt f} {b : FixedInt f'} (keys : SlotKeys SameNumber a b) :
    a.number? = b.number? := by
  rcases keys with same | ⟨vacant, vacant'⟩
  · rw [FixedInt.number?, FixedInt.number?, if_neg same.left_live, if_neg same.right_live,
      same.val_eq]
  · rw [FixedInt.number?, FixedInt.number?, if_pos vacant, if_pos vacant']

variable {V : Type v} {A : Type w} {slots : Nat}

namespace Table

/-- The numbers that a table has in its slots, group by group, and none for a vacant slot. -/
def numbers (t : Table (FixedInt f) V slots) : List (List (Option Int)) :=
  t.groups.toList.map fun g => g.keys.toList.map FixedInt.number?

theorem Parallel.numbers_eq {t : Table (FixedInt f) V slots} {t' : Table (FixedInt f') V slots}
    (parallel : t.Parallel SameNumber Eq t') : t.numbers = t'.numbers := by
  unfold numbers
  rw [← List.forall₂_eq_eq_eq, List.forall₂_map_left_iff, List.forall₂_map_right_iff]
  refine parallel.groups.imp fun g g' group => List.ext_getElem (by simp) fun i inLeft inRight => ?_
  rw [List.length_map, Vector.length_toList] at inLeft
  simpa using (group.keys i inLeft).number?_eq

/-- Two steps that differ in nothing but the format of keys and the bytes that they take up. -/
structure SameNumbers (s : Scheme (FixedInt f)) (s' : Scheme (FixedInt f'))
    (step : Step (FixedInt f) V slots A) (step' : Step (FixedInt f') V slots A) : Prop extends
    StepPair SameNumber Eq Eq (fun _ _ => True) step step' where
  /-- The same numbers lie in the same slots, and the same slots are vacant. -/
  numbers_eq : step.state.table.numbers = step'.state.table.numbers
  /-- The tables show the same. -/
  view : SameView s s' step.state.table step'.state.table

variable {t : Table (FixedInt f) V slots} {t' : Table (FixedInt f') V slots}

/-- Two runs of calls that name the same numbers take steps that differ only in the format of keys,
if neither lacks an allocation. The hash may be any function of the patterns of keys. -/
theorem sameNumbers_run (mix : UInt64 → UInt64) {l l' : Layout} (aligned : l.Aligned)
    (aligned' : l'.Aligned) {groups : Nat} (made : withGroups (Scheme.ofMixer mix l) groups = .ok t)
    (made' : withGroups (Scheme.ofMixer mix l') groups = .ok t') (acc : Accumulation V A)
    {calls : List (Call (FixedInt f) V)} {calls' : List (Call (FixedInt f') V)}
    (pairs : List.Forall₂ (CallPair SameNumber Eq) calls calls')
    (returns : ∀ step ∈ Call.trace (Scheme.ofMixer mix l) acc calls t,
      ¬LacksAllocation step.answer)
    (returns' : ∀ step ∈ Call.trace (Scheme.ofMixer mix l') acc calls' t',
      ¬LacksAllocation step.answer) :
    List.Forall₂ (SameNumbers (Scheme.ofMixer mix l) (Scheme.ofMixer mix l'))
      (Call.trace (Scheme.ofMixer mix l) acc calls t)
      (Call.trace (Scheme.ofMixer mix l') acc calls' t') := by
  have parallel : t.Parallel SameNumber Eq t' := Parallel.of_withGroups made made'
  have steps := parallel.forall₂_trace (Scheme.alike_ofMixer mix l l') aligned aligned'
    (fits_of_withGroups made) (fits_of_withGroups made') pairs (fun _ => acc.alike_self) returns
    returns'
  exact steps.imp fun _ _ ⟨step, view⟩ => ⟨step, step.table.numbers_eq, view⟩

/-- A number as a key, or zero where the format has no such number. -/
def numberKey (f : IntFormat) (z : Int) : FixedInt f :=
  (FixedInt.ofInt? f z).getD (FixedInt.zero f)

/-- Calls that name negative numbers, down to the least of eight bits. -/
def negativeCalls (f : IntFormat) : List (Call (FixedInt f) UInt64) :=
  [⟨.insert (numberKey f (-128)) 10, 0⟩, ⟨.insert (numberKey f (-1)) 20, 0⟩,
    ⟨.insert (numberKey f (-1)) 21, 0⟩, ⟨.find (numberKey f (-128)), 0⟩, ⟨.grow, 2⟩,
    ⟨.erase (numberKey f (-1)), 2⟩, ⟨.get (numberKey f 5), 2⟩, ⟨.describe, 2⟩, ⟨.report, 2⟩,
    ⟨.eraseUnchecked (numberKey f 5), 2⟩]

/-- Keys of eight bits and keys of 64 bits are stored and found in step. -/
theorem sameNumbers_run_negative :
    (withGroups (Scheme.ofMixer Hash.avalanche ⟨1, 1, 8, 8⟩) 8 :
        Except Fault (Table (FixedInt (.twosComplement 8)) UInt64 2)) = .ok (empty 8) ∧
      (withGroups (Scheme.ofMixer Hash.avalanche ⟨8, 8, 8, 8⟩) 8 :
        Except Fault (Table (FixedInt (.twosComplement 64)) UInt64 2)) = .ok (empty 8) ∧
      List.Forall₂
        (SameNumbers (Scheme.ofMixer Hash.avalanche ⟨1, 1, 8, 8⟩)
          (Scheme.ofMixer Hash.avalanche ⟨8, 8, 8, 8⟩))
        (Call.trace (Scheme.ofMixer Hash.avalanche ⟨1, 1, 8, 8⟩) Accumulation.wrapping
          (negativeCalls (.twosComplement 8)) (empty 8 : Table _ UInt64 2))
        (Call.trace (Scheme.ofMixer Hash.avalanche ⟨8, 8, 8, 8⟩) Accumulation.wrapping
          (negativeCalls (.twosComplement 64)) (empty 8 : Table _ UInt64 2)) := by
  have made : (withGroups (Scheme.ofMixer Hash.avalanche ⟨1, 1, 8, 8⟩) 8 :
      Except Fault (Table (FixedInt (.twosComplement 8)) UInt64 2)) = .ok (empty 8) :=
    withGroups_eq_of_le (by decide) (by decide)
  have made' : (withGroups (Scheme.ofMixer Hash.avalanche ⟨8, 8, 8, 8⟩) 8 :
      Except Fault (Table (FixedInt (.twosComplement 64)) UInt64 2)) = .ok (empty 8) :=
    withGroups_eq_of_le (by decide) (by decide)
  have same : ∀ z ∈ [-128, -1, 5],
      SameNumber (numberKey (.twosComplement 8) z) (numberKey (.twosComplement 64) z) := by
    decide +kernel
  have pairs : List.Forall₂ (CallPair SameNumber Eq) (negativeCalls (.twosComplement 8))
      (negativeCalls (.twosComplement 64)) := by
    repeat' first | exact same _ (by decide) | constructor
  refine ⟨made, made', sameNumbers_run Hash.avalanche (by decide) (by decide) made made'
    Accumulation.wrapping pairs ?_ ?_⟩
  · decide +kernel
  · decide +kernel

end Table

end TwoChoice
