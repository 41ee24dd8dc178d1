import Mathlib.Algebra.Order.BigOperators.Group.List
import Mathlib.Data.Nat.Cast.Basic
import TwoChoice.Proofs.Invariant

/-!
# What an allocation bounds

The groups of a table lie in one allocation, and the bytes of an allocation are bounded. That is
tested when a table is made and whenever it grows, and at no other time. If a group takes up any
room at all, the test bounds everything that is counted or measured of a table: its groups, its
slots, its entries and its bytes all fit in 64 bits.

## Main Definitions

* `Layout.Aligned` — a layout whose alignments are positive
* `Table.Allocated` — a well-formed table whose groups take up room and fit one allocation

## Main Statements

* `Table.Reachable.fits` — the groups of a reachable table fit one allocation
* `Table.Reachable.copy_eq` — a reachable table can be copied, and the copy equals it
* `Table.Allocated.capacity_mul_slots_le`, `Table.Allocated.two_mul_slots_lt` — bounds on the slots
* `Table.Allocated.memoryUsage_eq`, `Table.Allocated.vacantBytes_lt` — bounds on the bytes
-/

namespace TwoChoice

universe u v w

/-! ### Layouts -/

theorem le_roundUp {alignment : Nat} (positive : 0 < alignment) (size : Nat) :
    size ≤ roundUp size alignment := by
  unfold roundUp
  have division := Nat.div_add_mod (size + alignment - 1) alignment
  have remainder := Nat.mod_lt (size + alignment - 1) positive
  rw [Nat.mul_comm] at division
  omega

@[simp] theorem roundUp_zero (alignment : Nat) : roundUp 0 alignment = 0 := by
  rcases Nat.eq_zero_or_pos alignment with rfl | positive
  · rfl
  · rw [roundUp, Nat.div_eq_of_lt (by omega), Nat.zero_mul]

namespace Layout

variable {l : Layout} {slots groups : Nat}

/-- The alignments of a layout are positive, as the alignment of every type is. -/
structure Aligned (l : Layout) : Prop where
  /-- The alignment of keys is positive. -/
  keyAlignment_pos : 0 < l.keyAlignment
  /-- The alignment of values is positive. -/
  valueAlignment_pos : 0 < l.valueAlignment

instance (l : Layout) : Decidable l.Aligned :=
  decidable_of_iff (0 < l.keyAlignment ∧ 0 < l.valueAlignment)
    ⟨fun ⟨key, value⟩ => ⟨key, value⟩, fun aligned => ⟨aligned.1, aligned.2⟩⟩

/-- A group has room for the keys and values of all its slots. -/
theorem Aligned.slots_mul_entryBytes_le (aligned : l.Aligned) (slots : Nat) :
    slots * l.entryBytes ≤ l.groupBytes slots := by
  have alignment_pos : 0 < l.groupAlignment :=
    aligned.keyAlignment_pos.trans_le (Nat.le_max_left ..)
  calc slots * l.entryBytes
      = l.keyBytes * slots + l.valueBytes * slots := by
        rw [entryBytes, Nat.mul_comm, Nat.add_mul]
    _ ≤ roundUp (l.keyBytes * slots) l.valueAlignment + l.valueBytes * slots :=
        Nat.add_le_add_right (le_roundUp aligned.valueAlignment_pos _) _
    _ ≤ l.groupBytes slots := le_roundUp alignment_pos _

/-- If a group takes up room, so does an entry. -/
theorem entryBytes_pos (sized : 0 < l.groupBytes slots) : 0 < l.entryBytes := by
  by_contra none
  have noKey : l.keyBytes = 0 := by
    unfold entryBytes at none
    omega
  have noValue : l.valueBytes = 0 := by
    unfold entryBytes at none
    omega
  rw [groupBytes, noKey, noValue, Nat.zero_mul, roundUp_zero, Nat.zero_add, roundUp_zero] at sized
  exact Nat.lt_irrefl 0 sized

/-- What fits one allocation has no more bytes than an allocation may have. -/
theorem Fits.groups_mul_groupBytes_le (fits : l.Fits slots groups) :
    groups * l.groupBytes slots ≤ largestAllocation := by
  have alignment_pos : 0 < max l.target.cacheLine l.groupAlignment :=
    l.target.cacheLine_pos.trans_le (Nat.le_max_left ..)
  exact (le_roundUp alignment_pos _).trans fits

/-- The bytes of groups that fit one allocation can be told. -/
theorem Fits.bytes_eq (fits : l.Fits slots groups) :
    ((Word.mul groups (l.groupBytes slots)).bind fun bytes => Word.add bytes Table.headerBytes) =
      .ok (groups * l.groupBytes slots + Table.headerBytes) := by
  have bytes_le := fits.groups_mul_groupBytes_le
  have largest : largestAllocation + Table.headerBytes < Word.limit := by decide
  rw [Word.mul_of_lt (by omega)]
  exact Word.add_of_lt (by omega)

/-- So can the bytes of the keys and values of some of their slots. -/
theorem Fits.mul_entryBytes_lt (fits : l.Fits slots groups) (aligned : l.Aligned) {n : Nat}
    (le : n ≤ groups * slots) : n * l.entryBytes < Word.limit :=
  calc n * l.entryBytes
      ≤ groups * (slots * l.entryBytes) := by
        rw [← Nat.mul_assoc]
        exact Nat.mul_le_mul_right _ le
    _ ≤ groups * l.groupBytes slots :=
        Nat.mul_le_mul_left _ (aligned.slots_mul_entryBytes_le slots)
    _ ≤ largestAllocation := fits.groups_mul_groupBytes_le
    _ < Word.limit := by decide

/-- If entries take up room, there are not more slots than an allocation may have bytes. -/
theorem Fits.groups_mul_slots_le (fits : l.Fits slots groups) (aligned : l.Aligned)
    (sized : 0 < l.entryBytes) : groups * slots ≤ largestAllocation :=
  calc groups * slots
      ≤ groups * (slots * l.entryBytes) :=
        Nat.mul_le_mul_left _ (Nat.le_mul_of_pos_right _ sized)
    _ ≤ groups * l.groupBytes slots :=
        Nat.mul_le_mul_left _ (aligned.slots_mul_entryBytes_le slots)
    _ ≤ largestAllocation := fits.groups_mul_groupBytes_le

/-- Comparing a key with two whole groups can then be counted from zero. -/
theorem Fits.two_mul_slots_lt (fits : l.Fits slots groups) (aligned : l.Aligned)
    (sized : 0 < l.entryBytes) (two_le : 2 ≤ groups) : 2 * slots < Word.limit :=
  calc 2 * slots ≤ groups * slots := Nat.mul_le_mul_right slots two_le
    _ ≤ largestAllocation := fits.groups_mul_slots_le aligned sized
    _ < Word.limit := by decide

end Layout

/-! ### Tables whose groups fit one allocation -/

variable {K : Type u} {V : Type v} {slots : Nat} {A : Type w} [Key K] [DecidableEq K]

namespace Table

variable {s : Scheme K} {t t' : Table K V slots} {key : K} {value : V}

omit [DecidableEq K] in
theorem capacity_empty (capacity : Nat) : (empty capacity : Table K V slots).capacity = capacity :=
  Array.size_replicate

omit [DecidableEq K] in
theorem capacity_clear (t : Table K V slots) : t.clear.capacity = t.capacity :=
  Array.size_map

omit [DecidableEq K] in
/-- A new table has a usable number of groups, all of them empty, that fit one allocation. -/
theorem exists_capacity_of_withGroups {groups : Nat} (made : withGroups s groups = .ok t) :
    ∃ capacity, Capacity.ofGroups groups = .ok capacity ∧ s.layout.Fits slots capacity ∧
      t = empty capacity := by
  unfold withGroups at made
  cases found : Capacity.ofGroups groups with
  | error fault =>
    rw [found] at made
    cases made
  | ok capacity =>
    have allocated : allocate s.layout capacity = .ok t := by rwa [found] at made
    obtain ⟨-, fits, empty⟩ := of_allocate allocated
    exact ⟨capacity, rfl, fits, empty⟩

omit [DecidableEq K] in
theorem fits_of_withGroups {groups : Nat} (made : withGroups s groups = .ok t) :
    s.layout.Fits slots t.capacity := by
  obtain ⟨capacity, -, fits, rfl⟩ := exists_capacity_of_withGroups made
  rwa [capacity_empty]

/-- What is filled again fits one allocation. -/
theorem fits_of_rebuild {l : List (K × V)} {capacity : Nat}
    (built : rebuild s l capacity = .ok (some t)) : s.layout.Fits slots t.capacity := by
  rw [(capacity_rebuild built).1]
  unfold rebuild at built
  cases made : (allocate s.layout capacity : Except Fault (Table K V slots)) with
  | error fault =>
    rw [made] at built
    cases built
  | ok fresh => exact (of_allocate made).2.1

theorem fits_of_growThrough {l : List (K × V)} {size : Nat} {capacities : List Nat}
    (grew : growThrough s l size capacities = .ok t) : s.layout.Fits slots t.capacity := by
  fun_induction growThrough s l size capacities with
  | case1 => cases grew
  | case2 => cases grew
  | case3 capacity larger _ ih => exact ih grew
  | case4 capacity larger t' built =>
    cases grew
    exact fits_of_rebuild built
  | case5 => cases grew

/-- Growth yields groups that fit one allocation. -/
theorem fits_of_grown (grew : t.grown s = .ok t') : s.layout.Fits slots t'.capacity := by
  unfold grown at grew
  split at grew
  · cases grew
  · exact fits_of_growThrough grew

/-- Taking an entry out leaves the capacity. -/
theorem capacity_erase (t : Table K V slots) (key : K) :
    (t.erase s key).table.capacity = t.capacity := by
  unfold erase
  split
  · rfl
  · rfl
  · split
    · rfl
    · exact capacity_edit ..

theorem capacity_eraseUnchecked (t : Table K V slots) (key : K) :
    (t.eraseUnchecked s key).table.capacity = t.capacity := by
  unfold eraseUnchecked
  split
  · rfl
  · split
    · rfl
    · exact capacity_edit ..

section Capacities

variable {P : Nat → Prop}

theorem capacity_insertLoop (holds : P t.capacity)
    (grows : ∀ t t' : Table K V slots, P t.capacity → t.grown s = .ok t' → P t'.capacity) (key : K)
    (value : V) : P (insertLoop s key value t).table.capacity := by
  fun_induction insertLoop s key value t with
  | case1 => exact holds
  | case2 => rwa [capacity_edit]
  | case3 => exact holds
  | case4 t noRoom larger grew ih => exact ih (grows t larger holds grew)

/-- What growth keeps of a capacity, every operation keeps. -/
theorem capacity_perform (holds : P t.capacity)
    (grows : ∀ t t' : Table K V slots, P t.capacity → t.grown s = .ok t' → P t'.capacity)
    (acc : Accumulation V A) (op : Operation K V) (counter : UInt64) :
    P (op.perform s acc ⟨t, counter⟩).state.table.capacity := by
  cases op with
  | insert key value =>
    show P (t.insert s key value).table.capacity
    unfold insert
    by_cases vacant : key = Key.vacant
    · rwa [if_pos vacant]
    · rw [if_neg vacant]
      exact capacity_insertLoop holds grows key value
  | erase key =>
    show P (t.erase s key).table.capacity
    rwa [capacity_erase]
  | eraseUnchecked key =>
    show P (t.eraseUnchecked s key).table.capacity
    rwa [capacity_eraseUnchecked]
  | grow =>
    show P (t.grow s).table.capacity
    unfold grow
    cases grew : t.grown s with
    | error fault => exact holds
    | ok larger => exact grows t larger holds grew
  | clear =>
    show P t.clear.capacity
    rwa [capacity_clear]
  | copy =>
    rw [Operation.perform_copy]
    exact holds
  | _ => exact holds

end Capacities

/-- Every operation leaves groups that fit one allocation. -/
theorem fits_perform (fits : s.layout.Fits slots t.capacity) (acc : Accumulation V A)
    (op : Operation K V) (counter : UInt64) :
    s.layout.Fits slots (op.perform s acc ⟨t, counter⟩).state.table.capacity :=
  capacity_perform fits (fun _ _ _ => fits_of_grown) acc op counter

/-- As many empty groups as a table has can be allocated if they fit one allocation. -/
theorem WellFormed.allocate_eq (wellFormed : t.WellFormed s)
    (fits : s.layout.Fits slots t.capacity) :
    (allocate s.layout t.capacity : Except Fault (Table K V slots)) = .ok (empty t.capacity) := by
  rw [allocate, if_neg (not_not.mpr wellFormed.isPowerOfTwo), if_neg (not_not.mpr fits)]

/-- So the table can be copied. -/
theorem WellFormed.copy_eq (wellFormed : t.WellFormed s)
    (fits : s.layout.Fits slots t.capacity) : t.copy s = .ok t := by
  rw [Table.copy_eq, wellFormed.allocate_eq fits]
  rfl

namespace Reachable

/-- The groups of a reachable table fit one allocation. -/
theorem fits (reachable : Reachable s t) : s.layout.Fits slots t.capacity := by
  induction reachable with
  | made made => exact fits_of_withGroups made
  | performed op counter _ _ ih => exact fits_perform ih Accumulation.listing op counter

/-- The number of groups of a reachable table is one that a new table can have. -/
theorem usable (reachable : Reachable s t) : Capacity.Usable t.capacity := by
  refine ⟨reachable.wellFormed.isPowerOfTwo, reachable.wellFormed.minimum_le, ?_⟩
  induction reachable with
  | made made =>
    obtain ⟨capacity, found, -, rfl⟩ := exists_capacity_of_withGroups made
    rw [capacity_empty]
    exact (Capacity.usable_of_ofGroups found).lt_limit
  | performed op counter _ _ ih =>
    exact capacity_perform (P := (· < Word.limit)) ih (fun _ _ _ grew => (capacity_grown grew).2)
      Accumulation.listing op counter

/-- As many empty groups as a reachable table has can be allocated. -/
theorem allocate_eq (reachable : Reachable s t) :
    (allocate s.layout t.capacity : Except Fault (Table K V slots)) = .ok (empty t.capacity) :=
  reachable.wellFormed.allocate_eq reachable.fits

/-- A reachable table can be copied. -/
theorem copy_eq (reachable : Reachable s t) : t.copy s = .ok t :=
  reachable.wellFormed.copy_eq reachable.fits

/-- If keys take up room, comparing one with two whole groups can be counted from zero. -/
theorem two_mul_slots_lt (reachable : Reachable s t) (aligned : s.layout.Aligned)
    (sized : 0 < s.layout.keyBytes) : 2 * slots < Word.limit :=
  reachable.fits.two_mul_slots_lt aligned (Nat.add_pos_left sized _)
    ((by decide : 2 ≤ Capacity.minimum).trans reachable.wellFormed.minimum_le)

end Reachable

/-! ### Bounds -/

/-- A well-formed table whose groups take up room and fit one allocation. -/
structure Allocated (s : Scheme K) (t : Table K V slots) : Prop where
  /-- The table is well-formed. -/
  wellFormed : t.WellFormed s
  /-- Its groups fit one allocation. -/
  fits : s.layout.Fits slots t.capacity
  /-- Alignments are positive. -/
  aligned : s.layout.Aligned
  /-- A group takes up room. -/
  sized : 0 < s.layout.groupBytes slots

/-- So is a reachable table, if its groups take up room. -/
theorem Reachable.allocated (reachable : Reachable s t) (aligned : s.layout.Aligned)
    (sized : 0 < s.layout.groupBytes slots) : t.Allocated s :=
  ⟨reachable.wellFormed, reachable.fits, aligned, sized⟩

/-- The fills of all groups add up to the size. -/
theorem WellFormed.sum_fills (wellFormed : t.WellFormed s) :
    t.fills.sum = t.size := by
  rw [fills, wellFormed.size_eq, toList, List.length_flatMap]
  refine congrArg List.sum (List.map_congr_left fun g mem => ?_)
  exact (Group.length_toList (wellFormed.written g (Array.mem_toList_iff.mp mem))).symm

/-- No fill is greater than the number of slots. -/
theorem le_of_mem_fills {n : Nat} (mem : n ∈ t.fills) : n ≤ slots := by
  obtain ⟨g, -, rfl⟩ := List.mem_map.mp mem
  exact g.fill_le

/-- There are not more entries than slots. -/
theorem WellFormed.size_le (wellFormed : t.WellFormed s) : t.size ≤ t.capacity * slots := by
  have sum_le := List.sum_le_card_nsmul t.fills slots fun _ => le_of_mem_fills
  rwa [length_fills, nsmul_eq_mul, Nat.cast_id, wellFormed.sum_fills] at sum_le

namespace Allocated

/-- All slots together are not more than an allocation may have bytes. -/
theorem capacity_mul_slots_le (allocated : t.Allocated s) :
    t.capacity * slots ≤ largestAllocation :=
  allocated.fits.groups_mul_slots_le allocated.aligned (Layout.entryBytes_pos allocated.sized)

theorem capacity_le (allocated : t.Allocated s) : t.capacity ≤ largestAllocation :=
  (Nat.le_mul_of_pos_right _ allocated.sized).trans allocated.fits.groups_mul_groupBytes_le

theorem capacity_lt (allocated : t.Allocated s) : t.capacity < Word.limit :=
  allocated.capacity_le.trans_lt (by decide)

/-- Comparing a key with two whole groups can be counted from zero. -/
theorem two_mul_slots_lt (allocated : t.Allocated s) : 2 * slots < Word.limit :=
  allocated.fits.two_mul_slots_lt allocated.aligned (Layout.entryBytes_pos allocated.sized)
    ((by decide : 2 ≤ Capacity.minimum).trans allocated.wellFormed.minimum_le)

/-- The bytes of a table can be told. -/
theorem memoryUsage_eq (allocated : t.Allocated s) :
    t.memoryUsage s = .ok (t.capacity * s.layout.groupBytes slots + headerBytes) :=
  allocated.fits.bytes_eq

/-- So can the bytes of the keys and values of its vacant slots. -/
theorem vacantBytes_lt (allocated : t.Allocated s) :
    (t.capacity * slots - t.size) * s.layout.entryBytes < Word.limit :=
  allocated.fits.mul_entryBytes_lt allocated.aligned (Nat.sub_le ..)

end Allocated

end Table

end TwoChoice
