import Mathlib.Algebra.BigOperators.Group.Finset.Basic
import Mathlib.Algebra.Order.BigOperators.Group.Finset
import Mathlib.Algebra.Order.Floor.Div
import TwoChoice.Operation
import TwoChoice.Proofs.Allocation

/-!
# Measurements

The histogram and the statistics of a table are computed from its fills and from lookups of its
keys. The numbers of the histogram add up to the number of groups, so none of them is greater, and
counting the groups one after another never leaves 64 bits if the number of groups does not. The
statistics exist for every table whose groups fit one allocation, as long as two comparisons a slot
for every entry can be counted in 64 bits.

## Main Definitions

* `Table.matchCost` — the comparisons up to the first match of a key
* `Table.measurements` — what is measured of a table, from the comparisons of lookups
* `Table.Measurable` — what is counted and drawn of a table is in range

## Main Statements

* `Histogram.tally_ofFills` — counting one more group makes a histogram that of one more fill
* `Table.countFills_eq`, `Table.countFull_eq` — counting group by group yields the counts
* `Table.histogram_groups` — the numbers of a histogram add up to the number of groups
* `Table.Allocated.lookupCosts_eq` — what lookups of the stored keys cost
* `Table.WellFormed.statistics_eq`, `Table.Allocated.statistics_eq` — the statistics of a table
-/

namespace TwoChoice

universe u v

/-! ### Sums -/

/-- Sizes whose sum fits in 64 bits can be added one after another. -/
theorem Word.foldlM_add_of_lt {sizes : List Nat} {start : Nat}
    (fits : start + sizes.sum < limit) : sizes.foldlM add start = .ok (start + sizes.sum) := by
  induction sizes generalizing start with
  | nil => rfl
  | cons size rest ih =>
    rw [List.sum_cons, ← Nat.add_assoc] at fits
    rw [List.foldlM_cons, add_of_lt (by omega), List.sum_cons, ← Nat.add_assoc]
    exact ih fits

theorem Word.sum_of_lt {sizes : List Nat} (fits : sizes.sum < limit) :
    Word.sum sizes = .ok sizes.sum := by
  rw [← Nat.zero_add sizes.sum] at fits ⊢
  exact foldlM_add_of_lt fits

/-- Sizes whose sum does not fit cannot: the sum gets out of range at one of them. -/
theorem Word.foldlM_add_of_le {sizes : List Nat} {start : Nat} (fits : start < limit)
    (tooLarge : limit ≤ start + sizes.sum) :
    sizes.foldlM add start = .error (.breach .wordSum) := by
  induction sizes generalizing start with
  | nil =>
    rw [List.sum_nil] at tooLarge
    omega
  | cons size rest ih =>
    rw [List.sum_cons, ← Nat.add_assoc] at tooLarge
    rw [List.foldlM_cons]
    by_cases fits' : start + size < limit
    · rw [add_of_lt fits']
      exact ih fits' tooLarge
    · rw [add, if_neg fits']
      rfl

theorem Word.sum_of_le {sizes : List Nat} (tooLarge : limit ≤ sizes.sum) :
    Word.sum sizes = .error (.breach .wordSum) := by
  rw [← Nat.zero_add sizes.sum] at tooLarge
  exact foldlM_add_of_le (by decide) tooLarge

/-- The places of a number in a list can be counted if there are not too many elements. -/
theorem Word.foldlM_count {sizes : List Nat} {size start : Nat}
    (fits : start + sizes.length < limit) :
    sizes.foldlM (fun found other => if other = size then add found 1 else .ok found) start =
      .ok (start + sizes.count size) := by
  induction sizes generalizing start with
  | nil => rfl
  | cons other rest ih =>
    rw [List.length_cons] at fits
    rw [List.foldlM_cons, List.count_cons]
    by_cases same : other = size
    · rw [if_pos same, add_of_lt (by omega), if_pos (beq_iff_eq.mpr same)]
      refine (ih (by omega)).trans ?_
      rw [Nat.add_right_comm, Nat.add_assoc]
    · rw [if_neg same, if_neg (mt beq_iff_eq.mp same)]
      exact ih (by omega)

/-! ### Histograms of fills -/

namespace Histogram

variable {slots fill : Nat} {fills rest : List Nat}

theorem ofFills_nil (slots : Nat) : ofFills slots [] = ⟨List.replicate (slots + 1) 0⟩ := by
  rw [ofFills, Histogram.mk.injEq, List.eq_replicate_iff]
  simp

/-- Counting one more group makes a histogram that of one more fill. -/
theorem tally_ofFills (le : fill ≤ slots) (fits : fills.length + 1 < Word.limit) :
    (ofFills slots fills).tally fill = .ok (ofFills slots (fills ++ [fill])) := by
  have found : (ofFills slots fills).counts[fill]? = some (fills.count fill) := by
    rw [ofFills, List.getElem?_map, List.getElem?_range (Nat.lt_succ_of_le le)]
    rfl
  have sum_lt : fills.count fill + 1 < Word.limit := by
    have count_le : fills.count fill ≤ fills.length := List.count_le_length
    omega
  rw [tally, found]
  dsimp only
  rw [Word.add_of_lt sum_lt]
  refine congrArg Except.ok (congrArg Histogram.mk (List.ext_getElem ?_ fun n _ _ => ?_))
  · simp [ofFills]
  · by_cases same : fill = n
    · simp [ofFills, same]
    · simp [ofFills, same]

/-- So counting groups one after another yields the histogram of their fills. -/
theorem foldlM_tally (before : List Nat) (le : ∀ fill ∈ rest, fill ≤ slots)
    (fits : before.length + rest.length < Word.limit) :
    rest.foldlM tally (ofFills slots before) = .ok (ofFills slots (before ++ rest)) := by
  induction rest generalizing before with
  | nil =>
    rw [List.foldlM_nil, List.append_nil]
    rfl
  | cons fill rest ih =>
    rw [List.length_cons] at fits
    rw [List.foldlM_cons, tally_ofFills (le fill List.mem_cons_self) (by omega)]
    have fits' : (before ++ [fill]).length + rest.length < Word.limit := by
      rw [List.length_append, List.length_singleton]
      omega
    have later := ih (before ++ [fill])
      (fun other mem => le other (List.mem_cons_of_mem fill mem)) fits'
    rwa [List.append_assoc] at later

end Histogram

/-! ### Bars -/

/-- Rounding a quotient up adds one to it unless nothing is left over. -/
theorem Bar.divCeil_eq {divisor : Nat} (positive : 0 < divisor) (dividend : Nat) :
    divCeil dividend divisor = dividend ⌈/⌉ divisor := by
  have less : divisor - 1 < divisor := Nat.sub_one_lt_of_lt positive
  rw [Nat.ceilDiv_eq_add_pred_div, Nat.add_sub_assoc positive, Nat.add_div positive,
    Nat.div_eq_of_lt less, Nat.mod_eq_of_lt less, Nat.add_zero, divCeil]
  by_cases divides : dividend % divisor = 0
  · rw [if_pos divides, if_neg (by omega)]
  · rw [if_neg divides, if_pos (by omega)]

/-- A bar is not longer than the one for the largest number. -/
theorem Bar.eighths_le {count largest : Nat} (positive : 0 < largest) (le : count ≤ largest) :
    eighths count largest ≤ cells * 8 := by
  have scaled : count * (cells * 8) % wideLimit ≤ largest * (cells * 8) :=
    (Nat.mod_le _ _).trans (Nat.mul_le_mul_right _ le)
  calc eighths count largest
      ≤ divCeil (count * (cells * 8) % wideLimit) largest := Nat.mod_le _ _
    _ = (count * (cells * 8) % wideLimit) ⌈/⌉ largest := divCeil_eq positive _
    _ ≤ cells * 8 := (ceilDiv_le_iff_le_mul positive).mpr scaled

variable {K : Type u} {V : Type v} {slots : Nat} [Key K] [DecidableEq K]

namespace Table

variable {s : Scheme K} {t : Table K V slots} {key : K} {value : V} {count : Nat}

/-! ### Histograms -/

/-- A histogram has a number for every fill. -/
theorem length_counts_histogram (t : Table K V slots) :
    t.histogram.counts.length = slots + 1 := by
  rw [histogram, Histogram.ofFills, List.length_map, List.length_range]

/-- No number of a histogram exceeds the number of groups. -/
theorem le_capacity_of_mem_counts (mem : count ∈ t.histogram.counts) : count ≤ t.capacity := by
  obtain ⟨n, -, rfl⟩ := List.mem_map.mp mem
  exact List.count_le_length.trans_eq t.length_fills

/-- The numbers of a histogram add up to the number of groups. -/
theorem histogram_groups (t : Table K V slots) : t.histogram.groups = t.capacity := by
  have counted : ∀ n ∈ (t.fills : Multiset Nat), n ∈ Finset.range (slots + 1) := by
    intro n mem
    exact Finset.mem_range.mpr (Nat.lt_succ_of_le (le_of_mem_fills (Multiset.mem_coe.mp mem)))
  calc t.histogram.groups
      = ((List.range (slots + 1)).map fun n => t.fills.count n).sum := rfl
    _ = ∑ n ∈ Finset.range (slots + 1), Multiset.count n t.fills := by
        simp only [Multiset.coe_count]
        rfl
    _ = t.fills.length := Multiset.sum_count_eq_card counted
    _ = t.capacity := t.length_fills

/-- Counting the groups at each fill one by one yields the histogram. -/
theorem countFills_eq (countable : t.capacity < Word.limit) : t.countFills = .ok t.histogram := by
  rw [countFills, ← Histogram.ofFills_nil]
  exact Histogram.foldlM_tally [] (fun _ => le_of_mem_fills) (by simpa using countable)

/-- So its chart is printed, for which the numbers are added up. -/
theorem print_countFills (countable : t.capacity < Word.limit) :
    t.countFills.bind Histogram.print = .ok t.histogram.chart := by
  rw [countFills_eq countable]
  show t.histogram.print = _
  unfold Histogram.print
  by_cases none : t.histogram.largest = 0
  · rw [if_pos none]
  · have sum_lt : t.histogram.counts.sum < Word.limit := t.histogram_groups.trans_lt countable
    rw [if_neg none, Word.sum_of_lt sum_lt]
    rfl

/-- Counting the full groups one by one yields their number. -/
theorem countFull_eq (countable : t.capacity < Word.limit) : t.countFull = .ok t.fullGroups := by
  have fits : 0 + t.fills.length < Word.limit := by
    rwa [length_fills, Nat.zero_add]
  rw [countFull, Word.foldlM_count fits, Nat.zero_add, fullGroups_eq_count]

/-- A number of a histogram is not greater than the largest. -/
theorem le_largest_of_mem_counts {h : Histogram} (mem : count ∈ h.counts) : count ≤ h.largest := by
  cases found : h.counts.max? with
  | none =>
    rw [List.max?_eq_none_iff.mp found] at mem
    cases mem
  | some largest =>
    rw [Histogram.largest, found]
    exact (List.max?_eq_some_iff.mp found).2 count mem

/-- If there are groups, the largest number is positive. -/
theorem largest_histogram_pos (positive : 0 < t.capacity) : 0 < t.histogram.largest := by
  by_contra none
  have zero : ∀ count ∈ t.histogram.counts, count = 0 := by
    intro count mem
    have le := le_largest_of_mem_counts mem
    omega
  have groups_eq := t.histogram_groups
  rw [Histogram.groups, ← List.sum, List.sum_eq_zero zero] at groups_eq
  omega

/-! ### Costs -/

/-- The number of comparisons up to the first match of a key in the candidates of its hash. -/
def matchCost (s : Scheme K) (t : Table K V slots) (key : K) : Nat :=
  (t.firstMatch? key (s.hash key)).elim 0 Prod.fst

theorem WellFormed.matchCost_le (wellFormed : t.WellFormed s) (key : K) :
    t.matchCost s key ≤ 2 * slots := by
  unfold matchCost
  cases found : t.firstMatch? key (s.hash key) with
  | none => exact Nat.zero_le _
  | some hit => exact wellFormed.cost_le found

/-- The keys of all entries, in their order. -/
theorem WellFormed.liveKeys_eq (wellFormed : t.WellFormed s) :
    t.liveKeys = t.toList.map Prod.fst := by
  rw [liveKeys, toList, List.map_flatMap]
  refine List.flatMap_congr fun g mem => ?_
  exact (Group.map_fst_toList (wellFormed.written g (Array.mem_toList_iff.mp mem))).symm

namespace Allocated

theorem capacity_pos (allocated : t.Allocated s) : 0 < t.capacity :=
  Nat.lt_of_lt_of_le (by decide) allocated.wellFormed.minimum_le

/-- Looking a stored key up costs the comparisons up to its match. -/
theorem lookupCost_eq (allocated : t.Allocated s) (stored : (key, value) ∈ t.toList) :
    t.lookupCost s key = .ok (t.matchCost s key) := by
  have wellFormed := allocated.wellFormed
  have live : key ≠ Key.vacant := key_ne_vacant_of_mem_toList stored
  have held := wellFormed.holds_hash_iff.mpr ⟨value, stored⟩
  obtain ⟨cost, p, found⟩ := wellFormed.exists_match live held
  have fits : cost < Word.limit :=
    (wellFormed.cost_le found).trans_lt allocated.two_mul_slots_lt
  have counted : (UInt64.ofNat cost).toNat = cost := UInt64.toNat_ofNat_of_lt' fits
  simp only [lookupCost, contains, wellFormed.locate_eq live, found, Counted.charge_from_zero fits,
    Counted.andThen, matchCost, Option.elim_some, counted]
  rfl

theorem lookupCosts_eq (allocated : t.Allocated s) :
    t.lookupCosts s = .ok (t.toList.map fun entry => t.matchCost s entry.1) := by
  rw [lookupCosts, allocated.wellFormed.liveKeys_eq]
  have told : ∀ key ∈ t.toList.map Prod.fst, t.lookupCost s key = .ok (t.matchCost s key) := by
    intro key mem
    obtain ⟨entry, stored, rfl⟩ := List.mem_map.mp mem
    exact allocated.lookupCost_eq stored
  rw [mapM_eq_ok told, List.map_map]
  rfl

/-- Looking all stored keys up costs two comparisons a slot for every entry at most. -/
theorem sum_matchCost_le (allocated : t.Allocated s) :
    (t.toList.map fun entry => t.matchCost s entry.1).sum ≤ 2 * slots * t.size := by
  have bounded : ∀ cost ∈ t.toList.map fun entry => t.matchCost s entry.1, cost ≤ 2 * slots := by
    intro cost mem
    obtain ⟨entry, -, rfl⟩ := List.mem_map.mp mem
    exact allocated.wellFormed.matchCost_le entry.1
  have sum_le := List.sum_le_card_nsmul _ _ bounded
  rw [List.length_map, nsmul_eq_mul, Nat.cast_id, ← allocated.wellFormed.size_eq] at sum_le
  rwa [Nat.mul_comm (2 * slots)]

end Allocated

/-! ### Statistics -/

/-- The measurements of a table whose keys take so many comparisons each to be looked up. -/
def measurements (s : Scheme K) (t : Table K V slots) (costs : List Nat) : Statistics where
  populated := t.size
  groups := t.capacity
  slotsPerGroup := slots
  totalSlots := t.capacity * slots
  fullGroups := t.fullGroups
  slotUtilization := Statistics.ratio t.size (t.capacity * slots)
  meanProbes := Statistics.ratio costs.sum t.size
  maxProbes := costs.max?.getD 0
  totalBytes := t.capacity * s.layout.groupBytes slots + headerBytes
  wastedBytes := (t.capacity * slots - t.size) * s.layout.entryBytes

/-- The statistics can be computed exactly if the slots and the comparisons can be counted. -/
theorem WellFormed.statistics_eq (wellFormed : t.WellFormed s)
    (countable : t.capacity < Word.limit) (fits : s.layout.Fits slots t.capacity)
    (aligned : s.layout.Aligned) {costs : List Nat} (told : t.lookupCosts s = .ok costs) :
    t.statistics s =
      if t.capacity * slots < Word.limit then
        if costs.sum < Word.limit then .ok (t.measurements s costs)
        else .error (.breach .wordSum)
      else .error (.breach .wordProduct) := by
  have bytes_eq : t.memoryUsage s = .ok (t.capacity * s.layout.groupBytes slots + headerBytes) :=
    fits.bytes_eq
  have vacant_lt := fits.mul_entryBytes_lt aligned (Nat.sub_le (t.capacity * slots) t.size)
  unfold statistics
  by_cases slots_lt : t.capacity * slots < Word.limit
  · rw [if_pos slots_lt, Word.mul_of_lt slots_lt, countFull_eq countable, told]
    by_cases costs_lt : costs.sum < Word.limit
    · simp only [if_pos costs_lt, Word.sum_of_lt costs_lt, bytes_eq,
        Word.sub_of_le wellFormed.size_le, Word.mul_of_lt vacant_lt, bind, Except.bind, pure,
        Except.pure]
      rfl
    · simp only [if_neg costs_lt, Word.sum_of_le (Nat.le_of_not_lt costs_lt), bind, Except.bind]
  · rw [if_neg slots_lt, Word.mul, if_neg slots_lt]
    rfl

/-- They can be if two comparisons a slot for every entry can be counted. -/
theorem Allocated.statistics_eq (allocated : t.Allocated s)
    (few : 2 * slots * t.size < Word.limit) :
    t.statistics s =
      .ok (t.measurements s (t.toList.map fun entry => t.matchCost s entry.1)) := by
  have slots_lt : t.capacity * slots < Word.limit :=
    allocated.capacity_mul_slots_le.trans_lt (by decide)
  have costs_lt := allocated.sum_matchCost_le.trans_lt few
  rw [allocated.wellFormed.statistics_eq allocated.capacity_lt allocated.fits allocated.aligned
    allocated.lookupCosts_eq, if_pos slots_lt, if_pos costs_lt]

/-! ### Ranges -/

/-- Whatever is counted or drawn of a table is in range. -/
structure Measurable (t : Table K V slots) : Prop where
  /-- The fill of every group has a number in the histogram. -/
  fill_lt : ∀ g ∈ t.groups, g.fill < t.histogram.counts.length
  /-- The numbers of the histogram are not greater than the number of groups. -/
  count_le : ∀ count ∈ t.histogram.counts, count ≤ t.capacity
  /-- Nor is their sum. -/
  groups_eq : t.histogram.groups = t.capacity
  /-- The bars of the histogram have a scale. -/
  largest_pos : 0 < t.histogram.largest
  /-- No bar has more cells than there is room for. -/
  eighths_le : ∀ count ∈ t.histogram.counts,
    Bar.eighths count t.histogram.largest ≤ Bar.cells * 8
  /-- Full groups are groups. -/
  fullGroups_le : t.fullGroups ≤ t.capacity
  /-- The number of groups fits in 64 bits. -/
  capacity_lt : t.capacity < Word.limit
  /-- There are not more entries than slots. -/
  size_le : t.size ≤ t.capacity * slots
  /-- The number of slots fits in 64 bits. -/
  slots_lt : t.capacity * slots < Word.limit
  /-- One more entry could be counted. -/
  size_succ_lt : t.size + 1 < Word.limit

theorem Allocated.measurable (allocated : t.Allocated s) : t.Measurable where
  fill_lt := by
    intro g _
    rw [length_counts_histogram]
    exact Nat.lt_succ_of_le g.fill_le
  count_le _ mem := le_capacity_of_mem_counts mem
  groups_eq := t.histogram_groups
  largest_pos := largest_histogram_pos allocated.capacity_pos
  eighths_le _ mem :=
    Bar.eighths_le (largest_histogram_pos allocated.capacity_pos) (le_largest_of_mem_counts mem)
  fullGroups_le := List.countP_le_length.trans_eq Array.length_toList
  capacity_lt := allocated.capacity_lt
  size_le := allocated.wellFormed.size_le
  slots_lt := allocated.capacity_mul_slots_le.trans_lt (by decide)
  size_succ_lt := by
    have largest : largestAllocation + 1 < Word.limit := by decide
    have size_le := allocated.wellFormed.size_le.trans allocated.capacity_mul_slots_le
    omega

end Table

end TwoChoice
