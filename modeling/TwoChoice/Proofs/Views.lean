import TwoChoice.Proofs.Measurements
import TwoChoice.Proofs.Parallel
import TwoChoice.Proofs.Readback

/-!
# Views of the fills

The histogram, the statistics and the descriptions of a table each go over its groups on their own,
and its size is kept up to date by every operation without going over the groups at all. In a
reachable table they all tell the same.

## Main Definitions

* `Table.ViewsAgree` — what a histogram, some statistics and some rows tell of a table agrees

## Main Statements

* `Table.sum_mul_counts` — the histogram accounts for every entry
* `Table.Reachable.views_agree` — all views of a reachable table agree
-/

namespace TwoChoice

universe u v

variable {K : Type u} {V : Type v} {slots : Nat} [Key K] [DecidableEq K]

/-! ### Rows -/

namespace Group

/-- A row has as many number signs as its group has entries. -/
theorem count_row (g : Group K V slots) : g.row.toList.count '#' = g.fill := by
  rw [row, String.toList_ofList, List.count_append, List.count_replicate_self,
    List.count_replicate, if_neg (by decide), Nat.add_zero]

/-- A row has a dot unless its group is full. -/
theorem dot_mem_row_iff (g : Group K V slots) : '.' ∈ g.row.toList ↔ g.fill ≠ slots := by
  have le := g.fill_le
  have other : '.' ≠ '#' := by decide
  rw [row, String.toList_ofList, List.mem_append, List.mem_replicate, List.mem_replicate]
  simp only [other, and_false, false_or, and_true]
  omega

end Group

namespace Table

variable {s : Scheme K} {t : Table K V slots}

/-- The fills can be read off the rows. -/
theorem map_count_rows (t : Table K V slots) :
    (t.rows.map fun row => row.toList.count '#') = t.fills := by
  rw [rows, List.map_map]
  exact List.map_congr_left fun g _ => g.count_row

/-- The full groups are those whose rows have no dot. -/
theorem fullGroups_eq_countP_rows (t : Table K V slots) :
    t.fullGroups = t.rows.countP fun row => '.' ∉ row.toList := by
  rw [fullGroups, rows, List.countP_map]
  refine List.countP_congr fun g _ => ?_
  simp [g.dot_mem_row_iff]

/-! ### Histograms -/

/-- A number of the histogram counts the rows with as many number signs. -/
theorem getElem?_counts (t : Table K V slots) {n : Nat} (le : n ≤ slots) :
    t.histogram.counts[n]? = some (t.rows.countP fun row => row.toList.count '#' = n) := by
  have rows_eq : (t.rows.countP fun row => row.toList.count '#' = n) = t.fills.count n := by
    rw [← map_count_rows]
    show _ = List.countP (· == n) _
    rw [List.countP_map]
    rfl
  rw [rows_eq, histogram, Histogram.ofFills, List.getElem?_map,
    List.getElem?_range (Nat.lt_succ_of_le le)]
  rfl

/-- The last number of the histogram is that of the full groups. -/
theorem fullGroups_histogram (t : Table K V slots) : t.histogram.fullGroups = t.fullGroups := by
  rw [Histogram.fullGroups, histogram, Histogram.ofFills, List.range_succ, List.map_append,
    List.map_singleton, List.getLast?_concat, fullGroups_eq_count]
  rfl

/-- Each fill, as often as the histogram has it, accounts for every entry. -/
theorem sum_mul_counts (t : Table K V slots) :
    (t.histogram.counts.mapIdx fun fill count => fill * count).sum =
      t.fills.sum := by
  have counted : t.fills.toFinset ⊆ Finset.range (slots + 1) := by
    intro n mem
    exact Finset.mem_range.mpr (Nat.lt_succ_of_le (le_of_mem_fills (List.mem_toFinset.mp mem)))
  have products : (t.histogram.counts.mapIdx fun fill count => fill * count) =
      (List.range (slots + 1)).map fun n => n * t.fills.count n := by
    refine List.ext_getElem (by simp [histogram, Histogram.ofFills]) fun n _ _ => ?_
    simp [histogram, Histogram.ofFills]
  calc (t.histogram.counts.mapIdx fun fill count => fill * count).sum
      = ∑ n ∈ Finset.range (slots + 1), n * t.fills.count n := by
        rw [products]
        rfl
    _ = ∑ n ∈ Finset.range (slots + 1), t.fills.count n • n :=
        Finset.sum_congr rfl fun n _ => Nat.mul_comm _ _
    _ = t.fills.sum :=
        (Finset.sum_list_count_of_subset _ _ counted).symm

/-! ### All views -/

/-- What the histogram of a table, some statistics and some rows tell of its fills agrees. -/
structure ViewsAgree (t : Table K V slots) (m : Statistics) (rows : List String) : Prop where
  /-- There is a row for every group, in their order: a number sign for each entry, and dots up to
  the number of slots. -/
  rows_eq : rows = t.groups.toList.map fun g =>
    String.ofList (List.replicate g.fill '#' ++ List.replicate (slots - g.fill) '.')
  /-- A fill is the number of slots whose key is not vacant. -/
  fill_eq : ∀ g ∈ t.groups, g.fill = g.keys.toList.countP fun key => key ≠ Key.vacant
  /-- There are as many rows as groups. -/
  length_rows : rows.length = t.capacity
  /-- There are as many number signs as entries. -/
  sum_marks : (rows.map fun row => row.toList.count '#').sum = t.size
  /-- The histogram has a number for every fill. -/
  length_counts : t.histogram.counts.length = slots + 1
  /-- These numbers add up to the number of groups. -/
  sum_counts : t.histogram.counts.sum = t.capacity
  /-- Weighted by the fills, they add up to the number of entries. -/
  sum_mul_counts : (t.histogram.counts.mapIdx fun fill count => fill * count).sum = t.size
  /-- Each of them is the number of rows with so many number signs. -/
  counts_eq : ∀ n ≤ slots,
    t.histogram.counts[n]? = some (rows.countP fun row => row.toList.count '#' = n)
  /-- Histogram and statistics know of as many full groups. -/
  fullGroups_eq : t.histogram.fullGroups = m.fullGroups
  /-- These are the rows without a dot. -/
  fullRows_eq : m.fullGroups = rows.countP fun row => '.' ∉ row.toList
  /-- The statistics know the number of entries. -/
  populated_eq : m.populated = t.size
  /-- There are not more entries than slots. -/
  populated_le : m.populated ≤ m.totalSlots
  /-- Entries and vacant slots together are all slots. -/
  slots_eq : m.populated + (m.totalSlots - m.populated) = t.capacity * slots

/-- In a reachable table, what the histogram, the statistics and both descriptions tell of the fills
agrees. Counting the groups yields the histogram, and the statistics exist if the comparisons made
for them can be counted. -/
theorem Reachable.views_agree (reachable : Reachable s t) (aligned : s.layout.Aligned)
    (sized : 0 < s.layout.groupBytes slots) (few : 2 * slots * t.size < Word.limit) :
    t.countFills = .ok t.histogram ∧
      ∃ m, t.statistics s = .ok m ∧ ViewsAgree t m (quotations t.describe) ∧
        quotations t.describeIndented = quotations t.describe ∧
        t.describe.toList.count '#' = t.size ∧ t.describeIndented.toList.count '#' = t.size := by
  have allocated := reachable.allocated aligned sized
  have wellFormed := reachable.wellFormed
  have marks : (t.rows.map fun row => row.toList.count '#').sum = t.size := by
    rw [map_count_rows, wellFormed.sum_fills]
  have shows := t.shows_describe
  have shows' := t.shows_describeIndented
  refine ⟨countFills_eq allocated.capacity_lt, _, allocated.statistics_eq few, ?_,
    shows'.quotations_eq.trans shows.quotations_eq.symm, shows.marks.trans marks,
    shows'.marks.trans marks⟩
  rw [shows.quotations_eq]
  exact {
    rows_eq := rfl
    fill_eq := fun g mem => (Group.countP_keys (wellFormed.packed g mem)).symm
    length_rows := by rw [rows, List.length_map, Array.length_toList, capacity]
    sum_marks := marks
    length_counts := t.length_counts_histogram
    sum_counts := t.histogram_groups
    sum_mul_counts := t.sum_mul_counts.trans wellFormed.sum_fills
    counts_eq := fun _ => t.getElem?_counts
    fullGroups_eq := t.fullGroups_histogram
    fullRows_eq := t.fullGroups_eq_countP_rows
    populated_eq := rfl
    populated_le := wellFormed.size_le
    slots_eq := Nat.add_sub_cancel' wellFormed.size_le }

/-- A table with groups of different fills. -/
def uneven : Table ZeroVacant UInt64 2 :=
  (Operation.run Scheme.ofWords Accumulation.listing
    [.insert ⟨1⟩ 10, .insert ⟨1⟩ 11, .insert ⟨1⟩ 12, .insert ⟨2⟩ 20, .erase ⟨2⟩]
    ⟨empty 8, 0⟩).2.table

/-- Groups without entries, with one entry and with two are told of alike. -/
theorem views_agree_uneven :
    Reachable Scheme.ofWords uneven ∧ Scheme.ofWords.layout.Aligned ∧
      0 < Scheme.ofWords.layout.groupBytes 2 ∧ 2 * 2 * uneven.size < Word.limit ∧
      ∃ m, uneven.statistics Scheme.ofWords = .ok m ∧
        ViewsAgree uneven m (quotations uneven.describe) := by
  have made : (withGroups Scheme.ofWords 8 : Except Fault (Table ZeroVacant UInt64 2)) =
      .ok (empty 8) := withGroups_eq_of_le (by decide) (by decide)
  have reachable : Reachable Scheme.ofWords uneven :=
    Reachable.run Accumulation.listing (Reachable.made made) (by simp [Operation.Legal])
  have aligned : Scheme.ofWords.layout.Aligned := by decide
  have sized : 0 < Scheme.ofWords.layout.groupBytes 2 := by decide
  have few : 2 * 2 * uneven.size < Word.limit := by decide +kernel
  obtain ⟨-, m, measured, agree, -⟩ := reachable.views_agree aligned sized few
  exact ⟨reachable, aligned, sized, few, m, measured, agree⟩

end Table

end TwoChoice
