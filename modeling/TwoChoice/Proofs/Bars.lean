import Mathlib.Algebra.Order.Floor.Div
import TwoChoice.Proofs.Measurements
import TwoChoice.Proofs.Readback

/-!
# Bars are faithful

The bar for a number is as many eighths of a cell long as sixty cells have, in proportion to the
largest number, rounded up. The product that is divided fits in 128 bits for every number of 64,
and what is left of it fits in 64, so the length is computed exactly. A bar of a length shows it: a
full block for each eight, and one narrower block for what is left over.

On a chart every bar stands between a vertical line and a parenthesis, and there is no other
vertical line. So the bars can be read back off it, one for each number of the histogram.

## Main Definitions

* `Bar.units` — the exact length of a bar
* `Bar.blockOf` — the block that fills so many eighths of a cell
* `Bar.measure` — the length that blocks show
* `Bar.Faithful` — a bar shows a number in proportion to the largest
* `bars` — the bars of a chart

## Main Statements

* `Bar.eighths_eq` — the length is computed exactly
* `Bar.draw_eq`, `Bar.measure_draw` — how a length is drawn, and that it shows
* `Histogram.bars_chart` — a chart has the bars of its numbers
* `Histogram.bars_faithful` — each of them shows its number in proportion to the largest
-/

namespace TwoChoice

namespace Bar

variable {count count' largest length : Nat}

/-! ### Lengths -/

/-- The length of the bar for `count` in eighths of a cell, if the one for `largest` has sixty
cells. -/
def units (count largest : Nat) : Nat :=
  (480 * count) ⌈/⌉ largest

theorem units_le_iff (positive : 0 < largest) {bound : Nat} :
    units count largest ≤ bound ↔ 480 * count ≤ largest * bound :=
  ceilDiv_le_iff_le_mul positive

/-- The longest bar has sixty cells. -/
theorem units_self (positive : 0 < largest) : units largest largest = 480 := by
  rw [units, Nat.mul_comm, ← smul_eq_mul, smul_ceilDiv positive]

/-- Greater numbers have no shorter bars. -/
theorem units_mono (positive : 0 < largest) (le : count ≤ count') :
    units count largest ≤ units count' largest :=
  (gc_mul_ceilDiv positive).monotone_l (Nat.mul_le_mul_left 480 le)

theorem units_le (positive : 0 < largest) (le : count ≤ largest) : units count largest ≤ 480 :=
  (units_mono positive le).trans_eq (units_self positive)

/-- Every positive number has a bar. -/
theorem units_eq_zero_iff (positive : 0 < largest) : units count largest = 0 ↔ count = 0 := by
  rw [← Nat.le_zero, units_le_iff positive]
  omega

/-- The product of a number of 64 bits fits in 128. -/
theorem product_lt (fits : count < Word.limit) : count * (cells * 8) < wideLimit := by
  have scaled : count * (cells * 8) < Word.limit * (cells * 8) :=
    Nat.mul_lt_mul_of_pos_right fits (by decide)
  exact scaled.trans (by decide)

/-- The length is computed exactly for numbers of 64 bits. -/
theorem eighths_eq (positive : 0 < largest) (le : count ≤ largest) (fits : largest < Word.limit) :
    eighths count largest = units count largest := by
  have short : units count largest < Word.limit := (units_le positive le).trans_lt (by decide)
  rw [eighths, Nat.mod_eq_of_lt (product_lt (le.trans_lt fits)), divCeil_eq positive, Nat.mul_comm]
  exact Nat.mod_eq_of_lt short

/-! ### Blocks -/

/-- The block that fills so many eighths of a cell, from one to all eight. In the code the wider
blocks come first. -/
def blockOf (width : Nat) : Char :=
  Char.ofNat (0x2590 - width)

/-- The eighths of a cell that a block fills. -/
def widthOf (block : Char) : Nat :=
  0x2590 - block.toNat

/-- The eighths of a cell that blocks fill together. -/
def measure (bar : List Char) : Nat :=
  (bar.map widthOf).sum

theorem widthOf_blockOf : ∀ width ≤ 8, widthOf (blockOf width) = width := by
  decide

/-- The narrower blocks are listed by width. -/
theorem partialBlocks_eq : ∀ width < 7, partialBlocks[width]? = some (blockOf (width + 1)) := by
  decide

/-- What is left over of a length has a block. -/
theorem partialBlocks_mod (left : 0 < length % 8) :
    partialBlocks[length % 8 - 1]? = some (blockOf (length % 8)) := by
  have less := Nat.mod_lt length (show 0 < 8 by decide)
  rw [partialBlocks_eq _ (by omega), Nat.sub_add_cancel left]

/-- A length is drawn as one full block for each eight, and a block for what is left over. -/
theorem draw_eq (length : Nat) :
    draw length = List.replicate (length / 8) (blockOf 8) ++
      if 0 < length % 8 then [blockOf (length % 8)] else [] := by
  have full : blockOf 8 = fullBlock := by decide
  rw [draw, full]
  by_cases left : 0 < length % 8
  · rw [if_pos left, if_neg (Nat.ne_of_gt left), partialBlocks_mod left]
    rfl
  · rw [if_neg left, if_pos (Nat.eq_zero_of_not_pos left)]

/-- A drawn length shows. -/
theorem measure_draw (length : Nat) : measure (draw length) = length := by
  have less := Nat.mod_lt length (show 0 < 8 by decide)
  have division := Nat.div_add_mod length 8
  have full : widthOf (blockOf 8) = 8 := widthOf_blockOf 8 (Nat.le_refl 8)
  have rest : ((if 0 < length % 8 then [blockOf (length % 8)] else []).map widthOf).sum =
      length % 8 := by
    by_cases left : 0 < length % 8
    · rw [if_pos left, List.map_singleton, List.sum_singleton]
      exact widthOf_blockOf _ (Nat.le_of_lt less)
    · rw [if_neg left]
      exact (Nat.eq_zero_of_not_pos left).symm
  rw [measure, draw_eq, List.map_append, List.sum_append, List.map_replicate, full,
    List.sum_replicate_nat, rest]
  omega

/-- Every eight eighths make one block, and what is left over another. -/
theorem length_draw_le (le : length ≤ 480) : (draw length).length ≤ 60 := by
  have less := Nat.mod_lt length (show 0 < 8 by decide)
  rw [draw_eq, List.length_append, List.length_replicate]
  split
  · rw [List.length_singleton]
    omega
  · rw [List.length_nil]
    omega

/-- Nothing is drawn for no length only. -/
theorem draw_eq_nil_iff : draw length = [] ↔ length = 0 := by
  constructor
  · intro none
    rw [← measure_draw length, none]
    rfl
  · rintro rfl
    rfl

/-- Sixty full blocks are drawn for 480 eighths only. -/
theorem draw_eq_replicate_iff : draw length = List.replicate 60 '█' ↔ length = 480 := by
  constructor
  · intro full
    rw [← measure_draw length, full]
    decide
  · rintro rfl
    decide

/-- A bar is drawn at its length, also for zero. -/
theorem make_eq (positive : 0 < largest) (le : count ≤ largest) (fits : largest < Word.limit) :
    make count largest = draw (units count largest) := by
  rw [make, eighths_eq positive le fits]
  by_cases none : count = 0
  · rw [if_pos none, (units_eq_zero_iff positive).mpr none]
    rfl
  · rw [if_neg none]

/-! ### Bars of numbers -/

/-- A bar shows a number in proportion to the largest one, up to what rounding an eighth of a cell
up adds, and nothing was lost when its length was computed. -/
structure Faithful (count largest : Nat) (bar : List Char) : Prop where
  /-- It has a full block for every eight eighths, and a narrower one exactly if some are left. -/
  blocks_eq : bar = List.replicate (units count largest / 8) '█' ++
    if 0 < units count largest % 8 then [blockOf (units count largest % 8)] else []
  /-- The narrower block is found at its place in the list of blocks. -/
  listed : 0 < units count largest % 8 →
    partialBlocks[units count largest % 8 - 1]? = some (blockOf (units count largest % 8))
  /-- The blocks are together as long as the bar is to be. -/
  measure_eq : measure bar = units count largest
  /-- Only the bar for zero is empty. -/
  empty_iff : bar = [] ↔ count = 0
  /-- It has at most sixty cells. -/
  length_le : bar.length ≤ 60
  /-- It has sixty full ones exactly if it is of the full length. -/
  full_iff : bar = List.replicate 60 '█' ↔ units count largest = 480
  /-- The product that is divided fits in 128 bits. -/
  product_lt : count * (cells * 8) < wideLimit
  /-- The quotient fits in 64, rounded up. -/
  units_lt : units count largest < Word.limit
  /-- What is computed is the length. -/
  eighths_eq : eighths count largest = units count largest

/-- The bar that is made for a number of 64 bits shows it. -/
theorem faithful_make (positive : 0 < largest) (le : count ≤ largest)
    (fits : largest < Word.limit) : Faithful count largest (make count largest) := by
  have short := units_le positive le
  rw [make_eq positive le fits]
  exact {
    blocks_eq := draw_eq _
    listed := partialBlocks_mod
    measure_eq := measure_draw _
    empty_iff := draw_eq_nil_iff.trans (units_eq_zero_iff positive)
    length_le := length_draw_le short
    full_iff := draw_eq_replicate_iff
    product_lt := product_lt (le.trans_lt fits)
    units_lt := short.trans_lt (by decide)
    eighths_eq := Bar.eighths_eq positive le fits }

/-- A bar consists of blocks. -/
theorem mem_blocks_of_mem_make {c : Char} (mem : c ∈ make count largest) :
    c ∈ fullBlock :: partialBlocks := by
  unfold make draw at mem
  split at mem
  · cases mem
  · rcases List.mem_append.mp mem with full | rest
    · rw [List.eq_of_mem_replicate full]
      exact List.mem_cons_self
    · split at rest
      · cases rest
      · exact List.mem_cons_of_mem _ (List.mem_of_getElem? (Option.mem_toList.mp rest))

end Bar

/-! ### Bars of charts -/

/-- The bars in what is left of a text: what stands between a vertical line and the next opening
parenthesis, without blanks. What was read of a bar is given backwards, or none outside of bars. -/
def barsFrom : Option (List Char) → List Char → List (List Char)
  | _, [] => []
  | none, c :: rest => if c = '|' then barsFrom (some []) rest else barsFrom none rest
  | some read, c :: rest =>
    if c = '(' then read.reverse :: barsFrom none rest
    else if c = ' ' then barsFrom (some read) rest
    else barsFrom (some (c :: read)) rest

/-- The bars of a text, one after another. -/
def bars (text : String) : List (List Char) :=
  barsFrom none text.toList

section Bars

variable {text rest bar : List Char}

/-- Text before a bar is passed over. -/
theorem barsFrom_skip (plain : '|' ∉ text) (rest : List Char) :
    barsFrom none (text ++ rest) = barsFrom none rest := by
  induction text with
  | nil => rfl
  | cons c text ih =>
    rw [List.mem_cons, not_or] at plain
    rw [List.cons_append, barsFrom, if_neg (Ne.symm plain.1)]
    exact ih plain.2

/-- A bar ends at the next parenthesis. -/
theorem barsFrom_read (plain : ∀ c ∈ bar, c ≠ '(' ∧ c ≠ ' ') (read rest : List Char) :
    barsFrom (some read) (bar ++ ' ' :: '(' :: rest) =
      (read.reverse ++ bar) :: barsFrom none rest := by
  induction bar generalizing read with
  | nil => simp [barsFrom]
  | cons c bar ih =>
    obtain ⟨open_ne, blank_ne⟩ := plain c List.mem_cons_self
    rw [List.cons_append, barsFrom, if_neg open_ne, if_neg blank_ne,
      ih fun c mem => plain c (List.mem_cons_of_mem _ mem), List.reverse_cons, List.append_assoc]
    rfl

end Bars

/-- Pushing a character several times appends as many of it. -/
theorem toList_pushn (text : String) (c : Char) (n : Nat) :
    (text.pushn c n).toList = text.toList ++ List.replicate n c := by
  rw [String.pushn_eq_repeat_push]
  induction n with
  | zero => simp [Nat.repeat]
  | succ n ih => simp [Nat.repeat, ih, List.replicate_succ']

namespace Histogram

variable {h : Histogram}

/-- A line shows one bar, whatever follows. -/
theorem barsFrom_line (largest fill count : Nat) (rest : List Char) :
    barsFrom none ((line largest fill count).toList ++ rest) =
      Bar.make count largest :: barsFrom none rest := by
  have label_plain : '|' ∉ List.replicate (2 - (toString fill).length) ' ' ++
      ((toString fill).toList ++ [' ']) := by
    simp only [List.mem_append, List.mem_replicate, List.mem_singleton]
    rintro (⟨-, impossible⟩ | mem | impossible)
    · exact absurd impossible (by decide)
    · exact absurd (isDigit_of_mem_toString mem) (by decide)
    · exact absurd impossible (by decide)
  have bar_plain : ∀ c ∈ Bar.make count largest, c ≠ '(' ∧ c ≠ ' ' := by
    intro c mem
    have apart : ∀ c ∈ Bar.fullBlock :: Bar.partialBlocks, c ≠ '(' ∧ c ≠ ' ' := by
      simp [Bar.fullBlock, Bar.partialBlocks]
    exact apart c (Bar.mem_blocks_of_mem_make mem)
  have number_plain : '|' ∉ (toString count).toList ++ [')', '\n'] := by
    simp only [List.mem_append]
    rintro (mem | impossible)
    · exact absurd (isDigit_of_mem_toString mem) (by decide)
    · exact absurd impossible (by decide)
  -- Neither what comes before the vertical line nor what comes after the parenthesis has another.
  have line_eq : (line largest fill count).toList ++ rest =
      (List.replicate (2 - (toString fill).length) ' ' ++ ((toString fill).toList ++ [' '])) ++
        '|' :: ' ' :: (Bar.make count largest ++ ' ' :: '(' ::
          (((toString count).toList ++ [')', '\n']) ++ rest)) := by
    simp [line, toList_pushn, String.toList_append]
  rw [line_eq, barsFrom_skip label_plain, barsFrom, if_pos rfl, barsFrom, if_neg (by decide),
    if_pos rfl, barsFrom_read bar_plain, barsFrom_skip number_plain]
  rfl

/-- Lines show a bar each, in their order. -/
theorem barsFrom_lines (largest : Nat) (entries : List (Nat × Nat)) :
    barsFrom none (String.join (entries.map fun entry => line largest entry.2 entry.1)).toList =
      entries.map fun entry => Bar.make entry.1 largest := by
  induction entries with
  | nil => rfl
  | cons entry entries ih =>
    rw [List.map_cons, String.join_cons, String.toList_append, barsFrom_line, ih, List.map_cons]

/-- A chart has the bars of its numbers. -/
theorem bars_chart (positive : 0 < h.largest) :
    bars h.chart = h.counts.map fun count => Bar.make count h.largest := by
  have heading_plain :
      '|' ∉ ("group histogram (" ++ toString h.groups ++ " groups):\n").toList := by
    simp only [String.toList_append, List.mem_append]
    rintro ((impossible | mem) | impossible)
    · exact absurd impossible (by decide)
    · exact absurd (isDigit_of_mem_toString mem) (by decide)
    · exact absurd impossible (by decide)
  rw [bars, chart, if_neg (Nat.ne_of_gt positive), String.toList_append,
    barsFrom_skip heading_plain, barsFrom_lines]
  calc h.counts.zipIdx.map (fun entry => Bar.make entry.1 h.largest)
      = (h.counts.zipIdx.map Prod.fst).map fun count => Bar.make count h.largest := by
        rw [List.map_map]
        rfl
    _ = h.counts.map fun count => Bar.make count h.largest := by rw [List.zipIdx_map_fst]

/-- The largest number is one of the numbers. -/
theorem largest_mem (positive : 0 < h.largest) : h.largest ∈ h.counts := by
  unfold largest at positive ⊢
  cases found : h.counts.max? with
  | none =>
    rw [found] at positive
    cases positive
  | some largest => exact List.max?_mem found

/-- A chart shows for every number of the histogram, in their order, a bar that is as long as it is
to be. The bar for the largest is full, and greater numbers have no shorter bars. The numbers can
also be added up. -/
theorem bars_faithful (positive : 0 < h.largest) (fits : h.counts.sum < Word.limit) :
    bars h.chart = h.counts.map (fun count => Bar.make count h.largest) ∧
      (∀ count ∈ h.counts, Bar.Faithful count h.largest (Bar.make count h.largest)) ∧
      h.largest ∈ h.counts ∧ Bar.make h.largest h.largest = List.replicate 60 '█' ∧
      (∀ count ∈ h.counts, ∀ count' ∈ h.counts, count ≤ count' →
        Bar.measure (Bar.make count h.largest) ≤ Bar.measure (Bar.make count' h.largest)) ∧
      Word.sum h.counts = .ok h.groups := by
  have mem := largest_mem positive
  have fits' : h.largest < Word.limit := (List.le_sum_of_mem mem).trans_lt fits
  have faithful : ∀ count ∈ h.counts, Bar.Faithful count h.largest (Bar.make count h.largest) :=
    fun count mem => Bar.faithful_make positive (Table.le_largest_of_mem_counts mem) fits'
  refine ⟨bars_chart positive, faithful, mem, ?_, ?_, Word.sum_of_lt fits⟩
  · exact (faithful _ mem).full_iff.mpr (Bar.units_self positive)
  · intro count mem count' mem' le
    rw [(faithful count mem).measure_eq, (faithful count' mem').measure_eq]
    exact Bar.units_mono positive le

/-- Numbers of 64 bits that are far apart. The last is a fourteenth of the largest. -/
def lopsided : Histogram :=
  ⟨[2 ^ 64 - 2 ^ 61, 1, 0, 2 ^ 60]⟩

/-- The largest has a full bar, the least positive number an eighth of a cell. -/
theorem bars_faithful_lopsided :
    0 < lopsided.largest ∧ lopsided.counts.sum < Word.limit ∧
      bars lopsided.chart = [List.replicate 60 '█', ['▏'], [], ['█', '█', '█', '█', '▍']] ∧
      Bar.units (2 ^ 60) lopsided.largest = 35 := by
  have positive : 0 < lopsided.largest := by decide
  have fits : lopsided.counts.sum < Word.limit := by decide
  obtain ⟨bars_eq, faithful, -⟩ := bars_faithful positive fits
  refine ⟨positive, fits, bars_eq.trans (by decide +kernel), ?_⟩
  rw [← (faithful (2 ^ 60) (by decide)).eighths_eq]
  decide +kernel

end Histogram

end TwoChoice
