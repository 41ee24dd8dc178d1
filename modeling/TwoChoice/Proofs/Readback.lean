import Mathlib.Algebra.Ring.Nat
import TwoChoice.Occupancy.Description

/-!
# Reading descriptions

A description shows a row for each group, between quotation marks. Nothing else in it is quoted and
no row has a quotation mark of its own, so the rows can be read back off the text. Nor is there a
number sign outside the rows.

## Main Definitions

* `quotations` — the texts between quotation marks
* `Shows` — a text in which some rows are quoted and that has no number sign besides

## Main Statements

* `Table.shows_describe`, `Table.shows_describeIndented` — a description shows the rows of its table
-/

namespace TwoChoice

universe u v

/-- A number is written with digits only. -/
theorem isDigit_of_mem_toString {n : Nat} {c : Char} (mem : c ∈ (toString n).toList) :
    c.isDigit := by
  rw [Nat.toString_eq_repr, Nat.repr_eq_ofList_toDigits, String.toList_ofList] at mem
  exact Nat.isDigit_of_mem_toDigits (by decide) (by decide) mem

/-! ### Quotations -/

/-- The texts between quotation marks in what is left of a text, when what was read since an opening
mark is given backwards, or none if no mark is open. -/
def quotationsFrom : Option (List Char) → List Char → List String
  | _, [] => []
  | none, c :: rest => if c = '"' then quotationsFrom (some []) rest else quotationsFrom none rest
  | some read, c :: rest =>
    if c = '"' then String.ofList read.reverse :: quotationsFrom none rest
    else quotationsFrom (some (c :: read)) rest

/-- The texts between quotation marks, one after another. -/
def quotations (text : String) : List String :=
  quotationsFrom none text.toList

section Quotations

variable {text rest : List Char}

/-- Text before a quotation is passed over. -/
theorem quotationsFrom_skip (plain : '"' ∉ text) (rest : List Char) :
    quotationsFrom none (text ++ rest) = quotationsFrom none rest := by
  induction text with
  | nil => rfl
  | cons c text ih =>
    rw [List.mem_cons, not_or] at plain
    rw [List.cons_append, quotationsFrom, if_neg (Ne.symm plain.1)]
    exact ih plain.2

/-- A quotation ends at the next mark. -/
theorem quotationsFrom_read (plain : '"' ∉ text) (read rest : List Char) :
    quotationsFrom (some read) (text ++ '"' :: rest) =
      String.ofList (read.reverse ++ text) :: quotationsFrom none rest := by
  induction text generalizing read with
  | nil =>
    rw [List.nil_append, quotationsFrom, if_pos rfl, List.append_nil]
  | cons c text ih =>
    rw [List.mem_cons, not_or] at plain
    rw [List.cons_append, quotationsFrom, if_neg (Ne.symm plain.1), ih plain.2,
      List.reverse_cons, List.append_assoc]
    rfl

end Quotations

/-! ### Texts that show rows -/

/-- A text shows some rows if these are what is quoted in it, whatever follows, and all its number
signs are in them. -/
structure Shows (text : String) (rows : List String) : Prop where
  /-- The rows are what is quoted. -/
  quoted : ∀ rest, quotationsFrom none (text.toList ++ rest) = rows ++ quotationsFrom none rest
  /-- The number signs are those of the rows. -/
  marks : text.toList.count '#' = (rows.map fun row => row.toList.count '#').sum

namespace Shows

variable {text text' : String} {rows rows' : List String}

theorem quotations_eq (shows : Shows text rows) : quotations text = rows := by
  have quoted := shows.quoted []
  rwa [List.append_nil, quotationsFrom, List.append_nil] at quoted

/-- A text without quotation marks and number signs shows no rows. -/
theorem plain (unquoted : '"' ∉ text.toList) (unmarked : '#' ∉ text.toList) : Shows text [] where
  quoted rest := quotationsFrom_skip unquoted rest
  marks := List.count_eq_zero.mpr unmarked

theorem append (shows : Shows text rows) (shows' : Shows text' rows') :
    Shows (text ++ text') (rows ++ rows') where
  quoted rest := by
    rw [String.toList_append, List.append_assoc, shows.quoted, shows'.quoted, List.append_assoc]
  marks := by
    rw [String.toList_append, List.count_append, shows.marks, shows'.marks, List.map_append,
      List.sum_append]

/-- What shows no rows may follow. -/
theorem append_plain (shows : Shows text rows) (plain : Shows text' []) :
    Shows (text ++ text') rows := by
  simpa using shows.append plain

/-- What shows no rows may come first. -/
theorem plain_append (plain : Shows text []) (shows : Shows text' rows) :
    Shows (text ++ text') rows :=
  plain.append shows

/-- A row between quotation marks shows itself. -/
theorem row {row : String} (unquoted : '"' ∉ row.toList) : Shows (Table.quoted row) [row] where
  quoted rest := by
    have opened : (Table.quoted row).toList ++ rest = '"' :: (row.toList ++ '"' :: rest) := by
      simp [Table.quoted, String.toList_append]
    rw [opened, quotationsFrom, if_pos rfl, quotationsFrom_read unquoted]
    simp
  marks := by
    simp [Table.quoted, String.toList_append, List.count_append]

/-- A number shows no rows. -/
theorem number (n : Nat) : Shows (toString n) [] := by
  refine plain (fun mem => ?_) fun mem => ?_
  · exact absurd (isDigit_of_mem_toString mem) (by decide)
  · exact absurd (isDigit_of_mem_toString mem) (by decide)

/-- Texts that show a row each, one after another, show these rows. -/
theorem join {f : String → String} (each : ∀ row ∈ rows, Shows (f row) [row]) :
    Shows (String.join (rows.map f)) rows := by
  induction rows with
  | nil => exact plain (by simp) (by simp)
  | cons row rows ih =>
    rw [List.map_cons, String.join_cons]
    exact (each row List.mem_cons_self).append
      (ih fun other mem => each other (List.mem_cons_of_mem row mem))

/-- So do such texts with a separator that shows no rows. -/
theorem intercalate {separator : String} {f : String → String} (between : Shows separator [])
    (each : ∀ row ∈ rows, Shows (f row) [row]) :
    Shows (separator.intercalate (rows.map f)) rows := by
  induction rows with
  | nil => exact plain (by simp) (by simp)
  | cons row rows ih =>
    have first := each row List.mem_cons_self
    have later := ih fun other mem => each other (List.mem_cons_of_mem row mem)
    cases rows with
    | nil => simpa using first
    | cons next rows =>
      rw [List.map_cons, List.map_cons, String.intercalate_cons_cons]
      exact (first.append between).append later

end Shows

namespace Table

variable {K : Type u} {V : Type v} {slots : Nat} [Key K] [DecidableEq K]

/-- No row has a quotation mark. -/
theorem unquoted_of_mem_rows {t : Table K V slots} {row : String} (mem : row ∈ t.rows) :
    '"' ∉ row.toList := by
  obtain ⟨g, -, rfl⟩ := List.mem_map.mp mem
  rw [Group.row, String.toList_ofList, List.mem_append, List.mem_replicate, List.mem_replicate]
  rintro (⟨-, impossible⟩ | ⟨-, impossible⟩)
  · exact absurd impossible (by decide)
  · exact absurd impossible (by decide)

/-- The description on one line shows the rows of the table. -/
theorem shows_describe (t : Table K V slots) : Shows t.describe t.rows := by
  have listed : Shows (", ".intercalate (t.rows.map quoted)) t.rows :=
    .intercalate (.plain (by decide) (by decide)) fun row mem => .row (unquoted_of_mem_rows mem)
  unfold describe
  refine .append_plain (.append_plain (.append_plain (.append_plain (.append_plain
    (.plain_append ?_ listed) ?_) (.number _)) ?_) (.number _)) ?_
  all_goals exact .plain (by decide) (by decide)

/-- So does the description on several lines. -/
theorem shows_describeIndented (t : Table K V slots) : Shows t.describeIndented t.rows := by
  have line {row : String} (mem : row ∈ t.rows) : Shows ("        " ++ quoted row ++ ",\n") [row] :=
    .append_plain (.plain_append (.plain (by decide) (by decide)) (.row (unquoted_of_mem_rows mem)))
      (.plain (by decide) (by decide))
  have listed : Shows
      (if t.rows.isEmpty then "[]"
        else
          "[\n" ++ String.join (t.rows.map fun row => "        " ++ quoted row ++ ",\n") ++ "    ]")
      t.rows := by
    by_cases none : t.rows.isEmpty = true
    · rw [if_pos none, List.isEmpty_iff.mp none]
      exact .plain (by decide) (by decide)
    · rw [if_neg none]
      exact .append_plain (.plain_append (.plain (by decide) (by decide)) (.join fun _ => line))
        (.plain (by decide) (by decide))
  unfold describeIndented
  refine .append_plain (.append_plain (.append_plain (.append_plain (.append_plain
    (.plain_append ?_ listed) ?_) (.number _)) ?_) (.number _)) ?_
  all_goals exact .plain (by decide) (by decide)

end Table

end TwoChoice
