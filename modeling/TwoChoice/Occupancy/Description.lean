import TwoChoice.Table.Basic

/-!
# Descriptions

The text that shows which slots of a table hold entries. Keys and values do not appear in it.

## Main Definitions

* `Group.row` — the slots of a group, as marks
* `Table.describe` — a table on one line
* `Table.describeIndented` — a table on several lines
-/

namespace TwoChoice

universe u v

variable {K : Type u} {V : Type v} {slots : Nat} [Key K] [DecidableEq K]

/-- A number sign for each slot before the first vacant one, and a dot for each of the others. -/
def Group.row (g : Group K V slots) : String :=
  String.ofList (List.replicate g.fill '#' ++ List.replicate (slots - g.fill) '.')

namespace Table

/-- The rows of all groups. -/
def rows (t : Table K V slots) : List String :=
  t.groups.toList.map Group.row

/-- A text between quotation marks. -/
def quoted (text : String) : String :=
  "\"" ++ text ++ "\""

/-- The table on one line: its rows, its size and its capacity. -/
def describe (t : Table K V slots) : String :=
  "TwoWayTable \x7b groups: [" ++ ", ".intercalate (t.rows.map quoted) ++ "], size: " ++
    toString t.size ++ ", capacity: " ++ toString t.capacity ++ " \x7d"

/-- The table on several lines: its rows, each on a line of its own, its size and its
capacity. -/
def describeIndented (t : Table K V slots) : String :=
  let rows :=
    if t.rows.isEmpty then "[]"
    else "[\n" ++ String.join (t.rows.map fun row => "        " ++ quoted row ++ ",\n") ++ "    ]"
  "TwoWayTable \x7b\n    groups: " ++ rows ++ ",\n    size: " ++ toString t.size ++
    ",\n    capacity: " ++ toString t.capacity ++ ",\n\x7d"

end Table

end TwoChoice
