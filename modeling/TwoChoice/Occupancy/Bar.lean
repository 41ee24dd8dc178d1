import TwoChoice.Word

/-!
# Bars

Horizontal bars of up to 60 cells, drawn to an eighth of a cell.

## Main Definitions

* `Bar.eighths` — the length of a bar, in proportion to the largest
* `Bar.draw` — a bar of a given length
* `Bar.make` — the bar for a number
-/

namespace TwoChoice.Bar

/-- The number of cells in the longest bar. -/
def cells : Nat := 60

/-- The first natural number that does not fit in 128 bits. -/
def wideLimit : Nat := 1 <<< 128

/-- The quotient of two numbers, rounded up. -/
def divCeil (dividend divisor : Nat) : Nat :=
  dividend / divisor + if dividend % divisor = 0 then 0 else 1

/-- The length in eighths of a cell of the bar for `count`, when the longest bar stands for
`largest`. It is rounded up, so that every positive count shows. The product is taken in 128 bits,
and the quotient is cut down to 64. -/
def eighths (count largest : Nat) : Nat :=
  divCeil (count * (cells * 8) % wideLimit) largest % Word.limit

/-- The block that fills a whole cell. -/
def fullBlock : Char := '█'

/-- The blocks that fill one to seven eighths of a cell. -/
def partialBlocks : List Char := ['▏', '▎', '▍', '▌', '▋', '▊', '▉']

/-- The cells of a bar of the given length: full blocks, and a partial block for what is left. -/
def draw (length : Nat) : List Char :=
  List.replicate (length / 8) fullBlock ++
    if length % 8 = 0 then [] else (partialBlocks[length % 8 - 1]?).toList

/-- The bar for `count`, when the longest bar stands for `largest`. There is none for zero. -/
def make (count largest : Nat) : List Char :=
  if count = 0 then [] else draw (eighths count largest)

end TwoChoice.Bar
