import TwoChoice.Accumulation
import TwoChoice.Table.Basic

/-!
# Totals

The values of a table, added up in the order in which its entries lie.

## Main Definitions

* `Table.total` — the total of all values under an accumulation
-/

namespace TwoChoice.Table

universe u v w

variable {K : Type u} {V : Type v} {A : Type w} {slots : Nat} [Key K] [DecidableEq K]

/-- The total of the values of all entries, group by group and in each group slot by slot. -/
def total (acc : Accumulation V A) (t : Table K V slots) : Except Fault A :=
  t.entries.bind fun entries => acc.run (entries.map Prod.snd)

end TwoChoice.Table
