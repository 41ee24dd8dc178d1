import TwoChoice.Decimal.Fixed
import TwoChoice.Statistics.Basic

/-!
# Reports

The measurements of a table as text.

## Main Definitions

* `Statistics.report` — the measurements, on six lines
-/

namespace TwoChoice.Statistics

/-- A share of one, as a percentage with two places. -/
def percentage (share : Float) : String :=
  Decimal.fixed 2 (Binary64.ofFloat (share * 100.0)) ++ "%"

/-- The measurements as text. -/
def report (s : Statistics) : String :=
  "=== Two-Way Table Debug Statistics ===\n" ++
  "Population: " ++ toString s.populated ++ " entries in " ++ toString s.groups ++
    " groups of " ++ toString s.slotsPerGroup ++ "\n" ++
  "Slot Usage: " ++ toString s.populated ++ "/" ++ toString s.totalSlots ++ " (" ++
    percentage s.slotUtilization ++ " utilization), " ++ toString s.fullGroups ++
    " full groups\n" ++
  "Probes: " ++ Decimal.fixed 3 (Binary64.ofFloat s.meanProbes) ++ " mean, " ++
    toString s.maxProbes ++ " max\n" ++
  "Total Allocated: " ++ toString s.totalBytes ++ " bytes\n" ++
  "Memory: " ++ toString s.wastedBytes ++ " bytes wasted (" ++
    percentage (ratio s.wastedBytes s.totalBytes) ++ ")\n"

end TwoChoice.Statistics
