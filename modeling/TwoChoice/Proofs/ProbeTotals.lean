import TwoChoice.Proofs.Answers
import TwoChoice.Proofs.Measurements

/-!
# What the statistics say of the layout

The statistics look every stored key up and add up the comparisons. In a table that stores no key
twice each lookup ends at the entry that it was made for. So the comparisons are told by the
positions of the entries alone: an entry at some slot of its first candidate has twice the slot and
one more, an entry of its second candidate has twice the slot and two.

If keys are stored more than once, the lookups end at the first of their entries. There is still one
lookup for every entry, and none makes more comparisons than there are slots in two groups.

## Main Definitions

* `Table.located` — the entries with their positions
* `Table.slotCosts` — what the positions of all entries cost
* `Table.ReportsProbes` — what the statistics say of the comparisons of some lookups

## Main Statements

* `Table.DistinctKeys.position_eq` — a key that is not stored twice has one position
* `Table.DistinctKeys.map_matchCost` — then the positions tell what lookups of the keys cost
* `Table.WellFormed.reportsProbes` — the statistics report what lookups of the stored keys cost
* `Table.Reachable.probes_measured` — the total and the greatest of the comparisons

## Design Notes

The comparisons of all lookups are added up in 64 bits. The statistics of a table whose comparisons
cannot be counted do not exist, so the sum is claimed of those that do, and it is said which do.
-/

namespace TwoChoice.Table

universe u v w

variable {K : Type u} {V : Type v} {slots : Nat} {A : Type w} [Key K] [DecidableEq K]
variable {s : Scheme K} {t : Table K V slots} {key : K} {value value' : V} {entry : K × V}
variable {p q : Position} {costs : List Nat}

/-! ### Positions of entries -/

/-- All entries with their positions, group by group and in each group slot by slot. -/
def located (t : Table K V slots) : List (Position × (K × V)) :=
  t.groups.toList.zipIdx.flatMap fun g => g.1.toList.zipIdx.map fun e => (⟨g.2, e.2⟩, e.1)

/-- Without the positions they are the entries. -/
theorem map_snd_located (t : Table K V slots) : t.located.map Prod.snd = t.toList := by
  unfold located
  rw [List.map_flatMap]
  calc t.groups.toList.zipIdx.flatMap (fun g =>
        (g.1.toList.zipIdx.map fun e => ((⟨g.2, e.2⟩ : Position), e.1)).map Prod.snd)
      = t.groups.toList.zipIdx.flatMap fun g => g.1.toList := by
        refine List.flatMap_congr fun g _ => ?_
        rw [List.map_map]
        exact List.zipIdx_map_fst 0 _
    _ = (t.groups.toList.zipIdx.map Prod.fst).flatMap Group.toList := by
        rw [List.flatMap_map]
    _ = t.toList := by
        rw [List.zipIdx_map_fst]
        rfl

/-- They are listed at the positions at which they lie. -/
theorem mem_located_iff : (p, entry) ∈ t.located ↔ t.entryAt? p = some entry := by
  unfold located entryAt?
  rw [List.mem_flatMap, Option.bind_eq_some_iff]
  constructor
  · rintro ⟨⟨g, i⟩, inTable, mem⟩
    obtain ⟨⟨e, slot⟩, inGroup, same⟩ := List.mem_map.mp mem
    cases same
    rw [List.mem_zipIdx_iff_getElem?] at inTable inGroup
    exact ⟨g, by rwa [Array.getElem?_toList] at inTable, inGroup⟩
  · rintro ⟨g, inTable, inGroup⟩
    rw [← Array.getElem?_toList] at inTable
    exact ⟨(g, p.group), List.mem_zipIdx_iff_getElem?.mpr inTable,
      List.mem_map.mpr ⟨(entry, p.slot), List.mem_zipIdx_iff_getElem?.mpr inGroup, rfl⟩⟩

/-- A key that is not stored twice has one position. -/
theorem DistinctKeys.position_eq (distinct : t.DistinctKeys)
    (stored : t.entryAt? p = some (key, value)) (stored' : t.entryAt? q = some (key, value')) :
    p = q := by
  have nodup : (t.located.map fun at' => at'.2.1).Nodup := by
    have keys_eq : t.located.map (fun at' => at'.2.1) = t.toList.map Prod.fst := by
      rw [← map_snd_located, List.map_map]
      rfl
    rwa [keys_eq]
  exact congrArg Prod.fst
    (List.inj_on_of_nodup_map nodup (mem_located_iff.mpr stored) (mem_located_iff.mpr stored') rfl)

/-- What the positions of all entries cost, in the order of the entries: twice the slot and one more
in the first candidate of the key, and twice the slot and two in the second only. -/
def slotCosts (s : Scheme K) (t : Table K V slots) : List Nat :=
  t.located.map fun entry => (t.candidates (s.hash entry.2.1)).costAt entry.1

/-- A key that is not stored twice is matched at its position. -/
theorem DistinctKeys.matchCost_eq (distinct : t.DistinctKeys) (wellFormed : t.WellFormed s)
    (stored : t.entryAt? p = some (key, value)) :
    t.matchCost s key = (t.candidates (s.hash key)).costAt p := by
  have live : key ≠ Key.vacant := key_ne_vacant_of_mem_toList (mem_toList_of_entryAt? stored)
  have found := wellFormed.firstMatch?_eq_of_least live (wellFormed.candidate_of_entryAt? stored)
    stored fun q value' stored' => by rw [distinct.position_eq stored stored']
  rw [matchCost, found]
  rfl

/-- If no key is stored twice, the positions tell what lookups cost. -/
theorem DistinctKeys.map_matchCost (distinct : t.DistinctKeys) (wellFormed : t.WellFormed s) :
    t.toList.map (fun entry => t.matchCost s entry.1) = t.slotCosts s := by
  rw [← map_snd_located, List.map_map]
  refine List.map_congr_left fun entry mem => ?_
  exact distinct.matchCost_eq wellFormed (mem_located_iff.mp mem)

/-! ### Lookups of all keys -/

/-- If there is an entry, groups take up room. -/
theorem Reachable.allocated_of_stored (reachable : Reachable s t) (aligned : s.layout.Aligned)
    (sized : ∀ key : K, key ≠ Key.vacant → 0 < s.layout.keyBytes) (stored : entry ∈ t.toList) :
    t.Allocated s := by
  have keyBytes_pos := sized entry.1 (key_ne_vacant_of_mem_toList stored)
  have slots_pos : 0 < slots := by
    have size_le := reachable.wellFormed.size_le
    rw [reachable.wellFormed.size_eq] at size_le
    exact Nat.pos_of_mul_pos_left ((List.length_pos_of_mem stored).trans_le size_le)
  have room := aligned.slots_mul_entryBytes_le slots
  have entry_pos : 0 < slots * s.layout.entryBytes :=
    Nat.mul_pos slots_pos (Nat.add_pos_left keyBytes_pos _)
  exact reachable.allocated aligned (by omega)

/-- Lookups of the stored keys can be counted. -/
theorem Reachable.lookupCosts_eq (reachable : Reachable s t) (aligned : s.layout.Aligned)
    (sized : ∀ key : K, key ≠ Key.vacant → 0 < s.layout.keyBytes) :
    t.lookupCosts s = .ok (t.toList.map fun entry => t.matchCost s entry.1) := by
  cases entries : t.toList with
  | nil =>
    rw [lookupCosts, reachable.wellFormed.liveKeys_eq, entries]
    rfl
  | cons entry rest =>
    rw [← entries]
    have stored : entry ∈ t.toList := by simp [entries]
    exact (reachable.allocated_of_stored aligned sized stored).lookupCosts_eq

/-- The match of a stored key costs a comparison. -/
theorem WellFormed.matchCost_pos (wellFormed : t.WellFormed s)
    (stored : (key, value) ∈ t.toList) : 0 < t.matchCost s key := by
  have live : key ≠ Key.vacant := key_ne_vacant_of_mem_toList stored
  obtain ⟨cost, p, found⟩ :=
    wellFormed.exists_match live (wellFormed.holds_hash_iff.mpr ⟨value, stored⟩)
  have match_cases := wellFormed.match_cases found
  rw [matchCost, found]
  show 0 < cost
  omega

/-! ### Statistics -/

/-- What the statistics of a table say of lookups that make so many comparisons each. -/
structure ReportsProbes (s : Scheme K) (t : Table K V slots) (costs : List Nat) : Prop where
  /-- Lookups of the keys of all entries, one after another, make these comparisons. -/
  lookupCosts_eq : t.lookupCosts s = .ok costs
  /-- There is one lookup for every entry. -/
  length_eq : costs.length = t.size
  /-- The statistics exist exactly if the slots and the comparisons can be counted. -/
  exists_iff : (∃ m, t.statistics s = .ok m) ↔
    t.capacity * slots < Word.limit ∧ costs.sum < Word.limit
  /-- The comparisons are then added up to their sum. -/
  total_eq : ∀ m, t.statistics s = .ok m → Word.sum costs = .ok costs.sum
  /-- It is divided by the size. -/
  meanProbes_eq : ∀ m, t.statistics s = .ok m →
    m.meanProbes = Statistics.ratio costs.sum t.size
  /-- The greatest number of comparisons is that of the costliest lookup, or zero if there is none.
  -/
  maxProbes_eq : ∀ m, t.statistics s = .ok m → m.maxProbes = costs.max?.getD 0

/-- The statistics report what lookups of the stored keys cost. -/
theorem WellFormed.reportsProbes (wellFormed : t.WellFormed s)
    (countable : t.capacity < Word.limit) (fits : s.layout.Fits slots t.capacity)
    (aligned : s.layout.Aligned) (told : t.lookupCosts s = .ok costs)
    (length_eq : costs.length = t.size) :
    ReportsProbes s t costs := by
  have statistics_eq := wellFormed.statistics_eq countable fits aligned told
  have cases_of_ok (m : Statistics) (measured : t.statistics s = .ok m) :
      t.capacity * slots < Word.limit ∧ costs.sum < Word.limit ∧
        m = t.measurements s costs := by
    rw [statistics_eq] at measured
    by_cases slots_lt : t.capacity * slots < Word.limit
    · rw [if_pos slots_lt] at measured
      by_cases costs_lt : costs.sum < Word.limit
      · rw [if_pos costs_lt] at measured
        exact ⟨slots_lt, costs_lt, (Except.ok.inj measured).symm⟩
      · rw [if_neg costs_lt] at measured
        cases measured
    · rw [if_neg slots_lt] at measured
      cases measured
  refine ⟨told, length_eq, ⟨?_, ?_⟩, ?_, ?_, ?_⟩
  · rintro ⟨m, measured⟩
    obtain ⟨slots_lt, costs_lt, -⟩ := cases_of_ok m measured
    exact ⟨slots_lt, costs_lt⟩
  · rintro ⟨slots_lt, costs_lt⟩
    rw [statistics_eq, if_pos slots_lt, if_pos costs_lt]
    exact ⟨_, rfl⟩
  · intro m measured
    exact Word.sum_of_lt (cases_of_ok m measured).2.1
  · intro m measured
    rw [(cases_of_ok m measured).2.2, measurements]
  · intro m measured
    rw [(cases_of_ok m measured).2.2, measurements]

/-- A sum lies between the number of summands and that number times the greatest of them, if all of
them are positive. -/
theorem sum_bounds_of_pos {bound : Nat} (some : costs ≠ []) (positive : ∀ cost ∈ costs, 0 < cost)
    (bounded : ∀ cost ∈ costs, cost ≤ bound) :
    costs.length ≤ costs.sum ∧ costs.sum ≤ costs.length * costs.max?.getD 0 ∧
      1 ≤ costs.max?.getD 0 ∧ costs.max?.getD 0 ≤ bound := by
  obtain ⟨greatest, max_eq⟩ := Option.ne_none_iff_exists'.mp (mt List.max?_eq_none_iff.mp some)
  obtain ⟨mem, le⟩ := List.max?_eq_some_iff.mp max_eq
  have length_le := List.card_nsmul_le_sum costs 1 positive
  have sum_le := List.sum_le_card_nsmul costs greatest le
  rw [nsmul_eq_mul, Nat.cast_id] at length_le sum_le
  rw [max_eq, Option.getD_some]
  exact ⟨by omega, sum_le, positive _ mem, bounded _ mem⟩

/-- In a table that stores no key twice, the comparisons of the statistics are those up to the
positions of the entries. If the table is not empty and its comparisons can be counted, they add up
to at least one for each entry, and no lookup makes more of them than there are slots in two groups.
Measuring a table does not change it. -/
theorem Reachable.probes_measured (reachable : Reachable s t) (aligned : s.layout.Aligned)
    (sized : ∀ key : K, key ≠ Key.vacant → 0 < s.layout.keyBytes) (acc : Accumulation V A)
    (counter : UInt64) :
    (t.DistinctKeys → ReportsProbes s t (t.slotCosts s)) ∧
      (t.size ≠ 0 → 2 * slots * t.size < Word.limit →
        ∃ costs m, ReportsProbes s t costs ∧ t.statistics s = .ok m ∧
          t.size ≤ costs.sum ∧ costs.sum ≤ t.size * m.maxProbes ∧
          1 ≤ m.maxProbes ∧ m.maxProbes ≤ 2 * slots) ∧
      (Operation.statistics.perform s acc ⟨t, counter⟩).state = ⟨t, counter⟩ := by
  have wellFormed := reachable.wellFormed
  have told := reachable.lookupCosts_eq aligned sized
  have length_eq : (t.toList.map fun entry => t.matchCost s entry.1).length = t.size := by
    rw [List.length_map, wellFormed.size_eq]
  have reports := wellFormed.reportsProbes reachable.usable.lt_limit reachable.fits aligned told
    length_eq
  refine ⟨fun distinct => ?_, fun some few => ?_, rfl⟩
  · rwa [distinct.map_matchCost wellFormed] at reports
  · obtain ⟨entry, stored⟩ : ∃ entry, entry ∈ t.toList := by
      rw [wellFormed.size_eq] at some
      exact List.exists_mem_of_length_pos (Nat.pos_of_ne_zero some)
    have allocated := reachable.allocated_of_stored aligned sized stored
    have positive : ∀ cost ∈ t.toList.map fun entry => t.matchCost s entry.1, 0 < cost := by
      intro cost mem
      obtain ⟨entry, stored, rfl⟩ := List.mem_map.mp mem
      exact wellFormed.matchCost_pos stored
    have bounded : ∀ cost ∈ t.toList.map fun entry => t.matchCost s entry.1, cost ≤ 2 * slots := by
      intro cost mem
      obtain ⟨entry, -, rfl⟩ := List.mem_map.mp mem
      exact wellFormed.matchCost_le entry.1
    have bounds := sum_bounds_of_pos (List.ne_nil_of_mem (List.mem_map_of_mem stored)) positive
      bounded
    rw [length_eq] at bounds
    exact ⟨_, _, reports, allocated.statistics_eq few, bounds⟩

/-- In the shaken table one of the keys lies in slot 0 of its first candidate, and the two others in
slots 0 and 1 of their second. -/
theorem probes_measured_shaken :
    Reachable colliding shaken ∧ shaken.DistinctKeys ∧ shaken.slotCosts colliding = [1, 2, 4] ∧
      ReportsProbes colliding shaken [1, 2, 4] ∧
      ∃ (costs : List Nat) (m : Statistics), shaken.statistics colliding = .ok m ∧
        3 ≤ costs.sum ∧ costs.sum ≤ 3 * m.maxProbes ∧ 1 ≤ m.maxProbes ∧ m.maxProbes ≤ 4 := by
  have distinct : shaken.DistinctKeys := by decide +kernel
  have slotCosts_eq : shaken.slotCosts colliding = [1, 2, 4] := by decide +kernel
  have size_eq : shaken.size = 3 := by decide +kernel
  obtain ⟨exact, bounds, -⟩ := reachable_shaken.probes_measured (by decide) (fun _ _ => by decide)
    Accumulation.listing 0
  have reports := exact distinct
  rw [slotCosts_eq] at reports
  obtain ⟨costs, m, -, measured, least, greatest, one_le, le_four⟩ :=
    bounds (by decide +kernel) (by decide +kernel)
  rw [size_eq] at least greatest
  exact ⟨reachable_shaken, distinct, slotCosts_eq, reports, costs, m, measured, least, greatest,
    one_le, le_four⟩

end TwoChoice.Table
