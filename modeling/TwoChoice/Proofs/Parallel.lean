import TwoChoice.Occupancy.Description
import TwoChoice.Proofs.Pairs
import TwoChoice.Statistics.Basic
import TwoChoice.Table.Total
import TwoChoice.Table.Update

/-!
# Tables side by side

Two tables are parallel if their groups are, index by index, and if they record the same mask and
the same size. Every function of a table then answers alike for both: scans meet the same slots and
count the same comparisons, placements choose the same slots, growth passes over the same
capacities, and what an update leaves is parallel again. None of this asks whether the tables are
well-formed, so it holds of whatever an operation can be given.

Only one thing can set parallel tables apart. If a group of the one takes up more bytes than a group
of the other, the one may lack an allocation that the other gets. What grows is therefore compared
under the condition that the layouts are the same or that neither side lacks an allocation.

## Main Definitions

* `Table.Parallel` — two tables that are the same, group by group, up to matching keys and values
* `LacksAllocation` — a result that is missing for want of an allocation
* `Unhindered` — two results that an allocation does not set apart
* `Accumulation.Alike` — two ways to add up related values

## Main Statements

* `Table.Parallel.locate_eq`, `Table.Parallel.locateUnchecked_eq` — scans are the same
* `Table.Parallel.histogram_eq`, `Table.Parallel.rows_eq`, `Table.Parallel.lookupCosts_eq` — so is
  what is seen of the slots
* `Table.Parallel.placement`, `Table.Parallel.grown` — entries that are paired go to the same slots,
  and growth leads to parallel tables
-/

namespace TwoChoice

universe u u' v v' w w' x x' y y'

/-! ### Results that an allocation does not set apart -/

/-- There is no result because the groups asked for do not fit one allocation. -/
def LacksAllocation {α : Type x} (result : Except Fault α) : Prop :=
  result = .error .layoutOverflow

instance {α : Type x} : (result : Except Fault α) → Decidable (LacksAllocation result)
  | .ok _ => .isFalse fun impossible => nomatch impossible
  | .error fault =>
    decidable_of_iff (fault = .layoutOverflow)
      ⟨fun same => congrArg Except.error same, fun same => Except.error.inj same⟩

/-- The layouts are the same, or neither result lacks an allocation. -/
def Unhindered {α : Type x} {β : Type x'} (l l' : Layout) (result : Except Fault α)
    (result' : Except Fault β) : Prop :=
  l = l' ∨ ¬LacksAllocation result ∧ ¬LacksAllocation result'

/-- Results on which others depend are not set apart if those others are not. -/
theorem Unhindered.of_imp {α : Type x} {β : Type x'} {γ : Type y} {δ : Type y'} {l l' : Layout}
    {result : Except Fault α} {result' : Except Fault β} {inner : Except Fault γ}
    {inner' : Except Fault δ} (unhindered : Unhindered l l' result result')
    (left : inner = .error .layoutOverflow → result = .error .layoutOverflow)
    (right : inner' = .error .layoutOverflow → result' = .error .layoutOverflow) :
    Unhindered l l' inner inner' :=
  unhindered.imp_right fun returns => ⟨mt left returns.1, mt right returns.2⟩

/-- What is made of two results without comparing keys does not set them apart. -/
theorem Unhindered.of_map {α : Type x} {β : Type x'} {γ : Type y} {δ : Type y'} {l l' : Layout}
    {result : Except Fault α} {result' : Except Fault β} {f : α → γ} {f' : β → δ}
    (unhindered : Unhindered l l' (result.map f) (result'.map f')) :
    Unhindered l l' result result' :=
  unhindered.of_imp (fun failed => by rw [failed]; rfl) fun failed => by rw [failed]; rfl

/-! ### Accumulations -/

/-- Two ways to add up related values. Totals stay related, and leave their range together. -/
structure Accumulation.Alike {V : Type v} {V' : Type v'} {A : Type w} {A' : Type w'}
    (R : V → V' → Prop) (T : A → A' → Prop) (acc : Accumulation V A)
    (acc' : Accumulation V' A') : Prop where
  /-- The totals of no values are related. -/
  zero : T acc.zero acc'.zero
  /-- So are totals with one more value. -/
  add : ∀ {a a' v v'}, T a a' → R v v' → Option.Rel T (acc.add a v) (acc'.add a' v')

theorem Accumulation.alike_self {V : Type v} {A : Type w} (acc : Accumulation V A) :
    Accumulation.Alike Eq Eq acc acc where
  zero := rfl
  add := by
    rintro a _ v _ rfl rfl
    cases acc.add a v with
    | none => exact .none
    | some total => exact .some rfl

/-- Related values, added one after another, have related totals. -/
theorem Accumulation.Alike.addAll {V : Type v} {V' : Type v'} {A : Type w} {A' : Type w'}
    {R : V → V' → Prop} {T : A → A' → Prop} {acc : Accumulation V A} {acc' : Accumulation V' A'}
    {values : List V} {values' : List V'} {a : A} {a' : A'} (alike : acc.Alike R T acc')
    (totals : T a a') (related : List.Forall₂ R values values') :
    Paired T (acc.addAll a values) (acc'.addAll a' values') := by
  induction related generalizing a a' with
  | nil => exact .ok totals
  | @cons v v' _ _ here _ ih =>
    have added := alike.add totals here
    rw [Accumulation.addAll, Accumulation.addAll]
    generalize acc.add a v = total, acc'.add a' v' = total' at added
    cases added with
    | some totals' => exact ih totals'
    | none => exact .fault _

variable {K : Type u} {K' : Type u'} {V : Type v} {V' : Type v'} {A : Type w} {A' : Type w'}
variable {slots : Nat} [Key K] [Key K'] {M : K → K' → Prop} {R : V → V' → Prop}
variable {T : A → A' → Prop} {s : Scheme K} {s' : Scheme K'}

namespace Table

/-- Two tables whose groups are parallel, index by index, and that record the same mask and size. -/
structure Parallel (M : K → K' → Prop) (R : V → V' → Prop) (t : Table K V slots)
    (t' : Table K' V' slots) : Prop where
  /-- There are equally many groups. -/
  groups_size_eq : t.groups.size = t'.groups.size
  /-- Groups of the same index are parallel. -/
  group : ∀ (i : Nat) (inRange : i < t.groups.size) (inRange' : i < t'.groups.size),
    t.groups[i].Parallel M R t'.groups[i]
  /-- The masks are the same. -/
  mask_eq : t.mask = t'.mask
  /-- The recorded sizes are the same. -/
  size_eq : t.size = t'.size

theorem parallel_empty (capacity : Nat) :
    (empty capacity : Table K V slots).Parallel M R (empty capacity : Table K' V' slots) where
  groups_size_eq := by simp [empty]
  group i inRange inRange' := by
    simp only [empty, Array.getElem_replicate]
    exact Group.parallel_empty
  mask_eq := rfl
  size_eq := rfl

variable {t : Table K V slots} {t' : Table K' V' slots} {key : K} {key' : K'} {value : V}
variable {value' : V'} {hash counter : UInt64} {l : List (K × V)} {l' : List (K' × V')}

section Fills

variable [DecidableEq K]

/-- The row of a group is known from its fill. -/
theorem rows_eq_map (t : Table K V slots) :
    t.rows = t.fills.map fun fill =>
      String.ofList (List.replicate fill '#' ++ List.replicate (slots - fill) '.') := by
  rw [fills, List.map_map]
  rfl

end Fills

namespace Parallel

theorem capacity_eq (parallel : t.Parallel M R t') : t.capacity = t'.capacity :=
  parallel.groups_size_eq

theorem candidates_eq (parallel : t.Parallel M R t') (hash : UInt64) :
    t.candidates hash = t'.candidates hash := by
  rw [candidates, parallel.mask_eq, candidates]

/-- The groups of both tables are parallel, in order. -/
theorem groups (parallel : t.Parallel M R t') :
    List.Forall₂ (Group.Parallel M R) t.groups.toList t'.groups.toList := by
  rw [List.forall₂_iff_get]
  refine ⟨by simpa using parallel.groups_size_eq, fun i inLeft inRight => ?_⟩
  exact parallel.group i _ _

theorem groupAt (parallel : t.Parallel M R t') (i : Nat) :
    Paired (Group.Parallel M R) (t.groupAt i) (t'.groupAt i) := by
  unfold Table.groupAt
  rw [← parallel.mask_eq]
  by_cases beyond : t.mask.toNat < i
  · rw [if_pos beyond, if_pos beyond]
    exact .fault _
  · rw [if_neg beyond, if_neg beyond]
    by_cases inRange : i < t.groups.size
    · have inRange' : i < t'.groups.size := parallel.groups_size_eq ▸ inRange
      rw [Array.getElem?_eq_getElem inRange, Array.getElem?_eq_getElem inRange']
      exact .ok (parallel.group i inRange inRange')
    · have outside' : ¬i < t'.groups.size := parallel.groups_size_eq ▸ inRange
      rw [Array.getElem?_eq_none (Nat.le_of_not_lt inRange),
        Array.getElem?_eq_none (Nat.le_of_not_lt outside')]
      exact .fault _

/-- Both candidates of a hash are parallel. -/
theorem candidateGroups (parallel : t.Parallel M R t') (hash : UInt64) :
    Paired (fun pair pair' => Group.Parallel M R pair.1 pair'.1 ∧ Group.Parallel M R pair.2 pair'.2)
      (t.candidateGroups hash) (t'.candidateGroups hash) := by
  unfold Table.candidateGroups
  rw [← parallel.candidates_eq]
  rcases (parallel.groupAt (t.candidates hash).first).cases with
    ⟨fault, first, first'⟩ | ⟨_, _, first, first', parallel₁⟩
  · rw [first, first']
    exact .fault fault
  · rw [first, first']
    dsimp only
    rcases (parallel.groupAt (t.candidates hash).second).cases with
      ⟨fault, second, second'⟩ | ⟨_, _, second, second', parallel₂⟩
    · rw [second, second']
      exact .fault fault
    · rw [second, second']
      exact .ok ⟨parallel₁, parallel₂⟩

/-- New contents of one group that are parallel keep the tables parallel. -/
theorem edit {i n : Nat} {g : Group K V slots} {g' : Group K' V' slots}
    (parallel : t.Parallel M R t') (contents : g.Parallel M R g') :
    (t.edit ⟨i, g⟩ n).Parallel M R (t'.edit ⟨i, g'⟩ n) where
  groups_size_eq := by simpa [Table.edit] using parallel.groups_size_eq
  group j inRange inRange' := by
    simp only [Table.edit, Array.size_setIfInBounds] at inRange inRange'
    simp only [Table.edit, Array.getElem_setIfInBounds inRange,
      Array.getElem_setIfInBounds inRange']
    split
    · exact contents
    · exact parallel.group j inRange inRange'
  mask_eq := parallel.mask_eq
  size_eq := rfl

/-- What lies at a position is taken out of both tables, which are parallel without it. -/
theorem removal (parallel : t.Parallel M R t') (p : Position) :
    Paired (fun change change' =>
        (t.edit change (t.size - 1)).Parallel M R (t'.edit change' (t'.size - 1)))
      (t.removal p) (t'.removal p) := by
  unfold Table.removal
  rw [← parallel.size_eq]
  rcases (parallel.groupAt p.group).cases with
    ⟨fault, failed, failed'⟩ | ⟨_, _, found, found', group⟩
  · rw [failed, failed']
    exact .fault fault
  · rw [found, found']
    dsimp only
    rcases (group.remove p.slot).cases with ⟨fault, failed, failed'⟩ | ⟨_, _, left, left', contents⟩
    · rw [failed, failed']
      exact .fault fault
    · rw [left, left']
      by_cases none : t.size = 0
      · simp only [if_pos none]
        exact .fault _
      · simp only [if_neg none]
        exact .ok (parallel.edit contents)

/-- Tables without entries correspond, whatever values they are left with. -/
theorem clear (parallel : t.Parallel M R t') : t.clear.Parallel M R t'.clear where
  groups_size_eq := by simpa [Table.clear] using parallel.groups_size_eq
  group i inRange inRange' := by
    simp only [Table.clear, Array.getElem_map]
    exact Group.parallel_reset _ _
  mask_eq := parallel.mask_eq
  size_eq := rfl

variable [DecidableEq K] [DecidableEq K']

/-! ### What is seen of the slots -/

/-- The groups of both tables are equally full, in order. -/
theorem fills_eq (parallel : t.Parallel M R t') (matching : Matching M) :
    t.fills = t'.fills := by
  rw [fills, fills, ← List.forall₂_eq_eq_eq, List.forall₂_map_left_iff, List.forall₂_map_right_iff]
  exact parallel.groups.imp fun _ _ group => group.fill_eq matching

theorem histogram_eq (parallel : t.Parallel M R t') (matching : Matching M) :
    t.histogram = t'.histogram := by
  simp only [histogram, parallel.fills_eq matching]

theorem countFills_eq (parallel : t.Parallel M R t') (matching : Matching M) :
    t.countFills = t'.countFills := by
  rw [countFills, countFills, parallel.fills_eq matching]

theorem countFull_eq (parallel : t.Parallel M R t') (matching : Matching M) :
    t.countFull = t'.countFull := by
  rw [countFull, countFull, parallel.fills_eq matching]

theorem rows_eq (parallel : t.Parallel M R t') (matching : Matching M) : t.rows = t'.rows := by
  rw [rows_eq_map, rows_eq_map, parallel.fills_eq matching]

theorem describe_eq (parallel : t.Parallel M R t') (matching : Matching M) :
    t.describe = t'.describe := by
  unfold describe
  rw [parallel.rows_eq matching, parallel.size_eq, parallel.capacity_eq]

theorem describeIndented_eq (parallel : t.Parallel M R t') (matching : Matching M) :
    t.describeIndented = t'.describeIndented := by
  unfold describeIndented
  rw [parallel.rows_eq matching, parallel.size_eq, parallel.capacity_eq]

/-! ### Lookups -/

section Scans

variable {at₁ at₂ : Nat} {first second : Group K V slots} {first' second' : Group K' V' slots}

/-- The bounded scan takes the same course in parallel groups. -/
theorem scan_eq (matching : Matching M) (parallel₁ : first.Parallel M R first')
    (parallel₂ : second.Parallel M R second') (pair : M key key') (slot : Nat)
    (counter : UInt64) :
    scan at₁ at₂ first second key slot counter = scan at₁ at₂ first' second' key' slot counter := by
  have vacant_iff (slot : Nat) (inRange : slot < slots) :
      (first.keys[slot] = Key.vacant ∧ second.keys[slot] = Key.vacant) ↔
        first'.keys[slot] = Key.vacant ∧ second'.keys[slot] = Key.vacant :=
    and_congr ((parallel₁.keys slot inRange).vacant_iff matching)
      ((parallel₂.keys slot inRange).vacant_iff matching)
  have first_iff (slot : Nat) (inRange : slot < slots) :=
    (parallel₁.keys slot inRange).eq_iff matching pair
  have second_iff (slot : Nat) (inRange : slot < slots) :=
    (parallel₂.keys slot inRange).eq_iff matching pair
  fun_induction scan at₁ at₂ first second key slot counter with
  | case1 slot counter inRange vacant =>
    rw [scan, dif_pos inRange, if_pos ((vacant_iff slot inRange).mp vacant)]
  | case2 slot inRange occupied =>
    rw [scan, dif_pos inRange, if_neg (mt (vacant_iff slot inRange).mpr occupied), if_pos rfl]
  | case3 slot counter inRange occupied free same =>
    rw [scan, dif_pos inRange, if_neg (mt (vacant_iff slot inRange).mpr occupied), if_neg free,
      if_pos ((first_iff slot inRange).mp same)]
  | case4 slot counter inRange occupied free different full =>
    rw [scan, dif_pos inRange, if_neg (mt (vacant_iff slot inRange).mpr occupied), if_neg free,
      if_neg (mt (first_iff slot inRange).mpr different), if_pos full]
  | case5 slot counter inRange occupied free different free' same =>
    rw [scan, dif_pos inRange, if_neg (mt (vacant_iff slot inRange).mpr occupied), if_neg free,
      if_neg (mt (first_iff slot inRange).mpr different), if_neg free',
      if_pos ((second_iff slot inRange).mp same)]
  | case6 slot counter inRange occupied free different free' different' ih =>
    rw [ih, scan.eq_def at₁ at₂ first' second' key' slot, dif_pos inRange,
      if_neg (mt (vacant_iff slot inRange).mpr occupied), if_neg free,
      if_neg (mt (first_iff slot inRange).mpr different), if_neg free',
      if_neg (mt (second_iff slot inRange).mpr different')]
  | case7 slot counter beyond => rw [scan, dif_neg beyond]

/-- So does the scan for stored keys. -/
theorem scanUnchecked_eq (matching : Matching M) (parallel₁ : first.Parallel M R first')
    (parallel₂ : second.Parallel M R second') (pair : M key key') (slot : Nat)
    (counter : UInt64) :
    scanUnchecked at₁ at₂ first second key slot counter =
      scanUnchecked at₁ at₂ first' second' key' slot counter := by
  have first_iff (slot : Nat) (inRange : slot < slots) :=
    (parallel₁.keys slot inRange).eq_iff matching pair
  have second_iff (slot : Nat) (inRange : slot < slots) :=
    (parallel₂.keys slot inRange).eq_iff matching pair
  fun_induction scanUnchecked at₁ at₂ first second key slot counter with
  | case1 slot inRange => rw [scanUnchecked, dif_pos inRange, if_pos rfl]
  | case2 slot counter inRange free same =>
    rw [scanUnchecked, dif_pos inRange, if_neg free, if_pos ((first_iff slot inRange).mp same)]
  | case3 slot counter inRange free different full =>
    rw [scanUnchecked, dif_pos inRange, if_neg free,
      if_neg (mt (first_iff slot inRange).mpr different), if_pos full]
  | case4 slot counter inRange free different free' same =>
    rw [scanUnchecked, dif_pos inRange, if_neg free,
      if_neg (mt (first_iff slot inRange).mpr different), if_neg free',
      if_pos ((second_iff slot inRange).mp same)]
  | case5 slot counter inRange free different free' different' ih =>
    rw [ih, scanUnchecked.eq_def at₁ at₂ first' second' key' slot, dif_pos inRange, if_neg free,
      if_neg (mt (first_iff slot inRange).mpr different), if_neg free',
      if_neg (mt (second_iff slot inRange).mpr different')]
  | case6 slot counter beyond => rw [scanUnchecked, dif_neg beyond]

end Scans

/-- A key is found in the same place, and after the same comparisons, as the key to which it
corresponds. -/
theorem locate_eq (parallel : t.Parallel M R t') (matching : Matching M) (pair : M key key')
    (hash counter : UInt64) : t.locate key hash counter = t'.locate key' hash counter := by
  unfold locate
  by_cases vacant : key = Key.vacant
  · rw [if_pos vacant, if_pos ((matching.vacant_iff pair).mp vacant)]
  · rw [if_neg vacant, if_neg (mt (matching.vacant_iff pair).mpr vacant), ← parallel.candidates_eq]
    rcases (parallel.candidateGroups hash).cases with
      ⟨fault, failed, failed'⟩ | ⟨_, _, found, found', parallel₁, parallel₂⟩
    · rw [failed, failed']
    · rw [found, found']
      exact scan_eq matching parallel₁ parallel₂ pair 0 counter

theorem locateUnchecked_eq (parallel : t.Parallel M R t') (matching : Matching M)
    (pair : M key key') (hash counter : UInt64) :
    t.locateUnchecked key hash counter = t'.locateUnchecked key' hash counter := by
  unfold locateUnchecked
  rw [← parallel.candidates_eq]
  rcases (parallel.candidateGroups hash).cases with
    ⟨fault, failed, failed'⟩ | ⟨_, _, found, found', parallel₁, parallel₂⟩
  · rw [failed, failed']
  · rw [found, found']
    exact scanUnchecked_eq matching parallel₁ parallel₂ pair 0 counter

theorem valueAt (parallel : t.Parallel M R t') (matching : Matching M) (p : Position) :
    Paired R (t.valueAt p) (t'.valueAt p) := by
  unfold Table.valueAt
  rcases (parallel.groupAt p.group).cases with
    ⟨fault, failed, failed'⟩ | ⟨_, _, found, found', group⟩
  · rw [failed, failed']
    exact .fault fault
  · rw [found, found']
    exact group.read matching p.slot

/-- Lookups compare equally often and find related values. -/
theorem getIndexed (parallel : t.Parallel M R t') (matching : Matching M) (pair : M key key')
    (hash counter : UInt64) :
    Paired (Option.Rel R) (t.getIndexed key hash counter).result
        (t'.getIndexed key' hash counter).result ∧
      (t.getIndexed key hash counter).counter = (t'.getIndexed key' hash counter).counter := by
  unfold Table.getIndexed
  rw [parallel.locate_eq matching pair, Counted.counter_andThen, Counted.counter_andThen]
  refine ⟨?_, rfl⟩
  unfold Counted.andThen
  rcases (t'.locate key' hash counter).result with fault | _ | p
  · exact .fault fault
  · exact .ok .none
  · exact (parallel.valueAt matching p).map fun _ _ related => .some related

theorem findIndexed (parallel : t.Parallel M R t') (matching : Matching M) (pair : M key key')
    (hash counter : UInt64) :
    Paired R (t.findIndexed key hash counter).result (t'.findIndexed key' hash counter).result ∧
      (t.findIndexed key hash counter).counter = (t'.findIndexed key' hash counter).counter := by
  unfold Table.findIndexed
  rw [parallel.locate_eq matching pair, Counted.counter_andThen, Counted.counter_andThen]
  refine ⟨?_, rfl⟩
  unfold Counted.andThen
  rcases (t'.locate key' hash counter).result with fault | _ | p
  · exact .fault fault
  · exact .fault _
  · exact parallel.valueAt matching p

theorem findIndexedUnchecked (parallel : t.Parallel M R t') (matching : Matching M)
    (pair : M key key') (hash counter : UInt64) :
    Paired R (t.findIndexedUnchecked key hash counter).result
        (t'.findIndexedUnchecked key' hash counter).result ∧
      (t.findIndexedUnchecked key hash counter).counter =
        (t'.findIndexedUnchecked key' hash counter).counter := by
  unfold Table.findIndexedUnchecked
  rw [parallel.locateUnchecked_eq matching pair, Counted.counter_andThen, Counted.counter_andThen]
  refine ⟨?_, rfl⟩
  unfold Counted.andThen
  rcases (t'.locateUnchecked key' hash counter).result with fault | p
  · exact .fault fault
  · exact parallel.valueAt matching p

theorem contains_eq (parallel : t.Parallel M R t') (alike : Scheme.Alike M s s')
    (pair : M key key') (counter : UInt64) :
    t.contains s key counter = t'.contains s' key' counter := by
  rw [contains, alike.hash_eq pair, parallel.locate_eq alike.toMatching pair, contains]

omit [DecidableEq K] [DecidableEq K'] in
theorem prefetch_eq (parallel : t.Parallel M R t') (alike : Scheme.Alike M s s')
    (pair : M key key') : t.prefetch s key = t'.prefetch s' key' := by
  rw [prefetch, prefetch, alike.hash_eq pair]
  rcases (parallel.candidateGroups (s'.hash key')).cases with
    ⟨fault, failed, failed'⟩ | ⟨_, _, found, found', -⟩
  · rw [failed, failed']
    rfl
  · rw [found, found']
    rfl

/-- Looking the stored keys up costs the same, in the same order. -/
theorem lookupCosts_eq (parallel : t.Parallel M R t') (alike : Scheme.Alike M s s') :
    t.lookupCosts s = t'.lookupCosts s' := by
  have keys : List.Forall₂ M t.liveKeys t'.liveKeys :=
    List.rel_flatMap parallel.groups fun _ _ group => group.liveKeys alike.toMatching
  have costs : Paired (List.Forall₂ Eq) (t.lookupCosts s) (t'.lookupCosts s') :=
    Paired.mapM keys fun key key' pair =>
      .of_eq (by rw [lookupCost, lookupCost, parallel.contains_eq alike pair])
  exact (costs.mono fun _ _ same => List.forall₂_eq_eq_eq ▸ same).eq

/-! ### Entries -/

/-- What is read of both tables, group by group, is paired. -/
theorem entries (parallel : t.Parallel M R t') (matching : Matching M) :
    Paired (List.Forall₂ (EntryPair M R)) t.entries t'.entries :=
  (Paired.mapM parallel.groups fun _ _ group => group.entries matching).map
    fun _ _ related => List.rel_flatten related

/-- Related values have related totals. -/
theorem total (parallel : t.Parallel M R t') (matching : Matching M)
    {acc : Accumulation V A} {acc' : Accumulation V' A'} (totals : acc.Alike R T acc') :
    Paired T (t.total acc) (t'.total acc') := by
  refine (parallel.entries matching).bind fun found found' related => ?_
  refine totals.addAll totals.zero ?_
  rw [List.forall₂_map_left_iff, List.forall₂_map_right_iff]
  exact related.imp fun _ _ pair => pair.2

/-! ### Placement and growth -/

/-- A new entry goes to the same slot of both tables. -/
theorem target_eq (parallel : t.Parallel M R t') (matching : Matching M) (hash : UInt64) :
    t.target hash = t'.target hash := by
  unfold target
  rw [← parallel.capacity_eq, ← parallel.candidates_eq]
  rcases (parallel.candidateGroups hash).cases with
    ⟨fault, failed, failed'⟩ | ⟨_, _, found, found', parallel₁, parallel₂⟩
  · rw [failed, failed']
  · rw [found, found']
    simp only [parallel₁.fill_eq matching, parallel₂.fill_eq matching]

/-- Both tables place entries that are paired and are parallel with them, or neither has room. -/
theorem placement (parallel : t.Parallel M R t') (matching : Matching M) (pair : M key key')
    (related : R value value') (hash : UInt64) :
    Paired (Option.Rel fun change change' =>
        (t.edit change (t.size + 1)).Parallel M R (t'.edit change' (t'.size + 1)))
      (t.placement hash key value) (t'.placement hash key' value') := by
  unfold Table.placement
  rw [parallel.target_eq matching]
  rcases t'.target hash with fault | _ | p
  · exact .fault fault
  · exact .ok .none
  · dsimp only
    rcases (parallel.groupAt p.group).cases with
      ⟨fault, failed, failed'⟩ | ⟨_, _, found, found', group⟩
    · rw [failed, failed']
      exact .fault fault
    · rw [found, found']
      dsimp only
      rcases (group.push matching pair related p.slot).cases with
        ⟨fault, failed, failed'⟩ | ⟨_, _, pushed, pushed', contents⟩
      · rw [failed, failed']
        exact .fault fault
      · rw [pushed, pushed', ← parallel.size_eq]
        exact .ok (.some (parallel.edit contents))

/-- Entries that are paired, placed one after another, find room in both tables or in neither. -/
theorem placeAll (parallel : t.Parallel M R t') (alike : Scheme.Alike M s s')
    (pairs : List.Forall₂ (EntryPair M R) l l') :
    Paired (Option.Rel (Parallel M R)) (placeAll s l t) (placeAll s' l' t') := by
  induction pairs generalizing t t' with
  | nil => exact .ok (.some parallel)
  | @cons e e' _ _ here _ ih =>
    obtain ⟨pair, related⟩ := here
    rw [Table.placeAll, Table.placeAll, ← alike.hash_eq pair]
    rcases (parallel.placement alike.toMatching pair related (s.hash e.1)).cases with
      ⟨fault, failed, failed'⟩ | ⟨_, _, decided, decided', changes⟩
    · rw [failed, failed']
      exact .fault fault
    · rw [decided, decided']
      cases changes with
      | none => exact .ok .none
      | some next => exact ih next

end Parallel

/-- As many groups are allocated for both tables, if an allocation does not set them apart. -/
theorem paired_allocate {l l' : Layout} (capacity : Nat)
    (unhindered : Unhindered l l' (allocate l capacity : Except Fault (Table K V slots))
      (allocate l' capacity : Except Fault (Table K' V' slots))) :
    Paired (Parallel M R) (allocate l capacity : Except Fault (Table K V slots))
      (allocate l' capacity : Except Fault (Table K' V' slots)) := by
  unfold allocate at unhindered ⊢
  by_cases powerOfTwo : capacity.isPowerOfTwo
  · rw [if_neg (not_not.mpr powerOfTwo), if_neg (not_not.mpr powerOfTwo)] at unhindered ⊢
    have fits_iff : l.Fits slots capacity ↔ l'.Fits slots capacity := by
      rcases unhindered with same | ⟨returns, returns'⟩
      · rw [same]
      · refine iff_of_true ?_ ?_
        · by_contra tooLarge
          rw [if_pos tooLarge] at returns
          exact returns rfl
        · by_contra tooLarge
          rw [if_pos tooLarge] at returns'
          exact returns' rfl
    by_cases fits : l.Fits slots capacity
    · rw [if_neg (not_not.mpr fits), if_neg (not_not.mpr (fits_iff.mp fits))]
      exact .ok (parallel_empty capacity)
    · rw [if_pos fits, if_pos (mt fits_iff.mpr fits)]
      exact .fault _
  · rw [if_pos powerOfTwo, if_pos powerOfTwo]
    exact .fault _

/-- Copies of parallel tables are parallel. -/
theorem Parallel.copy (parallel : t.Parallel M R t')
    (unhindered : Unhindered s.layout s'.layout (t.copy s) (t'.copy s')) :
    Paired (Parallel M R) (t.copy s) (t'.copy s') := by
  rw [Table.copy_eq, Table.copy_eq, ← parallel.capacity_eq] at unhindered ⊢
  have fresh : Paired (Parallel M R)
      (allocate s.layout t.capacity : Except Fault (Table K V slots))
      (allocate s'.layout t.capacity : Except Fault (Table K' V' slots)) :=
    paired_allocate t.capacity unhindered.of_map
  exact fresh.map fun _ _ _ => parallel

variable [DecidableEq K] [DecidableEq K']

/-- Entries that are paired fill the same capacity in parallel, if an allocation does not set the
tables apart. -/
theorem paired_rebuild (alike : Scheme.Alike M s s')
    (pairs : List.Forall₂ (EntryPair M R) l l') (capacity : Nat)
    (unhindered : Unhindered s.layout s'.layout
      (rebuild s l capacity : Except Fault (Option (Table K V slots)))
      (rebuild s' l' capacity : Except Fault (Option (Table K' V' slots)))) :
    Paired (Option.Rel (Parallel M R))
      (rebuild s l capacity : Except Fault (Option (Table K V slots)))
      (rebuild s' l' capacity : Except Fault (Option (Table K' V' slots))) := by
  unfold rebuild at unhindered ⊢
  have made : Paired (Parallel M R) (allocate s.layout capacity : Except Fault (Table K V slots))
      (allocate s'.layout capacity : Except Fault (Table K' V' slots)) :=
    paired_allocate capacity
      (unhindered.of_imp (fun failed => by rw [failed]) fun failed => by rw [failed])
  rcases made.cases with ⟨fault, failed, failed'⟩ | ⟨_, _, fresh, fresh', parallel⟩
  · rw [failed, failed']
    exact .fault fault
  · rw [fresh, fresh']
    exact parallel.placeAll alike pairs

/-- Growth passes over the same capacities for entries that are paired. -/
theorem paired_growThrough (alike : Scheme.Alike M s s')
    (pairs : List.Forall₂ (EntryPair M R) l l') (size : Nat) (capacities : List Nat)
    (unhindered : Unhindered s.layout s'.layout
      (growThrough s l size capacities : Except Fault (Table K V slots))
      (growThrough s' l' size capacities : Except Fault (Table K' V' slots))) :
    Paired (Parallel M R)
      (growThrough s l size capacities : Except Fault (Table K V slots))
      (growThrough s' l' size capacities : Except Fault (Table K' V' slots)) := by
  induction capacities with
  | nil => exact .fault _
  | cons capacity larger ih =>
    rw [growThrough, growThrough] at unhindered ⊢
    have built : Paired (Option.Rel (Parallel M R))
        (rebuild s l capacity : Except Fault (Option (Table K V slots))) (rebuild s' l' capacity) :=
      paired_rebuild alike pairs capacity
        (unhindered.of_imp (fun failed => by rw [failed]) fun failed => by rw [failed])
    rcases built.cases with ⟨fault, failed, failed'⟩ | ⟨_, _, tables, tables', parallel⟩
    · rw [failed, failed']
      exact .fault fault
    · rw [tables, tables'] at unhindered ⊢
      cases parallel with
      | none => exact ih unhindered
      | @some t t' parallel =>
        dsimp only
        rw [← parallel.size_eq]
        by_cases counted : t.size = size
        · rw [if_pos counted, if_pos counted]
          exact .ok parallel
        · rw [if_neg counted, if_neg counted]
          exact .fault _

namespace Parallel

theorem grown (parallel : t.Parallel M R t') (alike : Scheme.Alike M s s')
    (unhindered : Unhindered s.layout s'.layout (t.grown s) (t'.grown s')) :
    Paired (Parallel M R) (t.grown s) (t'.grown s') := by
  unfold Table.grown at unhindered ⊢
  rw [← parallel.size_eq, ← parallel.capacity_eq] at unhindered ⊢
  rcases (parallel.entries alike.toMatching).cases with
    ⟨fault, failed, failed'⟩ | ⟨_, _, read, read', pairs⟩
  · rw [failed, failed']
    exact .fault fault
  · rw [read, read'] at unhindered ⊢
    exact paired_growThrough alike pairs t.size _ unhindered

end Parallel

end Table

end TwoChoice
