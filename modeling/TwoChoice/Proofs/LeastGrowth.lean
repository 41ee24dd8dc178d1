import TwoChoice.Proofs.Allocation
import TwoChoice.Proofs.Balance
import TwoChoice.Proofs.Filling
import TwoChoice.Proofs.Room

/-!
# The least doubling with room

Growth does not look ahead. It tries one doubling of the capacity after another and keeps what it
gets at the first that has room for all entries, taken as they lie. Which doubling that is can be
told from the hashes alone. Growth fails exactly if a limit comes first: no more doubling fits in 64
bits, or the groups of one do not fit an allocation. What it tried before leaves no trace.

No order of the entries is without room where every entry has few rivals for its candidates. This
bounds the capacity that growth reaches. Entries that are together as many as two groups have slots,
each with two different candidates, have few rivals at once, so that growth merely doubles.

## Main Definitions

* `Candidates.among` — the candidates of a hash among so many groups
* `Table.FindsRoom` — the entries of a table, as they lie, find room in so many empty groups
* `Table.LeastDoubling` — the least number of doublings at which they do
* `Table.Enlarges` — a table with the entries of another and more groups
* `Table.Enlargement` — the ways in which growing ends, by the number of doublings

## Main Statements

* `Table.WellFormed.enlargement_grow` — growing ends in one of its ways
* `Table.WellFormed.grow_least` — growing reaches the least doubling with room, or a limit
* `Table.WellFormed.grow_uncrowded` — where growing stops at the latest
-/

namespace TwoChoice

universe u v

/-- The candidates of a hash among so many groups: the remainders of the hash and of its upper
half. -/
def Candidates.among (capacity : Nat) (hash : UInt64) : Candidates where
  first := hash.toNat % capacity
  second := hash.toNat / 2 ^ 32 % capacity

/-- Groups that fit one allocation have been doubled less often than groups that do not. -/
theorem Layout.Fits.doublings_lt {l : Layout} {slots capacity i j : Nat}
    (fits : l.Fits slots (capacity * 2 ^ i)) (tooLarge : ¬l.Fits slots (capacity * 2 ^ j)) :
    i < j :=
  (Nat.pow_lt_pow_iff_right (by decide)).mp
    (Nat.lt_of_mul_lt_mul_left (fits.lt_of_not_fits tooLarge))

namespace Table

variable {K : Type u} {V : Type v} {slots : Nat} [Key K] [DecidableEq K]
variable {s : Scheme K} {t t' : Table K V slots} {capacity : Nat}

/-! ### Room -/

/-- The entries of a table, group by group and in each group slot by slot, find room in so many
empty groups. -/
def FindsRoom (s : Scheme K) (t : Table K V slots) (capacity : Nat) : Prop :=
  AllFit slots (t.toList.map fun entry => .among capacity (s.hash entry.1)) fun _ => 0

instance (s : Scheme K) (t : Table K V slots) (capacity : Nat) :
    Decidable (FindsRoom s t capacity) :=
  inferInstanceAs (Decidable (AllFit ..))

/-- The entries of a table find room after `j` doublings, and after no fewer. -/
structure LeastDoubling (s : Scheme K) (t : Table K V slots) (j : Nat) : Prop where
  /-- At least one doubling is made. -/
  positive : 1 ≤ j
  /-- There is room after all of them. -/
  findsRoom : FindsRoom s t (t.capacity * 2 ^ j)
  /-- There is none before. -/
  least : ∀ i, 1 ≤ i → i < j → ¬FindsRoom s t (t.capacity * 2 ^ i)

/-- No number of doublings at which there is room is less than the least one. -/
theorem LeastDoubling.le {i j : Nat} (least : LeastDoubling s t j) (positive : 1 ≤ i)
    (findsRoom : FindsRoom s t (t.capacity * 2 ^ i)) : j ≤ i := by
  by_contra more
  exact least.least i positive (Nat.lt_of_not_le more) findsRoom

/-- There is no other least number of doublings. -/
theorem LeastDoubling.unique {i j : Nat} (least : LeastDoubling s t i)
    (least' : LeastDoubling s t j) : i = j :=
  Nat.le_antisymm (least.le least'.positive least'.findsRoom)
    (least'.le least.positive least.findsRoom)

omit [DecidableEq K] in
/-- The candidates in an empty table are remainders. -/
theorem candidates_empty (usable : Capacity.Usable capacity) (hash : UInt64) :
    (empty capacity : Table K V slots).candidates hash = .among capacity hash :=
  Candidates.ofHash_capacity usable.isPowerOfTwo (Nat.le_of_lt usable.lt_limit) hash

/-- Entries can be placed in an empty table exactly if they fit. -/
theorem exists_placeAll_empty_iff {entries : List (K × V)} (usable : Capacity.Usable capacity)
    (live : ∀ entry ∈ entries, entry.1 ≠ Key.vacant) :
    (∃ t' : Table K V slots, placeAll s entries (empty capacity) = .ok (some t')) ↔
      AllFit slots (entries.map fun entry => .among capacity (s.hash entry.1)) fun _ => 0 := by
  have wellFormed : (empty capacity : Table K V slots).WellFormed s :=
    wellFormed_empty_of_usable s usable
  have fills : (empty capacity : Table K V slots).fillAt = fun _ => 0 := by
    funext i
    exact fillAt_empty capacity i
  rw [wellFormed.exists_placeAll_iff live, fills]
  simp only [candidates_empty usable]

/-- A capacity has room for the entries of a table exactly if they can be placed there as they
lie. -/
theorem findsRoom_iff (usable : Capacity.Usable capacity) :
    FindsRoom s t capacity ↔
      ∃ t' : Table K V slots, placeAll s t.toList (empty capacity) = .ok (some t') :=
  (exists_placeAll_empty_iff usable fun _ mem => key_ne_vacant_of_mem_toList mem).symm

theorem NoRoom.not_findsRoom (noRoom : NoRoom (V := V) s slots t.toList capacity)
    (usable : Capacity.Usable capacity) : ¬FindsRoom s t capacity := by
  intro findsRoom
  obtain ⟨t', placed⟩ := (findsRoom_iff usable).mp findsRoom
  rw [noRoom.2] at placed
  cases placed

/-! ### Growing -/

/-- A table with the entries of another whose number of groups has been doubled `j` times. -/
structure Enlarges (s : Scheme K) (t : Table K V slots) (j : Nat) (t' : Table K V slots) :
    Prop where
  /-- The capacity is doubled so many times. -/
  capacity_eq : t'.capacity = t.capacity * 2 ^ j
  /-- The groups, the new mask and the size fit together, and every entry is in a candidate. -/
  wellFormed : t'.WellFormed s
  /-- Every entry is there as often as before, with its value. -/
  perm : t'.toList.Perm t.toList
  /-- There are recorded to be equally many. -/
  size_eq : t'.size = t.size

/-- The ways in which growing ends. -/
inductive Enlargement (s : Scheme K) (t : Table K V slots) : Updated K V slots Unit → Prop
  /-- The entries find room after `j` doublings and after no fewer. -/
  | returned (j : Nat) {t' : Table K V slots} (least : LeastDoubling s t j)
      (below : t.capacity * 2 ^ j < Word.limit)
      (fits : s.layout.Fits slots (t.capacity * 2 ^ j)) (enlarges : Enlarges s t j t') :
      Enlargement s t ⟨.ok (), t'⟩
  /-- They find room after none of the doublings that fit in 64 bits. -/
  | exhausted (noRoom : ∀ j, 1 ≤ j → t.capacity * 2 ^ j < Word.limit →
        s.layout.Fits slots (t.capacity * 2 ^ j) ∧ ¬FindsRoom s t (t.capacity * 2 ^ j)) :
      Enlargement s t ⟨.error .capacityOverflow, t⟩
  /-- After `j` doublings the groups do not fit one allocation, and the entries find no room after
  fewer. -/
  | unallocatable (j : Nat) (positive : 1 ≤ j) (below : t.capacity * 2 ^ j < Word.limit)
      (tooLarge : ¬s.layout.Fits slots (t.capacity * 2 ^ j))
      (noRoom : ∀ i, 1 ≤ i → i < j → ¬FindsRoom s t (t.capacity * 2 ^ i)) :
      Enlargement s t ⟨.error .layoutOverflow, t⟩

namespace WellFormed

/-- What comes before a doubling is what is reached by fewer. -/
theorem not_findsRoom_of_split (wellFormed : t.WellFormed s) {before after : List Nat} {j : Nat}
    (split : Capacity.doublings t.capacity = before ++ t.capacity * 2 ^ j :: after)
    (below : t.capacity * 2 ^ j < Word.limit)
    (noRoom : ∀ c ∈ before, NoRoom (V := V) s slots t.toList c) :
    ∀ i, 1 ≤ i → i < j → ¬FindsRoom s t (t.capacity * 2 ^ i) := by
  intro i positive fewer
  have capacity_pos := Nat.pos_of_isPowerOfTwo wellFormed.isPowerOfTwo
  have less : t.capacity * 2 ^ i < t.capacity * 2 ^ j :=
    Nat.mul_lt_mul_of_pos_left (Nat.pow_lt_pow_right (by decide) fewer) capacity_pos
  have mem : t.capacity * 2 ^ i ∈ Capacity.doublings t.capacity :=
    (Capacity.mem_doublings_iff_exists wellFormed.isPowerOfTwo).mpr
      ⟨i, positive, rfl, less.trans below⟩
  have early := Capacity.mem_before_of_lt capacity_pos split mem less
  exact (noRoom _ early).not_findsRoom (wellFormed.usable_of_mem_doublings mem)

/-- Growing ends in one of its ways. -/
theorem enlargement_grow (wellFormed : t.WellFormed s) : Enlargement s t (t.grow s) := by
  have growth := wellFormed.growth_grown
  have mem_iff {larger : Nat} : larger ∈ Capacity.doublings t.capacity ↔
      ∃ j, 1 ≤ j ∧ larger = t.capacity * 2 ^ j ∧ larger < Word.limit :=
    Capacity.mem_doublings_iff_exists wellFormed.isPowerOfTwo
  unfold Table.grow
  generalize t.grown s = result at growth
  cases growth with
  | reached before after larger split noRoom fits placed wellFormed' perm =>
    have mem : larger ∈ Capacity.doublings t.capacity := split ▸ List.mem_append_cons_self
    have usable := wellFormed.usable_of_mem_doublings mem
    obtain ⟨j, positive, rfl, below⟩ := mem_iff.mp mem
    refine .returned j ⟨positive, (findsRoom_iff usable).mpr ⟨_, placed⟩,
      wellFormed.not_findsRoom_of_split split below noRoom⟩ below fits ⟨?_, wellFormed', perm, ?_⟩
    · rw [capacity_placeAll placed, capacity_empty]
    · rw [wellFormed'.size_eq, wellFormed.size_eq, perm.length_eq]
  | unallocatable before after larger split noRoom tooLarge =>
    have mem : larger ∈ Capacity.doublings t.capacity := split ▸ List.mem_append_cons_self
    obtain ⟨j, positive, rfl, below⟩ := mem_iff.mp mem
    exact .unallocatable j positive below tooLarge
      (wellFormed.not_findsRoom_of_split split below noRoom)
  | exhausted noRoom =>
    refine .exhausted fun j positive below => ?_
    have mem := mem_iff.mpr ⟨j, positive, rfl, below⟩
    exact ⟨(noRoom _ mem).1, (noRoom _ mem).not_findsRoom (wellFormed.usable_of_mem_doublings mem)⟩

/-- Growing either returns with the least doubling at which the entries find room, and with all of
them; or a limit is passed before there is room, and it fails without touching the table. -/
theorem grow_least (wellFormed : t.WellFormed s) :
    (∃ j, LeastDoubling s t j ∧ t.capacity * 2 ^ j < Word.limit ∧
        s.layout.Fits slots (t.capacity * 2 ^ j) ∧
        (t.grow s).result = .ok () ∧ Enlarges s t j (t.grow s).table) ∨
      (∀ j, LeastDoubling s t j → t.capacity * 2 ^ j < Word.limit →
          ¬s.layout.Fits slots (t.capacity * 2 ^ j)) ∧
        (t.grow s).table = t ∧
        ((t.grow s).result = .error .capacityOverflow ∧
            (∀ j, 1 ≤ j → t.capacity * 2 ^ j < Word.limit →
              s.layout.Fits slots (t.capacity * 2 ^ j)) ∨
          (t.grow s).result = .error .layoutOverflow ∧
            ∃ j, 1 ≤ j ∧ t.capacity * 2 ^ j < Word.limit ∧
              ¬s.layout.Fits slots (t.capacity * 2 ^ j)) := by
  have enlargement := wellFormed.enlargement_grow
  generalize t.grow s = update at enlargement
  cases enlargement with
  | returned j least below fits enlarges => exact Or.inl ⟨j, least, below, fits, rfl, enlarges⟩
  | exhausted noRoom =>
    refine Or.inr ⟨?_, rfl, Or.inl ⟨rfl, fun j positive below => (noRoom j positive below).1⟩⟩
    intro j least below
    exact absurd least.findsRoom (noRoom j least.positive below).2
  | unallocatable j positive below tooLarge noRoom =>
    refine Or.inr ⟨?_, rfl, Or.inr ⟨rfl, j, positive, below, tooLarge⟩⟩
    intro i least _ fits
    -- A doubling that could be allocated comes before the one that cannot.
    exact noRoom i least.positive (fits.doublings_lt tooLarge) least.findsRoom

end WellFormed

/-- Three entries. The first two have both candidates in common in a table of eight groups and in
one of sixteen, but no longer in one of thirty-two. -/
def detouringEntries : List (FixedInt (.unsigned 64) × UInt64) :=
  [(⟨4294967299, by decide, by decide⟩, 1), (⟨4294967307, by decide, by decide⟩, 2),
    (⟨33, by decide, by decide⟩, 3)]

/-- What storing the three entries makes of a new table with one slot a group. -/
def detoured : Table (FixedInt (.unsigned 64)) UInt64 1 :=
  (Operation.run doublingScheme Accumulation.listing
    (detouringEntries.map fun entry => .insert entry.1 entry.2) ⟨empty 8, 0⟩).2.table

theorem reachable_detoured : Reachable doublingScheme detoured :=
  Reachable.run Accumulation.listing (Reachable.made new_doublingScheme)
    (by simp [detouringEntries, Operation.Legal])

/-- The entry that was stored last lies first and takes the place of another in sixteen groups.
Growth passes them by and reaches thirty-two. -/
theorem grow_least_detoured :
    detoured.WellFormed doublingScheme ∧ detoured.capacity = 8 ∧
      (detoured.grow doublingScheme).result = .ok () ∧
      Enlarges doublingScheme detoured 2 (detoured.grow doublingScheme).table := by
  have capacity_eq : detoured.capacity = 8 := by decide +kernel
  have noRoom : ¬FindsRoom doublingScheme detoured (detoured.capacity * 2 ^ 1) := by
    decide +kernel
  have findsRoom : FindsRoom doublingScheme detoured (detoured.capacity * 2 ^ 2) := by
    decide +kernel
  have least : LeastDoubling doublingScheme detoured 2 := by
    refine ⟨by decide, findsRoom, fun i positive fewer => ?_⟩
    obtain rfl : i = 1 := by omega
    exact noRoom
  refine ⟨reachable_detoured.wellFormed, capacity_eq, ?_⟩
  rcases reachable_detoured.wellFormed.grow_least with
    ⟨j, least', -, -, returned, enlarges⟩ | ⟨never, -⟩
  · obtain rfl := least'.unique least
    exact ⟨returned, enlarges⟩
  · rw [capacity_eq] at never
    exact absurd (by decide) (never 2 least (by decide))

/-! ### Entries with few rivals -/

/-- Every entry of a table has few rivals among the others, in so many groups. -/
def UncrowdedIn (s : Scheme K) (t : Table K V slots) (capacity : Nat) : Prop :=
  ∀ entry others, t.toList.Perm (entry :: others) →
    Uncrowded slots (.among capacity (s.hash entry.1))
      (others.map fun other => .among capacity (s.hash other.1))

/-- Entries with few rivals fit in every order. -/
theorem UncrowdedIn.allFit (uncrowded : UncrowdedIn s t capacity) {order : List (K × V)}
    (perm : order.Perm t.toList) :
    AllFit slots (order.map fun entry => .among capacity (s.hash entry.1)) fun _ => 0 := by
  apply allFit_of_uncrowded
  intro c others chosen
  have mem : c ∈ order.map fun entry => Candidates.among capacity (s.hash entry.1) :=
    chosen.symm.subset List.mem_cons_self
  obtain ⟨entry, inOrder, rfl⟩ := List.mem_map.mp mem
  obtain ⟨before, after, rfl⟩ := List.append_of_mem inOrder
  have few := uncrowded entry (before ++ after) (perm.symm.trans List.perm_middle)
  have same : (((before ++ after).map fun other => Candidates.among capacity (s.hash other.1))).Perm
      others := by
    have whole := (List.perm_middle.map _).symm.trans chosen
    exact whole.cons_inv
  exact few.of_perm same

/-- Different groups stay different under a double of their number. -/
theorem among_ne_of_dvd {larger : Nat} {hash : UInt64} (dvd : capacity ∣ larger)
    (apart : (Candidates.among capacity hash).first ≠ (Candidates.among capacity hash).second) :
    (Candidates.among larger hash).first ≠ (Candidates.among larger hash).second := by
  intro meet
  have meet' := congrArg (· % capacity) meet
  simp only [Candidates.among, Nat.mod_mod_of_dvd _ dvd] at meet'
  exact apart meet'

namespace WellFormed

/-- If there is room after some doublings, and the groups can be allocated, growing returns after no
more of them. -/
theorem grow_of_findsRoom (wellFormed : t.WellFormed s) {j : Nat} (positive : 1 ≤ j)
    (below : t.capacity * 2 ^ j < Word.limit) (fits : s.layout.Fits slots (t.capacity * 2 ^ j))
    (findsRoom : FindsRoom s t (t.capacity * 2 ^ j)) :
    ∃ i, 1 ≤ i ∧ i ≤ j ∧ (t.grow s).result = .ok () ∧ Enlarges s t i (t.grow s).table := by
  have enlargement := wellFormed.enlargement_grow
  generalize t.grow s = update at enlargement
  cases enlargement with
  | returned i least _ _ enlarges =>
    exact ⟨i, least.positive, least.le positive findsRoom, rfl, enlarges⟩
  | exhausted noRoom => exact absurd findsRoom (noRoom j positive below).2
  | unallocatable i _ _ tooLarge noRoom =>
    exact absurd findsRoom (noRoom j positive (fits.doublings_lt tooLarge))

/-- Entries that are not more than two groups have slots, each with two different candidates, have
few rivals in every larger table. -/
theorem uncrowdedIn_of_size_le (wellFormed : t.WellFormed s) (few : t.size ≤ 2 * slots)
    (apart : ∀ entry ∈ t.toList, (t.candidates (s.hash entry.1)).first ≠
      (t.candidates (s.hash entry.1)).second) (j : Nat) :
    UncrowdedIn s t (t.capacity * 2 ^ j) := by
  intro entry others perm
  have mem : entry ∈ t.toList := perm.symm.subset List.mem_cons_self
  have apart' := apart entry mem
  rw [wellFormed.candidates_eq] at apart'
  refine uncrowded_of_length_lt (among_ne_of_dvd (Nat.dvd_mul_right _ _) apart') ?_
  have count := perm.length_eq
  rw [← wellFormed.size_eq, List.length_cons] at count
  rw [List.length_map]
  omega

/-- Where every entry has few rivals after some doublings, the entries find room there in every
order, and growing returns with no greater capacity if that one can be allocated. Entries that are
together not more than two groups have slots, each with two different candidates, find room after
one doubling. -/
theorem grow_uncrowded (wellFormed : t.WellFormed s) :
    (∀ j, 1 ≤ j → t.capacity * 2 ^ j < Word.limit → UncrowdedIn s t (t.capacity * 2 ^ j) →
        (∀ order, order.Perm t.toList → ∃ t' : Table K V slots,
          placeAll s order (empty (t.capacity * 2 ^ j)) = .ok (some t')) ∧
        (s.layout.Fits slots (t.capacity * 2 ^ j) →
          (t.grow s).result = .ok () ∧ (t.grow s).table.capacity ≤ t.capacity * 2 ^ j)) ∧
      (t.size ≤ 2 * slots →
        (∀ entry ∈ t.toList, (t.candidates (s.hash entry.1)).first ≠
          (t.candidates (s.hash entry.1)).second) →
        2 * t.capacity < Word.limit → s.layout.Fits slots (2 * t.capacity) →
          (t.grow s).result = .ok () ∧ (t.grow s).table.capacity = 2 * t.capacity ∧
            (t.grow s).table.toList.Perm t.toList) := by
  constructor
  · intro j positive below uncrowded
    have usable := wellFormed.usable_of_mem_doublings
      ((Capacity.mem_doublings_iff_exists wellFormed.isPowerOfTwo).mpr ⟨j, positive, rfl, below⟩)
    constructor
    · intro order perm
      have live : ∀ entry ∈ order, entry.1 ≠ Key.vacant :=
        fun entry mem => key_ne_vacant_of_mem_toList (perm.subset mem)
      exact (exists_placeAll_empty_iff usable live).mpr (uncrowded.allFit perm)
    · intro fits
      obtain ⟨i, -, le, returned, enlarges⟩ := wellFormed.grow_of_findsRoom positive below fits
        (uncrowded.allFit (List.Perm.refl _))
      refine ⟨returned, ?_⟩
      rw [enlarges.capacity_eq]
      exact Nat.mul_le_mul_left _ (Nat.pow_le_pow_right (by decide) le)
  · intro few apart below fits
    have double : 2 * t.capacity = t.capacity * 2 ^ 1 := by omega
    rw [double] at below fits ⊢
    have uncrowded := wellFormed.uncrowdedIn_of_size_le few apart 1
    obtain ⟨i, positive, le, returned, enlarges⟩ :=
      wellFormed.grow_of_findsRoom (Nat.le_refl 1) below fits
        (uncrowded.allFit (List.Perm.refl _))
    obtain rfl : i = 1 := Nat.le_antisymm le positive
    exact ⟨returned, enlarges.capacity_eq, enlarges.perm⟩

end WellFormed

/-- A table whose two groups with entries are full, and share all their entries as candidates. -/
def shared : Table ZeroVacant UInt64 2 :=
  (Operation.run colliding Accumulation.listing
    [.insert ⟨1⟩ 10, .insert ⟨2⟩ 20, .insert ⟨3⟩ 30, .insert ⟨4⟩ 40] ⟨empty 8, 0⟩).2.table

/-- The four entries find room in sixteen groups in every order, and growing gets there. -/
theorem grow_uncrowded_shared :
    shared.WellFormed colliding ∧ shared.size = 4 ∧ UncrowdedIn colliding shared 16 ∧
      (∀ order, order.Perm shared.toList → ∃ t' : Table ZeroVacant UInt64 2,
        placeAll colliding order (empty 16) = .ok (some t')) ∧
      (shared.grow colliding).table.capacity = 16 ∧
      (shared.grow colliding).table.toList.Perm shared.toList := by
  have made : (withGroups colliding 8 : Except Fault (Table ZeroVacant UInt64 2)) =
      .ok (empty 8) := withGroups_eq_of_le (by decide) (by decide)
  have reachable : Reachable colliding shared :=
    Reachable.run Accumulation.listing (Reachable.made made) (by simp [Operation.Legal])
  have wellFormed := reachable.wellFormed
  have capacity_eq : shared.capacity = 8 := by decide +kernel
  have size_eq : shared.size = 4 := by decide +kernel
  have apart : ∀ entry ∈ shared.toList, (shared.candidates (colliding.hash entry.1)).first ≠
      (shared.candidates (colliding.hash entry.1)).second := by decide +kernel
  have uncrowded := wellFormed.uncrowdedIn_of_size_le (by omega) apart 1
  obtain ⟨inEveryOrder, -⟩ := wellFormed.grow_uncrowded.1 1 (Nat.le_refl 1)
    (by rw [capacity_eq]; decide) uncrowded
  obtain ⟨-, doubled, perm⟩ := wellFormed.grow_uncrowded.2 (by omega) apart
    (by rw [capacity_eq]; decide) (by rw [capacity_eq]; decide)
  rw [capacity_eq] at uncrowded inEveryOrder doubled
  exact ⟨wellFormed, size_eq, uncrowded, inEveryOrder, doubled, perm⟩

end Table

end TwoChoice
