import Mathlib.Data.Fintype.Basic
import Mathlib.Data.Fintype.Sigma
import Mathlib.Data.Multiset.Bind
import TwoChoice.Proofs.Exchange
import TwoChoice.Proofs.Invariant

/-!
# Room for all entries

The entries of a table fit a larger one: each can go to the candidate that reduces to the group it
is in, and no group gets more entries than one group has now. Placement does not look for such an
assignment, it fills the less full candidate of one entry after another. In some order of the
entries it finds room for all of them nevertheless, by an exchange argument. Growth does not choose
the order. It takes the entries as they lie, and can go through all capacities without success.

## Main Definitions

* `Table.Place`, `Table.entryOf` — the places of the entries of a table, and the entries
* `Table.contenders` — how many entries have a group among their candidates

## Main Statements

* `Table.WellFormed.exists_order_of_le` — some order of the entries finds room in a larger table
* `Table.WellFormed.grow_eq_ok_iff` — when growth succeeds
* `Table.WellFormed.exists_placeAll_of_contenders_le` — every order finds room if there are few
  contenders for each group
* `Table.spoiled_never_grows` — a table that growth finds no room for
* `Table.Reachable.growth_finds_room` — what reachable tables can rely on

## Design Notes

An entry may be stored more than once, so assignments are made of places and not of entries.
-/

namespace TwoChoice.Table

universe u v w

variable {K : Type u} {V : Type v} {slots : Nat} [Key K] [DecidableEq K]
variable {s : Scheme K} {t t' : Table K V slots}

/-! ### Placing in some order -/

/-- Elements that can be assigned to candidates within the room of each group can be stored in some
order. -/
theorem WellFormed.exists_order {ι : Type w} [DecidableEq ι] {entryOf : ι → K × V}
    {S : Finset ι} {assigned : ι → Nat} (wellFormed : t.WellFormed s)
    (live : ∀ k, (entryOf k).1 ≠ Key.vacant)
    (candidate : ∀ k ∈ S, assigned k = (t.candidates (s.hash (entryOf k).1)).first ∨
      assigned k = (t.candidates (s.hash (entryOf k).1)).second)
    (fits : ∀ i, load S assigned i ≤ slots - t.fillAt i) :
    ∃ order : List ι, (order : Multiset ι) = S.val ∧
      ∃ t', placeAll s (order.map entryOf) t = .ok (some t') := by
  -- The induction stores one element after another, the one that an exchange puts where
  -- placement would.
  induction S using Finset.strongInduction generalizing t assigned with
  | H S ih =>
    rcases S.eq_empty_or_nonempty with rfl | nonempty
    · exact ⟨[], rfl, t, rfl⟩
    · have notBlocked : ∀ k ∈ S, ¬t.Blocked (s.hash (entryOf k).1) := by
        intro k mem blocked
        have here : 0 < load S assigned (assigned k) :=
          Finset.card_pos.mpr ⟨k, Finset.mem_filter.mpr ⟨mem, rfl⟩⟩
        have room := fits (assigned k)
        have full : t.fillAt (assigned k) = slots := by
          rcases candidate k mem with first | second
          · exact first ▸ blocked.1
          · exact second ▸ blocked.2
        omega
      obtain ⟨assigned', either, fits', k, mem, chosen_eq⟩ := exists_reassignment nonempty
        (fun i => slots - t.fillAt i) (fun k => t.chosen (s.hash (entryOf k).1)) fits
        fun k mem => Nat.sub_pos_of_lt (t.fillAt_chosen_lt (notBlocked k mem))
      obtain ⟨more, gains⟩ := wellFormed.exists_gains (live k) (notBlocked k mem)
      have candidate' : ∀ l ∈ S.erase k,
          assigned' l = (more.candidates (s.hash (entryOf l).1)).first ∨
            assigned' l = (more.candidates (s.hash (entryOf l).1)).second := by
        intro l mem'
        rw [gains.candidates_eq]
        rcases either l with old | new
        · exact old ▸ candidate l (Finset.mem_of_mem_erase mem')
        · exact new ▸ t.chosen_eq_or _
      have fits'' : ∀ i, load (S.erase k) assigned' i ≤ slots - more.fillAt i := by
        intro i
        have before := fits' i
        have erased := load_erase mem assigned' i
        rw [gains.fillAt_eq, ← chosen_eq]
        by_cases here : i = assigned' k
        · rw [if_pos here] at erased ⊢
          omega
        · rw [if_neg here] at erased ⊢
          omega
      obtain ⟨order, order_eq, t', placed⟩ := ih (S.erase k) (Finset.erase_ssubset mem)
        gains.wellFormed candidate' fits''
      refine ⟨k :: order, ?_, t', ?_⟩
      · rw [← Multiset.cons_coe, order_eq, Finset.erase_val, Multiset.cons_erase mem]
      · rw [List.map_cons, gains.placeAll_cons, placed]

/-! ### Places -/

/-- The places of a table that hold its entries. -/
abbrev Place (t : Table K V slots) : Type :=
  (i : Fin t.groups.size) × Fin t.groups[i].toList.length

/-- The entry at a place. -/
def entryOf (t : Table K V slots) (p : t.Place) : K × V :=
  t.groups[p.1].toList[p.2]

theorem entryOf_mem (t : Table K V slots) (p : t.Place) :
    t.entryOf p ∈ t.groups[p.1].toList :=
  List.getElem_mem _

/-- The entries at all places are the entries of the table. -/
theorem map_entryOf (t : Table K V slots) :
    (Finset.univ : Finset t.Place).val.map t.entryOf = t.toList := by
  have group (i : Fin t.groups.size) :
      (Finset.univ : Finset (Fin t.groups[i].toList.length)).val.map
        (fun j => t.entryOf ⟨i, j⟩) = t.groups[i].toList := by
    rw [Fin.univ_val_map]
    exact congrArg _ (List.ofFn_getElem ..)
  have groups : (Finset.univ : Finset (Fin t.groups.size)).val.map (fun i => t.groups[i]) =
      t.groups.toList := by
    rw [Fin.univ_val_map]
    refine congrArg _ (List.ext_getElem (by simp) ?_)
    simp
  have places : (Finset.univ : Finset t.Place).val =
      (Finset.univ : Finset (Fin t.groups.size)).val.bind fun i =>
        (Finset.univ : Finset (Fin t.groups[i].toList.length)).val.map (Sigma.mk i) := rfl
  rw [toList, ← Multiset.coe_bind, ← groups, Multiset.bind_map, places, Multiset.map_bind]
  refine Multiset.bind_congr fun i _ => ?_
  rw [Multiset.map_map]
  exact group i

/-- A group has no more places than slots. -/
theorem WellFormed.load_place_le (wellFormed : t.WellFormed s) (i : Nat) :
    load (Finset.univ : Finset t.Place) (fun p => p.1) i ≤ slots := by
  have inSlots : ∀ p ∈ (Finset.univ : Finset t.Place).filter fun p => (p.1 : Nat) = i,
      (p.2 : Nat) ∈ Finset.range slots := by
    intro p _
    have inList : (p.2 : Nat) < (t.groups[(p.1 : Nat)]).toList.length := p.2.isLt
    rw [wellFormed.length_toList_getElem] at inList
    exact Finset.mem_range.mpr (inList.trans_le (t.fillAt_le _))
  have different : Set.InjOn (fun p : t.Place => (p.2 : Nat))
      ((Finset.univ : Finset t.Place).filter fun p => (p.1 : Nat) = i) := by
    rintro ⟨j, a⟩ mem ⟨k, b⟩ mem' same
    obtain rfl : j = k :=
      Fin.ext ((Finset.mem_filter.mp mem).2.trans (Finset.mem_filter.mp mem').2.symm)
    obtain rfl : a = b := Fin.ext same
    rfl
  have card_le := Finset.card_le_card_of_injOn _ inSlots different
  rwa [Finset.card_range] at card_le

@[simp] theorem fillAt_empty (capacity i : Nat) :
    (empty capacity : Table K V slots).fillAt i = 0 := by
  unfold fillAt empty
  rw [Array.getElem?_replicate]
  split
  · exact Group.fill_empty
  · rfl

/-- Some order of the entries of a table finds room in an empty one that is not smaller. -/
theorem WellFormed.exists_order_of_le {capacity : Nat} (wellFormed : t.WellFormed s)
    (usable : Capacity.Usable capacity) (le : t.capacity ≤ capacity) :
    ∃ order, order.Perm t.toList ∧
      ∃ t' : Table K V slots, placeAll s order (empty capacity) = .ok (some t') := by
  have wellFormed' : (empty capacity : Table K V slots).WellFormed s :=
    wellFormed_empty_of_usable s usable
  have le' : t.capacity ≤ (empty capacity : Table K V slots).capacity := by
    simpa [Table.capacity, empty] using le
  -- An entry goes to the candidate that reduces to its group.
  let assigned : t.Place → Nat := fun p =>
    if (p.1 : Nat) = (t.candidates (s.hash (t.entryOf p).1)).first then
      ((empty capacity : Table K V slots).candidates (s.hash (t.entryOf p).1)).first
    else ((empty capacity : Table K V slots).candidates (s.hash (t.entryOf p).1)).second
  have reduces : ∀ p, assigned p % t.capacity = p.1 := by
    intro p
    by_cases inFirst : (p.1 : Nat) = (t.candidates (s.hash (t.entryOf p).1)).first
    · simp only [assigned, if_pos inFirst]
      rw [wellFormed.first_mod wellFormed' le', inFirst]
    · have inSecond := (wellFormed.placed p.1 p.1.isLt _ (t.entryOf_mem p)).resolve_left inFirst
      simp only [assigned, if_neg inFirst]
      rw [wellFormed.second_mod wellFormed' le', inSecond]
  have fits : ∀ i, load Finset.univ assigned i ≤
      slots - (empty capacity : Table K V slots).fillAt i := by
    intro i
    rw [fillAt_empty, Nat.sub_zero]
    refine (load_le_of_injOn id ?_ fun _ _ _ _ same => same).trans
      (wellFormed.load_place_le (i % t.capacity))
    rintro p - rfl
    exact ⟨Finset.mem_univ _, (reduces p).symm⟩
  obtain ⟨order, order_eq, t', placed⟩ := wellFormed'.exists_order
    (fun p => Group.key_ne_vacant_of_mem_toList (t.entryOf_mem p))
    (fun p _ => (em _).imp (fun inFirst => if_pos inFirst) fun notInFirst => if_neg notInFirst) fits
  refine ⟨order.map t.entryOf, ?_, t', placed⟩
  rw [← Multiset.coe_eq_coe, ← map_entryOf, ← order_eq, Multiset.map_coe]

/-! ### Placing in the order in which entries lie -/

/-- Growth succeeds exactly if some greater power of two has room for the entries as they lie, in
groups that fit one allocation. -/
theorem WellFormed.grow_eq_ok_iff (wellFormed : t.WellFormed s) :
    (t.grow s).result = .ok () ↔
      ∃ larger, larger.isPowerOfTwo ∧ t.capacity < larger ∧ larger < Word.limit ∧
        s.layout.Fits slots larger ∧
          ∃ t' : Table K V slots, placeAll s t.toList (empty larger) = .ok (some t') := by
  have growth := wellFormed.growth_grown
  have mem_iff {larger : Nat} : larger ∈ Capacity.doublings t.capacity ↔
      larger.isPowerOfTwo ∧ t.capacity < larger ∧ larger < Word.limit :=
    Capacity.mem_doublings_iff wellFormed.isPowerOfTwo
  have result_eq : (t.grow s).result = (t.grown s).map fun _ => () := by
    unfold Table.grow
    cases t.grown s <;> rfl
  rw [result_eq]
  generalize t.grown s = result at growth
  constructor
  · intro grew
    cases growth with
    | reached before after larger split _ fits placed =>
      obtain ⟨powerOfTwo, greater, below⟩ := mem_iff.mp (split ▸ List.mem_append_cons_self)
      exact ⟨larger, powerOfTwo, greater, below, fits, _, placed⟩
    | unallocatable => cases grew
    | exhausted => cases grew
  · rintro ⟨larger, powerOfTwo, greater, below, fits, t', placed⟩
    have mem : larger ∈ Capacity.doublings t.capacity := mem_iff.mpr ⟨powerOfTwo, greater, below⟩
    have hasRoom : ¬NoRoom (V := V) s slots t.toList larger := by
      rintro ⟨-, none_eq⟩
      rw [placed] at none_eq
      cases none_eq
    cases growth with
    | reached => rfl
    | unallocatable before after smaller split noRoom tooLarge =>
      -- A capacity that could be allocated comes before the one that cannot.
      have early := Capacity.mem_before_of_lt
        (Nat.pos_of_isPowerOfTwo wellFormed.isPowerOfTwo) split mem (fits.lt_of_not_fits tooLarge)
      exact absurd (noRoom larger early) hasRoom
    | exhausted noRoom => exact absurd (noRoom larger mem) hasRoom

/-- How many of some entries have a group among their candidates under an index mask. -/
def contenders (s : Scheme K) (entries : List (K × V)) (mask : UInt64) (i : Nat) : Nat :=
  entries.countP fun entry => i = (Candidates.ofHash mask (s.hash entry.1)).first ∨
    i = (Candidates.ofHash mask (s.hash entry.1)).second

/-- Every order of some entries finds room if no group has more contenders than room. -/
theorem WellFormed.exists_placeAll_of_contenders_le {entries : List (K × V)}
    (wellFormed : t.WellFormed s) (live : ∀ entry ∈ entries, entry.1 ≠ Key.vacant)
    (few : ∀ i, t.fillAt i + contenders s entries t.mask i ≤ slots) :
    ∃ t', placeAll s entries t = .ok (some t') := by
  induction entries generalizing t with
  | nil => exact ⟨t, rfl⟩
  | cons entry rest ih =>
    have count (i : Nat) : contenders s (entry :: rest) t.mask i = contenders s rest t.mask i +
        if i = (t.candidates (s.hash entry.1)).first ∨
          i = (t.candidates (s.hash entry.1)).second then 1 else 0 := by
      simp only [contenders, List.countP_cons, decide_eq_true_eq]
      rfl
    have notBlocked : ¬t.Blocked (s.hash entry.1) := by
      rintro ⟨full, -⟩
      have room := few (t.candidates (s.hash entry.1)).first
      rw [count, if_pos (Or.inl rfl), full] at room
      omega
    obtain ⟨more, gains⟩ := wellFormed.exists_gains (live entry List.mem_cons_self) notBlocked
    rw [gains.placeAll_cons]
    refine ih gains.wellFormed (fun later mem => live later (List.mem_cons_of_mem entry mem))
      fun i => ?_
    have room := few i
    rw [count] at room
    rw [gains.fillAt_eq, gains.mask_eq]
    by_cases here : i = t.chosen (s.hash entry.1)
    · have candidate := t.chosen_eq_or (s.hash entry.1)
      rw [← here] at candidate
      rw [if_pos candidate] at room
      rw [if_pos here]
      omega
    · rw [if_neg here]
      omega

/-! ### A table that never grows -/

/-- With one slot a group, an entry can take the place that one of two others needs: the others have
the same hash, and its first candidate is their second. -/
theorem placeAll_eq_none_of_taken {capacity : Nat} {entry entry' entry'' : K × V}
    (usable : Capacity.Usable capacity)
    (live : entry.1 ≠ Key.vacant) (live' : entry'.1 ≠ Key.vacant)
    (same : s.hash entry''.1 = s.hash entry'.1)
    (taken : ((empty capacity : Table K V 1).candidates (s.hash entry.1)).first =
      ((empty capacity : Table K V 1).candidates (s.hash entry'.1)).second)
    (apart : ((empty capacity : Table K V 1).candidates (s.hash entry'.1)).first ≠
      ((empty capacity : Table K V 1).candidates (s.hash entry'.1)).second) :
    placeAll s [entry, entry', entry''] (empty capacity : Table K V 1) = .ok none := by
  have wellFormed : (empty capacity : Table K V 1).WellFormed s :=
    wellFormed_empty_of_usable s usable
  obtain ⟨one, gains⟩ := wellFormed.exists_gains live (by simp [Blocked])
  have chosen_eq : (empty capacity : Table K V 1).chosen (s.hash entry.1) =
      ((empty capacity : Table K V 1).candidates (s.hash entry'.1)).second := by
    rw [← taken, chosen, Candidates.lessFull_of_le (by simp)]
  have one_second : one.fillAt (one.candidates (s.hash entry'.1)).second = 1 := by
    rw [gains.candidates_eq, gains.fillAt_eq, if_pos chosen_eq.symm, fillAt_empty]
  have one_first : one.fillAt (one.candidates (s.hash entry'.1)).first = 0 := by
    rw [gains.candidates_eq, gains.fillAt_eq, chosen_eq, if_neg apart, fillAt_empty]
  obtain ⟨two, gains'⟩ := gains.wellFormed.exists_gains live' fun blocked => by
    have full := blocked.1
    omega
  have chosen_eq' : one.chosen (s.hash entry'.1) = (one.candidates (s.hash entry'.1)).first := by
    exact Candidates.lessFull_of_le (by omega)
  have blocked : two.Blocked (s.hash entry''.1) := by
    rw [same, Blocked, gains'.candidates_eq, gains'.fillAt_eq, gains'.fillAt_eq, chosen_eq',
      if_pos rfl, one_first, gains.candidates_eq, if_neg apart.symm, ← gains.candidates_eq]
    exact ⟨rfl, one_second⟩
  rw [gains.placeAll_cons, gains'.placeAll_cons,
    gains'.wellFormed.placeAll_cons_of_blocked blocked]

/-- Keys of 64 bits that are hashed by doubling them. -/
def doublingScheme : Scheme (FixedInt (.unsigned 64)) :=
  .ofMixer (Hash.affine 2 0) ⟨8, 8, 8, 8⟩

/-- Three entries. The keys of the first two differ in their highest bit only, which is lost when
they are doubled. -/
def spoilingEntries : List (FixedInt (.unsigned 64) × UInt64) :=
  [(⟨4294967298, by decide, by decide⟩, 1), (⟨9223372041149743106, by decide, by decide⟩, 2),
    (⟨1, by decide, by decide⟩, 3)]

/-- What storing the three entries makes of a new table with one slot a group. -/
def spoiled : Table (FixedInt (.unsigned 64)) UInt64 1 :=
  (Operation.run doublingScheme Accumulation.listing
    (spoilingEntries.map fun entry => .insert entry.1 entry.2) ⟨empty 8, 0⟩).2.table

theorem toList_spoiled : spoiled.toList = spoilingEntries.reverse := by
  decide +kernel

theorem new_doublingScheme :
    (new doublingScheme : Except Fault (Table (FixedInt (.unsigned 64)) UInt64 1)) =
      .ok (empty 8) :=
  withGroups_eq_of_le (Nat.le_refl _) (by decide)

theorem reachable_spoiled : Reachable doublingScheme spoiled :=
  Reachable.run Accumulation.listing (Reachable.made new_doublingScheme)
    (by simp [spoilingEntries, Operation.Legal])

/-- The entry that was stored last lies first. It goes to the group that the other two have as
their second candidate, whatever the capacity. -/
theorem placeAll_spoiled {capacity : Nat} (usable : Capacity.Usable capacity) :
    placeAll doublingScheme spoiled.toList
      (empty capacity : Table (FixedInt (.unsigned 64)) UInt64 1) = .ok none := by
  have wellFormed : (empty capacity : Table (FixedInt (.unsigned 64)) UInt64 1).WellFormed
      doublingScheme := wellFormed_empty_of_usable doublingScheme usable
  have capacity_eq : (empty capacity : Table (FixedInt (.unsigned 64)) UInt64 1).capacity =
      capacity := by simp [Table.capacity, empty]
  have eight : (8 : Nat) ∣ capacity :=
    Candidates.dvd_of_isPowerOfTwo ⟨3, rfl⟩ usable.isPowerOfTwo usable.minimum_le
  rw [toList_spoiled]
  refine placeAll_eq_none_of_taken usable (by decide) (by decide) (by decide) ?_ ?_
  · rw [wellFormed.candidates_eq, wellFormed.candidates_eq, capacity_eq]
    rfl
  · rw [wellFormed.candidates_eq, capacity_eq]
    show 8589934596 % capacity ≠ 2 % capacity
    intro meet
    -- The two indexes differ already in a table of eight groups.
    have meet' := congrArg (· % 8) meet
    simp only [Nat.mod_mod_of_dvd _ eight] at meet'
    omega

/-- The three keys are distinct, no hash is shared by more than two of them, and all three entries
are stored. No greater capacity has room for the entries as they lie, and growth fails. -/
theorem spoiled_never_grows :
    (new doublingScheme : Except Fault (Table (FixedInt (.unsigned 64)) UInt64 1)) =
        .ok (empty 8) ∧
      (spoilingEntries.map Prod.fst).Nodup ∧
      (∀ entry ∈ spoilingEntries, entry.1 ≠ Key.vacant) ∧
      spoiled.toList.Perm spoilingEntries ∧
      (∀ hash, (spoiled.toList.map fun entry => doublingScheme.hash entry.1).count hash ≤ 2 * 1) ∧
      (∀ larger : Nat, larger.isPowerOfTwo → spoiled.capacity < larger → larger < Word.limit →
        placeAll doublingScheme spoiled.toList
          (empty larger : Table (FixedInt (.unsigned 64)) UInt64 1) = .ok none) ∧
      (spoiled.grow doublingScheme).result ≠ .ok () := by
  have wellFormed := reachable_spoiled.wellFormed
  have noRoom : ∀ larger : Nat, larger.isPowerOfTwo → spoiled.capacity < larger →
      larger < Word.limit → placeAll doublingScheme spoiled.toList
        (empty larger : Table (FixedInt (.unsigned 64)) UInt64 1) = .ok none :=
    fun larger powerOfTwo greater below => placeAll_spoiled
      ⟨powerOfTwo, wellFormed.minimum_le.trans (Nat.le_of_lt greater), below⟩
  refine ⟨new_doublingScheme, by decide, by decide, ?_, ?_, noRoom, ?_⟩
  · rw [toList_spoiled]
    exact List.reverse_perm _
  · intro hash
    have hashes : (spoiled.toList.map fun entry => doublingScheme.hash entry.1) =
        [2, 8589934596, 8589934596] := by decide +kernel
    rw [hashes]
    by_cases low : hash = 2
    · subst low
      decide
    · rw [List.count_cons_of_ne (Ne.symm low)]
      exact List.count_le_length
  · intro grew
    obtain ⟨larger, powerOfTwo, greater, below, -, t', placed⟩ :=
      wellFormed.grow_eq_ok_iff.mp grew
    rw [noRoom larger powerOfTwo greater below] at placed
    cases placed

/-! ### Reachable tables -/

/-- At every greater power of two there is room for the entries of a reachable table in some order.
Growth takes them in the order in which they lie: it succeeds exactly if that order finds room at
some greater power of two that can be allocated, and fails otherwise without touching the table. It
does find room where no group has more contenders than slots. -/
theorem Reachable.growth_finds_room (reachable : Reachable s t) :
    (∀ larger : Nat, larger.isPowerOfTwo → t.capacity < larger → larger < Word.limit →
        ∃ order, order.Perm t.toList ∧
          ∃ t' : Table K V slots, placeAll s order (empty larger) = .ok (some t')) ∧
      ((t.grow s).result = .ok () ↔
        ∃ larger : Nat, larger.isPowerOfTwo ∧ t.capacity < larger ∧ larger < Word.limit ∧
          s.layout.Fits slots larger ∧
            ∃ t' : Table K V slots, placeAll s t.toList (empty larger) = .ok (some t')) ∧
      ((t.grow s).result ≠ .ok () →
        ((t.grow s).result = .error .capacityOverflow ∨
          (t.grow s).result = .error .layoutOverflow) ∧ (t.grow s).table = t) ∧
      ∀ larger : Nat, larger.isPowerOfTwo → t.capacity < larger → larger < Word.limit →
        (∀ i, contenders s t.toList (UInt64.ofNat (larger - 1)) i ≤ slots) →
          ∃ t' : Table K V slots, placeAll s t.toList (empty larger) = .ok (some t') := by
  have wellFormed := reachable.wellFormed
  have usable {larger : Nat} (powerOfTwo : larger.isPowerOfTwo) (greater : t.capacity < larger)
      (below : larger < Word.limit) : Capacity.Usable larger :=
    ⟨powerOfTwo, wellFormed.minimum_le.trans (Nat.le_of_lt greater), below⟩
  refine ⟨?_, wellFormed.grow_eq_ok_iff, ?_, ?_⟩
  · intro larger powerOfTwo greater below
    exact wellFormed.exists_order_of_le (usable powerOfTwo greater below) (Nat.le_of_lt greater)
  · intro failed
    unfold Table.grow at failed ⊢
    cases grew : t.grown s with
    | ok t' =>
      rw [grew] at failed
      exact absurd rfl failed
    | error fault =>
      refine ⟨?_, rfl⟩
      exact (wellFormed.grown_fault grew).imp (fun cause => congrArg _ cause) fun cause =>
        congrArg _ cause
  · intro larger powerOfTwo greater below few
    have wellFormed' : (empty larger : Table K V slots).WellFormed s :=
      wellFormed_empty_of_usable s (usable powerOfTwo greater below)
    refine wellFormed'.exists_placeAll_of_contenders_le
      (fun entry mem => key_ne_vacant_of_mem_toList mem) fun i => ?_
    rw [fillAt_empty, Nat.zero_add]
    exact few i

/-- In another order even the entries above find room in sixteen groups. -/
theorem growth_finds_room_spoiled :
    Reachable doublingScheme spoiled ∧ ∃ order, order.Perm spoiled.toList ∧
      ∃ t' : Table (FixedInt (.unsigned 64)) UInt64 1,
        placeAll doublingScheme order (empty 16) = .ok (some t') := by
  have capacity_eq : spoiled.capacity = 8 := by decide +kernel
  exact ⟨reachable_spoiled,
    reachable_spoiled.growth_finds_room.1 16 ⟨4, rfl⟩ (by omega) (by decide)⟩

end TwoChoice.Table
