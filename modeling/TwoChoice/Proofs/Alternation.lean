import TwoChoice.Proofs.Shadowing

/-!
# Entries that go to two groups in turn

Entries whose keys have the same two candidates go to one and the other in turn. The first of them
goes to the first candidate, since both are equally full, and the next to the second, which is then
the less full. So they lie in the order of a lookup, just as they were stored, and a lookup makes
one comparison more for every entry that was stored before. Both groups are full after twice as many
entries as one has slots. The next insertion has to grow first.

## Main Definitions

* `Table.Filled` — two candidates have the entries of a list, in the order of a lookup
* `Table.GrowsFirst` — an insertion that grows before it stores its entry
* `Table.StoredInTurn` — what storing entries with the same candidates comes to

## Main Statements

* `Table.Filled.nextFree_eq`, `Table.Filled.blocked_iff` — where the next entry goes
* `Table.Filled.of_insert` — one more entry goes to the next position
* `Table.Filled.of_insertAll` — so do several entries, one after another
* `Table.Reachable.insertAll_inTurn` — entries with the same candidates fill them in turn
-/

namespace TwoChoice

universe u v

open Counted (CountedAs)

/-! ### Positions -/

/-- If two groups differ, so do the positions of all comparisons with them. -/
theorem comparison_injective {at₁ at₂ : Nat} (apart : at₁ ≠ at₂) :
    Function.Injective (comparison at₁ at₂) := by
  intro n m same
  obtain ⟨group_eq, half_eq⟩ := Position.mk.inj same
  have parity : n % 2 = 0 ↔ m % 2 = 0 := by
    by_cases even : n % 2 = 0 <;> by_cases even' : m % 2 = 0 <;> simp_all
  omega

/-- As many comparisons have been made as there are positions up to the last one. -/
theorem Candidates.costAt_comparison {c : Candidates} (apart : c.first ≠ c.second) (n : Nat) :
    c.costAt (comparison c.first c.second n) = n + 1 := by
  obtain ⟨m, cost_eq, same⟩ : ∃ m, c.costAt (comparison c.first c.second n) = m + 1 ∧
      comparison c.first c.second m = comparison c.first c.second n := by
    apply Candidates.comparison_costAt
    unfold comparison
    split
    · exact Or.inl rfl
    · exact Or.inr rfl
  rw [cost_eq, comparison_injective apart same]

variable {K : Type u} {V : Type v} {slots : Nat} [Key K] [DecidableEq K]

namespace Table

variable {s : Scheme K} {t t' : Table K V slots} {c : Candidates} {hash : UInt64} {key : K}
variable {value : V} {entries stored : List (K × V)} {change : Edit K V slots} {p : Position}

/-- A position has an entry exactly if it comes before the fill of its group. -/
theorem WellFormed.isSome_entryAt?_iff (wellFormed : t.WellFormed s) :
    (t.entryAt? p).isSome ↔ p.slot < t.fillAt p.group := by
  constructor
  · intro some
    obtain ⟨entry, stored⟩ := Option.isSome_iff_exists.mp some
    exact wellFormed.slot_lt_fillAt stored
  · intro before
    have inRange : p.group < t.groups.size := by
      by_contra beyond
      rw [fillAt, Array.getElem?_eq_none (Nat.le_of_not_lt beyond)] at before
      exact Nat.not_lt_zero _ before
    exact wellFormed.isSome_entryAt? inRange before

/-- Storing an entry changes what lies at the position that was free, and nothing else. -/
theorem Stores.entryAt?_eq (stores : t.Stores hash key value change) (wellFormed : t.WellFormed s)
    (live : key ≠ Key.vacant) (n : Nat) (p : Position) :
    (t.edit change n).entryAt? p =
      if p = t.nextFree hash then some (key, value) else t.entryAt? p := by
  by_cases free : p = t.nextFree hash
  · rw [if_pos free, free]
    exact stores.entryAt?_nextFree wellFormed live n
  · rw [if_neg free]
    cases before : t.entryAt? p with
    | some entry => exact stores.entryAt?_edit_of_stored wellFormed live before
    | none =>
      cases after : (t.edit change n).entryAt? p with
      | none => rfl
      | some entry =>
        rcases stores.entryAt?_edit_cases wellFormed live after with old | ⟨atFree, -⟩
        · cases before.symm.trans old
        · exact absurd atFree free

/-! ### Two groups -/

/-- In the order of a lookup, the slots of two candidates have the entries of a list and are vacant
from there on. -/
structure Filled (s : Scheme K) (c : Candidates) (entries : List (K × V)) (t : Table K V slots) :
    Prop where
  /-- The table is well-formed. -/
  wellFormed : t.WellFormed s
  /-- Its entries in these groups are those of the list. -/
  entryAt?_eq : ∀ n, t.entryAt? (comparison c.first c.second n) = entries[n]?

/-- Groups without entries have those of the empty list. -/
theorem WellFormed.filled_nil (wellFormed : t.WellFormed s) (first : t.fillAt c.first = 0)
    (second : t.fillAt c.second = 0) : Filled s c [] t := by
  refine ⟨wellFormed, fun n => ?_⟩
  have vacant : t.fillAt (comparison c.first c.second n).group = 0 := by
    unfold comparison
    split
    · exact first
    · exact second
  rw [List.getElem?_nil, ← Option.not_isSome_iff_eq_none, wellFormed.isSome_entryAt?_iff, vacant]
  exact Nat.not_lt_zero _

namespace Filled

/-- Positions up to the number of entries are those with an entry. -/
theorem slot_lt_fillAt_iff (filled : Filled s c entries t) (n : Nat) :
    (comparison c.first c.second n).slot < t.fillAt (comparison c.first c.second n).group ↔
      n < entries.length := by
  rw [← filled.wellFormed.isSome_entryAt?_iff, filled.entryAt?_eq, isSome_getElem?]

/-- The first candidate has every other entry, beginning with the first. -/
theorem fillAt_first (filled : Filled s c entries t) :
    t.fillAt c.first = (entries.length + 1) / 2 := by
  have before (slot : Nat) : slot < t.fillAt c.first ↔ 2 * slot < entries.length := by
    have iff := filled.slot_lt_fillAt_iff (2 * slot)
    rwa [comparison_two_mul] at iff
  have atFill := before (t.fillAt c.first)
  have atHalf := before ((entries.length + 1) / 2)
  omega

/-- The second candidate has the others. -/
theorem fillAt_second (filled : Filled s c entries t) :
    t.fillAt c.second = entries.length / 2 := by
  have before (slot : Nat) : slot < t.fillAt c.second ↔ 2 * slot + 1 < entries.length := by
    have iff := filled.slot_lt_fillAt_iff (2 * slot + 1)
    rwa [comparison_two_mul_add_one] at iff
  have atFill := before (t.fillAt c.second)
  have atHalf := before (entries.length / 2)
  omega

/-- The next entry goes to the next position: to the first candidate if both are equally full, and
otherwise to the second, which has one entry less. -/
theorem nextFree_eq (filled : Filled s c entries t) (named : t.candidates hash = c) :
    t.nextFree hash = comparison c.first c.second entries.length := by
  have first := filled.fillAt_first
  have second := filled.fillAt_second
  rw [nextFree, chosen, named, comparison]
  by_cases even : entries.length % 2 = 0
  · rw [Candidates.lessFull_of_le (by omega), if_pos even, first, Position.mk.injEq]
    omega
  · rw [Candidates.lessFull_of_lt (by omega), if_neg even, second]

/-- There is no room once there are twice as many entries as a group has slots. -/
theorem blocked_iff (filled : Filled s c entries t) (named : t.candidates hash = c) :
    t.Blocked hash ↔ entries.length = 2 * slots := by
  rw [Blocked, named, filled.fillAt_first, filled.fillAt_second]
  omega

/-! ### Insertions -/

/-- An insertion with room keeps the capacity and appends its entry to the list. -/
theorem of_insert (filled : Filled s c entries t) (apart : c.first ≠ c.second)
    (live : key ≠ Key.vacant) (named : t.candidates (s.hash key) = c)
    (room : entries.length < 2 * slots) (value : V) :
    (t.insert s key value).result = .ok () ∧
      (t.insert s key value).table.capacity = t.capacity ∧
      (t.insert s key value).table.mask = t.mask ∧
      Filled s c (entries ++ [(key, value)]) (t.insert s key value).table := by
  have wellFormed := filled.wellFormed
  have open' : ¬t.Blocked (s.hash key) := mt (filled.blocked_iff named).mp room.ne
  obtain ⟨change, decided, stores⟩ := wellFormed.exists_stores open' key value
  rw [insert, if_neg live, insertLoop_of_room decided]
  refine ⟨rfl, capacity_edit .., mask_edit .., stores.wellFormed wellFormed live, fun n => ?_⟩
  rw [stores.entryAt?_eq wellFormed live, filled.nextFree_eq named, filled.entryAt?_eq]
  rcases Nat.lt_trichotomy n entries.length with before | rfl | after
  · rw [if_neg ((comparison_injective apart).ne before.ne),
      List.getElem?_append_left before]
  · rw [if_pos rfl, List.getElem?_concat_length]
  · have beyond : (entries ++ [(key, value)]).length ≤ n := by
      rwa [List.length_append, List.length_singleton]
    rw [if_neg ((comparison_injective apart).ne after.ne'),
      List.getElem?_eq_none after.le, List.getElem?_eq_none beyond]

end Filled

/-- An insertion that keeps the capacity goes unnoticed among several. -/
theorem insertAll_cons_of_kept {index : Nat} (inserted : (t.insert s key value).result = .ok ())
    (kept : (t.insert s key value).table.capacity = t.capacity) :
    insertAll s index ((key, value) :: entries) t =
      insertAll s (index + 1) entries (t.insert s key value).table := by
  rw [insertAll]
  rcases stored : t.insert s key value with ⟨result, larger⟩
  rw [stored] at inserted kept
  dsimp only at inserted kept
  subst inserted
  dsimp only
  rcases later : insertAll s (index + 1) entries larger with ⟨result', t''⟩
  cases result' with
  | error fault => rfl
  | ok growths =>
    dsimp only
    rw [if_pos kept]

/-- Insertions with room keep the capacity, one after another, and append their entries to the list.
-/
theorem Filled.of_insertAll (filled : Filled s c stored t) (apart : c.first ≠ c.second)
    (colliding : ∀ entry ∈ entries, entry.1 ≠ Key.vacant ∧ t.candidates (s.hash entry.1) = c)
    (room : stored.length + entries.length ≤ 2 * slots) (index : Nat) :
    (insertAll s index entries t).result = .ok [] ∧
      (insertAll s index entries t).table.capacity = t.capacity ∧
      (insertAll s index entries t).table.mask = t.mask ∧
      Filled s c (stored ++ entries) (insertAll s index entries t).table := by
  -- What has been stored grows with every insertion, so the induction is for all such lists.
  induction entries generalizing t stored index with
  | nil => exact ⟨rfl, rfl, rfl, by rwa [List.append_nil]⟩
  | cons entry rest ih =>
    obtain ⟨key, value⟩ := entry
    rw [List.length_cons] at room
    obtain ⟨live, named⟩ := colliding _ List.mem_cons_self
    obtain ⟨inserted, kept, mask_eq, filled'⟩ :=
      filled.of_insert apart live named (by omega) value
    have colliding' : ∀ entry ∈ rest, entry.1 ≠ Key.vacant ∧
        (t.insert s key value).table.candidates (s.hash entry.1) = c := by
      intro entry mem
      rw [candidates, mask_eq]
      exact colliding entry (List.mem_cons_of_mem _ mem)
    have room' : (stored ++ [(key, value)]).length + rest.length ≤ 2 * slots := by
      rw [List.length_append, List.length_singleton]
      omega
    obtain ⟨returned, kept', mask_eq', filled''⟩ := ih filled' colliding' room' (index + 1)
    rw [List.append_assoc, List.singleton_append] at filled''
    rw [insertAll_cons_of_kept inserted kept]
    exact ⟨returned, kept'.trans kept, mask_eq'.trans mask_eq, filled''⟩

/-! ### Lookups -/

/-- A key of the list is found at its position, if no other entry of the list has the key. -/
theorem Filled.looksUp_of_getElem? (filled : Filled s c entries t) (apart : c.first ≠ c.second)
    (distinct : (entries.map Prod.fst).Nodup) (named : t.candidates (s.hash key) = c)
    (live : key ≠ Key.vacant) {n : Nat} (listed : entries[n]? = some (key, value)) :
    LooksUp s t key (s.hash key) (n + 1) (some (comparison c.first c.second n)) := by
  have wellFormed := filled.wellFormed
  have told : t.entryAt? (comparison c.first c.second n) = some (key, value) := by
    rw [filled.entryAt?_eq, listed]
  -- Any other entry of the key would lie in the same groups, and so be another one of the list.
  have only : ∀ q value', t.entryAt? q = some (key, value') →
      q = comparison c.first c.second n := by
    intro q value' told'
    have named' := wellFormed.candidate_of_entryAt? told'
    rw [named] at named'
    obtain ⟨m, -, rfl⟩ := Candidates.comparison_costAt named'
    rw [filled.entryAt?_eq] at told'
    have key_eq : (entries.map Prod.fst)[n]? = some key := by rw [List.getElem?_map, listed]; rfl
    have key_eq' : (entries.map Prod.fst)[m]? = some key := by rw [List.getElem?_map, told']; rfl
    obtain ⟨inRange, -⟩ := List.getElem?_eq_some_iff.mp key_eq'
    rw [(List.getElem?_inj inRange distinct).mp (key_eq'.trans key_eq.symm)]
  have found := wellFormed.firstMatch?_eq_of_least live (wellFormed.candidate_of_entryAt? told)
    told fun q value' told' => by rw [only q value' told']
  rw [named, Candidates.costAt_comparison apart] at found
  exact wellFormed.looksUp_of_match live found

/-- A key that is not stored is missed once it has been compared at every slot with an entry. -/
theorem Filled.looksUp_of_notStored (filled : Filled s c entries t)
    (named : t.candidates hash = c) (live : key ≠ Key.vacant)
    (notStored : ∀ value, (key, value) ∉ t.toList) :
    LooksUp s t key hash (2 * ((entries.length + 1) / 2)) none := by
  have wellFormed := filled.wellFormed
  have missed : t.firstMatch? key hash = none := by
    rw [wellFormed.firstMatch?_eq_none_iff live]
    rintro ⟨i, inRange, value, -, mem⟩
    exact notStored value (mem_toList_of_mem_group inRange mem)
  have lookup := wellFormed.looksUp_of_no_match live missed
  rw [named, filled.fillAt_first, filled.fillAt_second, Nat.max_eq_left (by omega)] at lookup
  exact lookup

/-! ### Full groups -/

/-- An insertion finds both candidates full and grows before it stores its entry. -/
structure GrowsFirst (s : Scheme K) (t : Table K V slots) (key : K) (value : V) : Prop where
  /-- Both candidates are full. -/
  blocked : t.Blocked (s.hash key)
  /-- If growth returns, the insertion is one into the grown table. -/
  grown : (t.grow s).result = .ok () →
    t.insert s key value = (t.grow s).table.insert s key value
  /-- If growth fails, so does the insertion, and leaves the table. -/
  stuck : ∀ fault, (t.grow s).result = .error fault → t.insert s key value = ⟨.error fault, t⟩
  /-- An insertion that returns has doubled the capacity at least once. -/
  doubled : (t.insert s key value).result = .ok () →
    ∃ j, 1 ≤ j ∧ (t.insert s key value).table.capacity = t.capacity * 2 ^ j

theorem WellFormed.growsFirst (wellFormed : t.WellFormed s) (live : key ≠ Key.vacant)
    (blocked : t.Blocked (s.hash key)) (value : V) : GrowsFirst s t key value := by
  have noRoom := (wellFormed.placement_eq_none_iff _ key value).mpr blocked
  refine ⟨blocked, ?_, ?_, ?_⟩
  · intro returned
    cases grew : t.grown s with
    | error fault =>
      rw [Table.grow, grew] at returned
      cases returned
    | ok larger =>
      rw [insert, if_neg live, insertLoop_of_grown noRoom grew, Table.grow, grew, insert,
        if_neg live]
  · intro fault failed
    cases grew : t.grown s with
    | error fault' =>
      rw [Table.grow, grew] at failed
      cases failed
      rw [insert, if_neg live, insertLoop_of_stuck noRoom grew]
    | ok larger =>
      rw [Table.grow, grew] at failed
      cases failed
  · intro returned
    rw [insert, if_neg live] at returned ⊢
    obtain ⟨j, capacity_eq, positive⟩ := wellFormed.exists_doublings_insertLoop key value
    exact ⟨j, positive blocked returned, capacity_eq⟩

/-! ### Entries with the same candidates -/

/-- A table in which the entries of a list have been stored, all of them with the same two
candidates, which were empty before. -/
structure StoredInTurn (s : Scheme K) (c : Candidates) (entries : List (K × V))
    (t t' : Table K V slots) : Prop where
  /-- The capacity is the same. -/
  capacity_eq : t'.capacity = t.capacity
  /-- The entries lie in the two groups in turn, two of them at each slot, and behind them the
  groups are vacant. -/
  entryAt?_eq : ∀ n, t'.entryAt? (comparison c.first c.second n) = entries[n]?
  /-- A lookup that fails if a key is not stored makes one comparison for each entry up to that of
  the key. -/
  find : ∀ n key value, entries[n]? = some (key, value) →
    CountedAs (n + 1) (.ok value) (t'.find s key)
  /-- So does every other kind of lookup. -/
  found : ∀ n key value, entries[n]? = some (key, value) →
    LooksUp s t' key (s.hash key) (n + 1) (some (comparison c.first c.second n))
  /-- A lookup of a key that is not stored makes two comparisons at each slot with an entry. -/
  missed : ∀ key hash, key ≠ Key.vacant → t.candidates hash = c →
    (∀ value, (key, value) ∉ t'.toList) →
      LooksUp s t' key hash (2 * ((entries.length + 1) / 2)) none
  /-- The mark of vacancy is no key, and is not looked for. -/
  vacant : ∀ hash, LooksUp s t' Key.vacant hash 0 none
  /-- Once the entries fill both groups, the next insertion of such a key has to grow first. -/
  growsFirst : entries.length = 2 * slots → ∀ key value, key ≠ Key.vacant →
    t.candidates (s.hash key) = c → GrowsFirst s t' key value

/-- Entries with distinct keys that have the same two candidates are stored in turn, if the groups
are empty to begin with and have room for all of them, and none of the insertions grows. -/
theorem Reachable.insertAll_inTurn (reachable : Reachable s t) (apart : c.first ≠ c.second)
    (first : t.fillAt c.first = 0) (second : t.fillAt c.second = 0)
    (colliding : ∀ entry ∈ entries, entry.1 ≠ Key.vacant ∧ t.candidates (s.hash entry.1) = c)
    (distinct : (entries.map Prod.fst).Nodup) (room : entries.length ≤ 2 * slots) (index : Nat) :
    (insertAll s index entries t).result = .ok [] ∧
      StoredInTurn s c entries t (insertAll s index entries t).table := by
  have empty := reachable.wellFormed.filled_nil first second
  have room' : ([] : List (K × V)).length + entries.length ≤ 2 * slots := by
    rwa [List.length_nil, Nat.zero_add]
  obtain ⟨returned, capacity_eq, mask_eq, filled⟩ :=
    empty.of_insertAll apart colliding room' index
  rw [List.nil_append] at filled
  generalize (insertAll s index entries t).table = t' at capacity_eq mask_eq filled ⊢
  have named : ∀ hash, t.candidates hash = c → t'.candidates hash = c := by
    intro hash named
    rw [candidates, mask_eq]
    exact named
  have found : ∀ n key value, entries[n]? = some (key, value) →
      LooksUp s t' key (s.hash key) (n + 1) (some (comparison c.first c.second n)) := by
    intro n key value listed
    obtain ⟨live, named'⟩ := colliding _ (List.mem_of_getElem? listed)
    exact filled.looksUp_of_getElem? apart distinct (named _ named') live listed
  refine ⟨returned, capacity_eq, filled.entryAt?_eq, ?_, found, ?_, ?_, ?_⟩
  · intro n key value listed
    have find := (found n key value listed).find rfl
    rwa [valueOf?, Option.bind_some, filled.entryAt?_eq, listed] at find
  · intro key hash live named' notStored
    exact filled.looksUp_of_notStored (named _ named') live notStored
  · exact filled.wellFormed.looksUp_vacant
  · intro full key value live named'
    have blocked := (filled.blocked_iff (named _ named')).mpr full
    exact filled.wellFormed.growsFirst live blocked value

/-- The scheme that sends even keys to groups two and five, and odd keys to groups three and two. -/
def striped : Scheme ZeroVacant where
  hash key := if key.val % 2 = 0 then 0x500000002 else 0x200000003
  layout := ⟨4, 4, 8, 8⟩

/-- A table with an odd key in group three, from which an even key has been taken out. -/
def oddTable : Table ZeroVacant UInt64 2 :=
  (Operation.run striped Accumulation.listing [.insert ⟨1⟩ 10, .insert ⟨2⟩ 20, .erase ⟨2⟩]
    ⟨empty 8, 0⟩).2.table

theorem reachable_oddTable : Reachable striped oddTable :=
  Reachable.run_empty Accumulation.listing (by decide) (by simp [Operation.Legal]) 0

/-- Entries with even keys, as many as groups two and five have slots. -/
def evenEntries : List (ZeroVacant × UInt64) :=
  [(⟨2⟩, 20), (⟨4⟩, 40), (⟨6⟩, 60), (⟨8⟩, 80)]

/-- The last of these entries is found after four comparisons, a key that is not stored is missed
after as many, and storing it takes growth. -/
theorem insertAll_inTurn_evenEntries :
    Reachable striped oddTable ∧ oddTable.fillAt 2 = 0 ∧ oddTable.fillAt 5 = 0 ∧
      ∃ t', insertAll striped 0 evenEntries oddTable = ⟨.ok [], t'⟩ ∧
        t'.entryAt? ⟨5, 1⟩ = some (⟨8⟩, 80) ∧ CountedAs 4 (.ok 80) (t'.find striped ⟨8⟩) ∧
        CountedAs 4 (.ok false) (t'.contains striped ⟨10⟩) ∧ GrowsFirst striped t' ⟨10⟩ 100 := by
  have first : oddTable.fillAt 2 = 0 := by decide +kernel
  have second : oddTable.fillAt 5 = 0 := by decide +kernel
  have named : oddTable.candidates 0x500000002 = ⟨2, 5⟩ := by decide +kernel
  have colliding : ∀ entry ∈ evenEntries, entry.1 ≠ Key.vacant ∧
      oddTable.candidates (striped.hash entry.1) = ⟨2, 5⟩ := by decide +kernel
  have absent : (⟨10⟩ : ZeroVacant) ∉
      (insertAll striped 0 evenEntries oddTable).table.toList.map Prod.fst := by decide +kernel
  obtain ⟨returned, inTurn⟩ := reachable_oddTable.insertAll_inTurn (by decide) first second
    colliding (by decide) (by decide) 0
  refine ⟨reachable_oddTable, first, second, _, ?_, inTurn.entryAt?_eq 3,
    inTurn.find 3 ⟨8⟩ 80 rfl, ?_, inTurn.growsFirst rfl ⟨10⟩ 100 (by decide) named⟩
  · rw [← returned]
  · exact (inTurn.missed ⟨10⟩ 0x500000002 (by decide) named fun value mem =>
      absent (List.mem_map_of_mem mem)).contains rfl

end Table

end TwoChoice
