import TwoChoice.Proofs.Search

/-!
# Lookups in a well-formed table

A scan of a table comes down to the first match in the two candidates of the hash: its position and
the number of comparisons up to it. A match is the position of an entry with the key, and its value
can be read. There is no match exactly if no entry of the key lies in a candidate, which for the
hash of the key itself means that the key is not stored.

## Main Definitions

* `Table.entryAt?` — the entry at a position
* `Table.firstMatch?` — the first match in the candidates of a hash
* `Table.Holds` — an entry of a key lies in a candidate of a hash
* `Table.Location` — the ways in which looking for a key ends

## Main Statements

* `Table.WellFormed.locate_eq`, `Table.WellFormed.locateUnchecked_eq` — both scans, by cost and
  result
* `Table.WellFormed.entryAt?_of_match` — a match is an entry of the key in a candidate
* `Table.WellFormed.firstMatch?_eq_none_iff` — there is none exactly if no candidate holds the key
* `Table.WellFormed.holds_hash_iff` — the candidates of a key's own hash hold it if it is stored
* `Table.WellFormed.location_locate`, `Table.WellFormed.location_locateUnchecked` — looking for a
  key ends in one of the ways
-/

namespace TwoChoice.Table

universe u v w

variable {K : Type u} {V : Type v} {slots : Nat} [Key K] [DecidableEq K]
variable {s : Scheme K} {t : Table K V slots} {key : K} {value : V} {hash counter : UInt64}
variable {cost : Nat} {p : Position} {entry : K × V}

/-! ### Positions -/

/-- The entry at a position, if there is one. -/
def entryAt? (t : Table K V slots) (p : Position) : Option (K × V) :=
  t.groups[p.group]?.bind fun g => g.toList[p.slot]?

theorem entryAt?_eq_some_iff :
    t.entryAt? p = some entry ↔
      ∃ inRange : p.group < t.groups.size, t.groups[p.group].toList[p.slot]? = some entry := by
  unfold entryAt?
  rw [Option.bind_eq_some_iff]
  constructor
  · rintro ⟨g, found, told⟩
    obtain ⟨inRange, rfl⟩ := Array.getElem?_eq_some_iff.mp found
    exact ⟨inRange, told⟩
  · rintro ⟨inRange, told⟩
    exact ⟨_, Array.getElem?_eq_getElem inRange, told⟩

/-- The entry at a position is one of the table. -/
theorem mem_toList_of_entryAt? (stored : t.entryAt? p = some entry) : entry ∈ t.toList := by
  obtain ⟨inRange, told⟩ := entryAt?_eq_some_iff.mp stored
  exact mem_toList_of_mem_group inRange (List.mem_of_getElem? told)

namespace WellFormed

/-- A position with an entry comes before the fill of its group. -/
theorem slot_lt_fill (wellFormed : t.WellFormed s) {inRange : p.group < t.groups.size}
    (told : t.groups[p.group].toList[p.slot]? = some entry) :
    p.slot < t.groups[p.group].fill := by
  rw [← Group.length_toList (wellFormed.written_getElem inRange)]
  exact (List.getElem?_eq_some_iff.mp told).1

/-- The value of an entry can be read at its position. -/
theorem valueAt_eq (wellFormed : t.WellFormed s) (stored : t.entryAt? p = some entry) :
    t.valueAt p = .ok entry.2 := by
  obtain ⟨inRange, told⟩ := entryAt?_eq_some_iff.mp stored
  have before := wellFormed.slot_lt_fill told
  rw [valueAt, wellFormed.groupAt_eq inRange]
  show t.groups[p.group].read p.slot = .ok entry.2
  rw [Group.read_eq (wellFormed.written_getElem inRange) before]
  obtain ⟨inList, same⟩ := List.getElem?_eq_some_iff.mp told
  rw [same]

/-- A slot of a group with a key that is not vacant is the position of an entry of the key. -/
theorem entryAt?_of_key_eq (wellFormed : t.WellFormed s) (live : key ≠ Key.vacant)
    (inRange : p.group < t.groups.size) (inSlots : p.slot < slots)
    (same : t.groups[p.group].keys[p.slot] = key) :
    ∃ value, t.entryAt? p = some (key, value) := by
  have packed := wellFormed.packed_getElem inRange
  have written := wellFormed.written_getElem inRange
  have before : p.slot < t.groups[p.group].fill :=
    (Group.lt_fill_iff packed inSlots).mpr (same ▸ live)
  have inList : p.slot < t.groups[p.group].toList.length := by
    rwa [Group.length_toList written]
  refine ⟨t.groups[p.group].toList[p.slot].2, entryAt?_eq_some_iff.mpr ⟨inRange, ?_⟩⟩
  rw [List.getElem?_eq_getElem inList, ← same, ← Group.fst_getElem_toList written before]

end WellFormed

/-! ### The first match -/

/-- The number of comparisons up to the first match in the candidates of a hash, and its
position. -/
def firstMatch? (t : Table K V slots) (key : K) (hash : UInt64) : Option (Nat × Position) :=
  match t.candidateGroups hash with
  | .ok (first, second) =>
    sideBySide (t.candidates hash).first (t.candidates hash).second first second key
  | .error _ => none

/-- An entry of the key lies in one of the candidates of a hash. -/
def Holds (t : Table K V slots) (key : K) (hash : UInt64) : Prop :=
  ∃ (i : Nat) (inRange : i < t.groups.size) (value : V),
    (i = (t.candidates hash).first ∨ i = (t.candidates hash).second) ∧
      (key, value) ∈ t.groups[i].toList

namespace WellFormed

/-- The bounded scan makes the comparisons up to the first match. If there is none it makes two at
every offset at which one of the candidates has an entry. -/
theorem locate_eq (wellFormed : t.WellFormed s) (live : key ≠ Key.vacant)
    (hash counter : UInt64) :
    t.locate key hash counter =
      match t.firstMatch? key hash with
      | some (cost, p) => .charge cost (.ok (some p)) counter
      | none =>
        .charge (2 * max (t.fillAt (t.candidates hash).first)
          (t.fillAt (t.candidates hash).second)) (.ok none) counter := by
  rw [locate, if_neg live, firstMatch?, wellFormed.candidateGroups_eq]
  dsimp only
  rw [scan_eq_settle (wellFormed.packed_getElem _) (wellFormed.packed_getElem _) live
    (Nat.zero_le _) (Nat.zero_le _), fillAt_eq (wellFormed.first_lt hash),
    fillAt_eq (wellFormed.second_lt hash)]
  rfl

/-- The scan for stored keys makes the comparisons up to the first match. If there is none it makes
two at every offset and fails. -/
theorem locateUnchecked_eq (wellFormed : t.WellFormed s) (key : K) (hash counter : UInt64) :
    t.locateUnchecked key hash counter =
      match t.firstMatch? key hash with
      | some (cost, p) => .charge cost (.ok p) counter
      | none => .charge (2 * slots) (.error .missingKey) counter := by
  rw [locateUnchecked, firstMatch?, wellFormed.candidateGroups_eq]
  dsimp only
  rw [scanUnchecked_eq_settle (Nat.zero_le _) (Nat.zero_le _)]
  rfl

/-- A match is the position of an entry of the key in one of the candidates. -/
theorem entryAt?_of_match (wellFormed : t.WellFormed s) (live : key ≠ Key.vacant)
    (found : t.firstMatch? key hash = some (cost, p)) :
    (p.group = (t.candidates hash).first ∨ p.group = (t.candidates hash).second) ∧
      ∃ value, t.entryAt? p = some (key, value) := by
  rw [firstMatch?, wellFormed.candidateGroups_eq] at found
  rcases sideBySide_cases found with ⟨inRange, -, -, rfl⟩ | ⟨inRange, -, -, rfl⟩
  · exact ⟨Or.inl rfl, wellFormed.entryAt?_of_key_eq live (wellFormed.first_lt hash) inRange
      (Group.key_slotOf inRange)⟩
  · exact ⟨Or.inr rfl, wellFormed.entryAt?_of_key_eq live (wellFormed.second_lt hash) inRange
      (Group.key_slotOf inRange)⟩

/-- There is no match exactly if no candidate holds the key. -/
theorem firstMatch?_eq_none_iff (wellFormed : t.WellFormed s) (live : key ≠ Key.vacant)
    (hash : UInt64) : t.firstMatch? key hash = none ↔ ¬t.Holds key hash := by
  have first_iff := Group.mem_keys_iff_exists_mem_toList
    (wellFormed.packed_getElem (wellFormed.first_lt hash))
    (wellFormed.written_getElem (wellFormed.first_lt hash)) live
  have second_iff := Group.mem_keys_iff_exists_mem_toList
    (wellFormed.packed_getElem (wellFormed.second_lt hash))
    (wellFormed.written_getElem (wellFormed.second_lt hash)) live
  rw [firstMatch?, wellFormed.candidateGroups_eq]
  dsimp only
  rw [sideBySide_eq_none_iff, ← not_or, first_iff, second_iff, not_iff_not]
  constructor
  · rintro (⟨value, mem⟩ | ⟨value, mem⟩)
    · exact ⟨_, wellFormed.first_lt hash, value, Or.inl rfl, mem⟩
    · exact ⟨_, wellFormed.second_lt hash, value, Or.inr rfl, mem⟩
  · rintro ⟨i, inRange, value, rfl | rfl, mem⟩
    · exact Or.inl ⟨value, mem⟩
    · exact Or.inr ⟨value, mem⟩

/-- A key held by a candidate has a match. -/
theorem exists_match (wellFormed : t.WellFormed s) (live : key ≠ Key.vacant)
    (held : t.Holds key hash) : ∃ cost p, t.firstMatch? key hash = some (cost, p) := by
  cases found : t.firstMatch? key hash with
  | none => exact absurd held ((wellFormed.firstMatch?_eq_none_iff live hash).mp found)
  | some hit => exact ⟨hit.1, hit.2, rfl⟩

/-- The candidates of a key's own hash hold the key exactly if it is stored. -/
theorem holds_hash_iff (wellFormed : t.WellFormed s) :
    t.Holds key (s.hash key) ↔ ∃ value, (key, value) ∈ t.toList := by
  constructor
  · rintro ⟨i, inRange, value, -, mem⟩
    exact ⟨value, mem_toList_of_mem_group inRange mem⟩
  · rintro ⟨value, mem⟩
    obtain ⟨i, inRange, inGroup⟩ := exists_group_of_mem_toList mem
    exact ⟨i, inRange, value, wellFormed.placed i inRange _ inGroup, inGroup⟩

/-- A key without a match in its own candidates is not stored. -/
theorem notStored_of_no_match (wellFormed : t.WellFormed s) (live : key ≠ Key.vacant)
    (none_eq : t.firstMatch? key (s.hash key) = none) (value : V) : (key, value) ∉ t.toList := by
  intro mem
  have held := wellFormed.holds_hash_iff.mpr ⟨value, mem⟩
  exact (wellFormed.firstMatch?_eq_none_iff live _).mp none_eq held

/-- Comparing a key with two groups costs two comparisons a slot at most. -/
theorem cost_le (wellFormed : t.WellFormed s)
    (found : t.firstMatch? key hash = some (cost, p)) : cost ≤ 2 * slots := by
  rw [firstMatch?, wellFormed.candidateGroups_eq] at found
  rcases sideBySide_cases found with ⟨inRange, -, rfl, -⟩ | ⟨inRange, -, rfl, -⟩ <;> omega

end WellFormed

/-! ### Looking for a key -/

/-- The ways in which looking for a key ends on a counter. What a miss and a hit lead to is up to
the scan. -/
inductive Location {α : Type w} (t : Table K V slots) (key : K) (counter : UInt64)
    (miss : Except Fault α) (hit : Position → α) : Except Fault α → Prop
  /-- The key is not stored. -/
  | absent (notStored : ∀ value, (key, value) ∉ t.toList) : Location t key counter miss hit miss
  /-- An entry of the key is found. -/
  | found (p : Position) (value : V) (stored : t.entryAt? p = some (key, value)) :
      Location t key counter miss hit (.ok (hit p))
  /-- The comparisons cannot be counted. -/
  | overflowed (tooMany : Word.limit ≤ counter.toNat + 2 * slots) :
      Location t key counter miss hit (.error .counterOverflow)

/-- Looking for a key still ends in one of the ways when its comparisons are charged. -/
theorem Location.charge {α : Type w} {miss result : Except Fault α} {hit : Position → α}
    (location : Location t key counter miss hit result) (le : cost ≤ 2 * slots) :
    Location t key counter miss hit (Counted.charge cost result counter).result := by
  by_cases fits : counter.toNat + cost < Word.limit
  · rwa [Counted.charge_of_lt fits]
  · rw [Counted.charge_of_not_lt fits]
    exact .overflowed (by omega)

namespace WellFormed

/-- Looking for a key through its own hash ends in one of the ways. -/
theorem location_locate (wellFormed : t.WellFormed s) (key : K) (counter : UInt64) :
    Location t key counter (.ok none) some (t.locate key (s.hash key) counter).result := by
  by_cases vacant : key = Key.vacant
  · rw [locate, if_pos vacant]
    exact .absent fun value mem => key_ne_vacant_of_mem_toList mem vacant
  · rw [wellFormed.locate_eq vacant]
    cases found : t.firstMatch? key (s.hash key) with
    | none =>
      have first_le := t.fillAt_le (t.candidates (s.hash key)).first
      have second_le := t.fillAt_le (t.candidates (s.hash key)).second
      have absent := wellFormed.notStored_of_no_match vacant found
      exact (Location.absent absent).charge (by omega)
    | some hit =>
      obtain ⟨-, value, stored⟩ := wellFormed.entryAt?_of_match vacant found
      exact (Location.found hit.2 value stored).charge (wellFormed.cost_le found)

/-- So does looking for a key that is taken to be stored. -/
theorem location_locateUnchecked (wellFormed : t.WellFormed s) (live : key ≠ Key.vacant)
    (counter : UInt64) :
    Location t key counter (.error .missingKey) id
      (t.locateUnchecked key (s.hash key) counter).result := by
  rw [wellFormed.locateUnchecked_eq]
  cases found : t.firstMatch? key (s.hash key) with
  | none =>
    have absent := wellFormed.notStored_of_no_match live found
    exact (Location.absent absent).charge (Nat.le_refl _)
  | some hit =>
    obtain ⟨-, value, stored⟩ := wellFormed.entryAt?_of_match live found
    exact (Location.found hit.2 value stored).charge (wellFormed.cost_le found)

end WellFormed

end TwoChoice.Table
