import TwoChoice.Table.Basic

/-!
# Placement and growth

A new entry goes to the less full of the two groups that its hash names. When both are full the
table grows: all entries are placed again in an empty table of twice the capacity, or four
times, and so on until every entry finds room.

## Main Definitions

* `Edit` — new contents for one group
* `Table.placement` — the edit that stores an entry, if there is room for it
* `Table.placeAll` — stores a list of entries, if there is room for all of them
* `Table.growThrough` — the first of some capacities at which all entries find room
* `Table.grown` — the table after growth

## Design Notes

A placement is decided first and carried out afterwards, so that a table without room is never
touched. Growth leaves the old table alone and yields a new one.

Growth ends because only so many doublings fit in 64 bits; `Capacity.doublings` lists them.
-/

namespace TwoChoice

universe u v

/-- New contents for one group of a table. -/
structure Edit (K : Type u) (V : Type v) (slots : Nat) where
  /-- The index of the group. -/
  index : Nat
  /-- Its new contents. -/
  group : Group K V slots

namespace Table

variable {K : Type u} {V : Type v} {slots : Nat}

/-- Puts the new contents of a group in place, in a table that has `size` entries then. -/
def edit : Table K V slots → Edit K V slots → Nat → Table K V slots
  | ⟨groups, mask, _⟩, ⟨index, group⟩, size => ⟨groups.setIfInBounds index group, mask, size⟩

@[simp] theorem capacity_edit (t : Table K V slots) (change : Edit K V slots) (size : Nat) :
    (t.edit change size).capacity = t.capacity :=
  Array.size_setIfInBounds

variable [Key K] [DecidableEq K]

/-! ### Placement -/

/-- The group that takes a new entry with the given hash, and the slot in it: the less full of
the two groups that the hash names, the first of them if they are equally full. There is none if
both are full. -/
def target (t : Table K V slots) (hash : UInt64) : Except Fault (Option Position) :=
  if ¬t.capacity.isPowerOfTwo then .error (.breach .groupCount)
  else
    match t.candidateGroups hash with
    | .error fault => .error fault
    | .ok (first, second) =>
      if first.fill = slots ∧ second.fill = slots then .ok none
      else if first.fill ≤ second.fill then .ok (some ⟨(t.candidates hash).first, first.fill⟩)
      else .ok (some ⟨(t.candidates hash).second, second.fill⟩)

/-- The edit that stores an entry, or none if both groups named by the hash are full. -/
def placement (t : Table K V slots) (hash : UInt64) (key : K) (value : V) :
    Except Fault (Option (Edit K V slots)) :=
  match t.target hash with
  | .error fault => .error fault
  | .ok none => .ok none
  | .ok (some p) =>
    match t.groupAt p.group with
    | .error fault => .error fault
    | .ok g =>
      match g.push p.slot key value with
      | .error fault => .error fault
      | .ok g' => .ok (some ⟨p.group, g'⟩)

/-- Stores some entries one after another. There is no result if one of them finds no room. -/
def placeAll (s : Scheme K) :
    List (K × V) → Table K V slots → Except Fault (Option (Table K V slots))
  | [], t => .ok (some t)
  | (key, value) :: rest, t =>
    match t.placement (s.hash key) key value with
    | .error fault => .error fault
    | .ok none => .ok none
    | .ok (some change) => placeAll s rest (t.edit change (t.size + 1))

theorem capacity_placeAll {s : Scheme K} {entries : List (K × V)} {t t' : Table K V slots}
    (placed : placeAll s entries t = .ok (some t')) : t'.capacity = t.capacity := by
  fun_induction placeAll s entries t with
  | case1 t =>
    cases placed
    rfl
  | case2 => cases placed
  | case3 => cases placed
  | case4 t key value rest change _ ih => rw [ih placed, capacity_edit]

/-! ### Growth -/

/-- Stores all entries of a table in an empty table of another capacity, in the order in which
they lie. There is no result if one of them finds no room. -/
def rebuild (s : Scheme K) (entries : List (K × V)) (capacity : Nat) :
    Except Fault (Option (Table K V slots)) :=
  match allocate s.layout capacity with
  | .error fault => .error fault
  | .ok fresh => placeAll s entries fresh

theorem capacity_rebuild {s : Scheme K} {entries : List (K × V)} {capacity : Nat}
    {t : Table K V slots} (built : rebuild s entries capacity = .ok (some t)) :
    t.capacity = capacity ∧ 0 < capacity := by
  unfold rebuild at built
  cases made : (allocate s.layout capacity : Except Fault (Table K V slots)) with
  | error fault =>
    rw [made] at built
    cases built
  | ok fresh =>
    rw [made] at built
    obtain ⟨powerOfTwo, -, rfl⟩ := of_allocate made
    have capacity_eq :
        t.capacity = (Array.replicate capacity (Group.empty : Group K V slots)).size :=
      capacity_placeAll built
    rw [Array.size_replicate] at capacity_eq
    exact ⟨capacity_eq, Nat.pos_of_isPowerOfTwo powerOfTwo⟩

/-- Stores the entries at the first of some capacities that has room for all of them. Their
number must then be `size`. -/
def growThrough (s : Scheme K) (entries : List (K × V)) (size : Nat) :
    List Nat → Except Fault (Table K V slots)
  | [] => .error .capacityOverflow
  | capacity :: larger =>
    match rebuild s entries capacity with
    | .error fault => .error fault
    | .ok none => growThrough s entries size larger
    | .ok (some t) => if t.size = size then .ok t else .error (.breach .entryCount)

theorem capacity_growThrough {s : Scheme K} {entries : List (K × V)} {size : Nat}
    {capacities : List Nat} {t : Table K V slots}
    (grew : growThrough s entries size capacities = .ok t) :
    t.capacity ∈ capacities ∧ 0 < t.capacity := by
  fun_induction growThrough s entries size capacities with
  | case1 => cases grew
  | case2 => cases grew
  | case3 capacity larger _ ih =>
    obtain ⟨mem, positive⟩ := ih grew
    exact ⟨List.mem_cons_of_mem _ mem, positive⟩
  | case4 capacity larger t' built =>
    cases grew
    obtain ⟨capacity_eq, positive⟩ := capacity_rebuild built
    rw [capacity_eq]
    exact ⟨List.mem_cons_self, positive⟩
  | case5 => cases grew

/-- The table with all its entries stored again at the first double of its capacity that has
room for them. -/
def grown (s : Scheme K) (t : Table K V slots) : Except Fault (Table K V slots) :=
  match t.entries with
  | .error fault => .error fault
  | .ok entries => growThrough s entries t.size (Capacity.doublings t.capacity)

/-- Growth reaches a greater capacity that fits in 64 bits. -/
theorem capacity_grown {s : Scheme K} {t t' : Table K V slots} (grew : t.grown s = .ok t') :
    t.capacity < t'.capacity ∧ t'.capacity < Word.limit := by
  unfold grown at grew
  cases read : t.entries with
  | error fault =>
    rw [read] at grew
    cases grew
  | ok entries =>
    rw [read] at grew
    obtain ⟨mem, positive'⟩ := capacity_growThrough grew
    apply Capacity.lt_of_mem_doublings _ mem
    obtain ⟨j, _, double⟩ := List.mem_map.mp mem
    apply Nat.pos_of_ne_zero
    intro zero
    rw [zero, Nat.zero_shiftLeft] at double
    omega

end Table

end TwoChoice
