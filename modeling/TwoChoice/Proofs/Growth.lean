import TwoChoice.Proofs.Doubling
import TwoChoice.Proofs.Placement
import TwoChoice.Table.Update

/-!
# Growth and insertion

Growth tries the doubles of a capacity one after another. It ends at the first of them that has
room for all entries, at the first whose groups do not fit one allocation, or when there are no
more. There is no fourth way, and a table that it yields has the entries it was given. Insertion
repeats growth until the new entry has room.

## Main Definitions

* `Capacity.Usable` — a number of groups that a well-formed table can have
* `Table.NoRoom` — a capacity at which an entry finds both of its candidates full
* `Table.Growth` — the three ways in which growth ends
* `Table.Insertion` — the three ways in which an insertion ends

## Main Statements

* `Table.growth_growThrough`, `Table.WellFormed.growth_grown` — growth ends in one of its ways
* `Table.WellFormed.grow_cases` — what growing leaves
* `Table.WellFormed.insertion_insert` — an insertion ends in one of its ways
* `Table.WellFormed.insert_induction` — what an insertion keeps
-/

namespace TwoChoice

universe u v

/-- A number of groups that a well-formed table can have. -/
structure Capacity.Usable (capacity : Nat) : Prop where
  /-- It is a power of two. -/
  isPowerOfTwo : capacity.isPowerOfTwo
  /-- It is not below the least capacity. -/
  minimum_le : Capacity.minimum ≤ capacity
  /-- It fits in 64 bits. -/
  lt_limit : capacity < Word.limit

namespace Table

variable {K : Type u} {V : Type v} {slots : Nat} [Key K] [DecidableEq K]
variable {s : Scheme K} {t t' : Table K V slots} {key : K} {value : V}
variable {entries : List (K × V)} {capacities : List Nat} {capacity size : Nat}

/-- A table of a usable number of empty groups is well-formed. -/
theorem wellFormed_empty_of_usable (s : Scheme K) (usable : Capacity.Usable capacity) :
    (empty capacity : Table K V slots).WellFormed s :=
  wellFormed_empty s usable.isPowerOfTwo usable.minimum_le (Nat.le_of_lt usable.lt_limit)

/-- Growth from a well-formed table tries usable capacities only. -/
theorem WellFormed.usable_of_mem_doublings (wellFormed : t.WellFormed s)
    (mem : capacity ∈ Capacity.doublings t.capacity) : Capacity.Usable capacity := by
  obtain ⟨powerOfTwo, greater, below⟩ :=
    (Capacity.mem_doublings_iff wellFormed.isPowerOfTwo).mp mem
  exact ⟨powerOfTwo, wellFormed.minimum_le.trans (Nat.le_of_lt greater), below⟩

/-! ### Growth -/

/-- The groups of a capacity fit one allocation, but one of the entries finds both of its
candidates full when they are placed in them one after another. -/
def NoRoom (s : Scheme K) (slots : Nat) (entries : List (K × V)) (capacity : Nat) : Prop :=
  s.layout.Fits slots capacity ∧
    placeAll s entries (empty capacity : Table K V slots) = .ok none

/-- A rebuilt table is the empty one with the entries placed in it, if it can be allocated. -/
theorem rebuild_eq (s : Scheme K) (entries : List (K × V)) (powerOfTwo : capacity.isPowerOfTwo) :
    (rebuild s entries capacity : Except Fault (Option (Table K V slots))) =
      if s.layout.Fits slots capacity then placeAll s entries (empty capacity)
      else .error .layoutOverflow := by
  rw [rebuild, allocate, if_neg (not_not.mpr powerOfTwo)]
  by_cases fits : s.layout.Fits slots capacity
  · rw [if_neg (not_not.mpr fits), if_pos fits]
  · rw [if_pos fits, if_neg fits]

/-- The ways in which growth through some capacities ends. -/
inductive Growth (s : Scheme K) (entries : List (K × V)) (capacities : List Nat) :
    Except Fault (Table K V slots) → Prop
  /-- A capacity has room for all entries, and none before it does. -/
  | reached (before after : List Nat) (larger : Nat) {t : Table K V slots}
      (split : capacities = before ++ larger :: after)
      (noRoom : ∀ c ∈ before, NoRoom s slots entries c) (fits : s.layout.Fits slots larger)
      (placed : placeAll s entries (empty larger) = .ok (some t))
      (wellFormed : t.WellFormed s) (perm : t.toList.Perm entries) :
      Growth s entries capacities (.ok t)
  /-- A capacity cannot be allocated, and none before it has room. -/
  | unallocatable (before after : List Nat) (larger : Nat)
      (split : capacities = before ++ larger :: after)
      (noRoom : ∀ c ∈ before, NoRoom s slots entries c)
      (tooLarge : ¬s.layout.Fits slots larger) :
      Growth s entries capacities (.error .layoutOverflow)
  /-- No capacity has room. -/
  | exhausted (noRoom : ∀ c ∈ capacities, NoRoom s slots entries c) :
      Growth s entries capacities (.error .capacityOverflow)

/-- What is known of growth through the later capacities holds with one more without room. -/
theorem Growth.cons {result : Except Fault (Table K V slots)}
    (growth : Growth s entries capacities result) (noRoom : NoRoom s slots entries capacity) :
    Growth s entries (capacity :: capacities) result := by
  have extend {before : List Nat} (earlier : ∀ c ∈ before, NoRoom s slots entries c) :
      ∀ c ∈ capacity :: before, NoRoom s slots entries c := by
    intro c mem
    rcases List.mem_cons.mp mem with rfl | mem'
    · exact noRoom
    · exact earlier c mem'
  cases growth with
  | reached before after larger split earlier fits placed wellFormed perm =>
    exact .reached (capacity :: before) after larger (by rw [split, List.cons_append])
      (extend earlier) fits placed wellFormed perm
  | unallocatable before after larger split earlier tooLarge =>
    exact .unallocatable (capacity :: before) after larger (by rw [split, List.cons_append])
      (extend earlier) tooLarge
  | exhausted all => exact .exhausted (extend all)

/-- Growth through usable capacities ends in one of its ways, and no entry is lost or counted
wrong. -/
theorem growth_growThrough (live : ∀ entry ∈ entries, entry.1 ≠ Key.vacant)
    (usable : ∀ c ∈ capacities, Capacity.Usable c) :
    Growth s entries capacities
      (growThrough s entries entries.length capacities : Except Fault (Table K V slots)) := by
  -- The induction puts a capacity without room before what is known of those after it.
  induction capacities with
  | nil => exact .exhausted (by simp)
  | cons larger rest ih =>
    have usableLarger := usable larger List.mem_cons_self
    have later := ih fun c mem => usable c (List.mem_cons_of_mem _ mem)
    rw [growThrough, rebuild_eq s entries usableLarger.isPowerOfTwo]
    by_cases fits : s.layout.Fits slots larger
    · rw [if_pos fits]
      have wellFormed : (empty larger : Table K V slots).WellFormed s :=
        wellFormed_empty_of_usable s usableLarger
      rcases wellFormed.placeAll_cases live with none_eq | ⟨t, some_eq, wellFormed', perm⟩
      · rw [none_eq]
        exact later.cons ⟨fits, none_eq⟩
      · rw [toList_empty, List.append_nil] at perm
        have size_eq : t.size = entries.length := wellFormed'.size_eq.trans perm.length_eq
        simp only [some_eq, if_pos size_eq]
        exact .reached [] rest larger rfl (by simp) fits some_eq wellFormed' perm
    · rw [if_neg fits]
      exact .unallocatable [] rest larger rfl (by simp) fits

/-- Growth of a well-formed table ends in one of its ways. -/
theorem WellFormed.growth_grown (wellFormed : t.WellFormed s) :
    Growth s t.toList (Capacity.doublings t.capacity) (t.grown s) := by
  rw [grown, wellFormed.entries_eq]
  show Growth s t.toList _ (growThrough s t.toList t.size _)
  rw [wellFormed.size_eq]
  exact growth_growThrough (fun entry mem => key_ne_vacant_of_mem_toList mem)
    fun c mem => wellFormed.usable_of_mem_doublings mem

/-- A grown table is well-formed and has the entries of the one it was made from. -/
theorem WellFormed.of_grown (wellFormed : t.WellFormed s) (grew : t.grown s = .ok t') :
    t'.WellFormed s ∧ t'.toList.Perm t.toList := by
  have growth := wellFormed.growth_grown
  rw [grew] at growth
  cases growth with
  | reached _ _ _ _ _ _ _ wellFormed' perm => exact ⟨wellFormed', perm⟩

/-- Growth fails only for want of a capacity or of an allocation. -/
theorem WellFormed.grown_fault (wellFormed : t.WellFormed s) {fault : Fault}
    (failed : t.grown s = .error fault) : fault = .capacityOverflow ∨ fault = .layoutOverflow := by
  have growth := wellFormed.growth_grown
  rw [failed] at growth
  cases growth with
  | unallocatable => exact Or.inr rfl
  | exhausted => exact Or.inl rfl

/-- Growing leaves the table and fails, or leaves the grown one and returns. -/
theorem WellFormed.grow_cases (wellFormed : t.WellFormed s) :
    (∃ fault, (fault = .capacityOverflow ∨ fault = .layoutOverflow) ∧
        t.grow s = ⟨.error fault, t⟩) ∨
      ∃ larger, t.grown s = .ok larger ∧ larger.WellFormed s ∧ larger.toList.Perm t.toList ∧
        t.grow s = ⟨.ok (), larger⟩ := by
  unfold Table.grow
  cases grew : t.grown s with
  | error fault => exact Or.inl ⟨fault, wellFormed.grown_fault grew, rfl⟩
  | ok larger =>
    obtain ⟨wellFormed', perm⟩ := wellFormed.of_grown grew
    exact Or.inr ⟨larger, rfl, wellFormed', perm, rfl⟩

/-! ### Insertion -/

/-- The ways in which an insertion ends. -/
inductive Insertion (s : Scheme K) (t : Table K V slots) (key : K) (value : V) :
    Updated K V slots Unit → Prop
  /-- The vacant key is refused. -/
  | refused (vacant : key = Key.vacant) : Insertion s t key value ⟨.error .vacantKey, t⟩
  /-- The entry is stored, after growth if there was no room for it. -/
  | stored {t' : Table K V slots} (live : key ≠ Key.vacant) (wellFormed : t'.WellFormed s)
      (perm : t'.toList.Perm ((key, value) :: t.toList)) : Insertion s t key value ⟨.ok (), t'⟩
  /-- Growth fails. The entries are those there were. -/
  | stuck {t' : Table K V slots} {fault : Fault} (live : key ≠ Key.vacant)
      (cause : fault = .capacityOverflow ∨ fault = .layoutOverflow)
      (wellFormed : t'.WellFormed s) (perm : t'.toList.Perm t.toList) :
      Insertion s t key value ⟨.error fault, t'⟩

/-- What is known of an insertion into another table with the same entries holds for a table. -/
theorem Insertion.of_perm {u : Updated K V slots Unit} (insertion : Insertion s t' key value u)
    (live : key ≠ Key.vacant) (same : t'.toList.Perm t.toList) : Insertion s t key value u := by
  cases insertion with
  | refused vacant => exact absurd vacant live
  | stored _ wellFormed perm => exact .stored live wellFormed (perm.trans (same.cons _))
  | stuck _ cause wellFormed perm => exact .stuck live cause wellFormed (perm.trans same)

/-- Growing until there is room ends in one of the ways of an insertion. -/
theorem WellFormed.insertion_insertLoop (wellFormed : t.WellFormed s) (live : key ≠ Key.vacant) :
    Insertion s t key value (insertLoop s key value t) := by
  -- The induction follows the growths: each leaves a well-formed table with the same entries.
  fun_induction insertLoop s key value t with
  | case1 t fault failed => exact absurd failed (wellFormed.placement_ne_error _ key value fault)
  | case2 t change decided =>
    have stores := wellFormed.stores decided
    exact .stored live (stores.wellFormed wellFormed live) (stores.perm wellFormed live _)
  | case3 t _ fault failed =>
    exact .stuck live (wellFormed.grown_fault failed) wellFormed (List.Perm.refl _)
  | case4 t _ larger grew ih =>
    obtain ⟨wellFormed', perm⟩ := wellFormed.of_grown grew
    exact (ih wellFormed').of_perm live perm

/-- An insertion ends in one of its ways. -/
theorem WellFormed.insertion_insert (wellFormed : t.WellFormed s) (key : K) (value : V) :
    Insertion s t key value (t.insert s key value) := by
  unfold insert
  by_cases vacant : key = Key.vacant
  · rw [if_pos vacant]
    exact .refused vacant
  · rw [if_neg vacant]
    exact wellFormed.insertion_insertLoop vacant

/-- What placing the entry keeps and growth keeps, an insertion keeps, however it ends. -/
theorem WellFormed.insert_induction {P : Table K V slots → Prop} (wellFormed : t.WellFormed s)
    (holds : P t)
    (placed : ∀ {t : Table K V slots} {change : Edit K V slots}, t.WellFormed s →
      key ≠ Key.vacant → t.Stores (s.hash key) key value change → P t →
        P (t.edit change (t.size + 1)))
    (grew : ∀ {t larger : Table K V slots}, t.WellFormed s → t.grown s = .ok larger → P t →
      P larger) :
    P (t.insert s key value).table := by
  unfold insert
  by_cases vacant : key = Key.vacant
  · rw [if_pos vacant]
    exact holds
  · rw [if_neg vacant]
    fun_induction insertLoop s key value t with
    | case1 => exact holds
    | case2 t change decided => exact placed wellFormed vacant (wellFormed.stores decided) holds
    | case3 => exact holds
    | case4 t _ larger larger_eq ih =>
      exact ih (wellFormed.of_grown larger_eq).1 (grew wellFormed larger_eq holds)

end Table

end TwoChoice
