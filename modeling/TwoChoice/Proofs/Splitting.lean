import TwoChoice.Proofs.LeastGrowth
import TwoChoice.Proofs.ProbeOrder

/-!
# Groups split when their number is doubled

A candidate of a hash is a remainder by the number of groups. When the number is doubled, the
remainder stays what it is or grows by the old number, so that every group splits into two: itself,
and the one as far behind it as there were groups. This is so for each of the two candidates by
itself, at every width of the mask. Beyond 32 bits both candidates depend on the upper half of the
hash.

Growing doubles the number several times if need be. Each time the candidates split, and what has
been split several times still reduces to the candidates there were. An entry is moved to one of its
new candidates, so the group that it comes to lie in reduces to one of its old candidates, though
not always to the one in which it lay.

## Main Definitions

* `Candidates.SplitsInto` — candidates under twice as many groups, beside those under so many
* `Table.Redistributes` — a table with more groups, in which entries lie where old candidates split

## Main Statements

* `Candidates.splitsInto_ofHash` — the candidates of every hash split
* `Table.WellFormed.mod_candidate` — in a larger table an entry lies in a group that reduces to one
  of its candidates
* `Table.groups_split` — groups split under doubling, and growing only moves entries along
-/

namespace TwoChoice

universe u v

/-! ### One doubling -/

/-- The remainder by twice a number is the remainder by the number, or that and the number. -/
theorem mod_double (word capacity : Nat) :
    word % (capacity * 2) = word % capacity ∨
      word % (capacity * 2) = word % capacity + capacity := by
  rw [Nat.mod_mul]
  rcases Nat.mod_two_eq_zero_or_one (word / capacity) with even | odd
  · rw [even, Nat.mul_zero, Nat.add_zero]
    exact Or.inl rfl
  · rw [odd, Nat.mul_one]
    exact Or.inr rfl

namespace Candidates

variable {capacity : Nat} {c c' : Candidates}

/-- Two groups among so many, and two among twice as many, each of which is the same or lies as far
behind as there were groups. -/
structure SplitsInto (capacity : Nat) (c c' : Candidates) : Prop where
  /-- The first group is one of so many. -/
  first_lt : c.first < capacity
  /-- So is the second. -/
  second_lt : c.second < capacity
  /-- The first group among twice as many is the same, or lies behind it. -/
  first_eq_or : c'.first = c.first ∨ c'.first = c.first + capacity
  /-- The second group is the same, or lies behind it. -/
  second_eq_or : c'.second = c.second ∨ c'.second = c.second + capacity

instance (capacity : Nat) (c c' : Candidates) : Decidable (SplitsInto capacity c c') :=
  decidable_of_iff (c.first < capacity ∧ c.second < capacity ∧
      (c'.first = c.first ∨ c'.first = c.first + capacity) ∧
      (c'.second = c.second ∨ c'.second = c.second + capacity))
    ⟨fun ⟨first, second, first', second'⟩ => ⟨first, second, first', second'⟩,
      fun splits =>
        ⟨splits.first_lt, splits.second_lt, splits.first_eq_or, splits.second_eq_or⟩⟩

/-- The candidates among a number of groups split when it is doubled. -/
theorem splitsInto_among (positive : 0 < capacity) (hash : UInt64) :
    SplitsInto capacity (among capacity hash) (among (capacity * 2) hash) where
  first_lt := Nat.mod_lt _ positive
  second_lt := Nat.mod_lt _ positive
  first_eq_or := mod_double _ _
  second_eq_or := mod_double _ _

/-- The candidates of a hash split when a power of two is doubled, also under masks that are wider
than half a hash. -/
theorem splitsInto_ofHash (powerOfTwo : capacity.isPowerOfTwo) (fits : 2 * capacity ≤ Word.limit)
    (hash : UInt64) :
    SplitsInto capacity (ofHash (UInt64.ofNat (capacity - 1)) hash)
      (ofHash (UInt64.ofNat (2 * capacity - 1)) hash) := by
  rw [Nat.mul_comm 2 capacity] at fits ⊢
  have powerOfTwo' := Nat.isPowerOfTwo_mul_two_of_isPowerOfTwo powerOfTwo
  rw [ofHash_capacity powerOfTwo (by omega), ofHash_capacity powerOfTwo' fits]
  exact splitsInto_among (Nat.pos_of_isPowerOfTwo powerOfTwo) hash

/-- Among eight groups the candidates are 5 and 3, among sixteen 13 and 3. -/
example : SplitsInto 8 (ofHash 7 0x30000000D) (ofHash 15 0x30000000D) := by
  decide

end Candidates

/-! ### Growing -/

namespace Table

variable {K : Type u} {V : Type v} {slots : Nat} [Key K] [DecidableEq K]
variable {s : Scheme K} {t t' : Table K V slots}

/-- A table with the entries of another whose number of groups has been doubled `j` times. Each
entry lies where one of its old candidates was split to. -/
structure Redistributes (s : Scheme K) (t : Table K V slots) (j : Nat) (t' : Table K V slots) :
    Prop where
  /-- At least one doubling is made. -/
  positive : 1 ≤ j
  /-- The capacity is doubled so many times. -/
  capacity_eq : t'.capacity = t.capacity * 2 ^ j
  /-- Every entry is there as often as before, with its value. -/
  perm : t'.toList.Perm t.toList
  /-- The new candidates of every hash reduce to the old ones. -/
  candidates_mod : ∀ hash, (t'.candidates hash).first % t.capacity = (t.candidates hash).first ∧
    (t'.candidates hash).second % t.capacity = (t.candidates hash).second
  /-- A new group has only entries that have the group it reduces to among their old candidates. -/
  landed : ∀ (i : Nat) (inRange : i < t'.groups.size), ∀ entry ∈ t'.groups[i].toList,
    i % t.capacity = (t.candidates (s.hash entry.1)).first ∨
      i % t.capacity = (t.candidates (s.hash entry.1)).second

namespace WellFormed

/-- In a table that is not smaller, an entry lies in a group that reduces to one of its
candidates. -/
theorem mod_candidate (wellFormed : t.WellFormed s) (wellFormed' : t'.WellFormed s)
    (le : t.capacity ≤ t'.capacity) {i : Nat} (inRange : i < t'.groups.size) {entry : K × V}
    (mem : entry ∈ t'.groups[i].toList) :
    i % t.capacity = (t.candidates (s.hash entry.1)).first ∨
      i % t.capacity = (t.candidates (s.hash entry.1)).second := by
  rcases wellFormed'.placed i inRange entry mem with rfl | rfl
  · exact Or.inl (wellFormed.first_mod wellFormed' le _)
  · exact Or.inr (wellFormed.second_mod wellFormed' le _)

/-- Enlarging a table moves its entries along as the groups split. -/
theorem redistributes (wellFormed : t.WellFormed s) {j : Nat} (positive : 1 ≤ j)
    (enlarges : Enlarges s t j t') : Redistributes s t j t' := by
  have le : t.capacity ≤ t'.capacity := by
    rw [enlarges.capacity_eq]
    exact Nat.le_mul_of_pos_right _ (Nat.two_pow_pos j)
  exact {
    positive
    capacity_eq := enlarges.capacity_eq
    perm := enlarges.perm
    candidates_mod := fun hash => ⟨wellFormed.first_mod enlarges.wellFormed le hash,
      wellFormed.second_mod enlarges.wellFormed le hash⟩
    landed := fun _ inRange _ mem =>
      wellFormed.mod_candidate enlarges.wellFormed le inRange mem }

end WellFormed

/-- The candidates of every hash split when a power of two is doubled. Growing, if it returns, has
doubled the capacity some times, and every entry has come to lie in a group that reduces to one of
its old candidates. -/
theorem groups_split (s : Scheme K) :
    (∀ capacity hash, capacity.isPowerOfTwo → 2 * capacity ≤ Word.limit →
        Candidates.SplitsInto capacity (.ofHash (UInt64.ofNat (capacity - 1)) hash)
          (.ofHash (UInt64.ofNat (2 * capacity - 1)) hash)) ∧
      ∀ t : Table K V slots, t.WellFormed s → (t.grow s).result = .ok () →
        ∃ j, Redistributes s t j (t.grow s).table := by
  constructor
  · intro capacity hash powerOfTwo fits
    exact Candidates.splitsInto_ofHash powerOfTwo fits hash
  · intro t wellFormed returned
    have enlargement := wellFormed.enlargement_grow
    generalize t.grow s = update at enlargement returned
    cases enlargement with
    | returned j least _ _ enlarges => exact ⟨j, wellFormed.redistributes least.positive enlarges⟩
    | exhausted => cases returned
    | unallocatable => cases returned

/-- A hash with bits in both halves splits under a mask of 40 bits. Growing the table of three
entries doubles its eight groups twice. -/
theorem groups_split_detoured :
    Candidates.SplitsInto (2 ^ 40) (.ofHash (UInt64.ofNat (2 ^ 40 - 1)) 0x1FF00000003)
        (.ofHash (UInt64.ofNat (2 * 2 ^ 40 - 1)) 0x1FF00000003) ∧
      (Candidates.ofHash (UInt64.ofNat (2 * 2 ^ 40 - 1)) 0x1FF00000003).first =
        (Candidates.ofHash (UInt64.ofNat (2 ^ 40 - 1)) 0x1FF00000003).first + 2 ^ 40 ∧
      detoured.WellFormed doublingScheme ∧
      Redistributes doublingScheme detoured 2 (detoured.grow doublingScheme).table := by
  have returned : (detoured.grow doublingScheme).result = .ok () := by decide +kernel
  have old : detoured.capacity = 8 := by decide +kernel
  have new : (detoured.grow doublingScheme).table.capacity = 32 := by decide +kernel
  obtain ⟨splits, grows⟩ := @groups_split (FixedInt (.unsigned 64)) UInt64 1 _ _ doublingScheme
  obtain ⟨j, redistributes⟩ := grows detoured reachable_detoured.wellFormed returned
  obtain rfl : j = 2 := by
    have capacity_eq := redistributes.capacity_eq
    rw [old, new] at capacity_eq
    have pow_eq : 2 ^ j = 2 ^ 2 := by omega
    exact Nat.pow_right_injective (Nat.le_refl 2) pow_eq
  exact ⟨splits (2 ^ 40) 0x1FF00000003 ⟨40, rfl⟩ (by decide), by decide,
    reachable_detoured.wellFormed, redistributes⟩

end Table

end TwoChoice
