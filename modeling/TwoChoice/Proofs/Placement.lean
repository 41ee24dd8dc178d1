import TwoChoice.Proofs.Edits

/-!
# Placement

In a well-formed table a placement never breaches a condition. It finds both candidates full and
does nothing, or it appends the entry to the less full of them. Placing a list of entries, as growth
does, repeats this until an entry finds no room.

## Main Definitions

* `Candidates.lessFull` — the less full of two candidates
* `Table.chosen` — the less full of the two candidates of a hash
* `Table.Blocked` — both candidates of a hash are full
* `Table.Stores` — an edit that appends an entry to the chosen group
* `Table.Gains` — a table with one more entry in the chosen group

## Main Statements

* `Table.WellFormed.placement_cases` — what a placement decides
* `Table.Stores.wellFormed`, `Table.Stores.perm`, `Table.Stores.fillAt_edit` — what it leaves
* `Table.WellFormed.placeAll_cases` — placing a list of entries keeps all of them or gives up
-/

namespace TwoChoice

universe u v

/-! ### The less full of two candidates -/

namespace Candidates

variable {c : Candidates} {fill : Nat → Nat}

/-- The less full of two candidates, the first of them if they are equally full. -/
def lessFull (c : Candidates) (fill : Nat → Nat) : Nat :=
  if fill c.first ≤ fill c.second then c.first else c.second

theorem lessFull_of_le (le : fill c.first ≤ fill c.second) : c.lessFull fill = c.first :=
  if_pos le

theorem lessFull_of_lt (lt : fill c.second < fill c.first) : c.lessFull fill = c.second :=
  if_neg (Nat.not_le.mpr lt)

theorem lessFull_eq_or (c : Candidates) (fill : Nat → Nat) :
    c.lessFull fill = c.first ∨ c.lessFull fill = c.second := by
  rcases Nat.lt_or_ge (fill c.second) (fill c.first) with lt | le
  · exact Or.inr (lessFull_of_lt lt)
  · exact Or.inl (lessFull_of_le le)

end Candidates

namespace Table

variable {K : Type u} {V : Type v} {slots : Nat} [Key K] [DecidableEq K]
variable {s : Scheme K} {t : Table K V slots} {hash : UInt64} {key : K} {value : V}

/-! ### The choice -/

/-- The less full of the two candidates of a hash, the first of them if they are equally full. -/
def chosen (t : Table K V slots) (hash : UInt64) : Nat :=
  (t.candidates hash).lessFull t.fillAt

/-- Both candidates of a hash are full. -/
def Blocked (t : Table K V slots) (hash : UInt64) : Prop :=
  t.fillAt (t.candidates hash).first = slots ∧ t.fillAt (t.candidates hash).second = slots

instance (t : Table K V slots) (hash : UInt64) : Decidable (t.Blocked hash) :=
  inferInstanceAs (Decidable (_ ∧ _))

theorem chosen_eq_or (t : Table K V slots) (hash : UInt64) :
    t.chosen hash = (t.candidates hash).first ∨ t.chosen hash = (t.candidates hash).second :=
  (t.candidates hash).lessFull_eq_or t.fillAt

/-- The chosen group is full only if both candidates are. -/
theorem fillAt_chosen_lt (t : Table K V slots) (open' : ¬t.Blocked hash) :
    t.fillAt (t.chosen hash) < slots := by
  have first_le := t.fillAt_le (t.candidates hash).first
  have second_le := t.fillAt_le (t.candidates hash).second
  unfold Blocked at open'
  unfold chosen
  rcases Nat.lt_or_ge (t.fillAt (t.candidates hash).second) (t.fillAt (t.candidates hash).first)
    with lt | le
  · rw [Candidates.lessFull_of_lt lt]
    omega
  · rw [Candidates.lessFull_of_le le]
    omega

theorem WellFormed.chosen_lt (wellFormed : t.WellFormed s) (hash : UInt64) :
    t.chosen hash < t.groups.size := by
  rcases t.chosen_eq_or hash with first | second
  · exact first ▸ wellFormed.first_lt hash
  · exact second ▸ wellFormed.second_lt hash

/-- The group and the slot that take an entry, in terms of the fills. -/
theorem WellFormed.target_eq (wellFormed : t.WellFormed s) (hash : UInt64) :
    t.target hash =
      .ok (if t.Blocked hash then none else some ⟨t.chosen hash, t.fillAt (t.chosen hash)⟩) := by
  have powerOfTwo := wellFormed.isPowerOfTwo
  rw [target, if_neg (not_not.mpr powerOfTwo), wellFormed.candidateGroups_eq]
  simp only [← fillAt_eq]
  by_cases blocked : t.Blocked hash
  · rw [if_pos blocked]
    exact if_pos blocked
  · rw [if_neg blocked, chosen, Candidates.lessFull]
    refine (if_neg blocked).trans ?_
    split <;> rfl

/-! ### One entry -/

/-- The edit appends an entry to the less full candidate of its hash. -/
structure Stores (t : Table K V slots) (hash : UInt64) (key : K) (value : V)
    (change : Edit K V slots) : Prop where
  /-- The edit is one of the chosen group. -/
  index_eq : change.index = t.chosen hash
  /-- The group exists. -/
  inRange : change.index < t.groups.size
  /-- The new contents are the old ones with the slot at the fill written. -/
  pushed : t.groups[change.index].push t.groups[change.index].fill key value = .ok change.group

/-- A placement finds both candidates full, or stores the entry in the less full of them. -/
theorem WellFormed.placement_cases (wellFormed : t.WellFormed s) (hash : UInt64) (key : K)
    (value : V) :
    (t.Blocked hash ∧ t.placement hash key value = .ok none) ∨
      ¬t.Blocked hash ∧ ∃ change, t.placement hash key value = .ok (some change) ∧
        t.Stores hash key value change := by
  by_cases blocked : t.Blocked hash
  · left
    refine ⟨blocked, ?_⟩
    rw [placement, wellFormed.target_eq, if_pos blocked]
  · right
    refine ⟨blocked, ?_⟩
    have inRange := wellFormed.chosen_lt hash
    have room := t.fillAt_chosen_lt blocked
    rw [fillAt_eq inRange] at room
    obtain ⟨g', pushed⟩ : ∃ g', t.groups[t.chosen hash].push
        t.groups[t.chosen hash].fill key value = .ok g' := ⟨_, Group.push_fill room key value⟩
    refine ⟨⟨t.chosen hash, g'⟩, ?_, ⟨rfl, inRange, pushed⟩⟩
    rw [placement, wellFormed.target_eq, if_neg blocked]
    simp only [wellFormed.groupAt_eq inRange, fillAt_eq inRange, pushed]

/-- A placement with room stores the entry. -/
theorem WellFormed.exists_stores (wellFormed : t.WellFormed s) (open' : ¬t.Blocked hash) (key : K)
    (value : V) : ∃ change, t.placement hash key value = .ok (some change) ∧
      t.Stores hash key value change :=
  ((wellFormed.placement_cases hash key value).resolve_left fun blocked => open' blocked.1).2

/-- A placement does not fail. -/
theorem WellFormed.placement_ne_error (wellFormed : t.WellFormed s) (hash : UInt64) (key : K)
    (value : V) (fault : Fault) : t.placement hash key value ≠ .error fault := by
  rcases wellFormed.placement_cases hash key value with ⟨-, eq⟩ | ⟨-, change, eq, -⟩
  · simp [eq]
  · simp [eq]

/-- A placement that stores nothing found both candidates full. -/
theorem WellFormed.placement_eq_none_iff (wellFormed : t.WellFormed s) (hash : UInt64) (key : K)
    (value : V) : t.placement hash key value = .ok none ↔ t.Blocked hash := by
  rcases wellFormed.placement_cases hash key value with ⟨blocked, none_eq⟩ | ⟨open', change, eq, -⟩
  · simp [none_eq, blocked]
  · simp [eq, open']

/-- The edit that a placement decides on stores the entry. -/
theorem WellFormed.stores (wellFormed : t.WellFormed s) {change : Edit K V slots}
    (decided : t.placement hash key value = .ok (some change)) :
    t.Stores hash key value change := by
  rcases wellFormed.placement_cases hash key value with ⟨-, none_eq⟩ | ⟨-, change', eq, stores⟩
  · rw [none_eq] at decided
    cases decided
  · rw [eq] at decided
    cases decided
    exact stores

namespace Stores

variable {change : Edit K V slots} {n : Nat}

/-- The group of the edit gains the entry at its end. -/
theorem toList_group (stores : t.Stores hash key value change) (wellFormed : t.WellFormed s)
    (live : key ≠ Key.vacant) :
    change.group.toList =
      (getElem t.groups change.index stores.inRange).toList ++ [(key, value)] :=
  Group.toList_push (wellFormed.packed_getElem stores.inRange)
    (wellFormed.written_getElem stores.inRange) live stores.pushed

/-- Storing an entry in a candidate of its key keeps a table well-formed. -/
theorem wellFormed (stores : t.Stores (s.hash key) key value change) (wellFormed : t.WellFormed s)
    (live : key ≠ Key.vacant) : (t.edit change (t.size + 1)).WellFormed s := by
  have toList_eq := stores.toList_group wellFormed live
  refine wellFormed.edit stores.inRange
    (Group.packed_push (wellFormed.packed_getElem stores.inRange) live stores.pushed)
    (Group.written_push (wellFormed.written_getElem stores.inRange) stores.pushed) ?_ ?_
  · intro entry mem
    rw [toList_eq, List.mem_append, List.mem_singleton] at mem
    rcases mem with old | rfl
    · exact wellFormed.placed _ stores.inRange entry old
    · rw [stores.index_eq]
      exact t.chosen_eq_or _
  · rw [toList_eq, List.length_append, List.length_singleton]
    omega

/-- The table gains the entry and keeps the others. -/
theorem perm (stores : t.Stores hash key value change) (wellFormed : t.WellFormed s)
    (live : key ≠ Key.vacant) (n : Nat) :
    (t.edit change n).toList.Perm ((key, value) :: t.toList) := by
  obtain ⟨before, after, old, new⟩ := toList_edit stores.inRange change.group n
  rw [old, new, stores.toList_group wellFormed live, List.append_assoc, List.singleton_append]
  rw [← List.append_assoc before, ← List.append_assoc before]
  exact List.perm_middle

/-- The fill of the chosen group grows by one, and no other fill changes. -/
theorem fillAt_edit (stores : t.Stores hash key value change) (wellFormed : t.WellFormed s)
    (live : key ≠ Key.vacant) (n i : Nat) :
    (t.edit change n).fillAt i = if i = t.chosen hash then t.fillAt i + 1 else t.fillAt i := by
  rw [Table.fillAt_edit stores.inRange, stores.index_eq]
  by_cases same : i = t.chosen hash
  · have inRange := stores.inRange
    rw [if_pos same, if_pos same, same, ← stores.index_eq, fillAt_eq inRange]
    exact Group.fill_push (wellFormed.packed_getElem inRange) live stores.pushed
  · rw [if_neg same, if_neg same]

end Stores

/-! ### Several entries -/

/-- A table that has one more entry than another, in the group chosen for its key. -/
structure Gains (s : Scheme K) (t : Table K V slots) (entry : K × V) (t' : Table K V slots) :
    Prop where
  /-- The table with the entry is well-formed. -/
  wellFormed : t'.WellFormed s
  /-- The mask is the same. -/
  mask_eq : t'.mask = t.mask
  /-- The fill of the chosen group is greater by one, and no other differs. -/
  fillAt_eq : ∀ i, t'.fillAt i =
    if i = t.chosen (s.hash entry.1) then t.fillAt i + 1 else t.fillAt i
  /-- The entry comes to those there were. -/
  perm : t'.toList.Perm (entry :: t.toList)
  /-- Placing the entry and some others is placing the others in the table with the entry. -/
  placeAll_cons : ∀ rest, placeAll s (entry :: rest) t = placeAll s rest t'

theorem Gains.candidates_eq {t' : Table K V slots} {entry : K × V} (gains : Gains s t entry t')
    (hash : UInt64) : t'.candidates hash = t.candidates hash := by
  rw [candidates, gains.mask_eq, candidates]

/-- An entry whose candidates are both full stops a placement of several entries. -/
theorem WellFormed.placeAll_cons_of_blocked {entry : K × V} (wellFormed : t.WellFormed s)
    (blocked : t.Blocked (s.hash entry.1)) (rest : List (K × V)) :
    placeAll s (entry :: rest) t = .ok none := by
  rw [placeAll, (wellFormed.placement_eq_none_iff _ _ _).mpr blocked]

/-- Any other entry is stored in the group chosen for its key. -/
theorem WellFormed.exists_gains {entry : K × V} (wellFormed : t.WellFormed s)
    (live : entry.1 ≠ Key.vacant) (open' : ¬t.Blocked (s.hash entry.1)) :
    ∃ t', Gains s t entry t' := by
  obtain ⟨change, decided, stores⟩ := wellFormed.exists_stores open' entry.1 entry.2
  refine ⟨t.edit change (t.size + 1), stores.wellFormed wellFormed live, mask_edit .., ?_, ?_, ?_⟩
  · exact stores.fillAt_edit wellFormed live _
  · exact stores.perm wellFormed live _
  · intro rest
    rw [placeAll, decided]

/-- Placing entries one after another finds no room for one of them, or leaves a well-formed table
with all of them beside those it had. -/
theorem WellFormed.placeAll_cases {entries : List (K × V)} (wellFormed : t.WellFormed s)
    (live : ∀ entry ∈ entries, entry.1 ≠ Key.vacant) :
    placeAll s entries t = .ok none ∨ ∃ t', placeAll s entries t = .ok (some t') ∧
      t'.WellFormed s ∧ t'.toList.Perm (entries ++ t.toList) := by
  -- The table grows with every entry, so the induction is for all tables at once.
  induction entries generalizing t with
  | nil => exact Or.inr ⟨t, rfl, wellFormed, List.Perm.refl _⟩
  | cons entry rest ih =>
    by_cases blocked : t.Blocked (s.hash entry.1)
    · exact Or.inl (wellFormed.placeAll_cons_of_blocked blocked rest)
    · obtain ⟨larger, gains⟩ := wellFormed.exists_gains (live entry List.mem_cons_self) blocked
      rw [gains.placeAll_cons]
      rcases ih gains.wellFormed fun later mem => live later (List.mem_cons_of_mem _ mem) with
        none_eq | ⟨t', some_eq, wellFormed', perm⟩
      · exact Or.inl none_eq
      · refine Or.inr ⟨t', some_eq, wellFormed', perm.trans ?_⟩
        exact (gains.perm.append_left rest).trans List.perm_middle

end Table

end TwoChoice
