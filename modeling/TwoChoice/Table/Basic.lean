import TwoChoice.Capacity
import TwoChoice.Group
import TwoChoice.Scheme
import TwoChoice.Word

/-!
# Two-choice tables

A table is an array of groups. The hash of a key names two of them, its candidates, and the
entry of the key lies in one of the two.

## Main Definitions

* `Table` — the groups, the index mask and the number of entries
* `Candidates` — the two groups that a hash names
* `Table.groupAt` — the group at an index
* `Table.withGroups` — a new table with at least so many groups
* `Table.copy` — a table of its own with the same contents
* `Table.entries` — all entries, group by group
* `Table.memoryUsage` — the bytes a table occupies

## Main Statements

* `Table.copy_eq` — a copy equals the table, if its groups can be allocated
-/

namespace TwoChoice

universe u v

/-- The groups of a table, with what is recorded about them. -/
structure Table (K : Type u) (V : Type v) (slots : Nat) where
  /-- The groups. Their number is a power of two. -/
  groups : Array (Group K V slots)
  /-- The number of groups less one. A hash is cut down to a group index by it. -/
  mask : UInt64
  /-- The number of entries. -/
  size : Nat

/-- A slot of a table: the index of its group, and its own index in the group. -/
structure Position where
  /-- The index of the group. -/
  group : Nat
  /-- The index of the slot in its group. -/
  slot : Nat
  deriving DecidableEq, Repr

/-- The two groups that may hold the entry of a key. They may be the same group. -/
structure Candidates where
  /-- The group named by the lower half of the hash. -/
  first : Nat
  /-- The group named by the upper half of the hash. -/
  second : Nat
  deriving DecidableEq, Repr

/-- The groups that a hash names under an index mask. A mask of more than 32 bits lets the first
group depend on the upper half of the hash as well. -/
def Candidates.ofHash (mask hash : UInt64) : Candidates where
  first := (hash &&& mask).toNat
  second := ((hash >>> 32) &&& mask).toNat

namespace Table

variable {K : Type u} {V : Type v} {slots : Nat}

/-- The number of groups. -/
def capacity (t : Table K V slots) : Nat :=
  t.groups.size

/-- Whether the table holds no entries. -/
def isEmpty (t : Table K V slots) : Bool :=
  t.size == 0

/-- The two groups of a table that a hash names. -/
def candidates (t : Table K V slots) (hash : UInt64) : Candidates :=
  Candidates.ofHash t.mask hash

/-- The group at an index, which may not exceed the index mask. -/
def groupAt (t : Table K V slots) (index : Nat) : Except Fault (Group K V slots) :=
  if t.mask.toNat < index then .error (.breach .groupIndex)
  else
    match t.groups[index]? with
    | some g => .ok g
    | none => .error (.breach .groupIndex)

/-- The contents of the two groups that a hash names. -/
def candidateGroups (t : Table K V slots) (hash : UInt64) :
    Except Fault (Group K V slots × Group K V slots) :=
  match t.groupAt (t.candidates hash).first with
  | .error fault => .error fault
  | .ok first =>
    match t.groupAt (t.candidates hash).second with
    | .error fault => .error fault
    | .ok second => .ok (first, second)

section Key

variable [Key K]

/-- The table of so many empty groups. -/
def empty (capacity : Nat) : Table K V slots where
  groups := Array.replicate capacity Group.empty
  mask := UInt64.ofNat (capacity - 1)
  size := 0

/-- The table of so many empty groups, if one allocation has room for them. -/
def allocate (l : Layout) (capacity : Nat) : Except Fault (Table K V slots) :=
  if ¬capacity.isPowerOfTwo then .error (.breach .groupCount)
  else if ¬l.Fits slots capacity then .error .layoutOverflow
  else .ok (empty capacity)

/-- What is allocated is empty. The number of its groups is a power of two, and they fit one
allocation. -/
theorem of_allocate {l : Layout} {capacity : Nat} {t : Table K V slots}
    (made : allocate l capacity = .ok t) :
    capacity.isPowerOfTwo ∧ l.Fits slots capacity ∧ t = empty capacity := by
  unfold allocate at made
  by_cases powerOfTwo : capacity.isPowerOfTwo
  · rw [if_neg (not_not_intro powerOfTwo)] at made
    by_cases fits : l.Fits slots capacity
    · rw [if_neg (not_not_intro fits)] at made
      exact ⟨powerOfTwo, fits, (Except.ok.inj made).symm⟩
    · rw [if_pos fits] at made
      cases made
  · rw [if_pos powerOfTwo] at made
    cases made

/-- A new table with at least `groups` groups. -/
def withGroups (s : Scheme K) (groups : Nat) : Except Fault (Table K V slots) :=
  (Capacity.ofGroups groups).bind (allocate s.layout)

/-- A new table of the least capacity. -/
def new (s : Scheme K) : Except Fault (Table K V slots) :=
  withGroups s Capacity.minimum

/-- All entries, group by group and in each group slot by slot. -/
def entries [DecidableEq K] (t : Table K V slots) : Except Fault (List (K × V)) :=
  (t.groups.toList.mapM Group.entries).map List.flatten

/-- The keys of all entries, group by group and in each group slot by slot. -/
def liveKeys [DecidableEq K] (t : Table K V slots) : List K :=
  t.groups.toList.flatMap Group.liveKeys

/-- Takes all entries out. The groups stay. -/
def clear (t : Table K V slots) : Table K V slots where
  groups := t.groups.map Group.reset
  mask := t.mask
  size := 0

/-! ### Copies -/

/-- Overwrites the groups from an index on with others, one after another. -/
def overwrite (index : Nat) :
    List (Group K V slots) → Array (Group K V slots) → Array (Group K V slots)
  | [], groups => groups
  | g :: rest, groups => overwrite (index + 1) rest (groups.setIfInBounds index g)

/-- A copy of the table. New groups are allocated for it, as many as the table has, and overwritten
with those of the table. -/
def copy (s : Scheme K) (t : Table K V slots) : Except Fault (Table K V slots) :=
  match allocate s.layout t.capacity with
  | .error fault => .error fault
  | .ok fresh =>
    if t.groups.size = fresh.groups.size then
      .ok ⟨overwrite 0 t.groups.toList fresh.groups, t.mask, t.size⟩
    else .error (.breach .copyLength)

omit [Key K] in
/-- The groups before the index stay, and so do those after the last one that is overwritten. -/
theorem toList_overwrite {index : Nat} {source : List (Group K V slots)}
    {groups : Array (Group K V slots)} (room : index + source.length ≤ groups.size) :
    (overwrite index source groups).toList =
      groups.toList.take index ++ source ++ groups.toList.drop (index + source.length) := by
  fun_induction overwrite index source groups with
  | case1 index groups => simp
  | case2 index g rest groups ih =>
    have bound : index + (rest.length + 1) ≤ groups.toList.length := room
    have inRange : index < groups.toList.length := by omega
    have beginning : (groups.toList.set index g).take (index + 1) =
        groups.toList.take index ++ [g] := by
      rw [List.take_add_one, List.take_set_of_le (Nat.le_refl index),
        List.getElem?_set_self inRange, Option.toList_some]
    have bound' : index + 1 + rest.length ≤ (groups.setIfInBounds index g).size := by
      rw [Array.size_setIfInBounds]
      exact Nat.add_right_comm index 1 _ ▸ room
    rw [ih bound', Array.toList_setIfInBounds, beginning, List.drop_set_of_lt (by omega),
      List.append_assoc _ [g], List.singleton_append, List.length_cons, Nat.add_right_comm,
      Nat.add_assoc]

omit [Key K] in
/-- As many groups are overwritten altogether. -/
theorem overwrite_eq {source groups : Array (Group K V slots)} (same : source.size = groups.size) :
    overwrite 0 source.toList groups = source := by
  apply Array.toList_inj.mp
  rw [toList_overwrite (by simp [same]), List.take_zero, List.nil_append, Nat.zero_add,
    List.drop_eq_nil_of_le (by simp [same]), List.append_nil]

/-- A copy equals the table. There is one exactly if as many groups can be allocated. -/
theorem copy_eq (s : Scheme K) (t : Table K V slots) :
    t.copy s = (allocate s.layout t.capacity : Except Fault (Table K V slots)).map fun _ => t := by
  unfold copy
  cases made : (allocate s.layout t.capacity : Except Fault (Table K V slots)) with
  | error fault => rfl
  | ok fresh =>
    obtain ⟨-, -, rfl⟩ := of_allocate made
    have same : t.groups.size = (empty t.capacity : Table K V slots).groups.size :=
      Array.size_replicate.symm
    dsimp only
    rw [if_pos same, overwrite_eq same]
    rfl

end Key

/-- The bytes of the record that holds the groups, their number, the mask and the size. -/
def headerBytes : Nat := 32

/-- The bytes that a table occupies: its groups and its header. -/
def memoryUsage (s : Scheme K) (t : Table K V slots) : Except Fault Nat :=
  (Word.mul t.capacity (s.layout.groupBytes slots)).bind fun bytes => Word.add bytes headerBytes

/-- Hashes a key ahead of its lookup and has its candidate groups fetched. The hash is good for
a later lookup with `getIndexed` or `findIndexed`. -/
def prefetch (s : Scheme K) (t : Table K V slots) (key : K) : Except Fault UInt64 :=
  (t.candidateGroups (s.hash key)).map fun _ => s.hash key

end Table

end TwoChoice
