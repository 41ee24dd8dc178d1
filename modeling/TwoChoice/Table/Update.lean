import TwoChoice.Table.Growth
import TwoChoice.Table.Lookup

/-!
# Updates

Storing an entry, taking one out, and growing.

## Main Definitions

* `Updated` — the result of an update beside the table it leaves
* `Table.insert` — stores an entry, growing as often as it has to
* `Table.erase`, `Table.eraseUnchecked` — take an entry out
* `Table.grow` — grows once

## Main Statements

* `Table.insertLoop_of_fault`, `Table.insertLoop_of_room`, `Table.insertLoop_of_noRoom` — what one
  turn of the loop does

## Design Notes

An update leaves a table behind also when it fails. Except for an insertion whose growth fails
after an earlier growth did not, that table is the one the update began with.
-/

namespace TwoChoice

universe u v w

/-- What an update leaves: a result, or why there is none, and the table. -/
structure Updated (K : Type u) (V : Type v) (slots : Nat) (α : Type w) where
  /-- The result, or why there is none. -/
  result : Except Fault α
  /-- The table afterwards. -/
  table : Table K V slots

namespace Table

variable {K : Type u} {V : Type v} {slots : Nat} [Key K] [DecidableEq K]

/-! ### Storing -/

/-- Stores an entry, and grows for as long as there is no room for it. -/
def insertLoop (s : Scheme K) (key : K) (value : V) (t : Table K V slots) :
    Updated K V slots Unit :=
  match t.placement (s.hash key) key value with
  | .error fault => ⟨.error fault, t⟩
  | .ok (some change) => ⟨.ok (), t.edit change (t.size + 1)⟩
  | .ok none =>
    match _ : t.grown s with
    | .error fault => ⟨.error fault, t⟩
    | .ok larger => insertLoop s key value larger
termination_by Word.limit - t.capacity
decreasing_by
  have := capacity_grown ‹t.grown s = .ok larger›
  omega

section InsertLoop

variable {s : Scheme K} {t : Table K V slots} {key : K} {value : V}

theorem insertLoop_of_fault {fault : Fault}
    (failed : t.placement (s.hash key) key value = .error fault) :
    insertLoop s key value t = ⟨.error fault, t⟩ := by
  rw [insertLoop, failed]

theorem insertLoop_of_room {change : Edit K V slots}
    (decided : t.placement (s.hash key) key value = .ok (some change)) :
    insertLoop s key value t = ⟨.ok (), t.edit change (t.size + 1)⟩ := by
  rw [insertLoop, decided]

/-- Without room the loop grows first, and goes on if growth does not fail. -/
theorem insertLoop_of_noRoom (noRoom : t.placement (s.hash key) key value = .ok none) :
    insertLoop s key value t =
      match t.grown s with
      | .error fault => ⟨.error fault, t⟩
      | .ok larger => insertLoop s key value larger := by
  rw [insertLoop, noRoom]
  dsimp only
  -- The loop keeps the growth it ends by, so its result cannot be rewritten before the cases are.
  split
  case h_1 fault failed => rw [failed]
  case h_2 larger grew => rw [grew]

theorem insertLoop_of_stuck {fault : Fault}
    (noRoom : t.placement (s.hash key) key value = .ok none) (failed : t.grown s = .error fault) :
    insertLoop s key value t = ⟨.error fault, t⟩ := by
  rw [insertLoop_of_noRoom noRoom, failed]

theorem insertLoop_of_grown {larger : Table K V slots}
    (noRoom : t.placement (s.hash key) key value = .ok none) (grew : t.grown s = .ok larger) :
    insertLoop s key value t = insertLoop s key value larger := by
  rw [insertLoop_of_noRoom noRoom, grew]

end InsertLoop

/-- Stores an entry. It is not checked whether the key is stored already: two entries may have
the same key. The vacant key is refused. -/
def insert (s : Scheme K) (t : Table K V slots) (key : K) (value : V) : Updated K V slots Unit :=
  if key = Key.vacant then ⟨.error .vacantKey, t⟩ else insertLoop s key value t

/-- Grows to the first double of the capacity that has room for all entries. -/
def grow (s : Scheme K) (t : Table K V slots) : Updated K V slots Unit :=
  match t.grown s with
  | .error fault => ⟨.error fault, t⟩
  | .ok larger => ⟨.ok (), larger⟩

/-! ### Taking out -/

/-- The edit that takes out the entry at a position. There must be an entry to take out. -/
def removal (t : Table K V slots) (p : Position) : Except Fault (Edit K V slots) :=
  match t.groupAt p.group with
  | .error fault => .error fault
  | .ok g =>
    match g.remove p.slot with
    | .error fault => .error fault
    | .ok g' => if t.size = 0 then .error (.breach .wordDifference) else .ok ⟨p.group, g'⟩

/-- Takes out the entry of a key, and tells whether there was one. If the key is stored more than
once, the entry that a lookup finds is the one taken out. -/
def erase (s : Scheme K) (t : Table K V slots) (key : K) : Updated K V slots Bool :=
  match (t.locate key (s.hash key) 0).result with
  | .error fault => ⟨.error fault, t⟩
  | .ok none => ⟨.ok false, t⟩
  | .ok (some p) =>
    match t.removal p with
    | .error fault => ⟨.error fault, t⟩
    | .ok change => ⟨.ok true, t.edit change (t.size - 1)⟩

/-- Takes out the entry of a key that is known to be stored. -/
def eraseUnchecked (s : Scheme K) (t : Table K V slots) (key : K) : Updated K V slots Unit :=
  match (t.locateUnchecked key (s.hash key) 0).result with
  | .error fault => ⟨.error fault, t⟩
  | .ok p =>
    match t.removal p with
    | .error fault => ⟨.error fault, t⟩
    | .ok change => ⟨.ok (), t.edit change (t.size - 1)⟩

end Table

end TwoChoice
