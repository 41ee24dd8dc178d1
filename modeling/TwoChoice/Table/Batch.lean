import TwoChoice.Table.Update

/-!
# Batches

The operations of a table for many keys, one after another. A batch ends at the first fault; what
it did before stays done.

## Main Definitions

* `Table.insertAll` — stores entries, and notes the growths
* `Table.getAll` — looks keys up, and notes what each lookup cost
* `Table.prefetchAll`, `Table.findAll` — hash keys first, and look them up afterwards
* `Table.eraseAll` — takes entries out
-/

namespace TwoChoice.Table

universe u v

variable {K : Type u} {V : Type v} {slots : Nat} [Key K] [DecidableEq K]

/-- Stores some entries, the first of which has the given index. The result lists the indexes of
those whose storing changed the capacity, each with the capacity it led to. -/
def insertAll (s : Scheme K) (index : Nat) :
    List (K × V) → Table K V slots → Updated K V slots (List (Nat × Nat))
  | [], t => ⟨.ok [], t⟩
  | (key, value) :: rest, t =>
    let before := t.capacity
    match t.insert s key value with
    | ⟨.error fault, t'⟩ => ⟨.error fault, t'⟩
    | ⟨.ok (), t'⟩ =>
      let after := t'.capacity
      match insertAll s (index + 1) rest t' with
      | ⟨.error fault, t''⟩ => ⟨.error fault, t''⟩
      | ⟨.ok growths, t''⟩ =>
        ⟨.ok (if after = before then growths else (index, after) :: growths), t''⟩

/-- Looks some keys up. The result has for each key its value, if it is stored, and the number of
comparisons made for it. -/
def getAll (s : Scheme K) (t : Table K V slots) :
    List K → UInt64 → Counted (List (Option V × Nat)) :=
  Counted.each fun key counter => (t.get s key counter).measured counter

/-- Hashes some keys ahead of their lookups. -/
def prefetchAll (s : Scheme K) (t : Table K V slots) (keys : List K) :
    Except Fault (List (K × UInt64)) :=
  keys.mapM fun key => (t.prefetch s key).map fun hash => (key, hash)

/-- The values of some keys that were hashed before. A miss is a fault. -/
def findAll (t : Table K V slots) : List (K × UInt64) → UInt64 → Counted (List V) :=
  Counted.each fun entry => t.findIndexed entry.1 entry.2

/-- Takes out the entries of some keys. The result tells for each key whether it was stored. -/
def eraseAll (s : Scheme K) : List K → Table K V slots → Updated K V slots (List Bool)
  | [], t => ⟨.ok [], t⟩
  | key :: rest, t =>
    match t.erase s key with
    | ⟨.error fault, t'⟩ => ⟨.error fault, t'⟩
    | ⟨.ok found, t'⟩ =>
      match eraseAll s rest t' with
      | ⟨.error fault, t''⟩ => ⟨.error fault, t''⟩
      | ⟨.ok flags, t''⟩ => ⟨.ok (found :: flags), t''⟩

end TwoChoice.Table
