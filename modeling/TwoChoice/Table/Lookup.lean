import TwoChoice.Counted
import TwoChoice.Table.Basic

/-!
# Lookups

A lookup goes through the two candidate groups of a hash side by side: slot 0 of the first, slot
0 of the second, slot 1 of the first, and so on. It counts every comparison just before it makes
it.

## Main Definitions

* `Table.locate` — the bounded scan, which stops where both groups have a vacant slot
* `Table.locateUnchecked` — the scan for keys known to be stored, which does not look for
  vacant slots
* `Table.get`, `Table.contains`, `Table.find` — lookups by key
* `Table.getIndexed`, `Table.findIndexed` — lookups with a hash computed before
* `Table.findUnchecked`, `Table.findIndexedUnchecked` — lookups of keys known to be stored

## Design Notes

The entries of a group come first, so nothing lies beyond an offset at which both groups have a
vacant slot, and the bounded scan may stop there. The scan for stored keys makes no such test:
given a key that is not stored, it compares the key with every slot of both groups and fails.
-/

namespace TwoChoice.Table

universe u v

variable {K : Type u} {V : Type v} {slots : Nat} [Key K] [DecidableEq K]

/-! ### Scans -/

/-- Compares a key with the slots of two groups from an offset on, until it is found or both
groups have a vacant slot. -/
def scan (at₁ at₂ : Nat) (first second : Group K V slots) (key : K) (slot : Nat)
    (counter : UInt64) : Counted (Option Position) :=
  if inRange : slot < slots then
    if first.keys[slot] = Key.vacant ∧ second.keys[slot] = Key.vacant then ⟨.ok none, counter⟩
    else if counter = fullCounter then ⟨.error .counterOverflow, counter⟩
    else if first.keys[slot] = key then ⟨.ok (some ⟨at₁, slot⟩), counter + 1⟩
    else if counter + 1 = fullCounter then ⟨.error .counterOverflow, counter + 1⟩
    else if second.keys[slot] = key then ⟨.ok (some ⟨at₂, slot⟩), counter + 2⟩
    else scan at₁ at₂ first second key (slot + 1) (counter + 2)
  else ⟨.ok none, counter⟩
termination_by slots - slot

/-- Compares a key with the slots of two groups from an offset on, until it is found. -/
def scanUnchecked (at₁ at₂ : Nat) (first second : Group K V slots) (key : K) (slot : Nat)
    (counter : UInt64) : Counted Position :=
  if inRange : slot < slots then
    if counter = fullCounter then ⟨.error .counterOverflow, counter⟩
    else if first.keys[slot] = key then ⟨.ok ⟨at₁, slot⟩, counter + 1⟩
    else if counter + 1 = fullCounter then ⟨.error .counterOverflow, counter + 1⟩
    else if second.keys[slot] = key then ⟨.ok ⟨at₂, slot⟩, counter + 2⟩
    else scanUnchecked at₁ at₂ first second key (slot + 1) (counter + 2)
  else ⟨.error .missingKey, counter⟩
termination_by slots - slot

/-- Where a key is stored, as far as the two groups named by `hash` go. The vacant key is stored
nowhere and is not looked for. -/
def locate (t : Table K V slots) (key : K) (hash : UInt64) (counter : UInt64) :
    Counted (Option Position) :=
  if key = Key.vacant then ⟨.ok none, counter⟩
  else
    match t.candidateGroups hash with
    | .error fault => ⟨.error fault, counter⟩
    | .ok (first, second) =>
      scan (t.candidates hash).first (t.candidates hash).second first second key 0 counter

/-- Where a key is stored that is known to be in one of the two groups named by `hash`. -/
def locateUnchecked (t : Table K V slots) (key : K) (hash : UInt64) (counter : UInt64) :
    Counted Position :=
  match t.candidateGroups hash with
  | .error fault => ⟨.error fault, counter⟩
  | .ok (first, second) =>
    scanUnchecked (t.candidates hash).first (t.candidates hash).second first second key 0 counter

/-- The value of the entry at a position. -/
def valueAt (t : Table K V slots) (p : Position) : Except Fault V :=
  match t.groupAt p.group with
  | .ok g => g.read p.slot
  | .error fault => .error fault

/-! ### Lookups with a hash -/

/-- The value stored under a key, looked for in the groups named by `hash`. A hash that is not
the key's own may miss a key that is stored. -/
def getIndexed (t : Table K V slots) (key : K) (hash : UInt64) (counter : UInt64) :
    Counted (Option V) :=
  (t.locate key hash counter).andThen fun
    | some p => (t.valueAt p).map some
    | none => .ok none

/-- The value stored under a key in the groups named by `hash`. A miss is a fault. -/
def findIndexed (t : Table K V slots) (key : K) (hash : UInt64) (counter : UInt64) : Counted V :=
  (t.locate key hash counter).andThen fun
    | some p => t.valueAt p
    | none => .error .missingKey

/-- The value stored under a key that is known to be in the groups named by `hash`. -/
def findIndexedUnchecked (t : Table K V slots) (key : K) (hash : UInt64) (counter : UInt64) :
    Counted V :=
  (t.locateUnchecked key hash counter).andThen t.valueAt

/-! ### Lookups by key -/

/-- The value stored under a key, if the key is stored. -/
def get (s : Scheme K) (t : Table K V slots) (key : K) (counter : UInt64) : Counted (Option V) :=
  t.getIndexed key (s.hash key) counter

/-- Whether a key is stored. -/
def contains (s : Scheme K) (t : Table K V slots) (key : K) (counter : UInt64) : Counted Bool :=
  (t.locate key (s.hash key) counter).andThen fun p => .ok p.isSome

/-- The value stored under a key. A miss is a fault. -/
def find (s : Scheme K) (t : Table K V slots) (key : K) (counter : UInt64) : Counted V :=
  t.findIndexed key (s.hash key) counter

/-- The value stored under a key that is known to be stored. -/
def findUnchecked (s : Scheme K) (t : Table K V slots) (key : K) (counter : UInt64) : Counted V :=
  t.findIndexedUnchecked key (s.hash key) counter

end TwoChoice.Table
