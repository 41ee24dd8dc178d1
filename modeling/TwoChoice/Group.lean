import TwoChoice.Fault
import TwoChoice.Key

/-!
# Groups of slots

A group has a fixed number of slots. Each slot has room for a key and, apart from it, room for
a value. A slot whose key is the vacant key holds no entry.

## Main Definitions

* `Group` — the keys and the values of some slots
* `Group.fill` — the number of slots before the first vacant one
* `Group.read`, `Group.push`, `Group.remove`, `Group.reset` — access to the slots
* `Group.shift` — one step of a removal
* `Group.toList` — the entries of a group, in slot order
* `Group.Packed` — no entry comes after a vacant slot
* `Group.Written` — every entry has a value

## Design Notes

Keys and values lie in two sequences, and vacating a slot overwrites its key only. So the value
of a vacant slot may be one that was never written (`none`) or one left behind by an entry that
is gone. `read` refuses vacant slots, so nothing depends on what they hold.

A group is plain data. That its entries come first is a predicate about it, `Packed`, which
every operation keeps.
-/

namespace TwoChoice

universe u v w

/-- Some slots, each with room for a key and a value. -/
structure Group (K : Type u) (V : Type v) (slots : Nat) where
  /-- The keys, with the vacant key in slots that hold no entry. -/
  keys : Vector K slots
  /-- The values, with `none` in slots that never held an entry. -/
  values : Vector (Option V) slots

namespace Group

variable {K : Type u} {V : Type v} {slots : Nat} [Key K]

/-- The group whose slots are vacant and have never held an entry. -/
def empty : Group K V slots where
  keys := Vector.replicate slots Key.vacant
  values := Vector.replicate slots none

section Decidable

variable [DecidableEq K]

/-- The number of slots before the first vacant one. -/
def fill (g : Group K V slots) : Nat :=
  g.keys.toArray.findIdx fun key => key = Key.vacant

/-- The value of the entry in a slot. -/
def read (g : Group K V slots) (slot : Nat) : Except Fault V :=
  if inRange : slot < slots then
    if g.keys[slot] = Key.vacant then .error (.breach .vacantSlot)
    else
      match g.values[slot] with
      | some value => .ok value
      | none => .error (.breach .vacantSlot)
  else .error (.breach .slotIndex)

/-- Writes an entry into a slot. The slot before it must hold an entry. -/
def push (g : Group K V slots) (slot : Nat) (key : K) (value : V) :
    Except Fault (Group K V slots) :=
  if inRange : slot < slots then
    if slot ≠ 0 ∧ g.keys[slot - 1] = Key.vacant then .error (.breach .gap)
    else .ok ⟨g.keys.set slot key, g.values.set slot (some value)⟩
  else .error (.breach .slotIndex)

/-- The key and the value of the entry in a slot. -/
def entryAt (g : Group K V slots) (slot : Nat) : Except Fault (K × V) :=
  if inRange : slot < slots then (g.read slot).map fun value => (g.keys[slot], value)
  else .error (.breach .slotIndex)

/-- The entries in the slots before the first vacant one, read slot by slot. -/
def entries (g : Group K V slots) : Except Fault (List (K × V)) :=
  (List.range g.fill).mapM g.entryAt

/-- The keys in the slots before the first vacant one. -/
def liveKeys (g : Group K V slots) : List K :=
  g.keys.toList.take g.fill

end Decidable

/-- Copies what lies in the next slot into a slot. The last slot has none after it. -/
def pull {α : Type w} (xs : Vector α slots) (slot : Nat) : Vector α slots :=
  if next : slot + 1 < slots then xs.set slot xs[slot + 1] else xs

/-- Copies the key and the value of the next slot into a slot. -/
def shift (g : Group K V slots) (slot : Nat) : Group K V slots where
  keys := pull g.keys slot
  values := pull g.values slot

/-- Moves what lies after a slot one slot to the left, one slot after another, and vacates the last
slot. The value of the last slot is left behind in it. -/
def remove (g : Group K V slots) (slot : Nat) : Except Fault (Group K V slots) :=
  if slot < slots then
    let moved := (List.range' slot (slots - 1 - slot)).foldl shift g
    .ok ⟨moved.keys.setIfInBounds (slots - 1) Key.vacant, moved.values⟩
  else .error (.breach .slotIndex)

/-- Vacates every slot. The values are left behind. -/
def reset (g : Group K V slots) : Group K V slots where
  keys := Vector.replicate slots Key.vacant
  values := g.values

/-! ### Views -/

/-- The key and the value in each slot, vacant or not. -/
def contents (g : Group K V slots) : List (K × Option V) :=
  g.keys.toList.zip g.values.toList

/-- The entries of a group in slot order, up to the first vacant slot. -/
def toList [DecidableEq K] (g : Group K V slots) : List (K × V) :=
  (g.contents.takeWhile fun slot => slot.1 ≠ Key.vacant).filterMap
    fun slot => slot.2.map fun value => (slot.1, value)

/-- No entry comes after a vacant slot. -/
def Packed (g : Group K V slots) : Prop :=
  ∀ (i j : Nat) (inRange : j < slots) (before : i < j),
    g.keys[i] = Key.vacant → g.keys[j] = Key.vacant

/-- Every slot that holds an entry has its value. -/
def Written (g : Group K V slots) : Prop :=
  ∀ (i : Nat) (inRange : i < slots), g.keys[i] ≠ Key.vacant → g.values[i].isSome

end Group

end TwoChoice
