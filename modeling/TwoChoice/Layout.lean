import TwoChoice.Fault

/-!
# Memory layout

The bytes that a group of slots occupies, and the bound on a whole allocation of groups.

## Main Definitions

* `roundUp` — the first multiple of an alignment that is not below a size
* `Target` — the machine, as far as memory is concerned
* `Layout` — sizes and alignments of a key and a value, on a machine
* `Layout.groupBytes` — the size of a group
* `Layout.Fits` — the groups of a table fit one allocation

## Design Notes

A group holds its keys first and its values after them. The values begin at a multiple of
their alignment, and the group ends at a multiple of the larger alignment of the two.

The size of a cache line is fixed when a table is compiled for a machine. So the machine is part of
the layout, and it is an instance, so that it need be named only if it is not the common one.
-/

namespace TwoChoice

/-- The first multiple of `alignment` that is not below `size`. -/
def roundUp (size alignment : Nat) : Nat :=
  (size + alignment - 1) / alignment * alignment

/-- What the layout of memory owes to the machine that tables are compiled for. -/
class Target where
  /-- The bytes of a cache line, to which an array of groups is aligned. -/
  cacheLine : Nat
  /-- Their number is a power of two. -/
  isPowerOfTwo : cacheLine.isPowerOfTwo
  deriving DecidableEq, Repr

export Target (cacheLine)

theorem Target.cacheLine_pos (target : Target) : 0 < target.cacheLine :=
  Nat.pos_of_isPowerOfTwo target.isPowerOfTwo

/-- The machines with cache lines of 64 bytes. -/
instance Target.common : Target := ⟨64, ⟨6, rfl⟩⟩

/-- The machines of the vendor Apple, with cache lines of 128 bytes. -/
@[reducible] def Target.apple : Target := ⟨128, ⟨7, rfl⟩⟩

/-- The greatest number of bytes in one allocation. -/
def largestAllocation : Nat := 0x7FFFFFFFFFFFFFFF

/-- The bytes of a key and of a value, and the machine they are stored on. -/
structure Layout where
  /-- The size of a key. -/
  keyBytes : Nat
  /-- The alignment of a key. -/
  keyAlignment : Nat
  /-- The size of a value. -/
  valueBytes : Nat
  /-- The alignment of a value. -/
  valueAlignment : Nat
  /-- The machine. -/
  [target : Target]
  deriving DecidableEq, Repr

namespace Layout

/-- The alignment of a group. -/
def groupAlignment (l : Layout) : Nat :=
  max l.keyAlignment l.valueAlignment

/-- The size of a group of `slots` slots. -/
def groupBytes (l : Layout) (slots : Nat) : Nat :=
  roundUp (roundUp (l.keyBytes * slots) l.valueAlignment + l.valueBytes * slots) l.groupAlignment

/-- The bytes of one entry, without the padding of its group. -/
def entryBytes (l : Layout) : Nat :=
  l.keyBytes + l.valueBytes

/-- The size of an allocation of `groups` groups, which begins and ends on a cache line. -/
def allocationBytes (l : Layout) (slots groups : Nat) : Nat :=
  roundUp (groups * l.groupBytes slots) (max l.target.cacheLine l.groupAlignment)

/-- So many groups fit one allocation. -/
def Fits (l : Layout) (slots groups : Nat) : Prop :=
  l.allocationBytes slots groups ≤ largestAllocation

instance (l : Layout) (slots groups : Nat) : Decidable (l.Fits slots groups) :=
  inferInstanceAs (Decidable (_ ≤ _))

end Layout

end TwoChoice
