/-!
# Mixing words

Functions that spread the bits of a 64-bit word. A table reads two group indexes off the two
halves of a hash, so both halves have to be well mixed.

## Main Definitions

* `Hash.avalanche` — multiplication, addition and shifted exclusive or, in turns
* `Hash.foldedMultiply` — the two halves of a 128-bit product, combined
* `Hash.affine` — a multiple plus a constant, which mixes the upper bits only
-/

namespace TwoChoice.Hash

/-! ### Multiply, shift and add -/

/-- The odd multiplier of the first turn. -/
def firstMultiplier : UInt64 := 0x9E3779B185EBCA87

/-- The number added in the second turn. -/
def increment : UInt64 := 0xC2B2AE3D27D4EB4F

/-- The odd multiplier of the third turn. -/
def secondMultiplier : UInt64 := 0x27D4EB2F165667C5

/-- Combines a word with itself shifted right by eight bits. -/
def foldRight (x : UInt64) : UInt64 := x ^^^ (x >>> 8)

/-- Combines a word with itself shifted left by eight bits. -/
def foldLeft (x : UInt64) : UInt64 := x ^^^ (x <<< 8)

/-- Mixes a word in three turns, each of which can be undone. -/
def avalanche (x : UInt64) : UInt64 :=
  foldRight (foldLeft (foldRight (x * firstMultiplier) + increment) * secondMultiplier)

/-! ### Folded multiplication -/

/-- The exclusive or of the two halves of the 128-bit product of two words. -/
def foldedProduct (x y : UInt64) : UInt64 :=
  let product := x.toNat * y.toNat
  UInt64.ofNat product ^^^ UInt64.ofNat (product >>> 64)

/-- The word that stands for the seed. -/
def seedWord : UInt64 := 0x243F6A8885A308D3

/-- The word that stands for the initial state. -/
def stateWord : UInt64 := 0x082EFA98EC4E6C89

/-- The factor of the folded product. -/
def foldFactor : UInt64 := 0xC0AC29B7C97C50DD

/-- Mixes a word by one folded multiplication. -/
def foldedMultiply (x : UInt64) : UInt64 :=
  foldedProduct (x ^^^ seedWord ^^^ stateWord) foldFactor

/-! ### Affine maps -/

/-- A multiple of a word plus a constant, modulo `2 ^ 64`. -/
def affine (multiplier constant : UInt64) (x : UInt64) : UInt64 :=
  x * multiplier + constant

end TwoChoice.Hash
