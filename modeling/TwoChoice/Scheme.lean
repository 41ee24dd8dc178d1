import TwoChoice.Hash
import TwoChoice.Key
import TwoChoice.Layout

/-!
# Schemes

What a table is told about its entries: how keys are hashed and how many bytes an entry takes.

## Main Definitions

* `Scheme` — a hash function and a memory layout
* `Scheme.ofMixer` — the scheme that mixes the bit patterns of keys
-/

namespace TwoChoice

universe u

/-- How keys are hashed, and the bytes of keys and values. Any function may serve as the hash;
the better it mixes, the later a table has to grow. -/
structure Scheme (K : Type u) where
  /-- The hash of a key. Its lower and its upper half each name a group. -/
  hash : K → UInt64
  /-- The sizes and alignments of keys and values. -/
  layout : Layout

/-- The scheme that hashes a key by mixing its bit pattern. -/
def Scheme.ofMixer {K : Type u} [Key K] (mix : UInt64 → UInt64) (layout : Layout) : Scheme K where
  hash key := mix (Key.bits key)
  layout := layout

end TwoChoice
