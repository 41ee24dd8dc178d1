/-!
# Finite maps

Finitely many keys, each bound to one value. A table in which no key is stored twice answers as
such a map does, whatever its groups look like.

## Main Definitions

* `FiniteMap` — the bindings, in no order of importance
* `FiniteMap.value?` — the value that a key is bound to
* `FiniteMap.bind`, `FiniteMap.unbind` — change the binding of one key
-/

namespace TwoChoice

universe u v

/-- Finitely many keys, each bound to one value. -/
structure FiniteMap (K : Type u) (V : Type v) where
  /-- The keys and what they are bound to. -/
  bindings : List (K × V)
  /-- No key is bound twice. -/
  nodup : (bindings.map Prod.fst).Nodup

namespace FiniteMap

variable {K : Type u} {V : Type v}

/-- The map without bindings. -/
def empty : FiniteMap K V := ⟨[], List.nodup_nil⟩

/-- The number of bindings. -/
def size (m : FiniteMap K V) : Nat :=
  m.bindings.length

@[simp] theorem size_empty : (empty : FiniteMap K V).size = 0 := rfl

variable [DecidableEq K]

/-- The value that a key is bound to, if it is bound. -/
def value? (m : FiniteMap K V) (key : K) : Option V :=
  (m.bindings.find? fun binding => binding.1 = key).map Prod.snd

/-- The map without a binding of the key. -/
def unbind (m : FiniteMap K V) (key : K) : FiniteMap K V where
  bindings := m.bindings.filter fun binding => binding.1 ≠ key
  nodup := m.nodup.sublist (List.filter_sublist.map Prod.fst)

/-- The map with the key bound to a value, and to no other. -/
def bind (m : FiniteMap K V) (key : K) (value : V) : FiniteMap K V where
  bindings := (key, value) :: (m.unbind key).bindings
  nodup := by
    refine List.nodup_cons.mpr ⟨?_, (m.unbind key).nodup⟩
    intro mem
    obtain ⟨binding, mem', rfl⟩ := List.mem_map.mp mem
    exact absurd rfl (of_decide_eq_true (List.mem_filter.mp mem').2)

@[simp] theorem value?_empty (key : K) : (empty : FiniteMap K V).value? key = none := rfl

/-- Unbinding a key leaves the bindings of all others. -/
theorem value?_unbind (m : FiniteMap K V) (key other : K) :
    (m.unbind key).value? other = if other = key then none else m.value? other := by
  unfold value? unbind
  by_cases same : other = key
  · simp [same]
  · rw [if_neg same, List.find?_filter]
    congr 2
    funext binding
    by_cases found : binding.1 = other
    · simp [found, same]
    · simp [found]

/-- Binding a key leaves the bindings of all others. -/
theorem value?_bind (m : FiniteMap K V) (key other : K) (value : V) :
    (m.bind key value).value? other = if other = key then some value else m.value? other := by
  by_cases same : other = key
  · simp [value?, bind, same]
  · have rest := m.value?_unbind key other
    rw [if_neg same] at rest
    rw [if_neg same, ← rest]
    simp [value?, bind, Ne.symm same]

/-- A key that was not bound adds one binding. -/
theorem size_bind {m : FiniteMap K V} {key : K} (unbound : m.value? key = none) (value : V) :
    (m.bind key value).size = m.size + 1 := by
  have absent : ∀ binding ∈ m.bindings, binding.1 ≠ key := by
    simpa [value?] using unbound
  have kept : (m.unbind key).bindings = m.bindings :=
    List.filter_eq_self.mpr fun binding mem => by simpa using absent binding mem
  simp only [size, bind, List.length_cons, kept]

end FiniteMap

end TwoChoice
