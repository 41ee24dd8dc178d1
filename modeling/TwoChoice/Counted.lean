import TwoChoice.Fault

/-!
# Counted results

A lookup counts the key comparisons it makes on a 64-bit counter that its caller owns. What it
leaves behind is a result and the counter, and the counter is there also when the result is a
fault.

## Main Definitions

* `Counted` — a result beside the comparison counter
* `fullCounter` — the counter that admits no further comparison
* `Counted.andThen` — goes on with a result without comparing any more keys
* `Counted.measured` — a result with the number of comparisons made for it
* `Counted.each` — lookups one after another, up to the first fault
-/

namespace TwoChoice

universe u v

/-- A result together with the comparison counter after it was found. -/
structure Counted (α : Type u) where
  /-- The result, or why there is none. -/
  result : Except Fault α
  /-- The comparison counter afterwards. -/
  counter : UInt64

/-- The greatest counter. No comparison can be counted on it. -/
def fullCounter : UInt64 := 0xFFFFFFFFFFFFFFFF

namespace Counted

variable {α : Type u} {β : Type v}

/-- Goes on with the result of a lookup and leaves its counter as it is. -/
def andThen (c : Counted α) (next : α → Except Fault β) : Counted β where
  result :=
    match c.result with
    | .ok a => next a
    | .error fault => .error fault
  counter := c.counter

/-- The result of a lookup together with the number of comparisons made for it since the counter
stood at `before`. -/
def measured (c : Counted α) (before : UInt64) : Counted (α × Nat) :=
  c.andThen fun a => .ok (a, (c.counter - before).toNat)

/-- Looks the elements of a list up one after another, each on the counter that the one before it
leaves, up to the first fault. -/
def each (next : α → UInt64 → Counted β) : List α → UInt64 → Counted (List β)
  | [], counter => ⟨.ok [], counter⟩
  | a :: rest, counter =>
    match next a counter with
    | ⟨.error fault, counter'⟩ => ⟨.error fault, counter'⟩
    | ⟨.ok b, counter'⟩ => (each next rest counter').andThen fun bs => .ok (b :: bs)

@[simp] theorem counter_andThen (c : Counted α) (next : α → Except Fault β) :
    (c.andThen next).counter = c.counter := rfl

theorem result_andThen_of_ok {c : Counted α} {a : α} (found : c.result = .ok a)
    (next : α → Except Fault β) : (c.andThen next).result = next a := by
  simp only [andThen, found]

theorem result_andThen_of_error {c : Counted α} {fault : Fault} (failed : c.result = .error fault)
    (next : α → Except Fault β) : (c.andThen next).result = .error fault := by
  simp only [andThen, failed]

end Counted

end TwoChoice
