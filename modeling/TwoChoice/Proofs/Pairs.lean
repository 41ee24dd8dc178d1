import Mathlib.Data.List.Forall2
import TwoChoice.Group.Lemmas
import TwoChoice.Scheme

/-!
# Groups side by side

Two groups of equal width whose keys, and perhaps whose values, are of different types. What a group
does to its slots never looks at a value, and of a key it asks only whether it is vacant and whether
it equals another. So if the keys of two groups correspond slot by slot, and the values of their
entries are related, both groups answer alike and stay that way. The value of a vacant slot is left
out of this: nothing is asked of it, and nothing said.

## Main Definitions

* `Paired` — two results that are the same fault, or related
* `Matching` — keys that correspond are told apart in the same way
* `Scheme.Alike` — they are hashed alike, too
* `SlotKeys` — two key slots that correspond, or are both vacant
* `EntryPair` — two entries whose keys correspond and whose values are related
* `Group.Parallel` — two groups that correspond slot by slot

## Main Statements

* `Group.Parallel.fill_eq` — both groups are equally full
* `Group.Parallel.entries` — the entries read from both are paired
* `Group.Parallel.push`, `Group.Parallel.remove` — updates keep them parallel

## Design Notes

The correspondence of keys is a parameter. Equality makes two groups agree slot by slot; equality of
the numbers that two integer formats store makes a group of one format parallel to a group of the
other. Vacant slots correspond by themselves, because two formats mark them by different numbers.
-/

namespace TwoChoice

universe u u' v v' w w' x x'

/-! ### Results -/

/-- Two results that are the same fault, or that are both there and related. -/
inductive Paired {α : Type w} {β : Type w'} (P : α → β → Prop) :
    Except Fault α → Except Fault β → Prop
  /-- Both results are there. -/
  | ok {a : α} {b : β} (related : P a b) : Paired P (.ok a) (.ok b)
  /-- Both are the same fault. -/
  | fault (fault : Fault) : Paired P (.error fault) (.error fault)

namespace Paired

variable {α : Type w} {β : Type w'} {γ : Type x} {δ : Type x'} {P : α → β → Prop}
variable {Q : γ → δ → Prop} {result : Except Fault α} {result' : Except Fault β}

/-- The two ways in which results are paired. -/
theorem cases (paired : Paired P result result') :
    (∃ fault, result = .error fault ∧ result' = .error fault) ∨
      ∃ a b, result = .ok a ∧ result' = .ok b ∧ P a b := by
  cases paired with
  | ok related => exact Or.inr ⟨_, _, rfl, rfl, related⟩
  | fault fault => exact Or.inl ⟨fault, rfl, rfl⟩

/-- The one result is a fault only if the other is the same fault. -/
theorem of_error {fault : Fault} (paired : Paired P result result')
    (failed : result = .error fault) : result' = .error fault := by
  subst failed
  cases paired with
  | fault => rfl

/-- The one result is there only if the other is, and is related to it. -/
theorem of_ok {a : α} (paired : Paired P result result') (found : result = .ok a) :
    ∃ b, result' = .ok b ∧ P a b := by
  subst found
  cases paired with
  | ok related => exact ⟨_, rfl, related⟩

theorem mono {P' : α → β → Prop} (paired : Paired P result result')
    (weaker : ∀ a b, P a b → P' a b) : Paired P' result result' := by
  cases paired with
  | ok related => exact .ok (weaker _ _ related)
  | fault fault => exact .fault fault

/-- What is made of paired results is paired. -/
theorem map {f : α → γ} {f' : β → δ} (paired : Paired P result result')
    (related : ∀ a b, P a b → Q (f a) (f' b)) : Paired Q (result.map f) (result'.map f') := by
  cases paired with
  | ok here => exact .ok (related _ _ here)
  | fault fault => exact .fault fault

/-- What follows paired results is paired. -/
theorem bind {next : α → Except Fault γ} {next' : β → Except Fault δ}
    (paired : Paired P result result') (later : ∀ a b, P a b → Paired Q (next a) (next' b)) :
    Paired Q (result.bind next) (result'.bind next') := by
  cases paired with
  | ok related => exact later _ _ related
  | fault fault => exact .fault fault

/-- A result is paired with itself, by equality and by what holds of it. -/
theorem of_self {P : α → Prop} {result : Except Fault α} (holds : ∀ a, result = .ok a → P a) :
    Paired (fun a b => a = b ∧ P a) result result := by
  cases result with
  | ok a => exact .ok ⟨rfl, holds a rfl⟩
  | error fault => exact .fault fault

theorem of_eq {result result' : Except Fault α} (same : result = result') :
    Paired Eq result result' := by
  subst same
  cases result with
  | ok a => exact .ok rfl
  | error fault => exact .fault fault

/-- Results that are paired by equality are equal. -/
theorem eq {result result' : Except Fault α} (paired : Paired Eq result result') :
    result = result' := by
  cases paired with
  | ok same => rw [same]
  | fault fault => rfl

/-- If the elements of two lists have paired results, so have the lists. -/
theorem mapM {f : α → Except Fault γ} {f' : β → Except Fault δ} {l : List α} {l' : List β}
    (elements : List.Forall₂ P l l') (each : ∀ a b, P a b → Paired Q (f a) (f' b)) :
    Paired (List.Forall₂ Q) (l.mapM f) (l'.mapM f') := by
  induction elements with
  | nil => exact .ok .nil
  | cons here _ ih =>
    rw [List.mapM_cons, List.mapM_cons]
    refine (each _ _ here).bind fun a b first => ?_
    exact ih.bind fun as bs rest => .ok (.cons first rest)

end Paired

/-! ### Keys -/

variable {K : Type u} {K' : Type u'} {V : Type v} {V' : Type v'} {slots : Nat}
variable [Key K] [Key K']

/-- Keys that correspond are vacant together and equal together. -/
structure Matching (M : K → K' → Prop) : Prop where
  /-- One of two keys that correspond is vacant exactly if the other is. -/
  vacant_iff : ∀ {a b}, M a b → (a = Key.vacant ↔ b = Key.vacant)
  /-- Two keys are equal exactly if the keys to which they correspond are. -/
  eq_iff : ∀ {a b c d}, M a b → M c d → (a = c ↔ b = d)

/-- Two schemes for keys that match and are hashed alike. -/
structure Scheme.Alike (M : K → K' → Prop) (s : Scheme K) (s' : Scheme K') : Prop extends
    Matching M where
  /-- Keys that correspond have the same hash. -/
  hash_eq : ∀ {a b}, M a b → s.hash a = s'.hash b

/-- A scheme is alike to any other that hashes the same keys in the same way. -/
theorem Scheme.alike_of_hash_eq {s s' : Scheme K} (hashes : ∀ key, s.hash key = s'.hash key) :
    Alike Eq s s' where
  vacant_iff := by
    rintro a _ rfl
    exact Iff.rfl
  eq_iff := by
    rintro a _ c _ rfl rfl
    exact Iff.rfl
  hash_eq := by
    rintro a _ rfl
    exact hashes a

/-- Two key slots that correspond, or that are both vacant. -/
def SlotKeys (M : K → K' → Prop) (a : K) (b : K') : Prop :=
  M a b ∨ a = Key.vacant ∧ b = Key.vacant

/-- Two entries whose keys correspond and whose values are related. -/
def EntryPair (M : K → K' → Prop) (R : V → V' → Prop) (e : K × V) (e' : K' × V') : Prop :=
  M e.1 e'.1 ∧ R e.2 e'.2

namespace SlotKeys

variable {M : K → K' → Prop} {a c : K} {b d : K'}

/-- A slot that is not vacant holds keys that correspond. -/
theorem matched (keys : SlotKeys M a b) (live : a ≠ Key.vacant) : M a b :=
  keys.resolve_right fun vacant => live vacant.1

theorem vacant_iff (keys : SlotKeys M a b) (matching : Matching M) :
    a = Key.vacant ↔ b = Key.vacant := by
  rcases keys with pair | ⟨rfl, rfl⟩
  · exact matching.vacant_iff pair
  · exact iff_of_true rfl rfl

/-- A slot holds a key exactly if the other slot holds the key that corresponds to it. -/
theorem eq_iff (keys : SlotKeys M a b) (matching : Matching M) (pair : M c d) :
    a = c ↔ b = d := by
  rcases keys with here | ⟨rfl, rfl⟩
  · exact matching.eq_iff here pair
  · rw [eq_comm, matching.vacant_iff pair, eq_comm]

end SlotKeys

/-! ### Groups -/

namespace Group

/-- Two groups that correspond slot by slot. The values of vacant slots are left out. -/
structure Parallel (M : K → K' → Prop) (R : V → V' → Prop) (g : Group K V slots)
    (g' : Group K' V' slots) : Prop where
  /-- The keys correspond, or are both vacant. -/
  keys : ∀ (i : Nat) (inRange : i < slots), SlotKeys M g.keys[i] g'.keys[i]
  /-- The values of entries are related. -/
  values : ∀ (i : Nat) (inRange : i < slots), g.keys[i] ≠ Key.vacant →
    Option.Rel R g.values[i] g'.values[i]

variable {M : K → K' → Prop} {R : V → V' → Prop} {g : Group K V slots} {g' : Group K' V' slots}
variable {slot : Nat} {key : K} {key' : K'} {value : V} {value' : V'}

theorem parallel_empty : (empty : Group K V slots).Parallel M R (empty : Group K' V' slots) where
  keys i inRange := Or.inr ⟨by simp [empty], by simp [empty]⟩
  values i inRange live := by
    simp [empty] at live

/-- Reset groups correspond, whatever values they are left with. -/
theorem parallel_reset (g : Group K V slots) (g' : Group K' V' slots) :
    g.reset.Parallel M R g'.reset where
  keys i inRange := Or.inr ⟨by simp [reset], by simp [reset]⟩
  values i inRange live := by
    simp [reset] at live

namespace Parallel

theorem remove (parallel : g.Parallel M R g') (slot : Nat) :
    Paired (Parallel M R) (g.remove slot) (g'.remove slot) := by
  by_cases inRange : slot < slots
  · obtain ⟨next, removed⟩ : ∃ next, g.remove slot = .ok next := ⟨_, if_pos inRange⟩
    obtain ⟨next', removed'⟩ : ∃ next', g'.remove slot = .ok next' := ⟨_, if_pos inRange⟩
    rw [removed, removed']
    refine .ok ⟨fun i before => ?_, fun i before live => ?_⟩
    · rw [keys_remove removed, keys_remove removed']
      split
      · exact parallel.keys i before
      · split
        · exact parallel.keys (i + 1) _
        · exact Or.inr ⟨rfl, rfl⟩
    · -- A value moves with its key, and the last slot has none any more.
      rw [keys_remove removed] at live
      rw [values_remove removed, values_remove removed']
      by_cases earlier : i < slot
      · rw [if_pos earlier] at live
        rw [if_pos earlier, if_pos earlier]
        exact parallel.values i before live
      · rw [if_neg earlier] at live
        rw [if_neg earlier, if_neg earlier]
        by_cases moved : i + 1 < slots
        · rw [dif_pos moved] at live
          rw [dif_pos moved, dif_pos moved]
          exact parallel.values (i + 1) moved live
        · rw [dif_neg moved] at live
          exact absurd rfl live
  · rw [Group.remove, if_neg inRange, Group.remove, if_neg inRange]
    exact .fault _

variable [DecidableEq K] [DecidableEq K']

/-- Parallel groups are equally full. -/
theorem fill_eq (parallel : g.Parallel M R g') (matching : Matching M) : g.fill = g'.fill := by
  refine (fill_eq_iff g'.fill_le).mpr ⟨fun i before => ?_, fun room => ?_⟩
  · rw [Ne, (parallel.keys i _).vacant_iff matching]
    exact key_ne_vacant_of_lt_fill before
  · rw [(parallel.keys _ room).vacant_iff matching]
    exact key_fill_eq_vacant room

theorem read (parallel : g.Parallel M R g') (matching : Matching M) (slot : Nat) :
    Paired R (g.read slot) (g'.read slot) := by
  unfold Group.read
  by_cases inRange : slot < slots
  · rw [dif_pos inRange, dif_pos inRange]
    have vacant_iff := (parallel.keys slot inRange).vacant_iff matching
    by_cases vacant : g.keys[slot] = Key.vacant
    · rw [if_pos vacant, if_pos (vacant_iff.mp vacant)]
      exact .fault _
    · rw [if_neg vacant, if_neg (mt vacant_iff.mpr vacant)]
      have related := parallel.values slot inRange vacant
      generalize g.values[slot] = found, g'.values[slot] = found' at related
      cases related with
      | some related => exact .ok related
      | none => exact .fault _
  · rw [dif_neg inRange, dif_neg inRange]
    exact .fault _

/-- The entries of both groups before the fill are paired. -/
theorem entryAt (parallel : g.Parallel M R g') (matching : Matching M) {i : Nat}
    (before : i < g.fill) : Paired (EntryPair M R) (g.entryAt i) (g'.entryAt i) := by
  have inRange := Nat.lt_of_lt_of_le before g.fill_le
  have pair := (parallel.keys i inRange).matched (key_ne_vacant_of_lt_fill before)
  unfold Group.entryAt
  rw [dif_pos inRange, dif_pos inRange]
  exact (parallel.read matching i).map fun _ _ related => ⟨pair, related⟩

/-- What is read from both groups, slot by slot, is paired. -/
theorem entries (parallel : g.Parallel M R g') (matching : Matching M) :
    Paired (List.Forall₂ (EntryPair M R)) g.entries g'.entries := by
  have positions : List.Forall₂ (fun i j => i < g.fill ∧ i = j) (List.range g.fill)
      (List.range g.fill) :=
    List.forall₂_same.mpr fun i mem => ⟨List.mem_range.mp mem, rfl⟩
  unfold Group.entries
  rw [← parallel.fill_eq matching]
  refine Paired.mapM positions ?_
  rintro i _ ⟨before, rfl⟩
  exact parallel.entryAt matching before

/-- The keys of the entries correspond. -/
theorem liveKeys (parallel : g.Parallel M R g') (matching : Matching M) :
    List.Forall₂ M g.liveKeys g'.liveKeys := by
  have fill_eq := parallel.fill_eq matching
  have le := g.fill_le
  rw [List.forall₂_iff_get]
  refine ⟨by simp [Group.liveKeys, fill_eq], fun i inLeft inRight => ?_⟩
  have before : i < g.fill := by
    rw [Group.liveKeys, List.length_take] at inLeft
    omega
  simp only [Group.liveKeys, List.get_eq_getElem, List.getElem_take, Vector.getElem_toList]
  exact (parallel.keys i _).matched (key_ne_vacant_of_lt_fill before)

/-- Writing entries that are paired into the same slot keeps groups parallel. -/
theorem push (parallel : g.Parallel M R g') (matching : Matching M) (pair : M key key')
    (related : R value value') (slot : Nat) :
    Paired (Parallel M R) (g.push slot key value) (g'.push slot key' value') := by
  unfold Group.push
  by_cases inRange : slot < slots
  · rw [dif_pos inRange, dif_pos inRange]
    have gap_iff : (slot ≠ 0 ∧ g.keys[slot - 1] = Key.vacant) ↔
        slot ≠ 0 ∧ g'.keys[slot - 1] = Key.vacant :=
      and_congr_right fun _ => (parallel.keys (slot - 1) _).vacant_iff matching
    by_cases gap : slot ≠ 0 ∧ g.keys[slot - 1] = Key.vacant
    · rw [if_pos gap, if_pos (gap_iff.mp gap)]
      exact .fault _
    · rw [if_neg gap, if_neg (mt gap_iff.mpr gap)]
      refine .ok ⟨fun i before => ?_, fun i before live => ?_⟩
      · simp only [Vector.getElem_set]
        split
        · exact Or.inl pair
        · exact parallel.keys i before
      · simp only [Vector.getElem_set] at live ⊢
        by_cases atSlot : slot = i
        · rw [if_pos atSlot, if_pos atSlot]
          exact .some related
        · rw [if_neg atSlot] at live
          rw [if_neg atSlot, if_neg atSlot]
          exact parallel.values i before live
  · rw [dif_neg inRange, dif_neg inRange]
    exact .fault _

end Parallel

end Group

end TwoChoice
