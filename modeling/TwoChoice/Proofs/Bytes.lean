import TwoChoice.Proofs.Allocation
import TwoChoice.Proofs.Parallel

/-!
# Bytes of tables side by side

Parallel tables are measured alike, but for the numbers of bytes in their measurements, which depend
on the layouts. Under one layout these are the same, too. Under two layouts they may differ, but as
long as the groups of both tables fit one allocation both can be told.

## Main Definitions

* `Layout.Comparable` — two layouts under which the bytes of the same groups are related
* `Statistics.Alike` — two measurements that differ at most in their bytes

## Main Statements

* `Layout.comparable_self`, `Layout.comparable_of_fits` — layouts that are comparable
* `Table.Parallel.memoryUsage`, `Table.Parallel.statistics` — parallel tables are measured alike
-/

namespace TwoChoice

universe u u' v v'

namespace Word

variable {a b c : Nat}

theorem eq_of_mul (found : mul a b = .ok c) : c = a * b := by
  unfold mul at found
  split at found
  · exact (Except.ok.inj found).symm
  · cases found

theorem le_of_sub (found : sub a b = .ok c) : c ≤ a := by
  unfold sub at found
  split at found
  · rw [← Except.ok.inj found]
    exact Nat.sub_le a b
  · cases found

end Word

/-! ### Layouts -/

/-- Two layouts under which the bytes of as many groups are related, or cannot be told for the same
reason. -/
structure Layout.Comparable (B : Nat → Nat → Prop) (l l' : Layout) (slots capacity : Nat) :
    Prop where
  /-- The bytes of a table are related. -/
  table : Paired B
    ((Word.mul capacity (l.groupBytes slots)).bind fun bytes => Word.add bytes Table.headerBytes)
    ((Word.mul capacity (l'.groupBytes slots)).bind fun bytes => Word.add bytes Table.headerBytes)
  /-- So are the bytes of the keys and values of some of its slots. -/
  vacant : ∀ n ≤ capacity * slots,
    Paired B (Word.mul n l.entryBytes) (Word.mul n l'.entryBytes)

namespace Layout

variable {l l' : Layout} {slots capacity : Nat}

/-- Every layout is comparable with itself. -/
theorem comparable_self (l : Layout) (slots capacity : Nat) :
    Comparable Eq l l slots capacity where
  table := .of_eq rfl
  vacant _ _ := .of_eq rfl

/-- Any two layouts under which groups fit one allocation are comparable, if nothing is asked of the
numbers. -/
theorem comparable_of_fits (aligned : l.Aligned) (aligned' : l'.Aligned)
    (fits : l.Fits slots capacity) (fits' : l'.Fits slots capacity) :
    Comparable (fun _ _ => True) l l' slots capacity where
  table := by
    rw [fits.bytes_eq, fits'.bytes_eq]
    exact .ok trivial
  vacant n le := by
    rw [Word.mul_of_lt (fits.mul_entryBytes_lt aligned le),
      Word.mul_of_lt (fits'.mul_entryBytes_lt aligned' le)]
    exact .ok trivial

end Layout

/-! ### Measurements -/

/-- Two measurements that differ at most in their numbers of bytes, which are related. -/
structure Statistics.Alike (B : Nat → Nat → Prop) (m m' : Statistics) : Prop where
  /-- There are equally many entries. -/
  populated_eq : m.populated = m'.populated
  /-- There are equally many groups. -/
  groups_eq : m.groups = m'.groups
  /-- They are equally wide. -/
  slotsPerGroup_eq : m.slotsPerGroup = m'.slotsPerGroup
  /-- There are equally many slots. -/
  totalSlots_eq : m.totalSlots = m'.totalSlots
  /-- There are equally many full groups. -/
  fullGroups_eq : m.fullGroups = m'.fullGroups
  /-- The shares of slots in use are the same. -/
  slotUtilization_eq : m.slotUtilization = m'.slotUtilization
  /-- Lookups cost the same on average. -/
  meanProbes_eq : m.meanProbes = m'.meanProbes
  /-- Lookups cost the same at most. -/
  maxProbes_eq : m.maxProbes = m'.maxProbes
  /-- The bytes of the tables are related. -/
  totalBytes : B m.totalBytes m'.totalBytes
  /-- The bytes of vacant slots are related. -/
  wastedBytes : B m.wastedBytes m'.wastedBytes

/-- Measurements with the same bytes are the same. -/
theorem Statistics.Alike.eq {m m' : Statistics} (alike : m.Alike Eq m') : m = m' := by
  obtain ⟨populated, groups, slotsPerGroup, totalSlots, fullGroups, utilization, mean, max, bytes,
    wasted⟩ := alike
  cases m
  cases m'
  congr

namespace Table.Parallel

variable {K : Type u} {K' : Type u'} {V : Type v} {V' : Type v'} {slots : Nat} [Key K] [Key K']
variable {M : K → K' → Prop} {R : V → V' → Prop} {B : Nat → Nat → Prop} {s : Scheme K}
variable {s' : Scheme K'} {t : Table K V slots} {t' : Table K' V' slots}

theorem memoryUsage (parallel : t.Parallel M R t')
    (comparable : s.layout.Comparable B s'.layout slots t.capacity) :
    Paired B (t.memoryUsage s) (t'.memoryUsage s') := by
  unfold Table.memoryUsage
  rw [← parallel.capacity_eq]
  exact comparable.table

variable [DecidableEq K] [DecidableEq K']

/-- The measurements of parallel tables differ at most in their numbers of bytes. -/
theorem statistics (parallel : t.Parallel M R t') (alike : Scheme.Alike M s s')
    (comparable : s.layout.Comparable B s'.layout slots t.capacity) :
    Paired (Statistics.Alike B) (t.statistics s) (t'.statistics s') := by
  unfold Table.statistics
  rw [← parallel.capacity_eq, ← parallel.size_eq, ← parallel.lookupCosts_eq alike,
    ← parallel.countFull_eq alike.toMatching]
  refine (Paired.of_self fun _ found => Word.eq_of_mul found).bind ?_
  rintro totalSlots _ ⟨rfl, slots_eq⟩
  refine (Paired.of_eq rfl).bind ?_
  rintro fullGroups _ rfl
  refine (Paired.of_eq rfl).bind ?_
  rintro costs _ rfl
  refine (Paired.of_eq rfl).bind ?_
  rintro totalProbes _ rfl
  refine (parallel.memoryUsage comparable).bind fun totalBytes totalBytes' total => ?_
  refine (Paired.of_self fun _ found => Word.le_of_sub found).bind ?_
  rintro vacant _ ⟨rfl, le⟩
  refine (comparable.vacant vacant (slots_eq ▸ le)).bind fun wasted wasted' waste => ?_
  exact .ok ⟨rfl, rfl, rfl, rfl, rfl, rfl, rfl, rfl, total, waste⟩

end Table.Parallel

end TwoChoice
