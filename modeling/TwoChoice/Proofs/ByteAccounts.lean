import TwoChoice.Proofs.Arrangement
import TwoChoice.Proofs.Measurements

/-!
# Accounts of bytes

The bytes of a table are those of its groups and of its header. Those of a group are the keys and
values of its slots, and padding. The bytes of vacant slots are reckoned from the number of slots
and the number of entries, and the bytes of all groups from the size of one. No product or
difference on the way gets out of range: the groups fit one allocation, which is tested when they
are allocated and at no other time, and there are never more entries than slots.

## Main Definitions

* `Table.Accounted` — what the bytes of a table come to, with no number out of range

## Main Statements

* `Table.Allocated.statistics_cases` — only too many comparisons keep statistics from being told
* `Table.Allocated.memoryUsage_grow` — growth takes up more bytes
* `Table.Reachable.accounted` — the bytes of reachable tables are accounted for
-/

namespace TwoChoice

universe u v

variable {K : Type u} {V : Type v} {slots : Nat} [Key K] [DecidableEq K]

namespace Table

variable {s : Scheme K} {t : Table K V slots} {fault : Fault} {m : Statistics}

namespace Allocated

/-- The vacant slots and the entries have all the bytes of the slots. -/
theorem vacantBytes_add (allocated : t.Allocated s) :
    (t.capacity * slots - t.size) * s.layout.entryBytes + t.size * s.layout.entryBytes =
      t.capacity * slots * s.layout.entryBytes := by
  rw [← Nat.add_mul, Nat.sub_add_cancel allocated.wellFormed.size_le]

/-- The slots have no more bytes than the groups. -/
theorem entryBytes_le (allocated : t.Allocated s) :
    t.capacity * slots * s.layout.entryBytes ≤ t.capacity * s.layout.groupBytes slots := by
  rw [Nat.mul_assoc]
  exact Nat.mul_le_mul_left _ (allocated.aligned.slots_mul_entryBytes_le slots)

/-- Statistics are told unless the comparisons of all lookups together cannot be counted. -/
theorem statistics_cases (allocated : t.Allocated s) :
    (∃ costs, t.statistics s = .ok (t.measurements s costs)) ∨
      Word.limit ≤ 2 * slots * t.size ∧ t.statistics s = .error (.breach .wordSum) := by
  have slots_lt : t.capacity * slots < Word.limit :=
    allocated.capacity_mul_slots_le.trans_lt (by decide)
  rw [allocated.wellFormed.statistics_eq allocated.capacity_lt allocated.fits allocated.aligned
    allocated.lookupCosts_eq, if_pos slots_lt]
  by_cases costs_lt : (t.toList.map fun entry => t.matchCost s entry.1).sum < Word.limit
  · rw [if_pos costs_lt]
    exact .inl ⟨_, rfl⟩
  · rw [if_neg costs_lt]
    exact .inr ⟨(Nat.le_of_not_lt costs_lt).trans allocated.sum_matchCost_le, rfl⟩

/-- Statistics that are told are measurements. -/
theorem exists_measurements (allocated : t.Allocated s) (told : t.statistics s = .ok m) :
    ∃ costs, m = t.measurements s costs := by
  obtain ⟨costs, told'⟩ | ⟨-, failed⟩ := allocated.statistics_cases
  · exact ⟨costs, Except.ok.inj (told.symm.trans told')⟩
  · cases told.symm.trans failed

/-- Growth that returns takes up more bytes. -/
theorem memoryUsage_grow (allocated : t.Allocated s) (returned : (t.grow s).result = .ok ()) :
    ∃ bytes bytes', t.memoryUsage s = .ok bytes ∧
      (t.grow s).table.memoryUsage s = .ok bytes' ∧ bytes < bytes' := by
  unfold grow at returned ⊢
  cases grew : t.grown s with
  | error fault =>
    rw [grew] at returned
    cases returned
  | ok larger =>
    refine ⟨_, _, allocated.memoryUsage_eq, (fits_of_grown grew).bytes_eq, ?_⟩
    apply Nat.add_lt_add_right
    exact Nat.mul_lt_mul_of_pos_right (capacity_grown grew).1 allocated.sized

end Allocated

/-- The bytes of a table are accounted for, and no number that the account needs is out of range. -/
structure Accounted (s : Scheme K) (t : Table K V slots) : Prop where
  /-- A group ends as early as its alignments allow. -/
  arranged : ∃ offset, s.layout.Arranges slots offset (s.layout.groupBytes slots)
  /-- The slots can be counted. -/
  slots_lt : t.capacity * slots < Word.limit
  /-- There are not more entries than slots. -/
  size_le : t.size ≤ t.capacity * slots
  /-- The table occupies the bytes of its groups and of its header. -/
  memoryUsage_eq : t.memoryUsage s = .ok (t.capacity * s.layout.groupBytes slots + headerBytes)
  /-- These bytes can be counted. -/
  memoryUsage_lt : t.capacity * s.layout.groupBytes slots + headerBytes < Word.limit
  /-- So can the bytes of vacant slots. -/
  vacantBytes_lt : (t.capacity * slots - t.size) * s.layout.entryBytes < Word.limit
  /-- The slots have no more bytes than the groups. -/
  entryBytes_le :
    t.capacity * slots * s.layout.entryBytes ≤ t.capacity * s.layout.groupBytes slots
  /-- The slots that are measured are all slots. -/
  totalSlots_eq : ∀ m, t.statistics s = .ok m → m.totalSlots = t.capacity * slots
  /-- The bytes that are measured are those that the table occupies. -/
  totalBytes_eq : ∀ m, t.statistics s = .ok m → t.memoryUsage s = .ok m.totalBytes
  /-- The bytes that are wasted and those of the entries are the bytes of all slots. -/
  wastedBytes_add : ∀ m, t.statistics s = .ok m →
    m.wastedBytes + t.size * s.layout.entryBytes = t.capacity * slots * s.layout.entryBytes
  /-- The bytes that are wasted are bytes of groups. -/
  wastedBytes_le : ∀ m, t.statistics s = .ok m → m.wastedBytes ≤ m.totalBytes - headerBytes
  /-- No other sum than that of all comparisons can be out of range in a measurement. -/
  overflow : ∀ fault, t.statistics s = .error fault →
    fault = .breach .wordSum ∧ Word.limit ≤ 2 * slots * t.size
  /-- Growth that returns takes up more bytes. -/
  grows : (t.grow s).result = .ok () → ∃ bytes bytes', t.memoryUsage s = .ok bytes ∧
    (t.grow s).table.memoryUsage s = .ok bytes' ∧ bytes < bytes'

/-- The bytes of a reachable table are accounted for, whatever the sizes of its keys and values are
and how many slots a group has, if groups take up room at all. -/
theorem Reachable.accounted (reachable : Reachable s t) (natural : s.layout.Natural)
    (sized : 0 < s.layout.groupBytes slots) : t.Accounted s := by
  have allocated := reachable.allocated natural.aligned sized
  constructor
  case arranged => exact ⟨_, natural.arranges slots⟩
  case slots_lt => exact allocated.capacity_mul_slots_le.trans_lt (by decide)
  case size_le => exact allocated.wellFormed.size_le
  case memoryUsage_eq => exact allocated.memoryUsage_eq
  case memoryUsage_lt =>
    have largest : largestAllocation + headerBytes < Word.limit := by decide
    have bytes_le := allocated.fits.groups_mul_groupBytes_le
    omega
  case vacantBytes_lt => exact allocated.vacantBytes_lt
  case entryBytes_le => exact allocated.entryBytes_le
  case totalSlots_eq =>
    intro m told
    obtain ⟨costs, rfl⟩ := allocated.exists_measurements told
    rfl
  case totalBytes_eq =>
    intro m told
    obtain ⟨costs, rfl⟩ := allocated.exists_measurements told
    exact allocated.memoryUsage_eq
  case wastedBytes_add =>
    intro m told
    obtain ⟨costs, rfl⟩ := allocated.exists_measurements told
    exact allocated.vacantBytes_add
  case wastedBytes_le =>
    intro m told
    obtain ⟨costs, rfl⟩ := allocated.exists_measurements told
    show _ ≤ t.capacity * s.layout.groupBytes slots + headerBytes - headerBytes
    rw [Nat.add_sub_cancel]
    exact (Nat.le_of_add_right_le allocated.vacantBytes_add.le).trans allocated.entryBytes_le
  case overflow =>
    intro fault failed
    obtain ⟨costs, told⟩ | ⟨tooMany, failed'⟩ := allocated.statistics_cases
    · cases failed.symm.trans told
    · exact ⟨Except.error.inj (failed.symm.trans failed'), tooMany⟩
  case grows => exact allocated.memoryUsage_grow

/-- A table whose groups of one slot have four bytes of padding between the key and the value. -/
def padded : Table ZeroVacant UInt64 1 :=
  (Operation.run Scheme.ofWords Accumulation.listing [.insert ⟨1⟩ 10, .insert ⟨2⟩ 20]
    ⟨empty 8, 0⟩).2.table

theorem reachable_padded : Reachable Scheme.ofWords padded :=
  Reachable.run_empty Accumulation.listing (by decide) (by simp [Operation.Legal]) 0

/-- Eight groups and the header occupy 160 bytes. The six vacant slots waste 72 of them, the entries
take up 24, and 32 are padding. Growth takes up more. -/
theorem accounted_padded :
    Reachable Scheme.ofWords padded ∧ Scheme.ofWords.layout.Natural ∧
      0 < Scheme.ofWords.layout.groupBytes 1 ∧
      (∃ m, padded.statistics Scheme.ofWords = .ok m ∧ m.totalBytes = 160 ∧ m.wastedBytes = 72) ∧
      ∃ bytes, (padded.grow Scheme.ofWords).table.memoryUsage Scheme.ofWords = .ok bytes ∧
        160 < bytes := by
  have natural : Scheme.ofWords.layout.Natural := ⟨⟨2, rfl⟩, ⟨3, rfl⟩⟩
  have sized : 0 < Scheme.ofWords.layout.groupBytes 1 := by decide
  have accounted := reachable_padded.accounted natural sized
  have size_eq : padded.size = 2 := by decide +kernel
  have capacity_eq : padded.capacity = 8 := by decide +kernel
  have bytes_eq : padded.memoryUsage Scheme.ofWords = .ok 160 := by decide +kernel
  refine ⟨reachable_padded, natural, sized, ?_, ?_⟩
  · cases told : padded.statistics Scheme.ofWords with
    | error fault =>
      have tooMany := (accounted.overflow fault told).2
      exact absurd tooMany (by decide +kernel)
    | ok m =>
      have total := (accounted.totalBytes_eq m told).symm.trans bytes_eq
      have wasted := accounted.wastedBytes_add m told
      rw [size_eq, capacity_eq] at wasted
      have wasted' : m.wastedBytes + 24 = 96 := wasted
      exact ⟨m, rfl, Except.ok.inj total, Nat.add_right_cancel wasted'⟩
  · obtain ⟨bytes, bytes', bytes_eq', larger_eq, more⟩ := accounted.grows (by decide +kernel)
    obtain rfl : bytes = 160 := Except.ok.inj (bytes_eq'.symm.trans bytes_eq)
    exact ⟨bytes', larger_eq, more⟩

end Table

end TwoChoice
