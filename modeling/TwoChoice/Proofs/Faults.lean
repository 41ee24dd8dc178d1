import TwoChoice.Proofs.Measurements

/-!
# Documented faults

Every operation of a reachable table fails with one of a few faults, if it fails, and which ones
they are is known from the operation: the vacant key is refused, a key is missing, a counter is
full, a total leaves its range, or there is no capacity or no allocation for a growth. The
conditions that the operations test of themselves are among none of them, so none of these is ever
violated. This holds as long as groups take up room, because their number is bounded by that of the
bytes they occupy and by nothing else.

## Main Definitions

* `FailsOnly` — a result that fails with one of some faults, if it fails
* `Operation.faults` — the faults that an operation is documented to fail with

## Main Statements

* `Table.WellFormed.failsOnly_lookup` — a lookup under any hash fails only where its miss does, or
  because the counter is full
* `Table.Allocated.failsOnly_perform` — operations fail with their documented faults only
* `Table.Reachable.only_documented_faults` — the same of reachable tables, and what is counted and
  drawn of them is in range
-/

namespace TwoChoice

universe u v w x

/-! ### Results that fail with some faults only -/

/-- A result that fails with one of some faults, if it fails. -/
def FailsOnly {α : Type x} (faults : List Fault) (result : Except Fault α) : Prop :=
  ∀ fault, result = .error fault → fault ∈ faults

namespace FailsOnly

variable {α : Type w} {β : Type x} {faults : List Fault} {fault : Fault}
variable {result : Except Fault α} {counter : UInt64}

theorem ok (a : α) : FailsOnly faults (.ok a) := by
  intro fault failed
  cases failed

theorem of_eq_ok {a : α} (returned : result = .ok a) : FailsOnly faults result :=
  returned ▸ ok a

theorem error (mem : fault ∈ faults) : FailsOnly faults (.error fault : Except Fault α) := by
  intro fault' failed
  cases failed
  exact mem

/-- What is made of a result fails with the faults of the result. -/
theorem map (only : FailsOnly faults result) (f : α → β) : FailsOnly faults (result.map f) := by
  cases result with
  | ok a => exact ok (f a)
  | error fault => exact error (only fault rfl)

/-- What follows a result fails with the faults of either. -/
theorem bind {next : α → Except Fault β} (only : FailsOnly faults result)
    (later : ∀ a, result = .ok a → FailsOnly faults (next a)) :
    FailsOnly faults (result.bind next) := by
  cases result with
  | ok a => exact later a rfl
  | error fault => exact error (only fault rfl)

/-- Comparisons that are charged for a result add the fault of a full counter. -/
theorem charge (only : FailsOnly faults result) (mem : Fault.counterOverflow ∈ faults)
    (cost : Nat) : FailsOnly faults (Counted.charge cost result counter).result := by
  unfold Counted.charge
  split
  · exact only
  · exact error mem

end FailsOnly

variable {K : Type u} {V : Type v} {slots : Nat} {A : Type w} [Key K] [DecidableEq K]

/-! ### Totals -/

/-- Adding values up fails only because a total leaves its range. -/
theorem Accumulation.failsOnly_addAll (acc : Accumulation V A) (values : List V) (total : A) :
    FailsOnly [.totalOverflow] (acc.addAll total values) := by
  induction values generalizing total with
  | nil => exact .ok total
  | cons value rest ih =>
    rw [addAll]
    cases acc.add total value with
    | none => exact .error (List.mem_singleton.mpr rfl)
    | some total' => exact ih total'

namespace Table

variable {s : Scheme K} {t : Table K V slots} {key : K} {value : V} {faults : List Fault}

/-! ### Lookups -/

namespace WellFormed

/-- What a lookup under any hash goes on to fails only where a miss does, or because the counter is
full. -/
theorem failsOnly_lookup {α : Type x} (wellFormed : t.WellFormed s) (key : K)
    (hash counter : UInt64) {next : Option Position → Except Fault α}
    (mem : Fault.counterOverflow ∈ faults) (miss : FailsOnly faults (next none))
    (hit : ∀ p value, t.valueAt p = .ok value → FailsOnly faults (next (some p))) :
    FailsOnly faults ((t.locate key hash counter).andThen next).result := by
  by_cases vacant : key = Key.vacant
  · rw [locate, if_pos vacant]
    exact miss
  · rw [wellFormed.locate_eq vacant]
    cases found : t.firstMatch? key hash with
    | none =>
      dsimp only
      rw [Counted.andThen_charge]
      exact miss.charge mem _
    | some place =>
      obtain ⟨-, value, stored⟩ := wellFormed.entryAt?_of_match vacant found
      dsimp only
      rw [Counted.andThen_charge]
      exact (hit _ _ (wellFormed.valueAt_eq stored)).charge mem _

/-- What a lookup of a key that is taken to be stored goes on to fails only because the key is
missing or the counter is full. -/
theorem failsOnly_lookupUnchecked {α : Type x} (wellFormed : t.WellFormed s)
    (live : key ≠ Key.vacant) (hash counter : UInt64) {next : Position → Except Fault α}
    (hit : ∀ p value, t.valueAt p = .ok value →
      FailsOnly [.missingKey, .counterOverflow] (next p)) :
    FailsOnly [.missingKey, .counterOverflow]
      ((t.locateUnchecked key hash counter).andThen next).result := by
  have full : Fault.counterOverflow ∈ [Fault.missingKey, .counterOverflow] := by decide
  rw [wellFormed.locateUnchecked_eq]
  cases found : t.firstMatch? key hash with
  | none =>
    dsimp only
    rw [Counted.andThen_charge]
    exact (FailsOnly.error (by decide)).charge full _
  | some place =>
    obtain ⟨-, value, stored⟩ := wellFormed.entryAt?_of_match live found
    dsimp only
    rw [Counted.andThen_charge]
    exact (hit _ _ (wellFormed.valueAt_eq stored)).charge full _

theorem failsOnly_getIndexed (wellFormed : t.WellFormed s) (key : K) (hash counter : UInt64) :
    FailsOnly [.counterOverflow] (t.getIndexed key hash counter).result := by
  refine wellFormed.failsOnly_lookup key hash counter (by decide) (.ok none) ?_
  intro p value told
  show FailsOnly _ ((t.valueAt p).map some)
  rw [told]
  exact .ok (some value)

theorem failsOnly_findIndexed (wellFormed : t.WellFormed s) (key : K) (hash counter : UInt64) :
    FailsOnly [.missingKey, .counterOverflow] (t.findIndexed key hash counter).result := by
  refine wellFormed.failsOnly_lookup key hash counter (by decide) (.error (by decide)) ?_
  intro p value told
  show FailsOnly _ (t.valueAt p)
  rw [told]
  exact .ok value

theorem failsOnly_findIndexedUnchecked (wellFormed : t.WellFormed s) (live : key ≠ Key.vacant)
    (hash counter : UInt64) :
    FailsOnly [.missingKey, .counterOverflow]
      (t.findIndexedUnchecked key hash counter).result := by
  refine wellFormed.failsOnly_lookupUnchecked live hash counter ?_
  intro p value told
  rw [told]
  exact .ok value

/-! ### Updates -/

theorem failsOnly_insert (wellFormed : t.WellFormed s) (live : key ≠ Key.vacant) (value : V) :
    FailsOnly [.capacityOverflow, .layoutOverflow] (t.insert s key value).result := by
  have insertion := wellFormed.insertion_insert key value
  generalize t.insert s key value = update at insertion
  cases insertion with
  | refused vacant => exact absurd vacant live
  | stored => exact .ok ()
  | stuck _ cause => exact .error (by simpa using cause)

theorem failsOnly_grow (wellFormed : t.WellFormed s) :
    FailsOnly [.capacityOverflow, .layoutOverflow] (t.grow s).result := by
  rcases wellFormed.grow_cases with ⟨fault, cause, grow_eq⟩ | ⟨larger, -, -, -, grow_eq⟩
  · rw [grow_eq]
    exact .error (by simpa using cause)
  · rw [grow_eq]
    exact .ok ()

end WellFormed

/-- Erasing a key fails only where a miss does, if its comparisons can be counted. -/
theorem Erasure.failsOnly {α : Type x} {miss : Except Fault α} {hit : α}
    {u : Updated K V slots α} (erasure : Erasure t key miss hit u)
    (counted : 2 * slots < Word.limit) (only : FailsOnly faults miss) :
    FailsOnly faults u.result := by
  cases erasure with
  | absent => exact only
  | removed => exact .ok hit
  | overflowed tooMany => exact absurd counted (Nat.not_lt.mpr tooMany)

omit [DecidableEq K] in
/-- Making a table fails only for want of a capacity or of an allocation. -/
theorem failsOnly_withGroups (s : Scheme K) (groups : Nat) :
    FailsOnly [.capacityOverflow, .layoutOverflow]
      (withGroups s groups : Except Fault (Table K V slots)) := by
  refine FailsOnly.bind ?_ ?_
  · unfold Capacity.ofGroups
    dsimp only
    split
    · exact .ok _
    · exact .error (by decide)
  · intro capacity found
    have usable := Capacity.usable_of_ofGroups found
    rw [allocate, if_neg (not_not.mpr usable.isPowerOfTwo)]
    split
    · exact .error (by decide)
    · exact .ok _

end Table

/-! ### Operations -/

/-- The faults that an operation is documented to fail with. -/
def Operation.faults : Operation K V → List Fault
  | insert key _ => if key = Key.vacant then [.vacantKey] else [.capacityOverflow, .layoutOverflow]
  | get _ | contains _ | getIndexed _ _ => [.counterOverflow]
  | find _ | findUnchecked _ | findIndexed _ _ | findIndexedUnchecked _ _ =>
    [.missingKey, .counterOverflow]
  | eraseUnchecked _ => [.missingKey]
  | grow => [.capacityOverflow, .layoutOverflow]
  | total => [.totalOverflow]
  | _ => []

/-- A violated condition is no documented fault. -/
theorem Operation.breach_notMem_faults (op : Operation K V) (cause : Breach) :
    Fault.breach cause ∉ op.faults := by
  cases op <;> simp [faults]
  split <;> simp

namespace Table

variable {s : Scheme K} {t : Table K V slots}

/-- Operations fail with their documented faults only. -/
theorem Allocated.failsOnly_perform (allocated : t.Allocated s)
    (few : 2 * slots * t.size < Word.limit) (acc : Accumulation V A) {op : Operation K V}
    (legal : op.Legal) (counter : UInt64) :
    FailsOnly op.faults (op.perform s acc ⟨t, counter⟩).answer := by
  have wellFormed := allocated.wellFormed
  have counted := allocated.two_mul_slots_lt
  cases op with
  | insert key value =>
    refine FailsOnly.map ?_ _
    by_cases vacant : key = Key.vacant
    · rw [Operation.faults, if_pos vacant, insert, if_pos vacant]
      exact .error (List.mem_singleton.mpr rfl)
    · rw [Operation.faults, if_neg vacant]
      exact wellFormed.failsOnly_insert vacant value
  | get key => exact (wellFormed.failsOnly_getIndexed key _ counter).map _
  | contains key =>
    refine FailsOnly.map ?_ _
    exact wellFormed.failsOnly_lookup key _ counter (by simp [Operation.faults]) (.ok _)
      fun _ _ _ => .ok _
  | find key => exact (wellFormed.failsOnly_findIndexed key _ counter).map _
  | findUnchecked key => exact (wellFormed.failsOnly_findIndexedUnchecked legal _ counter).map _
  | getIndexed key hash => exact (wellFormed.failsOnly_getIndexed key hash counter).map _
  | findIndexed key hash => exact (wellFormed.failsOnly_findIndexed key hash counter).map _
  | findIndexedUnchecked key hash =>
    exact (wellFormed.failsOnly_findIndexedUnchecked legal hash counter).map _
  | erase key =>
    exact ((wellFormed.erasure_erase key).failsOnly counted (.ok false)).map _
  | eraseUnchecked key =>
    exact ((wellFormed.erasure_eraseUnchecked legal).failsOnly counted
      (.error (List.mem_singleton.mpr rfl))).map _
  | prefetch key =>
    refine FailsOnly.map ?_ _
    rw [prefetch, wellFormed.candidateGroups_eq]
    exact .ok _
  | grow => exact wellFormed.failsOnly_grow.map _
  | memoryUsage => exact (FailsOnly.of_eq_ok allocated.memoryUsage_eq).map _
  | total =>
    refine FailsOnly.map ?_ _
    rw [total, wellFormed.entries_eq]
    exact acc.failsOnly_addAll _ _
  | copy =>
    rw [Operation.perform_copy]
    exact (FailsOnly.of_eq_ok (wellFormed.copy_eq allocated.fits)).map _
  | histogram => exact (FailsOnly.of_eq_ok (countFills_eq allocated.capacity_lt)).map _
  | chart => exact (FailsOnly.of_eq_ok (print_countFills allocated.capacity_lt)).map _
  | statistics => exact (FailsOnly.of_eq_ok (allocated.statistics_eq few)).map _
  | report => exact (FailsOnly.of_eq_ok (allocated.statistics_eq few)).map _
  | _ => exact .ok _

/-- On a reachable table operations fail with their documented faults only, and a violated condition
is none of these; a copy of the table can be allocated; and what is counted and drawn of it is in
range. -/
theorem Reachable.only_documented_faults (reachable : Reachable s t) (aligned : s.layout.Aligned)
    (sized : 0 < s.layout.groupBytes slots) (few : 2 * slots * t.size < Word.limit) :
    (∀ (acc : Accumulation V A) (op : Operation K V), op.Legal → ∀ counter fault,
        (op.perform s acc ⟨t, counter⟩).answer = .error fault →
          fault ∈ op.faults ∧ ∀ cause, fault ≠ .breach cause) ∧
      (∀ groups fault, (withGroups s groups : Except Fault (Table K V slots)) = .error fault →
        fault = .capacityOverflow ∨ fault = .layoutOverflow) ∧
      (allocate s.layout t.capacity : Except Fault (Table K V slots)) = .ok (empty t.capacity) ∧
      t.Measurable := by
  have allocated := reachable.allocated aligned sized
  refine ⟨?_, ?_, reachable.allocate_eq, allocated.measurable⟩
  · intro acc op legal counter fault failed
    have documented := allocated.failsOnly_perform few acc legal counter fault failed
    refine ⟨documented, ?_⟩
    rintro cause rfl
    exact op.breach_notMem_faults cause documented
  · intro groups fault failed
    simpa using failsOnly_withGroups s groups fault failed

/-- A table that has stored entries, lost one and grown. -/
def worn : Table ZeroVacant UInt64 2 :=
  (Operation.run Scheme.ofWords Accumulation.listing
    [.insert ⟨1⟩ 10, .insert ⟨2⟩ 20, .erase ⟨1⟩, .grow] ⟨empty 8, 0⟩).2.table

/-- Looking for the entry that was taken out fails because its key is missing, which is documented,
and what is counted of the table is in range. -/
theorem only_documented_faults_worn :
    (Reachable Scheme.ofWords worn ∧ Scheme.ofWords.layout.Aligned ∧
        0 < Scheme.ofWords.layout.groupBytes 2 ∧ 2 * 2 * worn.size < Word.limit) ∧
      Fault.missingKey ∈ (Operation.findUnchecked ⟨1⟩ : Operation ZeroVacant UInt64).faults ∧
      worn.Measurable := by
  have made : (withGroups Scheme.ofWords 8 : Except Fault (Table ZeroVacant UInt64 2)) =
      .ok (empty 8) := withGroups_eq_of_le (by decide) (by decide)
  have reachable : Reachable Scheme.ofWords worn :=
    Reachable.run Accumulation.listing (Reachable.made made) (by simp [Operation.Legal])
  have few : 2 * 2 * worn.size < Word.limit := by decide +kernel
  have aligned : Scheme.ofWords.layout.Aligned := by decide
  have sized : 0 < Scheme.ofWords.layout.groupBytes 2 := by decide
  have legal : (Operation.findUnchecked ⟨1⟩ : Operation ZeroVacant UInt64).Legal :=
    show (⟨1⟩ : ZeroVacant) ≠ Key.vacant by decide
  have missed : (worn.findUnchecked Scheme.ofWords ⟨1⟩ 0).result = .error .missingKey := by
    decide +kernel
  have failed : ((Operation.findUnchecked ⟨1⟩).perform Scheme.ofWords Accumulation.listing
      ⟨worn, 0⟩).answer = .error .missingKey := congrArg (Except.map Answer.value) missed
  obtain ⟨documented, -, -, measurable⟩ := reachable.only_documented_faults aligned sized few
  exact ⟨⟨reachable, aligned, sized, few⟩,
    (documented Accumulation.listing _ legal 0 .missingKey failed).1, measurable⟩

end Table

end TwoChoice
