import TwoChoice.Operation
import TwoChoice.Proofs.Bytes

/-!
# Runs in lockstep

Operations that differ only by matching keys and related values, carried out on parallel tables,
answer alike and leave parallel tables. So two runs of such operations stay side by side, call by
call. Numbers of bytes are compared by a relation of their own, since the layouts may differ.

## Main Definitions

* `OperationPair`, `AnswerPair` — two operations, and two answers, that match
* `CallPair` — two calls that match
* `Table.StepPair` — two steps that match and leave parallel tables
* `Table.SameView` — two tables that cannot be told apart by what they show
* `Call.trace` — the steps that a run takes

## Main Statements

* `Table.Parallel.insert`, `Table.Parallel.grow`, `Table.Parallel.erase` — updates stay in step
* `Table.Parallel.perform` — so does every operation
* `Call.forall₂_trace` — what one step of two runs keeps and shows, the runs do
* `Table.Parallel.run_eq` — under one scheme, runs from parallel tables are seen alike
* `Table.Parallel.forall₂_trace` — under two schemes, they match step by step
-/

namespace TwoChoice

universe u u' v v' w w' x x'

variable {K : Type u} {K' : Type u'} {V : Type v} {V' : Type v'} {A : Type w} {A' : Type w'}
variable {slots : Nat} {M : K → K' → Prop} {R : V → V' → Prop} {T : A → A' → Prop}
variable {B : Nat → Nat → Prop}

/-! ### Operations and answers -/

/-- Two operations that match: the same operation, with keys that correspond and related values. -/
inductive OperationPair (M : K → K' → Prop) (R : V → V' → Prop) :
    Operation K V → Operation K' V' → Prop
  | insert {key key' value value'} (pair : M key key') (related : R value value') :
      OperationPair M R (.insert key value) (.insert key' value')
  | get {key key'} (pair : M key key') : OperationPair M R (.get key) (.get key')
  | contains {key key'} (pair : M key key') : OperationPair M R (.contains key) (.contains key')
  | find {key key'} (pair : M key key') : OperationPair M R (.find key) (.find key')
  | findUnchecked {key key'} (pair : M key key') :
      OperationPair M R (.findUnchecked key) (.findUnchecked key')
  | getIndexed {key key'} (pair : M key key') (hash : UInt64) :
      OperationPair M R (.getIndexed key hash) (.getIndexed key' hash)
  | findIndexed {key key'} (pair : M key key') (hash : UInt64) :
      OperationPair M R (.findIndexed key hash) (.findIndexed key' hash)
  | findIndexedUnchecked {key key'} (pair : M key key') (hash : UInt64) :
      OperationPair M R (.findIndexedUnchecked key hash) (.findIndexedUnchecked key' hash)
  | erase {key key'} (pair : M key key') : OperationPair M R (.erase key) (.erase key')
  | eraseUnchecked {key key'} (pair : M key key') :
      OperationPair M R (.eraseUnchecked key) (.eraseUnchecked key')
  | hashOf {key key'} (pair : M key key') : OperationPair M R (.hashOf key) (.hashOf key')
  | prefetch {key key'} (pair : M key key') : OperationPair M R (.prefetch key) (.prefetch key')
  | grow : OperationPair M R .grow .grow
  | clear : OperationPair M R .clear .clear
  | copy : OperationPair M R .copy .copy
  | sizes : OperationPair M R .sizes .sizes
  | memoryUsage : OperationPair M R .memoryUsage .memoryUsage
  | total : OperationPair M R .total .total
  | describe : OperationPair M R .describe .describe
  | describeIndented : OperationPair M R .describeIndented .describeIndented
  | histogram : OperationPair M R .histogram .histogram
  | chart : OperationPair M R .chart .chart
  | statistics : OperationPair M R .statistics .statistics
  | report : OperationPair M R .report .report

/-- Two answers that match: the same answer, but for related values, totals and numbers of bytes. -/
inductive AnswerPair (R : V → V' → Prop) (T : A → A' → Prop) (B : Nat → Nat → Prop) :
    Answer V A → Answer V' A' → Prop
  | done : AnswerPair R T B .done .done
  | lookup {found found'} (related : Option.Rel R found found') :
      AnswerPair R T B (.lookup found) (.lookup found')
  | value {value value'} (related : R value value') :
      AnswerPair R T B (.value value) (.value value')
  | flag (flag : Bool) : AnswerPair R T B (.flag flag) (.flag flag)
  | hash (hash : UInt64) : AnswerPair R T B (.hash hash) (.hash hash)
  | sizes (size : Nat) (isEmpty : Bool) (capacity : Nat) :
      AnswerPair R T B (.sizes size isEmpty capacity) (.sizes size isEmpty capacity)
  | bytes {bytes bytes'} (related : B bytes bytes') :
      AnswerPair R T B (.bytes bytes) (.bytes bytes')
  | total {total total'} (related : T total total') :
      AnswerPair R T B (.total total) (.total total')
  | text (text : String) : AnswerPair R T B (.text text) (.text text)
  | histogram (h : Histogram) : AnswerPair R T B (.histogram h) (.histogram h)
  | statistics {m m'} (alike : Statistics.Alike B m m') :
      AnswerPair R T B (.statistics m) (.statistics m')
  | report {m m'} (alike : Statistics.Alike B m m') :
      AnswerPair R T B (.text m.report) (.text m'.report)

/-- Two calls that match: operations that do, on the same comparison counter. -/
structure CallPair (M : K → K' → Prop) (R : V → V' → Prop) (call : Call K V)
    (call' : Call K' V') : Prop where
  /-- The operations match. -/
  operation : OperationPair M R call.operation call'.operation
  /-- The comparison counters are the same. -/
  counter_eq : call.counter = call'.counter

/-- An operation is paired with itself if every key corresponds to itself and every value is
related to itself. -/
theorem operationPair_self (op : Operation K V) : OperationPair Eq Eq op op := by
  cases op <;> constructor <;> rfl

theorem callPair_self (call : Call K V) : CallPair Eq Eq call call :=
  ⟨operationPair_self call.operation, rfl⟩

/-- Answers that match by equality are equal. -/
theorem AnswerPair.eq {answer answer' : Answer V A} (pair : AnswerPair Eq Eq Eq answer answer') :
    answer = answer' := by
  cases pair with
  | lookup related =>
    cases related with
    | some same => rw [same]
    | none => rfl
  | value same => rw [same]
  | bytes same => rw [same]
  | total same => rw [same]
  | statistics alike => rw [alike.eq]
  | report alike => rw [alike.eq]
  | _ => rfl

variable [Key K] [Key K'] {s : Scheme K} {s' : Scheme K'}

namespace Table

variable {t : Table K V slots} {t' : Table K' V' slots} {key : K} {key' : K'} {value : V}
variable {value' : V'}

/-! ### Steps -/

/-- Two steps that match: their answers do, and they leave the same counter and parallel tables. -/
structure StepPair (M : K → K' → Prop) (R : V → V' → Prop) (T : A → A' → Prop)
    (B : Nat → Nat → Prop) (step : Step K V slots A) (step' : Step K' V' slots A') : Prop where
  /-- The answers match. -/
  answer : Paired (AnswerPair R T B) step.answer step'.answer
  /-- The comparison counters are the same. -/
  counter_eq : step.state.counter = step'.state.counter
  /-- The tables are parallel. -/
  table : step.state.table.Parallel M R step'.state.table

namespace StepPair

variable {counter : UInt64}

/-- Operations that change nothing take steps that match if their answers do. -/
theorem observed (parallel : t.Parallel M R t') {answer : Except Fault (Answer V A)}
    {answer' : Except Fault (Answer V' A')} (answers : Paired (AnswerPair R T B) answer answer') :
    StepPair M R T B (.observed ⟨t, counter⟩ answer) (.observed ⟨t', counter⟩ answer') :=
  ⟨answers, rfl, parallel⟩

/-- So do lookups that find what is related after the same comparisons. -/
theorem counted {α : Type x} {β : Type x'} {P : α → β → Prop} (parallel : t.Parallel M R t')
    {c : Counted α} {c' : Counted β} {answer : α → Answer V A} {answer' : β → Answer V' A'}
    (found : Paired P c.result c'.result ∧ c.counter = c'.counter)
    (answers : ∀ a b, P a b → AnswerPair R T B (answer a) (answer' b)) :
    StepPair M R T B (.counted t c answer) (.counted t' c' answer') :=
  ⟨found.1.map answers, found.2, parallel⟩

/-- So do updates with the same result that leave parallel tables. -/
theorem updated {α : Type x} {u : Updated K V slots α} {u' : Updated K' V' slots α}
    {answer : α → Answer V A} {answer' : α → Answer V' A'}
    (updates : u.result = u'.result ∧ u.table.Parallel M R u'.table)
    (answers : ∀ a, AnswerPair R T B (answer a) (answer' a)) :
    StepPair M R T B (.updated counter u answer) (.updated counter u' answer') := by
  refine ⟨(Paired.of_eq updates.1).map ?_, rfl, updates.2⟩
  rintro a _ rfl
  exact answers a

/-- So do operations that go on with other tables, if these are parallel. -/
theorem replaced (parallel : t.Parallel M R t') {made : Except Fault (Table K V slots)}
    {made' : Except Fault (Table K' V' slots)} (tables : Paired (Parallel M R) made made') :
    StepPair M R T B (Step.replaced (A := A) ⟨t, counter⟩ made)
      (Step.replaced (A := A') ⟨t', counter⟩ made') := by
  cases tables with
  | ok next => exact ⟨.ok .done, rfl, next⟩
  | fault fault => exact ⟨.fault fault, rfl, parallel⟩

/-- Steps that match by equality are seen alike. -/
theorem observation_eq {step step' : Step K V slots A} (pair : StepPair Eq Eq Eq Eq step step') :
    step.observation = step'.observation := by
  have answers := (pair.answer.mono fun _ _ same => same.eq).eq
  simp only [Step.observation, answers, pair.counter_eq, pair.table.size_eq, pair.table.capacity_eq]

end StepPair

/-! ### New tables -/

/-- New tables that are asked to have as many groups are parallel. -/
theorem Parallel.of_withGroups {groups : Nat} (made : withGroups s groups = .ok t)
    (made' : withGroups s' groups = .ok t') : t.Parallel M R t' := by
  obtain ⟨capacity, found, -, rfl⟩ := exists_capacity_of_withGroups made
  obtain ⟨capacity', found', -, rfl⟩ := exists_capacity_of_withGroups made'
  rw [Except.ok.inj (found.symm.trans found')]
  exact parallel_empty capacity'

variable [DecidableEq K] [DecidableEq K']

/-! ### Updates -/

namespace Parallel

/-- A table without room for an entry is parallel to one without room for the other. -/
theorem noRoom (parallel : t.Parallel M R t') (alike : Scheme.Alike M s s') (pair : M key key')
    (related : R value value') (noRoom : t.placement (s.hash key) key value = .ok none) :
    t'.placement (s'.hash key') key' value' = .ok none := by
  obtain ⟨_, decided', changes⟩ :=
    (parallel.placement alike.toMatching pair related (s.hash key)).of_ok noRoom
  rw [alike.hash_eq pair] at decided'
  cases changes with
  | none => exact decided'

/-- Two insertions place their entries after the same growths. -/
theorem insertLoop (parallel : t.Parallel M R t') (alike : Scheme.Alike M s s')
    (pair : M key key') (related : R value value')
    (unhindered : Unhindered s.layout s'.layout (insertLoop s key value t).result
      (insertLoop s' key' value' t').result) :
    (insertLoop s key value t).result = (insertLoop s' key' value' t').result ∧
      (insertLoop s key value t).table.Parallel M R (insertLoop s' key' value' t').table := by
  -- The induction follows the growths of the one table, and each is a growth of the other.
  fun_induction Table.insertLoop s key value t generalizing t' with
  | case1 t fault failed =>
    have placement := parallel.placement alike.toMatching pair related (s.hash key)
    have failed' := placement.of_error failed
    rw [alike.hash_eq pair] at failed'
    rw [insertLoop_of_fault failed']
    exact ⟨rfl, parallel⟩
  | case2 t change decided =>
    have placement := parallel.placement alike.toMatching pair related (s.hash key)
    obtain ⟨_, decided', changes⟩ := placement.of_ok decided
    rw [alike.hash_eq pair] at decided'
    cases changes with
    | some next =>
      rw [insertLoop_of_room decided']
      exact ⟨rfl, next⟩
  | case3 t noRoom fault failed =>
    have noRoom' := parallel.noRoom alike pair related noRoom
    have grown := parallel.grown alike
      (unhindered.of_imp (fun same => by rw [Except.error.inj (failed.symm.trans same)])
        fun failed' => by rw [insertLoop_of_stuck noRoom' failed'])
    rw [insertLoop_of_stuck noRoom' (grown.of_error failed)]
    exact ⟨rfl, parallel⟩
  | case4 t noRoom larger grew ih =>
    have noRoom' := parallel.noRoom alike pair related noRoom
    have grown := parallel.grown alike
      (unhindered.of_imp (fun failed => by rw [failed] at grew; cases grew)
        fun failed' => by rw [insertLoop_of_stuck noRoom' failed'])
    obtain ⟨larger', grew', next⟩ := grown.of_ok grew
    rw [insertLoop_of_grown noRoom' grew'] at unhindered ⊢
    exact ih next unhindered

/-- Two insertions refuse the vacant key, or place their entries after the same growths. -/
theorem insert (parallel : t.Parallel M R t') (alike : Scheme.Alike M s s') (pair : M key key')
    (related : R value value')
    (unhindered : Unhindered s.layout s'.layout (t.insert s key value).result
      (t'.insert s' key' value').result) :
    (t.insert s key value).result = (t'.insert s' key' value').result ∧
      (t.insert s key value).table.Parallel M R (t'.insert s' key' value').table := by
  unfold Table.insert at unhindered ⊢
  by_cases vacant : key = Key.vacant
  · rw [if_pos vacant, if_pos ((alike.vacant_iff pair).mp vacant)]
    exact ⟨rfl, parallel⟩
  · rw [if_neg vacant, if_neg (mt (alike.vacant_iff pair).mpr vacant)] at unhindered ⊢
    exact parallel.insertLoop alike pair related unhindered

theorem grow (parallel : t.Parallel M R t') (alike : Scheme.Alike M s s')
    (unhindered : Unhindered s.layout s'.layout (t.grow s).result (t'.grow s').result) :
    (t.grow s).result = (t'.grow s').result ∧
      (t.grow s).table.Parallel M R (t'.grow s').table := by
  unfold Table.grow at unhindered ⊢
  have grown := parallel.grown alike
    (unhindered.of_imp (fun failed => by rw [failed]) fun failed => by rw [failed])
  rcases grown.cases with ⟨fault, failed, failed'⟩ | ⟨_, _, grew, grew', next⟩
  · rw [failed, failed']
    exact ⟨rfl, parallel⟩
  · rw [grew, grew']
    exact ⟨rfl, next⟩

theorem erase (parallel : t.Parallel M R t') (alike : Scheme.Alike M s s') (pair : M key key') :
    (t.erase s key).result = (t'.erase s' key').result ∧
      (t.erase s key).table.Parallel M R (t'.erase s' key').table := by
  unfold Table.erase
  rw [alike.hash_eq pair, parallel.locate_eq alike.toMatching pair]
  rcases (t'.locate key' (s'.hash key') 0).result with fault | _ | p
  · exact ⟨rfl, parallel⟩
  · exact ⟨rfl, parallel⟩
  · dsimp only
    rcases (parallel.removal p).cases with ⟨fault, failed, failed'⟩ | ⟨_, _, found, found', next⟩
    · rw [failed, failed']
      exact ⟨rfl, parallel⟩
    · rw [found, found']
      exact ⟨rfl, next⟩

theorem eraseUnchecked (parallel : t.Parallel M R t') (alike : Scheme.Alike M s s')
    (pair : M key key') :
    (t.eraseUnchecked s key).result = (t'.eraseUnchecked s' key').result ∧
      (t.eraseUnchecked s key).table.Parallel M R (t'.eraseUnchecked s' key').table := by
  unfold Table.eraseUnchecked
  rw [alike.hash_eq pair, parallel.locateUnchecked_eq alike.toMatching pair]
  rcases (t'.locateUnchecked key' (s'.hash key') 0).result with fault | p
  · exact ⟨rfl, parallel⟩
  · dsimp only
    rcases (parallel.removal p).cases with ⟨fault, failed, failed'⟩ | ⟨_, _, found, found', next⟩
    · rw [failed, failed']
      exact ⟨rfl, parallel⟩
    · rw [found, found']
      exact ⟨rfl, next⟩

/-! ### Operations -/

/-- Operations that match take steps that match. How values are added up is compared only if it is
asked for. -/
theorem perform (parallel : t.Parallel M R t') (alike : Scheme.Alike M s s')
    (comparable : s.layout.Comparable B s'.layout slots t.capacity)
    {acc : Accumulation V A} {acc' : Accumulation V' A'} {op : Operation K V}
    {op' : Operation K' V'} (pair : OperationPair M R op op')
    (totals : op = .total → acc.Alike R T acc') (counter : UInt64)
    (unhindered : Unhindered s.layout s'.layout (op.perform s acc ⟨t, counter⟩).answer
      (op'.perform s' acc' ⟨t', counter⟩).answer) :
    StepPair M R T B (op.perform s acc ⟨t, counter⟩) (op'.perform s' acc' ⟨t', counter⟩) := by
  have matching := alike.toMatching
  cases pair with
  | insert pair related =>
    exact .updated (parallel.insert alike pair related unhindered.of_map) fun _ => .done
  | @get key key' pair =>
    refine .counted parallel ?_ fun _ _ => .lookup
    rw [get, get, alike.hash_eq pair]
    exact parallel.getIndexed matching pair _ counter
  | @contains key key' pair =>
    refine .counted parallel (P := Eq) ?_ ?_
    · rw [parallel.contains_eq alike pair]
      exact ⟨.of_eq rfl, rfl⟩
    · rintro told _ rfl
      exact .flag told
  | @find key key' pair =>
    refine .counted parallel ?_ fun _ _ => .value
    rw [find, find, alike.hash_eq pair]
    exact parallel.findIndexed matching pair _ counter
  | @findUnchecked key key' pair =>
    refine .counted parallel ?_ fun _ _ => .value
    rw [findUnchecked, findUnchecked, alike.hash_eq pair]
    exact parallel.findIndexedUnchecked matching pair _ counter
  | getIndexed pair hash =>
    exact .counted parallel (parallel.getIndexed matching pair hash counter) fun _ _ => .lookup
  | findIndexed pair hash =>
    exact .counted parallel (parallel.findIndexed matching pair hash counter) fun _ _ => .value
  | findIndexedUnchecked pair hash =>
    exact .counted parallel (parallel.findIndexedUnchecked matching pair hash counter)
      fun _ _ => .value
  | erase pair => exact .updated (parallel.erase alike pair) .flag
  | eraseUnchecked pair => exact .updated (parallel.eraseUnchecked alike pair) fun _ => .done
  | @hashOf key key' pair =>
    refine .observed parallel (.ok ?_)
    rw [alike.hash_eq pair]
    exact .hash _
  | @prefetch key key' pair =>
    refine .observed parallel ((Paired.of_eq (parallel.prefetch_eq alike pair)).map ?_)
    rintro hash _ rfl
    exact .hash hash
  | grow => exact .updated (parallel.grow alike unhindered.of_map) fun _ => .done
  | clear => exact ⟨.ok .done, rfl, parallel.clear⟩
  | copy =>
    rw [Operation.perform_copy, Operation.perform_copy] at unhindered
    exact .replaced parallel (parallel.copy unhindered.of_map)
  | sizes =>
    refine .observed parallel (.ok ?_)
    rw [isEmpty, parallel.size_eq, parallel.capacity_eq]
    exact .sizes _ _ _
  | memoryUsage =>
    exact .observed parallel ((parallel.memoryUsage comparable).map fun _ _ => .bytes)
  | total =>
    exact .observed parallel ((parallel.total matching (totals rfl)).map fun _ _ => .total)
  | describe =>
    refine .observed parallel (.ok ?_)
    rw [parallel.describe_eq matching]
    exact .text _
  | describeIndented =>
    refine .observed parallel (.ok ?_)
    rw [parallel.describeIndented_eq matching]
    exact .text _
  | histogram =>
    refine .observed parallel ((Paired.of_eq (parallel.countFills_eq matching)).map ?_)
    rintro h _ rfl
    exact .histogram h
  | chart =>
    have same : t.countFills.bind Histogram.print = t'.countFills.bind Histogram.print := by
      rw [parallel.countFills_eq matching]
    refine .observed parallel ((Paired.of_eq same).map ?_)
    rintro text _ rfl
    exact .text text
  | statistics =>
    exact .observed parallel ((parallel.statistics alike comparable).map fun _ _ => .statistics)
  | report =>
    exact .observed parallel ((parallel.statistics alike comparable).map fun _ _ => .report)

end Parallel

/-! ### Views -/

/-- Two tables that cannot be told apart by what they show: the sizes, the fills, and the costs of
lookups. Only numbers of bytes may differ. -/
structure SameView (s : Scheme K) (s' : Scheme K') (t : Table K V slots) (t' : Table K' V' slots) :
    Prop where
  /-- The masks are the same. -/
  mask_eq : t.mask = t'.mask
  /-- There are equally many entries. -/
  size_eq : t.size = t'.size
  /-- There are equally many groups. -/
  capacity_eq : t.capacity = t'.capacity
  /-- There are equally many groups of each fill. -/
  histogram_eq : t.histogram = t'.histogram
  /-- The descriptions on one line are the same. -/
  describe_eq : t.describe = t'.describe
  /-- So are those on several lines. -/
  describeIndented_eq : t.describeIndented = t'.describeIndented
  /-- Lookups of the stored keys cost the same, in the same order. -/
  lookupCosts_eq : t.lookupCosts s = t'.lookupCosts s'
  /-- The measurements are the same but for bytes, or there are none for the same reason. -/
  statistics : Paired (Statistics.Alike fun _ _ => True) (t.statistics s) (t'.statistics s')

/-- Parallel tables show the same. -/
theorem Parallel.sameView (parallel : t.Parallel M R t') (alike : Scheme.Alike M s s')
    (comparable : s.layout.Comparable (fun _ _ => True) s'.layout slots t.capacity) :
    SameView s s' t t' where
  mask_eq := parallel.mask_eq
  size_eq := parallel.size_eq
  capacity_eq := parallel.capacity_eq
  histogram_eq := parallel.histogram_eq alike.toMatching
  describe_eq := parallel.describe_eq alike.toMatching
  describeIndented_eq := parallel.describeIndented_eq alike.toMatching
  lookupCosts_eq := parallel.lookupCosts_eq alike
  statistics := parallel.statistics alike comparable

end Table

/-! ### Runs -/

variable [DecidableEq K] [DecidableEq K']

namespace Call

/-- The steps that a run takes, call by call: each answer with the state that is left. -/
def trace (s : Scheme K) (acc : Accumulation V A) :
    List (Call K V) → Table K V slots → List (Step K V slots A)
  | [], _ => []
  | call :: calls, t =>
    call.perform s acc t :: trace s acc calls (call.perform s acc t).state.table

/-- What is seen of a run is what is seen of the steps that it takes. -/
theorem map_observation_trace (s : Scheme K) (acc : Accumulation V A) (calls : List (Call K V))
    (t : Table K V slots) :
    (trace s acc calls t).map Step.observation = (run s acc calls t).1 := by
  induction calls generalizing t with
  | nil => rfl
  | cons call calls ih => exact congrArg _ (ih _)

/-- What a step on either side keeps, two runs of calls that are paired keep; and what such steps
show, the runs show call by call. -/
theorem forall₂_trace {acc : Accumulation V A} {acc' : Accumulation V' A'}
    {C : Call K V → Call K' V' → Prop} {I : Table K V slots → Table K' V' slots → Prop}
    {P : Step K V slots A → Step K' V' slots A' → Prop}
    (step : ∀ {t t' call call'}, I t t' → C call call' →
      Unhindered s.layout s'.layout (call.perform s acc t).answer
        (call'.perform s' acc' t').answer →
      P (call.perform s acc t) (call'.perform s' acc' t') ∧
        I (call.perform s acc t).state.table (call'.perform s' acc' t').state.table)
    {calls : List (Call K V)} {calls' : List (Call K' V')} (pairs : List.Forall₂ C calls calls')
    {t : Table K V slots} {t' : Table K' V' slots} (inv : I t t')
    (unhindered : s.layout = s'.layout ∨
      (∀ x ∈ trace s acc calls t, ¬LacksAllocation x.answer) ∧
        ∀ x ∈ trace s' acc' calls' t', ¬LacksAllocation x.answer) :
    List.Forall₂ P (trace s acc calls t) (trace s' acc' calls' t') := by
  induction pairs generalizing t t' with
  | nil => exact .nil
  | cons pair _ ih =>
    obtain ⟨shown, next⟩ := step inv pair (unhindered.imp_right fun returns =>
      ⟨returns.1 _ List.mem_cons_self, returns.2 _ List.mem_cons_self⟩)
    refine .cons shown (ih next (unhindered.imp_right fun returns => ?_))
    exact ⟨fun x mem => returns.1 x (List.mem_cons_of_mem _ mem),
      fun x mem => returns.2 x (List.mem_cons_of_mem _ mem)⟩

end Call

namespace Table.Parallel

variable {t : Table K V slots} {t' : Table K' V' slots} {acc : Accumulation V A}
variable {acc' : Accumulation V' A'} {calls : List (Call K V)} {calls' : List (Call K' V')}

/-- Calls that match take steps that match. -/
theorem performCall (parallel : t.Parallel M R t') (alike : Scheme.Alike M s s')
    (comparable : s.layout.Comparable B s'.layout slots t.capacity) {call : Call K V}
    {call' : Call K' V'} (pair : CallPair M R call call')
    (totals : call.operation = .total → acc.Alike R T acc')
    (unhindered : Unhindered s.layout s'.layout (call.perform s acc t).answer
      (call'.perform s' acc' t').answer) :
    StepPair M R T B (call.perform s acc t) (call'.perform s' acc' t') := by
  unfold Call.perform at unhindered ⊢
  rw [← pair.counter_eq] at unhindered ⊢
  exact parallel.perform alike comparable pair.operation totals call.counter unhindered

/-- Under one scheme, no run tells tables apart that differ only in what vacant slots were left
with. -/
theorem run_eq {t t' : Table K V slots} (parallel : t.Parallel Eq Eq t')
    (acc : Accumulation V A) (calls : List (Call K V)) :
    (Call.run s acc calls t).1 = (Call.run s acc calls t').1 := by
  have alike : Scheme.Alike Eq s s := Scheme.alike_of_hash_eq fun _ => rfl
  have steps : List.Forall₂ (fun x x' => x.observation = x'.observation)
      (Call.trace s acc calls t) (Call.trace s acc calls t') := by
    refine Call.forall₂_trace (fun {t t' call call'} parallel pair unhindered => ?_)
      (List.forall₂_same.mpr fun call _ => callPair_self call) parallel (Or.inl rfl)
    have step := parallel.performCall alike (Layout.comparable_self s.layout slots t.capacity) pair
      (fun _ => acc.alike_self) unhindered
    exact ⟨step.observation_eq, step.table⟩
  rw [← Call.map_observation_trace, ← Call.map_observation_trace, ← List.forall₂_eq_eq_eq,
    List.forall₂_map_left_iff, List.forall₂_map_right_iff]
  exact steps

/-- Two runs of calls that match take steps that match and show the same after each of them, if
neither lacks an allocation. -/
theorem forall₂_trace (parallel : t.Parallel M R t') (alike : Scheme.Alike M s s')
    (aligned : s.layout.Aligned) (aligned' : s'.layout.Aligned)
    (fits : s.layout.Fits slots t.capacity) (fits' : s'.layout.Fits slots t'.capacity)
    (pairs : List.Forall₂ (CallPair M R) calls calls')
    (totals : (∃ call ∈ calls, call.operation = .total) → acc.Alike R T acc')
    (returns : ∀ x ∈ Call.trace s acc calls t, ¬LacksAllocation x.answer)
    (returns' : ∀ x ∈ Call.trace s' acc' calls' t', ¬LacksAllocation x.answer) :
    List.Forall₂ (fun x x' => StepPair M R T (fun _ _ => True) x x' ∧
        SameView s s' x.state.table x'.state.table)
      (Call.trace s acc calls t) (Call.trace s' acc' calls' t') := by
  have totalled : ∀ call ∈ calls, call.operation = .total → acc.Alike R T acc' :=
    fun call mem asked => totals ⟨call, mem, asked⟩
  refine Call.forall₂_trace
    (I := fun t t' => t.Parallel M R t' ∧ s.layout.Fits slots t.capacity ∧
      s'.layout.Fits slots t'.capacity) ?_
    (List.forall₂_and_left calls calls' |>.mpr ⟨totalled, pairs⟩) ⟨parallel, fits, fits'⟩
    (Or.inr ⟨returns, returns'⟩)
  rintro t t' call call' ⟨parallel, fits, fits'⟩ ⟨totals, pair⟩ unhindered
  have comparable := Layout.comparable_of_fits aligned aligned' fits
    (parallel.capacity_eq ▸ fits')
  have step := parallel.performCall alike comparable pair totals unhindered
  have next := fits_perform fits acc call.operation call.counter
  have next' := fits_perform fits' acc' call'.operation call'.counter
  have view := step.table.sameView alike (Layout.comparable_of_fits aligned aligned' next
    (step.table.capacity_eq ▸ next'))
  exact ⟨⟨step, view⟩, step.table, next, next'⟩

end Table.Parallel

end TwoChoice
