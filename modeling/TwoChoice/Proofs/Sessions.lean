import Mathlib.Logic.Relation
import TwoChoice.Proofs.Batches
import TwoChoice.Proofs.Measurements
import TwoChoice.Session

/-!
# Sessions of reachable tables

The tables of a session are made, copied and operated on, and nothing else happens to them. So all
of them are reachable, and what is proved of reachable tables holds of them. Only the current table
is operated on: every other table stays as it is, also one that was copied.

## Main Definitions

* `Request.Legal` — a request that asks for no operation that is not legal
* `Session.AllReachable` — a session with reachable tables only
* `Session.Changes` — what a request can leave of the tables
* `Session.Leads` — a legal request leads from one session to another

## Main Statements

* `Session.changes_handle` — what every request leaves
* `Session.reachable_of_leads` — legal requests make reachable tables only
* `Session.getElem?_handle`, `Session.getElem?_of_leads` — tables that are not the current one stay
  as they are
* `Session.handle_duplicate` — a copy is a new table, equal to the one that is copied
* `Session.handle_batch`, `Session.handle_sameHistogram` — what the other requests reply
-/

namespace TwoChoice

universe u v w

variable {K : Type u} {V : Type v} {slots : Nat} {A : Type w} [Key K] [DecidableEq K]

/-! ### Batches that change a table -/

namespace Table.Reachable

variable {s : Scheme K} {t : Table K V slots}

protected theorem insert (reachable : Reachable s t) (key : K) (value : V) :
    Reachable s (t.insert s key value).table := by
  have legal : (Operation.insert key value).Legal := trivial
  exact reachable.perform Accumulation.listing legal 0

protected theorem erase (reachable : Reachable s t) (key : K) :
    Reachable s (t.erase s key).table := by
  have legal : (Operation.erase key : Operation K V).Legal := trivial
  exact reachable.perform Accumulation.listing legal 0

/-- Entries that are stored one after another lead from a reachable table to a reachable one. -/
protected theorem insertAll (reachable : Reachable s t) (index : Nat) (entries : List (K × V)) :
    Reachable s (Table.insertAll s index entries t).table := by
  induction entries generalizing t index with
  | nil => exact reachable
  | cons entry rest ih =>
    obtain ⟨key, value⟩ := entry
    have next := reachable.insert key value
    rw [Table.insertAll]
    dsimp only
    generalize t.insert s key value = update at next
    rcases update with ⟨fault | ⟨⟩, t'⟩
    · exact next
    · have last := ih next (index + 1)
      dsimp only at last ⊢
      generalize Table.insertAll s (index + 1) rest t' = later at last
      rcases later with ⟨fault | growths, t''⟩
      · exact last
      · exact last

/-- So do keys whose entries are taken out. -/
protected theorem eraseAll (reachable : Reachable s t) (keys : List K) :
    Reachable s (Table.eraseAll s keys t).table := by
  induction keys generalizing t with
  | nil => exact reachable
  | cons key rest ih =>
    have next := reachable.erase key
    rw [Table.eraseAll]
    generalize t.erase s key = update at next
    rcases update with ⟨fault | found, t'⟩
    · exact next
    · have last := ih next
      dsimp only at last ⊢
      generalize Table.eraseAll s rest t' = later at last
      rcases later with ⟨fault | flags, t''⟩
      · exact last
      · exact last

end Table.Reachable

/-! ### Requests -/

/-- A request is legal unless it asks for an operation that is not. -/
def Request.Legal : Request K V → Prop
  | operate op => op.Legal
  | _ => True

namespace Session

variable {s : Scheme K} {acc : Accumulation V A} {c c' : Session K V slots} {t : Table K V slots}
variable {request : Request K V} {exchange : Exchange K V slots A} {number : Nat}

/-- Carrying out a legal request leads from one session to the other. -/
def Leads (s : Scheme K) (acc : Accumulation V A) (c c' : Session K V slots) : Prop :=
  ∃ request reply, request.Legal ∧ c.handle s acc request = some ⟨reply, c'⟩

/-- Every table of the session is reachable. -/
def AllReachable (s : Scheme K) (c : Session K V slots) : Prop :=
  ∀ t ∈ c.tables, t.Reachable s

theorem AllReachable.currentTable (reachable : c.AllReachable s)
    (current : c.currentTable? = some t) : t.Reachable s :=
  reachable t (Array.mem_of_getElem? current)

/-! ### What a request changes -/

/-- What a request can leave of the tables of a session: all of them as they are, one more, or
another table in the place of the current one. -/
inductive Changes (P : Table K V slots → Prop) (c c' : Session K V slots) : Prop
  /-- The tables are the same. -/
  | kept : c'.tables = c.tables → Changes P c c'
  /-- There is one more, of which something is known. -/
  | added (t : Table K V slots) : P t → c'.tables = c.tables.push t → Changes P c c'
  /-- The current table has become another, of which something is known. -/
  | replaced (t : Table K V slots) :
      P t → c'.tables = c.tables.setIfInBounds c.current t → Changes P c c'

omit [Key K] [DecidableEq K] in
theorem changes_enrol {P : Table K V slots → Prop} (c : Session K V slots)
    {made : Except Fault (Table K V slots)} (fresh : ∀ t, made = .ok t → P t) :
    Changes P c (c.enrol made : Exchange K V slots A).session := by
  cases made with
  | error fault => exact .kept rfl
  | ok t => exact .added t (fresh t rfl) rfl

/-- That is all a request can do, and a table that it adds or changes is reachable then if all
tables were and the request is legal. -/
theorem changes_handle (handled : c.handle s acc request = some exchange) :
    Changes (fun t => request.Legal → c.AllReachable s → t.Reachable s) c exchange.session := by
  cases request with
  | create =>
    obtain rfl := Option.some.inj handled
    exact changes_enrol c fun t made _ _ => .made made
  | createWith groups =>
    obtain rfl := Option.some.inj handled
    exact changes_enrol c fun t made _ _ => .made made
  | duplicate =>
    obtain ⟨t, current, rfl⟩ := Option.map_eq_some_iff.mp handled
    refine changes_enrol c fun t' copied _ reachable => ?_
    rw [(reachable.currentTable current).copy_eq] at copied
    exact Except.ok.inj copied ▸ reachable.currentTable current
  | use number =>
    by_cases inRange : number < c.tables.size
    · obtain rfl := Option.some.inj ((if_pos inRange).symm.trans handled)
      exact .kept rfl
    · cases (if_neg inRange).symm.trans handled
  | setCounter counter =>
    obtain rfl := Option.some.inj handled
    exact .kept rfl
  | operate op =>
    obtain ⟨t, current, rfl⟩ := Option.map_eq_some_iff.mp handled
    exact .replaced _
      (fun legal reachable => (reachable.currentTable current).perform acc legal c.counter) rfl
  | fill entries =>
    obtain ⟨t, current, rfl⟩ := Option.map_eq_some_iff.mp handled
    exact .replaced _ (fun _ reachable => (reachable.currentTable current).insertAll 0 entries) rfl
  | getMany keys =>
    obtain ⟨t, current, rfl⟩ := Option.map_eq_some_iff.mp handled
    exact .kept rfl
  | batch keys =>
    obtain ⟨t, current, rfl⟩ := Option.map_eq_some_iff.mp handled
    cases t.prefetchAll s keys with
    | error fault => exact .kept rfl
    | ok hashed => exact .kept rfl
  | eraseMany keys =>
    obtain ⟨t, current, rfl⟩ := Option.map_eq_some_iff.mp handled
    exact .replaced _ (fun _ reachable => (reachable.currentTable current).eraseAll keys) rfl
  | sameHistogram number =>
    rw [handle] at handled
    cases current : c.currentTable? with
    | none =>
      rw [current] at handled
      cases handled
    | some t =>
      cases named : c.tables[number]? with
      | none =>
        rw [current, named] at handled
        cases handled
      | some other =>
        rw [current, named] at handled
        obtain rfl := Option.some.inj handled
        exact .kept rfl

/-- A legal request keeps all tables reachable. -/
theorem AllReachable.handle (reachable : c.AllReachable s) (legal : request.Legal)
    (handled : c.handle s acc request = some exchange) : exchange.session.AllReachable s := by
  intro t mem
  cases changes_handle handled with
  | kept same => exact reachable t (same ▸ mem)
  | added next sound more =>
    rcases Array.mem_push.mp (more ▸ mem) with old | rfl
    · exact reachable t old
    · exact sound legal reachable
  | replaced next sound other =>
    rcases Array.mem_or_eq_of_mem_setIfInBounds (other ▸ mem) with old | rfl
    · exact reachable t old
    · exact sound legal reachable

/-- Legal requests, one after another, make reachable tables only. -/
theorem reachable_of_leads (leads : Relation.ReflTransGen (Leads s acc) start c) :
    c.AllReachable s := by
  induction leads with
  | refl =>
    intro t mem
    cases Array.not_mem_empty t mem
  | tail _ step reachable =>
    obtain ⟨request, reply, legal, handled⟩ := step
    exact reachable.handle legal handled

/-- A request leaves every table as it is but the current one. -/
theorem getElem?_handle (handled : c.handle s acc request = some exchange)
    (other : number ≠ c.current) (named : c.tables[number]? = some t) :
    exchange.session.tables[number]? = some t := by
  cases changes_handle handled with
  | kept same => rwa [same]
  | added next _ more =>
    have inRange := (Array.getElem?_eq_some_iff.mp named).1
    rwa [more, Array.getElem?_push, if_neg (Nat.ne_of_lt inRange)]
  | replaced next _ changed => rwa [changed, Array.getElem?_setIfInBounds_ne other.symm]

/-- So a table stays as it is for as long as it is not the current one. -/
theorem getElem?_of_leads
    (leads : Relation.ReflTransGen (fun c c' => number ≠ c.current ∧ Leads s acc c c') c c')
    (named : c.tables[number]? = some t) : c'.tables[number]? = some t := by
  induction leads with
  | refl => exact named
  | tail _ step stayed =>
    obtain ⟨other, request, reply, -, handled⟩ := step
    exact getElem?_handle handled other stayed

/-! ### Replies -/

/-- A copy of the current table is a new table that equals it, and the one that was copied is still
there. -/
theorem handle_duplicate (reachable : c.AllReachable s) (acc : Accumulation V A)
    (current : c.currentTable? = some t) :
    c.handle s acc .duplicate = some ⟨.ok (.table c.tables.size), c.add t⟩ ∧
      (c.add t).currentTable? = some t ∧ (c.add t).tables[c.current]? = some t := by
  have handled : c.handle s acc .duplicate = some ⟨.ok (.table c.tables.size), c.add t⟩ := by
    rw [handle, current, Option.map_some, (reachable.currentTable current).copy_eq]
    rfl
  have inRange : c.current < c.tables.size := (Array.getElem?_eq_some_iff.mp current).1
  refine ⟨handled, Array.getElem?_push_size, ?_⟩
  rw [add, Array.getElem?_push, if_neg (Nat.ne_of_lt inRange)]
  exact current

/-- Keys that are hashed ahead are looked up in the current table one after another. -/
theorem handle_batch (reachable : c.AllReachable s) (acc : Accumulation V A)
    (current : c.currentTable? = some t) (keys : List K) :
    c.handle s acc (.batch keys) =
      some (c.takeCount (Counted.each (t.find s) keys c.counter) .values) := by
  have wellFormed := (reachable.currentTable current).wellFormed
  obtain ⟨hashed, prefetched, inTurn, -⟩ := wellFormed.findAll_inTurn acc keys
  rw [handle, current, Option.map_some, prefetched]
  dsimp only
  rw [inTurn]

/-- Two tables are asked for their histograms, and these are compared. -/
theorem handle_sameHistogram (reachable : c.AllReachable s) (acc : Accumulation V A)
    (current : c.currentTable? = some t) {other : Table K V slots}
    (named : c.tables[number]? = some other) :
    c.handle s acc (.sameHistogram number) =
      some ⟨.ok (.flag (t.histogram = other.histogram)), c⟩ := by
  have counted := Table.countFills_eq (reachable.currentTable current).usable.lt_limit
  have counted' :=
    Table.countFills_eq (reachable other (Array.mem_of_getElem? named)).usable.lt_limit
  rw [handle, current, named]
  dsimp only
  rw [counted, counted']
  rfl

end Session

end TwoChoice
