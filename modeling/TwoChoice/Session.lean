import TwoChoice.Operation
import TwoChoice.Table.Batch

/-!
# Sessions

Several tables of one kind under one comparison counter. One of the tables is the current one,
and operations go to it.

## Main Definitions

* `Session` — the tables, the current one, and the counter
* `Request` — what a session can be asked to do
* `Reply` — what it replies
* `Session.handle` — carries out a request

## Design Notes

A session owns the one counter of all its tables: it is handed to every lookup that counts, and
it keeps what was counted before a fault.
-/

namespace TwoChoice

universe u v w x

/-- Several tables under one comparison counter. -/
structure Session (K : Type u) (V : Type v) (slots : Nat) where
  /-- The tables, numbered in the order in which they were made. -/
  tables : Array (Table K V slots)
  /-- The number of the current table. -/
  current : Nat
  /-- The comparison counter. -/
  counter : UInt64

/-- What a session can be asked to do. -/
inductive Request (K : Type u) (V : Type v) where
  /-- Makes a new table and makes it the current one. -/
  | create
  /-- Makes a new table with at least so many groups and makes it the current one. -/
  | createWith (groups : Nat)
  /-- Copies the current table and makes the copy the current one. -/
  | duplicate
  /-- Makes another table the current one. -/
  | use (number : Nat)
  /-- Sets the comparison counter. -/
  | setCounter (counter : UInt64)
  /-- Carries out an operation of the current table. -/
  | operate (op : Operation K V)
  /-- Stores entries. -/
  | fill (entries : List (K × V))
  /-- Looks keys up. -/
  | getMany (keys : List K)
  /-- Hashes keys, then looks them up. -/
  | batch (keys : List K)
  /-- Takes out the entries of keys. -/
  | eraseMany (keys : List K)
  /-- Asks whether another table has as many groups at each fill as the current one. -/
  | sameHistogram (number : Nat)

/-- What a session replies. -/
inductive Reply (V : Type u) (A : Type v) where
  /-- There is nothing to tell. -/
  | done
  /-- The number of a new table. -/
  | table (number : Nat)
  /-- The answer to an operation. -/
  | answer (answer : Answer V A)
  /-- The entries whose storing changed the capacity, and the capacities. -/
  | growths (growths : List (Nat × Nat))
  /-- The values of keys that are stored, and the comparisons made for each key. -/
  | lookups (lookups : List (Option V × Nat))
  /-- The values of keys. -/
  | values (values : List V)
  /-- Yes or no, for each key. -/
  | flags (flags : List Bool)
  /-- Yes or no. -/
  | flag (flag : Bool)

/-- The reply to a request, and the session afterwards. -/
structure Exchange (K : Type u) (V : Type v) (slots : Nat) (A : Type w) where
  /-- The reply, or why there is none. -/
  reply : Except Fault (Reply V A)
  /-- The session afterwards. -/
  session : Session K V slots

namespace Session

variable {K : Type u} {V : Type v} {slots : Nat} {A : Type w}

/-- The session without tables. -/
def start : Session K V slots := ⟨#[], 0, 0⟩

/-- The current table, if there is one. -/
def currentTable? (c : Session K V slots) : Option (Table K V slots) :=
  c.tables[c.current]?

/-- Adds a table and makes it the current one. -/
def add (c : Session K V slots) (t : Table K V slots) : Session K V slots :=
  ⟨c.tables.push t, c.tables.size, c.counter⟩

/-- Puts a table in the place of the current one. -/
def setTable (c : Session K V slots) (t : Table K V slots) : Session K V slots :=
  ⟨c.tables.setIfInBounds c.current t, c.current, c.counter⟩

/-- Adds a new table, unless it cannot be made. -/
def enrol (c : Session K V slots) : Except Fault (Table K V slots) → Exchange K V slots A
  | .ok t => ⟨.ok (.table c.tables.size), c.add t⟩
  | .error fault => ⟨.error fault, c⟩

/-- Takes over what an update of the current table leaves. -/
def takeUpdate {α : Type x} (c : Session K V slots) (u : Updated K V slots α)
    (reply : α → Reply V A) : Exchange K V slots A :=
  ⟨u.result.map reply, c.setTable u.table⟩

/-- Takes over the counter that lookups leave. -/
def takeCount {α : Type x} (c : Session K V slots) (lookup : Counted α) (reply : α → Reply V A) :
    Exchange K V slots A :=
  ⟨lookup.result.map reply, { c with counter := lookup.counter }⟩

variable [Key K] [DecidableEq K]

/-- Carries out a request. There is no reply if it needs a table that does not exist. -/
def handle (s : Scheme K) (acc : Accumulation V A) (c : Session K V slots) :
    Request K V → Option (Exchange K V slots A)
  | .create => some (c.enrol (Table.new s))
  | .createWith groups => some (c.enrol (Table.withGroups s groups))
  | .duplicate => c.currentTable?.map fun t => c.enrol (t.copy s)
  | .use number =>
    if number < c.tables.size then some ⟨.ok .done, { c with current := number }⟩ else none
  | .setCounter counter => some ⟨.ok .done, { c with counter := counter }⟩
  | .operate op => c.currentTable?.map fun t =>
    let step := op.perform s acc ⟨t, c.counter⟩
    ⟨step.answer.map .answer, { c.setTable step.state.table with counter := step.state.counter }⟩
  | .fill entries => c.currentTable?.map fun t =>
    c.takeUpdate (t.insertAll s 0 entries) .growths
  | .getMany keys => c.currentTable?.map fun t => c.takeCount (t.getAll s keys c.counter) .lookups
  | .batch keys => c.currentTable?.map fun t =>
    match t.prefetchAll s keys with
    | .error fault => ⟨.error fault, c⟩
    | .ok hashed => c.takeCount (t.findAll hashed c.counter) .values
  | .eraseMany keys => c.currentTable?.map fun t => c.takeUpdate (t.eraseAll s keys) .flags
  | .sameHistogram number =>
    match c.currentTable?, c.tables[number]? with
    | some t, some other =>
      some ⟨t.countFills.bind fun h => other.countFills.map fun h' => .flag (h = h'), c⟩
    | _, _ => none

end Session

end TwoChoice
