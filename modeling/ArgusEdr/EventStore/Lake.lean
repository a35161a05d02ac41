import ArgusEdr.Lib.Like
import ArgusEdr.Lib.Table
import ArgusEdr.Model.Event

/-!
# The event lake (`internal/eventstore`)

The queryable history of events, with its two backends: the slice of pointers of `memory.go` and the
`events` table of `sqlite.go`. An event in the memory lake is told apart from an equal one by its
pointer, for which `Entry.position` stands; the table numbers its rows the same way (`seq`). The `doc`
column holds the JSON of the event; here it is the event. Statements succeed and contexts are live.
-/

namespace ArgusEdr.EventStore

open Model (Event Time)

/-- Caps a query that does not set its own limit. -/
def defaultLimit : ℕ := 1000

/-- Selects and orders stored events. An empty text, a zero process id and a missing bound
match everything. -/
structure Query where
  action : String := ""
  host : String := ""
  pid : UInt32 := 0
  since : Option Time := none
  until_ : Option Time := none
  contains : String := ""
  limit : ℤ := 0
  ascending : Bool := false
deriving Repr, DecidableEq

def Query.cap (q : Query) : ℕ := if q.limit ≤ 0 then defaultLimit else q.limit.toNat

/-- The lower-cased text a `Contains` query searches. -/
def searchText (u : Go.Unicode) (e : Event) : String :=
  Go.toLower u (String.intercalate " "
    [e.process.name, e.process.executable, e.process.commandLine, e.file.path, e.file.target,
     e.network.dstIP, e.network.domain, e.host])

/-- Whether an event satisfies every set field of the query. -/
def Query.matches (u : Go.Unicode) (q : Query) (e : Event) : Bool :=
  (q.action = "" || e.action = q.action) &&
  (q.host = "" || e.host = q.host) &&
  (q.pid = 0 || e.process.pid = q.pid) &&
  (q.since.all fun t => t ≤ e.timestamp) &&
  (q.until_.all fun t => e.timestamp ≤ t) &&
  (q.contains = "" || Go.contains (searchText u e) (Go.toLower u q.contains))

/-! ## The memory lake -/

structure Entry where
  position : ℕ
  event : Event
deriving Repr, DecidableEq

def Entry.time (entry : Entry) : ℤ := entry.event.timestamp

structure Memory where
  events : Numbered Entry.position := {}

namespace Memory

def newMemory : Memory := {}

def append (m : Memory) (events : List Event) : Memory where
  events := events.foldl (fun t e => t.add (fun n => ⟨n, e⟩) fun _ => rfl) m.events

/-- `sort.SliceStable` leaves the second of two entries behind the first unless it is less. -/
def notAfter (ascending : Bool) (a b : Entry) : Prop :=
  if ascending then a.time ≤ b.time else b.time ≤ a.time

instance (ascending : Bool) : DecidableRel (notAfter ascending) := fun a b => by
  unfold notAfter; infer_instance

def query (u : Go.Unicode) (m : Memory) (q : Query) : List Entry :=
  ((m.events.rows.filter fun entry => q.matches u entry.event).insertionSort
    (notAfter q.ascending)).take q.cap

def count (m : Memory) : ℕ := m.events.rows.length

def prune (m : Memory) (before : Time) : Memory × ℕ :=
  let old : Entry → Bool := fun entry => entry.time < before
  ({ events := m.events.delete old }, m.events.rows.countP old)

end Memory

/-! ## The SQLite lake -/

/-- `Time.UnixNano`, whose arithmetic wraps. -/
def unixNano (t : ℤ) : ℤ := t.bmod (2 ^ 64)

/-- The times whose nanoseconds fit an `int64`. -/
def Representable (t : ℤ) : Prop := -2 ^ 63 ≤ t ∧ t < 2 ^ 63

instance (t : ℤ) : Decidable (Representable t) := by
  unfold Representable; infer_instance

theorem unixNano_of_representable {t : ℤ} (h : Representable t) : unixNano t = t := by
  obtain ⟨hlow, hhigh⟩ := h
  exact Int.bmod_eq_of_le (by omega) (by omega)

structure Row where
  seq : ℕ
  ts : ℤ
  action : String
  host : String
  pid : UInt32
  search : String
  doc : Event
deriving Repr, DecidableEq

def rowOf (u : Go.Unicode) (seq : ℕ) (e : Event) : Row where
  seq := seq
  ts := unixNano e.timestamp
  action := e.action
  host := e.host
  pid := e.process.pid
  search := searchText u e
  doc := e

def Row.entry (row : Row) : Entry := ⟨row.seq, row.doc⟩

/-- How `LIKE` reads a character of its pattern. -/
def likePiece (c : Char) : Like.Piece Char :=
  if c = '%' then .any else if c = '_' then .one else .lit c

/-- `LIKE` takes the two cases of an ASCII letter for the same. -/
def sameLetter (a c : Char) : Bool := a.toLower = c.toLower

def like (text pattern : String) : Bool :=
  Like.accepts sameLetter (pattern.toList.map likePiece) text.toList

/-- The conditions of a `WHERE` clause, with their arguments. -/
inductive Clause where
  | action (value : String)
  | host (value : String)
  | pid (value : UInt32)
  | tsAtLeast (nanos : ℤ)
  | tsAtMost (nanos : ℤ)
  | searchLike (pattern : String)
deriving Repr, DecidableEq

def Clause.holds (row : Row) : Clause → Bool
  | .action value => row.action = value
  | .host value => row.host = value
  | .pid value => row.pid = value
  | .tsAtLeast nanos => nanos ≤ row.ts
  | .tsAtMost nanos => row.ts ≤ nanos
  | .searchLike pattern => like row.search pattern

/-- The predicates of a query, in the order `Query.sql` adds them. -/
def Query.sql (u : Go.Unicode) (q : Query) : List Clause :=
  (if q.action ≠ "" then [Clause.action q.action] else []) ++
  (if q.host ≠ "" then [Clause.host q.host] else []) ++
  (if q.pid ≠ 0 then [Clause.pid q.pid] else []) ++
  (q.since.toList.map fun t => Clause.tsAtLeast (unixNano t)) ++
  (q.until_.toList.map fun t => Clause.tsAtMost (unixNano t)) ++
  (if q.contains ≠ "" then [Clause.searchLike ("%" ++ Go.toLower u q.contains ++ "%")] else [])

def Query.selects (u : Go.Unicode) (q : Query) (row : Row) : Bool :=
  (q.sql u).all fun clause => clause.holds row

structure SQLite where
  events : Numbered Row.seq := {}

namespace SQLite

def append (u : Go.Unicode) (s : SQLite) (events : List Event) : SQLite where
  events := events.foldl (fun t e => t.add (fun n => rowOf u n e) fun _ => rfl) s.events

def orderBy (ascending : Bool) (a b : Row) : Prop :=
  if ascending then a.ts < b.ts ∨ a.ts = b.ts ∧ a.seq ≤ b.seq
  else b.ts < a.ts ∨ b.ts = a.ts ∧ b.seq ≤ a.seq

instance (ascending : Bool) : DecidableRel (orderBy ascending) := fun a b => by
  unfold orderBy; infer_instance

def query (u : Go.Unicode) (s : SQLite) (q : Query) : List Entry :=
  (((s.events.rows.filter (q.selects u)).insertionSort (orderBy q.ascending)).take q.cap).map
    Row.entry

def count (s : SQLite) : ℕ := s.events.rows.length

def prune (s : SQLite) (before : Time) : SQLite × ℕ :=
  let old : Row → Bool := fun row => row.ts < unixNano before
  ({ events := s.events.delete old }, s.events.rows.countP old)

end SQLite

/-! ## The interface -/

/-- A value of the `Store` interface: one of the two backends. -/
inductive Lake where
  | memory (m : Memory)
  | sqlite (s : SQLite)

namespace Lake

def open_ (kind dsn : String) : Except Go.Error Lake :=
  if kind = "memory" ∨ kind = "" then .ok (.memory {})
  else if kind = "sqlite" then
    if dsn = "" then
      .error (.errorf "eventstore %q requires a dsn (database file path)" [kind])
    else .ok (.sqlite {})
  else
    .error (.errorf
      "unknown eventstore %q (want memory|sqlite; clickhouse is the documented scale-out backend)"
      [kind])

variable (u : Go.Unicode)

def append (events : List Event) : Lake → Lake
  | .memory m => .memory (m.append events)
  | .sqlite s => .sqlite (s.append u events)

def query (q : Query) : Lake → List Entry
  | .memory m => m.query u q
  | .sqlite s => s.query u q

def count : Lake → ℕ
  | .memory m => m.count
  | .sqlite s => s.count

def prune (before : Time) : Lake → Lake × ℕ
  | .memory m => (m.prune before).map .memory id
  | .sqlite s => (s.prune before).map .sqlite id

end Lake

end ArgusEdr.EventStore
