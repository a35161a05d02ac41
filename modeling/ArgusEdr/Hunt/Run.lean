import ArgusEdr.EventStore.Lake
import ArgusEdr.Hunt.Query

/-!
# Running hunts (`internal/hunt/hunt.go`)

`Run` asks the event lake for events and matches them against the query. A simple query filters and
cuts them; a sequence query puts them into groups and looks in each group for chains, with many matches
under way at the same time (`matchSequences`). The matcher is given for events of any type `α`, so that
a chain can be read as entries of the lake or as positions in the group. `none` is a panic.
-/

namespace ArgusEdr.Hunt

open EventStore (Entry Lake)
open Go (Library)
open Model (Event Time)

variable [Library]

def scanCap : ℤ := 50000

/-! ## Simple queries -/

def SimpleQuery.storeQuery (q : SimpleQuery) : EventStore.Query where
  action := if q.cls.all then "" else q.cls.action
  limit := scanCap

def SimpleQuery.run (u : Go.Unicode) (lake : Lake) (q : SimpleQuery) : List Event :=
  q.select ((lake.query u q.storeQuery).map Entry.event)

/-! ## Sequences -/

def Stage.matches (st : Stage) (e : Event) : Bool := st.cls.matches e && passes st.filter e

/-- `partial`: a match under way, with the events it has and the stage it waits for. -/
structure Partial (α : Type) where
  events : List α
  stage : ℕ
  start : Time

/-- What an event does to a match under way. -/
inductive Fate (α : Type) where
  | expired
  | waiting (p : Partial α)
  | complete (chain : List α)

section
variable {α : Type} (event : α → Event) (q : SequenceQuery)

/-- The window of a match has run out. -/
def SequenceQuery.expired (start now : Time) : Bool := 0 < q.within ∧ q.within < Time.sub now start

/-- The body of the loop of `advancePartials`. -/
def fate (e : α) (p : Partial α) : Option (Fate α) :=
  if q.expired p.start (event e).timestamp then some .expired
  else do
    let st ← q.stages[p.stage]?
    if !st.matches (event e) then return .waiting p
    else
      let advanced : Partial α := { p with events := p.events ++ [e], stage := p.stage + 1 }
      if advanced.stage = q.stages.length then return .complete advanced.events
      else return .waiting advanced

/-- The loop of `advancePartials` as it runs: `next` is `open[:0]` at first, so what it is given is
written into the array of `open`, behind the `kept` it has. -/
structure Sweep (α : Type) where
  array : List (Partial α)
  kept : ℕ := 0
  done : List (List α)

def sweepRound (e : α) (s : Sweep α) (i : ℕ) : Option (Sweep α) := do
  let p ← s.array[i]?
  match ← fate event q e p with
  | .expired => return s
  | .waiting p' => return { s with array := s.array.set s.kept p', kept := s.kept + 1 }
  | .complete chain => return { s with done := s.done ++ [chain] }

def advancePartials (open_ : List (Partial α)) (e : α) (done : List (List α)) :
    Option (List (Partial α) × List (List α)) := do
  let s ← (List.range open_.length).foldlM (sweepRound event q e) { array := open_, done }
  return (s.array.take s.kept, s.done)

def matchRound (state : List (Partial α) × List (List α)) (e : α) :
    Option (List (Partial α) × List (List α)) := do
  let (open_, done) ← advancePartials event q state.1 e state.2
  let first ← q.stages[0]?
  if first.matches (event e) then
    return (open_ ++ [{ events := [e], stage := 1, start := (event e).timestamp }], done)
  else return (open_, done)

def matchSequences (group : List α) : Option (List (List α)) :=
  (group.foldlM (matchRound event q) ([], [])).map Prod.snd

end

def SequenceQuery.groupKey (q : SequenceQuery) (e : Event) : Option String :=
  if q.byField = "" then some "" else (e.field q.byField).map toString

def SequenceQuery.groupBy (q : SequenceQuery) (entries : List Entry) :
    Std.ExtTreeMap String (List Entry) :=
  entries.foldl
    (fun groups entry =>
      match q.groupKey entry.event with
      | none => groups
      | some key => groups.alter key fun group => some (group.getD [] ++ [entry]))
    ∅

/-- `runSequence`, which goes through the keys of the groups in the order given. -/
def SequenceQuery.run (u : Go.Unicode) (lake : Lake) (order : List String) (q : SequenceQuery) :
    Option (List (List Entry)) := do
  let groups := q.groupBy (lake.query u { limit := scanCap, ascending := true })
  let chains ← order.mapM fun key => matchSequences Entry.event q (groups.getD key [])
  return chains.flatten

end ArgusEdr.Hunt
