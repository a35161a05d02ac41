import ArgusEdr.Agent.Respond
import ArgusEdr.Detect.Engine

/-!
# The pipeline (`internal/pipeline`)

`Run` starts the source in a goroutine of its own, which sends events into a buffered channel, and
takes them out again one by one. `process` works through the stages of one event. Other goroutines may
swap the engine, change the posture of the responder, act on the host and cancel the context.

`World` is all of it and `step` one atomic step of somebody. The enricher and the scorer are parameters
with a state of their own, which also stands for what they look up on the host.
-/

namespace ArgusEdr.Pipeline

open Correlate (Correlator Incident)
open Detect (Engine Result)
open Go (Library)
open Model (Event Alert Time)
open Respond (Responder Host Mode)

variable [Library]

/-! ## State -/

/-- The collaborators that do not change: a nil enricher or scorer is none. -/
structure Params (σ : Type) where
  enricher : Option (σ → Event → σ × Event) := none
  scorer : Option (σ → Event → σ × Int64) := none
  bufferSize : ℤ := 0

def defaultBufferSize : ℕ := 4096

def Params.capacity {σ : Type} (params : Params σ) : ℕ :=
  if params.bufferSize ≤ 0 then defaultBufferSize else params.bufferSize.toNat

/-- A call of the sink. -/
inductive Attempt where
  | event (event : Event)
  | alert (alert : Alert)
  | incident (incident : Incident)
  | flush
deriving DecidableEq

inductive SourcePhase where
  /-- in `Source.Run` -/
  | running
  /-- before `close(events)` -/
  | closing (err : Option Go.Error)
  /-- before `sourceErr <- err` -/
  | reporting (err : Option Go.Error)
  | done
deriving DecidableEq

/-- Where `Run` is: at the channel, at a stage of `process`, or behind its loop. -/
inductive Phase where
  | receiving
  | enriching (event : Event)
  | scoring (event : Event)
  /-- before `engine.Load` -/
  | loading (event : Event)
  | evaluating (event : Event) (engine : Engine)
  /-- before `Handle` of the first of `todo` -/
  | responding (event : Event) (handled todo : List Alert) (incident : Option Incident)
  /-- inside `Handle`, which has read the mode -/
  | handling (event : Event) (handled : List Alert) (alert : Alert) (plan : Responder.Plan)
      (todo : List Alert) (incident : Option Incident)
  | writingEvent (event : Event) (alerts : List Alert) (incident : Option Incident)
  | writingAlerts (todo : List Alert) (incident : Option Incident)
  | flushing
  /-- before `<-sourceErr` -/
  | awaiting
  | returned (err : Option Go.Error)

instance (phase : Phase) (err : Option Go.Error) : Decidable (phase = .returned err) :=
  match phase with
  | .returned err' => decidable_of_iff (err' = err) (by simp)
  | .receiving | .enriching .. | .scoring .. | .loading .. | .evaluating .. | .responding ..
  | .handling .. | .writingEvent .. | .writingAlerts .. | .flushing | .awaiting => .isFalse (by simp)

structure Stats where
  events : UInt64 := 0
  alerts : UInt64 := 0
  incidents : UInt64 := 0
deriving Repr, DecidableEq

/-- `sent`, `taken` and `attempts` record what has happened: the events the source has sent, how many
were taken out of the channel, and the calls of the sink. -/
structure World (σ : Type) where
  engine : Engine
  correlators : ℕ → Correlator
  stages : σ
  responder : Option Responder
  host : Host := {}
  cancelled : Bool := false
  source : SourcePhase := .running
  buffer : List Event := []
  closed : Bool := false
  sourceErr : Option (Option Go.Error) := none
  consumer : Phase := .receiving
  stats : Stats := {}
  log : List (String × Go.Error) := []
  sent : List Event := []
  taken : ℕ := 0
  attempts : List Attempt := []

def start {σ : Type} (engine : Engine) (correlators : ℕ → Correlator) (stages : σ)
    (responder : Option Responder) : World σ :=
  { engine, correlators, stages, responder }

/-- What a step of the consumer may meet: the clock, the answer of the sink, and the host. -/
structure Env where
  clock : Time := 0
  sink : Option Go.Error := none
  host : Respond.Env := .obliging

inductive Move where
  /-- the source sends an event, if the channel has room -/
  | send (event : Event)
  /-- `Source.Run` returns -/
  | finish (err : Option Go.Error)
  /-- the rest of the goroutine -/
  | next

inductive Step where
  | source (move : Move)
  | consume (env : Env)
  | cancel
  | setEngine (engine : Engine)
  | setMode (mode : Mode)
  /-- others act on the host -/
  | others (host : Host)

section
variable {σ : Type} (params : Params σ)

/-! ## Steps -/

def sourceStep (w : World σ) (move : Move) : World σ :=
  match w.source, move with
  | .running, .send event =>
    -- a full channel blocks
    if w.buffer.length < params.capacity then
      { w with buffer := w.buffer ++ [event], sent := w.sent ++ [event] }
    else w
  | .running, .finish err => { w with source := .closing err }
  | .closing err, .next => { w with source := .reporting err, closed := true }
  | .reporting err, .next => { w with source := .done, sourceErr := some err }
  | _, _ => w

/-- A call of the sink, whose error is logged and nothing else. -/
def World.write (w : World σ) (env : Env) (attempt : Attempt) (message : String) : World σ :=
  { w with
    attempts := w.attempts ++ [attempt]
    log :=
      match env.sink with
      | none => w.log
      | some err => w.log ++ [(message, err)] }

/-- The range over the channel: the next event, or the end if the channel is closed and empty. -/
def receive (w : World σ) : World σ :=
  match w.buffer with
  | event :: rest =>
    { w with
      buffer := rest
      taken := w.taken + 1
      stats := { w.stats with events := w.stats.events + 1 }
      consumer := .enriching event }
  | [] => if w.closed then { w with consumer := .flushing } else w

def enrichStep (w : World σ) (event : Event) : World σ :=
  match params.enricher with
  | none => { w with consumer := .scoring event }
  | some enrich =>
    let (stages, event) := enrich w.stages event
    { w with stages, consumer := .scoring event }

def scoreStep (w : World σ) (event : Event) : World σ :=
  match params.scorer with
  | none => { w with consumer := .loading event }
  | some score =>
    let (stages, anomalyPercent) := score w.stages event
    { w with stages, consumer := .loading { event with anomalyPercent } }

def evaluateStep (w : World σ) (env : Env) (event : Event) (engine : Engine) : World σ :=
  let (correlators, result) := engine.evaluate w.correlators env.clock event
  { w with correlators, consumer := .responding event [] result.alerts result.incident }

/-- The loop over the alerts of the response stage. -/
def respondStep (w : World σ) (event : Event) (handled todo : List Alert)
    (incident : Option Incident) : World σ :=
  match w.responder, todo with
  | some responder, alert :: rest =>
    { w with consumer := .handling event handled alert (responder.plan alert) rest incident }
  | none, _ | some _, [] => { w with consumer := .writingEvent event (handled ++ todo) incident }

def handleStep (w : World σ) (env : Env) (event : Event) (handled : List Alert) (alert : Alert)
    (plan : Responder.Plan) (todo : List Alert) (incident : Option Incident) : World σ :=
  let (alert, host) := Responder.finish env.host alert plan w.host
  { w with host, consumer := .responding event (handled ++ [alert]) todo incident }

def emitStep (w : World σ) (env : Env) (todo : List Alert) (incident : Option Incident) : World σ :=
  match todo, incident with
  | alert :: rest, incident =>
    { w.write env (.alert alert) "write alert" with
      stats := { w.stats with alerts := w.stats.alerts + 1 }
      consumer := .writingAlerts rest incident }
  | [], some incident =>
    { w.write env (.incident incident) "write incident" with
      stats := { w.stats with incidents := w.stats.incidents + 1 }
      consumer := .receiving }
  | [], none => { w with consumer := .receiving }

def consumeStep (w : World σ) (env : Env) : World σ :=
  match w.consumer with
  | .receiving => receive w
  | .enriching event => enrichStep params w event
  | .scoring event => scoreStep params w event
  | .loading event => { w with consumer := .evaluating event w.engine }
  | .evaluating event engine => evaluateStep w env event engine
  | .responding event handled todo incident => respondStep w event handled todo incident
  | .handling event handled alert plan todo incident =>
    handleStep w env event handled alert plan todo incident
  | .writingEvent event alerts incident =>
    { w.write env (.event event) "write event" with consumer := .writingAlerts alerts incident }
  | .writingAlerts todo incident => emitStep w env todo incident
  | .flushing => { w.write env .flush "sink flush failed" with consumer := .awaiting }
  | .awaiting =>
    match w.sourceErr with
    | none => w
    -- cancellation is a clean stop
    | some err => { w with consumer := .returned (if w.cancelled then none else err) }
  | .returned _ => w

def step (w : World σ) : Step → World σ
  | .source move => sourceStep params w move
  | .consume env => consumeStep params w env
  | .cancel => { w with cancelled := true }
  | .setEngine engine => { w with engine }
  | .setMode mode => { w with responder := w.responder.map fun r => r.setMode mode }
  | .others host => { w with host }

/-! ## What is said about it -/

def unanswered (alert : Alert) : Alert := { alert with response := none }

def Params.enriched (stages : σ) (event : Event) : Event :=
  match params.enricher with
  | none => event
  | some enrich => (enrich stages event).2

def Params.scored (stages : σ) (event : Event) : Event :=
  match params.scorer with
  | none => event
  | some score => { event with anomalyPercent := (score stages event).2 }

/-- The event as the stages before detection leave it. -/
def Prepared (sent event : Event) : Prop :=
  ∃ s s' : σ, event = params.scored s' (params.enriched s sent)

/-- What becomes of one event. -/
structure Output where
  sent : Event
  event : Event
  engine : Engine
  result : Result
  written : List Alert

def Output.attempts (o : Output) : List Attempt :=
  .event o.event :: (o.written.map .alert ++ (o.result.incident.map .incident).toList)

/-- The engine of event number `k` is loaded: it is the one installed. -/
def Loads (k : ℕ) (event : Event) (engine : Engine) (w : World σ) (e : Step) : Prop :=
  (∃ env, e = .consume env) ∧ w.taken = k + 1 ∧ w.consumer = .loading event ∧ w.engine = engine

/-- Event number `k` is evaluated, with this result. -/
def Evaluates (k : ℕ) (event : Event) (engine : Engine) (result : Result) (w : World σ) (e : Step) :
    Prop :=
  w.taken = k + 1 ∧ w.consumer = .evaluating event engine ∧
    ∃ env, e = .consume env ∧ (engine.evaluate w.correlators env.clock event).2 = result

/-- The output is that of event number `k`: its result is that of one engine, which was installed
while the event was processed, and what is written are the alerts of that result. -/
structure Computed (start : World σ) (es : List Step) (k : ℕ) (o : Output) : Prop where
  prepared : Prepared params o.sent o.event
  loaded : Runs.SomeStep (step params) (Loads k o.event o.engine) start es
  evaluated : Runs.SomeStep (step params) (Evaluates k o.event o.engine o.result) start es
  written : o.written.map unanswered = o.result.alerts

def Step.quiet : Step → Step
  | .consume env => .consume { env with sink := none }
  | .source move => .source move
  | .cancel => .cancel
  | .setEngine engine => .setEngine engine
  | .setMode mode => .setMode mode
  | .others host => .others host

end

end ArgusEdr.Pipeline
