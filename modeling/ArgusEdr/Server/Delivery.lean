import ArgusEdr.Lib.Pool
import ArgusEdr.Server.Service

/-!
# Command delivery (`server/api`, `cmd/argus`)

Operators and playbooks queue commands for an agent, which gets them in the answers to its heartbeats. A
heartbeat is an RPC over a network: `Call` is one of them and `Stage` says how far it has come.
`Heartbeat` takes the commands off the queue before its answer is on the way, and between any two of its
steps other heartbeats, also of the same agent, take theirs. A request or a response on its way may be
lost, which also stands for a client that gives up.
-/

namespace ArgusEdr.Delivery

open Identity (Status)
open Store (Stats Command Backend)

inductive Stage where
  /-- the request is on its way -/
  | requested
  /-- in `authorizeIdentity` -/
  | checking (request : ℕ)
  /-- before `store.Heartbeat` -/
  | beating
  /-- before `DrainCommands` -/
  | draining (id : String)
  /-- before `rules.Version`, with the commands drained -/
  | answering (drained : List Command)
  /-- the response is on its way; the message is what the agent will read -/
  | responding (drained message : List Command)
  | received (drained message : List Command)
  /-- the request, or the response with the commands drained for it, has been lost -/
  | lost (drained : List Command)
  | refused (status : Status)

structure Call where
  agentID : String
  fingerprint : String
  stats : Stats := {}
  stage : Stage := .requested

/-- What the calls share. `enqueued` lists the commands accepted so far, with their agents. -/
structure Control where
  identity : Identity.Service
  version : String
  enqueued : List (String × Command) := []

inductive Move where
  /-- the control plane takes its next step -/
  | serve (now : Model.Time)
  /-- the response arrives -/
  | deliver
  /-- the message on its way is lost -/
  | lose

/-- The next step of `Heartbeat`. The identity check is that of `Identity`, which promotes a staged
certificate in a step of its own. -/
def serve (now : Model.Time) (c : Control) (call : Call) : Control × Call :=
  match call.stage with
  | .requested =>
    ({ c with identity := Identity.step c.identity (.get call.agentID call.fingerprint) },
      { call with stage := .checking c.identity.requests.length })
  | .checking request =>
    match (c.identity.requests[request]?).map Identity.Request.verdict with
    | some (.accepted _) => (c, { call with stage := .beating })
    | some (.rejected status) => (c, { call with stage := .refused status })
    | some (.promoting _) | none => (c, call)
  | .beating =>
    let (store, found) := c.identity.store.heartbeat call.agentID now call.stats
    let c := { c with identity := { c.identity with store } }
    match found with
    | none =>
      (c,
        { call with
          stage := .refused
            { code := .notFound
              message := .errorf "unknown agent %q: re-enroll" [call.agentID] } })
    | some agent => (c, { call with stage := .draining agent.id })
  | .draining id =>
    let (store, commands) := c.identity.store.drainCommands id
    ({ c with identity := { c.identity with store } }, { call with stage := .answering commands })
  | .answering drained =>
    (c,
      { call with
        stage := .responding drained
          (Service.heartbeatEnd c.version call.stats.rulesVersion drained) })
  | .responding .. | .received .. | .lost _ | .refused _ => (c, call)

def advance (move : Move) (c : Control) (call : Call) : Control × Call :=
  match move with
  | .serve now => serve now c call
  | .deliver =>
    match call.stage with
    | .responding drained message => (c, { call with stage := .received drained message })
    | .requested | .checking _ | .beating | .draining _ | .answering _ | .received .. | .lost _
    | .refused _ => (c, call)
  | .lose =>
    match call.stage with
    | .requested => (c, { call with stage := .lost [] })
    | .responding drained _ => (c, { call with stage := .lost drained })
    | .checking _ | .beating | .draining _ | .answering _ | .received .. | .lost _ | .refused _ =>
      (c, call)

structure World where
  control : Control
  calls : List Call := []

def start (backend : Backend) (token version : String) : World where
  control := { identity := Identity.start backend token, version }

inductive Event where
  /-- an enrollment, a rotation, a step of an identity check, or a heartbeat recorded otherwise -/
  | identity (e : Identity.Event)
  /-- an operator or a playbook queues a command -/
  | enqueue (agentID : String) (cmd : Command)
  /-- another ruleset is served -/
  | reload (version : String)
  /-- an agent sends a heartbeat -/
  | send (agentID fingerprint : String) (stats : Stats)
  /-- something happens to call `n` -/
  | call (n : ℕ) (move : Move)

/-- `EnqueueCommand`, which refuses a command for an agent it does not know. -/
def enqueue (c : Control) (agentID : String) (cmd : Command) : Control :=
  let (store, ok) := c.identity.store.enqueueCommand agentID cmd
  { c with
    identity := { c.identity with store }
    enqueued := if ok then c.enqueued ++ [(agentID, cmd)] else c.enqueued }

def step (w : World) : Event → World
  | .identity e =>
    { w with control := { w.control with identity := Identity.step w.control.identity e } }
  | .enqueue agentID cmd => { w with control := enqueue w.control agentID cmd }
  | .reload version => { w with control := { w.control with version } }
  | .send agentID fingerprint stats =>
    { w with calls := w.calls ++ [{ agentID, fingerprint, stats }] }
  | .call n move =>
    let (control, calls) := Pool.advanceAt (advance move) w.control w.calls n
    { control, calls }

/-! ## Where the commands are -/

/-- The commands a call has taken off the queue and not delivered yet. -/
def Call.inFlight (call : Call) : List Command :=
  match call.stage with
  | .answering drained | .responding drained _ => drained
  | .requested | .checking _ | .beating | .draining _ | .received .. | .lost _ | .refused _ => []

def Call.received (call : Call) : List Command :=
  match call.stage with
  | .received drained _ => drained
  | .requested | .checking _ | .beating | .draining _ | .answering _ | .responding .. | .lost _
  | .refused _ => []

def Call.lost (call : Call) : List Command :=
  match call.stage with
  | .lost drained => drained
  | .requested | .checking _ | .beating | .draining _ | .answering _ | .responding .. | .received ..
  | .refused _ => []

def World.held (w : World) (part : Call → List Command) (agentID : String) : Multiset Command :=
  Pool.total (fun call => if call.agentID = agentID then (part call : Multiset Command) else 0)
    w.calls

def Control.enqueuedFor (c : Control) (agentID : String) : Multiset Command :=
  (c.enqueued.filter fun entry => entry.1 = agentID).map Prod.snd

def Control.queued (c : Control) (agentID : String) : Multiset Command :=
  c.identity.store.queue agentID

/-- Every command accepted for an agent is in its queue, in flight to it, or received by it, and in
one of these only. -/
def Accounted (w : World) : Prop :=
  ∀ agentID, w.control.enqueuedFor agentID =
    w.control.queued agentID + w.held Call.inFlight agentID + w.held Call.received agentID

/-- No response that carries commands is lost. -/
def LosesNothing (w : World) : Event → Prop
  | .call n .lose =>
    ∀ call, w.calls[n]? = some call →
      ∀ drained message, call.stage = .responding drained message → drained = []
  | .call _ (.serve _) | .call _ .deliver | .identity _ | .enqueue .. | .reload _ | .send .. => True

end ArgusEdr.Delivery
