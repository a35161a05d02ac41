import ArgusEdr.Agent.RuleSync
import ArgusEdr.Server.Service

/-!
# One agent against one control plane (`cmd/argus/fleet.go`, `server/api`)

An agent compiles the rules it finds on disk, enrolls, and from then on its fleet runner syncs once and
heartbeats at every tick. A heartbeat reports the version of the ruleset; the control plane answers with
the commands queued for it, headed by `UPDATE_RULES` if that version is not the one it serves. Between
any two steps of the runner the ruleset may be swapped, a command queued or an RPC fail.
-/

namespace ArgusEdr.Fleet

open Go (Library Directory)
open Detect (Rule Decoder loadDir)
open Respond (Responder)
open RuleSync (Reply)

/-- Where the runner stands. The commands are those of a heartbeat still to be applied. -/
inductive Phase where
  /-- waiting for the ticker -/
  | idle
  /-- a heartbeat has been sent -/
  | awaiting (reported : String)
  /-- the control plane has taken the commands off the queue -/
  | answering (reported : String) (drained : List Store.Command)
  /-- in the loop over the commands of a heartbeat -/
  | applying (commands : List Posture.Command)
  /-- about to call `FetchRules` -/
  | syncing (commands : List Posture.Command)
  /-- holds the answer of `FetchRules` -/
  | fetched (reply : Reply) (commands : List Posture.Command)
deriving Repr, DecidableEq

section
variable [Library]

/-- The control plane and the agent. `past` and `applied` record the bundles served before and
whether a sync has been applied. -/
structure World where
  store : Store
  served : Bundle
  past : List Bundle := []
  agentID : String
  agent : RuleSync.Agent
  host : Respond.Host := {}
  phase : Phase := .syncing []
  applied : Bool := false

inductive Event where
  /-- the control plane swaps in a ruleset -/
  | reload (bundle : Bundle)
  /-- a command is queued for an agent -/
  | enqueue (agentID : String) (cmd : Store.Command)
  /-- an operator stages a certificate -/
  | setPendingCert (agentID fingerprint : String)
  /-- the ticker fires -/
  | tick
  /-- the control plane takes up the heartbeat -/
  | heartbeatBegin (fingerprint : String) (now : Model.Time) (stats : Store.Stats)
  /-- the control plane answers it -/
  | heartbeatEnd
  /-- the RPC in progress fails -/
  | rpcFails
  /-- the runner takes up the next command -/
  | apply (env : Respond.Env)
  /-- `GetRules` is called and answered -/
  | fetch
  /-- the runner does the rest of `syncRules` -/
  | install (env : RuleSync.Env)

variable (decode : Decoder) (decodePolicy : Go.Bytes → Except Go.Error Policy.Document)

/-- Start-up: the engine is compiled from the directory, then the agent enrolls and takes over
the version the control plane serves. `none` if either fails. -/
def start (dir : Directory) (responder : Responder) (served : Bundle) (store : Store)
    (token id : String) (now : Model.Time) (req : Identity.EnrollRequest) : Option World :=
  match loadDir decode dir with
  | .error _ => none
  | .ok rules =>
    match Identity.enroll token store id now req with
    | .error _ => none
    | .ok (store, enrolled) => some
      -- the version is the one served, whatever the rules on disk are
      { store
        served
        agentID := enrolled.id
        agent := { rulesDir := dir, engine := rules, rulesVersion := served.version, responder } }

def World.bundles (w : World) : List Bundle := w.served :: w.past

/-- `applyCommand` for a command other than `UPDATE_RULES`. -/
def applyOther (w : World) (env : Respond.Env) (cmd : Posture.Command) : World :=
  let after := Posture.applyCommand
    { responder := w.agent.responder, enforcement := none, host := w.host } cmd env
  { w with agent := { w.agent with responder := after.responder }, host := after.host }

/-- The runner takes up the next command of a heartbeat. -/
def applyNext (w : World) (env : Respond.Env) : List Posture.Command → World
  | [] => { w with phase := .idle }
  | cmd :: rest =>
    if cmd.kind = "UPDATE_RULES" then { w with phase := .syncing rest }
    else { applyOther w env cmd with phase := .applying rest }

def heartbeatBegin (w : World) (reported fingerprint : String) (now : Model.Time)
    (stats : Store.Stats) : World :=
  match Service.heartbeatBegin w.store w.agentID fingerprint now
    { stats with rulesVersion := reported } with
  | (store, .error _) => { w with store, phase := .idle }
  | (store, .ok commands) => { w with store, phase := .answering reported commands }

def heartbeatEnd (w : World) (reported : String) (drained : List Store.Command) : World :=
  { w with
    phase := .applying ((Service.heartbeatEnd w.served.version reported drained).map
      fun cmd => { kind := cmd.kind, argument := cmd.argument }) }

def fetchRules (w : World) : Reply :=
  let (version, unchanged, files) := Service.getRules w.served w.agent.rulesVersion
  { version, unchanged, files }

def install (w : World) (env : RuleSync.Env) (reply : Reply) (rest : List Posture.Command) :
    World :=
  let (agent, result) := RuleSync.syncRules decode decodePolicy w.agent env (.ok reply)
  { w with
    agent := agent
    phase := .applying rest
    applied := w.applied || decide (result = .applied) }

/-- The step of the runner or of the control plane that answers it; an event the runner is not
at does nothing. -/
def runner (w : World) : Event → World
  | .tick =>
    match w.phase with
    | .idle => { w with phase := .awaiting w.agent.rulesVersion }
    | _ => w
  | .heartbeatBegin fingerprint now stats =>
    match w.phase with
    | .awaiting reported => heartbeatBegin w reported fingerprint now stats
    | _ => w
  | .heartbeatEnd =>
    match w.phase with
    | .answering reported drained => heartbeatEnd w reported drained
    | _ => w
  | .rpcFails =>
    match w.phase with
    -- commands the control plane has drained by then are lost
    | .awaiting _ | .answering .. => { w with phase := .idle }
    | .syncing rest => { w with phase := .applying rest }
    | _ => w
  | .apply env =>
    match w.phase with
    | .applying commands => applyNext w env commands
    | _ => w
  | .fetch =>
    match w.phase with
    | .syncing rest => { w with phase := .fetched (fetchRules w) rest }
    | _ => w
  | .install env =>
    match w.phase with
    | .fetched reply rest => install decode decodePolicy w env reply rest
    | _ => w
  | .reload _ | .enqueue .. | .setPendingCert .. => w

def step (w : World) : Event → World
  | .reload bundle => { w with served := bundle, past := w.served :: w.past }
  | .enqueue agentID cmd => { w with store := (w.store.enqueueCommand agentID cmd).1 }
  | .setPendingCert agentID fingerprint =>
    { w with store := (w.store.setPendingCert agentID fingerprint).1 }
  | e => runner decode decodePolicy w e

/-! ## What is said about it -/

def Reports (w : World) (e : Event) : Prop := e matches .tick ∧ w.phase = .idle

/-- The engine has been compiled from the rule files of a bundle served under the version the
agent reports. -/
def RunsReported (w : World) : Prop :=
  ∃ b ∈ w.bundles, b.version = w.agent.rulesVersion ∧
    w.agent.engine.Perm (RuleSync.bundleRules decode b.files)

def InstallsExactly (w : World) : Event → Prop
  | .install env => ∀ reply rest, w.phase = .fetched reply rest →
    (RuleSync.syncRules decode decodePolicy w.agent env (.ok reply)).2 = .applied →
      (RuleSync.syncRules decode decodePolicy w.agent env (.ok reply)).1.engine.Perm
        (RuleSync.bundleRules decode reply.files)
  | .reload _ | .enqueue .. | .setPendingCert .. | .tick | .heartbeatBegin .. | .heartbeatEnd
  | .rpcFails | .apply _ | .fetch => True

end

end ArgusEdr.Fleet
