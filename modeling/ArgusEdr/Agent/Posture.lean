import ArgusEdr.Lib.Runs
import ArgusEdr.Model.Bundle
import ArgusEdr.Agent.Lsm
import ArgusEdr.Agent.Respond

/-!
# The posture of a running agent (`cmd/argus`)

The response posture lives in two places: the responder's mode, which every action in userspace reads,
and the `enforce_config` map, which the LSM programs read. `start` sets both up from the configuration.
`step` is what can happen afterwards: the pipeline handles an alert, which reads the mode (`handleBegin`)
and later carries the decision out (`handleEnd`); between or inside the two, the fleet runner applies a
command of the control plane or the posture document of a pushed bundle.
-/

namespace ArgusEdr.Posture

open Respond

structure Command where
  kind : String
  argument : String
deriving Repr, DecidableEq

structure Agent where
  responder : Responder
  enforcement : Option Lsm.Object
  host : Host := {}
  handling : Option (Model.Alert × Responder.Plan) := none
deriving Repr, DecidableEq

def start (cfg : Config) (env : Lsm.LoadEnv) : Agent where
  responder := .new (parseMode cfg.response.mode) (parseMode cfg.response.maxMode)
    cfg.response.allowlistPaths
  enforcement := Lsm.startEnforcement cfg env

inductive Event where
  | handleBegin (alert : Model.Alert)
  | handleEnd (env : Env)
  | command (cmd : Command) (env : Env)
  | pushed (files : List RuleFile)

section
variable (decode : Go.Bytes → Except Go.Error Policy.Document)

/-- `applyPolicy`: the first file of the reserved name decides; an invalid document is
skipped. -/
def applyPolicy (files : List RuleFile) (r : Responder) : Responder :=
  match files.find? fun file => Go.base file.name = Policy.fileName with
  | none => r
  | some file =>
    match Policy.parse decode file.content with
    | .error _ => r
    | .ok parsed =>
      if parsed.responseMode ≠ "" then r.setMode (parseMode parsed.responseMode) else r

end

def onHost (a : Agent) (act : StateM Host Model.ResponseResult) : Agent :=
  { a with host := (act a.host).2 }

/-- `remoteKill`: an argument that is no 32-bit number is refused. -/
def remoteKill (a : Agent) (env : Env) (argument : String) : Agent :=
  match Go.parseUint (Go.trimSpace argument) 32 with
  | .error _ => a
  | .ok pid => onHost a (a.responder.requestKill env (UInt32.ofNat pid) "")

/-- `applyCommand`. `UPDATE_RULES` starts a rule sync, whose effect on the posture is the
event `pushed`. -/
def applyCommand (a : Agent) (cmd : Command) (env : Env) : Agent :=
  if cmd.kind = "UPDATE_RULES" then a
  else if cmd.kind = "SET_RESPONSE_MODE" then
    { a with responder := a.responder.setMode (parseMode cmd.argument) }
  else if cmd.kind = "KILL_PROCESS" then remoteKill a env cmd.argument
  else if cmd.kind = "QUARANTINE" then
    onHost a (a.responder.requestNetworkBlock env (Go.trimSpace cmd.argument))
  else a

/-- The second half of `Handle`, for the alert in progress. -/
def handleEnd (a : Agent) (env : Env) : Agent :=
  match a.handling with
  | none => a
  | some (alert, plan) =>
    { a with handling := none, host := (Responder.finish env alert plan a.host).2 }

def step (decode : Go.Bytes → Except Go.Error Policy.Document) (a : Agent) : Event → Agent
  -- the pipeline handles one alert at a time
  | .handleBegin alert =>
    match a.handling with
    | none => { a with handling := some (alert, a.responder.plan alert) }
    | some _ => a
  | .handleEnd env => handleEnd a env
  | .command cmd env => applyCommand a cmd env
  | .pushed files => { a with responder := applyPolicy decode files a.responder }

end ArgusEdr.Posture
