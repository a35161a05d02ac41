import ArgusEdr.Model.Bundle
import ArgusEdr.Server.Identity

/-!
# The agent-facing service (`server/api`)

`Heartbeat` and `GetRules`, over the store and the ruleset provider. A heartbeat is answered in
two steps, since the ruleset may be swapped between them: `heartbeatBegin` checks the caller,
records its counters and takes its commands off the queue; `heartbeatEnd` compares the version
the agent reported with the one served by then.
-/

namespace ArgusEdr.Service

open Identity (Status authorizeIdentity)
open Store (Stats Command)

/-- The names of the `Command.Kind` enumeration of the protocol. -/
def commandKinds : List String :=
  ["KIND_UNSPECIFIED", "UPDATE_RULES", "SET_RESPONSE_MODE", "KILL_PROCESS", "QUARANTINE"]

/-- A command as the agent receives it: a kind the protocol does not know arrives as
unspecified. -/
def toProtoCommand (cmd : Command) : Command :=
  if cmd.kind ∈ commandKinds then cmd else { cmd with kind := "KIND_UNSPECIFIED" }

/-- `Heartbeat` up to the drained queue, for a caller that presents `fingerprint`. -/
def heartbeatBegin (s : Store) (agentID fingerprint : String) (now : Model.Time) (stats : Stats) :
    Store × Except Status (List Command) :=
  match authorizeIdentity s agentID fingerprint with
  | (checked, .error status) => (checked, .error status)
  | (checked, .ok _) =>
    match checked.heartbeat agentID now stats with
    | (beaten, none) =>
      (beaten, .error
        { code := .notFound, message := .errorf "unknown agent %q: re-enroll" [agentID] })
    | (beaten, some agent) =>
      let (drained, commands) := beaten.drainCommands agent.id
      (drained, .ok commands)

/-- The rest of `Heartbeat`: an agent that reports another version than the one served is told
to update, before anything else. -/
def heartbeatEnd (current reported : String) (commands : List Command) : List Command :=
  let commands :=
    if reported ≠ current then { kind := "UPDATE_RULES", argument := current } :: commands
    else commands
  commands.map toProtoCommand

def getRules (served : Bundle) (knownVersion : String) : String × Bool × List RuleFile :=
  if knownVersion = served.version then (served.version, true, [])
  else (served.version, false, served.files)

end ArgusEdr.Service
