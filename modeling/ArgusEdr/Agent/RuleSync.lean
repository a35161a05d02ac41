import ArgusEdr.Agent.Posture
import ArgusEdr.Detect.Loader

/-!
# Rule sync of an agent (`cmd/argus/fleet.go`)

`syncRules` asks the control plane for its ruleset, writes the files of the answer into the
rules directory one by one, compiles the whole directory, and only then swaps the engine,
applies the posture document and records the version. Each step may fail and ends the sync
there; `Env` says which do.
-/

namespace ArgusEdr.RuleSync

open Go (Library Fault Directory)
open Detect (Rule Decoder loadDir)
open Respond (Responder)

structure Reply where
  version : String
  unchanged : Bool := false
  files : List RuleFile := []
deriving Repr, DecidableEq

def Reply.bundle (r : Reply) : Bundle := { version := r.version, files := r.files }

/-- How the operating system answers during one sync: `os.MkdirAll`, the write of each file,
and an error of reading the directory back, if there is one. -/
structure Env where
  mkdir : Except Go.Error Unit := .ok ()
  write : ℕ → Directory.WriteOutcome := fun _ => .written
  readBack : Option Go.Error := none

/-- The loop of `writeRuleFiles`: each name is reduced to its base. -/
def writeFiles : Directory → List RuleFile → (ℕ → Directory.WriteOutcome) →
    Directory × Except Go.Error Unit
  | d, [], _ => (d, .ok ())
  | d, file :: files, write =>
    match d.writeFile (Go.base file.name) file.content (write 0) with
    | (d', .error err) => (d', .error (.wrapf "write %s: %w" [Go.base file.name] err))
    | (d', .ok ()) => writeFiles d' files fun n => write (n + 1)

def writeRuleFiles (d : Directory) (files : List RuleFile) (env : Env) :
    Directory × Except Go.Error Unit :=
  match env.mkdir with
  | .error err => (d, .error (.wrapf "create rules dir: %w" [] err))
  | .ok () => writeFiles d files env.write

inductive Result where
  | pullFailed (err : Go.Error)
  | unchanged
  | writeFailed (err : Go.Error)
  | compileFailed (fault : Fault)
  | applied
deriving Repr, DecidableEq

variable [Library]

/-- The state of an agent a sync works on. The engine is its rules: the correlator and the
threat intelligence are carried over from engine to engine. -/
structure Agent where
  rulesDir : Directory
  engine : List Rule
  rulesVersion : String
  responder : Responder

section
variable (decode : Decoder) (decodePolicy : Go.Bytes → Except Go.Error Policy.Document)

def loadEngine (d : Directory) (env : Env) : Except Fault (List Rule) :=
  match env.readBack with
  | some err => .error (.err (.wrapf "read rule file: %w" [] err))
  | none => loadDir decode d

/-- `syncRules` from the point where it holds a changed ruleset. -/
def install (a : Agent) (env : Env) (bundle : Bundle) : Agent × Result :=
  match writeRuleFiles a.rulesDir bundle.files env with
  | (d, .error err) => ({ a with rulesDir := d }, .writeFailed err)
  | (d, .ok ()) =>
    match loadEngine decode d env with
    -- the files stay where they are: nothing is rolled back
    | .error fault => ({ a with rulesDir := d }, .compileFailed fault)
    | .ok rules =>
      ({ rulesDir := d
         engine := rules
         rulesVersion := bundle.version
         responder := Posture.applyPolicy decodePolicy bundle.files a.responder }, .applied)

def syncRules (a : Agent) (env : Env) (pull : Except Go.Error Reply) : Agent × Result :=
  match pull with
  | .error err => (a, .pullFailed err)
  | .ok reply =>
    if reply.unchanged then (a, .unchanged) else install decode decodePolicy a env reply.bundle

/-- The rules of a bundle: those of its `*.yaml` files. -/
def bundleRules (files : List RuleFile) : List Rule :=
  (files.filter fun file => Detect.isRuleFile file.name).flatMap (Detect.rulesOf decode)

end

end ArgusEdr.RuleSync
