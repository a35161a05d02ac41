import ArgusEdr.Detect.Loader
import ArgusEdr.Lib.Pool
import ArgusEdr.Lib.Runs

/-!
# The ruleset the control plane serves (`server/ruleset`)

`Reload` loads the rule directory once to validate it and a second time to collect the files it will
serve, and swaps them in under their content hash. Each listing and each read is a step of its own, by a
goroutine `reload`: an editor may replace, create or remove a file between any two of them, and an admin
may start another reload.
-/

namespace ArgusEdr.Ruleset

open Go (Library Fault Bytes Directory)
open Detect (Decoder Loading)

/-- How many hexadecimal digits of the content hash name a version. -/
def versionLen := 12

def digestInput (files : List RuleFile) : Bytes :=
  files.flatMap fun file =>
    Go.utf8 file.name ++ [0] ++ Go.utf8 (Go.formatUint file.content.length) ++ [0] ++ file.content

def hexDigits (n : UInt8) : List Char :=
  [(n.toNat / 16).digitChar, (n.toNat % 16).digitChar]

def version (sha256 : Bytes → Bytes) (files : List RuleFile) : String :=
  String.ofList (((sha256 (digestInput files)).flatMap hexDigits).take versionLen)

/-- The paths the provider is given; an empty policy path distributes rules only. -/
structure Config where
  dir : String
  policyFile : String := ""
deriving Repr, DecidableEq

/-- The file system and the provider. Nothing is served before the first reload succeeds. -/
structure Server where
  dir : Directory
  policy : Option Bytes := none
  bundle : Option Bundle := none

section
variable [Library]

inductive Reload where
  /-- about to list the directory, in `detect.LoadDir` -/
  | scan
  /-- in the loop of `detect.LoadDir`: the names still to read, what it carries, and the files
  it has taken so far -/
  | validate (todo : List String) (loading : Loading) (validated : List RuleFile)
  /-- validated, about to list the directory again -/
  | rescan (validated : List RuleFile)
  /-- in its own loop: the names still to read and the files to serve so far -/
  | collect (validated : List RuleFile) (todo : List String) (files : List RuleFile)
  /-- about to read the posture document -/
  | loadPolicy (files : List RuleFile)
  /-- about to swap the bundle in -/
  | swap (files : List RuleFile)
  | done
  | failed (fault : Fault)

/-- A fault with the context an error is wrapped in; a panic stays a panic. -/
def wrap (format : String) (args : List String) : Fault → Fault
  | .err e => .err (.wrapf format args e)
  | .nilDereference => .nilDereference

def noSuchFile (name : String) : Go.Error :=
  .errorf "open %s: no such file or directory" [name]

variable (decode : Decoder) (decodePolicy : Bytes → Except Go.Error Policy.Document)
  (sha256 : Bytes → Bytes) (cfg : Config)

/-- A failure of `detect.LoadDir` inside a reload. -/
def invalid (fault : Fault) : Reload := .failed (wrap "validate rules in %s: %w" [cfg.dir] fault)

/-- One iteration of the loop of `detect.LoadDir`: read the file and add its rules. -/
def validateNext (s : Server) (name : String) (todo : List String) (l : Loading)
    (validated : List RuleFile) : Reload :=
  match s.dir.read name with
  | none => invalid cfg (.err (.wrapf "read rule file: %w" [] (noSuchFile name)))
  | some content =>
    match Detect.addFile decode l { name, content } with
    | .error fault => invalid cfg fault
    | .ok l' => .validate todo l' (validated ++ [{ name, content }])

def validated (l : Loading) (files : List RuleFile) : Reload :=
  match Detect.finish l with
  | .error fault => invalid cfg fault
  | .ok _ => .rescan files

def collectNext (s : Server) (name : String) (validated : List RuleFile) (todo : List String)
    (files : List RuleFile) : Reload :=
  match s.dir.read name with
  | none => .failed (.err (.wrapf "read rule file %s: %w" [name] (noSuchFile name)))
  | some content => .collect validated todo (files ++ [{ name, content }])

/-- `loadPolicy`: the posture document joins the files if there is one. -/
def loadPolicy (s : Server) (files : List RuleFile) : Reload :=
  if cfg.policyFile = "" then .swap files
  else
    match s.policy with
    | none =>
      .failed (.err (.wrapf "read policy file %s: %w" [cfg.policyFile] (noSuchFile cfg.policyFile)))
    | some content =>
      match Policy.parse decodePolicy content with
      | .error err => .failed (.err err)
      | .ok _ => .swap (files ++ [{ name := Policy.fileName, content }])

def advance (s : Server) : Reload → Server × Reload
  | .scan => (s, .validate (s.dir.glob ".yaml") {} [])
  | .validate (name :: todo) l files => (s, validateNext decode cfg s name todo l files)
  | .validate [] l files => (s, validated cfg l files)
  -- `detect.LoadDir` has returned, and the directory is read a second time
  | .rescan files => (s, .collect files (s.dir.glob ".yaml") [])
  | .collect valid (name :: todo) files => (s, collectNext s name valid todo files)
  | .collect _ [] files => (s, .loadPolicy files)
  | .loadPolicy files => (s, loadPolicy decodePolicy cfg s files)
  -- only the swap is under the lock: of two reloads in progress the last one to get here wins
  | .swap files => ({ s with bundle := some { version := version sha256 files, files } }, .done)
  | .done => (s, .done)
  | .failed fault => (s, .failed fault)

inductive Event where
  /-- an editor replaces or creates a rule file -/
  | put (name : String) (content : Bytes)
  | remove (name : String)
  | putPolicy (content : Bytes)
  | removePolicy
  /-- `NewProvider`, or the admin's reload request -/
  | reload
  /-- reload `n` takes its next step -/
  | advance (n : ℕ)
deriving Repr, DecidableEq

structure World where
  server : Server
  reloads : List Reload := []

def start (dir : Directory) (policy : Option Bytes) : World where
  server := { dir, policy }

def step (w : World) : Event → World
  | .put name content => { w with server := { w.server with dir := w.server.dir.put name content } }
  | .remove name => { w with server := { w.server with dir := w.server.dir.remove name } }
  | .putPolicy content => { w with server := { w.server with policy := some content } }
  | .removePolicy => { w with server := { w.server with policy := none } }
  | .reload => { w with reloads := w.reloads ++ [.scan] }
  | .advance n =>
    let (server, reloads) :=
      Pool.advanceAt (advance decode decodePolicy sha256 cfg) w.server w.reloads n
    { server, reloads }

/-- `detect.LoadDir` accepts the files of a bundle, put into a directory of their own. -/
def Accepted (b : Bundle) : Prop :=
  ∃ rules, Detect.loadDir decode (Detect.putAll .empty b.files) = .ok rules

/-- The second pass of a reload sees what the first one validated: it lists the same names,
and each file it reads has the content the first pass read under that name. -/
def SeesValidated (s : Server) : Reload → Prop
  | .rescan files => s.dir.glob ".yaml" = files.map RuleFile.name
  | .collect valid (name :: _) _ =>
    ∀ file ∈ valid, file.name = name → s.dir.read name = some file.content
  | .scan | .validate .. | .collect _ [] _ | .loadPolicy _ | .swap _ | .done | .failed _ => True

instance (s : Server) : (r : Reload) → Decidable (SeesValidated s r)
  | .rescan files => inferInstanceAs (Decidable (s.dir.glob ".yaml" = files.map RuleFile.name))
  | .collect valid (name :: _) _ => inferInstanceAs
    (Decidable (∀ file ∈ valid, file.name = name → s.dir.read name = some file.content))
  | .scan | .validate .. | .collect _ [] _ | .loadPolicy _ | .swap _ | .done | .failed _ =>
    .isTrue trivial

/-- The event is not a step of a reload whose second pass sees something else. -/
def Undisturbed (w : World) : Event → Prop
  | .advance n => ∀ r ∈ w.reloads[n]?, SeesValidated w.server r
  | .put .. | .remove _ | .putPolicy _ | .removePolicy | .reload => True

instance (w : World) : (e : Event) → Decidable (Undisturbed w e)
  | .advance n => inferInstanceAs (Decidable (∀ r ∈ w.reloads[n]?, SeesValidated w.server r))
  | .put .. | .remove _ | .putPolicy _ | .removePolicy | .reload => .isTrue trivial

end

end ArgusEdr.Ruleset
