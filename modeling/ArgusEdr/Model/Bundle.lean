import ArgusEdr.Go.Text

/-!
# What the control plane distributes (`internal/fleet`, `internal/policy`)

A rule bundle is a list of named files under a version. One reserved name carries the posture
document: the rule loader takes `*.yaml` files only, and the reserved name ends in `.yml`.
-/

namespace ArgusEdr

@[ext]
structure RuleFile where
  name : String
  content : Go.Bytes
deriving Repr, DecidableEq

structure Bundle where
  version : String
  files : List RuleFile
deriving Repr, DecidableEq

/-- The shape of a bundle the control plane serves: the files have distinct names, and each
name is that of a file in a directory. -/
structure Bundle.WellFormed (b : Bundle) : Prop where
  nodup : (b.files.map RuleFile.name).Nodup
  isEntryName : ∀ file ∈ b.files, Go.IsEntryName file.name

namespace Policy

/-- The reserved bundle entry that carries the policy. -/
def fileName := "argus-policy.yml"

structure Document where
  responseMode : String := ""
deriving Repr, DecidableEq

def validModes (mode : String) : Bool := mode ∈ ["off", "dry-run", "enforce"]

def parse (decode : Go.Bytes → Except Go.Error Document) (data : Go.Bytes) :
    Except Go.Error Document :=
  match decode data with
  | .error err => .error (.wrapf "parse policy: %w" [] err)
  | .ok parsed =>
    if parsed.responseMode ≠ "" ∧ ¬validModes parsed.responseMode then
      .error (.errorf "policy response.mode %q invalid (want off|dry-run|enforce)"
        [parsed.responseMode])
    else .ok parsed

end Policy
end ArgusEdr
