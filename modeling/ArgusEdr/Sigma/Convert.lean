import ArgusEdr.Sigma.Detection

/-!
# Converting a Sigma rule (`internal/sigma/sigma.go`, `mapping.go`)

`convert` checks what a Sigma rule is about, compiles its detection block, and anchors the match
tree to the event action of the rule's category.
-/

namespace ArgusEdr.Sigma

open Go (Library Unicode Bytes)
open Detect (Condition)
open Parsing (Halt)

/-! ## Tables -/

def categoryActions : List (String × String) :=
  [("process_creation", "exec"),
   ("network_connection", "connect"),
   ("dns_query", "connect"),
   ("file_event", "open"),
   ("file_change", "chmod"),
   ("file_delete", "unlink"),
   ("file_rename", "rename")]

def levelSeverities : List (String × String) :=
  [("informational", "low"), ("low", "low"), ("medium", "medium"), ("high", "high"),
   ("critical", "critical")]

def severityRisks : List (String × ℤ) :=
  [("low", 25), ("medium", 50), ("high", 70), ("critical", 90)]

def tacticTags : List (String × String) :=
  [("initial_access", "initial-access"),
   ("execution", "execution"),
   ("persistence", "persistence"),
   ("privilege_escalation", "privilege-escalation"),
   ("defense_evasion", "defense-evasion"),
   ("credential_access", "credential-access"),
   ("discovery", "discovery"),
   ("lateral_movement", "lateral-movement"),
   ("collection", "collection"),
   ("command_and_control", "command-and-control"),
   ("exfiltration", "exfiltration"),
   ("impact", "impact"),
   ("reconnaissance", "reconnaissance"),
   ("resource_development", "resource-development")]

/-! ## Rules -/

structure SigmaRule where
  title : String := ""
  id : String := ""
  description : String := ""
  level : String := ""
  tags : List String := []
  category : String := ""
  product : String := ""
  detection : List (String × Node) := []

/-- `ruleDoc`: the rule as it is written to the rule file. -/
structure Rule [Library] where
  id : String
  name : String
  description : String
  severity : String
  technique : Option Model.Technique
  riskScore : ℤ
  condition : Condition

/-- What the importer takes from outside: the tables of `unicode`, the YAML decoder and SHA-1. -/
structure Environment [Library] where
  unicode : Unicode
  upper : Char → Char
  unmarshal : Bytes → Except Go.Error SigmaRule
  decoding : Decoding
  sha1 : Bytes → Bytes

/-- `techniqueTag`, behind `attack.`: a technique or a sub-technique. -/
def isTechnique : List Char → Bool
  | 't' :: a :: b :: c :: d :: rest =>
    [a, b, c, d].all Char.isDigit &&
      match rest with
      | [] => true
      | ['.', x, y, z] => [x, y, z].all Char.isDigit
      | _ => false
  | _ => false

/-- The first bytes of a text, as `strings.ToUpper` reads them: a character that is cut gives
one replacement character for each of its bytes. -/
def firstBytes : ℕ → List Char → List Char
  | _, [] => []
  | n, c :: cs =>
    if c.utf8Size ≤ n then c :: firstBytes (n - c.utf8Size) cs
    else List.replicate n '\uFFFD'

section
variable [Library] (env : Environment)

def severityFor (level : String) : String :=
  (levelSeverities.lookup (Go.toLower env.unicode level)).getD "medium"

def addTag (technique : Model.Technique) (rawTag : String) : Model.Technique :=
  let tag := Go.toLower env.unicode (Go.trimSpace rawTag)
  match (Go.cutPrefix tag "attack.").filter fun name => isTechnique name.toList with
  | some name => { technique with id := Go.toUpper env.upper name }
  | none =>
    match tacticTags.lookup (Go.trimStart tag "attack.") with
    | some tactic => { technique with tactic }
    | none => technique

def techniqueFor (tags : List String) : Option Model.Technique :=
  let technique := tags.foldl (addTag env) {}
  if technique.id = "" ∧ technique.tactic = "" then none else some technique

def ruleID (rule : SigmaRule) : String :=
  let compact := Go.replaceAll rule.id '-' ""
  if 8 ≤ compact.utf8ByteSize then
    "SIGMA-" ++ Go.toUpper env.upper (String.ofList (firstBytes 8 compact.toList))
  else
    let digest := env.sha1 (Go.utf8 rule.title)
    "SIGMA-" ++ Go.toUpper env.upper (String.ofList ((Go.hexString digest).toList.take 8))

omit env in
def isAndGroup (condition : Condition) : Bool :=
  !condition.all.isEmpty && condition.any.isEmpty && condition.not.isNone && condition.field = ""

omit env in
def anchorToAction (action : String) (detection : Condition) : Condition :=
  let guard := Condition.leaf "event.action" "eq" (.str action)
  if isAndGroup detection then
    { all := some guard :: detection.all, any := [], not := none, field := "", op := "", value := .null }
  else .allOf [guard, detection]

def convert (data : Bytes) : Except (Halt Go.Error) Rule := do
  match env.unmarshal data with
  | .error err => .error (.err (.wrapf "parse sigma rule: %w" [] err))
  | .ok rule =>
    let product := Go.toLower env.unicode rule.product
    if Go.trimSpace rule.title = "" then .error (.err (.errorf "sigma rule has no title" []))
    else if product ≠ "" ∧ product ≠ "linux" then
      .error (.err (unsupported "logsource product %q (ARGUS is Linux-only)" [rule.product]))
    else
      match categoryActions.lookup (Go.toLower env.unicode rule.category) with
      | none => .error (.err (unsupported "logsource category %q" [rule.category]))
      | some action =>
        if rule.detection.isEmpty then
          .error (.err (.errorf "sigma rule has no detection block" []))
        else
          let detection ← compileDetection env.unicode env.decoding rule.detection
          let severity := severityFor env rule.level
          return {
            id := ruleID env rule
            name := rule.title
            description := Go.trimSpace rule.description
            severity := severity
            technique := techniqueFor env rule.tags
            riskScore := (severityRisks.lookup severity).getD 0
            condition := anchorToAction action detection }

end

end ArgusEdr.Sigma
