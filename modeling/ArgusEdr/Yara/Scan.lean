import ArgusEdr.Go.Text

/-!
# Signatures of files (`internal/yara/yara.go`)

An engine is a list of compiled rules. A rule has patterns, each of which is looked for in the whole
of the data, and a condition on which of them were found.
-/

namespace ArgusEdr.Yara

open Go (Bytes)

structure HexByte where
  value : UInt8 := 0
  wild : Bool := false
deriving Repr, DecidableEq

structure Pattern where
  id : Bytes
  bytes : List HexByte := []
  nocase : Bool := false
  text : Bool := false
deriving Repr, DecidableEq

inductive Condition where
  | identNode (id : Bytes)
  | boolNode (v : Bool)
  | notNode (inner : Condition)
  | andNode (left right : Condition)
  | orNode (left right : Condition)
  | quantNode (need : Int64)
deriving Repr, DecidableEq

/-- `eval`. The hits are the keys of the source's map to `true`. -/
def Condition.eval (hits : List Bytes) (total count : ℕ) : Condition → Bool
  | .identNode id => id ∈ hits
  | .boolNode v => v
  | .notNode inner => !inner.eval hits total count
  | .andNode left right => left.eval hits total count && right.eval hits total count
  | .orNode left right => left.eval hits total count || right.eval hits total count
  | .quantNode need =>
    if need < 0 then count = total
    else if need = 0 then 1 ≤ count
    else need.toInt ≤ count

/-- A rule. The entries of the metadata are the source's map, the last assignment first. -/
structure Rule where
  name : Bytes
  metadata : List (Bytes × Bytes) := []
  patterns : List Pattern := []
  cond : Condition
deriving Repr, DecidableEq

structure Engine where
  rules : List Rule
deriving Repr, DecidableEq

def fold (b : UInt8) : UInt8 := if 65 ≤ b ∧ b ≤ 90 then b + 32 else b

def matchAt (pat : Pattern) (window : Bytes) : Bool :=
  (pat.bytes.zip window).all fun (hb, got) =>
    hb.wild || (if pat.nocase then fold got = fold hb.value else got = hb.value)

def patternMatches (pat : Pattern) (data : Bytes) : Bool :=
  let n := data.length
  let m := pat.bytes.length
  if m = 0 ∨ n < m then false
  else (List.range (n - m + 1)).any fun start => matchAt pat ((data.drop start).take m)

/-- The loop of `Scan` over the patterns of a rule: the hits and their number. -/
def Rule.search (r : Rule) (data : Bytes) : List Bytes × ℕ :=
  r.patterns.foldl
    (fun (hits, count) pat =>
      if patternMatches pat data then (pat.id :: hits, count + 1) else (hits, count))
    ([], 0)

def Rule.fires (r : Rule) (data : Bytes) : Bool :=
  let (hits, count) := r.search data
  r.cond.eval hits r.patterns.length count

def scan (e : Option Engine) (data : Bytes) : List Bytes :=
  match e with
  | none => []
  | some e =>
    if data.length = 0 then [] else (e.rules.filter fun r => r.fires data).map Rule.name

end ArgusEdr.Yara
