import ArgusEdr.Anomaly.Forest
import Mathlib

/-!
# The detector file (`internal/anomaly/detector.go`, `baseline.go`)

A detector is decoded from a JSON file into a baseline of counts and a forest. `Load` fills in what the
baseline lacks; the forest is taken as it was decoded, so that `Detector.score` can panic.
-/

namespace ArgusEdr.Anomaly

open Go (Library Bytes Unicode Error)
open Go.Library (Float64)
open Model (Event)

/-! ## JSON -/

/-- A parsed JSON text. Numbers are kept as written, fields in their order. -/
inductive Json where
  | null
  | bool (b : Bool)
  | num (literal : String)
  | str (s : String)
  | arr (elems : List Json)
  | obj (fields : List (String × Json))

/-- What `UnmarshalTypeError` calls a value. -/
def Json.kind : Json → String
  | .null => "null"
  | .bool _ => "bool"
  | .num literal => "number " ++ literal
  | .str _ => "string"
  | .arr _ => "array"
  | .obj _ => "object"

/-- `UnmarshalTypeError`. -/
def typeError {α : Type} (j : Json) (goType : String) : Except Error α :=
  .error (.errorf "json: cannot unmarshal %s into Go value of type %s" [j.kind, goType])

/-- The field of a struct a key is for: the one of this name, or else the first one whose name is the
same up to case. -/
def fieldOf {φ : Type} (u : Unicode) (fields : List (String × φ)) (key : String) : Option φ :=
  ((fields.find? fun field => field.1 = key).or
    (fields.find? fun field => Go.equalFold u field.1 key)).map Prod.snd

/-- Decoding an object into a struct, field by field. Other keys are passed over. -/
def decodeStruct {σ φ : Type} (u : Unicode) (fields : List (String × φ))
    (decode : σ → φ → Json → Except Error σ) (old : σ) (members : List (String × Json)) :
    Except Error σ :=
  members.foldlM (fun s member =>
    match fieldOf u fields member.1 with
    | some field => decode s field member.2
    | none => .ok s) old

/-- Decoding into an `int`, which is left alone by `null`. -/
def decodeInt (old : ℤ) : Json → Except Error ℤ
  | .null => .ok old
  | j@(.num literal) =>
    match Go.parseInt64 literal with
    | some n => .ok n
    | none => typeError j "int"
  | j => typeError j "int"

def decodeUint64 (old : UInt64) : Json → Except Error UInt64
  | .null => .ok old
  | j@(.num literal) =>
    match Go.parseUint literal 64 with
    | .ok n => .ok (UInt64.ofNat n)
    | .error _ => typeError j "uint64"
  | j => typeError j "uint64"

/-- Decoding into a `map[string]uint64`: `null` is the nil map, and an object adds to the map there
is. -/
def decodeCounts (old : Option (Std.ExtTreeMap String UInt64)) :
    Json → Except Error (Option (Std.ExtTreeMap String UInt64))
  | .null => .ok none
  | .obj fields => do
    let counts ← fields.foldlM (fun counts field => do
      return counts.insert field.1 (← decodeUint64 0 field.2)) (old.getD ∅)
    return some counts
  | j => typeError j "map[string]uint64"

/-! ## The baseline -/

inductive Category where
  | executable | parentChild | destPort | userProcess
deriving Repr, DecidableEq

structure Baseline where
  executable : Option (Std.ExtTreeMap String UInt64) := none
  parentChild : Option (Std.ExtTreeMap String UInt64) := none
  destPort : Option (Std.ExtTreeMap String UInt64) := none
  userProcess : Option (Std.ExtTreeMap String UInt64) := none

namespace Baseline

def newBaseline : Baseline where
  executable := some ∅
  parentChild := some ∅
  destPort := some ∅
  userProcess := some ∅

def counts (b : Baseline) : Category → Option (Std.ExtTreeMap String UInt64)
  | .executable => b.executable
  | .parentChild => b.parentChild
  | .destPort => b.destPort
  | .userProcess => b.userProcess

def ensureInitialized (b : Baseline) : Baseline where
  executable := some (b.executable.getD ∅)
  parentChild := some (b.parentChild.getD ∅)
  destPort := some (b.destPort.getD ∅)
  userProcess := some (b.userProcess.getD ∅)

/-- Reading a map, also a nil one: the count, or zero. -/
def count (b : Baseline) (cat : Category) (key : String) : UInt64 :=
  ((b.counts cat).bind (·[key]?)).getD 0

end Baseline

def featuresOf (e : Event) : List (Category × String) :=
  (if e.process.executable ≠ "" then [(.executable, e.process.executable)] else []) ++
  (if e.process.name ≠ "" then
    let parent := if e.process.parentName = "" then "?" else e.process.parentName
    [(.parentChild, parent ++ ">" ++ e.process.name),
     (.userProcess, Go.formatUint e.user.id.toNat ++ ">" ++ e.process.name)]
  else []) ++
  (if e.network.dstPort ≠ 0 then [(.destPort, toString e.network.dstPort.toNat)] else [])

def decodeBaseline (u : Unicode) (old : Option Baseline) : Json → Except Error (Option Baseline)
  | .null => .ok none
  | .obj members => do
    let fields := [("executable", Category.executable), ("parent_child", .parentChild),
      ("dest_port", .destPort), ("user_process", .userProcess)]
    let decode (b : Baseline) (cat : Category) (j : Json) : Except Error Baseline := do
      let counts ← decodeCounts (b.counts cat) j
      return match cat with
        | .executable => { b with executable := counts }
        | .parentChild => { b with parentChild := counts }
        | .destPort => { b with destPort := counts }
        | .userProcess => { b with userProcess := counts }
    return some (← decodeStruct u fields decode (old.getD {}) members)
  | j => typeError j "anomaly.Baseline"

section
variable [Library]

/-! ## The forest -/

def decodeFloat64 (old : Float64) : Json → Except Error Float64
  | .null => .ok old
  | j@(.num literal) =>
    match Library.parseFloat literal with
    | some x => .ok x
    | none => typeError j "float64"
  | j => typeError j "float64"

inductive TreeField where
  | feature | split | left | right | size
deriving Repr, DecidableEq

def treeFields : List (String × TreeField) :=
  [("f", .feature), ("s", .split), ("l", .left), ("r", .right), ("n", .size)]

mutual

/-- Decoding into a `*iTree`: `null` is the nil pointer, and an object is decoded into the node there
is, or into a new one. -/
def decodeTree (u : Unicode) (old : ITree Float64) : Json → Except Error (ITree Float64)
  | .null => .ok .nil
  | .obj members =>
    match old with
    | .nil => decodeNode u 0 (Library.ofInt64 0) .nil .nil 0 members
    | .node feature split left right size => decodeNode u feature split left right size members
  | j => typeError j "anomaly.iTree"

def decodeNode (u : Unicode) (feature : ℤ) (split : Float64) (left right : ITree Float64) (size : ℤ) :
    List (String × Json) → Except Error (ITree Float64)
  | [] => .ok (.node feature split left right size)
  | (key, value) :: rest =>
    match fieldOf u treeFields key with
    | some .feature => do decodeNode u (← decodeInt feature value) split left right size rest
    | some .split => do decodeNode u feature (← decodeFloat64 split value) left right size rest
    | some .left => do decodeNode u feature split (← decodeTree u left value) right size rest
    | some .right => do decodeNode u feature split left (← decodeTree u right value) size rest
    | some .size => do decodeNode u feature split left right (← decodeInt size value) rest
    | none => decodeNode u feature split left right size rest

end

/-- Decoding the elements of a `[]*iTree` into those there are. -/
def decodeTrees (u : Unicode) : List (ITree Float64) → List Json →
    Except Error (List (ITree Float64))
  | _, [] => .ok []
  | old, elem :: elems => do
    let tree ← decodeTree u (old.headD .nil) elem
    return tree :: (← decodeTrees u old.tail elems)

inductive ForestField where
  | trees | sampleSize
deriving Repr, DecidableEq

def decodeForest (u : Unicode) (old : Option (IsolationForest Float64)) :
    Json → Except Error (Option (IsolationForest Float64))
  | .null => .ok none
  | .obj members => do
    let fields := [("trees", ForestField.trees), ("sample_size", .sampleSize)]
    let decode (f : IsolationForest Float64) (field : ForestField) (j : Json) :
        Except Error (IsolationForest Float64) :=
      match field, j with
      | .trees, .null => .ok { f with trees := [] }
      | .trees, .arr elems => do return { f with trees := ← decodeTrees u f.trees elems }
      | .trees, j => typeError j "[]*anomaly.iTree"
      | .sampleSize, j => do return { f with sampleSize := ← decodeInt f.sampleSize j }
    return some (← decodeStruct u fields decode (old.getD {}) members)
  | j => typeError j "anomaly.IsolationForest"

/-! ## The detector -/

structure Detector where
  baseline : Option Baseline := none
  forest : Option (IsolationForest Float64) := none

inductive DetectorField where
  | baseline | forest
deriving Repr, DecidableEq

def decodeDetector (u : Unicode) : Json → Except Error Detector
  | .null => .ok {}
  | .obj members =>
    let fields := [("baseline", DetectorField.baseline), ("forest", .forest)]
    let decode (d : Detector) (field : DetectorField) (j : Json) : Except Error Detector :=
      match field with
      | .baseline => do return { d with baseline := ← decodeBaseline u d.baseline j }
      | .forest => do return { d with forest := ← decodeForest u d.forest j }
    decodeStruct u fields decode {} members
  | j => typeError j "anomaly.Detector"

/-- `json.Unmarshal` into a new `Detector`, with the parser of JSON texts. -/
def unmarshal (u : Unicode) (parse : Bytes → Except Error Json) (raw : Bytes) :
    Except Error Detector := do
  decodeDetector u (← parse raw)

def load (u : Unicode) (parse : Bytes → Except Error Json) (path : String)
    (file : Except Error Bytes) : Except Error Detector := do
  let raw ← file.mapError (.wrapf "read baseline %s: %w" [path])
  let detector ← (unmarshal u parse raw).mapError (.wrapf "decode baseline %s: %w" [path])
  let baseline := detector.baseline.getD .newBaseline
  return { detector with baseline := some baseline.ensureInitialized }

theorem baseline_load {u : Unicode} {parse : Bytes → Except Error Json} {path : String}
    {file : Except Error Bytes} {d : Detector} (h : load u parse path file = .ok d) :
    ∃ baseline, d.baseline = some baseline ∧ ∀ cat, (baseline.counts cat).isSome := by
  cases file with
  | error => cases h
  | ok raw =>
    cases hdecode : unmarshal u parse raw with
    | error => simp [load, hdecode, Except.mapError, bind, Except.bind] at h
    | ok =>
      simp only [load, hdecode, Except.mapError, bind, Except.bind, pure, Except.pure,
        Except.ok.injEq] at h
      subst h
      refine ⟨_, rfl, fun cat => ?_⟩
      cases cat <;> rfl

variable [FloatMath]

def rarity (count : UInt64) : Float64 := 1.0 / (1.0 + FloatMath.log2 (FloatMath.ofUint64 (1 + count)))

def Baseline.rarity (b : Baseline) (e : Event) : Float64 :=
  (featuresOf e).foldl (fun highest feature =>
    let r := Anomaly.rarity (b.count feature.1 feature.2)
    if Library.lt highest r then r else highest) 0.0

def score (d : Option Detector) (e : Scored) : Except Panic Float64 :=
  match d with
  | none => .ok 0.0
  | some d =>
    let score := match d.baseline with
      | none => 0.0
      | some baseline => baseline.rarity e.event
    match d.forest with
    | none => .ok score
    | some forest => do
      let structural ← forest.normalizedScore (featureVector e)
      return if Library.lt score structural then structural else score

/-! ## Which events are scored -/

theorem score_isOk (d : Detector) (e : Scored) :
    (∃ x, score (some d) e = .ok x) ↔
      ∀ forest, d.forest = some forest → ∀ tree ∈ forest.trees, tree.Safe (featureVector e) := by
  cases hforest : d.forest with
  | none => simp [score, hforest]
  | some forest =>
    have hvector := score_isOk_iff forest (length_featureVector e)
    simp only [Option.some.injEq, forall_eq', ← hvector]
    cases hscore : forest.normalizedScore (featureVector e) with
    | error => simp [score, hforest, hscore, bind, Except.bind]
    | ok => simp [score, hforest, hscore, bind, Except.bind, pure, Except.pure]

/-- A loaded detector has all sections of its baseline. It scores an event, without a missing node being
dereferenced or the features indexed out of range, exactly if the walks of the event's features through
the trees all end at leaves; and it scores all events if the trees are well-formed. -/
theorem score_loaded {u : Unicode} {parse : Bytes → Except Error Json} {path : String}
    {file : Except Error Bytes} {d : Detector} (h : load u parse path file = .ok d) (e : Scored) :
    (∃ baseline, d.baseline = some baseline ∧ ∀ cat, (baseline.counts cat).isSome) ∧
    ((∃ x, score (some d) e = .ok x) ↔
      ∀ forest, d.forest = some forest → ∀ tree ∈ forest.trees, tree.Safe (featureVector e)) ∧
    ((∀ forest, d.forest = some forest → ∀ tree ∈ forest.trees, tree.WellFormed) →
      ∃ x, score (some d) e = .ok x) := by
  refine ⟨baseline_load h, score_isOk d e, fun hwell => (score_isOk d e).mpr ?_⟩
  intro forest hforest tree htree
  exact (hwell forest hforest tree htree).safe (length_featureVector e)

end

@[reducible] def FloatMath.plain : @FloatMath Library.plain :=
  letI := Library.plain
  { add := fun a b : ℤ => a + b
    sub := fun a b : ℤ => a - b
    mul := fun a b : ℤ => a * b
    div := fun a b : ℤ => a / b
    neg := fun a : ℤ => -a
    ofScientific := fun mantissa _ _ => (mantissa : ℤ)
    log := id
    log2 := id
    pow := fun a _ => a
    ofUint64 := fun n => (n.toNat : ℤ) }

def readsAs (j : Json) : Bytes → Except Error Json := fun _ => .ok j

def portForest : Json :=
  .obj [("forest", .obj [("trees", .arr [.obj [("f", .num "4"), ("s", .num "1024"),
    ("l", .obj [("n", .num "3")]), ("r", .obj [("n", .num "1")])]]), ("sample_size", .num "4")])]

/-- With it, an event without a port is scored. -/
theorem score_loaded_port :
    letI := Library.plain
    letI := FloatMath.plain
    ∃ d, load Unicode.ascii (readsAs portForest) "argus.json" (.ok []) = .ok d ∧
      ∃ x, score (some d) { event := {} } = .ok x := by
  let := Library.plain
  let := FloatMath.plain
  let leaf (size : ℤ) : ITree ℤ := .node 0 0 .nil .nil size
  let forest : IsolationForest ℤ := { trees := [.node 4 1024 (leaf 3) (leaf 1) 0], sampleSize := 4 }
  let d : Detector := { baseline := some Baseline.newBaseline.ensureInitialized, forest := some forest }
  have hload : load Unicode.ascii (readsAs portForest) "argus.json" (.ok []) = .ok d := rfl
  refine ⟨d, hload, (score_loaded hload { event := {} }).2.2 ?_⟩
  rintro _ ⟨⟩ tree htree
  rw [List.mem_singleton.mp htree]
  simp [ITree.WellFormed, ITree.isNil, leaf, featureDim]

/-- A missing tree is dereferenced, and the feature nine indexes the eight features out of range. -/
theorem score_malformed_panics :
    letI := Library.plain
    letI := FloatMath.plain
    let missing : Json := .obj [("forest", .obj [("trees", .arr [.null]), ("sample_size", .num "1")])]
    let ninth : Json := .obj [("forest", .obj [("trees", .arr [.obj [("f", .num "9"), ("l", .obj []),
      ("r", .obj [])]]), ("sample_size", .num "1")])]
    (∃ d, load Unicode.ascii (readsAs missing) "argus.json" (.ok []) = .ok d ∧
      score (some d) { event := {} } = .error .nilDereference) ∧
    ∃ d, load Unicode.ascii (readsAs ninth) "argus.json" (.ok []) = .ok d ∧
      score (some d) { event := {} } = .error .indexOutOfRange := by
  exact ⟨⟨_, rfl, rfl⟩, _, rfl, rfl⟩

end ArgusEdr.Anomaly
