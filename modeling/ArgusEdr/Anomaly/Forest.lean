import ArgusEdr.Model.Event

/-!
# Feature vectors and the isolation forest (`internal/anomaly/features.go`, `iforest.go`)

`pathLength` walks a tree by comparing the eight features of an event with the nodes' splits. It takes
every node as it finds it: a missing node is dereferenced, and a feature that is none indexes the vector
out of range. A walk is `ITree.Safe` if it ends at a leaf, as in every well-formed tree.

Numbers are those of a given library.
-/

namespace ArgusEdr.Anomaly

open Go (Library)
open Go.Library (Float64)
open Model (Event)

/-- How scoring can end without a score. -/
inductive Panic where
  | nilDereference
  | indexOutOfRange
deriving Repr, DecidableEq

variable [Library]

def index (vector : List Float64) (i : ℤ) : Except Panic Float64 :=
  if i < 0 then .error .indexOutOfRange
  else
    match vector[i.toNat]? with
    | none => .error .indexOutOfRange
    | some x => .ok x

variable {vector : List Float64}

theorem index_eq_ok {i : ℤ} (hlow : 0 ≤ i) (hhigh : i < vector.length) :
    ∃ x, index vector i = .ok x := by
  have hlt : i.toNat < vector.length := by omega
  refine ⟨vector[i.toNat], ?_⟩
  simp [index, not_lt.mpr hlow, hlt]

/-! ## Trees -/

/-- `*iTree`: no node, or a node with its two children. -/
inductive ITree (F : Type) where
  | nil
  | node (feature : ℤ) (split : F) (left right : ITree F) (size : ℤ)

def ITree.isNil {F : Type} : ITree F → Bool
  | .nil => true
  | .node .. => false

def featureDim : ℕ := 8

/-- The walk of the vector through the tree ends at a leaf. -/
def ITree.Safe (vector : List Float64) : ITree Float64 → Prop
  | .nil => False
  | .node feature split left right _ =>
    left.isNil ∧ right.isNil ∨
      ∃ x, index vector feature = .ok x ∧
        if Library.lt x split then left.Safe vector else right.Safe vector

/-- Every node has both children and a feature, or no child. -/
def ITree.WellFormed {F : Type} : ITree F → Prop
  | .nil => False
  | .node feature _ left right _ =>
    left.isNil ∧ right.isNil ∨
      (0 ≤ feature ∧ feature < featureDim) ∧ left.WellFormed ∧ right.WellFormed

theorem ITree.WellFormed.safe {tree : ITree Float64} (h : tree.WellFormed)
    (hvector : vector.length = featureDim) : tree.Safe vector := by
  induction tree with
  | nil => exact h
  | node feature split left right size ihl ihr =>
    rcases h with hleaf | ⟨⟨hlow, hhigh⟩, hl, hr⟩
    · exact .inl hleaf
    · obtain ⟨x, hx⟩ := index_eq_ok hlow (hvector ▸ hhigh)
      refine .inr ⟨x, hx, ?_⟩
      split
      · exact ihl hl
      · exact ihr hr

/-! ## Features -/

class FloatMath [Library] extends Add Float64, Sub Float64, Mul Float64, Div Float64, Neg Float64,
    OfScientific Float64 where
  log : Float64 → Float64
  log2 : Float64 → Float64
  pow : Float64 → Float64 → Float64
  ofUint64 : UInt64 → Float64

variable [FloatMath]

/-- An event with the words of its command line, which only the scorer reads. -/
structure Scored where
  event : Event
  args : List String := []

def pathDepth (path : String) : ℕ := if path = "" then 0 else path.toList.count '/'

def shannonEntropy (s : String) : Float64 :=
  if s = "" then 0.0
  else
    let bytes := Go.utf8 s
    let counts := (List.range 256).map fun b => bytes.count (UInt8.ofNat b)
    let length : Float64 := Library.ofInt64 bytes.length
    counts.foldl (fun entropy count =>
      if count = 0 then entropy
      else
        let p := Library.ofInt64 count / length
        entropy - p * FloatMath.log2 p) 0.0

def hour (t : Model.Time) : ℤ := t / 3600000000000 % 24

def featureVector (e : Scored) : List Float64 :=
  [Library.ofInt64 (Go.utf8 e.event.process.name).length,
   Library.ofInt64 (Go.utf8 e.event.process.commandLine).length,
   Library.ofInt64 e.args.length,
   Library.ofInt64 (hour e.event.timestamp),
   Library.ofInt64 e.event.network.dstPort.toNat,
   Library.ofInt64 e.event.user.id.toNat,
   Library.ofInt64 (pathDepth e.event.process.executable),
   shannonEntropy e.event.process.name]

theorem length_featureVector (e : Scored) : (featureVector e).length = featureDim := rfl

/-! ## The forest -/

structure IsolationForest (F : Type) where
  trees : List (ITree F) := []
  sampleSize : ℤ := 0

def expectedPathLength (n : ℤ) : Float64 :=
  if n ≤ 1 then 0.0
  else
    2.0 * (FloatMath.log (Library.ofInt64 (n - 1)) + 0.5772156649015329) -
      2.0 * Library.ofInt64 (n - 1) / Library.ofInt64 n

def pathLength : ITree Float64 → List Float64 → ℤ → Except Panic Float64
  | .nil, _, _ => .error .nilDereference
  | .node feature split left right size, vector, depth =>
    if left.isNil ∧ right.isNil then .ok (Library.ofInt64 depth + expectedPathLength size)
    else do
      let x ← index vector feature
      if Library.lt x split then pathLength left vector (depth + 1)
      else pathLength right vector (depth + 1)

namespace IsolationForest

def score (f : IsolationForest Float64) (vector : List Float64) : Except Panic Float64 :=
  if f.trees.length = 0 ∨ vector.length ≠ featureDim then .ok 0.0
  else do
    let total ← f.trees.foldlM (fun total tree => do return total + (← pathLength tree vector 0)) 0.0
    let mean := total / Library.ofInt64 f.trees.length
    return FloatMath.pow 2.0 (-mean / expectedPathLength f.sampleSize)

def normalizedScore (f : IsolationForest Float64) (vector : List Float64) : Except Panic Float64 := do
  let normalized := ((← f.score vector) - 0.5) * 2.0
  return if Library.lt normalized 0.0 then 0.0 else normalized

end IsolationForest

/-! ## Which vectors are scored -/

theorem pathLength_isOk_iff (tree : ITree Float64) (vector : List Float64) (depth : ℤ) :
    (∃ x, pathLength tree vector depth = .ok x) ↔ tree.Safe vector := by
  induction tree generalizing depth with
  | nil => simp [pathLength, ITree.Safe]
  | node feature split left right size ihl ihr =>
    by_cases hleaf : left.isNil ∧ right.isNil
    · simp [pathLength, ITree.Safe, hleaf]
    · cases hx : index vector feature with
      | error => simp [pathLength, ITree.Safe, hleaf, hx, bind, Except.bind]
      | ok x =>
        by_cases hlt : Library.lt x split
        · simpa [pathLength, ITree.Safe, hleaf, hx, hlt, bind, Except.bind] using ihl (depth + 1)
        · simpa [pathLength, ITree.Safe, hleaf, hx, hlt, bind, Except.bind] using ihr (depth + 1)

theorem total_isOk_iff (trees : List (ITree Float64)) (vector : List Float64) (start : Float64) :
    (∃ x, trees.foldlM (fun total tree => do return total + (← pathLength tree vector 0)) start =
      (.ok x : Except Panic Float64)) ↔ ∀ tree ∈ trees, tree.Safe vector := by
  induction trees generalizing start with
  | nil => simp [pure, Except.pure]
  | cons tree trees ih =>
    rw [List.forall_mem_cons, ← pathLength_isOk_iff tree vector 0]
    cases hlength : pathLength tree vector 0 with
    | error => simp [hlength, bind, Except.bind]
    | ok x => simpa [hlength, bind, Except.bind, pure, Except.pure] using ih (start + x)

theorem score_isOk_iff (f : IsolationForest Float64) (hvector : vector.length = featureDim) :
    (∃ x, f.normalizedScore vector = .ok x) ↔ ∀ tree ∈ f.trees, tree.Safe vector := by
  rw [← total_isOk_iff f.trees vector 0.0]
  by_cases hempty : f.trees = []
  · simp [IsolationForest.normalizedScore, IsolationForest.score, hempty, bind, Except.bind, pure,
      Except.pure]
  · have hscored : ¬ (f.trees.length = 0 ∨ vector.length ≠ featureDim) := by simp [hempty, hvector]
    simp only [IsolationForest.normalizedScore, IsolationForest.score, if_neg hscored]
    cases f.trees.foldlM (fun total tree => do return total + (← pathLength tree vector 0)) 0.0 with
    | error panic => simp [bind, Except.bind]
    | ok total => simp [bind, Except.bind, pure, Except.pure]

end ArgusEdr.Anomaly
