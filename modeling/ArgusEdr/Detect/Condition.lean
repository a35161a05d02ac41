import ArgusEdr.Detect.Operators

/-!
# Match trees of detection rules (`internal/detect/condition.go`)

A node of a match tree is exactly one of an `all` group, an `any` group, a `not` and a leaf; the YAML
decoder fills the fields of all four and `compile` rejects a node that is none of them or several. A
list may hold a null entry, which is a nil pointer to `compile`.
-/

namespace ArgusEdr.Detect

open Model (Event)
open Go (Library Fault)

structure Condition [Library] where
  all : List (Option Condition)
  any : List (Option Condition)
  not : Option Condition
  field : String
  op : String
  value : Value

inductive Kind where
  | leaf | all | any | not
deriving Repr, DecidableEq

variable [Library]

namespace Condition

def leaf (field op : String) (value : Value) : Condition := ⟨[], [], none, field, op, value⟩

def allOf (cs : List Condition) : Condition := ⟨cs.map some, [], none, "", "", .null⟩

def anyOf (cs : List Condition) : Condition := ⟨[], cs.map some, none, "", "", .null⟩

def notOf (c : Condition) : Condition := ⟨[], [], some c, "", "", .null⟩

end Condition

def classify (hasAll hasAny hasNot hasLeaf : Bool) : Except Go.Error Kind :=
  let kinds := (if hasAll then [Kind.all] else []) ++ (if hasAny then [Kind.any] else []) ++
    (if hasNot then [Kind.not] else []) ++ (if hasLeaf then [Kind.leaf] else [])
  match kinds with
  | [kind] => .ok kind
  | _ => .error (.errorf "condition must be exactly one of all/any/not/leaf, found %d"
      [ToString.toString kinds.length])

/-- A returned error, among the ways a call can end. -/
def liftError {α : Type*} : Except Go.Error α → Except Fault α
  | .ok a => .ok a
  | .error e => .error (.err e)

mutual
def Condition.compile : Condition → Except Fault Predicate
  | ⟨all, any, not, field, op, value⟩ =>
    -- a list with no entries counts as absent, and a value without field and operator as no leaf
    match classify (!all.isEmpty) (!any.isEmpty) not.isSome (field ≠ "" || op ≠ "") with
    | .error e => .error (.err e)
    | .ok .all => (compileChildren all).map fun ps e => ps.all fun p => p e
    | .ok .any => (compileChildren any).map fun ps e => ps.any fun p => p e
    | .ok .not => (compileChild not).map fun p e => !p e
    | .ok .leaf => liftError (compileLeaf field op value)

def compileChild : Option Condition → Except Fault Predicate
  | none => .error .nilDereference
  | some c => c.compile

def compileChildren : List (Option Condition) → Except Fault (List Predicate)
  | [] => .ok []
  | c :: cs =>
    match compileChild c with
    | .error f => .error f
    | .ok p => (compileChildren cs).map (p :: ·)
end

/-! ## The predicate of each kind of node -/

variable {field op : String} {value : Value} {p : Predicate} {c : Condition} {cs : List Condition}
  {ps : List Predicate}

theorem compile_leaf (h : compileLeaf field op value = .ok p) :
    (Condition.leaf field op value).compile = .ok p := by
  have hfield := field_ne_of_compileLeaf h
  simp [Condition.leaf, Condition.compile, classify, hfield, h, liftError]

theorem compile_notOf (h : c.compile = .ok p) :
    (Condition.notOf c).compile = .ok fun e => !p e := by
  simp [Condition.notOf, Condition.compile, classify, compileChild, h, Except.map]

def CompileTo (cs : List Condition) (ps : List Predicate) : Prop :=
  List.Forall₂ (fun (c : Condition) p => c.compile = .ok p) cs ps

theorem compileTo_singleton (h : c.compile = .ok p) : CompileTo [c] [p] :=
  .cons h .nil

theorem CompileTo.append {ds : List Condition} {qs : List Predicate} (hc : CompileTo cs ps)
    (hd : CompileTo ds qs) : CompileTo (cs ++ ds) (ps ++ qs) :=
  List.rel_append hc hd

theorem compileChildren_of_compileTo (h : CompileTo cs ps) :
    compileChildren (cs.map some) = .ok ps := by
  induction h with
  | nil => rfl
  | cons hc _ ih => simp [compileChildren, compileChild, hc, ih, Except.map]

theorem compile_allOf (hne : cs ≠ []) (h : CompileTo cs ps) :
    (Condition.allOf cs).compile = .ok fun e => ps.all fun p => p e := by
  simp [Condition.allOf, Condition.compile, classify, hne, compileChildren_of_compileTo h, Except.map]

theorem compile_anyOf (hne : cs ≠ []) (h : CompileTo cs ps) :
    (Condition.anyOf cs).compile = .ok fun e => ps.any fun p => p e := by
  simp [Condition.anyOf, Condition.compile, classify, hne, compileChildren_of_compileTo h, Except.map]

/-! ## Trees that compile -/

def Condition.Compiles (c : Condition) : Prop := ∃ p, c.compile = .ok p

omit [Library] in
theorem exists_map_eq_ok_iff {ε α β : Type*} {x : Except ε α} (f : α → β) :
    (∃ b, x.map f = .ok b) ↔ ∃ a, x = .ok a := by
  cases x with
  | error | ok => simp [Except.map]

theorem compiles_leaf :
    (Condition.leaf field op value).Compiles ↔ ∃ p, compileLeaf field op value = .ok p := by
  constructor
  · rintro ⟨p, hp⟩
    by_cases hleaf : field = "" ∧ op = ""
    · simp [Condition.leaf, Condition.compile, classify, hleaf.1, hleaf.2] at hp
    · have hany : (decide (field ≠ "") || decide (op ≠ "")) = true := by
        rw [Bool.or_eq_true, decide_eq_true_iff, decide_eq_true_iff, ← not_and_or]
        exact hleaf
      simp only [Condition.leaf, Condition.compile, hany, classify] at hp
      cases hcompile : compileLeaf field op value with
      | error => simp [hcompile, liftError] at hp
      | ok q => exact ⟨q, rfl⟩
  · rintro ⟨p, hp⟩
    exact ⟨p, compile_leaf hp⟩

theorem compiles_notOf : (Condition.notOf c).Compiles ↔ c.Compiles := by
  have hcompile : (Condition.notOf c).compile = c.compile.map fun p e => !p e := by
    simp [Condition.notOf, Condition.compile, classify, compileChild]
  rw [Condition.Compiles, hcompile, exists_map_eq_ok_iff]
  rfl

theorem compileChildren_iff :
    (∃ ps, compileChildren (cs.map some) = .ok ps) ↔ ∀ c ∈ cs, c.Compiles := by
  induction cs with
  | nil => simp [compileChildren]
  | cons c cs ih =>
    rw [List.forall_mem_cons, ← ih, List.map_cons, compileChildren, compileChild,
      Condition.Compiles]
    cases c.compile with
    | error => simp
    | ok => simp [exists_map_eq_ok_iff]

theorem compiles_allOf : (Condition.allOf cs).Compiles ↔ cs ≠ [] ∧ ∀ c ∈ cs, c.Compiles := by
  rw [← compileChildren_iff]
  by_cases hne : cs = []
  · simp [hne, Condition.Compiles, Condition.allOf, Condition.compile, classify]
  · have hcompile : (Condition.allOf cs).compile =
        (compileChildren (cs.map some)).map fun ps e => ps.all fun p => p e := by
      simp [Condition.allOf, Condition.compile, classify, hne]
    rw [Condition.Compiles, hcompile, exists_map_eq_ok_iff]
    exact (and_iff_right hne).symm

theorem compiles_anyOf : (Condition.anyOf cs).Compiles ↔ cs ≠ [] ∧ ∀ c ∈ cs, c.Compiles := by
  rw [← compileChildren_iff]
  by_cases hne : cs = []
  · simp [hne, Condition.Compiles, Condition.anyOf, Condition.compile, classify]
  · have hcompile : (Condition.anyOf cs).compile =
        (compileChildren (cs.map some)).map fun ps e => ps.any fun p => p e := by
      simp [Condition.anyOf, Condition.compile, classify, hne]
    rw [Condition.Compiles, hcompile, exists_map_eq_ok_iff]
    exact (and_iff_right hne).symm

end ArgusEdr.Detect
