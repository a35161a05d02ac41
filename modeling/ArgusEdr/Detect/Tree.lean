import ArgusEdr.Detect.Meaning
import ArgusEdr.Lib.Fallible

/-!
# Match trees with their predicates (`internal/detect/condition.go`)

`Compile` leaves in every node of the tree the function `Eval` calls there: the predicate of a leaf, or
a method that looks at the children when it is called. A node `Compile` has not been at has none, and
calling it is a panic, as is looking at a null child. `Condition.compile` builds one predicate instead;
`compile_decoded` says that this is what the tree with its stored functions computes.
-/

namespace ArgusEdr.Detect

open Condition (allOf anyOf compile)
open Fallible (map_eq_ok map_ne_error)
open Go (Library Fault)
open Model (Event)

/-! ## The tree -/

/-- The function of a node. -/
inductive Stored [Library] where
  | evalAll
  | evalAny
  | evalNot
  | leaf (p : Predicate)

/-- `Condition`, with its field `predicate`. -/
structure Node [Library] where
  all : List (Option Node)
  any : List (Option Node)
  not : Option Node
  field : String
  op : String
  value : Value
  predicate : Option Stored

section
variable [Library]

mutual
def Condition.decoded : Condition → Node
  | ⟨all, any, not, field, op, value⟩ =>
    ⟨decodedList all, decodedList any, decodedChild not, field, op, value, none⟩

def decodedChild : Option Condition → Option Node
  | none => none
  | some c => some c.decoded

def decodedList : List (Option Condition) → List (Option Node)
  | [] => []
  | c :: cs => decodedChild c :: decodedList cs
end

mutual
def Node.compile : Node → Except Fault Node
  | ⟨all, any, not, field, op, value, _⟩ =>
    match classify (!all.isEmpty) (!any.isEmpty) not.isSome (field ≠ "" || op ≠ "") with
    | .error e => .error (.err e)
    | .ok .all => (compileNodes all).map (⟨·, any, not, field, op, value, some .evalAll⟩)
    | .ok .any => (compileNodes any).map (⟨all, ·, not, field, op, value, some .evalAny⟩)
    | .ok .not =>
      (compileNode not).map (⟨all, any, some ·, field, op, value, some .evalNot⟩)
    | .ok .leaf => (liftError (compileLeaf field op value)).map
        (⟨all, any, not, field, op, value, some <| .leaf ·⟩)

def compileNode : Option Node → Except Fault Node
  | none => .error .nilDereference
  | some n => n.compile

def compileNodes : List (Option Node) → Except Fault (List (Option Node))
  | [] => .ok []
  | n :: ns =>
    match compileNode n with
    | .error f => .error f
    | .ok n' => (compileNodes ns).map (some n' :: ·)
end

mutual
def Node.eval : Node → Event → Except Fault Bool
  | ⟨all, any, not, _, _, _, predicate⟩, e =>
    match predicate with
    | none => .error .nilDereference
    | some .evalAll => evalAll all e
    | some .evalAny => evalAny any e
    | some .evalNot => (evalNode not e).map Bool.not
    | some (.leaf p) => .ok (p e)

def evalNode : Option Node → Event → Except Fault Bool
  | none, _ => .error .nilDereference
  | some n, e => n.eval e

def evalAll : List (Option Node) → Event → Except Fault Bool
  | [], _ => .ok true
  | n :: ns, e =>
    match evalNode n e with
    | .error f => .error f
    | .ok false => .ok false
    | .ok true => evalAll ns e

def evalAny : List (Option Node) → Event → Except Fault Bool
  | [], _ => .ok false
  | n :: ns, e =>
    match evalNode n e with
    | .error f => .error f
    | .ok true => .ok true
    | .ok false => evalAny ns e
end

/-! ## What a tree says -/

section
variable (truth : String → String → Value → Bool)

mutual
/-- The boolean meaning of a tree, from the truth of its leaves. A null entry, which no tree that
compiles has, counts as false. -/
def Condition.meaning : Condition → Bool
  | ⟨all, any, not, field, op, value⟩ =>
    if !all.isEmpty then meaningAll all
    else if !any.isEmpty then meaningAny any
    else
      match meaningChild not with
      | some b => !b
      | none => truth field op value

def meaningChild : Option Condition → Option Bool
  | none => none
  | some c => some c.meaning

def meaningAll : List (Option Condition) → Bool
  | [] => true
  | c :: cs => (meaningChild c).getD false && meaningAll cs

def meaningAny : List (Option Condition) → Bool
  | [] => false
  | c :: cs => (meaningChild c).getD false || meaningAny cs
end

variable {truth}

@[simp] theorem meaning_leaf (field op : String) (value : Value) :
    (Condition.leaf field op value).meaning truth = truth field op value := rfl

theorem meaningAll_map_some (cs : List Condition) :
    meaningAll truth (cs.map some) = cs.all fun c => c.meaning truth := by
  induction cs with
  | nil => rfl
  | cons c cs ih =>
    rw [List.map_cons, meaningAll, ih]
    rfl

theorem meaningAny_map_some (cs : List Condition) :
    meaningAny truth (cs.map some) = cs.any fun c => c.meaning truth := by
  induction cs with
  | nil => rfl
  | cons c cs ih =>
    rw [List.map_cons, meaningAny, ih]
    rfl

theorem meaning_allOf {cs : List Condition} (hne : cs ≠ []) :
    (allOf cs).meaning truth = cs.all fun c => c.meaning truth := by
  rw [allOf, Condition.meaning, if_pos (by simpa using hne), meaningAll_map_some]

theorem meaning_anyOf {cs : List Condition} (hne : cs ≠ []) :
    (anyOf cs).meaning truth = cs.any fun c => c.meaning truth := by
  rw [anyOf, Condition.meaning, if_neg (by simp), if_pos (by simpa using hne),
    meaningAny_map_some]

end

def leafTruth (e : Event) (field op : String) (value : Value) : Bool :=
  match compileLeaf field op value with
  | .ok p => p e
  | .error _ => false

mutual
def Condition.nullFree : Condition → Bool
  | ⟨all, any, not, _, _, _⟩ => nullFreeList all && nullFreeList any && nullFreeChild not

def nullFreeChild : Option Condition → Bool
  | none => true
  | some c => c.nullFree

def nullFreeList : List (Option Condition) → Bool
  | [] => true
  | c :: cs => c.isSome && nullFreeChild c && nullFreeList cs
end

/-! ## The stored functions compute the predicate -/

/-- Two calls end in the same way, with results that are related. -/
def SameOutcome {α β : Type} (R : α → β → Prop) : Except Fault α → Except Fault β → Prop
  | .ok a, .ok b => R a b
  | .error f, .error f' => f = f'
  | _, _ => False

omit [Library] in
theorem SameOutcome.map {α β α' β' : Type} {R : α → β → Prop} {R' : α' → β' → Prop}
    {x : Except Fault α} {y : Except Fault β} (h : SameOutcome R x y) {f : α → α'} {g : β → β'}
    (hfg : ∀ a b, R a b → R' (f a) (g b)) : SameOutcome R' (x.map f) (y.map g) := by
  cases x with
  | error => cases y with
    | error => exact h
    | ok => exact h.elim
  | ok a => cases y with
    | error => exact h.elim
    | ok b => exact hfg a b h

def Node.Computes (n : Node) (p : Predicate) : Prop := ∀ e, n.eval e = .ok (p e)

def Computed (ns : List (Option Node)) (ps : List Predicate) : Prop :=
  List.Forall₂ (fun n p => ∃ m : Node, n = some m ∧ m.Computes p) ns ps

variable {ns : List (Option Node)} {ps : List Predicate}

theorem evalAll_of_computed (h : Computed ns ps) (e : Event) :
    evalAll ns e = .ok (ps.all fun p => p e) := by
  induction h with
  | nil => rfl
  | @cons n p ns ps hn _ ih =>
    obtain ⟨m, rfl, hm⟩ := hn
    rw [evalAll, evalNode, hm e, List.all_cons]
    cases p e with
    | false => rfl
    | true => exact ih

theorem evalAny_of_computed (h : Computed ns ps) (e : Event) :
    evalAny ns e = .ok (ps.any fun p => p e) := by
  induction h with
  | nil => rfl
  | @cons n p ns ps hn _ ih =>
    obtain ⟨m, rfl, hm⟩ := hn
    rw [evalAny, evalNode, hm e, List.any_cons]
    cases p e with
    | true => rfl
    | false => exact ih

theorem isEmpty_decodedList (cs : List (Option Condition)) :
    (decodedList cs).isEmpty = cs.isEmpty := by
  cases cs with
  | nil | cons => rfl

theorem isSome_decodedChild (c : Option Condition) : (decodedChild c).isSome = c.isSome := by
  cases c with
  | none | some => rfl

mutual
/-- Compiling the tree in place ends as building its predicate does, and the tree then computes
the predicate. -/
theorem compile_decoded : ∀ c : Condition, SameOutcome Node.Computes c.decoded.compile c.compile
  | ⟨all, any, not, field, op, value⟩ => by
    rw [Condition.decoded, Node.compile, compile, isEmpty_decodedList,
      isEmpty_decodedList, isSome_decodedChild]
    cases classify (!all.isEmpty) (!any.isEmpty) not.isSome (field ≠ "" || op ≠ "") with
    | error => rfl
    | ok kind =>
      cases kind with
      | all =>
        refine (compileNodes_decodedList all).map fun ns ps hps e => ?_
        exact evalAll_of_computed hps e
      | any =>
        refine (compileNodes_decodedList any).map fun ns ps hps e => ?_
        exact evalAny_of_computed hps e
      | not =>
        refine (compileNode_decodedChild not).map fun n p hp e => ?_
        rw [Node.eval, evalNode, hp e]
        rfl
      | leaf =>
        show SameOutcome _ ((liftError (compileLeaf field op value)).map _) (liftError _)
        cases compileLeaf field op value with
        | error => rfl
        | ok => exact fun e => rfl

theorem compileNode_decodedChild : ∀ c : Option Condition,
    SameOutcome Node.Computes (compileNode (decodedChild c)) (compileChild c)
  | none => rfl
  | some c => compile_decoded c

theorem compileNodes_decodedList : ∀ cs : List (Option Condition),
    SameOutcome Computed (compileNodes (decodedList cs)) (compileChildren cs)
  | [] => List.Forall₂.nil
  | c :: cs => by
    have hc := compileNode_decodedChild c
    have hcs := compileNodes_decodedList cs
    rw [decodedList, compileNodes, compileChildren]
    cases hn : compileNode (decodedChild c) with
    | error =>
      cases hp : compileChild c with
      | error =>
        rw [hn, hp] at hc
        exact hc
      | ok =>
        rw [hn, hp] at hc
        exact hc.elim
    | ok n =>
      cases hp : compileChild c with
      | error =>
        rw [hn, hp] at hc
        exact hc.elim
      | ok =>
        rw [hn, hp] at hc
        exact hcs.map fun ns ps hps => .cons ⟨n, rfl, hc⟩ hps
end

/-! ## The predicate has the meaning of the tree -/

omit [Library] in
theorem classify_ok {hasAll hasAny hasNot hasLeaf : Bool} {kind : Kind}
    (h : classify hasAll hasAny hasNot hasLeaf = .ok kind) :
    hasAll = decide (kind = .all) ∧ hasAny = decide (kind = .any) ∧
      hasNot = decide (kind = .not) ∧ hasLeaf = decide (kind = .leaf) := by
  cases hasAll <;> cases hasAny <;> cases hasNot <;> cases hasLeaf <;> cases h <;> decide

mutual
theorem meaning_of_compile (e : Event) : ∀ (c : Condition) {p : Predicate}, c.compile = .ok p →
    c.meaning (leafTruth e) = p e
  | ⟨all, any, not, field, op, value⟩, p, h => by
    rw [compile] at h
    rw [Condition.meaning]
    cases hkind : classify (!all.isEmpty) (!any.isEmpty) not.isSome (field ≠ "" || op ≠ "") with
    | error =>
      rw [hkind] at h
      cases h
    | ok kind =>
      obtain ⟨hall, hany, hnot, -⟩ := classify_ok hkind
      rw [hkind] at h
      cases kind with
      | all =>
        obtain ⟨ps, hps, rfl⟩ := map_eq_ok h
        rw [hall]
        exact (meaning_of_compileChildren e all hps).1
      | any =>
        obtain ⟨ps, hps, rfl⟩ := map_eq_ok h
        rw [hall, hany]
        exact (meaning_of_compileChildren e any hps).2
      | not =>
        obtain ⟨q, hq, rfl⟩ := map_eq_ok h
        rw [hall, hany, meaning_of_compileChild e not hq]
        rfl
      | leaf =>
        cases not with
        | some => cases hnot
        | none =>
          rw [hall, hany, meaningChild]
          show leafTruth e field op value = p e
          rw [leafTruth]
          cases hleaf : compileLeaf field op value with
          | error =>
            rw [hleaf] at h
            cases h
          | ok =>
            rw [hleaf] at h
            cases h
            rfl

theorem meaning_of_compileChild (e : Event) : ∀ (c : Option Condition) {p : Predicate},
    compileChild c = .ok p → meaningChild (leafTruth e) c = some (p e)
  | none, p, h => by cases h
  | some c, p, h => congrArg some (meaning_of_compile e c h)

theorem meaning_of_compileChildren (e : Event) : ∀ (cs : List (Option Condition))
    {ps : List Predicate}, compileChildren cs = .ok ps →
    meaningAll (leafTruth e) cs = (ps.all fun p => p e) ∧
      meaningAny (leafTruth e) cs = ps.any fun p => p e
  | [], ps, h => by
    cases h
    exact ⟨rfl, rfl⟩
  | c :: cs, ps, h => by
    rw [compileChildren] at h
    cases hp : compileChild c with
    | error =>
      rw [hp] at h
      cases h
    | ok =>
      rw [hp] at h
      obtain ⟨ps, hps, rfl⟩ := map_eq_ok h
      obtain ⟨hall, hany⟩ := meaning_of_compileChildren e cs hps
      rw [meaningAll, meaningAny, meaning_of_compileChild e c hp, hall, hany]
      exact ⟨rfl, rfl⟩
end

/-! ## Null entries -/

mutual
theorem compile_ne_nilDereference : ∀ c : Condition, c.nullFree = true →
    c.compile ≠ .error .nilDereference
  | ⟨all, any, not, field, op, value⟩, hfree => by
    rw [Condition.nullFree, Bool.and_eq_true, Bool.and_eq_true] at hfree
    obtain ⟨⟨hall, hany⟩, hnot⟩ := hfree
    rw [compile]
    cases hkind : classify (!all.isEmpty) (!any.isEmpty) not.isSome (field ≠ "" || op ≠ "") with
    | error => simp
    | ok kind =>
      cases kind with
      | all => exact map_ne_error (compileChildren_ne_nilDereference all hall)
      | any => exact map_ne_error (compileChildren_ne_nilDereference any hany)
      | not =>
        have hsome : not.isSome = true := (classify_ok hkind).2.2.1
        exact map_ne_error (compileChild_ne_nilDereference not hsome hnot)
      | leaf =>
        show liftError (compileLeaf field op value) ≠ _
        cases compileLeaf field op value with
        | error | ok => simp [liftError]

theorem compileChild_ne_nilDereference : ∀ c : Option Condition, c.isSome = true →
    nullFreeChild c = true → compileChild c ≠ .error .nilDereference
  | none, hsome, _ => by cases hsome
  | some c, _, hfree => compile_ne_nilDereference c hfree

theorem compileChildren_ne_nilDereference : ∀ cs : List (Option Condition),
    nullFreeList cs = true → compileChildren cs ≠ .error .nilDereference
  | [], _ => by simp [compileChildren]
  | c :: cs, hfree => by
    rw [nullFreeList, Bool.and_eq_true, Bool.and_eq_true] at hfree
    obtain ⟨⟨hsome, hc⟩, hcs⟩ := hfree
    have hne := compileChild_ne_nilDereference c hsome hc
    rw [compileChildren]
    cases hp : compileChild c with
    | error =>
      rw [hp] at hne
      simpa using hne
    | ok => exact map_ne_error (compileChildren_ne_nilDereference cs hcs)
end

mutual
/-- Nothing but a null entry can be wrong with the tree: every node is of one kind and every leaf
compiles. -/
def Condition.Sound : Condition → Prop
  | ⟨all, any, not, field, op, value⟩ =>
    (∃ kind, classify (!all.isEmpty) (!any.isEmpty) not.isSome (field ≠ "" || op ≠ "") = .ok kind ∧
      (kind = .leaf → ∃ p, compileLeaf field op value = .ok p)) ∧
    SoundList all ∧ SoundList any ∧ SoundChild not

def SoundChild : Option Condition → Prop
  | none => True
  | some c => c.Sound

def SoundList : List (Option Condition) → Prop
  | [] => True
  | c :: cs => SoundChild c ∧ SoundList cs
end

/-- A call succeeds, or looks at a null child. -/
def Settles {α : Type} (free : Bool) (x : Except Fault α) : Prop :=
  if free then ∃ a, x = .ok a else x = .error .nilDereference

omit [Library] in
theorem Settles.map {α β : Type} {free : Bool} {x : Except Fault α} (h : Settles free x)
    (f : α → β) : Settles free (x.map f) := by
  cases free with
  | false =>
    rw [show x = .error .nilDereference from h]
    rfl
  | true =>
    obtain ⟨a, rfl⟩ : ∃ a, x = .ok a := h
    exact ⟨f a, rfl⟩

mutual
/-- If nothing else is wrong with a tree, it compiles exactly if it has no null entry, and the
compiler panics otherwise. -/
theorem settles_compile : ∀ c : Condition, c.Sound → Settles c.nullFree c.compile
  | ⟨all, any, not, field, op, value⟩, hsound => by
    obtain ⟨⟨kind, hkind, hleaf⟩, hall, hany, hnot⟩ := hsound
    obtain ⟨hasAll, hasAny, hasNot, -⟩ := classify_ok hkind
    -- the parts of a node that its kind leaves out are empty
    have hnil : ∀ {cs : List (Option Condition)}, (!cs.isEmpty) = false → nullFreeList cs = true :=
      fun {cs} h => by
        cases cs with
        | nil => rfl
        | cons => cases h
    have hnone : ∀ {c : Option Condition}, c.isSome = false → nullFreeChild c = true :=
      fun {c} h => by
        cases c with
        | none => rfl
        | some => cases h
    rw [compile, hkind, Condition.nullFree]
    cases kind with
    | all =>
      rw [hnil hasAny, hnone hasNot, Bool.and_true, Bool.and_true]
      exact (settles_compileChildren all hall).map _
    | any =>
      rw [hnil hasAll, hnone hasNot, Bool.and_true, Bool.true_and]
      exact (settles_compileChildren any hany).map _
    | not =>
      rw [hnil hasAll, hnil hasAny, Bool.true_and, Bool.true_and]
      exact (settles_compileChild not hasNot hnot).map _
    | leaf =>
      rw [hnil hasAll, hnil hasAny, hnone hasNot]
      obtain ⟨p, hp⟩ := hleaf rfl
      exact ⟨p, by rw [hp]; rfl⟩

theorem settles_compileChild : ∀ c : Option Condition, c.isSome = true → SoundChild c →
    Settles (nullFreeChild c) (compileChild c)
  | none, hsome, _ => by cases hsome
  | some c, _, hsound => settles_compile c hsound

theorem settles_compileChildren : ∀ cs : List (Option Condition), SoundList cs →
    Settles (nullFreeList cs) (compileChildren cs)
  | [], _ => ⟨[], rfl⟩
  | none :: cs, _ => rfl
  | some c :: cs, hsound => by
    have hc := settles_compile c hsound.1
    rw [nullFreeList, compileChildren, nullFreeChild, compileChild]
    cases hfree : c.nullFree with
    | false =>
      rw [hfree] at hc
      rw [show c.compile = .error .nilDereference from hc]
      rfl
    | true =>
      rw [hfree] at hc
      obtain ⟨p, hp⟩ : ∃ p, c.compile = .ok p := hc
      rw [hp, Option.isSome_some, Bool.true_and, Bool.true_and]
      exact (settles_compileChildren cs hsound.2).map _
end

/-! ## Every tree -/

end

/-- `not: {field: event.type, op: eq, value: exec}`, over the plain library. -/
def notExec : @Condition .plain :=
  letI : Library := .plain
  .notOf (.leaf "event.type" "eq" (.str "exec"))

end ArgusEdr.Detect
