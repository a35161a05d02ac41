import ArgusEdr.Detect.Meaning
import ArgusEdr.Sigma.ConditionTheorems
import ArgusEdr.Sigma.Convert

/-!
# The tree of a condition means the condition

The tree of an expression has the value of the expression on every event, for the truth values
that the trees of the selections have there (`mean_operands`). A list of expressions is compiled
as one text, which spells the disjunction of its members (`writtenAs_join`), and anchoring a tree
adds the event action as a conjunct (`means_anchorToAction`).
-/

namespace ArgusEdr.Sigma

open List

open Model (Event)
open Go (Library Unicode)
open Detect (Condition Means MeansAll MeansAny compileChildren)

/-! ## Expressions -/

section
variable [Library] {cs : List Condition} {e : Event} {a b : Bool}

theorem means_allOf (hne : cs ≠ []) (h : MeansAll cs e b) : Means (allOf cs) e b := by
  unfold allOf
  split
  · exact .of_singletonAll h
  · exact h.allOf hne

theorem means_anyOf (hne : cs ≠ []) (h : MeansAny cs e b) : Means (anyOf cs) e b := by
  unfold anyOf
  split
  · exact .of_singletonAny h
  · exact h.anyOf hne

/-- The tree of an expression means `b`, and so do its operands together. -/
structure Operands.Mean (x : Operands) (e : Event) (b : Bool) : Prop where
  tree : Means x.tree e b
  ands : MeansAll x.ands e b
  ors : MeansAny x.ors e b

theorem Operands.mean_single {tree : Condition} (h : Means tree e b) :
    (Operands.single tree).Mean e b :=
  ⟨h, h.singletonAll, h.singletonAny⟩

theorem Operands.Mean.and {l r : Operands} (hl : l.Mean e a) (hr : r.Mean e b) :
    (l.and r).Mean e (a && b) := by
  have hands : MeansAll (l.ands ++ [r.tree]) e (a && b) := hl.ands.append hr.tree.singletonAll
  have htree : Means (allOf (l.ands ++ [r.tree])) e (a && b) := means_allOf (by simp) hands
  exact ⟨htree, hands, htree.singletonAny⟩

theorem Operands.Mean.or {l r : Operands} (hl : l.Mean e a) (hr : r.Mean e b) :
    (l.or r).Mean e (a || b) := by
  have hors : MeansAny (l.ors ++ [r.tree]) e (a || b) := hl.ors.append hr.tree.singletonAny
  have htree : Means (anyOf (l.ors ++ [r.tree])) e (a || b) := means_anyOf (by simp) hors
  exact ⟨htree, htree.singletonAll, hors⟩

variable {u : Unicode} {names : List String} {selection : String → Condition}
  {truth : String → Bool}

theorem mean_operands (hmeans : ∀ n ∈ names, Means (selection n) e (truth n)) {k : ℕ} {x : Expr}
    {ts : List String} (h : x.Written u names k ts) :
    (x.operands selection names).Mean e (x.eval names truth) := by
  induction h with
  | name _ _ hn => exact Operands.mean_single (hmeans _ hn)
  | @quantified _ all pattern _ _ _ _ _ _ _ hmatches =>
    have hne : matchedBy selection names pattern ≠ [] := matchedBy_ne_nil.mpr hmatches
    have hmatched : ∀ n ∈ names.filter pattern.matches, Means (selection n) e (truth n) :=
      fun n hn => hmeans n (mem_of_mem_filter hn)
    refine Operands.mean_single ?_
    cases all with
    | true => exact means_allOf hne (Detect.meansAll_map hmatched)
    | false => exact means_anyOf hne (Detect.meansAny_map hmatched)
  | not _ _ _ ih => exact Operands.mean_single ih.tree.notOf
  | paren _ _ ih => exact Operands.mean_single ih.tree
  | and _ _ _ _ ihl ihr => exact ihl.and ihr
  | or _ _ _ ihl ihr => exact ihl.or ihr

end

/-! ## Lists of expressions -/

variable {cs : List Char} {ts : List String}

theorem Laid.append {ds : List Char} {us : List String} (h : Laid ts cs) (h' : Laid us ds)
    (hds : ∀ c ∈ ds.head?, Go.isSpace c = true ∨ IsParen c) : Laid (ts ++ us) (cs ++ ds) := by
  induction h with
  | nil hgap => exact h'.gap hgap
  | paren hgap hc _ ih =>
    rw [append_assoc]
    exact .paren hgap hc ih
  | @word gap rest w ts hgap hw hend _ ih =>
    rw [append_assoc, append_assoc]
    refine .word hgap hw ?_ ih
    cases rest with
    | nil => exact hds
    | cons => exact hend

theorem laid_paren (h : Laid ts cs) : Laid ("(" :: (ts ++ [")"])) ('(' :: (cs ++ [')'])) := by
  have hblank : Blank [] := by simp [Blank]
  have hclose : Laid [")"] [')'] := .paren hblank (.inr rfl) (.nil hblank)
  exact .paren hblank (.inl rfl) (h.append hclose (by simp [IsParen]))

theorem laid_or (h : Laid ts cs) : Laid ("or" :: ts) (" or ".toList ++ cs) := by
  have hblank : Blank [' '] := by simp [Blank, Go.isSpace]
  have hword : IsWord "or" := ⟨by decide, by simp [Go.isSpace, IsParen]⟩
  have hchars : " or ".toList = [' '] ++ ("or".toList ++ [' ']) := by decide
  rw [hchars, append_assoc, append_assoc]
  exact .word hblank hword (by simp [Go.isSpace]) (h.gap hblank)

section
variable {u : Unicode} {names : List String} {text : String} {x : Expr} {xs : List Expr}
  {members : List String}

theorem Expr.WrittenAs.or_paren {l r : Expr} {member : String} (hl : l.WrittenAs u names text)
    (hr : r.WrittenAs u names member) :
    (Expr.or l (.paren r)).WrittenAs u names (text ++ (" or " ++ ("(" ++ member ++ ")"))) := by
  obtain ⟨ts, hts, htext⟩ := hl
  obtain ⟨us, hus, hmember⟩ := hr
  have hor : IsKeyword u "or" "or" := beq_self_eq_true _
  refine ⟨_, .or hts hor (.paren (by decide) hus), ?_⟩
  rw [String.toList_append, String.toList_append, String.toList_append, String.toList_append]
  exact htext.append (laid_or (laid_paren hmember)) (by simp [Go.isSpace])

theorem Expr.WrittenAs.paren (h : x.WrittenAs u names text) :
    (Expr.paren x).WrittenAs u names ("(" ++ text ++ ")") := by
  obtain ⟨ts, hts, htext⟩ := h
  refine ⟨_, .paren (by decide) hts, ?_⟩
  rw [String.toList_append, String.toList_append]
  exact laid_paren htext

/-- The disjunction of a list of expressions, behind the first one. -/
def disjunction (x : Expr) (xs : List Expr) : Expr := xs.foldl (fun l r => .or l (.paren r)) x

theorem intercalate_cons (separator first : String) (rest : List String) :
    String.intercalate separator (first :: rest) =
      rest.foldl (fun text member => text ++ (separator ++ member)) first := by
  induction rest generalizing first with
  | nil => rfl
  | cons second rest ih =>
    rw [foldl_cons, ← ih]
    apply String.toList_inj.mp
    cases rest with
    | nil => simp
    | cons => simp [String.toList_intercalate]

theorem writtenAs_disjunction (hxs : List.Forall₂ (Expr.WrittenAs u names) xs members)
    (hx : x.WrittenAs u names text) :
    (disjunction x xs).WrittenAs u names
      ((members.map fun member => "(" ++ member ++ ")").foldl
        (fun text member => text ++ (" or " ++ member)) text) := by
  induction hxs generalizing x text with
  | nil => exact hx
  | cons hy _ ih => exact ih (hx.or_paren hy)

theorem writtenAs_join (hx : x.WrittenAs u names text)
    (hxs : List.Forall₂ (Expr.WrittenAs u names) xs members) :
    (disjunction (.paren x) xs).WrittenAs u names
      (String.intercalate " or " ((text :: members).map fun member => "(" ++ member ++ ")")) := by
  rw [map_cons, intercalate_cons]
  exact writtenAs_disjunction hxs hx.paren

theorem eval_disjunction (truth : String → Bool) (x : Expr) (xs : List Expr) :
    (disjunction x xs).eval names truth =
      (x.eval names truth || xs.any fun y => y.eval names truth) := by
  induction xs generalizing x with
  | nil => simp [disjunction]
  | cons y xs ih =>
    show (disjunction (.or x (.paren y)) xs).eval names truth = _
    rw [ih]
    simp [Expr.eval, Bool.or_assoc]

end

/-! ## The event action -/

section
variable [Library] {c : Condition} {e : Event} {b : Bool}

def actionGuard (action : String) : Detect.Predicate :=
  Detect.equality "event.action" (.str action) false

theorem actionGuard_eq (action : String) (e : Event) :
    actionGuard action e = decide (action ≠ "" ∧ e.action = action) := by
  rw [actionGuard, Detect.equality, Model.field_event_action, Model.textField]
  by_cases hempty : e.action = ""
  · rw [if_pos hempty, hempty]
    simp only [Bool.false_eq, decide_eq_false_iff_not]
    rintro ⟨hne, heq⟩
    exact hne heq.symm
  · rw [if_neg hempty]
    show (decide (e.action = action) != false) = _
    rw [Bool.bne_false, decide_eq_decide]
    constructor
    · rintro rfl
      exact ⟨hempty, rfl⟩
    · exact And.right

theorem compile_actionGuard (action : String) :
    (Condition.leaf "event.action" "eq" (.str action)).compile = .ok (actionGuard action) := by
  have hknown : Model.knownField "event.action" = true := rfl
  exact Detect.compile_leaf (by simp [Detect.compileLeaf, hknown, actionGuard])

theorem compile_of_isAndGroup (h : isAndGroup c = true) (hop : c.op = "") :
    c.compile = (compileChildren c.all).map fun ps e => ps.all fun p => p e := by
  obtain ⟨all, any, not, field, op, value⟩ := c
  obtain ⟨⟨⟨hall, rfl⟩, rfl⟩, rfl⟩ : ((all ≠ [] ∧ any = []) ∧ not = none) ∧ field = "" := by
    simpa [isAndGroup] using h
  obtain rfl : op = "" := hop
  simp [Condition.compile, Detect.classify, hall]

theorem op_of_isAndGroup (h : isAndGroup c = true) (hc : c.Compiles) : c.op = "" := by
  obtain ⟨all, any, not, field, op, value⟩ := c
  obtain ⟨⟨⟨hall, rfl⟩, rfl⟩, rfl⟩ : ((all ≠ [] ∧ any = []) ∧ not = none) ∧ field = "" := by
    simpa [isAndGroup] using h
  by_contra hop
  obtain ⟨p, hp⟩ := hc
  have hop' : op ≠ "" := hop
  simp [Condition.compile, Detect.classify, hall, hop'] at hp

theorem compile_anchorToAction_of_isAndGroup (h : isAndGroup c = true) (action : String) :
    (anchorToAction action c).compile =
      (compileChildren c.all).map fun ps e => actionGuard action e && ps.all fun p => p e := by
  have hgroup : isAndGroup (anchorToAction action c) = true := by
    rw [anchorToAction, if_pos h]
    rfl
  have hop : (anchorToAction action c).op = "" := by
    rw [anchorToAction, if_pos h]
  have hall : (anchorToAction action c).all =
      some (Condition.leaf "event.action" "eq" (.str action)) :: c.all := by
    rw [anchorToAction, if_pos h]
  rw [compile_of_isAndGroup hgroup hop, hall, compileChildren, Detect.compileChild,
    compile_actionGuard]
  cases compileChildren c.all with
  | error | ok => rfl

theorem means_anchorToAction (action : String) (h : Means c e b) :
    Means (anchorToAction action c) e (decide (action ≠ "" ∧ e.action = action) && b) := by
  have hguard : Means (.leaf "event.action" "eq" (.str action)) e
      (decide (action ≠ "" ∧ e.action = action)) :=
    ⟨_, compile_actionGuard action, actionGuard_eq action e⟩
  by_cases hgroup : isAndGroup c = true
  · obtain ⟨p, hp, hb⟩ := h
    rw [compile_of_isAndGroup hgroup (op_of_isAndGroup hgroup ⟨p, hp⟩)] at hp
    rw [Means, compile_anchorToAction_of_isAndGroup hgroup]
    cases hchildren : compileChildren c.all with
    | error => simp [hchildren, Except.map] at hp
    | ok ps =>
      rw [hchildren] at hp
      cases hp
      refine ⟨_, rfl, ?_⟩
      show (actionGuard action e && ps.all fun p => p e) = _
      rw [actionGuard_eq, ← hb]
  · rw [anchorToAction, if_neg hgroup]
    exact (hguard.singletonAll.append h.singletonAll).allOf (by simp)

end

/-! ## Conditions -/

section
variable [Library] {u : Unicode} {d : Decoding} {names : List String}

inductive ConditionSpells (u : Unicode) (d : Decoding) (names : List String) (node : Node) :
    List Expr → Prop
  | single {text : String} {x : Expr} (htext : d.string node = some text)
      (hx : x.WrittenAs u names text) : ConditionSpells u d names node [x]
  | list {texts : List String} {xs : List Expr} (hsingle : d.string node = none)
      (htexts : d.strings node = some texts) (hne : texts ≠ [])
      (hxs : List.Forall₂ (Expr.WrittenAs u names) xs texts) : ConditionSpells u d names node xs

theorem exists_conditionExpression {node : Node} {xs : List Expr}
    (h : ConditionSpells u d names node xs) :
    ∃ text x, conditionExpression d node = .ok text ∧ Expr.WrittenAs u names x text ∧
      ∀ truth, x.eval names truth = xs.any fun y => y.eval names truth := by
  cases h with
  | @single text x htext hx =>
    refine ⟨text, x, ?_, hx, fun truth => by simp⟩
    rw [conditionExpression, htext]
  | list hsingle htexts hne hxs =>
    cases hxs with
    | nil => exact absurd rfl hne
    | @cons x text xs texts hx hxs =>
      refine ⟨_, _, ?_, writtenAs_join hx hxs, fun truth => eval_disjunction truth _ _⟩
      rw [conditionExpression, hsingle, htexts]

variable {selections : List (String × Condition)} {selection : String → Condition}

/-- The condition is compiled to a tree with the meaning of the condition: on every event, for the
values of the selections there, one of its expressions is true. Anchored to an action, it means
that and the action. -/
theorem condition_means (hsel : Resolves selections names selection) {node : Node}
    {xs : List Expr} (hcondition : ConditionSpells u d names node xs) :
    ∃ text tree, conditionExpression d node = .ok text ∧
      parseCondition u selections names text = .ok tree ∧
      ∀ (e : Event) (truth : String → Bool),
        (∀ n ∈ names, Means (selection n) e (truth n)) →
        Means tree e (xs.any fun x => x.eval names truth) ∧
        ∀ action, Means (anchorToAction action tree) e
          (decide (action ≠ "" ∧ e.action = action) && xs.any fun x => x.eval names truth) := by
  obtain ⟨text, x, htext, hx, heval⟩ := exists_conditionExpression hcondition
  refine ⟨text, x.tree selection names, htext, parseCondition_of_writtenAs hsel hx, ?_⟩
  intro e truth hmeans
  obtain ⟨tokens, hwritten, -⟩ := hx
  have htree : Means (x.tree selection names) e (xs.any fun x => x.eval names truth) := by
    rw [← heval]
    exact (mean_operands hmeans hwritten).tree
  exact ⟨htree, fun action => means_anchorToAction action htree⟩

end

/-- A shell that no administrator runs, or that has all of the network selections. -/
def shellCondition : Node where
  kind := .sequence
  content := [{ kind := .scalar, tag := "!!str", value := "shell AND NOT admin" },
    { kind := .scalar, tag := "!!str", value := "(shell and all of net*)" }]

def shellSelection [Library] (name : String) : Condition :=
  if name = "admin" then .leaf "user.name" "eq" (.str "root")
  else if name = "net1" then .leaf "destination.port" "eq" (.str "4444")
  else .leaf "process.name" "eq" (.str "sh")

/-- A shell of the web server raises the alert. -/
theorem condition_means_shellCondition :
    letI : Library := .plain
    ∃ text tree, conditionExpression .plain shellCondition = .ok text ∧
      parseCondition .ascii (["admin", "net1", "shell"].map fun n => (n, shellSelection n))
        ["admin", "net1", "shell"] text = .ok tree ∧
      Means (anchorToAction "exec" tree)
        { action := "exec", process := { name := "sh" }, user := { name := "www-data" } } true := by
  let _ : Library := .plain
  have hadmin : IsName Unicode.ascii "admin" := ⟨by decide, by decide, by decide, by decide⟩
  have hshell : IsName Unicode.ascii "shell" := ⟨by decide, by decide, by decide, by decide⟩
  have hall : IsQuantifier Unicode.ascii true "all" := ⟨by decide, by decide, by decide⟩
  have hnet : (Pattern.startingWith "net").Spelled Unicode.ascii "net*" := ⟨by decide, by decide⟩
  have hfirst : (Expr.and (.name "shell") (.not (.name "admin"))).WrittenAs .ascii
      ["admin", "net1", "shell"] "shell AND NOT admin" :=
    ⟨["shell"] ++ "AND" :: ["NOT", "admin"],
      .and (by decide) (.name (by decide) hshell (by decide)) (by decide)
        (.not le_rfl (by decide) (.name le_rfl hadmin (by decide))),
      tokenize_eq_iff.mp (by decide)⟩
  have hsecond : (Expr.paren (.and (.name "shell") (.quantified true (.startingWith "net")))).WrittenAs
      .ascii ["admin", "net1", "shell"] "(shell and all of net*)" :=
    ⟨"(" :: ((["shell"] ++ "and" :: ["all", "of", "net*"]) ++ [")"]),
      .paren (by decide) (.and (by decide) (.name (by decide) hshell (by decide)) (by decide)
        (.quantified le_rfl hall (by decide) hnet ⟨"net1", by decide, by decide⟩)),
      tokenize_eq_iff.mp (by decide)⟩
  have hcondition : ConditionSpells .ascii .plain ["admin", "net1", "shell"] shellCondition _ :=
    .list rfl rfl (cons_ne_nil _ _) (.cons hfirst (.cons hsecond .nil))
  have hsel : Resolves (["admin", "net1", "shell"].map fun n => (n, shellSelection n))
      ["admin", "net1", "shell"] shellSelection := by
    intro n hn
    fin_cases hn <;> rfl
  obtain ⟨text, tree, htext, htree, hmeans⟩ := condition_means hsel hcondition
  refine ⟨text, tree, htext, htree, ?_⟩
  refine (hmeans _ (fun n => n = "shell") ?_).2 "exec"
  intro n hn
  fin_cases hn
  all_goals exact ⟨_, rfl, rfl⟩

end ArgusEdr.Sigma
