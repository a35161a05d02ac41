import ArgusEdr.Sigma.SelectionTheorems

/-!
# When a converted rule loads

A rule that `convert` returns is accepted by the engine exactly if the selections its condition
mentions are (`converted_compiles_iff`). The engine rejects a comparison whose value is no number
and a group without members, and the importer lets both through.
-/

namespace ArgusEdr.Sigma

open List

open Go (Library Unicode Bytes)
open Detect (Condition compileChildren)
open Fallible (bind_eq_ok mapM_eq_ok KeyWise)

section
variable [Library]

/-! ## Anchoring -/

variable {c tree : Condition} {n : String} {env : Environment} {data : Bytes}

theorem compiles_anchorToAction (hop : isAndGroup c = true → c.op = "") (action : String) :
    (anchorToAction action c).Compiles ↔ c.Compiles := by
  by_cases hgroup : isAndGroup c = true
  · rw [Condition.Compiles, compile_anchorToAction_of_isAndGroup hgroup,
      Detect.exists_map_eq_ok_iff, Condition.Compiles, compile_of_isAndGroup hgroup (hop hgroup),
      Detect.exists_map_eq_ok_iff]
  · have hguard : (Condition.leaf "event.action" "eq" (.str action)).Compiles :=
      ⟨_, compile_actionGuard action⟩
    rw [anchorToAction, if_neg hgroup, Detect.compiles_allOf, forall_mem_cons,
      forall_mem_singleton]
    exact ⟨fun h => h.2.2, fun h => ⟨cons_ne_nil _ _, hguard, h⟩⟩

/-! ## The selections of a block -/

omit [Library] in
def selectionNames (detection : List (String × Node)) : List String :=
  ((detection.filter fun entry => entry.1 ≠ "condition").map Prod.fst).insertionSort (· ≤ ·)

omit [Library] in
theorem lookup_filter_ne {α : Type} {l : List (String × α)} {k k' : String} (h : k ≠ k') :
    (l.filter fun entry => entry.1 ≠ k').lookup k = l.lookup k := by
  induction l with
  | nil => rfl
  | cons entry l ih =>
    by_cases hentry : entry.1 = k'
    · have hk : (k == entry.1) = false := by simpa [hentry] using h
      rw [filter_cons_of_neg (by simpa using hentry), ih, lookup_cons, hk]
    · rw [filter_cons_of_pos (by simpa using hentry), lookup_cons, lookup_cons, ih]

variable {u : Unicode} {d : Decoding} {detection : List (String × Node)}
  {selections : List (String × Condition)}

theorem of_namedSelection_eq_ok {entry : String × Node} {named : String × Condition}
    (h : namedSelection u d entry = .ok named) :
    entry.1 = named.1 ∧ compileSelection u d entry.2 = .ok named.2 := by
  unfold namedSelection at h
  split at h
  · cases h
  · next selection hselection =>
    cases h
    exact ⟨rfl, hselection⟩

theorem keyWise_compileSelections (h : compileSelections u d detection = .ok selections) :
    KeyWise (fun node c => compileSelection u d node = .ok c)
      (detection.filter fun entry => entry.1 ≠ "condition") selections :=
  (mapM_eq_ok.mp h).imp fun _ _ => of_namedSelection_eq_ok

theorem mem_selectionNames (h : compileSelections u d detection = .ok selections) :
    n ∈ selectionNames detection ↔ ∃ c, selections.lookup n = some c := by
  rw [selectionNames, mem_insertionSort, ← (keyWise_compileSelections h).map_fst,
    ← Option.isSome_iff_exists, lookup_isSome_iff]
  simp only [mem_map, beq_iff_eq]
  exact exists_congr fun named => and_congr_right fun _ => eq_comm

theorem exists_node_of_lookup (h : compileSelections u d detection = .ok selections)
    (hc : selections.lookup n = some c) :
    ∃ node, detection.lookup n = some node ∧ compileSelection u d node = .ok c := by
  have hne : n ≠ "condition" := by
    rintro rfl
    have hmem := (mem_selectionNames h).mpr ⟨c, hc⟩
    rw [selectionNames, mem_insertionSort] at hmem
    simp at hmem
  have hrel := (keyWise_compileSelections h).lookup n
  rw [lookup_filter_ne hne, hc] at hrel
  cases hnode : detection.lookup n with
  | none =>
    rw [hnode] at hrel
    cases hrel
  | some node =>
    rw [hnode] at hrel
    cases hrel with
    | some hcompile => exact ⟨node, rfl, hcompile⟩

/-! ## The block -/

variable (u d detection) in
def Mentions (n : String) : Prop :=
  ∃ node text x, detection.lookup "condition" = some node ∧ conditionExpression d node = .ok text ∧
    Expr.WrittenAs u (selectionNames detection) x text ∧ n ∈ x.mentions (selectionNames detection)

variable (u d detection) in
/-- What the engine asks of the selection with the name. -/
def NameLoadable (n : String) : Prop :=
  ∀ node, detection.lookup n = some node → SelectionLoadable u d node

omit [Library] in
theorem of_liftError_eq_ok {α : Type} {x : Except Go.Error α} {a : α}
    (h : liftError x = .ok a) : x = .ok a := by
  cases x with
  | error => cases h
  | ok =>
    cases h
    rfl

theorem of_compileDetection_eq_ok (h : compileDetection u d detection = .ok tree) :
    ∃ node text selections, detection.lookup "condition" = some node ∧
      conditionExpression d node = .ok text ∧ compileSelections u d detection = .ok selections ∧
      parseCondition u selections (selectionNames detection) text = .ok tree := by
  unfold compileDetection at h
  split at h
  · cases h
  · next node hnode =>
    obtain ⟨text, htext, h⟩ := bind_eq_ok.mp h
    obtain ⟨selections, hselections, h⟩ := bind_eq_ok.mp h
    have hselections' := of_liftError_eq_ok hselections
    split at h
    · cases h
    · refine ⟨node, text, selections, hnode, of_liftError_eq_ok htext, hselections', ?_⟩
      rwa [selectionNames, ← (keyWise_compileSelections hselections').map_fst]

theorem loads_compileDetection (h : compileDetection u d detection = .ok tree) :
    Loads tree (∀ n, Mentions u d detection n → NameLoadable u d detection n) := by
  obtain ⟨node, text, selections, hnode, htext, hselections, hparse⟩ := of_compileDetection_eq_ok h
  let selection : String → Condition := fun n => (selections.lookup n).getD (.allOf [])
  have hresolves : Resolves selections (selectionNames detection) selection := by
    intro n hn
    obtain ⟨c, hc⟩ := (mem_selectionNames hselections).mp hn
    show selections.lookup n = some ((selections.lookup n).getD _)
    rw [hc, Option.getD_some]
  have hnames : ∀ n c, selections.lookup n = some c → n ∈ selectionNames detection :=
    fun n c hc => (mem_selectionNames hselections).mpr ⟨c, hc⟩
  have hloads : ∀ n ∈ selectionNames detection,
      Loads (selection n) (NameLoadable u d detection n) := by
    intro n hn
    obtain ⟨node, hlookup, hcompile⟩ := exists_node_of_lookup hselections (hresolves n hn)
    refine (loads_compileSelection hcompile).of_iff ⟨?_, fun hall => hall node hlookup⟩
    intro hnode node' hlookup'
    cases hlookup.symm.trans hlookup'
    exact hnode
  obtain ⟨x, hx, rfl⟩ := (parseCondition_eq_ok_iff hresolves hnames).mp hparse
  refine (loads_tree hloads hx).of_iff ⟨?_, ?_⟩
  · -- every reading of the condition is compiled to the same tree
    rintro hall n ⟨node', text', y, hnode', htext', hy, hn⟩
    cases hnode.symm.trans hnode'
    cases htext.symm.trans htext'
    have htree : x.tree selection (selectionNames detection) =
        y.tree selection (selectionNames detection) :=
      Except.ok.inj (hparse.symm.trans (parseCondition_of_writtenAs hresolves hy))
    have hcompiles := (loads_tree hloads hx).compiles.mpr hall
    rw [htree] at hcompiles
    exact (loads_tree hloads hy).compiles.mp hcompiles n hn
  · exact fun hall n hn => hall n ⟨node, text, x, hnode, htext, hx, hn⟩

/-! ## Rules -/

theorem of_convert_eq_ok {rule : Rule} (h : convert env data = .ok rule) :
    ∃ sigma action tree, env.unmarshal data = .ok sigma ∧
      compileDetection env.unicode env.decoding sigma.detection = .ok tree ∧
      rule.condition = anchorToAction action tree := by
  unfold convert at h
  split at h
  · cases h
  · next sigma hsigma =>
    dsimp only at h
    split at h
    · cases h
    · split at h
      · cases h
      · split at h
        · cases h
        · next action haction =>
          split at h
          · cases h
          · obtain ⟨tree, htree, h⟩ := bind_eq_ok.mp h
            have hrule := Except.ok.inj h
            exact ⟨sigma, action, tree, hsigma, htree, by rw [← hrule]⟩

theorem exists_convert {sigma : SigmaRule} {action : String}
    (hsigma : env.unmarshal data = .ok sigma) (htitle : Go.trimSpace sigma.title ≠ "")
    (hproduct : sigma.product = "")
    (haction : categoryActions.lookup (Go.toLower env.unicode sigma.category) = some action)
    (htree : compileDetection env.unicode env.decoding sigma.detection = .ok tree) :
    ∃ rule, convert env data = .ok rule ∧ rule.condition = anchorToAction action tree := by
  have hdetection : sigma.detection.isEmpty = false := by
    cases hblock : sigma.detection with
    | nil =>
      rw [hblock] at htree
      cases htree
    | cons => rfl
  have hlower : Go.toLower env.unicode sigma.product = "" := by
    rw [hproduct]
    rfl
  unfold convert
  rw [hsigma]
  dsimp only
  rw [if_neg htitle, hlower, if_neg (by simp), haction]
  dsimp only
  rw [hdetection, htree]
  exact ⟨_, rfl, rfl⟩

/-- The engine accepts the match tree of a converted rule exactly if the condition mentions no
empty list of maps and no comparison with a value that is no number. -/
theorem converted_compiles_iff {env : Environment} {data : Bytes} {sigma : SigmaRule} {rule : Rule}
    (hsigma : env.unmarshal data = .ok sigma) (h : convert env data = .ok rule) :
    rule.condition.Compiles ↔
      ∀ n, Mentions env.unicode env.decoding sigma.detection n →
        NameLoadable env.unicode env.decoding sigma.detection n := by
  obtain ⟨sigma', action, tree, hsigma', htree, hcondition⟩ := of_convert_eq_ok h
  cases hsigma.symm.trans hsigma'
  have hloads := loads_compileDetection htree
  rw [hcondition, compiles_anchorToAction hloads.op, hloads.compiles]

end

/-! ## A comparison with a text -/

def pidRule (value : Node) : SigmaRule where
  title := "High process id"
  id := "8a6f1c1e-0d0b-4c35-9d53-2f3f8f6d7a10"
  category := "process_creation"
  detection :=
    [("selection", { kind := .mapping, tag := "!!map", content :=
        [{ kind := .scalar, tag := "!!str", value := "ProcessId|gt" }, value] }),
     ("condition", { kind := .scalar, tag := "!!str", value := "selection" })]

def pidDocument (value : String) : Bytes :=
  Go.ascii ("title: High process id\nid: 8a6f1c1e-0d0b-4c35-9d53-2f3f8f6d7a10\n" ++
    "logsource:\n  category: process_creation\ndetection:\n  selection:\n    ProcessId|gt: " ++
    value ++ "\n  condition: selection\n")

/-- The importer on the document of a rule that has an id, so that no digest is taken. -/
def importer [Library] (rule : SigmaRule) : Environment where
  unicode := .ascii
  upper := Char.toUpper
  unmarshal := fun _ => .ok rule
  decoding := .plain
  sha1 := fun _ => []

theorem convert_pidRule [Library] {value : Node} {tree : Condition} (data : Bytes)
    (htree : compileDetection .ascii .plain (pidRule value).detection = .ok tree) :
    ∃ rule, convert (importer (pidRule value)) data = .ok rule ∧
      rule.condition = anchorToAction "exec" tree := by
  have hsigma : (importer (pidRule value)).unmarshal data = .ok (pidRule value) := rfl
  have htitle : Go.trimSpace (pidRule value).title ≠ "" := by
    show Go.trimSpace "High process id" ≠ ""
    decide
  have haction : categoryActions.lookup (Go.toLower .ascii (pidRule value).category) =
      some "exec" := by
    show categoryActions.lookup (Go.toLower .ascii "process_creation") = some "exec"
    decide
  exact exists_convert hsigma htitle rfl haction htree

/-- `ProcessId|gt: abc` is converted, and the engine rejects the rule. -/
theorem text_comparison_is_rejected :
    letI : Library := .plain
    ∃ rule, convert (importer (pidRule { kind := .scalar, tag := "!!str", value := "abc" }))
        (pidDocument "abc") = .ok rule ∧ ¬rule.condition.Compiles := by
  let _ : Library := .plain
  have htree : compileDetection .ascii .plain
      (pidRule { kind := .scalar, tag := "!!str", value := "abc" }).detection =
        .ok (.leaf "process.pid" "gt" (.str "abc")) := rfl
  obtain ⟨rule, hrule, hcondition⟩ := convert_pidRule (pidDocument "abc") htree
  refine ⟨rule, hrule, ?_⟩
  rw [hcondition, compiles_anchorToAction (loads_leaf Iff.rfl).op, Detect.compiles_leaf]
  rintro ⟨p, hp⟩
  cases hp

/-- `ProcessId|gt: 4` is converted, and the engine accepts the rule. -/
theorem number_comparison_is_accepted :
    letI : Library := .plain
    ∃ rule, convert (importer (pidRule { kind := .scalar, tag := "!!int", value := "4" }))
        (pidDocument "4") = .ok rule ∧ rule.condition.Compiles := by
  let _ : Library := .plain
  have htree : compileDetection .ascii .plain
      (pidRule { kind := .scalar, tag := "!!int", value := "4" }).detection =
        .ok (.leaf "process.pid" "gt" (.int 4)) := rfl
  obtain ⟨rule, hrule, -⟩ := convert_pidRule (pidDocument "4") htree
  have hsigma : (importer (pidRule { kind := .scalar, tag := "!!int", value := "4" })).unmarshal
      (pidDocument "4") = .ok (pidRule { kind := .scalar, tag := "!!int", value := "4" }) := rfl
  refine ⟨rule, hrule, (converted_compiles_iff hsigma hrule).mpr ?_⟩
  intro n _ node hnode
  have hmem := Go.mem_of_lookup hnode
  simp only [pidRule, mem_cons, Prod.mk.injEq, not_mem_nil, or_false] at hmem
  obtain ⟨-, rfl⟩ | ⟨-, rfl⟩ := hmem
  · refine forall_mem_singleton.mpr ?_
    intro op requireAll values _ hvalues _
    cases hvalues
    exact forall_mem_singleton.mpr rfl
  · intro entry hentry
    cases hentry

end ArgusEdr.Sigma
