import ArgusEdr.Detect.Loader
import ArgusEdr.Hunt.AgreementTheorems
import ArgusEdr.Hunt.ToRuleTheorems

/-!
# Loading the rule of a saved hunt

The parser and the rule compiler accept different values: an order on a text that is no
integer is a comparison to the first and an error to the second. `toCond` keeps every other
comparison within what the loader takes, so that the rule of a query loads exactly if no
comparison of it is such an order (`saved_hunt_loads_iff`).
-/

namespace ArgusEdr.Hunt

open List

open Go (Library Classes)
open Detect (Condition compileLeaf Decoder loadFiles)

section
variable [Library]

/-! ## Leaves -/

def Comparison.LeafCompiles (c : Comparison) : Prop :=
  ∃ p, compileLeaf c.field (ruleOps c.op) c.leafValue = .ok p

def Literal.Numeric : Literal → Prop
  | .text s => ∃ n, Go.parseInt64 s = some n
  | .number _ _ => True

/-- The text of a number is a regular expression. -/
def NumbersArePatterns (cls : Classes) : Prop :=
  ∀ written num, (Literal.number written num).WellFormed cls →
    ∃ test, Library.regexp (Detect.toString (Literal.number written num).literal) = .ok test

theorem exists_toInt64_iff (v : Literal) : (∃ n, Detect.toInt64 v.literal = some n) ↔ v.Numeric := by
  cases v with
  | text => exact Iff.rfl
  | number =>
    refine iff_of_true ?_ trivial
    rw [Literal.literal]
    split <;> exact ⟨_, rfl⟩

theorem exists_regexp_literal {cls : Classes} (hregexp : NumbersArePatterns cls) {c : Comparison}
    (hc : c.WellFormed cls) (hop : c.op = .regex) :
    ∃ test, Library.regexp (Detect.toString c.value.literal) = .ok test := by
  have hcompiles := hc.compiles hop
  have hvalue := hc.literals c.value mem_cons_self
  cases hv : c.value with
  | text =>
    rw [hv] at hcompiles
    exact hcompiles
  | number written num =>
    rw [hv] at hvalue
    exact hregexp written num hvalue

theorem exists_numberCompare_iff (field op : String) (value : Detect.Value) :
    (∃ p, Detect.numberCompare field op value = .ok p) ↔ ∃ n, Detect.toInt64 value = some n := by
  unfold Detect.numberCompare
  cases Detect.toInt64 value <;> simp

theorem leafCompiles_iff {cls : Classes} (hregexp : NumbersArePatterns cls) {c : Comparison}
    (hc : c.WellFormed cls) : c.LeafCompiles ↔ (c.op.isOrder = true → c.value.Numeric) := by
  rw [Comparison.LeafCompiles, compileLeaf_ruleOps hc.known, ← exists_toInt64_iff]
  cases hop : c.op with
  | eq | ne | contains | startswith | endswith =>
    exact iff_of_true ⟨_, rfl⟩ (fun h => by cases h)
  | isIn =>
    rw [Comparison.leafValue, hop]
    exact iff_of_true ⟨_, rfl⟩ (fun h => by cases h)
  | regex =>
    obtain ⟨test, htest⟩ := exists_regexp_literal hregexp hc hop
    rw [leafValue_of_ne (by simp [hop])]
    refine iff_of_true ?_ (fun h => by cases h)
    simp [Detect.regexMatch, htest]
  | gt | lt | ge | le =>
    rw [leafValue_of_ne (by simp [hop])]
    exact (exists_numberCompare_iff _ _ _).trans ⟨fun h _ => h, fun h => h rfl⟩

/-! ## Trees -/

theorem leafCompiles_toCond (c : Comparison) : c.toCond.Compiles ↔ c.LeafCompiles :=
  Detect.compiles_leaf

theorem expr_compiles_iff (x : Expr) :
    (x.toCond.Compiles ↔ ∀ c ∈ x.comparisons, c.LeafCompiles) ∧
      ((∀ t ∈ x.flattenAnd, t.Compiles) ↔ ∀ c ∈ x.comparisons, c.LeafCompiles) ∧
      ((∀ t ∈ x.flattenOr, t.Compiles) ↔ ∀ c ∈ x.comparisons, c.LeafCompiles) := by
  induction x with
  | and l r ihl ihr =>
    have hall : (∀ t ∈ l.flattenAnd ++ r.flattenAnd, t.Compiles) ↔
        ∀ c ∈ (Expr.and l r).comparisons, c.LeafCompiles := by
      rw [forall_mem_append, ihl.2.1, ihr.2.1]
      exact forall_mem_append.symm
    have hgroup : (Expr.and l r).toCond.Compiles ↔
        ∀ c ∈ (Expr.and l r).comparisons, c.LeafCompiles := by
      rw [Expr.toCond, Detect.compiles_allOf, hall]
      exact and_iff_right (append_ne_nil_of_left_ne_nil (flattenAnd_ne_nil l) _)
    exact ⟨hgroup, hall, forall_mem_singleton.trans hgroup⟩
  | or l r ihl ihr =>
    have hany : (∀ t ∈ l.flattenOr ++ r.flattenOr, t.Compiles) ↔
        ∀ c ∈ (Expr.or l r).comparisons, c.LeafCompiles := by
      rw [forall_mem_append, ihl.2.2, ihr.2.2]
      exact forall_mem_append.symm
    have hgroup : (Expr.or l r).toCond.Compiles ↔
        ∀ c ∈ (Expr.or l r).comparisons, c.LeafCompiles := by
      rw [Expr.toCond, Detect.compiles_anyOf, hany]
      exact and_iff_right (append_ne_nil_of_left_ne_nil (flattenOr_ne_nil l) _)
    exact ⟨hgroup, forall_mem_singleton.trans hgroup, hany⟩
  | not x ih =>
    have hnot : (Expr.not x).toCond.Compiles ↔ ∀ c ∈ x.comparisons, c.LeafCompiles := by
      rw [Expr.toCond, Detect.compiles_notOf, ih.1]
    exact ⟨hnot, forall_mem_singleton.trans hnot, forall_mem_singleton.trans hnot⟩
  | cmp c =>
    have hcmp : c.toCond.Compiles ↔ ∀ d ∈ [c], d.LeafCompiles :=
      (leafCompiles_toCond c).trans forall_mem_singleton.symm
    exact ⟨hcmp, forall_mem_singleton.trans hcmp, forall_mem_singleton.trans hcmp⟩

theorem conds_compile_iff (q : SimpleQuery) :
    (∀ t ∈ q.conds, t.Compiles) ↔ ∀ c ∈ q.comparisons, c.LeafCompiles := by
  have hguard : ∀ t ∈ (if q.cls.all then []
      else [Condition.leaf "event.type" "eq" (.str q.cls.action)]), t.Compiles := by
    split
    · exact fun t ht => absurd ht not_mem_nil
    · exact forall_mem_singleton.mpr
        (Detect.compiles_leaf.mpr ⟨_, Detect.compileLeaf_event_type _⟩)
  rw [SimpleQuery.conds, forall_mem_append, and_iff_right hguard, SimpleQuery.comparisons,
    forall_mem_flatten, forall_mem_map, forall_mem_map]
  exact forall₂_congr fun x _ => (expr_compiles_iff x).1

theorem matchTree_compiles_iff (q : SimpleQuery) :
    q.matchTree.Compiles ↔ ∀ c ∈ q.comparisons, c.LeafCompiles := by
  rw [← conds_compile_iff]
  unfold SimpleQuery.matchTree
  split
  · next hnil =>
    refine iff_of_true (Detect.compiles_leaf.mpr ⟨_, Detect.compileLeaf_event_action_exists _⟩) ?_
    rw [hnil]
    exact fun t ht => absurd ht not_mem_nil
  · next t hone =>
    rw [hone]
    exact forall_mem_singleton.symm
  · next hnil _ =>
    rw [Detect.compiles_allOf]
    exact and_iff_right hnil

/-- `ToRule` writes a rule for every simple query that compiles. A loader that reads the document
back accepts it exactly if each order of the query compares with a number or with the text of an
integer. -/
theorem saved_hunt_loads_iff {cls : Classes} (hregexp : NumbersArePatterns cls) {source : String}
    {q : SimpleQuery} (hq : compile cls source = .ok (.simple q)) {info : RuleMeta}
    (hid : info.id ≠ "") (hname : info.name ≠ "") {severity : Model.Severity}
    (hseverity : Model.parseSeverity info.severity = .ok severity) :
    ∃ doc, toRule (.simple q) info = .ok doc ∧
      ∀ (decode : Decoder) (file : RuleFile), decode file.content = .ok [doc] →
        ((∃ rules, loadFiles decode [file] = .ok rules) ↔
          ∀ c ∈ q.comparisons, c.op.isOrder = true → c.value.Numeric) := by
  have hwell := wellFormed_of_compile hq
  refine ⟨_, if_neg (not_or.mpr ⟨hid, hname⟩), fun decode file hdecode => ?_⟩
  rw [Detect.exists_loadFiles_singleton_iff hdecode, Detect.exists_compileRule_iff]
  have hleaves : (∀ c ∈ q.comparisons, c.LeafCompiles) ↔
      ∀ c ∈ q.comparisons, c.op.isOrder = true → c.value.Numeric :=
    forall₂_congr fun c hc => leafCompiles_iff hregexp (hwell c hc)
  rw [← hleaves, ← matchTree_compiles_iff]
  constructor
  · rintro ⟨-, ⟨condition, hcondition, hcompiles⟩, -⟩
    cases hcondition
    exact hcompiles
  · intro hcompiles
    exact ⟨hid, ⟨_, rfl, hcompiles⟩, severity, hseverity⟩

end

/-! ## Runs -/

def pidAbove (text : String) : @SimpleQuery .whole :=
  letI : Library := .whole
  { cls := { all := true }
    filter := some (.cmp { field := "process.pid", op := .gt, value := .text text }) }

def pidMeta : RuleMeta := { id := "R-1", name := "pids", severity := "low" }

/-- A hunt for process ids above `"init"` is saved as a rule the loader refuses. -/
theorem text_order_is_refused :
    letI : Library := .whole
    ∃ doc, compile .ascii "any where process.pid > init" = .ok (.simple (pidAbove "init")) ∧
      toRule (.simple (pidAbove "init")) pidMeta = .ok doc ∧
      ∀ (decode : Decoder) (file : RuleFile), decode file.content = .ok [doc] →
        loadFiles decode [file] = .error (.err (.wrapf "%s: rule %s: %w" [file.name, "R-1"]
          (.errorf "operator %s needs a numeric value, got %T" ["gt", "string"]))) := by
  let _ : Library := .whole
  have hlex : lex .ascii "any where process.pid > init".toList =
      .ok [⟨.ident, "any"⟩, ⟨.ident, "where"⟩, ⟨.ident, "process.pid"⟩, ⟨.op, ">"⟩,
        ⟨.ident, "init"⟩, .eof] := by
    decide +kernel
  refine ⟨_, ?_, rfl, fun decode file hdecode => ?_⟩
  · unfold compile
    rw [hlex]
    rfl
  · simp only [loadFiles, Detect.addFiles, Detect.addFile, Detect.loadFile, hdecode]
    rfl

/-- With the text of an integer it loads. -/
theorem digits_order_loads :
    letI : Library := .whole
    ∃ doc, toRule (.simple (pidAbove "4")) pidMeta = .ok doc ∧
      ∃ rules, loadFiles (fun _ => .ok [doc]) [{ name := "pids.yaml", content := [] }] =
        .ok rules := by
  let _ : Library := .whole
  have hlex : lex .ascii "any where process.pid > \"4\"".toList =
      .ok [⟨.ident, "any"⟩, ⟨.ident, "where"⟩, ⟨.ident, "process.pid"⟩, ⟨.op, ">"⟩,
        ⟨.string, "4"⟩, .eof] := by
    decide +kernel
  have hcompile : compile .ascii "any where process.pid > \"4\"" = .ok (.simple (pidAbove "4")) := by
    unfold compile
    rw [hlex]
    rfl
  have hregexp : NumbersArePatterns .ascii := fun _ _ _ => ⟨_, rfl⟩
  have hid : pidMeta.id ≠ "" := by decide
  have hname : pidMeta.name ≠ "" := by decide
  have hseverity : Model.parseSeverity pidMeta.severity = .ok .low := rfl
  obtain ⟨doc, hdoc, hloads⟩ := saved_hunt_loads_iff hregexp hcompile hid hname hseverity
  refine ⟨doc, hdoc, (hloads _ _ rfl).mpr ?_⟩
  exact forall_mem_singleton.mpr fun _ => ⟨4, by decide⟩

end ArgusEdr.Hunt
