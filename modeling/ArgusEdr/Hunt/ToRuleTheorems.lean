import ArgusEdr.Detect.Meaning
import ArgusEdr.Hunt.Query

/-!
# A saved hunt means what the hunt meant

`flatten` collapses chains of one operator, and `matchTree` wraps the class guard, the `where` and the
pipes into one tree. Each comparison aside, the compiled tree is the query (`expr_means`,
`matchTree_compile`).
-/

namespace ArgusEdr.Hunt

open List

open Model (Event)
open Go (Library)
open Detect (Condition Predicate compileLeaf Means MeansAll MeansAny)

section
variable [Library]

/-! ## Expressions -/

/-- On the event `e`, the comparison means the same as the rule leaf it becomes. -/
def Comparison.Agrees (c : Comparison) (e : Event) : Prop :=
  ∃ p, compileLeaf c.field (ruleOps c.op) c.leafValue = .ok p ∧ p e = c.eval e

variable {e : Event} {q : SimpleQuery}

theorem Comparison.Agrees.means {c : Comparison} (h : c.Agrees e) :
    Means c.toCond e (c.eval e) := by
  obtain ⟨p, hp, hb⟩ := h
  exact ⟨p, Detect.compile_leaf hp, hb⟩

theorem flattenAnd_ne_nil (x : Expr) : x.flattenAnd ≠ [] := by
  induction x with
  | and l r ihl => simp [Expr.flattenAnd, ihl]
  | or | not | cmp => simp [Expr.flattenAnd]

theorem flattenOr_ne_nil (x : Expr) : x.flattenOr ≠ [] := by
  induction x with
  | and => simp [Expr.flattenOr]
  | or l r ihl => simp [Expr.flattenOr, ihl]
  | not | cmp => simp [Expr.flattenOr]

/-- The tree of an expression and both of its flattened lists mean the expression. -/
theorem expr_means (x : Expr) (h : ∀ c ∈ x.comparisons, c.Agrees e) :
    Means x.toCond e (x.eval e) ∧ MeansAll x.flattenAnd e (x.eval e) ∧
      MeansAny x.flattenOr e (x.eval e) := by
  induction x with
  | and l r ihl ihr =>
    obtain ⟨-, hl, -⟩ := ihl fun c hc => h c (mem_append_left _ hc)
    obtain ⟨-, hr, -⟩ := ihr fun c hc => h c (mem_append_right _ hc)
    -- a chain of `and`s is the `all` group of its operands, and one operand of an `or`
    have hall : MeansAll (l.flattenAnd ++ r.flattenAnd) e (l.eval e && r.eval e) := hl.append hr
    have hgroup := hall.allOf (append_ne_nil_of_left_ne_nil (flattenAnd_ne_nil l) _)
    exact ⟨hgroup, hall, hgroup.singletonAny⟩
  | or l r ihl ihr =>
    obtain ⟨-, -, hl⟩ := ihl fun c hc => h c (mem_append_left _ hc)
    obtain ⟨-, -, hr⟩ := ihr fun c hc => h c (mem_append_right _ hc)
    have hany : MeansAny (l.flattenOr ++ r.flattenOr) e (l.eval e || r.eval e) := hl.append hr
    have hgroup := hany.anyOf (append_ne_nil_of_left_ne_nil (flattenOr_ne_nil l) _)
    exact ⟨hgroup, hgroup.singletonAll, hany⟩
  | not x ih =>
    have hnot := (ih h).1.notOf
    exact ⟨hnot, hnot.singletonAll, hnot.singletonAny⟩
  | cmp c =>
    have hcmp := (h c (mem_singleton_self c)).means
    exact ⟨hcmp, hcmp.singletonAll, hcmp.singletonAny⟩

/-! ## Queries -/

theorem guard_means (he : e.action ≠ "") (cls : ClassRef) :
    MeansAll (if cls.all then [] else [.leaf "event.type" "eq" (.str cls.action)]) e
      (cls.matches e) := by
  unfold ClassRef.matches
  cases hall : cls.all with
  | true => exact ⟨[], .nil, rfl⟩
  | false =>
    refine Means.singletonAll ⟨_, Detect.compile_leaf (Detect.compileLeaf_event_type _), ?_⟩
    rw [Detect.equality_event_type he, Bool.false_or]

theorem exprs_mean (xs : List Expr) (h : ∀ x ∈ xs, ∀ c ∈ x.comparisons, c.Agrees e) :
    MeansAll (xs.map Expr.toCond) e (xs.all fun x => x.eval e) := by
  induction xs with
  | nil => exact ⟨[], .nil, rfl⟩
  | cons x xs ih =>
    have hx := (expr_means x (h x mem_cons_self)).1.singletonAll
    exact hx.append (ih fun y hy => h y (mem_cons_of_mem x hy))

theorem passes_iff (filter : Option Expr) (e : Event) :
    passes filter e = true ↔ ∀ x ∈ filter, x.eval e = true := by
  cases filter <;> simp [passes]

theorem filters_all (q : SimpleQuery) (e : Event) :
    ((q.filter.toList ++ q.pipes.filterMap Pipe.filter).all fun x => x.eval e) =
      (passes q.filter e && q.pipes.all fun p => passes p.filter e) := by
  rw [all_append, all_filterMap]
  congr 1
  cases q.filter <;> simp [passes]

theorem conds_mean (he : e.action ≠ "") (h : ∀ c ∈ q.comparisons, c.Agrees e) :
    MeansAll q.conds e (q.satisfies e) := by
  have hfilters := exprs_mean (q.filter.toList ++ q.pipes.filterMap Pipe.filter)
    fun x hx c hc => h c (mem_flatten.mpr ⟨_, mem_map_of_mem hx, hc⟩)
  rw [filters_all] at hfilters
  have hconds := (guard_means he q.cls).append hfilters
  rwa [← Bool.and_assoc] at hconds

theorem matchTree_means (he : e.action ≠ "") (h : ∀ c ∈ q.comparisons, c.Agrees e) :
    Means q.matchTree e (q.satisfies e) := by
  have hconds := conds_mean he h
  unfold SimpleQuery.matchTree
  split
  · -- no condition: the tree asks for an action, which the event has
    next hnil =>
    rw [hnil] at hconds
    obtain ⟨ps, hps, hb⟩ := hconds
    cases hps
    refine ⟨_, Detect.compile_leaf (Detect.compileLeaf_event_action_exists _), ?_⟩
    rw [Model.field_event_action_isSome he, ← hb]
    rfl
  · next c hone =>
    rw [hone] at hconds
    obtain ⟨ps, hps, hb⟩ := hconds
    cases hps with
    | cons hp hnil =>
      cases hnil
      exact ⟨_, hp, by simpa using hb⟩
  · next hnil hone =>
    exact hconds.allOf hnil

/-- The rule `ToRule` writes for a simple query compiles, and fires on an event exactly when
the event is of the query's class and passes its `where` and every piped `where`. -/
theorem toRule_compiles_to_query (q : SimpleQuery) (info : RuleMeta) (doc : Detect.RuleDoc)
    (hdoc : toRule (.simple q) info = .ok doc) (e : Event) (he : e.action ≠ "")
    (hleaf : ∀ c ∈ q.comparisons, c.Agrees e) :
    ∃ condition p, doc.condition = some condition ∧ condition.compile = .ok p ∧
      (p e = true ↔ q.cls.matches e = true ∧ (∀ x ∈ q.filter, x.eval e = true) ∧
        ∀ pipe ∈ q.pipes, ∀ x ∈ pipe.filter, x.eval e = true) := by
  obtain ⟨p, hp, hb⟩ := matchTree_means he hleaf
  have hcond : doc.condition = some q.matchTree := by
    unfold toRule at hdoc
    dsimp only at hdoc
    split_ifs at hdoc
    cases hdoc
    rfl
  refine ⟨q.matchTree, p, hcond, hp, ?_⟩
  rw [hb]
  simp only [SimpleQuery.satisfies, Bool.and_eq_true, all_eq_true, passes_iff, and_assoc]

theorem filterEvents_eq (events : List Event) (filter : Option Expr) :
    filterEvents events filter = events.filter (passes filter) := by
  cases filter with
  | none => exact (filter_eq_self.mpr fun _ _ => rfl).symm
  | some => rfl

end

/-- `exec where process.name == "bash" or process.ppid > 1 | where not user.id == 0`, over the
plain library. -/
def shellQuery : @SimpleQuery .plain :=
  letI : Library := .plain
  let name : Comparison := { field := "process.name", op := .eq, value := .text "bash" }
  let parent : Comparison := { field := "process.ppid", op := .gt, value := .number "1" (1 : ℤ) }
  let root : Comparison := { field := "user.id", op := .eq, value := .number "0" (0 : ℤ) }
  { cls := { action := "exec" }
    filter := some (.or (.cmp name) (.cmp parent))
    pipes := [{ filter := some (.not (.cmp root)) }] }

theorem toRule_shellQuery :
    letI : Library := .plain
    ∃ (condition : Condition) (p : Predicate), condition.compile = .ok p ∧
      p { action := "exec", process := { name := "bash" }, user := { id := 1000 } } = true := by
  let _ : Library := .plain
  obtain ⟨condition, p, -, hp, hiff⟩ := toRule_compiles_to_query shellQuery
    { id := "R-1", name := "shell", severity := "low" } _ rfl
    { action := "exec", process := { name := "bash" }, user := { id := 1000 } } (by decide)
    (by
      intro c hc
      rcases hc with _ | ⟨_, _ | ⟨_, _ | ⟨_, ⟨⟩⟩⟩⟩ <;> exact ⟨_, rfl, by decide⟩)
  refine ⟨condition, p, hp, hiff.mpr ⟨by decide, ?_, ?_⟩⟩
  · rintro x ⟨⟩
    decide
  · rintro pipe (_ | ⟨_, ⟨⟩⟩) x ⟨⟩
    decide

end ArgusEdr.Hunt
