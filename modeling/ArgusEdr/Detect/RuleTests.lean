import ArgusEdr.Detect.Rule
import ArgusEdr.Lib.Fallible

/-!
# Rule tests (`internal/detect/test_harness.go`)

A rule test names a rule, events and whether the rule has to fire on one of them. A run counts the
failures of no-fire tests as false positives, all others as false negatives. Whether they are is decided
by whether the rule fired (`criesWolf`, `blind`), and a test of an unknown rule fails without one.

How an event is decoded from its specification is left open.
-/

namespace ArgusEdr.Detect

open List

open Model (Event)
open Go (Library)

def expectFire := "fire"
def expectNoFire := "no-fire"

structure RuleTest (Spec : Type) where
  name : String := ""
  rule : String
  expect : String
  event : Option Spec := none
  events : List Spec := []

structure RuleTestResult where
  name : String
  rule : String
  expect : String
  fired : Bool := false
  pass : Bool := false
  /-- why it failed -/
  reason : String := ""
deriving DecidableEq

structure TestReport where
  results : List RuleTestResult := []
  total : ℕ := 0
  passed : ℕ := 0
  falsePositives : ℕ := 0
  falseNegatives : ℕ := 0
  testedRules : List String := []
deriving DecidableEq

def TestReport.failed (r : TestReport) : ℕ := r.total - r.passed

variable {Spec : Type} {test : RuleTest Spec}

def RuleTest.eventSpecs (t : RuleTest Spec) : List Spec := t.event.toList ++ t.events

def RuleTest.validate (t : RuleTest Spec) : Except Go.Error Unit :=
  if t.rule = "" then .error (.errorf "missing rule id" [])
  else if t.expect ≠ expectFire ∧ t.expect ≠ expectNoFire then
    .error (.errorf "expect must be %q or %q, got %q" [expectFire, expectNoFire, t.expect])
  else if t.eventSpecs.isEmpty then .error (.errorf "test %q has no event" [t.name])
  else .ok ()

theorem RuleTest.expect_of_validate (h : test.validate = .ok ()) :
    test.expect = expectFire ∨ test.expect = expectNoFire := by
  unfold RuleTest.validate at h
  split_ifs at h with _ hexpect
  tauto

theorem expectFire_ne : expectFire ≠ expectNoFire := by decide

theorem expectNoFire_beq : (expectNoFire == expectFire) = false := by decide

def firedWord (fired : Bool) : String := if fired then "fired" else "did not fire"

section

variable [Library] (specToEvent : Spec → Except Go.Error Event)

/-- The map `byID`: the last rule with an id is the one that is tested. -/
def ruleByID (rules : List Rule) (id : String) : Option Rule :=
  rules.reverse.find? fun rule => rule.id = id

/-- The loop of `evaluateTest`, which stops at the first event the rule fires on. -/
def firesOn (rule : Rule) : List Spec → Except Go.Error Bool
  | [] => .ok false
  | spec :: specs => do
    let event ← specToEvent spec
    if rule.matches event then pure true else firesOn rule specs

def evaluateTest (rules : List Rule) (test : RuleTest Spec) : Except Go.Error RuleTestResult :=
  let result : RuleTestResult := { name := test.name, rule := test.rule, expect := test.expect }
  match ruleByID rules test.rule with
  | none => .ok { result with reason := "unknown rule id" }
  | some rule => do
    let fired ← (firesOn specToEvent rule test.eventSpecs).mapError (.wrapf "test %q: %w" [test.name])
    let pass := fired == (test.expect == expectFire)
    pure { result with
      fired, pass
      reason := if pass then "" else "expected " ++ test.expect ++ ", rule " ++ firedWord fired }

def TestReport.add (r : TestReport) (test : RuleTest Spec) (result : RuleTestResult) : TestReport where
  results := r.results ++ [result]
  total := r.total + 1
  passed := if result.pass then r.passed + 1 else r.passed
  falsePositives :=
    if !result.pass && test.expect = expectNoFire then r.falsePositives + 1 else r.falsePositives
  falseNegatives :=
    if !result.pass && test.expect ≠ expectNoFire then r.falseNegatives + 1 else r.falseNegatives
  testedRules := r.testedRules.insert test.rule

def runRuleTests (rules : List Rule) (tests : List (RuleTest Spec)) : Except Go.Error TestReport :=
  tests.foldlM (fun report test => do
    let result ← evaluateTest specToEvent rules test
    pure (report.add test result)) {}

/-! ## What the counts count -/

/-- A no-fire case that fired. -/
def RuleTestResult.criesWolf (r : RuleTestResult) : Bool := r.expect = expectNoFire && r.fired

/-- A fire case that did not fire. -/
def RuleTestResult.blind (r : RuleTestResult) : Bool := r.expect = expectFire && !r.fired

def RuleTest.unknown (rules : List Rule) (t : RuleTest Spec) : Bool :=
  rules.all fun rule => rule.id ≠ t.rule

variable {specToEvent} {rules : List Rule} {tests : List (RuleTest Spec)} {result : RuleTestResult}
  {report : TestReport}

theorem ruleByID_eq_none_iff : ruleByID rules test.rule = none ↔ test.unknown rules = true := by
  simp [ruleByID, RuleTest.unknown]

structure Evaluated (rules : List Rule) (test : RuleTest Spec) (result : RuleTestResult) : Prop where
  expect : result.expect = expectFire ∨ result.expect = expectNoFire
  noFire : test.expect = expectNoFire ↔ result.expect = expectNoFire
  unknown : test.unknown rules = true → result.fired = false ∧ result.pass = false
  known : test.unknown rules = false → result.pass = (result.fired == (result.expect == expectFire))

theorem evaluated_of_evaluateTest (hvalid : test.validate = .ok ())
    (h : evaluateTest specToEvent rules test = .ok result) : Evaluated rules test result := by
  have hexpect := test.expect_of_validate hvalid
  unfold evaluateTest at h
  cases hrule : ruleByID rules test.rule with
  | none =>
    have hunknown := ruleByID_eq_none_iff.mp hrule
    rw [hrule] at h
    cases h
    exact ⟨hexpect, Iff.rfl, fun _ => ⟨rfl, rfl⟩, fun hknown => by simp [hunknown] at hknown⟩
  | some =>
    have hknown : test.unknown rules ≠ true := by simp [← ruleByID_eq_none_iff, hrule]
    rw [hrule] at h
    obtain ⟨fired, -, hresult⟩ := Fallible.bind_eq_ok.mp h
    cases hresult
    exact ⟨hexpect, Iff.rfl, fun hunknown => absurd hunknown hknown, fun _ => rfl⟩

theorem Evaluated.falsePositive_iff (h : Evaluated rules test result) :
    (result.pass = false ∧ test.expect = expectNoFire) ↔
      result.criesWolf = true ∨ test.expect = expectNoFire ∧ test.unknown rules = true := by
  rw [h.noFire, RuleTestResult.criesWolf]
  cases hunknown : test.unknown rules with
  | true => simp [h.unknown hunknown]
  | false =>
    rw [h.known hunknown]
    obtain hexpect | hexpect := h.expect <;> simp [hexpect, expectFire_ne, expectNoFire_beq]

theorem Evaluated.falseNegative_iff (h : Evaluated rules test result) :
    (result.pass = false ∧ test.expect ≠ expectNoFire) ↔ result.blind = true := by
  rw [ne_eq, h.noFire, RuleTestResult.blind]
  cases hunknown : test.unknown rules with
  | true =>
    obtain hexpect | hexpect := h.expect <;>
      simp [h.unknown hunknown, hexpect, expectFire_ne, expectFire_ne.symm]
  | false =>
    rw [h.known hunknown]
    obtain hexpect | hexpect := h.expect <;> simp [hexpect, expectFire_ne, expectFire_ne.symm]

theorem Evaluated.unknown_of_criesWolf (h : Evaluated rules test result)
    (hwolf : result.criesWolf = true) : test.unknown rules = false := by
  rw [← Bool.not_eq_true]
  intro hunknown
  simp [RuleTestResult.criesWolf, h.unknown hunknown] at hwolf

structure Counted (rules : List Rule) (tests : List (RuleTest Spec)) (report : TestReport) : Prop where
  evaluated : List.Forall₂ (Evaluated rules) tests report.results
  total : report.total = report.passed + (report.falsePositives + report.falseNegatives)
  falsePositives : report.falsePositives = report.results.countP RuleTestResult.criesWolf +
    tests.countP fun t => t.expect = expectNoFire && t.unknown rules
  falseNegatives : report.falseNegatives = report.results.countP RuleTestResult.blind

theorem Counted.add (h : Counted rules tests report) (heval : Evaluated rules test result) :
    Counted rules (tests ++ [test]) (report.add test result) where
  evaluated := rel_append h.evaluated (.cons heval .nil)
  total := by
    have htotal := h.total
    simp only [TestReport.add]
    cases result.pass <;> by_cases hexpect : test.expect = expectNoFire <;> simp [hexpect] <;> omega
  falsePositives := by
    have hiff := heval.falsePositive_iff
    have hwolf := heval.unknown_of_criesWolf
    simp only [TestReport.add, countP_append, countP_singleton, h.falsePositives,
      Bool.and_eq_true, Bool.not_eq_true', decide_eq_true_eq, hiff]
    split_ifs <;> simp_all <;> omega
  falseNegatives := by
    simp only [TestReport.add, countP_append, countP_singleton, h.falseNegatives,
      Bool.and_eq_true, Bool.not_eq_true', decide_eq_true_eq, heval.falseNegative_iff]
    split_ifs <;> rfl

theorem counted_foldlM {done : List (RuleTest Spec)} {start : TestReport}
    (hvalid : ∀ t ∈ tests, t.validate = .ok ()) (hstart : Counted rules done start)
    (h : tests.foldlM (fun report test => do
      let result ← evaluateTest specToEvent rules test
      pure (report.add test result)) start = .ok report) : Counted rules (done ++ tests) report := by
  induction tests generalizing done start with
  | nil =>
    cases h
    rwa [append_nil]
  | cons test tests ih =>
    rw [foldlM_cons] at h
    obtain ⟨next, hnext, hrest⟩ := Fallible.bind_eq_ok.mp h
    obtain ⟨result, hresult, hadd⟩ := Fallible.bind_eq_ok.mp hnext
    cases hadd
    obtain ⟨htest, htests⟩ := forall_mem_cons.mp hvalid
    rw [append_cons]
    exact ih htests (hstart.add (evaluated_of_evaluateTest htest hresult)) hrest

theorem counted_runRuleTests (hvalid : ∀ t ∈ tests, t.validate = .ok ())
    (h : runRuleTests specToEvent rules tests = .ok report) : Counted rules tests report :=
  counted_foldlM hvalid (⟨.nil, rfl, rfl, rfl⟩ : Counted rules [] {}) h

/-- What a successful run of valid tests counts. The false positives are the no-fire results that
fired and, beside them, the no-fire tests of unknown rules, which fire nothing; the false negatives
are the fire results that did not fire, and there are no other failures. So the counts are those of
the results, and the tests of unknown rules the remaining failures, exactly if there is no test of
an unknown rule. -/
theorem runRuleTests_counts (hvalid : ∀ t ∈ tests, t.validate = .ok ())
    (h : runRuleTests specToEvent rules tests = .ok report) :
    report.falsePositives = report.results.countP RuleTestResult.criesWolf +
      tests.countP (fun t => t.expect = expectNoFire && t.unknown rules) ∧
    report.falseNegatives = report.results.countP RuleTestResult.blind ∧
    report.failed = report.falsePositives + report.falseNegatives ∧
    ((report.falsePositives = report.results.countP RuleTestResult.criesWolf ∧
      report.falseNegatives = report.results.countP RuleTestResult.blind ∧
      List.Forall₂ (fun t r => t.unknown rules = true ↔
        r.pass = false ∧ r.criesWolf = false ∧ r.blind = false) tests report.results) ↔
      ∀ t ∈ tests, t.unknown rules = false) := by
  have hcounted := counted_runRuleTests hvalid h
  refine ⟨hcounted.falsePositives, hcounted.falseNegatives, ?_, ?_⟩
  · rw [TestReport.failed, hcounted.total, Nat.add_sub_cancel_left]
  have hzero : tests.countP (fun t => t.expect = expectNoFire && t.unknown rules) = 0 ↔
      ∀ t ∈ tests, t.expect = expectNoFire → t.unknown rules = false := by
    simp [countP_eq_zero]
  rw [hcounted.falsePositives, Nat.add_eq_left, hzero, and_iff_right hcounted.falseNegatives]
  obtain ⟨hlength, heval⟩ := forall₂_iff_zip.mp hcounted.evaluated
  constructor
  · rintro ⟨hnoFire, hremaining⟩ t ht
    rw [← Bool.not_eq_true]
    intro hunknown
    obtain ⟨r, -, hmem⟩ := Fallible.exists_mem_of_forall₂
      (forall₂_iff_zip.mpr ⟨hlength, fun hmem => hmem⟩) ht
    have hr := heval hmem
    have hiff := (forall₂_iff_zip.mp hremaining).2 hmem
    have hexpect : t.expect ≠ expectNoFire := fun hexpect => by
      simp [hnoFire t ht hexpect] at hunknown
    have hblind := hr.falseNegative_iff.mp ⟨(hr.unknown hunknown).2, hexpect⟩
    simp [(hiff.mp hunknown).2.2] at hblind
  · intro hknown
    refine ⟨fun t ht _ => hknown t ht, forall₂_iff_zip.mpr ⟨hlength, fun {t r} hmem => ?_⟩⟩
    have hr := heval hmem
    have ht := hknown t (of_mem_zip hmem).1
    have hwolf := hr.falsePositive_iff
    have hblind := hr.falseNegative_iff
    simp only [ht] at hwolf ⊢
    by_cases hexpect : t.expect = expectNoFire <;> simp_all

end

/-- A run with a rule that fires on everything and one test of it. -/
theorem runRuleTests_counts_of_wolf :
    letI : Library := .plain
    ∃ (rules : List Rule) (report : TestReport),
      runRuleTests (fun _ : Unit => .ok {})
        rules [{ rule := "R1", expect := expectNoFire, event := some () }] = .ok report ∧
      report.falsePositives = report.results.countP RuleTestResult.criesWolf ∧
      report.falsePositives = 1 := by
  let _ : Library := .plain
  let rule : Rule :=
    { id := "R1", name := "", description := "", severity := .low, technique := {}, enabled := true
      riskScore := 0, response := "", condition := .leaf "" "" .null, predicate := fun _ => true }
  let test : RuleTest Unit := { rule := "R1", expect := expectNoFire, event := some () }
  have hvalid : ∀ t ∈ [test], t.validate = .ok () := by decide
  have hknown : ∀ t ∈ [test], t.unknown [rule] = false := by decide
  obtain ⟨report, hrun⟩ : ∃ report, runRuleTests (fun _ => .ok {}) [rule] [test] = .ok report := ⟨_, rfl⟩
  refine ⟨[rule], report, hrun, ((runRuleTests_counts hvalid hrun).2.2.2.mpr hknown).1, ?_⟩
  cases hrun
  rfl

/-- A no-fire test of an unknown rule is counted as a false positive, though nothing fired. -/
theorem runRuleTests_unknown :
    letI : Library := .plain
    ∃ test : RuleTest Unit, test.validate = .ok () ∧ test.unknown [] = true ∧
      ∃ report, runRuleTests (fun _ => .ok {}) [] [test] = .ok report ∧
        report.falsePositives = 1 ∧ report.results.countP RuleTestResult.criesWolf = 0 ∧
        report.failed = report.falsePositives + report.falseNegatives := by
  let _ : Library := .plain
  exact ⟨{ rule := "R1", expect := expectNoFire, event := some () }, by decide, rfl, _, rfl, rfl,
    by decide, rfl⟩

end ArgusEdr.Detect
