import ArgusEdr.Server.Soar
import ArgusEdr.Server.StoreTheorems

/-!
# What a playbook step can do

To the queues (`queue_executeStep`), in a dry-run, and without a target.
-/

namespace ArgusEdr.Soar

open Go (Unicode Formatted)

variable (u : Unicode) (deps : Deps) (env : Env)

@[simp] theorem record_store (p : Platform) (run : RunRecord) :
    (p.record run).store = p.store := by
  simp only [Platform.record]

/-! ## Dry-runs -/

theorem executeStep_dryRun (p : Platform) (step : Step) (alert : AlertInfo) :
    (executeStep u deps env p step alert true).1 = p := by
  unfold executeStep
  by_cases h : step.type = stepRunHunt
  · -- the one step that runs reads the event lake only
    rw [if_neg (by simp [readOnly, h]), if_neg (by rw [h]; decide), if_neg (by rw [h]; decide),
      if_pos h]
  · rw [if_pos (by simp [readOnly, h])]

theorem runSteps_dryRun (alert : AlertInfo) (p : Platform) (steps : List Step) :
    (runSteps u deps env alert true p steps).1 = p := by
  induction steps generalizing p with
  | nil => rfl
  | cons step steps ih =>
    simp only [runSteps]
    rw [ih, executeStep_dryRun]

theorem test_ok {p p' : Platform} {playbookID : String} {alert : AlertInfo} {run : RunRecord}
    (h : test u deps env p playbookID alert = .ok (p', run)) : p' = p.record run := by
  unfold test at h
  cases hget : p.playbooks.get playbookID with
  | none =>
    rw [hget] at h
    cases h
  | some playbook =>
    rw [hget] at h
    have hdry := runSteps_dryRun u deps env alert p playbook.steps
    simp only [isDryRun, Bool.true_or, Except.ok.injEq, Prod.mk.injEq] at h
    rw [← h.1, ← h.2, hdry]

/-! ## Commands -/

theorem doNotify_store (p : Platform) (alert : AlertInfo) :
    (doNotify deps env p alert).1.store = p.store := by
  unfold doNotify
  split
  · rfl
  · dsimp only
    split <;> rfl

theorem doOpenCase_store (p : Platform) (alert : AlertInfo) :
    (doOpenCase u deps env p alert).1.store = p.store := by
  unfold doOpenCase
  by_cases hcases : deps.cases = true
  · rw [if_neg (not_not_intro hcases)]
    dsimp only
    split <;> rfl
  · rw [if_pos hcases]

theorem doCommand_store (p : Platform) (agentID kind argument : String) (detail : Formatted) :
    (doCommand deps p agentID kind argument detail).1.store = p.store ∨
      (argument ≠ "" ∧ (doCommand deps p agentID kind argument detail).1.store =
        (p.store.enqueueCommand agentID (.mk kind argument)).1) := by
  unfold doCommand
  dsimp only
  by_cases hcommander : deps.commander = true
  · rw [if_neg (not_not_intro hcommander)]
    by_cases hargument : argument = ""
    · rw [if_pos hargument]
      exact Or.inl rfl
    · rw [if_neg hargument]
      refine Or.inr ⟨hargument, ?_⟩
      -- the answer, whether the agent is known, only goes into the outcome
      split <;> next henqueue => rw [henqueue]
  · rw [if_pos hcommander]
    exact Or.inl rfl

theorem queue_doCommand (p : Platform) (agentID kind argument k : String) (detail : Formatted) :
    (doCommand deps p agentID kind argument detail).1.store.queue k = p.store.queue k ∨
      (argument ≠ "" ∧ agentID = k ∧
        (doCommand deps p agentID kind argument detail).1.store.queue k =
          p.store.queue k ++ [.mk kind argument]) := by
  rcases doCommand_store deps p agentID kind argument detail with h | ⟨hargument, h⟩
  · exact Or.inl (by rw [h])
  · rw [h, Store.queue_enqueueCommand]
    split_ifs with hk
    · exact Or.inr ⟨hargument, hk.1, rfl⟩
    · exact Or.inl rfl

/-- A step that puts a command into a queue enforces, and asks the alert's agent to kill its
process or to block its destination. -/
theorem queue_executeStep (p : Platform) (step : Step) (alert : AlertInfo) (dryRun : Bool)
    (k : String) :
    (executeStep u deps env p step alert dryRun).1.store.queue k = p.store.queue k ∨
      (dryRun = false ∧ alert.agentID = k ∧
        ((step.type = stepKill ∧
            (executeStep u deps env p step alert dryRun).1.store.queue k = p.store.queue k ++
              [{ kind := "KILL_PROCESS", argument := Go.formatUint alert.pid.toNat }]) ∨
          (step.type = stepQuarantine ∧ alert.destinationIP ≠ "" ∧
            (executeStep u deps env p step alert dryRun).1.store.queue k = p.store.queue k ++
              [{ kind := "QUARANTINE", argument := alert.destinationIP }]))) := by
  cases dryRun with
  | true => exact Or.inl (by rw [executeStep_dryRun])
  | false =>
    unfold executeStep
    rw [if_neg (by simp)]
    split_ifs with hnotify hcase hhunt hkill hquarantine
    · exact Or.inl (by rw [doNotify_store])
    · exact Or.inl (by rw [doOpenCase_store])
    · exact Or.inl rfl
    · rcases queue_doCommand deps p alert.agentID "KILL_PROCESS" (Go.formatUint alert.pid.toNat) k
        { format := "kill pid %s", args := [Go.formatUint alert.pid.toNat] } with
        hold | ⟨-, hagent, hnew⟩
      · exact Or.inl hold
      · exact Or.inr ⟨rfl, hagent, Or.inl ⟨hkill, hnew⟩⟩
    · rcases queue_doCommand deps p alert.agentID "QUARANTINE" alert.destinationIP k
        { format := "quarantine %s", args := [alert.destinationIP] } with
        hold | ⟨htarget, hagent, hnew⟩
      · exact Or.inl hold
      · exact Or.inr ⟨rfl, hagent, Or.inr ⟨hquarantine, htarget, hnew⟩⟩
    · exact Or.inl rfl

/-! ## Steps without a target -/

def missingTarget : Go.Error := .errorf "missing target (no pid or destination on the alert)" []

/-- The step asks for something the alert does not name. -/
def LacksTarget (alert : AlertInfo) (step : Step) : Prop :=
  (step.type = stepKill ∧ alert.pid = 0) ∨ (step.type = stepQuarantine ∧ alert.destinationIP = "")

/-- What a step left the platform and its outcome as: no command was queued, and the target is
reported missing. -/
def ReportsMissing (p : Platform) (result : Platform × StepOutcome) : Prop :=
  (∀ agentID, result.1.store.queue agentID = p.store.queue agentID) ∧
    result.2.error = some missingTarget

theorem executeStep_kill (p : Platform) {step : Step} (h : step.type = stepKill)
    (alert : AlertInfo) :
    executeStep u deps env p step alert false =
      doCommand deps p alert.agentID "KILL_PROCESS" (Go.formatUint alert.pid.toNat)
        { format := "kill pid %s", args := [Go.formatUint alert.pid.toNat] } := by
  unfold executeStep
  rw [h, if_neg (by simp), if_neg (by decide), if_neg (by decide), if_neg (by decide), if_pos rfl]

theorem executeStep_quarantine (p : Platform) {step : Step} (h : step.type = stepQuarantine)
    (alert : AlertInfo) :
    executeStep u deps env p step alert false =
      doCommand deps p alert.agentID "QUARANTINE" alert.destinationIP
        { format := "quarantine %s", args := [alert.destinationIP] } := by
  unfold executeStep
  rw [h, if_neg (by simp), if_neg (by decide), if_neg (by decide), if_neg (by decide),
    if_neg (by decide), if_pos rfl]

theorem doCommand_error_eq_missingTarget_iff (p : Platform) (agentID kind argument : String)
    (detail : Formatted) :
    (doCommand deps p agentID kind argument detail).2.error = some missingTarget ↔
      deps.commander = true ∧ argument = "" := by
  unfold doCommand
  dsimp only
  by_cases hcommander : deps.commander = true
  · rw [if_neg (not_not_intro hcommander)]
    by_cases hargument : argument = ""
    · simp [hargument, hcommander, missingTarget]
    · rw [if_neg hargument]
      split <;> simp [hargument, missingTarget]
  · rw [if_pos hcommander]
    simp [hcommander]

theorem formatUint_ne_empty (n : ℕ) : Go.formatUint n ≠ "" := by
  intro h
  have hdigits := congrArg String.toList h
  rw [Go.toList_formatUint] at hdigits
  exact Nat.toDigits_ne_nil hdigits

/-- In a playbook that enforces, the steps without a target all queue nothing and report it if and
only if there is no kill step for an alert without a process and, where no commander is configured,
no quarantine step for an alert without a destination. -/
theorem missing_target_reported_iff (alert : AlertInfo) (playbook : Playbook)
    (hmode : playbook.mode = modeEnforce) :
    (∀ (p : Platform) (env : Env), ∀ step ∈ playbook.steps, LacksTarget alert step →
      ReportsMissing p (executeStep u deps env p step alert (isDryRun playbook false))) ↔
    (alert.pid = 0 → ∀ step ∈ playbook.steps, step.type ≠ stepKill) ∧
      (alert.destinationIP = "" → deps.commander = false →
        ∀ step ∈ playbook.steps, step.type ≠ stepQuarantine) := by
  have hdry : isDryRun playbook false = false := by simp [isDryRun, hmode]
  rw [hdry]
  constructor
  · intro h
    -- any state of the platform shows it
    let p : Platform := { store := .new .memory }
    constructor
    · intro hpid step hstep hkill
      have hmissing := (h p {} step hstep (.inl ⟨hkill, hpid⟩)).2
      rw [executeStep_kill u deps {} p hkill, doCommand_error_eq_missingTarget_iff] at hmissing
      exact formatUint_ne_empty _ hmissing.2
    · intro hdest hcommander step hstep hquarantine
      have hmissing := (h p {} step hstep (.inr ⟨hquarantine, hdest⟩)).2
      rw [executeStep_quarantine u deps {} p hquarantine, doCommand_error_eq_missingTarget_iff,
        hcommander] at hmissing
      exact absurd hmissing.1 (by decide)
  · rintro ⟨hkill, hquarantine⟩ p env step hstep (⟨htype, hpid⟩ | ⟨htype, hdest⟩)
    · exact absurd htype (hkill hpid step hstep)
    · have hcommander : deps.commander = true := by
        by_contra hnone
        exact hquarantine hdest (Bool.eq_false_of_not_eq_true hnone) step hstep htype
      rw [executeStep_quarantine u deps env p htype]
      refine ⟨fun agentID => ?_, ?_⟩
      · rcases queue_doCommand deps p alert.agentID "QUARANTINE" alert.destinationIP agentID
          { format := "quarantine %s", args := [alert.destinationIP] } with hold | ⟨hne, -, -⟩
        · exact hold
        · exact absurd hdest hne
      · exact (doCommand_error_eq_missingTarget_iff ..).mpr ⟨hcommander, hdest⟩

/-- A playbook that blocks destinations, for an alert with neither a process nor a destination. -/
theorem missing_target_reported_quarantine :
    let playbook : Playbook :=
      { name := "isolate", mode := modeEnforce, steps := [{ type := stepQuarantine }] }
    playbook.mode = modeEnforce ∧ ∀ (p : Platform) (env : Env), ∀ step ∈ playbook.steps,
      LacksTarget {} step → ReportsMissing p
        (executeStep .ascii {} env p step {} (isDryRun playbook false)) :=
  ⟨rfl, (missing_target_reported_iff .ascii {} {} _ rfl).mpr (by decide)⟩

def onePlatform : Platform where
  store := (Store.new .memory).enroll (Store.newAgent "A" 0 "web-01" "" "" "")

/-- A kill step for an alert without a process asks the agent to kill process 0. -/
theorem kill_of_pid_zero_queued :
    let alert : AlertInfo := { agentID := "A" }
    let result := executeStep .ascii {} {} onePlatform { type := stepKill } alert false
    alert.pid = 0 ∧ onePlatform.store.queue "A" = [] ∧
      result.1.store.queue "A" = [{ kind := "KILL_PROCESS", argument := "0" }] ∧
      result.2 = { type := stepKill, executed := true,
                   detail := { format := "kill pid %s", args := ["0"] } } := by
  decide +kernel

end ArgusEdr.Soar
