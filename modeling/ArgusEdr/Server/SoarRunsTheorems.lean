import ArgusEdr.Server.SoarRuns
import ArgusEdr.Server.SoarTheorems

/-!
# What playbooks may cause

A step changes the platform by the call it issues, and by nothing else (`executeStep_perform`).
`traced_run` says where every `Observe` in progress has come from: the alert it was started for, the
moment it found the engine enabled, and the moment each playbook it still works on was stored. So
whatever the engine does to the outside is the doing of an `Observe` that began while the engine was
enabled, for a step of a stored playbook that enforces and matches: `playbook_calls_authorised`.
-/

namespace ArgusEdr.Soar

open List

open Platform (record)
open Go (Unicode Formatted)
open Runs

variable (u : Unicode) (deps : Deps) (env : Env)

/-! ## One step -/

theorem doNotify_perform (p : Platform) (alert : AlertInfo) :
    (doNotify deps env p alert).1 =
      (notified deps alert).toList.foldl (perform u env) p := by
  unfold doNotify notified
  cases deps.notifier with
  | none => rfl
  | some => cases env.notify <;> rfl

theorem doOpenCase_perform (p : Platform) (alert : AlertInfo) :
    (doOpenCase u deps env p alert).1 =
      (opened deps alert).toList.foldl (perform u env) p := by
  unfold doOpenCase opened
  by_cases hcases : deps.cases = true
  · rw [if_neg (not_not_intro hcases), if_pos hcases, Option.toList_some, foldl_cons,
      foldl_nil]
    simp only [perform, caseOf]
    split <;> simp_all
  · rw [if_pos hcases, if_neg hcases]
    rfl

theorem doCommand_perform (p : Platform) (agentID kind argument : String) (detail : Formatted) :
    (doCommand deps p agentID kind argument detail).1 =
      (commanded deps agentID kind argument).toList.foldl (perform u env) p := by
  unfold doCommand commanded
  dsimp only
  by_cases hcommander : deps.commander = true
  · by_cases hargument : argument = ""
    · rw [if_neg (not_not_intro hcommander), if_pos hargument, if_neg fun h => h.2 hargument]
      rfl
    · rw [if_neg (not_not_intro hcommander), if_neg hargument, if_pos ⟨hcommander, hargument⟩]
      rw [Option.toList_some, foldl_cons, foldl_nil]
      simp only [perform]
      split <;> next henqueue => rw [henqueue]
  · rw [if_pos hcommander, if_neg fun h => hcommander h.1]
    rfl

theorem executeStep_perform (p : Platform) (step : Step) (alert : AlertInfo) (dryRun : Bool) :
    (executeStep u deps env p step alert dryRun).1 =
      (issued deps step alert dryRun).toList.foldl (perform u env) p := by
  unfold executeStep issued
  split_ifs
  · rfl
  · exact doNotify_perform u deps env p alert
  · exact doOpenCase_perform u deps env p alert
  · rfl
  · exact doCommand_perform u deps env p _ _ _ _
  · exact doCommand_perform u deps env p _ _ _ _
  · rfl

theorem issued_dryRun (step : Step) (alert : AlertInfo) : issued deps step alert true = none := by
  unfold issued
  by_cases h : step.type = stepRunHunt
  · -- the one step that runs reads the event lake only
    rw [if_neg (by simp [readOnly, h]), if_neg (by rw [h]; decide), if_neg (by rw [h]; decide),
      if_pos h]
  · rw [if_pos (by simp [readOnly, h])]

variable {step : Step} {alert : AlertInfo} {all : List RunRecord} {w : Engine} {o : Observer}
  {call : Call}

theorem agentID_of_issued {dryRun : Bool} {agentID : String} {cmd : Store.Command}
    (h : issued deps step alert dryRun = some (.enqueue agentID cmd)) :
    agentID = alert.agentID := by
  have hcommanded : ∀ kind argument,
      commanded deps alert.agentID kind argument = some (.enqueue agentID cmd) →
        agentID = alert.agentID := by
    intro kind argument hc
    unfold commanded at hc
    split_ifs at hc
    cases hc
    rfl
  unfold issued at h
  split_ifs at h
  · obtain ⟨name, -, hname⟩ := Option.map_eq_some_iff.mp h
    cases hname
  · unfold opened at h
    split_ifs at h
    cases h
  all_goals exact hcommanded _ _ h

/-! ## What an event does to the platform -/

theorem record_outside (p : Platform) (run : RunRecord) : (p.record run).outside = p.outside := by
  simp only [record, Platform.outside]

theorem perform_runs (p : Platform) (call : Call) : (perform u env p call).runs = p.runs := by
  cases call with
  | notify => rfl
  | openCase =>
    simp only [perform]
    split <;> rfl
  | enqueue => rfl

theorem advance_platform (p : Platform) (o : Observer) :
    (advance u deps env p o).1 =
      o.finished.toList.foldl record ((o.call deps).toList.foldl (perform u env) p) := by
  cases o with
  | checking | listing => rfl
  | choosing alert todo =>
    cases todo with
    | nil => rfl
    | cons =>
      simp only [advance]
      split <;> rfl
  | running alert playbook steps run todo =>
    cases steps with
    | nil => rfl
    | cons step steps => exact executeStep_perform u deps env p step alert _
  | done => rfl

theorem step_advance (w : Engine) (n : ℕ) :
    (w.step u deps (.advance n env)).platform =
      (w.recorded u deps (.advance n env)).foldl record
        ((w.calls deps (.advance n env)).foldl (perform u env) w.platform) := by
  simp only [Engine.step, Engine.recorded, Engine.calls, Pool.advanceAt]
  cases w.observers[n]? with
  | none => rfl
  | some o => exact advance_platform u deps env w.platform o

theorem step_test (w : Engine) (playbookID : String) (alert : AlertInfo) :
    (w.step u deps (.test playbookID alert env)).platform =
      (w.recorded u deps (.test playbookID alert env)).foldl record w.platform := by
  simp only [Engine.step, Engine.recorded]
  cases htest : test u deps env w.platform playbookID alert with
  | error => rfl
  | ok => exact test_ok u deps env htest

theorem calls_test (w : Engine) (playbookID : String) (alert : AlertInfo) :
    w.calls deps (.test playbookID alert env) = [] := by
  simp only [Engine.calls, isDryRun, Bool.true_or, issued_dryRun]
  split
  · rfl
  · simp

theorem foldl_record_outside (runs : List RunRecord) (p : Platform) :
    (runs.foldl record p).outside = p.outside := by
  induction runs generalizing p with
  | nil => rfl
  | cons run runs ih => rw [foldl_cons, ih, record_outside]

theorem actsByCalls (w : Engine) (e : Event) : w.ActsByCalls u deps e := by
  intro hothers
  cases e with
  | observe => rfl
  | advance => rw [step_advance, foldl_record_outside]; rfl
  | test => rw [step_test, foldl_record_outside, calls_test]; rfl
  | create | update | delete =>
    simp only [Engine.step]
    split <;> rfl
  | setEnabled => rfl
  | others store cases => exact absurd rfl (hothers store cases)

/-! ## The run history -/

theorem foldl_perform_runs (calls : List Call) (p : Platform) :
    (calls.foldl (perform u env) p).runs = p.runs := by
  induction calls generalizing p with
  | nil => rfl
  | cons call calls ih => rw [foldl_cons, ih, perform_runs]

theorem rtake_rtake_concat {α : Type*} (n : ℕ) (l : List α) (a : α) :
    (l.rtake n ++ [a]).rtake n = (l ++ [a]).rtake n := by
  simp only [List.rtake, length_append, length_drop, length_singleton]
  rw [← drop_append_of_le_length (Nat.sub_le _ _), drop_drop]
  congr 1
  omega

theorem foldl_record_runs {p : Platform} (h : p.runs = all.rtake maxRuns) (runs : List RunRecord) :
    (runs.foldl record p).runs = (all ++ runs).rtake maxRuns := by
  induction runs generalizing p all with
  | nil => simpa using h
  | cons run runs ih =>
    have hrecord : (p.record run).runs = (all ++ [run]).rtake maxRuns := by
      rw [← rtake_rtake_concat, ← h]
      simp only [record, List.rtake]
    rw [foldl_cons, ih hrecord, append_assoc, singleton_append]

/-- An event appends the run it records, and the history keeps the newest. -/
theorem step_runs (h : w.platform.runs = all.rtake maxRuns) (e : Event) :
    (w.step u deps e).platform.runs = (all ++ w.recorded u deps e).rtake maxRuns := by
  cases e with
  | advance n env =>
    rw [step_advance]
    exact foldl_record_runs ((foldl_perform_runs u env _ _).trans h) _
  | test =>
    rw [step_test]
    exact foldl_record_runs h _
  | observe | setEnabled | others => simpa [Engine.recorded, Engine.step] using h
  | create | update | delete =>
    simp only [Engine.recorded, append_nil, ← h, Engine.step]
    split <;> rfl

theorem runs_run (start : Engine) (hstart : start.platform.runs = []) (es : List Event) :
    (run (Engine.step u deps) start es).platform.runs =
      (gathered (Engine.recorded u deps) (Engine.step u deps) start es).rtake maxRuns := by
  refine run_history_invariant (I := fun es (w : Engine) => w.platform.runs =
    (gathered (Engine.recorded u deps) (Engine.step u deps) start es).rtake maxRuns) ?_ ?_ es
  · rw [hstart, gathered, rtake_nil]
  · intro es e h
    rw [gathered_concat]
    exact step_runs u deps h e

/-! ## Where an `Observe` comes from -/

/-- What has happened when an `Observe` is where it is. -/
def Traced (start : Engine) (es : List Event) (n : ℕ) : Observer → Prop
  | .checking alert => SomeStep (Engine.step u deps) (Starts n alert) start es
  | .listing alert =>
    SomeStep (Engine.step u deps) (Starts n alert) start es ∧
      SomeStep (Engine.step u deps) (BeginsEnabled n alert) start es
  | .choosing alert todo =>
    SomeStep (Engine.step u deps) (Starts n alert) start es ∧
      SomeStep (Engine.step u deps) (BeginsEnabled n alert) start es ∧
      ∀ playbook ∈ todo, SomeStep (Engine.step u deps) (Lists n alert playbook) start es
  | .running alert playbook steps _ todo =>
    SomeStep (Engine.step u deps) (Starts n alert) start es ∧
      SomeStep (Engine.step u deps) (BeginsEnabled n alert) start es ∧
      (∀ playbook' ∈ playbook :: todo,
        SomeStep (Engine.step u deps) (Lists n alert playbook') start es) ∧
      playbook.1.trigger.matches u alert = true ∧ steps ⊆ playbook.1.steps
  | .done => True

variable {u deps env} {start : Engine} {es : List Event} {n : ℕ}

theorem Traced.concat (h : Traced u deps start es n o) (e : Event) :
    Traced u deps start (es ++ [e]) n o := by
  cases o with
  | checking => exact SomeStep.concat h e
  | listing => exact ⟨h.1.concat e, h.2.concat e⟩
  | choosing =>
    exact ⟨h.1.concat e, h.2.1.concat e, fun playbook hp => (h.2.2 playbook hp).concat e⟩
  | running alert playbook steps run todo =>
    exact ⟨h.1.concat e, h.2.1.concat e, fun playbook hp => (h.2.2.1 playbook hp).concat e,
      h.2.2.2⟩
  | done => trivial

theorem Traced.advance (ho : (run (Engine.step u deps) start es).observers[n]? = some o)
    (h : Traced u deps start es n o) :
    Traced u deps start (es ++ [.advance n env]) n
      (advance u deps env (run (Engine.step u deps) start es).platform o).2 := by
  have hlater := h.concat (.advance n env)
  cases o with
  | checking =>
    simp only [Soar.advance]
    split
    · next henabled => exact ⟨hlater, SomeStep.last ⟨⟨env, rfl⟩, ho, henabled⟩⟩
    · trivial
  | listing =>
    exact ⟨hlater.1, hlater.2, fun playbook hp => SomeStep.last ⟨⟨env, rfl⟩, ho, hp⟩⟩
  | choosing alert todo =>
    cases todo with
    | nil => trivial
    | cons =>
      simp only [Soar.advance]
      split
      · exact ⟨hlater.1, hlater.2.1, fun p hp => hlater.2.2 p (mem_cons_of_mem _ hp)⟩
      · next hrun =>
        rw [not_or, not_not] at hrun
        exact ⟨hlater.1, hlater.2.1, hlater.2.2, hrun.2, List.Subset.refl _⟩
  | running alert playbook steps run todo =>
    cases steps with
    | nil =>
      exact ⟨hlater.1, hlater.2.1, fun p hp => hlater.2.2.1 p (mem_cons_of_mem _ hp)⟩
    | cons step steps =>
      obtain ⟨hstart, hbegin, hlists, hmatch, hsteps⟩ := hlater
      exact ⟨hstart, hbegin, hlists, hmatch, fun s hs => hsteps (mem_cons_of_mem step hs)⟩
  | done => trivial

theorem step_observers (w : Engine) {e : Event} (hobserve : ∀ alert, e ≠ .observe alert)
    (hadvance : ∀ n env, e ≠ .advance n env) : (w.step u deps e).observers = w.observers := by
  cases e with
  | observe alert => exact absurd rfl (hobserve alert)
  | advance n env => exact absurd rfl (hadvance n env)
  | test | create | update | delete =>
    simp only [Engine.step]
    split <;> rfl
  | setEnabled | others => rfl

theorem getElem?_step_advance (w : Engine) (m n : ℕ) (env : Env) :
    (w.step u deps (.advance m env)).observers[n]? =
      if m = n then (w.observers[m]?).map fun o => (advance u deps env w.platform o).2
      else w.observers[n]? :=
  Pool.getElem?_advanceAt (advance u deps env) w.platform w.observers m n

theorem traced_run (start : Engine) (hstart : start.observers = []) (es : List Event) :
    ∀ n o, (run (Engine.step u deps) start es).observers[n]? = some o →
      Traced u deps start es n o := by
  refine run_history_invariant (I := fun es (w : Engine) => ∀ n o, w.observers[n]? = some o →
    Traced u deps start es n o) ?_ ?_ es
  · intro n o ho
    rw [hstart] at ho
    cases ho
  · intro es e ih n o ho
    by_cases hobserve : ∃ alert, e = .observe alert
    · obtain ⟨alert, rfl⟩ := hobserve
      rw [show ((run (Engine.step u deps) start es).step u deps (.observe alert)).observers =
        (run (Engine.step u deps) start es).observers ++ [.checking alert] from rfl] at ho
      rcases Pool.getElem?_spawn_eq_some ho with h | ⟨hn, rfl⟩
      · exact (ih n o h).concat _
      · exact SomeStep.last ⟨rfl, hn⟩
    · by_cases hadvance : ∃ m env, e = .advance m env
      · obtain ⟨m, env, rfl⟩ := hadvance
        rw [getElem?_step_advance] at ho
        split_ifs at ho with hmn
        · subst hmn
          obtain ⟨o', ho', rfl⟩ := Option.map_eq_some_iff.mp ho
          exact (ih m o' ho').advance ho'
        · exact (ih n o ho).concat _
      · rw [step_observers _ (not_exists.mp hobserve)
          fun m env h => hadvance ⟨m, env, h⟩] at ho
        exact (ih n o ho).concat _

theorem mem_calls {e : Event} (h : call ∈ w.calls deps e) :
    ∃ n env alert playbook step steps run todo, e = .advance n env ∧
      w.observers[n]? = some (.running alert playbook (step :: steps) run todo) ∧
      issued deps step alert (isDryRun playbook.1 false) = some call := by
  cases e with
  | advance n env =>
    obtain ⟨o, ho, hcall⟩ := Option.bind_eq_some_iff.mp (Option.mem_toList.mp h)
    unfold Observer.call at hcall
    split at hcall
    · next alert playbook step steps run todo =>
      exact ⟨n, env, alert, playbook, step, steps, run, todo, rfl, ho, hcall⟩
    all_goals cases hcall
  | test =>
    rw [calls_test] at h
    cases h
  | observe | create | update | delete | setEnabled | others => cases h

theorem enforces_of_issued {playbook : Playbook}
    (h : issued deps step alert (isDryRun playbook false) = some call) :
    playbook.mode = modeEnforce ∧ issued deps step alert false = some call := by
  cases hdry : isDryRun playbook false with
  | true =>
    rw [hdry, issued_dryRun] at h
    cases h
  | false =>
    rw [hdry] at h
    exact ⟨by simpa [isDryRun] using hdry, h⟩

/-- Over every run of the engine, with any playbooks at the start and whatever alerts, changes of
playbooks, tests and switches come:

* a call is made by an `Observe` that found the engine enabled when it began, for a step of a
  playbook that was stored when it took the list, enforces, and whose trigger matches the alert; and
  a command goes to the agent of that alert;
* what an event does to the notifications, the cases and the queues, it does by its calls;
* the history holds the newest `maxRuns` of all runs recorded, newest first. -/
theorem playbook_calls_authorised (u : Unicode) (deps : Deps) (store : Store)
    (cases : Cases.Memory) (playbooks : PlaybookStore) (enabled : Bool) (es : List Event) :
    (∀ pre e post, es = pre ++ e :: post →
      ∀ call ∈ (run (Engine.step u deps) (.start store cases playbooks enabled) pre).calls deps e,
        ∃ n env alert playbook step, e = .advance n env ∧
          SomeStep (Engine.step u deps) (Starts n alert)
            (.start store cases playbooks enabled) pre ∧
          SomeStep (Engine.step u deps) (BeginsEnabled n alert)
            (.start store cases playbooks enabled) pre ∧
          SomeStep (Engine.step u deps) (Lists n alert playbook)
            (.start store cases playbooks enabled) pre ∧
          playbook.1.mode = modeEnforce ∧ playbook.1.trigger.matches u alert = true ∧
          step ∈ playbook.1.steps ∧ issued deps step alert false = some call ∧
          ∀ agentID cmd, call = .enqueue agentID cmd → agentID = alert.agentID) ∧
      AllSteps (Engine.step u deps) (Engine.ActsByCalls u deps)
        (.start store cases playbooks enabled) es ∧
      (run (Engine.step u deps) (.start store cases playbooks enabled) es).runs =
        (gathered (Engine.recorded u deps) (Engine.step u deps)
          (.start store cases playbooks enabled) es).reverse.take maxRuns := by
  refine ⟨?_, AllSteps.of_split fun pre e _ _ => actsByCalls u deps _ e, ?_⟩
  · intro pre e post _ call hcall
    obtain ⟨n, env, alert, playbook, step, steps, run, todo, rfl, ho, hissued⟩ := mem_calls hcall
    obtain ⟨hstart, hbegin, hlists, hmatch, hsteps⟩ := traced_run _ rfl pre n _ ho
    obtain ⟨hmode, hissued⟩ := enforces_of_issued hissued
    refine ⟨n, env, alert, playbook, step, rfl, hstart, hbegin,
      hlists playbook mem_cons_self, hmode, hmatch, hsteps mem_cons_self, hissued, ?_⟩
    rintro agentID cmd rfl
    exact agentID_of_issued deps hissued
  · rw [Engine.runs, runs_run u deps _ rfl, rtake_eq_reverse_take_reverse, reverse_reverse]

end ArgusEdr.Soar
