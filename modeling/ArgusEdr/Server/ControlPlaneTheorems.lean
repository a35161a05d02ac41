import ArgusEdr.Server.ControlPlane
import ArgusEdr.Server.IdentityTheorems
import ArgusEdr.Server.SoarTheorems

/-!
# Who can have a host acted upon

A command reaches a queue on two paths: the guarded endpoint, and a playbook step. The first is
closed to a request without a token (`role_of_not_carriesToken`), and no other handler touches
the store (`handle_store`). The second is open to whoever may change the playbooks and the
engine's switch, which is anyone.
-/

namespace ArgusEdr.ControlPlane

open Runs List
open Go (Unicode)
open Soar (Observer Platform)
open Admin (Api Request Json Role dispatch)

/-! ## The guarded path -/

variable {authz : Admin.Authz} {r : Request} {u : Unicode} {deps : Soar.Deps} {env : Soar.Env}
  {p : Platform} {o : Observer} {cfg : Config}

theorem role_of_not_mem {presented : String} (h : ∀ g ∈ authz.grants, presented ≠ g.token) :
    authz.role presented = .none := by
  unfold Admin.Authz.role
  generalize authz.grants = grants at h
  induction grants with
  | nil => rfl
  | cons g grants ih =>
    rw [foldl_cons, if_neg fun hg => h g mem_cons_self hg.1]
    exact ih fun g' hg' => h g' (mem_cons_of_mem g hg')

theorem requireRole_of_not_carriesToken (h : ¬CarriesToken authz r) (minRole : Role) :
    ∃ response, Admin.requireRole authz minRole r = .error response := by
  have hrole : Admin.presentedRole authz r = .none := by
    unfold Admin.presentedRole
    cases htoken : Admin.bearerToken r with
    | none => rfl
    | some =>
      refine role_of_not_mem fun g hg heq => h ⟨g, hg, ?_⟩
      rw [htoken, heq]
  unfold Admin.requireRole
  rw [hrole, if_pos rfl]
  split_ifs <;> exact ⟨_, rfl⟩

theorem guarded_of_not_carriesToken {a : Api} (h : ¬CarriesToken a.authz r) (minRole : Role)
    (next : Role → Api × Admin.Response) : (Admin.guarded a minRole r next).1 = a := by
  obtain ⟨response, hresponse⟩ := requireRole_of_not_carriesToken h minRole
  rw [Admin.guarded, hresponse]

/-! ## The open handlers -/

theorem handleTestPlaybook_store (u : Unicode) (deps : Soar.Deps) (json : Json) (a : Api)
    (r : Request) (env : Admin.Env) (id : String) :
    (Admin.handleTestPlaybook u deps json a r env id).1.platform.store = a.platform.store := by
  unfold Admin.handleTestPlaybook
  split
  · rfl
  · split
    · rfl
    · next htest =>
      rw [Soar.test_ok u deps env.toEnv htest, Soar.record_store]

theorem mutateCase_store {α : Type} (a : Api) (r : Request) (id action : String)
    (decoded : Option α) (detail : α → Go.Formatted)
    (apply : α → Cases.Memory × Except Go.Error Cases.Case) :
    (Admin.mutateCase a r id action decoded detail apply).1.platform.store = a.platform.store := by
  unfold Admin.mutateCase
  split
  · rfl
  · split <;> rfl

theorem savedPlaybook_store (a : Api) (r : Request) (action : String) (status : ℕ)
    (result : Except Go.Error (Soar.PlaybookStore × Soar.Playbook))
    (id : Soar.Playbook → String) :
    (Admin.savedPlaybook a r action status result id).1.platform.store = a.platform.store := by
  unfold Admin.savedPlaybook
  split <;> rfl

theorem handle_store (u : Unicode) (deps : Soar.Deps) (json : Json) {a : Api} (env : Admin.Env)
    (h : ¬CarriesToken a.authz r) :
    (Admin.handle u deps json a r env).1.platform.store = a.platform.store := by
  unfold Admin.handle
  cases Admin.route r.method r.path with
  | none => rfl
  | some handler =>
    show (dispatch u deps json a r env handler).1.platform.store = _
    cases handler with
    | view => rfl
    | createCase =>
      simp only [dispatch, Admin.handleCreateCase]
      split
      · rfl
      · split <;> rfl
    | assignCase | caseStatus | caseComment | caseEvidence => exact mutateCase_store ..
    | soarEnable =>
      simp only [dispatch, Admin.handleSOAREnable]
      split <;> rfl
    | createPlaybook =>
      simp only [dispatch, Admin.handleCreatePlaybook]
      split
      · rfl
      · exact savedPlaybook_store ..
    | updatePlaybook =>
      simp only [dispatch, Admin.handleUpdatePlaybook]
      split
      · rfl
      · exact savedPlaybook_store ..
    | deletePlaybook =>
      simp only [dispatch, Admin.handleDeletePlaybook]
      split <;> rfl
    | testPlaybook id => exact handleTestPlaybook_store u deps json a r env id
    -- the guarded endpoints turn the request away
    | enqueueCommand id => rw [dispatch, guarded_of_not_carriesToken h]
    | rotateCert id => rw [dispatch, guarded_of_not_carriesToken h]
    | reloadRules => rw [dispatch, guarded_of_not_carriesToken h]

/-! ## The playbook engine -/

/-- What an `Observe` still has to do is harmless. -/
def StaysHarmless (u : Unicode) : Observer → Prop
  | .choosing alert todo => ∀ playbook ∈ todo, HarmlessPlaybook u alert playbook.1
  | .running alert playbook steps _ todo =>
    (playbook.1.mode = Soar.modeEnforce → ∀ s ∈ steps, HarmlessStep alert s) ∧
      ∀ playbook ∈ todo, HarmlessPlaybook u alert playbook.1
  | .checking _ | .listing _ | .done => True

theorem queue_executeStep_of_harmless {s : Soar.Step} {alert : Soar.AlertInfo} {dryRun : Bool}
    (hs : dryRun = false → HarmlessStep alert s) (k : String) :
    (Soar.executeStep u deps env p s alert dryRun).1.store.queue k = p.store.queue k := by
  rcases Soar.queue_executeStep u deps env p s alert dryRun k with
    hsame | ⟨hdry, -, ⟨hkill, -⟩ | ⟨hquarantine, htarget, -⟩⟩
  · exact hsame
  · exact absurd hkill (hs hdry).1
  · exact absurd ((hs hdry).2 hquarantine) htarget

theorem mode_of_not_isDryRun {playbook : Soar.Playbook}
    (h : Soar.isDryRun playbook false = false) : playbook.mode = Soar.modeEnforce := by
  simpa [Soar.isDryRun] using h

theorem queue_advance (ho : StaysHarmless u o) (k : String) :
    (Soar.advance u deps env p o).1.store.queue k = p.store.queue k := by
  cases o with
  | checking | listing => rfl
  | choosing alert todo =>
    cases todo with
    | nil => rfl
    | cons =>
      simp only [Soar.advance]
      split_ifs <;> rfl
  | running alert playbook steps run todo =>
    cases steps with
    | nil => simp only [Soar.advance, Soar.record_store]
    | cons s steps =>
      exact queue_executeStep_of_harmless
        (fun hdry => ho.1 (mode_of_not_isDryRun hdry) s mem_cons_self) k
  | done => rfl

theorem staysHarmless_advance (ho : StaysHarmless u o) (hlists : ListsHarmless u p o) :
    StaysHarmless u (Soar.advance u deps env p o).2 := by
  cases o with
  | checking =>
    unfold Soar.advance
    dsimp only
    split_ifs <;> trivial
  | listing => exact hlists
  | choosing alert todo =>
    cases todo with
    | nil => trivial
    | cons playbook todo =>
      obtain ⟨hplaybook, htodo⟩ := forall_mem_cons.mp ho
      simp only [Soar.advance]
      split_ifs with hskip
      · exact htodo
      · -- taken up: its steps are harmless if it enforces
        have hmatches : playbook.1.trigger.matches u alert = true := by
          by_contra hnot
          exact hskip (Or.inr hnot)
        exact ⟨fun hmode => hplaybook hmode hmatches, htodo⟩
  | running alert playbook steps run todo =>
    cases steps with
    | nil => exact ho.2
    | cons s steps =>
      exact ⟨fun hmode s' hs' => ho.1 hmode s' (mem_cons_of_mem s hs'), ho.2⟩
  | done => trivial

/-! ## The control plane -/

/-- What the `Observe`s in progress still have to do is harmless. -/
def Inert (cfg : Config) (w : World) : Prop :=
  ∀ o ∈ w.observers, StaysHarmless cfg.unicode o

theorem queue_authorizeIdentity (s : Store) (agentID fingerprint k : String) :
    (Identity.authorizeIdentity s agentID fingerprint).1.queue k = s.queue k := by
  unfold Identity.authorizeIdentity
  split
  · rfl
  · exact Store.queue_promoteCert s agentID fingerprint k
  · rfl

theorem queue_heartbeatBegin (s : Store) (agentID fingerprint : String) (now : Model.Time)
    (stats : Store.Stats) (k : String) :
    ((Service.heartbeatBegin s agentID fingerprint now stats).1.queue k).Sublist (s.queue k) := by
  have hauth := queue_authorizeIdentity s agentID fingerprint k
  unfold Service.heartbeatBegin
  cases hidentity : Identity.authorizeIdentity s agentID fingerprint with
  | mk checked verdict =>
    rw [hidentity] at hauth
    rw [← hauth]
    cases verdict with
    | error => exact List.Sublist.refl _
    | ok agent =>
      dsimp only
      have hbeat := Store.queue_heartbeat checked agentID now stats k
      cases hheartbeat : checked.heartbeat agentID now stats with
      | mk beaten found =>
        rw [hheartbeat] at hbeat
        rw [← hbeat]
        cases found with
        | none => exact List.Sublist.refl _
        | some agent =>
          show ((beaten.drainCommands agent.id).1.queue k).Sublist (beaten.queue k)
          rw [Store.queue_drainCommands]
          split_ifs
          · exact nil_sublist _
          · exact List.Sublist.refl _

/-- One step without a token, while the `Observe`s in progress are harmless: no queue grows. -/
theorem queue_step {w : World} {e : Event} (h : Inert cfg w) (hauth : Unauthenticated w e)
    (k : String) :
    ((step cfg w e).api.platform.store.queue k).Sublist (w.api.platform.store.queue k) := by
  cases e with
  | request r env =>
    show ((Admin.handle cfg.unicode cfg.deps cfg.json w.api r env).1.platform.store.queue
      k).Sublist _
    rw [handle_store cfg.unicode cfg.deps cfg.json env hauth]
  | enroll =>
    simp only [step]
    split
    · exact List.Sublist.refl _
    · next store agent henroll =>
      show (store.queue k).Sublist _
      rw [(Identity.enroll_store henroll).1, Store.queue_enroll]
  | heartbeat agentID fingerprint now stats =>
    exact queue_heartbeatBegin w.api.platform.store agentID fingerprint now stats k
  | report record newID =>
    simp only [step]
    split
    · exact List.Sublist.refl _
    · show ((w.api.platform.store.recordAlert _ newID).queue k).Sublist _
      rw [Store.queue_recordAlert]
  | observe n env =>
    -- the platform is the shared state, the `Observe`s are the goroutines
    have hqueue : (Pool.advanceAt (Soar.advance cfg.unicode cfg.deps env) w.api.platform
        w.observers n).1.store.queue k = w.api.platform.store.queue k :=
      (Pool.advanceAt_invariant
        (I := fun p : Platform => p.store.queue k = w.api.platform.store.queue k)
        (J := fun _ : Observer => True) rfl (fun _ _ => trivial)
        fun o hn _ => ⟨queue_advance (h o (mem_of_getElem? hn)) k, trivial⟩).1
    show ((Pool.advanceAt (Soar.advance cfg.unicode cfg.deps env) w.api.platform
      w.observers n).1.store.queue k).Sublist _
    rw [hqueue]

theorem inert_step {w : World} {e : Event} (h : Inert cfg w) (hharmless : Harmless cfg w e) :
    Inert cfg (step cfg w e) := by
  cases e with
  | request => exact h
  | enroll =>
    simp only [step]
    split <;> exact h
  | heartbeat => exact h
  | report =>
    simp only [step]
    split
    · exact h
    · -- the alert starts an `Observe`, which has taken up nothing yet
      exact Pool.forall_mem_spawn h trivial
  | observe =>
    exact (Pool.advanceAt_invariant (I := fun _ : Platform => True) trivial h
      fun o hn ho => ⟨trivial, staysHarmless_advance ho (hharmless o hn)⟩).2

/-- Whatever is queued at the start, whatever tokens are configured and whether or not the engine
is switched on: in every run of requests without a token, enrollments, heartbeats and alerts in
which no `Observe` takes up an enforcing playbook that asks for it, no step puts a command to
kill or quarantine into a queue. -/
theorem no_host_action_queued (cfg : Config) (store : Store) (authz : Admin.Authz)
    (issuer soar : Bool) (es : List Event)
    (h : AllSteps (step cfg) (fun w e => Unauthenticated w e ∧ Harmless cfg w e)
      (start store authz issuer soar) es) :
    AllSteps (step cfg) (PlacesNoHostAction cfg) (start store authz issuer soar) es := by
  refine h.of_invariant (I := Inert cfg) ?_ ?_ ?_
  · intro o ho
    cases ho
  · intro w e hinert hstep
    exact inert_step hinert hstep.2
  · intro w e hinert hstep agentID
    exact (queue_step hinert hstep.1 agentID).filter _

/-! ## Concrete runs -/

/-- A server whose request decoders know three bodies: one byte switches the engine on, two bytes
are a playbook, in enforce mode if the first is not zero, that kills on any alert. -/
def tinyConfig : Config where
  unicode := .ascii
  json :=
    { command := fun _ => none
      enabled := fun body => if body.length = 1 then some true else none
      playbook := fun body => match body with
        | [mode, _] => some
          { name := "contain"
            mode := if mode = 0 then "dry-run" else "enforce"
            steps := [{ type := "kill_process" }] }
        | _ => none
      createCase := fun _ => none
      assignee := fun _ => none
      status := fun _ => none
      comment := fun _ => none
      alertIDs := fun _ => none
      alertID := fun _ => "" }

/-- An agent enrolls; someone without a token switches the engine on and creates a playbook; the
agent reports an alert, and the engine works through it. -/
def openRun (mode : UInt8) : List Event :=
  [.enroll "agent-1" 0 { hostname := "web-1", peerFingerprint := "f" },
    .request { method := "POST", path := ["api", "soar", "enable"], body := [1] } {},
    .request { method := "POST", path := ["api", "playbooks"], body := [mode, 0] } {},
    .report { agentID := "agent-1", hostname := "web-1", pid := 42 } "alert-1",
    .observe 0 {}, .observe 0 {}, .observe 0 {}, .observe 0 {}]

/-- With a playbook in dry-run the same run queues nothing. -/
theorem no_host_action_queued_dry_run :
    AllSteps (step tinyConfig) (PlacesNoHostAction tinyConfig)
      (start (.new .memory) {} false false) (openRun 0) :=
  no_host_action_queued tinyConfig (.new .memory) {} false false (openRun 0) (by decide)

/-- No token is configured, none is presented, and the last step of the run queues a kill. -/
theorem unauthenticated_kill :
    AllSteps (step tinyConfig) Unauthenticated (start (.new .memory) {} false false) (openRun 1) ∧
      (run (step tinyConfig) (start (.new .memory) {} false false)
        (openRun 1)).api.platform.store.queue "agent-1" =
          [{ kind := "KILL_PROCESS", argument := "42" }] ∧
      ¬AllSteps (step tinyConfig) (PlacesNoHostAction tinyConfig)
        (start (.new .memory) {} false false) (openRun 1) := by
  refine ⟨by decide, by decide, ?_⟩
  intro h
  have hlast := (AllSteps.append_iff.mp
    (show AllSteps _ _ _ ((openRun 1).take 7 ++ (openRun 1).drop 7) from h)).2.1 "agent-1"
  exact absurd hlast (by decide)

end ArgusEdr.ControlPlane
