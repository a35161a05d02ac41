import ArgusEdr.Agent.RuleSyncTheorems
import ArgusEdr.Fleet.Runner

/-!
# Drift detection

The control plane tells an agent to update when the version it reports is not the one served,
so the reported version must say what the agent runs. `StepOf` is what one step can do: swap the
ruleset served, fetch it, install what was fetched, or nothing that bears on either.
-/

namespace ArgusEdr.Fleet

open List

open Go (Library Directory)
open Detect (Rule Decoder)
open Respond (Responder)
open RuleSync (Reply bundleRules)
open Runs

section
variable [Library] (decode : Decoder)
  (decodePolicy : Go.Bytes → Except Go.Error Policy.Document)

/-! ## One step -/

/-- Nothing has happened to the rulesets, on either side, and nothing has been fetched. -/
structure Quiet (w w' : World) : Prop where
  served : w'.served = w.served
  past : w'.past = w.past
  engine : w'.agent.engine = w.agent.engine
  rulesVersion : w'.agent.rulesVersion = w.agent.rulesVersion
  applied : w'.applied = w.applied
  phase : ∀ reply rest, w'.phase = .fetched reply rest → w.phase = .fetched reply rest

inductive StepOf (w : World) : Event → World → Prop
  | reloaded (bundle : Bundle) :
      StepOf w (.reload bundle) { w with served := bundle, past := w.served :: w.past }
  | fetched (rest : List Posture.Command) (hphase : w.phase = .syncing rest) :
      StepOf w .fetch { w with phase := .fetched (fetchRules w) rest }
  | installed (env : RuleSync.Env) (reply : Reply) (rest : List Posture.Command)
      (hphase : w.phase = .fetched reply rest) :
      StepOf w (.install env) (install decode decodePolicy w env reply rest)
  | quiet (e : Event) (w' : World) (h : Quiet w w') : StepOf w e w'

theorem Quiet.refl (w : World) : Quiet w w := ⟨rfl, rfl, rfl, rfl, rfl, fun _ _ h => h⟩

theorem Quiet.move (w : World) (store : Store) {phase : Phase}
    (hphase : ∀ reply rest, phase ≠ .fetched reply rest) : Quiet w { w with store, phase } :=
  ⟨rfl, rfl, rfl, rfl, rfl, fun reply rest h => absurd h (hphase reply rest)⟩

theorem quiet_applyNext (w : World) (env : Respond.Env) (commands : List Posture.Command) :
    Quiet w (applyNext w env commands) := by
  cases commands with
  | nil => exact .move w w.store nofun
  | cons cmd rest =>
    by_cases hkind : cmd.kind = "UPDATE_RULES"
    · rw [applyNext, if_pos hkind]
      exact .move w w.store nofun
    · rw [applyNext, if_neg hkind]
      exact ⟨rfl, rfl, rfl, rfl, rfl, nofun⟩

theorem quiet_heartbeatBegin (w : World) (reported fingerprint : String) (now : Model.Time)
    (stats : Store.Stats) : Quiet w (heartbeatBegin w reported fingerprint now stats) := by
  unfold heartbeatBegin
  split <;> exact .move w _ nofun

theorem stepOf_step (w : World) (e : Event) :
    StepOf decode decodePolicy w e (step decode decodePolicy w e) := by
  cases e with
  | reload bundle => exact .reloaded bundle
  | enqueue => exact .quiet _ _ ⟨rfl, rfl, rfl, rfl, rfl, fun _ _ h => h⟩
  | setPendingCert =>
    exact .quiet _ _ ⟨rfl, rfl, rfl, rfl, rfl, fun _ _ h => h⟩
  | tick =>
    simp only [step, runner]
    split
    · exact .quiet _ _ (.move w w.store nofun)
    · exact .quiet _ _ (.refl w)
  | heartbeatBegin fingerprint now stats =>
    simp only [step, runner]
    split
    · exact .quiet _ _ (quiet_heartbeatBegin w _ fingerprint now stats)
    · exact .quiet _ _ (.refl w)
  | heartbeatEnd =>
    simp only [step, runner]
    split
    · exact .quiet _ _ (.move w w.store nofun)
    · exact .quiet _ _ (.refl w)
  | rpcFails =>
    simp only [step, runner]
    split
    · exact .quiet _ _ (.move w w.store nofun)
    · exact .quiet _ _ (.move w w.store nofun)
    · exact .quiet _ _ (.move w w.store nofun)
    · exact .quiet _ _ (.refl w)
  | apply env =>
    simp only [step, runner]
    split
    · exact .quiet _ _ (quiet_applyNext w env _)
    · exact .quiet _ _ (.refl w)
  | fetch =>
    simp only [step, runner]
    split
    · next rest hphase => exact .fetched rest hphase
    · exact .quiet _ _ (.refl w)
  | install env =>
    simp only [step, runner]
    split
    · next reply rest hphase => exact .installed env reply rest hphase
    · exact .quiet _ _ (.refl w)

theorem install_applied_or_kept (w : World) (env : RuleSync.Env) (reply : Reply)
    (rest : List Posture.Command) :
    ((RuleSync.syncRules decode decodePolicy w.agent env (.ok reply)).2 = .applied ∧
      reply.unchanged = false ∧
      (install decode decodePolicy w env reply rest).agent.engine =
        (RuleSync.syncRules decode decodePolicy w.agent env (.ok reply)).1.engine ∧
      (install decode decodePolicy w env reply rest).agent.rulesVersion = reply.version ∧
      (install decode decodePolicy w env reply rest).applied = true) ∨
    Quiet w (install decode decodePolicy w env reply rest) := by
  by_cases hresult : (RuleSync.syncRules decode decodePolicy w.agent env (.ok reply)).2 = .applied
  · obtain ⟨hchanged, rules, -, hagent⟩ := RuleSync.syncRules_applied decode decodePolicy hresult
    refine Or.inl ⟨hresult, hchanged, rfl, ?_, ?_⟩
    · simp only [install, hagent]
    · simp [install, hresult]
  · obtain ⟨d, hagent, -⟩ := RuleSync.syncRules_not_applied decode decodePolicy hresult
    refine Or.inr ⟨rfl, rfl, ?_, ?_, ?_, nofun⟩
    · simp only [install, hagent]
    · simp only [install, hagent]
    · simp [install, hresult]

/-! ## What a report is worth -/

variable {w w₀ w' : World} {dir : Directory} {responder : Responder} {served : Bundle}
  {store : Store} {token id : String} {now : Model.Time} {req : Identity.EnrollRequest}

theorem fetchRules_bundle (h : (fetchRules w).unchanged = false) :
    (fetchRules w).bundle = w.served := by
  unfold fetchRules Service.getRules at h ⊢
  split_ifs at h ⊢
  rfl

/-- What holds along a run from `w₀` whose installations are exact: a changed bundle the runner
holds has been served; before the first applied sync the agent runs what it started with, and
from then on what it reports. -/
structure Inv (w₀ w : World) : Prop where
  holdsServed : ∀ reply rest, w.phase = .fetched reply rest → reply.unchanged = false →
    reply.bundle ∈ w.bundles
  unsynced : w.applied = false → w.agent.engine = w₀.agent.engine ∧
    w.agent.rulesVersion = w₀.agent.rulesVersion
  synced : w.applied = true → RunsReported decode w

theorem Inv.of_quiet (h : Inv decode w₀ w) (hq : Quiet w w') : Inv decode w₀ w' := by
  have hbundles : w'.bundles = w.bundles := by rw [World.bundles, hq.served, hq.past]; rfl
  constructor
  · intro reply rest hphase hchanged
    rw [hbundles]
    exact h.holdsServed reply rest (hq.phase reply rest hphase) hchanged
  · intro happlied
    rw [hq.engine, hq.rulesVersion]
    exact h.unsynced (hq.applied ▸ happlied)
  · intro happlied
    rw [RunsReported, hbundles, hq.engine, hq.rulesVersion]
    exact h.synced (hq.applied ▸ happlied)

theorem inv_step {e : Event} (h : Inv decode w₀ w)
    (hexact : InstallsExactly decode decodePolicy w e) :
    Inv decode w₀ (step decode decodePolicy w e) := by
  have hstep := stepOf_step decode decodePolicy w e
  generalize step decode decodePolicy w e = w' at hstep ⊢
  cases hstep with
  | reloaded =>
    -- what was served stays among the bundles ever served
    refine ⟨?_, h.unsynced, ?_⟩
    · intro reply rest hphase hchanged
      exact mem_cons_of_mem _ (h.holdsServed reply rest hphase hchanged)
    · intro happlied
      obtain ⟨b, hb, hruns⟩ := h.synced happlied
      exact ⟨b, mem_cons_of_mem _ hb, hruns⟩
  | fetched =>
    refine ⟨?_, h.unsynced, h.synced⟩
    rintro reply rest' ⟨⟩ hchanged
    rw [fetchRules_bundle hchanged]
    exact mem_cons_self
  | installed env reply rest hphase =>
    rcases install_applied_or_kept decode decodePolicy w env reply rest with
      ⟨hresult, hchanged, hengine, hversion, happlied⟩ | hq
    · -- applied: the bundle fetched is now what runs and what is reported
      refine ⟨nofun, ?_, ?_⟩
      · intro hnot
        rw [happlied] at hnot
        cases hnot
      · intro _
        refine ⟨reply.bundle, h.holdsServed reply rest hphase hchanged, hversion.symm, ?_⟩
        rw [hengine]
        exact hexact reply rest hphase hresult
    · exact h.of_quiet decode hq
  | quiet _ _ hq => exact h.of_quiet decode hq

theorem start_eq_some (h : start decode dir responder served store token id now req = some w₀) :
    w₀.phase = .syncing [] ∧ w₀.applied = false ∧ w₀.served = served ∧
      w₀.agent.rulesVersion = served.version := by
  unfold start at h
  cases hload : Detect.loadDir decode dir with
  | error =>
    rw [hload] at h
    cases h
  | ok =>
    rw [hload] at h
    dsimp only at h
    cases henroll : Identity.enroll token store id now req with
    | error =>
      rw [henroll] at h
      cases h
    | ok =>
      rw [henroll] at h
      cases h
      exact ⟨rfl, rfl, rfl, rfl⟩

theorem inv_start (hphase : w₀.phase = .syncing []) (happlied : w₀.applied = false) :
    Inv decode w₀ w₀ := by
  refine ⟨?_, fun _ => ⟨rfl, rfl⟩, ?_⟩
  · intro reply rest h
    rw [hphase] at h
    cases h
  · intro h
    rw [happlied] at h
    cases h

/-- The heartbeat, if the event is one, follows an applied sync, or the rules the agent started
with are those of a bundle served under the version it enrolled at. -/
def ReportFounded (w₀ w : World) (e : Event) : Prop :=
  Reports w e → w.applied = true ∨
    ∃ b ∈ w.bundles, b.version = w₀.agent.rulesVersion ∧
      w₀.agent.engine.Perm (bundleRules decode b.files)

theorem mem_bundles_step {b : Bundle} (h : b ∈ w.bundles) (e : Event) :
    b ∈ (step decode decodePolicy w e).bundles := by
  have hstep := stepOf_step decode decodePolicy w e
  generalize step decode decodePolicy w e = w' at hstep ⊢
  cases hstep with
  | reloaded => exact mem_cons_of_mem _ h
  | fetched | installed => exact h
  | quiet _ _ hq =>
    rw [World.bundles, hq.served, hq.past]
    exact h

theorem reportFounded_of_start (hversion : w₀.agent.rulesVersion = w₀.served.version)
    (hrules : w₀.agent.engine.Perm (bundleRules decode w₀.served.files)) (es : List Event) :
    AllSteps (step decode decodePolicy) (ReportFounded decode w₀) w₀ es := by
  refine AllSteps.of_split fun pre e post _ _ => Or.inr ⟨w₀.served, ?_, hversion.symm, hrules⟩
  exact run_invariant (I := fun w : World => w₀.served ∈ w.bundles) mem_cons_self
    (fun _ e h => mem_bundles_step decode decodePolicy h e) pre

/-- For every run of an agent from its enrollment in which an applied sync installs exactly the
bundle it fetched: all its heartbeats report the version of what it runs if and only if each
comes after an applied sync, or the agent started with the rules of that version. -/
theorem reports_sound_iff {dir : Directory} {responder : Responder} {served : Bundle}
    {store : Store} {token id : String} {now : Model.Time} {req : Identity.EnrollRequest}
    {w₀ : World} (hstart : start decode dir responder served store token id now req = some w₀)
    (es : List Event)
    (hexact : AllSteps (step decode decodePolicy) (InstallsExactly decode decodePolicy) w₀ es) :
    AllSteps (step decode decodePolicy) (fun w e => Reports w e → RunsReported decode w) w₀ es ↔
      AllSteps (step decode decodePolicy) (ReportFounded decode w₀) w₀ es := by
  obtain ⟨hphase, happlied, -, -⟩ := start_eq_some decode hstart
  refine hexact.congr (I := Inv decode w₀) (inv_start decode hphase happlied)
    (fun w e h => inv_step decode decodePolicy h) ?_
  intro w e h
  refine imp_congr_right fun _ => ?_
  -- before the first applied sync what runs, and what is reported, is what the agent started with
  cases hsynced : w.applied with
  | true => exact ⟨fun _ => Or.inl rfl, fun _ => h.synced hsynced⟩
  | false =>
    obtain ⟨hengine, hversion⟩ := h.unsynced hsynced
    rw [RunsReported, hengine, hversion]
    exact ⟨Or.inr, fun hor => hor.resolve_left Bool.false_ne_true⟩

/-! ## A version that stays -/

def KeepsVersion (version : String) (_ : World) : Event → Prop
  | .reload bundle => bundle.version = version
  | .enqueue .. | .setPendingCert .. | .tick | .heartbeatBegin .. | .heartbeatEnd | .rpcFails
  | .apply _ | .fetch | .install _ => True

/-- What holds while the version served is the one reported: the agent is told it is current. -/
structure Settled (w₀ w : World) : Prop where
  served : w.served.version = w₀.served.version
  rulesVersion : w.agent.rulesVersion = w₀.served.version
  engine : w.agent.engine = w₀.agent.engine
  applied : w.applied = w₀.applied
  unchanged : ∀ reply rest, w.phase = .fetched reply rest → reply.unchanged = true

theorem Settled.of_quiet (h : Settled w₀ w) (hq : Quiet w w') : Settled w₀ w' where
  served := by rw [hq.served, h.served]
  rulesVersion := by rw [hq.rulesVersion, h.rulesVersion]
  engine := by rw [hq.engine, h.engine]
  applied := by rw [hq.applied, h.applied]
  unchanged := fun reply rest hphase => h.unchanged reply rest (hq.phase reply rest hphase)

theorem settled_step {e : Event} (h : Settled w₀ w) (hkeeps : KeepsVersion w₀.served.version w e) :
    Settled w₀ (step decode decodePolicy w e) := by
  have hstep := stepOf_step decode decodePolicy w e
  generalize step decode decodePolicy w e = w' at hstep ⊢
  cases hstep with
  | reloaded => exact ⟨hkeeps, h.rulesVersion, h.engine, h.applied, h.unchanged⟩
  | fetched =>
    refine ⟨h.served, h.rulesVersion, h.engine, h.applied, ?_⟩
    rintro reply rest' ⟨⟩
    simp [fetchRules, Service.getRules, h.rulesVersion, h.served]
  | installed env reply rest hphase =>
    rcases install_applied_or_kept decode decodePolicy w env reply rest with ⟨-, hchanged, -⟩ | hq
    · -- an agent at the version served is only ever answered `unchanged`
      rw [h.unchanged reply rest hphase] at hchanged
      cases hchanged
    · exact h.of_quiet hq
  | quiet _ _ hq => exact h.of_quiet hq

theorem settled_start
    (hstart : start decode dir responder served store token id now req = some w₀) :
    w₀.served = served ∧ Settled w₀ w₀ := by
  obtain ⟨hphase, -, hserved, hversion⟩ := start_eq_some decode hstart
  refine ⟨hserved, rfl, hserved ▸ hversion, rfl, rfl, ?_⟩
  intro reply rest h
  rw [hphase] at h
  cases h

theorem installsExactly_while_version_kept
    (hstart : start decode dir responder served store token id now req = some w₀) {es : List Event}
    (hkeeps : AllSteps (step decode decodePolicy) (KeepsVersion served.version) w₀ es) :
    AllSteps (step decode decodePolicy) (InstallsExactly decode decodePolicy) w₀ es := by
  obtain ⟨hserved, hsettled⟩ := settled_start decode hstart
  refine hkeeps.of_invariant (I := Settled w₀) hsettled
    (fun w e h he => settled_step decode decodePolicy h (hserved ▸ he)) ?_
  intro w e h _
  cases e with
  | install =>
    intro reply rest hphase hresult
    have hchanged := (RuleSync.syncRules_applied decode decodePolicy hresult).1
    rw [h.unchanged reply rest hphase] at hchanged
    cases hchanged
  | _ => trivial

/-- While the control plane serves the version it served at enrollment, an agent runs the rules
it found on disk, whatever they are, and reports that version. -/
theorem engine_kept_while_version_kept
    (hstart : start decode dir responder served store token id now req = some w₀) (es : List Event)
    (hkeeps : AllSteps (step decode decodePolicy) (KeepsVersion served.version) w₀ es) :
    (run (step decode decodePolicy) w₀ es).agent.engine = w₀.agent.engine ∧
      (run (step decode decodePolicy) w₀ es).agent.rulesVersion = served.version := by
  obtain ⟨hserved, hsettled⟩ := settled_start decode hstart
  have h : Settled w₀ (run (step decode decodePolicy) w₀ es) :=
    hkeeps.invariant (I := Settled w₀) hsettled
      (fun w e h he => settled_step decode decodePolicy h (hserved ▸ he))
  exact ⟨h.engine, hserved ▸ h.rulesVersion⟩

end

/-! ## Concrete runs -/

def serving (rule : UInt8) : Bundle where
  version := "v1"
  files := [{ name := "a.yaml", content := [rule] }]

def enrolled (onDisk rule : UInt8) : Option (@World .plain) :=
  letI : Library := .plain
  start Detect.tinyDecoder (Directory.empty.put "a.yaml" [onDisk]) (.new .off .off [])
    (serving rule) (.new .memory) "" "agent-1" 0 { hostname := "web-1", peerFingerprint := "f" }

/-- The start-up sync, then a heartbeat and its answer. -/
def startUp : List Event := [.fetch, .install {}, .apply .obliging]

def firstHeartbeat : List Event := [.tick, .heartbeatBegin "f" 1 {}, .heartbeatEnd]

theorem startUp_keepsVersion [Library] (decode : Decoder) (w₀ : World) :
    AllSteps (step decode fun _ => .ok {}) (KeepsVersion "v1") w₀ (startUp ++ firstHeartbeat) := by
  simp [startUp, firstHeartbeat, KeepsVersion]

/-- An agent that finds the rules of the control plane on disk reports what it runs. -/
theorem reports_sound_of_same_rules :
    letI : Library := .plain
    ∃ w₀, enrolled 1 1 = some w₀ ∧
      AllSteps (step Detect.tinyDecoder fun _ => .ok {})
        (fun w e => Reports w e → RunsReported Detect.tinyDecoder w) w₀
        (startUp ++ firstHeartbeat) := by
  let _ : Library := .plain
  obtain ⟨w₀, hstart⟩ : ∃ w₀, enrolled 1 1 = some w₀ := Option.isSome_iff_exists.mp (by decide)
  have hexact := installsExactly_while_version_kept _ (fun _ => .ok {}) hstart
    (startUp_keepsVersion _ w₀)
  refine ⟨w₀, hstart, (reports_sound_iff _ _ hstart _ hexact).mpr ?_⟩
  obtain rfl : _ = w₀ := Option.some.inj hstart
  exact reportFounded_of_start _ _ rfl (.refl _) _

theorem engine_kept_after_startUp :
    letI : Library := .plain
    ∃ w₀, enrolled 1 2 = some w₀ ∧
      (run (step Detect.tinyDecoder fun _ => .ok {}) w₀ (startUp ++ firstHeartbeat)).agent.engine =
        w₀.agent.engine := by
  let _ : Library := .plain
  obtain ⟨w₀, hstart⟩ : ∃ w₀, enrolled 1 2 = some w₀ := Option.isSome_iff_exists.mp (by decide)
  have hkeeps := startUp_keepsVersion Detect.tinyDecoder w₀
  exact ⟨w₀, hstart, (engine_kept_while_version_kept _ (fun _ => .ok {}) hstart _ hkeeps).1⟩

/-- An agent that finds another rule on disk than the control plane serves: its first heartbeat
reports the version served, runs the rule found, and is told nothing. -/
theorem first_heartbeat_hides_drift :
    letI : Library := .plain
    ∃ w₀, enrolled 1 2 = some w₀ ∧
      AllSteps (step Detect.tinyDecoder fun _ => .ok {})
        (InstallsExactly Detect.tinyDecoder fun _ => .ok {}) w₀ (startUp ++ firstHeartbeat) ∧
      ¬AllSteps (step Detect.tinyDecoder fun _ => .ok {})
        (fun w e => Reports w e → RunsReported Detect.tinyDecoder w) w₀
        (startUp ++ firstHeartbeat) ∧
      (run (step Detect.tinyDecoder fun _ => .ok {}) w₀ (startUp ++ firstHeartbeat)).phase =
        .applying [] := by
  let _ : Library := .plain
  obtain ⟨w₀, hstart⟩ : ∃ w₀, enrolled 1 2 = some w₀ := Option.isSome_iff_exists.mp (by decide)
  have hexact := installsExactly_while_version_kept _ (fun _ => .ok {}) hstart
    (startUp_keepsVersion _ w₀)
  refine ⟨w₀, hstart, hexact, ?_, ?_⟩
  · intro hsound
    obtain rfl : _ = w₀ := Option.some.inj hstart
    obtain ⟨b, hb, -, hperm⟩ := (AllSteps.append_iff.mp hsound).2.1 ⟨rfl, rfl⟩
    obtain rfl : b = serving 2 := mem_singleton.mp hb
    exact absurd (hperm.map Rule.id) (by decide)
  · obtain rfl : _ = w₀ := Option.some.inj hstart
    rfl

end ArgusEdr.Fleet
