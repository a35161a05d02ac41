import ArgusEdr.Server.CrossHostTheorems
import ArgusEdr.Server.ReportsTheorems

/-!
# The hosts alerts name

A stream is checked for its agent, but the host of an alert is the one its report names. Where every
report names the host its agent enrolled with, so does every alert, and a cross-host signal names
enough hosts that each belong to an agent with an alert of the kind (`alerts_name_enrolled_host`).
-/

namespace ArgusEdr.Reports

open List

open CrossHost (Correlator Observation Signal newCrossHost)
open Runs (run AllSteps)
open Simulation (next)
open Store (Agent AlertRecord Backend)

/-! ## The host of an agent -/

def hostname (s : Identity.Service) (a : String) : Option String :=
  (s.store.get a).map Agent.hostname

variable {token a host : String} {s : Identity.Service} {e : Identity.Event} {c : Control}
  {st : Stream} {correlation : Option (ℤ × ℤ)}

theorem enroll_hostname {st st' : Store} {id : String} {now : Model.Time}
    {req : Identity.EnrollRequest} {agent : Agent}
    (h : Identity.enroll token st id now req = .ok (st', agent)) :
    agent.hostname = req.hostname := by
  unfold Identity.enroll at h
  split_ifs at h
  cases h
  rfl

theorem hostname_presented (agent : Agent) (f : String) :
    (agent.presented f).hostname = agent.hostname := by
  unfold Agent.presented
  split_ifs <;> rfl

theorem hostname_step (hfresh : Identity.FreshID s e) (a : String) :
    hostname (Identity.step s e) a = hostname s a ∨
      hostname s a = none ∧ ∃ now req, e = .enroll a now req ∧
        hostname (Identity.step s e) a = some req.hostname := by
  cases e with
  | enroll id now req =>
    simp only [Identity.step, hostname]
    cases henroll : Identity.enroll s.token s.store id now req with
    | error => exact .inl rfl
    | ok p =>
      obtain ⟨hstore, hid, -⟩ := Identity.enroll_store henroll
      have hnone : s.store.get p.2.id = none := by
        rw [hid]
        exact hfresh
      dsimp only
      rw [hstore, Store.get_enroll hnone]
      split_ifs with ha
      · rw [← ha, hnone]
        exact .inr ⟨rfl, now, req, by rw [hid], congrArg some (enroll_hostname henroll)⟩
      · exact .inl rfl
  | setPendingCert =>
    refine .inl ?_
    simp only [Identity.step, hostname, Store.get_setPendingCert]
    split_ifs
    · rw [Option.map_map]
      rfl
    · rfl
  | get => exact .inl rfl
  | promote n =>
    refine .inl ?_
    rw [hostname, hostname]
    rcases Identity.promote_cases s n with h | ⟨r, agent, -, -, h⟩
    · exact congrArg (fun s => (Store.get s.store a).map Agent.hostname) h
    · show ((Identity.promote s n).store.get a).map Agent.hostname = _
      rw [h, Store.get_promoteCert]
      split_ifs
      · rw [Option.map_map]
        exact congrArg (fun f => Option.map f (s.store.get a))
          (funext fun agent => hostname_presented agent r.fingerprint)
      · rfl
  | heartbeat b now stats =>
    refine .inl ?_
    simp only [Identity.step, hostname]
    rcases Store.get_heartbeat s.store b a now stats with h | ⟨-, h⟩
    · rw [h]
    · rw [h, Option.map_map]
      rfl

theorem hostname_kept (hfresh : Identity.FreshID s e) (h : hostname s a = some host) :
    hostname (Identity.step s e) a = some host := by
  cases hostname_step hfresh a with
  | inl heq => exact heq.trans h
  | inr hnone => cases hnone.1.symm.trans h

theorem hostname_advance (env : Env) (c : Control) (st : Stream) (a : String) :
    hostname (advance env c st).1.identity a = hostname c.identity a :=
  congrArg (Option.map Agent.hostname) (get_advance env c st a)

/-! ## Reports that name their host -/

/-- If a report is received from an agent, it names the host the agent enrolled with. -/
def Honest (s : Identity.Service) : Recv → Prop
  | .report report => ∀ host ∈ hostname s report.agentID, report.hostname = host
  | .eof | .error => True

instance (s : Identity.Service) : (recv : Recv) → Decidable (Honest s recv)
  | .report report =>
    inferInstanceAs (Decidable (∀ host ∈ hostname s report.agentID, report.hostname = host))
  | .eof | .error => .isTrue trivial

def HonestReport (s : Fleet) : Event → Prop
  | .stream _ env => Honest s.control.identity env.recv
  | .identity _ | .connect _ => True

instance (s : Fleet) : (e : Event) → Decidable (HonestReport s e)
  | .stream _ env => inferInstanceAs (Decidable (Honest s.control.identity env.recv))
  | .identity _ | .connect _ => .isTrue trivial

structure Backed (minHosts : ℤ) (recorded : List AlertRecord) (signal : Signal) : Prop where
  nodup : signal.hosts.Nodup
  enough : minHosts ≤ signal.hosts.length
  reported : ∀ host ∈ signal.hosts, ∃ record ∈ recorded,
    record.hostname = host ∧ signal.kind.key record = signal.key

/-- The alerts name the hosts of their agents, and the correlator has seen nothing else. -/
structure NamesHosts (correlation : Option (ℤ × ℤ)) (c : Control) : Prop where
  recorded : ∀ record ∈ c.recorded, hostname c.identity record.agentID = some record.hostname
  observed : ∀ o ∈ c.observed, o.record ∈ c.recorded
  correlator : c.correlator = correlation.map fun p =>
    run (next Correlator.observe) (newCrossHost p.1 p.2) c.observed
  signalled : ∀ signal ∈ c.signalled, ∃ p ∈ correlation, Backed p.2 c.recorded signal

structure HonestStream (c : Control) (st : Stream) : Prop where
  agent : st.authorizedAgent ≠ "" → ∃ host, hostname c.identity st.authorizedAgent = some host
  authorizing : ∀ request report, st.phase = .authorizing request report →
    refused c.identity request = false →
    hostname c.identity report.agentID = some report.hostname
  recording : ∀ record, st.phase = .recording record →
    hostname c.identity record.agentID = some record.hostname
  correlating : ∀ record, st.phase = .correlating record → record ∈ c.recorded

theorem Backed.mono {minHosts : ℤ} {recorded recorded' : List AlertRecord} {signal : Signal}
    (h : Backed minHosts recorded signal) (hsub : recorded ⊆ recorded') :
    Backed minHosts recorded' signal :=
  { h with
    reported := fun host hhost => by
      obtain ⟨record, hrecord, hrest⟩ := h.reported host hhost
      exact ⟨record, hsub hrecord, hrest⟩ }

theorem HonestStream.mono {c' : Control} (h : HonestStream c st)
    (hhost : ∀ a host, hostname c.identity a = some host → hostname c'.identity a = some host)
    (hrefused : ∀ n, refused c.identity n = true → refused c'.identity n = true)
    (hsub : c.recorded ⊆ c'.recorded) : HonestStream c' st where
  agent hagent := by
    obtain ⟨host, h⟩ := h.agent hagent
    exact ⟨host, hhost _ host h⟩
  authorizing request report hphase hnot := by
    refine hhost _ _ (h.authorizing request report hphase ?_)
    cases hold : refused c.identity request with
    | true => exact absurd (hrefused request hold) (by simp [hnot])
    | false => rfl
  recording record hphase := hhost _ _ (h.recording record hphase)
  correlating record hphase := hsub (h.correlating record hphase)

theorem HonestStream.advance (h : HonestStream c st) (env : Env) (other : Stream) :
    HonestStream (advance env c other).1 st :=
  h.mono (fun a _ hhost => (hostname_advance env c other a).trans hhost)
    (fun _ => refused_advance env c other) (recorded_advance env c other)

/-! ## One step -/

theorem HonestStream.closed (h : HonestStream c st) (outcome : Outcome) :
    HonestStream c { st with phase := .closed outcome } where
  agent := h.agent
  authorizing _ _ hphase := by cases hphase
  recording _ hphase := by cases hphase
  correlating _ hphase := by cases hphase

theorem honest_receive (h : HonestStream c st) {recv : Recv} (hhonest : Honest c.identity recv) :
    HonestStream (receive c st recv).1 (receive c st recv).2 := by
  cases recv with
  | eof | error => exact h.closed _
  | report report =>
    dsimp only [receive]
    split_ifs with hnone hother
    · refine
        { agent := h.agent
          authorizing := fun request r hphase hnot => ?_
          recording := fun _ hphase => by cases hphase
          correlating := fun _ hphase => by cases hphase }
      cases hphase
      -- a check that is not refused has found the agent, so the report names its host
      obtain ⟨agent, hget⟩ := exists_agent_of_not_refused hnot
      have hhost : hostname c.identity report.agentID = some agent.hostname := by
        rw [hostname, hget, Option.map_some]
      exact hhost.trans (congrArg some (hhonest _ hhost).symm)
    · exact h.closed _
    · rw [not_ne_iff] at hother
      refine
        { agent := h.agent
          authorizing := fun _ _ hphase => by cases hphase
          recording := fun record hphase => ?_
          correlating := fun _ hphase => by cases hphase }
      cases hphase
      -- the agent of the stream is still enrolled
      obtain ⟨host, hhost⟩ := h.agent hnone
      rw [← hother] at hhost
      exact hhost.trans (congrArg some (hhonest host hhost).symm)

theorem honest_authorize (h : HonestStream c st) {request : ℕ} {report : AlertReport}
    (hphase : st.phase = .authorizing request report) :
    HonestStream c (authorize c st request report) := by
  rw [authorize]
  cases hr : c.identity.requests[request]? with
  | none => exact h
  | some r =>
    rw [Option.map_some]
    cases hv : r.verdict with
    | promoting => exact h
    | rejected => exact h.closed _
    | accepted agent =>
      have hhost : hostname c.identity report.agentID = some report.hostname :=
        h.authorizing request report hphase (by simp [refused, hr, hv])
      refine
        { agent := fun _ => ⟨_, hhost⟩
          authorizing := fun _ _ hphase => by cases hphase
          recording := fun record hphase => ?_
          correlating := fun _ hphase => by cases hphase }
      cases hphase
      exact hhost

theorem honest_advance (h : HonestStream c st) {env : Env} (hhonest : Honest c.identity env.recv) :
    HonestStream (advance env c st).1 (advance env c st).2 := by
  have hframe : HonestStream (Reports.advance env c st).1 st := h.advance env st
  rw [Reports.advance] at hframe ⊢
  cases hphase : st.phase with
  | receiving => exact honest_receive h hhonest
  | authorizing => exact honest_authorize h hphase
  | recording =>
    simp only [hphase] at hframe
    refine
      { agent := hframe.agent
        authorizing := fun _ _ hphase => by cases hphase
        recording := fun _ hphase => by cases hphase
        correlating := fun record hphase => ?_ }
    cases hphase
    exact mem_append_right _ (mem_singleton_self _)
  | correlating =>
    simp only [hphase] at hframe
    exact
      { agent := hframe.agent
        authorizing := fun _ _ hphase => by cases hphase
        recording := fun _ hphase => by cases hphase
        correlating := fun _ hphase => by cases hphase }
  | closed => exact h

section
variable {correlation : Option (ℤ × ℤ)} {c : Control}

theorem NamesHosts.setIdentity (h : NamesHosts correlation c) {identity : Identity.Service}
    (hhost : ∀ a host, hostname c.identity a = some host → hostname identity a = some host) :
    NamesHosts correlation { c with identity } :=
  { h with recorded := fun record hrecord => hhost _ _ (h.recorded record hrecord) }

theorem NamesHosts.record (h : NamesHosts correlation c) {alert : AlertRecord}
    (halert : hostname c.identity alert.agentID = some alert.hostname) (newID : String) :
    NamesHosts correlation (Reports.record c alert newID) where
  recorded record hrecord := by
    refine (congrArg (Option.map Agent.hostname) (Store.get_recordAlert _ _ _ _)).trans ?_
    cases mem_append.mp hrecord with
    | inl hrecord => exact h.recorded record hrecord
    | inr hrecord => exact mem_singleton.mp hrecord ▸ halert
  observed o ho := mem_append_left _ (h.observed o ho)
  correlator := h.correlator
  signalled signal hsignal := by
    obtain ⟨p, hp, hbacked⟩ := h.signalled signal hsignal
    exact ⟨p, hp, hbacked.mono (subset_append_left _ _)⟩

theorem backed_observe {window minHosts : ℤ} {recorded : List AlertRecord} {pre : List Observation}
    {o : Observation} (hrecorded : ∀ o' ∈ pre ++ [o], o'.record ∈ recorded) {signal : Signal}
    (h : signal ∈ ((run (next Correlator.observe) (newCrossHost window minHosts) pre).observe o).2) :
    Backed minHosts recorded signal := by
  have hwell := CrossHost.wellFormed_observe window minHosts pre o h
  refine ⟨hwell.sorted.imp ne_of_lt, hwell.enough, fun host hhost => ?_⟩
  obtain ⟨o', ho', htouches, hname, -⟩ := hwell.recent host hhost
  exact ⟨o'.record, hrecorded o' ho', hname, (of_decide_eq_true htouches).2⟩

theorem NamesHosts.correlate (h : NamesHosts correlation c) {alert : AlertRecord}
    (halert : alert ∈ c.recorded) (now : Model.Time) :
    NamesHosts correlation (Reports.correlate c alert now) := by
  rw [Reports.correlate, h.correlator]
  cases correlation with
  | none => exact h
  | some p =>
    have hobserved : ∀ o ∈ c.observed ++ [{ record := alert, clock := now }],
        o.record ∈ c.recorded := by
      intro o ho
      cases mem_append.mp ho with
      | inl ho => exact h.observed o ho
      | inr ho => exact mem_singleton.mp ho ▸ halert
    have hrun : run (next Correlator.observe) (newCrossHost p.1 p.2)
        (c.observed ++ [{ record := alert, clock := now }]) =
          ((run (next Correlator.observe) (newCrossHost p.1 p.2) c.observed).observe
            { record := alert, clock := now }).1 := Runs.run_concat _ _ _
    refine ⟨h.recorded, hobserved, congrArg some hrun.symm, fun signal hsignal => ?_⟩
    · cases mem_append.mp hsignal with
      | inl hsignal => exact h.signalled signal hsignal
      | inr hsignal => exact ⟨p, rfl, backed_observe hobserved hsignal⟩

theorem NamesHosts.advance (h : NamesHosts correlation c) (hst : HonestStream c st) (env : Env) :
    NamesHosts correlation (advance env c st).1 := by
  rcases control_advance env c st with hc | ⟨report, hc⟩ | ⟨alert, hphase, hc⟩ | ⟨alert, hphase, hc⟩
  · rwa [hc]
  · rw [hc]
    exact h.setIdentity fun a host hhost => hhost
  · rw [hc]
    exact h.record (hst.recording alert hphase) env.newID
  · rw [hc]
    exact h.correlate (hst.correlating alert hphase) env.now

end

theorem names_hosts_step {s : Fleet} {e : Event} (hfresh : FreshID s e) (hhonest : HonestReport s e)
    (hnames : NamesHosts correlation s.control)
    (hstreams : ∀ st ∈ s.streams, HonestStream s.control st) :
    NamesHosts correlation (step s e).control ∧
      ∀ st ∈ (step s e).streams, HonestStream (step s e).control st := by
  cases e with
  | identity e =>
    have hhost : ∀ a host, hostname s.control.identity a = some host →
        hostname (Identity.step s.control.identity e) a = some host :=
      fun a host => hostname_kept hfresh
    refine ⟨hnames.setIdentity hhost, fun st hst => ?_⟩
    exact (hstreams st hst).mono hhost (fun n => refused_step e) (List.Subset.refl _)
  | connect =>
    refine ⟨hnames, Pool.forall_mem_spawn hstreams ?_⟩
    exact
      { agent := fun h => absurd rfl h
        authorizing := fun _ _ hphase => by cases hphase
        recording := fun _ hphase => by cases hphase
        correlating := fun _ hphase => by cases hphase }
  | stream n env =>
    refine Pool.advanceAt_interference hnames hstreams fun st _ hst => ?_
    exact ⟨hnames.advance hst env, honest_advance hst hhonest, fun u hu => hu.advance env st⟩

theorem names_hosts_start (backend : Backend) (token : String) (correlation : Option (ℤ × ℤ)) :
    NamesHosts correlation (start backend token correlation).control where
  recorded _ hrecord := absurd hrecord not_mem_nil
  observed _ ho := absurd ho not_mem_nil
  correlator := rfl
  signalled _ hsignal := absurd hsignal not_mem_nil

theorem hostname_stream (s : Fleet) (n : ℕ) (env : Env) (a : String) :
    hostname (step s (.stream n env)).control.identity a = hostname s.control.identity a := by
  simp only [step, Pool.advanceAt]
  cases s.streams[n]? with
  | none => rfl
  | some st => exact hostname_advance env s.control st a

/-! ## Every run -/

theorem enrolled_of_hostname {backend : Backend} {es : List Event}
    (hfresh : AllSteps step FreshID (start backend token correlation) es)
    (h : hostname (run step (start backend token correlation) es).control.identity a = some host) :
    ∃ now req, .identity (.enroll a now req) ∈ es ∧ req.hostname = host := by
  induction es using List.reverseRecOn with
  | nil =>
    rw [Runs.run_nil, hostname, start, Identity.start, Store.get_new] at h
    cases h
  | append_singleton es e ih =>
    obtain ⟨hes, he⟩ := AllSteps.concat_iff.mp hfresh
    rw [Runs.run_concat] at h
    -- the agent had its host name before, unless this event enrolled it
    have hbefore : hostname (run step (start backend token correlation) es).control.identity a =
          some host ∨ ∃ now req, e = .identity (.enroll a now req) ∧ req.hostname = host := by
      cases e with
      | identity =>
        cases hostname_step he a with
        | inl heq => exact .inl (heq.symm.trans h)
        | inr hnew =>
          obtain ⟨-, now, req, rfl, hname⟩ := hnew
          exact .inr ⟨now, req, rfl, Option.some.inj (hname.symm.trans h)⟩
      | connect => exact .inl h
      | stream n env => exact .inl ((hostname_stream _ n env a).symm.trans h)
    cases hbefore with
    | inl hbefore =>
      obtain ⟨now, req, hmem, hname⟩ := ih hes hbefore
      exact ⟨now, req, mem_append_left _ hmem, hname⟩
    | inr hnow =>
      obtain ⟨now, req, rfl, hname⟩ := hnow
      exact ⟨now, req, mem_append_right _ (mem_singleton_self _), hname⟩

/-- If every report names the host its agent enrolled with, every alert does, and every signal names
enough hosts, each of an enrolled agent that has reported an alert for its key. -/
theorem alerts_name_enrolled_host (backend : Backend) (token : String)
    (correlation : Option (ℤ × ℤ)) {es : List Event}
    (hfresh : AllSteps step FreshID (start backend token correlation) es)
    (hhonest : AllSteps step HonestReport (start backend token correlation) es) :
    let c := (run step (start backend token correlation) es).control
    (∀ a host, hostname c.identity a = some host →
        ∃ now req, .identity (.enroll a now req) ∈ es ∧ req.hostname = host) ∧
      (∀ record ∈ c.recorded, hostname c.identity record.agentID = some record.hostname) ∧
      ∀ signal ∈ c.signalled, ∃ window minHosts, correlation = some (window, minHosts) ∧
        minHosts ≤ signal.hosts.length ∧ signal.hosts.Nodup ∧
        ∀ host ∈ signal.hosts, ∃ record ∈ c.recorded, signal.kind.key record = signal.key ∧
          record.hostname = host ∧ hostname c.identity record.agentID = some host := by
  obtain ⟨hnames, -⟩ := (hfresh.and hhonest).invariant
    (I := fun s => NamesHosts correlation s.control ∧ ∀ st ∈ s.streams, HonestStream s.control st)
    ⟨names_hosts_start backend token correlation, fun st hst => absurd hst not_mem_nil⟩
    fun s e h he => names_hosts_step he.1 he.2 h.1 h.2
  refine ⟨fun a host => enrolled_of_hostname hfresh, hnames.recorded, fun signal hsignal => ?_⟩
  obtain ⟨p, hp, hbacked⟩ := hnames.signalled signal hsignal
  refine ⟨p.1, p.2, hp, hbacked.enough, hbacked.nodup, fun host hhost => ?_⟩
  obtain ⟨record, hrecord, rfl, hkey⟩ := hbacked.reported host hhost
  exact ⟨record, hrecord, hkey, rfl, hnames.recorded record hrecord⟩

/-- Two agents that report the same technique, each for its own host. -/
def lateralMovement : List Event :=
  [.identity (.enroll "A" 1 { hostname := "web-01", peerFingerprint := "a" }),
   .identity (.enroll "B" 1 { hostname := "db-01", peerFingerprint := "b" }),
   .connect "a", .connect "b",
   .stream 0 { recv := .report { agentID := "A", hostname := "web-01", techniqueID := "T1021" } },
   .stream 1 { recv := .report { agentID := "B", hostname := "db-01", techniqueID := "T1021" } },
   .stream 0 {}, .stream 1 {}, .stream 0 { newID := "1" }, .stream 1 { newID := "2" },
   .stream 0 { now := 5 }, .stream 1 { now := 6 }]

theorem alerts_name_enrolled_host_lateral :
    let c := (run step (start .memory "" (some (10, 2))) lateralMovement).control
    AllSteps step FreshID (start .memory "" (some (10, 2))) lateralMovement ∧
      AllSteps step HonestReport (start .memory "" (some (10, 2))) lateralMovement ∧
      c.signalled.map Signal.hosts = [["db-01", "web-01"]] ∧
      ∀ record ∈ c.recorded, hostname c.identity record.agentID = some record.hostname := by
  have hfresh : AllSteps step FreshID (start .memory "" (some (10, 2))) lateralMovement := by
    decide +kernel
  have hhonest : AllSteps step HonestReport (start .memory "" (some (10, 2))) lateralMovement := by
    decide +kernel
  exact ⟨hfresh, hhonest, by decide +kernel,
    (alerts_name_enrolled_host .memory "" (some (10, 2)) hfresh hhonest).2.1⟩

def forgedHost : List Event :=
  [.identity (.enroll "A" 1 { hostname := "web-01", peerFingerprint := "a" }), .connect "a",
   .stream 0 { recv := .report { agentID := "A", hostname := "db-01", techniqueID := "T1021" } },
   .stream 0 {}, .stream 0 { newID := "1" }, .stream 0 { now := 5 },
   .stream 0 { recv := .report { agentID := "A", hostname := "web-01", techniqueID := "T1021" } },
   .stream 0 { newID := "2" }, .stream 0 { now := 6 }]

/-- An alert and a signal name a host that no agent enrolled with. -/
theorem forged_host_recorded :
    let c := (run step (start .memory "" (some (10, 2))) forgedHost).control
    AllSteps step FreshID (start .memory "" (some (10, 2))) forgedHost ∧
      c.recorded.map (fun record => (record.agentID, record.hostname)) =
        [("A", "db-01"), ("A", "web-01")] ∧
      c.identity.store.list.map (fun agent => (agent.id, agent.hostname)) = [("A", "web-01")] ∧
      c.signalled.map Signal.hosts = [["db-01", "web-01"]] ∧
      ¬∀ record ∈ c.recorded, hostname c.identity record.agentID = some record.hostname := by
  decide +kernel

end ArgusEdr.Reports
