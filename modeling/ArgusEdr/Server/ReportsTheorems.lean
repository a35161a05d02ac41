import ArgusEdr.Server.IdentityTheorems
import ArgusEdr.Server.Reports

/-!
# The certificates alerts come with

A stream is checked once and then lives on, while the certificates of its agent are rotated. `Sound` is
what it keeps as long as no rotation takes its certificate from its agent. So every alert is recorded for
an agent that has the certificate of the connection, if no rotation does that to a stream that is open
and every agent enrolls with a certificate (`alerts_authentic`).
-/

namespace ArgusEdr.Reports

open Runs (run AllSteps)
open Store (Agent Backend)

/-! ## The certificate of a stream -/

def refused (s : Identity.Service) (request : ℕ) : Bool :=
  match s.requests[request]? with
  | none => false
  | some r => r.verdict matches .rejected _

/-- The agent a stream may still record alerts of: that of its reports, or of the first report as
long as it is not refused. -/
def Stream.agent (c : Control) (st : Stream) : Option String :=
  match st.phase with
  | .receiving | .correlating _ =>
    if st.authorizedAgent = "" then none else some st.authorizedAgent
  | .authorizing request report =>
    if refused c.identity request then none else some report.agentID
  | .recording record => some record.agentID
  | .closed _ => none

/-- The event takes the fingerprint `f` from the agent `a`: it promotes another one that is pending,
or it stages another one before `f` is the current one. -/
def retires (s : Identity.Service) (a f : String) : Identity.Event → Bool
  | .promote n =>
    match s.requests[n]? with
    | none => false
    | some r =>
      (r.verdict matches .promoting _) && r.agentID = a && r.fingerprint ≠ f &&
        (s.slot a).any fun c => c.pending = r.fingerprint
  | .setPendingCert b g => b = a && g ≠ f && (s.slot a).any fun c => c.current ≠ f
  | .enroll .. | .get .. | .heartbeat .. => false

def undisturbed (s : Fleet) : Event → Bool
  | .identity e =>
    s.streams.all fun st =>
      (st.agent s.control).all fun a => !retires s.control.identity a st.fingerprint e
  | .connect _ | .stream .. => true

/-- If the event records an alert, it came over a connection with the current or the pending
certificate of its agent. -/
def authentic (s : Fleet) : Event → Bool
  | .stream n _ =>
    match s.streams[n]? with
    | none => true
    | some st =>
      match st.phase with
      | .recording record => s.control.identity.holds record.agentID st.fingerprint
      | .receiving | .authorizing .. | .correlating _ | .closed _ => true
  | .identity _ | .connect _ => true

variable {s : Identity.Service} {n : ℕ} {a f : String} {c c' : Control} {st : Stream}

theorem refused_iff : refused s n = true ↔ s.Refused n := by
  rw [refused, Identity.Service.Refused]
  cases s.requests[n]? with
  | none => simp
  | some r =>
    cases hv : r.verdict <;> simp [hv]

/-! ### One step of the identities -/

theorem holds_iff :
    s.holds a f = true ↔ ∃ c, s.slot a = some c ∧ (c.current = f ∨ c.pending = f) := by
  rw [Identity.Service.holds, Option.any_eq_true]
  simp

theorem holds_promote (hkeep : retires s a f (.promote n) = false) (h : s.holds a f = true) :
    (Identity.step s (.promote n)).holds a f = true := by
  obtain ⟨c, hc, hor⟩ := holds_iff.mp h
  obtain ⟨agent, hget, rfl⟩ := Identity.slot_eq_some hc
  rw [holds_iff]
  show ∃ c, ((Identity.promote s n).store.get a).map Identity.slotOf = some c ∧ _
  rcases Identity.promote_cases s n with hstore | ⟨r, b, hr, hv, hstore⟩
  · rw [hstore]
    exact ⟨_, hc, hor⟩
  · rw [hstore, Store.get_promoteCert]
    by_cases ha : r.agentID = a
    · rw [if_pos ha, hget, Option.map_some, Option.map_some, Identity.slotOf_presented]
      refine ⟨_, rfl, ?_⟩
      split_ifs with hp
      · -- the pending fingerprint is promoted, so it is not another one than `f`
        simp only [Agent.promotable, Bool.and_eq_true, decide_eq_true_eq] at hp
        refine .inl ?_
        by_contra hne
        have hretires : retires s a f (.promote n) = true := by
          simp [retires, hr, hv, ha, hc, Identity.slotOf, hp.2, hp.2 ▸ hne]
        rw [hkeep] at hretires
        exact Bool.false_ne_true hretires
      · exact hor
    · rw [if_neg ha]
      exact ⟨_, hc, hor⟩

theorem holds_step {e : Identity.Event} (hfresh : Identity.FreshID s e)
    (hkeep : retires s a f e = false) (h : s.holds a f = true) :
    (Identity.step s e).holds a f = true := by
  obtain ⟨c, hc, hor⟩ := holds_iff.mp h
  obtain ⟨d, hd, hstep⟩ := Identity.slotStep_of_slot hfresh hc
  cases hstep with
  | unchanged => exact holds_iff.mpr ⟨c, hd, hor⟩
  | staged _ g hg =>
    subst hg
    refine holds_iff.mpr ⟨_, hd, ?_⟩
    by_contra hnot
    rw [not_or] at hnot
    have hretires : retires s a f (.setPendingCert a g) = true := by
      simp [retires, hc, hnot.1, hnot.2]
    exact Bool.false_ne_true (hkeep.symm.trans hretires)
  | promoted _ n hn _ =>
    subst hn
    exact holds_promote hkeep h

theorem refused_step (e : Identity.Event) (h : refused s n = true) :
    refused (Identity.step s e) n = true :=
  refused_iff.mpr (Identity.step_refused e (refused_iff.mp h))

def Certified (c : Control) : Prop := ∀ a slot, c.identity.slot a = some slot → slot.current ≠ ""

theorem admits_of_not_refused
    (h : refused (Identity.step s (.get a f)) s.requests.length = false) :
    Identity.Admits s a f := by
  intro status hv
  have hrefused : (Identity.step s (.get a f)).Refused s.requests.length :=
    ⟨_, status, Identity.step_get_requests s a f, hv⟩
  rw [← refused_iff, h] at hrefused
  exact Bool.false_ne_true hrefused

theorem exists_agent_of_not_refused
    (h : refused (Identity.step s (.get a f)) s.requests.length = false) :
    ∃ agent, s.store.get a = some agent := by
  obtain ⟨slot, hslot, -⟩ := (Identity.admits_iff _ _ _).mp (admits_of_not_refused h)
  obtain ⟨agent, hget, -⟩ := Identity.slot_eq_some hslot
  exact ⟨agent, hget⟩

theorem holds_of_not_refused (hcert : Certified c)
    (h : refused (Identity.step c.identity (.get a f)) c.identity.requests.length = false) :
    c.identity.holds a f = true := by
  obtain ⟨slot, hslot, hor⟩ := (Identity.admits_iff _ _ _).mp (admits_of_not_refused h)
  refine holds_iff.mpr ⟨slot, hslot, ?_⟩
  rcases hor with hempty | hcurrent | hpending
  · exact absurd hempty (hcert a slot hslot)
  · exact .inl hcurrent.symm
  · exact .inr hpending.2.symm

/-! ### One step of a stream -/

structure Sound (c : Control) (st : Stream) : Prop where
  holds : ∀ a, st.agent c = some a → c.identity.holds a st.fingerprint = true
  recording : ∀ record, st.phase = .recording record → st.authorizedAgent = record.agentID

section Advance
variable (env : Env) (c : Control) (st : Stream)

theorem correlate_identity (alert : Store.AlertRecord) (now : Model.Time) :
    (correlate c alert now).identity = c.identity := by
  dsimp only [correlate]
  cases c.correlator <;> rfl

theorem correlate_recorded (alert : Store.AlertRecord) (now : Model.Time) :
    (correlate c alert now).recorded = c.recorded := by
  dsimp only [correlate]
  cases c.correlator <;> rfl

/-- What a step of a stream does to the shared state: nothing, the `Get` of an identity check,
recording an alert, or correlating one. -/
theorem control_advance :
    (advance env c st).1 = c ∨
      (∃ report : AlertReport, (advance env c st).1 =
        { c with identity := Identity.step c.identity (.get report.agentID st.fingerprint) }) ∨
      (∃ alert, st.phase = .recording alert ∧ (advance env c st).1 = record c alert env.newID) ∨
      ∃ alert, st.phase = .correlating alert ∧ (advance env c st).1 = correlate c alert env.now := by
  rw [advance]
  cases st.phase with
  | receiving =>
    cases env.recv with
    | eof | error => exact .inl rfl
    | report report =>
      dsimp only [receive]
      split_ifs
      · exact .inr (.inl ⟨report, rfl⟩)
      all_goals exact .inl rfl
  | authorizing => exact .inl rfl
  | recording alert => exact .inr (.inr (.inl ⟨alert, rfl, rfl⟩))
  | correlating alert => exact .inr (.inr (.inr ⟨alert, rfl, rfl⟩))
  | closed => exact .inl rfl

theorem get_advance (a : String) :
    (advance env c st).1.identity.store.get a = c.identity.store.get a := by
  rcases control_advance env c st with h | ⟨report, h⟩ | ⟨alert, -, h⟩ | ⟨alert, -, h⟩
  · rw [h]
  · rw [h]
    rfl
  · rw [h]
    exact Store.get_recordAlert _ _ _ _
  · rw [h, correlate_identity]

theorem slot_advance (a : String) :
    (advance env c st).1.identity.slot a = c.identity.slot a :=
  congrArg (Option.map Identity.slotOf) (get_advance env c st a)

theorem holds_advance (a f : String) :
    (advance env c st).1.identity.holds a f = c.identity.holds a f := by
  rw [Identity.Service.holds, Identity.Service.holds, slot_advance]

theorem refused_advance (h : refused c.identity n = true) :
    refused (advance env c st).1.identity n = true := by
  rcases control_advance env c st with hc | ⟨report, hc⟩ | ⟨alert, -, hc⟩ | ⟨alert, -, hc⟩
  · rwa [hc]
  · rw [hc]
    exact refused_step _ h
  · rw [hc]
    exact h
  · rwa [hc, correlate_identity]

theorem recorded_advance : c.recorded ⊆ (advance env c st).1.recorded := by
  rcases control_advance env c st with h | ⟨report, h⟩ | ⟨alert, -, h⟩ | ⟨alert, -, h⟩
  · rw [h]
    exact List.Subset.refl _
  · rw [h]
    exact List.Subset.refl _
  · rw [h]
    exact List.subset_append_left _ _
  · rw [h, correlate_recorded]
    exact List.Subset.refl _

end Advance

theorem agent_of_agent (hrefused : ∀ n, refused c.identity n = true → refused c'.identity n = true)
    (h : st.agent c' = some a) : st.agent c = some a := by
  rw [Stream.agent] at h ⊢
  cases hphase : st.phase with
  | authorizing request report =>
    simp only [hphase] at h ⊢
    cases hold : refused c.identity request with
    | true =>
      rw [hrefused request hold] at h
      exact h
    | false =>
      rw [if_neg Bool.false_ne_true]
      split at h
      · cases h
      · exact h
  | receiving | correlating | recording | closed =>
    simp only [hphase] at h ⊢
    exact h

theorem Sound.of_refused (h : Sound c st)
    (hrefused : ∀ n, refused c.identity n = true → refused c'.identity n = true)
    (hholds : ∀ a, st.agent c = some a → c.identity.holds a st.fingerprint = true →
      c'.identity.holds a st.fingerprint = true) : Sound c' st where
  holds a ha := by
    have hagent := agent_of_agent hrefused ha
    exact hholds a hagent (h.holds a hagent)
  recording := h.recording

theorem sound_closed (c : Control) (st : Stream) (outcome : Outcome) :
    Sound c { st with phase := .closed outcome } where
  holds _ ha := nomatch ha
  recording _ hrecord := nomatch hrecord

theorem sound_receive (hcert : Certified c) (h : Sound c st) (hphase : st.phase = .receiving)
    (recv : Recv) : Sound (receive c st recv).1 (receive c st recv).2 := by
  cases recv with
  | eof | error => exact sound_closed c st _
  | report report =>
    dsimp only [receive]
    split_ifs with hnone hother
    · -- the first report: the check has just looked the fingerprint up
      refine ⟨fun a ha => ?_, fun record hrecord => by cases hrecord⟩
      simp only [Stream.agent] at ha
      split at ha
      · cases ha
      · next hrefused =>
        cases ha
        rw [Bool.not_eq_true] at hrefused
        have hholds := holds_of_not_refused hcert hrefused
        exact hholds
    · exact sound_closed c st _
    · -- a later report, which names the agent of the stream
      rw [not_ne_iff] at hother
      have hagent : st.agent c = some report.agentID := by
        rw [Stream.agent, hphase, hother]
        exact if_neg hnone
      refine ⟨fun a ha => ?_, fun record hrecord => ?_⟩
      · cases ha
        exact h.holds _ hagent
      · cases hrecord
        exact hother.symm

theorem sound_authorize (h : Sound c st) {request : ℕ} {report : AlertReport}
    (hphase : st.phase = .authorizing request report) :
    Sound c (authorize c st request report) := by
  rw [authorize]
  cases hr : c.identity.requests[request]? with
  | none => exact h
  | some r =>
    rw [Option.map_some]
    cases hv : r.verdict with
    | promoting => exact h
    | rejected => exact sound_closed c st _
    | accepted =>
      have hagent : st.agent c = some report.agentID := by
        simp [Stream.agent, hphase, refused, hr, hv]
      refine ⟨fun a ha => ?_, fun record hrecord => ?_⟩
      · cases ha
        exact h.holds _ hagent
      · cases hrecord
        rfl

theorem sound_advance (env : Env) (hcert : Certified c) (h : Sound c st) :
    Sound (advance env c st).1 (advance env c st).2 := by
  have hframe : Sound (advance env c st).1 st := h.of_refused (fun n => refused_advance env c st)
    fun a _ hholds => (holds_advance env c st a st.fingerprint).trans hholds
  rw [advance] at hframe ⊢
  cases hphase : st.phase with
  | receiving => exact sound_receive hcert h hphase env.recv
  | authorizing => exact sound_authorize h hphase
  | recording alert =>
    simp only [hphase] at hframe
    refine ⟨fun a ha => hframe.holds a ?_, fun record hrecord => by cases hrecord⟩
    -- the agent of the stream is that of the alert
    simp only [Stream.agent] at ha
    split at ha
    · cases ha
    · rw [Stream.agent, hphase, ← ha, h.recording alert hphase]
  | correlating =>
    simp only [hphase] at hframe
    refine ⟨fun a ha => hframe.holds a ?_, fun record hrecord => by cases hrecord⟩
    rw [Stream.agent, hphase]
    exact ha
  | closed => exact h

/-! ### Every run -/

theorem certified_step {s : Fleet} {e : Event} (hfresh : FreshID s e)
    (henroll : ∀ id now req, e = .identity (.enroll id now req) → req.peerFingerprint ≠ "")
    (h : Certified s.control) : Certified (step s e).control := by
  intro a slot hslot
  cases e with
  | identity e =>
    have hstep := Identity.slotStep_step hfresh a
    change (Identity.step s.control.identity e).slot a = some slot at hslot
    rw [hslot] at hstep
    cases hold : s.control.identity.slot a with
    | none =>
      rw [hold] at hstep
      cases hstep with
      | enrolled now req he => exact henroll a now req (he ▸ rfl)
    | some c =>
      rw [hold] at hstep
      exact Identity.slotStep_current_ne_empty hstep (h a c hold)
  | connect => exact h a slot hslot
  | stream n env =>
    simp only [step, Pool.advanceAt] at hslot
    cases hn : s.streams[n]? with
    | none =>
      rw [hn] at hslot
      exact h a slot hslot
    | some st =>
      rw [hn] at hslot
      exact h a slot ((slot_advance env s.control st a).symm.trans hslot)

theorem sound_step {s : Fleet} {e : Event} (hfresh : FreshID s e) (hund : undisturbed s e = true)
    (hcert : Certified s.control) (h : ∀ st ∈ s.streams, Sound s.control st) :
    ∀ st ∈ (step s e).streams, Sound (step s e).control st := by
  cases e with
  | identity e =>
    intro st hst
    refine (h st hst).of_refused (fun n => refused_step e) fun a ha hholds => ?_
    refine holds_step hfresh ?_ hholds
    have hall := List.all_eq_true.mp hund st hst
    rw [ha] at hall
    simpa using hall
  | connect =>
    refine Pool.forall_mem_spawn h ⟨fun a ha => ?_, fun record hrecord => by cases hrecord⟩
    simp [Stream.agent] at ha
  | stream n env =>
    refine (Pool.advanceAt_interference (I := Certified) hcert h ?_).2
    intro st _ hst
    refine ⟨fun a slot hslot => hcert a slot ?_, sound_advance env hcert hst, fun u hu => ?_⟩
    · exact (slot_advance env s.control st a).symm.trans hslot
    · exact hu.of_refused (fun n => refused_advance env s.control st)
        fun a _ hholds => (holds_advance env s.control st a u.fingerprint).trans hholds

theorem authentic_of_sound {s : Fleet} (h : ∀ st ∈ s.streams, Sound s.control st) (e : Event) :
    authentic s e = true := by
  cases e with
  | identity | connect => rfl
  | stream n env =>
    rw [authentic]
    cases hn : s.streams[n]? with
    | none => rfl
    | some st =>
      dsimp only
      cases hphase : st.phase with
      | recording record =>
        refine (h st (List.mem_of_getElem? hn)).holds record.agentID ?_
        rw [Stream.agent, hphase]
      | receiving | authorizing | correlating | closed => rfl

/-- If every agent enrolls with a certificate and no certificate is taken from an agent while a
stream that was opened with it is, every alert comes over a connection with a certificate its agent
has when the alert is recorded. -/
theorem alerts_authentic (backend : Backend) (token : String) (correlation : Option (ℤ × ℤ))
    {es : List Event} (hfresh : AllSteps step FreshID (start backend token correlation) es)
    (henroll : ∀ id now req, .identity (.enroll id now req) ∈ es → req.peerFingerprint ≠ "")
    (hund : AllSteps step (fun s e => undisturbed s e = true) (start backend token correlation) es) :
    AllSteps step (fun s e => authentic s e = true) (start backend token correlation) es := by
  have hsteps := (hfresh.and hund).and_forall (R := fun e => ∀ id now req,
    e = .identity (.enroll id now req) → req.peerFingerprint ≠ "")
    fun e he id now req heq => henroll id now req (heq ▸ he)
  -- the invariant: all agents have a certificate, and every stream one of its agent
  refine hsteps.of_invariant
    (I := fun s => Certified s.control ∧ ∀ st ∈ s.streams, Sound s.control st) ⟨?_, ?_⟩ ?_ ?_
  · intro a slot hslot
    rw [start, Identity.slot_start] at hslot
    cases hslot
  · exact fun st hst => absurd hst List.not_mem_nil
  · rintro s e ⟨hcert, hsound⟩ ⟨⟨hfresh, hund⟩, henroll⟩
    exact ⟨certified_step hfresh henroll hcert, sound_step hfresh hund hcert hsound⟩
  · exact fun s e h _ => authentic_of_sound h.2 e

/-- A stream that presents the staged certificate, which its own check promotes. -/
def ownRotation : List Event :=
  [.identity (.enroll "A" 1 { hostname := "web-01", peerFingerprint := "old" }),
   .identity (.setPendingCert "A" "new"), .connect "new",
   .stream 0 { recv := .report { agentID := "A" } }, .identity (.promote 0), .stream 0 {},
   .stream 0 { newID := "1" }]

theorem alerts_authentic_ownRotation :
    AllSteps step FreshID (start .sqlite "" none) ownRotation ∧
      AllSteps step (fun s e => undisturbed s e = true) (start .sqlite "" none) ownRotation ∧
      (run step (start .sqlite "" none) ownRotation).control.recorded.map (·.agentID) = ["A"] ∧
      AllSteps step (fun s e => authentic s e = true) (start .sqlite "" none) ownRotation := by
  have hfresh : AllSteps step FreshID (start .sqlite "" none) ownRotation := by decide +kernel
  have hund : AllSteps step (fun s e => undisturbed s e = true) (start .sqlite "" none)
      ownRotation := by decide +kernel
  refine ⟨hfresh, hund, by decide +kernel, alerts_authentic .sqlite "" none hfresh ?_ hund⟩
  intro id now req hmem
  obtain ⟨-, -, rfl⟩ : id = "A" ∧ now = 1 ∧
      req = { hostname := "web-01", peerFingerprint := "old" } := by simpa [ownRotation] using hmem
  decide

/-- A rotation that another connection completes while a stream with the old certificate is open. -/
def rotatedAway : List Event :=
  [.identity (.enroll "A" 1 { hostname := "web-01", peerFingerprint := "old" }),
   .identity (.setPendingCert "A" "new"), .connect "old",
   .stream 0 { recv := .report { agentID := "A" } }, .stream 0 {}, .stream 0 { newID := "1" },
   .stream 0 {}, .identity (.get "A" "new"), .identity (.promote 1),
   .stream 0 { recv := .report { agentID := "A" } }, .stream 0 { newID := "2" }]

/-- The stream goes on recording alerts with a certificate that is not accepted any more. -/
theorem retired_certificate_records :
    AllSteps step FreshID (start .memory "" none) rotatedAway ∧
      (run step (start .memory "" none) rotatedAway).control.recorded.map (·.agentID) =
        ["A", "A"] ∧
      (run step (start .memory "" none) rotatedAway).control.identity.slot "A" =
        some { current := "new", pending := "" } ∧
      ¬AllSteps step (fun s e => authentic s e = true) (start .memory "" none) rotatedAway := by
  decide +kernel

end ArgusEdr.Reports
