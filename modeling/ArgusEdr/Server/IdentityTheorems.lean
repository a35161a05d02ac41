import ArgusEdr.Server.Identity
import ArgusEdr.Server.StoreTheorems

/-!
# Certificate rotation under every interleaving

An agent's identity is a slot: the current fingerprint and the pending one. `SlotStep` says
what one step of the service can do to the slot of an agent, and `slotStep_step` that it does
nothing else, over either store. Everything below is read off it.
-/

namespace ArgusEdr.Identity

open Runs List
open Store (Agent Stats Backend)

/-! ## The slot of an agent -/

/-- The two fingerprints an agent may authenticate with; an empty pending one is none. -/
structure Slot where
  current : String
  pending : String
deriving Repr, DecidableEq

def slotOf (agent : Agent) : Slot where
  current := agent.certFingerprint
  pending := agent.pendingCertFingerprint

def Service.slot (s : Service) (a : String) : Option Slot := (s.store.get a).map slotOf

variable {s : Service} {a token id g f : String} {c : Slot} {now : Model.Time} {req : EnrollRequest}
  {agent : Agent} {e : Event} {es : List Event} {n : ℕ} {r : Request}

theorem slot_eq_some (h : s.slot a = some c) :
    ∃ agent, s.store.get a = some agent ∧ slotOf agent = c :=
  Option.map_eq_some_iff.mp h

/-- What one step can do to the slot of agent `a`. -/
inductive SlotStep (a : String) (e : Event) : Option Slot → Option Slot → Prop
  | unchanged (c : Option Slot) : SlotStep a e c c
  | enrolled (now : Model.Time) (req : EnrollRequest) (he : e = .enroll a now req) :
      SlotStep a e none (some { current := req.peerFingerprint, pending := "" })
  | staged (c : Slot) (f : String) (he : e = .setPendingCert a f) :
      SlotStep a e (some c) (some { c with pending := f })
  | promoted (c : Slot) (n : ℕ) (he : e = .promote n) (hne : c.pending ≠ "") :
      SlotStep a e (some c) (some { current := c.pending, pending := "" })

theorem slotOf_presented (agent : Agent) (f : String) :
    slotOf (agent.presented f) =
      if agent.promotable f then { current := agent.pendingCertFingerprint, pending := "" }
      else slotOf agent := by
  unfold Agent.presented
  split_ifs with h
  · simp only [Agent.promotable, Bool.and_eq_true, decide_eq_true_eq] at h
    simp [slotOf, Agent.promote, h.2]
  · rfl

/-- The promotion step of a request does nothing unless the request is to promote; then it is a
`PromoteCert`, and the request is accepted. -/
theorem promote_cases (s : Service) (n : ℕ) :
    promote s n = s ∨
      ∃ r agent, s.requests[n]? = some r ∧ r.verdict = .promoting agent ∧
        promote s n =
          { s with
            store := (s.store.promoteCert r.agentID r.fingerprint).1
            requests :=
              s.requests.set n { r with verdict := .accepted (agent.promote r.fingerprint) } } := by
  unfold promote
  cases hr : s.requests[n]? with
  | none => exact Or.inl rfl
  | some r =>
    dsimp only
    cases hv : r.verdict with
    | accepted => exact Or.inl rfl
    | promoting agent => exact Or.inr ⟨r, agent, rfl, hv, rfl⟩
    | rejected => exact Or.inl rfl

theorem enroll_store {st st' : Store} (h : enroll token st id now req = .ok (st', agent)) :
    st' = st.enroll agent ∧ agent.id = id ∧
      slotOf agent = { current := req.peerFingerprint, pending := "" } := by
  unfold enroll at h
  split_ifs at h
  cases h
  exact ⟨rfl, rfl, rfl⟩

theorem slotStep_enroll (hfresh : s.store.get id = none) (a : String) :
    SlotStep a (.enroll id now req) (s.slot a) ((step s (.enroll id now req)).slot a) := by
  simp only [step]
  cases henroll : enroll s.token s.store id now req with
  | error => exact .unchanged _
  | ok p =>
    obtain ⟨hstore, hid, hslot⟩ := enroll_store henroll
    have hnone : s.store.get p.2.id = none := by
      rw [hid]
      exact hfresh
    show SlotStep a _ ((s.store.get a).map slotOf) ((p.1.get a).map slotOf)
    rw [hstore, Store.get_enroll hnone]
    -- the drawn id is fresh, so the slot of `a` is new or not concerned
    split_ifs with ha
    · rw [← ha, hnone, Option.map_some, hslot]
      exact .enrolled now req (by rw [hid])
    · exact .unchanged _

theorem slotStep_setPendingCert (s : Service) (b f a : String) :
    SlotStep a (.setPendingCert b f) (s.slot a) ((step s (.setPendingCert b f)).slot a) := by
  show SlotStep a _ ((s.store.get a).map slotOf)
    (((s.store.setPendingCert b f).1.get a).map slotOf)
  rw [Store.get_setPendingCert]
  split_ifs with ha
  · subst ha
    cases s.store.get b with
    | none => exact .unchanged none
    | some agent => exact .staged (slotOf agent) f rfl
  · exact .unchanged _

theorem slotStep_promote (s : Service) (n : ℕ) (a : String) :
    SlotStep a (.promote n) (s.slot a) ((step s (.promote n)).slot a) := by
  show SlotStep a _ ((s.store.get a).map slotOf) (((promote s n).store.get a).map slotOf)
  rcases promote_cases s n with h | ⟨r, agent, -, -, h⟩
  · rw [h]
    exact .unchanged _
  · rw [h, Store.get_promoteCert]
    split_ifs with ha
    · cases hget : s.store.get a with
      | none => exact .unchanged none
      | some b =>
        rw [Option.map_some, Option.map_some, Option.map_some, slotOf_presented]
        -- `PromoteCert` changes the row only if the presented certificate is still pending
        split_ifs with hp
        · simp only [Agent.promotable, Bool.and_eq_true, decide_eq_true_eq] at hp
          exact .promoted (slotOf b) n rfl hp.1
        · exact .unchanged _
    · exact .unchanged _

theorem slotStep_heartbeat (s : Service) (b : String) (now : Model.Time) (stats : Stats)
    (a : String) :
    SlotStep a (.heartbeat b now stats) (s.slot a) ((step s (.heartbeat b now stats)).slot a) := by
  show SlotStep a _ ((s.store.get a).map slotOf)
    (((s.store.heartbeat b now stats).1.get a).map slotOf)
  rcases Store.get_heartbeat s.store b a now stats with h | ⟨-, h⟩
  · rw [h]
    exact .unchanged _
  · -- the counters are not part of the slot
    rw [h]
    cases s.store.get a with
    | none => exact .unchanged none
    | some => exact .unchanged _

theorem slotStep_step (hfresh : FreshID s e) (a : String) :
    SlotStep a e (s.slot a) ((step s e).slot a) := by
  cases e with
  | enroll => exact slotStep_enroll hfresh a
  | setPendingCert b f => exact slotStep_setPendingCert s b f a
  | get => exact .unchanged _
  | promote n => exact slotStep_promote s n a
  | heartbeat b now stats => exact slotStep_heartbeat s b now stats a

theorem slotStep_of_slot (hfresh : FreshID s e) (hc : s.slot a = some c) :
    ∃ d, (step s e).slot a = some d ∧ SlotStep a e (some c) (some d) := by
  have hstep := slotStep_step hfresh a
  rw [hc] at hstep
  cases hd : (step s e).slot a with
  | none =>
    rw [hd] at hstep
    cases hstep
  | some d =>
    rw [hd] at hstep
    exact ⟨d, rfl, hstep⟩

/-! ## Slots along a run -/

section Slots
variable {backend : Backend} {token a : String} {es : List Event}

theorem slot_start : (start backend token).slot a = none := by
  simp [Service.slot, start, Store.get_new]

/-- Induction over the history of a slot: what its enrollment establishes, and a staging, a
promotion and every other event preserve, holds of the slot and the events so far. -/
theorem slot_induction {motive : List Event → Slot → Prop}
    (enrolled : ∀ es now req,
      motive (es ++ [Event.enroll a now req]) { current := req.peerFingerprint, pending := "" })
    (unchanged : ∀ es e c, motive es c → motive (es ++ [e]) c)
    (staged : ∀ es f c, motive es c →
      motive (es ++ [Event.setPendingCert a f]) { c with pending := f })
    (promoted : ∀ es n c, motive es c → c.pending ≠ "" →
      motive (es ++ [Event.promote n]) { current := c.pending, pending := "" })
    (hfresh : AllSteps step FreshID (start backend token) es)
    (h : (run step (start backend token) es).slot a = some c) : motive es c := by
  induction es using List.reverseRecOn generalizing c with
  | nil =>
    rw [run_nil, slot_start] at h
    cases h
  | append_singleton es e ih =>
    obtain ⟨hes, he⟩ := AllSteps.concat_iff.mp hfresh
    rw [run_concat] at h
    have hstep := slotStep_step he a
    rw [h] at hstep
    -- the slot before the last event: none if that event enrolled the agent
    cases hbefore : (run step (start backend token) es).slot a with
    | none =>
      rw [hbefore] at hstep
      cases hstep with
      | enrolled now req hreq => exact hreq ▸ enrolled es now req
    | some d =>
      rw [hbefore] at hstep
      cases hstep with
      | unchanged => exact unchanged es e c (ih hes hbefore)
      | staged _ f hf => exact hf ▸ staged es f d (ih hes hbefore)
      | promoted _ n hn hne => exact hn ▸ promoted es n d (ih hes hbefore) hne

theorem staged_of_pending (hfresh : AllSteps step FreshID (start backend token) es)
    (h : (run step (start backend token) es).slot a = some c) (hne : c.pending ≠ "") :
    .setPendingCert a c.pending ∈ es := by
  revert hne
  refine slot_induction (motive := fun es c => c.pending ≠ "" → .setPendingCert a c.pending ∈ es)
    ?_ ?_ ?_ ?_ hfresh h
  · intro es now req hne
    exact absurd rfl hne
  · intro es e c ih hne
    exact mem_append_left _ (ih hne)
  · intro es f c _ _
    exact mem_append_right _ (mem_singleton_self _)
  · intro es n c _ _ hne
    exact absurd rfl hne

theorem current_ne_empty (hfresh : AllSteps step FreshID (start backend token) es)
    (henroll : ∀ now req, .enroll a now req ∈ es → req.peerFingerprint ≠ "")
    (h : (run step (start backend token) es).slot a = some c) : c.current ≠ "" := by
  revert henroll
  refine slot_induction (motive := fun es c =>
    (∀ now req, .enroll a now req ∈ es → req.peerFingerprint ≠ "") → c.current ≠ "")
    ?_ ?_ ?_ ?_ hfresh h
  · intro es now req henroll
    exact henroll now req (mem_append_right _ (mem_singleton_self _))
  · intro es e c ih henroll
    exact ih fun now req hmem => henroll now req (mem_append_left _ hmem)
  · intro es f c ih henroll
    exact ih fun now req hmem => henroll now req (mem_append_left _ hmem)
  · intro es n c _ hne _
    exact hne

theorem slotStep_current {d : Slot} (h : SlotStep a e (some c) (some d))
    (hne : d.current ≠ c.current) :
    c.pending ≠ "" ∧ d = { current := c.pending, pending := "" } := by
  cases h with
  | unchanged | staged => exact absurd rfl hne
  | promoted _ n hn hp => exact ⟨hp, rfl⟩

end Slots

def Retired (g : String) (c : Slot) : Prop := c.current ≠ g ∧ c.pending ≠ g

theorem slotStep_retired (hg : g ≠ "") {d : Slot} (h : SlotStep a e (some c) (some d))
    (hstage : e ≠ .setPendingCert a g) (hc : Retired g c) : Retired g d := by
  cases h with
  | unchanged => exact hc
  | staged _ f hf =>
    refine ⟨hc.1, ?_⟩
    rintro rfl
    exact hstage hf
  | promoted => exact ⟨hc.2, hg.symm⟩

theorem retired_run (hg : g ≠ "") (hfresh : AllSteps step FreshID s es)
    (hstage : .setPendingCert a g ∉ es) (h : ∃ c, s.slot a = some c ∧ Retired g c) :
    ∃ c, (run step s es).slot a = some c ∧ Retired g c := by
  have hother := hfresh.and_forall fun e he => ne_of_mem_of_not_mem he hstage
  refine hother.invariant (I := fun s => ∃ c, s.slot a = some c ∧ Retired g c) h ?_
  rintro s e ⟨c, hc, hretired⟩ ⟨hnew, hne⟩
  obtain ⟨d, hd, hstep⟩ := slotStep_of_slot hnew hc
  exact ⟨d, hd, slotStep_retired hg hstep hne hretired⟩

/-! ## The fate of a request -/

def Service.Refused (s : Service) (n : ℕ) : Prop :=
  ∃ r status, s.requests[n]? = some r ∧ r.verdict = .rejected status

theorem not_accepted_of_refused (h : s.Refused n) : s.accepted n = false := by
  obtain ⟨r, status, hr, hv⟩ := h
  simp [Service.accepted, hr, hv]

theorem promote_requests {m : ℕ} (hm : s.requests[m]? = some r)
    (hv : ∀ agent, r.verdict ≠ .promoting agent) : (promote s n).requests[m]? = some r := by
  rcases promote_cases s n with h | ⟨q, agent, hq, hpromoting, h⟩
  · rw [h]
    exact hm
  · have hne : n ≠ m := by
      rintro rfl
      rw [hq] at hm
      cases hm
      exact hv agent hpromoting
    rw [h, getElem?_set_ne hne]
    exact hm

theorem step_refused (e : Event) (h : s.Refused n) : (step s e).Refused n := by
  obtain ⟨r, status, hr, hv⟩ := h
  refine ⟨r, status, ?_, hv⟩
  cases e with
  | enroll => simp only [step]; split <;> exact hr
  | setPendingCert => exact hr
  | get =>
    show (s.requests ++ _)[n]? = some r
    rw [List.getElem?_append_left (List.getElem?_eq_some_iff.mp hr).1]
    exact hr
  | promote => exact promote_requests hr (by simp [hv])
  | heartbeat => exact hr

theorem run_refused (es : List Event) (h : s.Refused n) : (run step s es).Refused n :=
  run_invariant (I := fun s => Service.Refused s n) h (fun _ e => step_refused e) es

theorem step_get_requests (s : Service) (a f : String) :
    (step s (.get a f)).requests[s.requests.length]? =
      some { agentID := a, fingerprint := f, verdict := verdict a f (s.store.get a) } := by
  simp [step]

/-- A request of `a` with `f` that gets to its `Get` now will be accepted. -/
def Admits (s : Service) (a f : String) : Prop :=
  ∀ status, verdict a f (s.store.get a) ≠ .rejected status

theorem admits_of_accepted
    (h : (run step s (.get a f :: es)).accepted s.requests.length = true) : Admits s a f := by
  intro status hv
  have hrefused : (step s (.get a f)).Refused s.requests.length :=
    ⟨_, status, step_get_requests s a f, hv⟩
  have := not_accepted_of_refused (run_refused es hrefused)
  rw [run_cons] at h
  rw [h] at this
  cases this

theorem verdict_cases (s : Service) (a f : String) :
    (∃ c agent, s.slot a = some c ∧ (c.current = "" ∨ f = c.current) ∧
        verdict a f (s.store.get a) = .accepted agent) ∨
      (∃ c agent, s.slot a = some c ∧ c.current ≠ "" ∧ (c.pending ≠ "" ∧ f = c.pending) ∧
        verdict a f (s.store.get a) = .promoting agent) ∨
      (∀ c, s.slot a = some c → c.current ≠ "" ∧ f ≠ c.current ∧ ¬(c.pending ≠ "" ∧ f = c.pending)) ∧
        ∃ status, verdict a f (s.store.get a) = .rejected status := by
  rw [Service.slot]
  cases s.store.get a with
  | none => exact Or.inr (Or.inr ⟨by simp, _, rfl⟩)
  | some agent =>
    simp only [verdict]
    split_ifs with h1 h2
    · exact Or.inl ⟨_, agent, rfl, h1, rfl⟩
    · exact Or.inr (Or.inl ⟨_, agent, rfl, fun hc => h1 (Or.inl hc), h2, rfl⟩)
    · rw [not_or] at h1
      refine Or.inr (Or.inr ⟨?_, _, rfl⟩)
      rintro _ ⟨⟩
      exact ⟨h1.1, h1.2, h2⟩

theorem admits_iff (s : Service) (a f : String) :
    Admits s a f ↔ ∃ c, s.slot a = some c ∧
      (c.current = "" ∨ f = c.current ∨ (c.pending ≠ "" ∧ f = c.pending)) := by
  unfold Admits
  rcases verdict_cases s a f with ⟨c, agent, hc, h, hv⟩ | ⟨c, agent, hc, -, h, hv⟩ | ⟨h, status, hv⟩
  · simp [hv, hc, ← or_assoc, h]
  · simp [hv, hc, Or.inr (Or.inr h)]
  · simp only [hv]
    refine ⟨fun hne => absurd rfl (hne status), ?_⟩
    rintro ⟨c, hc, hor⟩
    obtain ⟨hne, hcur, hpend⟩ := h c hc
    exact absurd hor (by simp [hne, hcur, hpend])

/-- The two steps of a check with nothing in between are `authorizeIdentity`. -/
theorem run_get_promote (s : Service) (a f : String) :
    (run step s [.get a f, .promote s.requests.length]).store =
        (authorizeIdentity s.store a f).1 ∧
      (run step s [.get a f, .promote s.requests.length]).accepted s.requests.length =
        ((authorizeIdentity s.store a f).2 matches .ok _) := by
  simp only [run_cons, run_nil]
  show (promote (step s (.get a f)) s.requests.length).store = _ ∧
    (promote (step s (.get a f)) s.requests.length).accepted s.requests.length = _
  unfold promote authorizeIdentity
  rw [step_get_requests]
  cases hv : verdict a f (s.store.get a) <;> simp [step, Service.accepted, hv]

/-! ## Rotation is safe -/

section Safety
variable {backend : Backend} {token a : String} {es : List Event} {pre post : List Event}

theorem staged_of_current_ne {d : Slot}
    (hfresh : AllSteps step FreshID (start backend token) (pre ++ e :: post))
    (hc : (run step (start backend token) pre).slot a = some c)
    (hd : (run step (start backend token) (pre ++ [e])).slot a = some d)
    (hne : d.current ≠ c.current) : .setPendingCert a d.current ∈ pre ∧ d.pending = "" := by
  obtain ⟨hpre, he, -⟩ := AllSteps.append_iff.mp hfresh
  rw [run_concat] at hd
  have hstep := slotStep_step he a
  rw [hc, hd] at hstep
  obtain ⟨hp, rfl⟩ := slotStep_current hstep hne
  exact ⟨staged_of_pending hpre hc hp, rfl⟩

theorem slot_of_accepted
    (hfresh : AllSteps step FreshID (start backend token) (pre ++ .get a f :: post))
    (henroll : ∀ now req, .enroll a now req ∈ pre ++ .get a f :: post → req.peerFingerprint ≠ "")
    (hacc : (run step (start backend token) (pre ++ .get a f :: post)).accepted
      (run step (start backend token) pre).requests.length = true) :
    ∃ c, (run step (start backend token) pre).slot a = some c ∧
      (f = c.current ∨ f = c.pending) := by
  have hpre := (AllSteps.append_iff.mp hfresh).1
  rw [run_append] at hacc
  obtain ⟨c, hc, hslot⟩ := (admits_iff _ _ _).mp (admits_of_accepted hacc)
  have hcur := current_ne_empty hpre
    (fun now req hmem => henroll now req (mem_append_left _ hmem)) hc
  refine ⟨c, hc, ?_⟩
  rcases hslot with h | h | ⟨-, h⟩
  · exact absurd h hcur
  · exact Or.inl h
  · exact Or.inr h

theorem not_accepted_of_replaced {mid : List Event} {d : Slot}
    (hfresh : AllSteps step FreshID (start backend token)
      ((pre ++ e :: mid) ++ .get a c.current :: post))
    (henroll : ∀ now req, .enroll a now req ∈ (pre ++ e :: mid) ++ .get a c.current :: post →
      req.peerFingerprint ≠ "")
    (hc : (run step (start backend token) pre).slot a = some c)
    (hd : (run step (start backend token) (pre ++ [e])).slot a = some d)
    (hne : d.current ≠ c.current) (hmid : .setPendingCert a c.current ∉ mid) :
    (run step (start backend token) ((pre ++ e :: mid) ++ .get a c.current :: post)).accepted
      (run step (start backend token) (pre ++ e :: mid)).requests.length = false := by
  have hprefix := (AllSteps.append_iff.mp hfresh).1
  obtain ⟨hpre, -, hmidfresh⟩ := AllSteps.append_iff.mp hprefix
  have hg := current_ne_empty hpre
    (fun now req hmem => henroll now req
      (mem_append_left _ (mem_append_left _ hmem))) hc
  obtain ⟨-, hpending⟩ := staged_of_current_ne hprefix hc hd hne
  rw [run_concat] at hd
  -- right after the promotion the replaced fingerprint is in neither place
  obtain ⟨c', hc', hcur, hpend⟩ := retired_run hg hmidfresh hmid
    ⟨d, hd, hne, by rw [hpending]; exact hg.symm⟩
  by_contra hacc
  rw [Bool.not_eq_false] at hacc
  obtain ⟨c'', hc'', hslot⟩ := slot_of_accepted hfresh henroll hacc
  rw [run_append, run_cons, hc'] at hc''
  cases hc''
  rcases hslot with h | h
  · exact hcur h.symm
  · exact hpend h.symm

end Safety

/-- Rotation is safe under every interleaving, over either store. For an agent `a` that
enrolls with a non-empty fingerprint:

* its current fingerprint changes only to one that has been staged for it;
* a request of it is accepted only if its fingerprint was the current or the pending one at
  the request's `Get`;
* once its current fingerprint `g` has been replaced, a request that gets to its `Get` later
  is not accepted with `g`, unless `g` has been staged again. -/
theorem rotation_safe (backend : Backend) (token : String) (es : List Event)
    (hfresh : AllSteps step FreshID (start backend token) es) (a : String)
    (henroll : ∀ now req, .enroll a now req ∈ es → req.peerFingerprint ≠ "") :
    (∀ pre e post c d, es = pre ++ e :: post →
      (run step (start backend token) pre).slot a = some c →
      (run step (start backend token) (pre ++ [e])).slot a = some d →
      d.current ≠ c.current → .setPendingCert a d.current ∈ pre) ∧
    (∀ pre f post, es = pre ++ .get a f :: post →
      (run step (start backend token) es).accepted
        (run step (start backend token) pre).requests.length = true →
      ∃ c, (run step (start backend token) pre).slot a = some c ∧
        (f = c.current ∨ f = c.pending)) ∧
    (∀ pre e mid g post c d, es = (pre ++ e :: mid) ++ .get a g :: post →
      (run step (start backend token) pre).slot a = some c →
      (run step (start backend token) (pre ++ [e])).slot a = some d →
      c.current = g → d.current ≠ g → .setPendingCert a g ∉ mid →
      (run step (start backend token) es).accepted
        (run step (start backend token) (pre ++ e :: mid)).requests.length = false) := by
  refine ⟨?_, ?_, ?_⟩
  · rintro pre e post c d rfl hc hd hne
    exact (staged_of_current_ne hfresh hc hd hne).1
  · rintro pre f post rfl hacc
    exact slot_of_accepted hfresh henroll hacc
  · rintro pre e mid g post c d rfl hc hd rfl hne hmid
    exact not_accepted_of_replaced hfresh henroll hc hd hne hmid

/-- An agent enrolls with `A`, `B` is staged, it presents `B`, and then `A` again. -/
def oneRotation : List Event :=
  [.enroll "a" 0 { hostname := "web-1", peerFingerprint := "A" }, .setPendingCert "a" "B",
    .get "a" "B", .promote 0, .get "a" "A"]

theorem rotation_safe_oneRotation :
    AllSteps step FreshID (start .sqlite "") oneRotation ∧
      (run step (start .sqlite "") oneRotation).accepted 0 = true ∧
      (run step (start .sqlite "") oneRotation).accepted 1 = false :=
  ⟨by decide, by decide,
    (rotation_safe .sqlite "" oneRotation (by decide) "a" (by simp [oneRotation])).2.2
      (oneRotation.take 3) (.promote 0) [] "A" [] _ _ rfl rfl rfl rfl (by decide) (by decide)⟩

/-! ## Lockout -/

/-- The event at which a request of `a` with fingerprint `f` is accepted: its `Get`, or, if it
presents the staged certificate, its promotion step. -/
def Accepts (s : Service) (e : Event) (a f : String) : Prop :=
  (e = .get a f ∧ ∃ agent, verdict a f (s.store.get a) = .accepted agent) ∨
    ∃ n r agent, e = .promote n ∧ s.requests[n]? = some r ∧ r.verdict = .promoting agent ∧
      r.agentID = a ∧ r.fingerprint = f

/-- The event makes a fingerprint other than `f` the current one of `a`. -/
def PromotesOther (a f : String) (s : Service) (e : Event) : Prop :=
  ∃ c d, s.slot a = some c ∧ (step s e).slot a = some d ∧ d.current ≠ c.current ∧ d.current ≠ f

/-- No agent is locked out in the run: an accepted fingerprint is accepted again, until
another one has been promoted. -/
def LockoutFree (s : Service) (es : List Event) : Prop :=
  ∀ pre e mid post a f, es = pre ++ e :: (mid ++ post) → Accepts (run step s pre) e a f →
    AllSteps step (fun s e => ¬PromotesOther a f s e) (run step s (pre ++ [e])) mid →
    Admits (run step s (pre ++ e :: mid)) a f

def Service.holds (s : Service) (a f : String) : Bool :=
  (s.slot a).any fun c => c.current = f || c.pending = f

/-- The promotion step of a request finds the request's fingerprint in the slot: as the
pending one, which it promotes, or as the current one already. -/
def promotionLands (s : Service) : Event → Bool
  | .promote n =>
    match s.requests[n]? with
    | none => true
    | some r =>
      match r.verdict with
      | .promoting _ => s.holds r.agentID r.fingerprint
      | .accepted _ | .rejected _ => true
  | .enroll .. | .setPendingCert .. | .get .. | .heartbeat .. => true

theorem promotionLands_iff (s : Service) (e : Event) :
    promotionLands s e = true ↔
      ∀ n, e = .promote n → ∀ r, s.requests[n]? = some r → ∀ agent, r.verdict = .promoting agent →
        s.holds r.agentID r.fingerprint = true := by
  cases e with
  | promote n =>
    cases hr : s.requests[n]? with
    | none => simp [promotionLands, hr]
    | some r =>
      cases hv : r.verdict with
      | accepted | promoting | rejected => simp [promotionLands, hr, hv]
  | enroll | setPendingCert | get | heartbeat => simp [promotionLands]

theorem holds_of_slot (hc : s.slot a = some c) :
    s.holds a f = true ↔ c.current = f ∨ c.pending = f := by
  simp [Service.holds, hc]

/-- A request that is to promote a certificate presents one, and belongs to an agent with a
current one. -/
def PromotingHasCurrent (s : Service) : Prop :=
  ∀ (n : ℕ) (r : Request) (agent : Agent), s.requests[n]? = some r →
    r.verdict = .promoting agent →
    r.fingerprint ≠ "" ∧ ∃ c, s.slot r.agentID = some c ∧ c.current ≠ ""

theorem slotStep_current_ne_empty {d : Slot} (h : SlotStep a e (some c) (some d))
    (hc : c.current ≠ "") : d.current ≠ "" := by
  cases h with
  | unchanged | staged => exact hc
  | promoted _ n hn hne => exact hne

theorem promote_promoting {m : ℕ} (hr : (promote s m).requests[n]? = some r)
    (hv : r.verdict = .promoting agent) : s.requests[n]? = some r := by
  rcases promote_cases s m with h | ⟨q, b, hq, -, h⟩
  · rwa [h] at hr
  · rw [h] at hr
    by_cases hnm : m = n
    · subst hnm
      rw [List.getElem?_set_self (List.getElem?_eq_some_iff.mp hq).1] at hr
      cases hr
      cases hv
    · rwa [getElem?_set_ne hnm] at hr

/-- The requests that are about to promote after a step: one whose `Get` the step was, or one
that was about to before. -/
theorem step_promoting (hr : (step s e).requests[n]? = some r) (hv : r.verdict = .promoting agent) :
    s.requests[n]? = some r ∨
      (e = .get r.agentID r.fingerprint ∧
        verdict r.agentID r.fingerprint (s.store.get r.agentID) = .promoting agent) := by
  cases e with
  | enroll =>
    simp only [step] at hr
    split at hr <;> exact Or.inl hr
  | setPendingCert | heartbeat => exact Or.inl hr
  | get =>
    simp only [step] at hr
    rw [getElem?_append] at hr
    split_ifs at hr with hlt
    · exact Or.inl hr
    · rw [getElem?_singleton] at hr
      split_ifs at hr
      cases hr
      exact Or.inr ⟨rfl, hv⟩
  | promote => exact Or.inl (promote_promoting hr hv)

theorem current_of_promoting (h : verdict a f (s.store.get a) = .promoting agent) :
    f ≠ "" ∧ ∃ c, s.slot a = some c ∧ c.current ≠ "" := by
  rcases verdict_cases s a f with ⟨_, _, -, -, hv⟩ | ⟨c, _, hc, hne, hp, -⟩ | ⟨-, _, hv⟩
  · simp [h] at hv
  · exact ⟨hp.2 ▸ hp.1, c, hc, hne⟩
  · simp [h] at hv

theorem promotingHasCurrent_step (hfresh : FreshID s e) (h : PromotingHasCurrent s) :
    PromotingHasCurrent (step s e) := by
  intro n r agent hr hv
  have hbefore : r.fingerprint ≠ "" ∧ ∃ c, s.slot r.agentID = some c ∧ c.current ≠ "" := by
    rcases step_promoting hr hv with hr' | ⟨-, hv'⟩
    · exact h n r agent hr' hv
    · exact current_of_promoting hv'
  obtain ⟨hf, c, hc, hne⟩ := hbefore
  obtain ⟨d, hd, hstep⟩ := slotStep_of_slot hfresh hc
  exact ⟨hf, d, hd, slotStep_current_ne_empty hstep hne⟩

theorem promotingHasCurrent_run {backend : Backend}
    (hfresh : AllSteps step FreshID (start backend token) es) :
    PromotingHasCurrent (run step (start backend token) es) := by
  refine hfresh.invariant ?_ fun s e hs he => promotingHasCurrent_step he hs
  intro n r agent hr
  simp [start] at hr

theorem promote_slot (hr : s.requests[n]? = some r) (hv : r.verdict = .promoting agent)
    (hc : s.slot r.agentID = some c) :
    (promote s n).slot r.agentID =
      some (if c.pending ≠ "" ∧ c.pending = r.fingerprint then
        { current := c.pending, pending := "" } else c) := by
  obtain ⟨b, hget, rfl⟩ := slot_eq_some hc
  have hstore : (promote s n).store = (s.store.promoteCert r.agentID r.fingerprint).1 := by
    simp [promote, hr, hv]
  rw [Service.slot, hstore, Store.get_promoteCert, if_pos rfl, hget, Option.map_some,
    Option.map_some, slotOf_presented]
  simp only [Agent.promotable, Bool.and_eq_true, decide_eq_true_eq, slotOf]
  congr 1

/-- The current fingerprint of `a` is `f`, or it has none and accepts every one. -/
def Kept (a f : String) (s : Service) : Prop :=
  ∃ c, s.slot a = some c ∧ (c.current = f ∨ c.current = "")

theorem admits_of_kept (h : Kept a f s) : Admits s a f := by
  obtain ⟨c, hc, hcur⟩ := h
  refine (admits_iff s a f).mpr ⟨c, hc, ?_⟩
  rcases hcur with h | h
  · exact Or.inr (Or.inl h.symm)
  · exact Or.inl h

theorem kept_of_accepts (hinv : PromotingHasCurrent s) (hlands : promotionLands s e = true)
    (h : Accepts s e a f) : Kept a f (step s e) := by
  rcases h with ⟨rfl, agent, hv⟩ | ⟨n, r, agent, rfl, hr, hv, rfl, rfl⟩
  · -- accepted at its `Get`, with the current fingerprint or in a slot without one
    rcases verdict_cases s a f with ⟨c, _, hc, hcur, -⟩ | ⟨_, _, -, -, -, hv'⟩ | ⟨-, _, hv'⟩
    · exact ⟨c, hc, hcur.symm.imp Eq.symm id⟩
    all_goals simp [hv] at hv'
  · -- accepted at its promotion step, which finds the fingerprint in one of the two places
    obtain ⟨hf, c, hc, -⟩ := hinv n r agent hr hv
    have hor := (holds_of_slot hc).mp ((promotionLands_iff s _).mp hlands n rfl r hr agent hv)
    refine ⟨_, promote_slot hr hv hc, Or.inl ?_⟩
    split_ifs with hp
    · exact hp.2
    · rcases hor with h | h
      · exact h
      · exact absurd ⟨h ▸ hf, h⟩ hp

theorem kept_step (hfresh : FreshID s e) (hother : ¬PromotesOther a f s e) (h : Kept a f s) :
    Kept a f (step s e) := by
  obtain ⟨c, hc, hcur⟩ := h
  obtain ⟨d, hd, -⟩ := slotStep_of_slot hfresh hc
  refine ⟨d, hd, ?_⟩
  by_contra hnot
  rw [not_or] at hnot
  -- a change of the current fingerprint would be a promotion of another one
  refine hother ⟨c, d, hc, hd, fun heq => ?_, hnot.1⟩
  rw [heq] at hnot
  exact hcur.elim hnot.1 hnot.2

theorem kept_run (hfresh : AllSteps step FreshID s es)
    (hother : AllSteps step (fun s e => ¬PromotesOther a f s e) s es) (h : Kept a f s) :
    Kept a f (run step s es) := by
  refine (hfresh.and hother).invariant h ?_
  intro s e hs he
  exact kept_step he.1 he.2 hs

/-- A fingerprint that is admitted right after the promotion step of its request was in the slot
before it. -/
theorem holds_of_admits_promote (hinv : PromotingHasCurrent s) (hr : s.requests[n]? = some r)
    (hv : r.verdict = .promoting agent) (h : Admits (promote s n) r.agentID r.fingerprint) :
    s.holds r.agentID r.fingerprint = true := by
  obtain ⟨-, c, hc, hne⟩ := hinv n r agent hr hv
  obtain ⟨d, hd, hslot⟩ := (admits_iff _ _ _).mp h
  rw [promote_slot hr hv hc] at hd
  cases hd
  rw [holds_of_slot hc]
  -- a promotion that did not find its fingerprint pending must have found it current
  split_ifs at hslot with hp
  · exact Or.inr hp.2
  · rcases hslot with h | h | h
    · exact absurd h hne
    · exact Or.inl h.symm
    · exact Or.inr h.2.symm

/-- A run locks no agent out exactly when every promotion step in it finds the fingerprint
its request presented still in the agent's slot. -/
theorem lockout_free_iff (backend : Backend) (token : String) (es : List Event)
    (hfresh : AllSteps step FreshID (start backend token) es) :
    LockoutFree (start backend token) es ↔
      AllSteps step (fun s e => promotionLands s e = true) (start backend token) es := by
  constructor
  · intro hfree
    refine AllSteps.of_split fun pre e post hsplit => ?_
    subst hsplit
    have hinv := promotingHasCurrent_run (AllSteps.append_iff.mp hfresh).1
    rw [promotionLands_iff]
    rintro n rfl r hr agent hv
    -- accepted now, the fingerprint must be admitted right after
    have hadmits := hfree pre (.promote n) [] post r.agentID r.fingerprint rfl
      (Or.inr ⟨n, r, agent, rfl, hr, hv, rfl, rfl⟩) trivial
    rw [run_concat] at hadmits
    exact holds_of_admits_promote hinv hr hv hadmits
  · rintro hlands pre e mid post a f rfl hacc hother
    obtain ⟨hpre, he, hrest⟩ := AllSteps.append_iff.mp hfresh
    have hlanded := hlands.at_split
    have hkept := kept_of_accepts (promotingHasCurrent_run hpre) hlanded hacc
    rw [run_concat] at hother
    rw [run_append, run_cons]
    exact admits_of_kept (kept_run (AllSteps.append_iff.mp hrest).1 hother hkept)

theorem lockout_free_oneRotation :
    AllSteps step FreshID (start .memory "") oneRotation ∧
      LockoutFree (start .memory "") oneRotation :=
  ⟨by decide, (lockout_free_iff .memory "" oneRotation (by decide)).mpr (by decide)⟩

/-- Two rotations and one request: `B` is staged, a request presents it, and before the
request's promotion step `C` is staged. The request is accepted, the next one with `B` is
not, and nothing has been promoted. -/
def overtakenRotation : List Event :=
  [.enroll "a" 0 { hostname := "web-1", peerFingerprint := "A" }, .setPendingCert "a" "B",
    .get "a" "B", .setPendingCert "a" "C", .promote 0, .get "a" "B"]

theorem overtakenRotation_locks_out :
    AllSteps step FreshID (start .memory "") overtakenRotation ∧
      (run step (start .memory "") overtakenRotation).accepted 0 = true ∧
      (run step (start .memory "") overtakenRotation).accepted 1 = false ∧
      (run step (start .memory "") overtakenRotation).slot "a" =
        some { current := "A", pending := "C" } ∧
      ¬LockoutFree (start .memory "") overtakenRotation := by
  refine ⟨by decide, by decide, by decide, by decide, fun h => ?_⟩
  exact h (overtakenRotation.take 4) (.promote 0) [] [.get "a" "B"] "a" "B" rfl
    (Or.inr ⟨0, _, _, rfl, rfl, rfl, rfl, rfl⟩) trivial _ rfl

end ArgusEdr.Identity
