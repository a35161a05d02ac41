import ArgusEdr.Agent.Pipeline
import ArgusEdr.Lib.Pool

/-!
# What the sink has received when `Run` returns

`Standing` says for every phase of the consumer what has been sent, taken and written by then. Each step
of the consumer keeps it (`standing_consume`), and so do the other goroutines (`consistent_step`), which
can add to the channel while it is open, and swap the engine. When `Run` returns the channel is closed
and empty, so everything sent has been written: `run_trace`.
-/

namespace ArgusEdr.Pipeline

open List

open Correlate (Correlator Incident)
open Detect (Engine Result)
open Go (Library)
open Model (Event Alert)
open Respond (Responder)
open Runs

/-! ## Responses -/

theorem unanswered_finish (env : Respond.Env) (alert : Alert) (plan : Responder.Plan)
    (h : Respond.Host) : unanswered (Responder.finish env alert plan h).1 = unanswered alert := by
  cases plan with
  | nothing | suppressed | withhold action => rfl
  | carryOut => rfl

section
variable [Library] {σ : Type} {params : Params σ} {w₀ : World σ} {es : List Step}

theorem map_unanswered_alerts (engine : Engine) (event : Event) :
    (engine.alerts event).map unanswered = engine.alerts event := by
  refine (map_congr_left fun alert halert => ?_).trans (map_id _)
  have hnone := Engine.response_of_mem_alerts halert
  cases alert
  simp_all [unanswered]

/-! ## Where the consumer stands -/

variable (params w₀)

def Found (es : List Step) (k : ℕ) (sent event : Event) (alerts : List Alert)
    (incident : Option Incident) : Prop :=
  ∃ engine result, result.incident = incident ∧
    Computed params w₀ es k { sent, event, engine, result, written := alerts }

/-- How far the event in progress has come, with the calls of the sink made for it. -/
def Progress (es : List Step) (k : ℕ) (sent : Event) (done : List Attempt) : Phase → Prop
  | .enriching event => done = [] ∧ event = sent
  | .scoring event => done = [] ∧ ∃ s, event = params.enriched s sent
  | .loading event => done = [] ∧ Prepared params sent event
  | .evaluating event engine =>
    done = [] ∧ Prepared params sent event ∧ SomeStep (step params) (Loads k event engine) w₀ es
  | .responding event handled todo incident =>
    done = [] ∧ Found params w₀ es k sent event (handled ++ todo) incident
  | .handling event handled alert _ todo incident =>
    done = [] ∧ Found params w₀ es k sent event (handled ++ alert :: todo) incident
  | .writingEvent event alerts incident =>
    done = [] ∧ Found params w₀ es k sent event alerts incident
  | .writingAlerts todo incident =>
    ∃ event written, done = .event event :: written.map .alert ∧
      Found params w₀ es k sent event (written ++ todo) incident
  | .receiving | .flushing | .awaiting | .returned _ => False

/-- The events completed, the one in progress with the calls of the sink made for it, and those still
in the channel. -/
structure Ledger (es : List Step) (w : World σ) (outs : List Output) (current : List Event)
    (done : List Attempt) : Prop where
  computed : ∀ k o, outs[k]? = some o → Computed params w₀ es k o
  sent_eq : w.sent = outs.map Output.sent ++ (current ++ w.buffer)
  taken_eq : w.taken = outs.length + current.length
  attempts_eq : w.attempts = outs.flatMap Output.attempts ++ done

def Standing (es : List Step) (w : World σ) (outs : List Output) : Phase → Prop
  | .receiving => Ledger params w₀ es w outs [] []
  | .flushing => Ledger params w₀ es w outs [] [] ∧ w.closed = true ∧ w.buffer = []
  | .awaiting | .returned _ =>
    Ledger params w₀ es w outs [] [.flush] ∧ w.closed = true ∧ w.buffer = []
  | phase =>
    ∃ sent done, Ledger params w₀ es w outs [sent] done ∧
      Progress params w₀ es outs.length sent done phase

structure Consistent (es : List Step) (w : World σ) : Prop where
  source_of_closed : w.closed = true → w.source ≠ .running
  standing : ∃ outs, Standing params w₀ es w outs w.consumer

variable {params w₀}

/-! ### More steps -/

variable {k : ℕ} {sent : Event} {done : List Attempt} {phase : Phase} {w w' : World σ}
  {outs : List Output} {current : List Event}

theorem Computed.concat {o : Output} (h : Computed params w₀ es k o) (e : Step) :
    Computed params w₀ (es ++ [e]) k o :=
  ⟨h.prepared, h.loaded.concat e, h.evaluated.concat e, h.written⟩

theorem Found.concat {event : Event} {alerts : List Alert} {incident : Option Incident}
    (h : Found params w₀ es k sent event alerts incident) (e : Step) :
    Found params w₀ (es ++ [e]) k sent event alerts incident := by
  obtain ⟨engine, result, hincident, hcomputed⟩ := h
  exact ⟨engine, result, hincident, hcomputed.concat e⟩

theorem Progress.concat (h : Progress params w₀ es k sent done phase) (e : Step) :
    Progress params w₀ (es ++ [e]) k sent done phase := by
  cases phase with
  | enriching | scoring | loading => exact h
  | evaluating => exact ⟨h.1, h.2.1, h.2.2.concat e⟩
  | responding | handling | writingEvent => exact ⟨h.1, h.2.concat e⟩
  | writingAlerts =>
    obtain ⟨event, written, hdone, hfound⟩ := h
    exact ⟨event, written, hdone, hfound.concat e⟩
  | receiving | flushing | awaiting | returned => exact h

theorem Ledger.concat (h : Ledger params w₀ es w outs current done) (e : Step) :
    Ledger params w₀ (es ++ [e]) w outs current done :=
  ⟨fun k o ho => (h.computed k o ho).concat e, h.sent_eq, h.taken_eq, h.attempts_eq⟩

/-- The ledger looks at four fields only. -/
theorem Ledger.congr (h : Ledger params w₀ es w outs current done) (hsent : w'.sent = w.sent)
    (hbuffer : w'.buffer = w.buffer) (htaken : w'.taken = w.taken)
    (hattempts : w'.attempts = w.attempts) : Ledger params w₀ es w' outs current done :=
  ⟨h.computed, by rw [hsent, hbuffer, h.sent_eq], by rw [htaken, h.taken_eq],
    by rw [hattempts, h.attempts_eq]⟩

theorem Standing.concat (h : Standing params w₀ es w outs phase) (e : Step) :
    Standing params w₀ (es ++ [e]) w outs phase := by
  cases phase with
  | receiving => exact Ledger.concat h e
  | flushing | awaiting | returned => exact ⟨h.1.concat e, h.2⟩
  | enriching | scoring | loading | evaluating | responding | handling | writingEvent
  | writingAlerts =>
    obtain ⟨sent, done, hledger, hprogress⟩ := h
    exact ⟨sent, done, hledger.concat e, hprogress.concat e⟩

theorem Standing.congr (h : Standing params w₀ es w outs phase) (hsent : w'.sent = w.sent)
    (hbuffer : w'.buffer = w.buffer) (htaken : w'.taken = w.taken)
    (hattempts : w'.attempts = w.attempts) (hclosed : w.closed = true → w'.closed = true) :
    Standing params w₀ es w' outs phase := by
  cases phase with
  | receiving => exact Ledger.congr h hsent hbuffer htaken hattempts
  | flushing | awaiting | returned =>
    exact ⟨h.1.congr hsent hbuffer htaken hattempts, hclosed h.2.1, hbuffer.trans h.2.2⟩
  | enriching | scoring | loading | evaluating | responding | handling | writingEvent
  | writingAlerts =>
    obtain ⟨sent, done, hledger, hprogress⟩ := h
    exact ⟨sent, done, hledger.congr hsent hbuffer htaken hattempts, hprogress⟩

theorem Ledger.send (h : Ledger params w₀ es w outs current done) (event : Event) :
    Ledger params w₀ es { w with buffer := w.buffer ++ [event], sent := w.sent ++ [event] } outs
      current done :=
  ⟨h.computed, by simp [h.sent_eq], h.taken_eq, h.attempts_eq⟩

theorem Standing.send (h : Standing params w₀ es w outs phase) (hopen : w.closed ≠ true)
    (event : Event) :
    Standing params w₀ es { w with buffer := w.buffer ++ [event], sent := w.sent ++ [event] }
      outs phase := by
  cases phase with
  | receiving => exact Ledger.send h event
  | flushing | awaiting | returned => exact absurd h.2.1 hopen
  | enriching | scoring | loading | evaluating | responding | handling | writingEvent
  | writingAlerts =>
    obtain ⟨sent, done, hledger, hprogress⟩ := h
    exact ⟨sent, done, hledger.send event, hprogress⟩

theorem consistent_source (h : Consistent params w₀ es w) (move : Move) :
    Consistent params w₀ es (sourceStep params w move) := by
  obtain ⟨outs, hstanding⟩ := h.standing
  unfold sourceStep
  split
  · next _ event hsource =>
    have hopen : w.closed ≠ true := fun hclosed => h.source_of_closed hclosed hsource
    split
    · exact ⟨h.source_of_closed, outs, hstanding.send hopen event⟩
    · exact h
  · exact ⟨fun _ => by simp, outs, hstanding.congr rfl rfl rfl rfl id⟩
  · exact ⟨fun _ => by simp, outs, hstanding.congr rfl rfl rfl rfl fun _ => rfl⟩
  · exact ⟨fun _ => by simp, outs, hstanding.congr rfl rfl rfl rfl id⟩
  · exact h

/-! ### The consumer -/

theorem standing_receive (h : Standing params w₀ es w outs .receiving)
    (hphase : w.consumer = .receiving) :
    Standing params w₀ es (receive w) outs (receive w).consumer := by
  unfold receive
  cases hbuffer : w.buffer with
  | nil =>
    dsimp only
    split
    · next hclosed => exact ⟨Ledger.congr h rfl (by simp [hbuffer]) rfl rfl, hclosed, rfl⟩
    · rw [hphase]
      exact h
  | cons event rest =>
    obtain ⟨hcomputed, hsent, htaken, hattempts⟩ := h
    refine ⟨event, [], ⟨hcomputed, ?_, ?_, hattempts⟩, rfl, rfl⟩
    · rw [hsent, hbuffer]
      rfl
    · simp [htaken]

section
variable {env : Env} {event : Event} {handled todo alerts : List Alert} {incident : Option Incident}

theorem standing_enrich (h : Standing params w₀ es w outs (.enriching event)) :
    Standing params w₀ es (enrichStep params w event) outs (enrichStep params w event).consumer := by
  obtain ⟨sent, done, hledger, hdone, rfl⟩ := h
  unfold enrichStep
  cases henricher : params.enricher with
  | none | some =>
    refine ⟨event, done, hledger.congr rfl rfl rfl rfl, hdone, w.stages, ?_⟩
    simp [Params.enriched, henricher]

theorem standing_score (h : Standing params w₀ es w outs (.scoring event)) :
    Standing params w₀ es (scoreStep params w event) outs (scoreStep params w event).consumer := by
  obtain ⟨sent, done, hledger, hdone, s, rfl⟩ := h
  unfold scoreStep
  cases hscorer : params.scorer with
  | none | some =>
    refine ⟨sent, done, hledger.congr rfl rfl rfl rfl, hdone, s, w.stages, ?_⟩
    simp [Params.scored, hscorer]

theorem standing_load (h : Standing params w₀ es w outs (.loading event))
    (hphase : w.consumer = .loading event)
    (hlast : ∀ {P}, P w (.consume env) → SomeStep (step params) P w₀ es) :
    Standing params w₀ es { w with consumer := .evaluating event w.engine } outs
      (.evaluating event w.engine) := by
  obtain ⟨sent, done, hledger, hdone, hprepared⟩ := h
  refine ⟨sent, done, hledger.congr rfl rfl rfl rfl, hdone, hprepared, ?_⟩
  exact hlast ⟨⟨env, rfl⟩, hledger.taken_eq, hphase, rfl⟩

theorem standing_evaluate {engine : Engine}
    (h : Standing params w₀ es w outs (.evaluating event engine))
    (hphase : w.consumer = .evaluating event engine)
    (hlast : ∀ {P}, P w (.consume env) → SomeStep (step params) P w₀ es) :
    Standing params w₀ es (evaluateStep w env event engine) outs
      (evaluateStep w env event engine).consumer := by
  obtain ⟨sent, done, hledger, hdone, hprepared, hloaded⟩ := h
  refine ⟨sent, done, hledger.congr rfl rfl rfl rfl, hdone, engine,
    (engine.evaluate w.correlators env.clock event).2, rfl, hprepared, hloaded,
    hlast ⟨hledger.taken_eq, hphase, env, rfl, rfl⟩, ?_⟩
  rw [nil_append]
  show (engine.evaluate w.correlators env.clock event).2.alerts.map unanswered = _
  rw [Engine.evaluate_alerts, map_unanswered_alerts]

theorem standing_respond (h : Standing params w₀ es w outs (.responding event handled todo incident)) :
    Standing params w₀ es (respondStep w event handled todo incident) outs
      (respondStep w event handled todo incident).consumer := by
  obtain ⟨sent, done, hledger, hdone, hfound⟩ := h
  unfold respondStep
  split <;> exact ⟨sent, done, hledger.congr rfl rfl rfl rfl, hdone, hfound⟩

theorem Found.of_unanswered {alerts' : List Alert}
    (h : Found params w₀ es k sent event alerts incident)
    (heq : alerts'.map unanswered = alerts.map unanswered) :
    Found params w₀ es k sent event alerts' incident := by
  obtain ⟨engine, result, hincident, hcomputed⟩ := h
  exact ⟨engine, result, hincident, hcomputed.prepared, hcomputed.loaded, hcomputed.evaluated,
    heq.trans hcomputed.written⟩

theorem standing_handle {alert : Alert} {plan : Responder.Plan}
    (h : Standing params w₀ es w outs (.handling event handled alert plan todo incident)) :
    Standing params w₀ es (handleStep w env event handled alert plan todo incident) outs
      (handleStep w env event handled alert plan todo incident).consumer := by
  obtain ⟨sent, done, hledger, hdone, hfound⟩ := h
  refine ⟨sent, done, hledger.congr rfl rfl rfl rfl, hdone, hfound.of_unanswered ?_⟩
  have hanswer := unanswered_finish env.host alert plan w.host
  show ((handled ++ [(Responder.finish env.host alert plan w.host).1]) ++ todo).map unanswered = _
  rw [append_assoc, singleton_append, map_append, map_append, map_cons,
    map_cons, hanswer]

theorem standing_writeEvent (h : Standing params w₀ es w outs (.writingEvent event alerts incident)) :
    Standing params w₀ es
      { w.write env (.event event) "write event" with
        consumer := .writingAlerts alerts incident } outs (.writingAlerts alerts incident) := by
  obtain ⟨sent, done, hledger, rfl, hfound⟩ := h
  refine ⟨sent, [.event event], ⟨hledger.computed, hledger.sent_eq, hledger.taken_eq, ?_⟩, event, [],
    rfl, hfound⟩
  simp [World.write, hledger.attempts_eq]

theorem Ledger.complete {o : Output} (h : Ledger params w₀ es w outs [o.sent] done)
    (ho : Computed params w₀ es outs.length o) (hsent : w'.sent = w.sent)
    (hbuffer : w'.buffer = w.buffer) (htaken : w'.taken = w.taken)
    (hattempts : w'.attempts = outs.flatMap Output.attempts ++ o.attempts) :
    Ledger params w₀ es w' (outs ++ [o]) [] [] where
  computed := by
    intro k o' ho'
    rcases Pool.getElem?_spawn_eq_some ho' with hk | ⟨rfl, rfl⟩
    · exact h.computed k o' hk
    · exact ho
  sent_eq := by simp [hsent, hbuffer, h.sent_eq]
  taken_eq := by simp [htaken, h.taken_eq]
  attempts_eq := by simp [hattempts]

theorem standing_emit (h : Standing params w₀ es w outs (.writingAlerts todo incident)) :
    ∃ outs', Standing params w₀ es (emitStep w env todo incident) outs'
      (emitStep w env todo incident).consumer := by
  obtain ⟨sent, done, hledger, event, written, rfl, hfound⟩ := h
  cases todo with
  | cons alert rest =>
    refine ⟨outs, sent, .event event :: (written ++ [alert]).map .alert,
      ⟨hledger.computed, hledger.sent_eq, hledger.taken_eq, ?_⟩, event, written ++ [alert], rfl, ?_⟩
    · simp [emitStep, World.write, hledger.attempts_eq]
    · simpa using hfound
  | nil =>
    rw [append_nil] at hfound
    obtain ⟨engine, result, rfl, hcomputed⟩ := hfound
    refine ⟨outs ++ [⟨sent, event, engine, result, written⟩], ?_⟩
    cases hincident : result.incident with
    | none =>
      refine Ledger.complete (w := w) hledger hcomputed rfl rfl rfl ?_
      simp [emitStep, hledger.attempts_eq, Output.attempts, hincident]
    | some =>
      refine Ledger.complete (w := w) hledger hcomputed rfl rfl rfl ?_
      simp [emitStep, World.write, hledger.attempts_eq, Output.attempts, hincident]

theorem standing_flush (h : Standing params w₀ es w outs .flushing) :
    Standing params w₀ es { w.write env .flush "sink flush failed" with consumer := .awaiting } outs
      .awaiting := by
  obtain ⟨hledger, hclosed, hempty⟩ := h
  refine ⟨⟨hledger.computed, hledger.sent_eq, hledger.taken_eq, ?_⟩, hclosed, hempty⟩
  simp [World.write, hledger.attempts_eq]

theorem standing_consume (h : Standing params w₀ es w outs w.consumer)
    (hlast : ∀ {P}, P w (.consume env) → SomeStep (step params) P w₀ es) :
    ∃ outs', Standing params w₀ es (consumeStep params w env) outs'
      (consumeStep params w env).consumer := by
  generalize hphase : w.consumer = phase at h
  unfold consumeStep
  rw [hphase]
  cases phase with
  | receiving => exact ⟨outs, standing_receive h hphase⟩
  | enriching => exact ⟨outs, standing_enrich h⟩
  | scoring => exact ⟨outs, standing_score h⟩
  | loading => exact ⟨outs, standing_load h hphase hlast⟩
  | evaluating => exact ⟨outs, standing_evaluate h hphase hlast⟩
  | responding => exact ⟨outs, standing_respond h⟩
  | handling => exact ⟨outs, standing_handle h⟩
  | writingEvent => exact ⟨outs, standing_writeEvent h⟩
  | writingAlerts => exact standing_emit h
  | flushing => exact ⟨outs, standing_flush h⟩
  | awaiting =>
    dsimp only
    split
    · rw [hphase]
      exact ⟨outs, h⟩
    · exact ⟨outs, h.congr rfl rfl rfl rfl id⟩
  | returned =>
    dsimp only
    rw [hphase]
    exact ⟨outs, h⟩

variable (params) in
theorem source_consumeStep (w : World σ) (env : Env) :
    (consumeStep params w env).source = w.source ∧
      (consumeStep params w env).closed = w.closed := by
  unfold consumeStep receive enrichStep scoreStep respondStep emitStep
  repeat' split
  all_goals exact ⟨rfl, rfl⟩

end

/-! ### Runs -/

theorem consistent_step (h : Consistent params w₀ es (run (step params) w₀ es)) (e : Step) :
    Consistent params w₀ (es ++ [e]) (step params (run (step params) w₀ es) e) := by
  obtain ⟨outs, hstanding⟩ := h.standing
  have hlater := hstanding.concat e
  have hsource := h.source_of_closed
  cases e with
  | source move => exact consistent_source ⟨hsource, outs, hlater⟩ move
  | consume env =>
    refine ⟨?_, standing_consume hlater SomeStep.last⟩
    obtain ⟨hsame, hclosed⟩ := source_consumeStep params (run (step params) w₀ es) env
    show (consumeStep params _ env).closed = true → (consumeStep params _ env).source ≠ _
    rw [hsame, hclosed]
    exact hsource
  | cancel | setEngine | setMode | others =>
    exact ⟨hsource, outs, hlater.congr rfl rfl rfl rfl id⟩

/-! ## Errors of the sink -/

/-- Two pipelines that may differ in what they have logged. -/
def SameButLog (w w' : World σ) : Prop := ∃ log, w' = { w with log }

theorem SameButLog.consumer_eq (h : SameButLog w w') : w'.consumer = w.consumer := by
  obtain ⟨log, rfl⟩ := h
  rfl

theorem consumeStep_quiet (h : SameButLog w w') (env : Env) :
    SameButLog (consumeStep params w env) (consumeStep params w' { env with sink := none }) := by
  unfold consumeStep
  rw [h.consumer_eq]
  generalize w.consumer = phase
  obtain ⟨log, rfl⟩ := h
  cases phase with
  | receiving =>
    simp only [receive]
    split
    · exact ⟨log, rfl⟩
    · split <;> exact ⟨log, rfl⟩
  | enriching =>
    simp only [enrichStep]
    split <;> exact ⟨log, rfl⟩
  | scoring =>
    simp only [scoreStep]
    split <;> exact ⟨log, rfl⟩
  | responding =>
    simp only [respondStep]
    split <;> exact ⟨log, rfl⟩
  | writingAlerts =>
    simp only [emitStep]
    split <;> exact ⟨_, rfl⟩
  | awaiting =>
    dsimp only
    split <;> exact ⟨log, rfl⟩
  | loading | evaluating | handling | writingEvent | flushing | returned => exact ⟨_, rfl⟩

theorem step_quiet (h : SameButLog w w') (e : Step) :
    SameButLog (step params w e) (step params w' e.quiet) := by
  cases e with
  | source =>
    obtain ⟨log, rfl⟩ := h
    simp only [step, Step.quiet, sourceStep]
    split
    · split <;> exact ⟨log, rfl⟩
    all_goals exact ⟨log, rfl⟩
  | consume env => exact consumeStep_quiet h env
  | cancel | setEngine | setMode | others =>
    obtain ⟨log, rfl⟩ := h
    exact ⟨log, rfl⟩

/-- A run with a sink that never fails makes the same calls. -/
theorem run_quiet (h : SameButLog w w') (es : List Step) :
    SameButLog (run (step params) w es) (run (step params) w' (es.map Step.quiet)) := by
  induction es generalizing w w' with
  | nil => exact h
  | cons e es ih => exact ih (step_quiet h e)

/-! ## The trace -/

/-- When `Run` returns, every event sent has been written once, in the order of the source and before
the alerts and the incident that one engine, installed while the event was processed, has found; and
a sink that never fails would have been called in the same way. -/
theorem run_trace (params : Params σ) (engine : Engine) (correlators : ℕ → Correlator) (stages : σ)
    (responder : Option Responder) (es : List Step) (err : Option Go.Error)
    (h : (run (step params) (start engine correlators stages responder) es).consumer =
      .returned err) :
    ∃ outs : List Output,
      (run (step params) (start engine correlators stages responder) es).sent =
        outs.map Output.sent ∧
      (run (step params) (start engine correlators stages responder) es).attempts =
        outs.flatMap Output.attempts ++ [.flush] ∧
      (∀ k o, outs[k]? = some o →
        Computed params (start engine correlators stages responder) es k o) ∧
      (run (step params) (start engine correlators stages responder)
          (es.map Step.quiet)).attempts =
        (run (step params) (start engine correlators stages responder) es).attempts := by
  have hstart : Consistent params (start engine correlators stages responder) []
      (start engine correlators stages responder) :=
    ⟨fun hclosed => Bool.noConfusion hclosed, [], by simp, rfl, rfl, rfl⟩
  have hconsistent := run_history_invariant hstart (fun es e hes => consistent_step hes e) es
  obtain ⟨outs, hstanding⟩ := hconsistent.standing
  rw [h] at hstanding
  obtain ⟨hledger, -, hempty⟩ := hstanding
  refine ⟨outs, ?_, hledger.attempts_eq, hledger.computed, ?_⟩
  · rw [hledger.sent_eq, hempty]
    simp
  · have hsame : SameButLog (start engine correlators stages responder)
        (start engine correlators stages responder) := ⟨[], rfl⟩
    obtain ⟨log, hquiet⟩ := run_quiet hsame es
    rw [hquiet]

end

/-- The engine is swapped while the first of two events is processed, the sink refuses the first
event, and the context is cancelled. -/
def swapSteps : List (@Step .plain) :=
  letI : Library := .plain
  let domains : Engine := { intel := some fun _ => [⟨.domain⟩] }
  let web : Event := { host := "web" }
  let db : Event := { host := "db" }
  let tick : Step := .consume {}
  let fault : Step := .consume { sink := some (.errorf "disk full" []) }
  [.source (.send web), .source (.send db), tick, .setEngine domains, tick, tick, tick,
    .setEngine {}, tick, tick, fault, tick, tick, .cancel, .source (.finish none),
    .source .next, tick, tick, tick, tick, tick, tick, tick, tick, tick, tick, tick, .source .next,
    tick]

theorem run_trace_swap :
    letI : Library := .plain
    let w₀ : World Unit := start {} (fun _ => Correlate.newCorrelator 0 100) () none
    let w := run (step {}) w₀ swapSteps
    w.sent = [{ host := "web" }, { host := "db" }] ∧
    ∃ outs : List Output,
      w.sent = outs.map Output.sent ∧
      w.attempts = outs.flatMap Output.attempts ++ [.flush] ∧
      (∀ k o, outs[k]? = some o → Computed {} w₀ swapSteps k o) ∧
      (run (step {}) w₀ (swapSteps.map Step.quiet)).attempts = w.attempts := by
  let _ : Library := .plain
  refine ⟨by decide +kernel, ?_⟩
  exact run_trace {} {} (fun _ => Correlate.newCorrelator 0 100) () none swapSteps none
    (by decide +kernel)

end ArgusEdr.Pipeline
