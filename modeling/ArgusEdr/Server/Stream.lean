import ArgusEdr.Lib.Runs

/-!
# The live alert feed (`cmd/argus-server/stream.go`)

The broadcaster fans recorded alerts out to the consoles. Each has a channel, and a payload is dropped
for one whose channel is full. Publishing, subscribing and unsubscribing hold one lock; the handlers of
the consoles receive in between. `none` is a panic: sending on a closed channel, or closing it again.
-/

namespace ArgusEdr.Stream

open List Runs

variable {α : Type*}

def streamBuffer : ℕ := 32

/-- The channel of a console. `offered` records what was published while it was subscribed, and
whether there was room for it, and `taken` what its handler has received. -/
structure Feed (α : Type*) where
  buffer : List α := []
  closed : Bool := false
  /-- whether it is in the map of the broadcaster -/
  subscribed : Bool := true
  offered : List (α × Bool) := []
  taken : List α := []

namespace Feed

/-- `select { case ch <- payload: default: }`. -/
def send (payload : α) (feed : Feed α) : Option (Feed α) :=
  let room := decide (feed.buffer.length < streamBuffer)
  if feed.closed then none
  else
    some
      { feed with
        buffer := if room then feed.buffer ++ [payload] else feed.buffer
        offered := feed.offered ++ [(payload, room)] }

def close (feed : Feed α) : Option (Feed α) :=
  if feed.closed then none else some { feed with closed := true }

/-- One round of the loop of `publish`. -/
def publish (payload : α) (feed : Feed α) : Option (Feed α) :=
  if feed.subscribed then feed.send payload else some feed

def unsubscribe (feed : Feed α) : Option (Feed α) :=
  if feed.subscribed then { feed with subscribed := false }.close else some feed

/-- The handler receives a payload, if one is waiting. -/
def receive (feed : Feed α) : Option (Feed α) :=
  match feed.buffer with
  | [] => some feed
  | payload :: buffer => some { feed with buffer, taken := feed.taken ++ [payload] }

end Feed

inductive Event (α : Type*) where
  | subscribe
  | unsubscribe (n : ℕ)
  | publish (payload : α)
  | receive (n : ℕ)

/-- What happens to console number `n`. -/
def onFeed (n : ℕ) (act : Feed α → Option (Feed α)) (feeds : List (Feed α)) : Option (List (Feed α)) :=
  match feeds[n]? with
  | none => some feeds
  | some feed => (act feed).map fun feed => feeds.set n feed

def step (world : Option (List (Feed α))) (e : Event α) : Option (List (Feed α)) :=
  world.bind fun feeds =>
    match e with
    | .subscribe => some (feeds ++ [{}])
    | .unsubscribe n => onFeed n Feed.unsubscribe feeds
    | .publish payload => feeds.mapM (Feed.publish payload)
    | .receive n => onFeed n Feed.receive feeds

/-- A channel is closed when it leaves the map, is never longer than its limit, and what has gone
through it and waits in it are the payloads there was room for, in order. -/
structure Feed.Sound (feed : Feed α) : Prop where
  closed : feed.closed = !feed.subscribed
  bounded : feed.buffer.length ≤ streamBuffer
  fifo : feed.taken ++ feed.buffer = (feed.offered.filter Prod.snd).map Prod.fst

/-- An operation on a channel that neither panics nor breaks it. -/
def Safe (act : Feed α → Option (Feed α)) : Prop :=
  ∀ feed, feed.Sound → ∃ feed', act feed = some feed' ∧ feed'.Sound

theorem safe_publish (payload : α) : Safe (Feed.publish payload) := by
  rintro feed ⟨hclosed, hbounded, hfifo⟩
  unfold Feed.publish Feed.send
  cases hsub : feed.subscribed with
  | false => exact ⟨feed, rfl, hclosed, hbounded, hfifo⟩
  | true =>
    have hopen : feed.closed = false := by rw [hclosed, hsub, Bool.not_true]
    simp only [hopen]
    -- with room the payload goes behind what waits, and without it is only recorded
    by_cases hroom : feed.buffer.length < streamBuffer
    · simp only [hroom, decide_true]
      exact ⟨_, rfl, rfl, by simpa using hroom, by simp [← hfifo]⟩
    · simp only [hroom, decide_false]
      exact ⟨_, rfl, rfl, hbounded, by simpa using hfifo⟩

theorem safe_unsubscribe : Safe (Feed.unsubscribe (α := α)) := by
  rintro feed ⟨hclosed, hbounded, hfifo⟩
  unfold Feed.unsubscribe Feed.close
  cases hsub : feed.subscribed with
  | false => exact ⟨feed, rfl, hclosed, hbounded, hfifo⟩
  | true =>
    have hopen : feed.closed = false := by rw [hclosed, hsub, Bool.not_true]
    simp only [hopen]
    exact ⟨_, rfl, rfl, hbounded, hfifo⟩

theorem safe_receive : Safe (Feed.receive (α := α)) := by
  rintro feed ⟨hclosed, hbounded, hfifo⟩
  unfold Feed.receive
  cases hbuffer : feed.buffer with
  | nil => exact ⟨feed, rfl, hclosed, hbounded, hfifo⟩
  | cons payload buffer =>
    rw [hbuffer] at hbounded hfifo
    refine ⟨_, rfl, hclosed, ?_, by simpa using hfifo⟩
    exact (Nat.le_succ _).trans hbounded

theorem exists_mapM {act : Feed α → Option (Feed α)} (hact : Safe act) {feeds : List (Feed α)}
    (h : ∀ feed ∈ feeds, feed.Sound) :
    ∃ feeds', feeds.mapM act = some feeds' ∧ ∀ feed ∈ feeds', feed.Sound := by
  induction feeds with
  | nil => exact ⟨[], rfl, by simp⟩
  | cons feed feeds ih =>
    rcases hact feed (h feed mem_cons_self) with ⟨feed', hfeed, hsound⟩
    rcases ih fun feed hmem => h feed (mem_cons_of_mem _ hmem) with ⟨feeds', hfeeds, hall⟩
    exact ⟨feed' :: feeds', by simp [mapM_cons, hfeed, hfeeds], forall_mem_cons.mpr ⟨hsound, hall⟩⟩

theorem exists_onFeed {act : Feed α → Option (Feed α)} (hact : Safe act) (n : ℕ)
    {feeds : List (Feed α)} (h : ∀ feed ∈ feeds, feed.Sound) :
    ∃ feeds', onFeed n act feeds = some feeds' ∧ ∀ feed ∈ feeds', feed.Sound := by
  unfold onFeed
  cases hn : feeds[n]? with
  | none => exact ⟨feeds, rfl, h⟩
  | some feed =>
    rcases hact feed (h feed (mem_of_getElem? hn)) with ⟨feed', hfeed, hsound⟩
    refine ⟨feeds.set n feed', by simp [hfeed], fun other hother => ?_⟩
    rcases mem_or_eq_of_mem_set hother with hother | rfl
    · exact h other hother
    · exact hsound

end ArgusEdr.Stream
