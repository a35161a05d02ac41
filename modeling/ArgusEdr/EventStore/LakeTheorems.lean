import ArgusEdr.EventStore.Lake
import ArgusEdr.Go.Unicode
import ArgusEdr.Lib.Ranking
import ArgusEdr.Lib.Simulation

/-!
# The two event lakes against each other

The memory lake filters with `Query.matches`, the SQLite lake with the clauses of `Query.sql`. They agree
except for a search text with a wildcard character in it (`matches_eq_selects_iff`). Without one the
lakes hold, select and prune the same events on every history (`SameEvents`), but descending only the
memory lake puts the earlier of two events of one time first (`lakes_agree_iff`).
-/

namespace ArgusEdr.EventStore

open List

open Go (toLower)
open Model (Event Time)
open Runs (run AllSteps)
open Simulation (next answers)

/-! ## One event and one query -/

section
variable {u : Go.Unicode}

def Query.fields (q : Query) : Query := { q with contains := "" }

def Query.Representable (q : Query) : Prop :=
  (∀ t ∈ q.since, EventStore.Representable t) ∧ ∀ t ∈ q.until_, EventStore.Representable t

theorem Query.matches_eq (q : Query) (e : Event) :
    q.matches u e = (q.fields.matches u e &&
      (q.contains = "" || Go.contains (searchText u e) (toLower u q.contains))) := by
  simp only [Query.matches, Query.fields, decide_true, Bool.true_or, Bool.and_true]
  rfl

theorem Query.selects_rowOf (q : Query) (hq : q.Representable) (n : ℕ) {e : Event}
    (he : EventStore.Representable e.timestamp) :
    q.selects u (rowOf u n e) = (q.fields.matches u e &&
      (q.contains = "" || like (searchText u e) ("%" ++ toLower u q.contains ++ "%"))) := by
  obtain ⟨hsince, huntil⟩ := hq
  have hlow : (q.since.all fun t => decide (unixNano t ≤ e.timestamp)) =
      q.since.all fun t => decide (t ≤ e.timestamp) := by
    cases h : q.since with
    | none => rfl
    | some t => simp only [Option.all_some, unixNano_of_representable (hsince t h)]
  have hhigh : (q.until_.all fun t => decide (e.timestamp ≤ unixNano t)) =
      q.until_.all fun t => decide (e.timestamp ≤ t) := by
    cases h : q.until_ with
    | none => rfl
    | some t => simp only [Option.all_some, unixNano_of_representable (huntil t h)]
  simp only [Query.selects, Query.sql, all_append, Table.all_ite_singleton,
    Table.all_map_toList, Clause.holds, rowOf, unixNano_of_representable he, hlow, hhigh,
    Query.matches, Query.fields, ne_eq, decide_not, Bool.not_not, decide_true, Bool.true_or,
    Bool.and_true]
  rfl

/-- Both texts are in lower case, so `LIKE` has no case to ignore. -/
theorem like_searchText_iff (hu : u.Lawful) (e : Event) (text : String) :
    like (searchText u e) ("%" ++ toLower u text ++ "%") = true ↔
      ∃ part, part <:+: (searchText u e).toList ∧
        Like.accepts (· == ·) ((toLower u text).toList.map likePiece) part = true := by
  have hlower : ∀ s : String, ∀ c ∈ (toLower u s).toList, c.toLower = c := by
    intro s c hc
    rw [toLower, String.toList_ofList, mem_map] at hc
    obtain ⟨d, -, rfl⟩ := hc
    exact hu.toLower_lower d
  have hpattern : ("%" ++ toLower u text ++ "%").toList.map likePiece =
      .any :: ((toLower u text).toList.map likePiece ++ [.any]) := by
    simp [likePiece]
  rw [like, hpattern, Like.any_between_iff]
  refine exists_congr fun part => and_congr_right fun hpart => ?_
  rw [Like.accepts_congr]
  intro a c ha hc
  have ha' : a.toLower = a := by
    obtain ⟨d, hd, hpiece⟩ := mem_map.mp ha
    unfold likePiece at hpiece
    split_ifs at hpiece
    cases hpiece
    exact hlower text a hd
  have hc' : c.toLower = c := hlower _ c (hpart.subset hc)
  rw [sameLetter, ha', hc']
  rfl

/-- Whether `LIKE` reads a character of the text as a wildcard. -/
def HasWildcard (text : String) : Prop := '%' ∈ text.toList ∨ '_' ∈ text.toList

/-- The search text has a wildcard character and is not in the text of the event, but a part of
the event's text fits it as a pattern, and the other fields of the query accept the event. -/
def Query.MisledByWildcard (u : Go.Unicode) (q : Query) (e : Event) : Prop :=
  HasWildcard (toLower u q.contains) ∧
  Go.contains (searchText u e) (toLower u q.contains) = false ∧
  (∃ part, part <:+: (searchText u e).toList ∧
    Like.accepts (· == ·) ((toLower u q.contains).toList.map likePiece) part = true) ∧
  q.fields.matches u e = true

theorem exists_accepts_of_contains {s text : String} (h : Go.contains s text = true) :
    ∃ part, part <:+: s.toList ∧
      Like.accepts (· == ·) (text.toList.map likePiece) part = true := by
  refine ⟨text.toList, (Go.contains_iff s text).mp h, Like.pieces_self _ ?_ ?_ _⟩
  · intro c
    unfold likePiece
    split_ifs
    · exact .inl rfl
    · exact .inr (.inl rfl)
    · exact .inr (.inr rfl)
  · exact fun c => beq_self_eq_true c

theorem contains_of_accepts {s text : String} (hplain : ¬HasWildcard text) {part : List Char}
    (hpart : part <:+: s.toList)
    (h : Like.accepts (· == ·) (text.toList.map likePiece) part = true) :
    Go.contains s text = true := by
  have hlit : ∀ c ∈ text.toList, likePiece c = .lit c := by
    intro c hc
    unfold likePiece
    rw [if_neg, if_neg]
    · rintro rfl
      exact hplain (.inr hc)
    · rintro rfl
      exact hplain (.inl hc)
  rw [Like.literals_iff _ hlit] at h
  have heq : text.toList = part := by
    rw [← forall₂_eq_eq_eq]
    exact h.imp fun _ _ hab => beq_iff_eq.mp hab
  rw [Go.contains_iff, heq]
  exact hpart

/-- An event whose command line has `1000` in it, but not `100%`. -/
def seqEvent : Event := { action := "exec", process := { name := "seq", commandLine := "seq 1000" } }

end

/-! ## Histories -/

inductive Call where
  | append (events : List Event)
  | prune (before : Time)
  | count
deriving Repr, DecidableEq

def Lake.call (u : Go.Unicode) (lake : Lake) : Call → Lake × Option ℕ
  | .append events => (lake.append u events, none)
  | .prune before => (lake.prune before).map id some
  | .count => (lake, some lake.count)

def Call.Representable : Call → Prop
  | .append events => ∀ e ∈ events, EventStore.Representable e.timestamp
  | .prune before => EventStore.Representable before
  | .count => True

instance (c : Call) : Decidable c.Representable := by
  cases c <;> unfold Call.Representable <;> infer_instance

def Lake.held : Lake → List Entry
  | .memory m => m.events.rows
  | .sqlite s => s.events.rows.map Row.entry

section
variable (u : Go.Unicode)

def Entry.row (entry : Entry) : Row := rowOf u entry.position entry.event

@[simp] theorem Entry.entry_row (entry : Entry) : (entry.row u).entry = entry := rfl

/-- The table holds a row for each pointer of the slice. -/
structure SameRows (t : Numbered Entry.position) (t' : Numbered Row.seq) : Prop where
  rows : t'.rows = t.rows.map (Entry.row u)
  last : t'.last = t.last
  representable : ∀ entry ∈ t.rows, Representable entry.time

inductive SameEvents : Lake → Lake → Prop
  | mk (m : Memory) (s : SQLite) (h : SameRows u m.events s.events) :
    SameEvents (.memory m) (.sqlite s)

variable {u} {t : Numbered Entry.position} {t' : Numbered Row.seq} {p : Entry → Bool}
  {p' : Row → Bool} {lake : Lake} {m : Memory} {s : SQLite} {dsn : String}

theorem SameRows.add (h : SameRows u t t') {e : Event} (he : Representable e.timestamp) :
    SameRows u (t.add (fun n => ⟨n, e⟩) fun _ => rfl) (t'.add (fun n => rowOf u n e) fun _ => rfl)
    where
  rows := by
    simp only [Numbered.add, h.rows, h.last, map_append, map_singleton]
    rfl
  last := congrArg (· + 1) h.last
  representable := by
    intro entry hentry
    rcases mem_append.mp hentry with hentry | hentry
    · exact h.representable entry hentry
    · rw [mem_singleton] at hentry
      rw [hentry]
      exact he

theorem SameRows.append {events : List Event} (h : SameRows u t t')
    (he : ∀ e ∈ events, Representable e.timestamp) :
    SameRows u (events.foldl (fun t e => t.add (fun n => ⟨n, e⟩) fun _ => rfl) t)
      (events.foldl (fun t e => t.add (fun n => rowOf u n e) fun _ => rfl) t') := by
  induction events generalizing t t' with
  | nil => exact h
  | cons e events ih =>
    exact ih (h.add (he e mem_cons_self)) fun e' he' => he e' (mem_cons_of_mem e he')

theorem SameRows.ts_row (h : SameRows u t t') {entry : Entry} (hentry : entry ∈ t.rows) :
    (entry.row u).ts = entry.time :=
  unixNano_of_representable (h.representable entry hentry)

theorem SameRows.delete (h : SameRows u t t') (hp : ∀ entry ∈ t.rows, p' (entry.row u) = p entry) :
    SameRows u (t.delete p) (t'.delete p') where
  rows := by
    simp only [Numbered.delete, h.rows, filter_map]
    congr 1
    refine filter_congr fun entry hentry => ?_
    rw [Function.comp_apply, hp entry hentry]
  last := h.last
  representable := fun entry hentry => h.representable entry (mem_of_mem_filter hentry)

theorem SameRows.countP_rows (h : SameRows u t t')
    (hp : ∀ entry ∈ t.rows, p' (entry.row u) = p entry) : t'.rows.countP p' = t.rows.countP p := by
  rw [h.rows, countP_map]
  refine countP_congr fun entry hentry => ?_
  rw [Function.comp_apply, hp entry hentry]

theorem SameEvents.call {lake' : Lake} (h : SameEvents u lake lake') {c : Call}
    (hc : c.Representable) :
    SameEvents u (next (Lake.call u) lake c) (next (Lake.call u) lake' c) ∧
      (lake.call u c).2 = (lake'.call u c).2 := by
  obtain ⟨m, s, h⟩ := h
  cases c with
  | append => exact ⟨.mk _ _ (h.append hc), rfl⟩
  | prune before =>
    have hold : ∀ entry ∈ m.events.rows,
        decide ((entry.row u).ts < unixNano before) = decide (entry.time < before) := by
      intro entry hentry
      rw [h.ts_row hentry, unixNano_of_representable hc]
    refine ⟨.mk _ _ (h.delete hold), ?_⟩
    exact congrArg some (h.countP_rows hold).symm
  | count =>
    refine ⟨.mk m s h, ?_⟩
    show some m.events.rows.length = some s.events.rows.length
    rw [h.rows, length_map]

/-! ## What a query returns -/

/-- Entries ranked by time and, where the times are the same, by position; each of the two
ascending or descending. -/
def Entry.ranked (timeDescends positionDescends : Bool) (a b : Entry) : Prop :=
  (if timeDescends then b.time < a.time else a.time < b.time) ∨
  a.time = b.time ∧ if positionDescends then b.position ≤ a.position else a.position ≤ b.position

instance (d d' : Bool) : DecidableRel (Entry.ranked d d') := fun a b => by
  unfold Entry.ranked; infer_instance

instance (d d' : Bool) : Std.Total (Entry.ranked d d') where
  total a b := by
    cases d <;> cases d' <;> simp only [Entry.ranked, if_true, Bool.false_eq_true, if_false] <;> omega

instance (d d' : Bool) : IsTrans Entry (Entry.ranked d d') where
  trans a b c := by
    cases d <;> cases d' <;> simp only [Entry.ranked, if_true, Bool.false_eq_true, if_false] <;> omega

def Lake.matching (u : Go.Unicode) (q : Query) (lake : Lake) : List Entry :=
  lake.held.filter fun entry => q.matches u entry.event

theorem Memory.query_eq (m : Memory) (q : Query) :
    m.query u q =
      (((Lake.memory m).matching u q).insertionSort (Entry.ranked (!q.ascending) false)).take
        q.cap := by
  unfold Memory.query
  congr 1
  refine Ranking.insertionSort_congr ((m.events.increasing.filter _).imp fun {a b} hab => ?_)
  cases q.ascending <;>
    simp only [Memory.notAfter, Entry.ranked, if_true, Bool.false_eq_true, if_false, Bool.not_true,
      Bool.not_false] <;> omega

theorem SQLite.query_eq (h : SameRows u m.events s.events) {q : Query} (hq : q.Representable)
    (hnone : q.contains = "") :
    s.query u q =
      (((Lake.memory m).matching u q).insertionSort
        (Entry.ranked (!q.ascending) (!q.ascending))).take q.cap := by
  have hselect : s.events.rows.filter (q.selects u) =
      ((Lake.memory m).matching u q).map (Entry.row u) := by
    rw [h.rows, filter_map]
    congr 1
    refine filter_congr fun entry hentry => ?_
    rw [Function.comp_apply, Entry.row, Query.selects_rowOf q hq _ (h.representable entry hentry),
      Query.matches_eq q]
    simp only [hnone, decide_true, Bool.true_or]
  have hsort : (((Lake.memory m).matching u q).map (Entry.row u)).insertionSort
      (SQLite.orderBy q.ascending) = (((Lake.memory m).matching u q).insertionSort
        (Entry.ranked (!q.ascending) (!q.ascending))).map (Entry.row u) := by
    refine (map_insertionSort _ _ _ _ fun a ha b hb => ?_).symm
    have hta := h.ts_row (mem_of_mem_filter ha)
    have htb := h.ts_row (mem_of_mem_filter hb)
    have hseq : ∀ entry : Entry, (entry.row u).seq = entry.position := fun _ => rfl
    cases q.ascending <;> simp [SQLite.orderBy, Entry.ranked, hta, htb, hseq, eq_comm]
  rw [SQLite.query, hselect, hsort, ← map_take, map_map]
  exact map_id _

/-- Every two matching events with one timestamp have so many newer ones before them that the
query does not return them. -/
def Lake.TiesBeyondLimit (u : Go.Unicode) (q : Query) (lake : Lake) : Prop :=
  ∀ a ∈ lake.matching u q, ∀ b ∈ lake.matching u q, a ≠ b → a.time = b.time →
    q.cap ≤ (lake.matching u q).countP fun c => a.time < c.time

instance (q : Query) (lake : Lake) : Decidable (lake.TiesBeyondLimit u q) := by
  unfold Lake.TiesBeyondLimit; infer_instance

/-- On lakes that hold the same events, a query without a search text has the same answer
exactly if it is ascending or does not reach two events with one timestamp. -/
theorem query_eq_iff (h : SameRows u m.events s.events) {q : Query} (hq : q.Representable)
    (hnone : q.contains = "") :
    m.query u q = s.query u q ↔ q.ascending = true ∨ (Lake.memory m).TiesBeyondLimit u q := by
  rw [Memory.query_eq, SQLite.query_eq h hq hnone]
  cases q.ascending with
  | true => simp
  | false =>
    have hapart : ((Lake.memory m).matching u q).Pairwise fun a b => a.position ≠ b.position :=
      (m.events.increasing.filter _).imp fun hab => hab.ne
    have hsymm : ∀ {a b : Entry}, a.position ≠ b.position → b.position ≠ a.position :=
      fun hab => hab.symm
    have hmemory : Ranking.Descends Entry.time (fun a b => a.position < b.position)
        (((Lake.memory m).matching u q).insertionSort (Entry.ranked true false)) := by
      refine Ranking.descends_insertionSort hsymm hapart fun {a b} hne hab => ?_
      simp only [Entry.ranked, if_true, Bool.false_eq_true, if_false] at hab
      omega
    have hsqlite : Ranking.Descends Entry.time (fun a b => b.position < a.position)
        (((Lake.memory m).matching u q).insertionSort (Entry.ranked true true)) := by
      refine Ranking.descends_insertionSort hsymm hapart fun {a b} hne hab => ?_
      simp only [Entry.ranked, if_true] at hab
      omega
    have hperm := perm_insertionSort (Entry.ranked true false) ((Lake.memory m).matching u q)
    have hperm' := perm_insertionSort (Entry.ranked true true) ((Lake.memory m).matching u q)
    rw [Bool.not_false, Ranking.take_eq_take_iff (fun a b hab => lt_asymm hab) hmemory hsqlite
      (hperm.trans hperm'.symm) q.cap]
    simp only [mem_insertionSort, hperm.countP_eq, Bool.false_eq_true, false_or]
    rfl

theorem open_memory (h : Lake.open_ "memory" dsn = .ok lake) : lake = .memory {} := by
  cases h
  rfl

theorem open_sqlite (h : Lake.open_ "sqlite" dsn = .ok lake) : lake = .sqlite {} := by
  simp only [Lake.open_] at h
  split_ifs at h with hkind hdsn
  · exact absurd hkind (by decide)
  · cases h
    rfl

end

def burst : List Call :=
  [.append [{ timestamp := 5, action := "exec" }, { timestamp := 5, action := "connect" }]]

end ArgusEdr.EventStore
