import ArgusEdr.Hunt.PrintingTheorems

/-!
# The window of a sequence

A window is a number and a unit. It is read in two ways: with a unit as a text for `time.ParseDuration`,
which knows no days, and without one as an integer that is multiplied by a second, which wraps.
`compile_window` reduces compiling a query with a window to reading the window.
-/

namespace ArgusEdr.Hunt

open List

open Fallible (map_eq_ok)
open Go (Library Classes)
open Parsing

/-! ## Reading a window -/

/-- The units of a window, in nanoseconds. A bare number is a number of seconds. -/
def windowUnits : List (Option Char × ℕ) :=
  [(none, 1000000000), (some 's', 1000000000), (some 'm', 60000000000), (some 'h', 3600000000000),
   (some 'd', 86400000000000)]

def windowToken (ds : List Char) : Option Char → Token
  | none => ⟨.number, String.ofList ds⟩
  | some unit => ⟨.duration, String.ofList (ds ++ [unit])⟩

def readWindow (ds : List Char) : Option Char → Except Go.Error Model.Time
  | none =>
    match Go.atoi (String.ofList ds) with
    | .error err => .error (.wrapf "invalid duration %q: %w" [String.ofList ds] err)
    | .ok secs => .ok ((secs * 1000000000).bmod (2 ^ 64))
  | some unit => Go.parseDuration (String.ofList (ds ++ [unit]))

theorem run_parseDuration (ds : List Char) (unit : Option Char) (rest : List Token) :
    parseDuration.run (windowToken ds unit :: rest) =
      match readWindow ds unit with
      | .error e => .error (.err e)
      | .ok within => .ok (within, rest) := by
  unfold parseDuration
  rw [run_bind_ok (run_next_cons _ _)]
  cases unit with
  | none =>
    simp only [windowToken, readWindow]
    cases Go.atoi (String.ofList ds) <;> rfl
  | some unit =>
    simp only [windowToken, readWindow]
    cases Go.parseDuration (String.ofList (ds ++ [unit])) <;> rfl

section
variable {cls : Classes} {ds : List Char} {n : ℕ} (hds : Go.Digits ds n)
include hds

theorem lex_window {unit : Option Char} {size : ℕ} (hunit : (unit, size) ∈ windowUnits)
    {tail : List Char} (htail : NumberEnded cls tail) :
    lex cls (ds ++ unit.toList ++ tail) = (lex cls tail).map (windowToken ds unit :: ·) := by
  have hround : ∃ c rest, ds ++ unit.toList = c :: rest ∧
      lexToken cls c (rest ++ tail) = .ok (some (windowToken ds unit), tail) := by
    cases unit with
    | none =>
      rw [Option.toList_none, append_nil]
      obtain ⟨c, rest, htext, hround⟩ := lexToken_number (isNumber_of_digits hds) htail
      rw [String.toList_ofList] at htext
      exact ⟨c, rest, htext, hround⟩
    | some =>
      refine lexToken_duration hds ?_ htail
      simp only [windowUnits, mem_cons, Prod.mk.injEq, reduceCtorEq, false_and,
        Option.some.injEq, not_mem_nil, or_false, false_or] at hunit
      rcases hunit with ⟨rfl, -⟩ | ⟨rfl, -⟩ | ⟨rfl, -⟩ | ⟨rfl, -⟩ <;> decide
  obtain ⟨c, rest, htext, hround⟩ := hround
  rw [htext, cons_append, lex_cons hround]
  rfl

theorem readWindow_bare (hn : n < 2 ^ 63) :
    readWindow ds none = .ok (((n * 1000000000 : ℕ) : ℤ).bmod (2 ^ 64)) := by
  rw [readWindow, Go.atoi_digits hds hn, Nat.cast_mul]
  rfl

theorem exists_readWindow_bare_error (hn : 2 ^ 63 ≤ n) :
    ∃ e, readWindow ds none = .error e := by
  obtain ⟨e, he⟩ := Go.exists_atoi_error hds hn
  rw [readWindow, he]
  exact ⟨_, rfl⟩

end

/-! ## Queries with a window -/

section
variable [Library]

/-- The part of `parseSequence` behind the window. -/
def parseStages (fuel : ℕ) : P (List Stage) := do
  let _ ← expect .colon "expected ':' before sequence stages, got %q"
  let stages ← chain (acceptKind .semicolon) (parseStage fuel) (fun st => [st])
    fun sts st => sts ++ [st]
  if stages.length < 2 then
    fail (.errorf "a sequence needs at least two stages separated by ';'" [])
  else return stages

/-- The part of `parse` behind the window of a sequence. -/
def finishSequence (fuel : ℕ) (byField : String) (within : Model.Time) : P Query := do
  let stages ← parseStages fuel
  let t ← peek
  if t.kind ≠ .eof then fail (.errorf "unexpected %q after query" [t.text])
  else return .sequence { byField, within, stages }

theorem parseAll_sequence (fuel : ℕ) (ts : List Token) :
    (parseAll fuel).run (word "sequence" :: ts) =
      (do
        let byField ← parseBy
        let within ← parseWithin
        finishSequence fuel byField within : P Query).run ts := by
  unfold parseAll parseQuery
  rw [bind_assoc, run_bind_ok (run_accept_word _ _), if_pos rfl]
  congr 1
  simp only [parseSequence, finishSequence, parseStages, bind_assoc]
  congr 1
  funext byField
  congr 1
  funext within
  congr 1
  funext _
  congr 1
  funext stages
  split
  · rfl
  · simp only [pure_bind]

theorem run_finishSequence {fuel : ℕ} {byField : String} {within within' : Model.Time}
    {ts rest : List Token} {q : SequenceQuery}
    (h : (finishSequence fuel byField within).run ts = .ok (.sequence q, rest)) :
    (finishSequence fuel byField within').run ts =
      .ok (.sequence { q with within := within' }, rest) := by
  unfold finishSequence at h ⊢
  rw [StateT.run_bind] at h ⊢
  cases hstages : (parseStages fuel).run ts with
  | error =>
    rw [hstages] at h
    cases h
  | ok r =>
    obtain ⟨stages, left⟩ := r
    rw [hstages] at h
    cases left with
    | nil => cases h
    | cons t left =>
      have hrun : ∀ w : Model.Time,
          (do
            let t ← peek
            if t.kind ≠ .eof then fail (.errorf "unexpected %q after query" [t.text])
            else return .sequence { byField, within := w, stages } : P Query).run (t :: left) =
            if t.kind ≠ .eof then .error (.err (.errorf "unexpected %q after query" [t.text]))
            else .ok (.sequence { byField, within := w, stages }, t :: left) := by
        intro w
        rw [run_bind_ok (run_peek_cons t left)]
        split <;> rfl
      have hw := (hrun within).symm.trans h
      show StateT.run _ (t :: left) = _
      refine (hrun within').trans ?_
      split at hw
      · cases hw
      · next heof =>
        rw [if_neg heof]
        cases hw
        rfl

/-- The grouping of a sequence, if it has one. -/
def Grouping (bs : List Token) : Prop := bs = [] ∨ ∃ field, bs = [word "by", word field]

omit [Library] in
theorem Grouping.run_parseBy {bs ts : List Token} (hbs : Grouping bs) {r : String × List Token}
    (hts : NotWord ts) (h : parseBy.run (bs ++ ts) = .ok r) :
    r.2 = ts ∧ ∀ rest, (accept "by").run rest = .ok (false, rest) →
      parseBy.run (bs ++ rest) = .ok (r.1, rest) := by
  obtain rfl | ⟨field, rfl⟩ := hbs
  · have hnone : ∀ rest, (accept "by").run rest = .ok (false, rest) →
        parseBy.run ([] ++ rest) = .ok ("", rest) := by
      intro rest hrest
      unfold parseBy
      rw [nil_append, run_bind_ok hrest]
      rfl
    rw [hnone ts (hts.run_accept _)] at h
    cases h
    exact ⟨rfl, hnone⟩
  · have hsome : ∀ rest, parseBy.run ([word "by", word field] ++ rest) =
        if Model.knownField field then .ok (field, rest)
        else .error (.err (.errorf "unknown field %q" [field])) := by
      intro rest
      show StateT.run parseBy (word "by" :: word field :: rest) = _
      unfold parseBy parseField
      rw [run_bind_ok (run_accept_word _ _), if_pos rfl,
        run_bind_ok (run_expect_cons (word_kind field) _ _), word_text]
      by_cases hknown : Model.knownField field
      · rw [if_pos hknown, if_neg (not_not.mpr hknown)]
        rfl
      · rw [if_neg hknown, if_pos hknown]
        rfl
    rw [hsome] at h
    split at h
    · next hknown =>
      cases h
      refine ⟨rfl, fun rest _ => ?_⟩
      rw [hsome, if_pos hknown]
    · cases h

/-- The query compiles to the window that is written, or is rejected and the window does not
fit. -/
def ExactWindow (cls : Classes) (source : String) (q : SequenceQuery) (n size : ℕ) : Prop :=
  n * size < 2 ^ 63 ∧ compile cls source = .ok (.sequence { q with within := (n * size : ℕ) }) ∨
    2 ^ 63 ≤ n * size ∧ ∃ e, compile cls source = .error (.err e)

section
variable {cls : Classes} {bare source : String} {bs body : List Token} {q : SequenceQuery}
  (hbs : Grouping bs)
  (hbare : lex cls bare.toList = .ok (word "sequence" :: (bs ++ ⟨.colon, ":"⟩ :: body)))
  (hq : compile cls bare = .ok (.sequence q))
include hbs hbare hq

theorem exists_run_finishSequence (fuel : ℕ) (hfuel : bs.length + body.length + 2 ≤ fuel) :
    ∃ byField rest,
      (∀ ts, (accept "by").run ts = .ok (false, ts) → parseBy.run (bs ++ ts) = .ok (byField, ts)) ∧
      ∀ within, (finishSequence fuel byField within).run (⟨.colon, ":"⟩ :: body) =
        .ok (.sequence { q with within }, rest) := by
  have hcolon : NotWord (⟨.colon, ":"⟩ :: body) := ⟨_, _, rfl, by simp⟩
  have hparse : parseTokens fuel (word "sequence" :: (bs ++ ⟨.colon, ":"⟩ :: body)) =
      .ok (.sequence q) := by
    obtain ⟨outcome, -, hsame⟩ := parseTokens_of_lex hbare
    rw [compile, hbare] at hq
    rw [hsame fuel (by simp; omega), ← hsame _ le_rfl]
    exact hq
  rw [parseTokens, parseAll_sequence] at hparse
  obtain ⟨⟨_, rest⟩, hrun, rfl⟩ := map_eq_ok hparse
  rw [StateT.run_bind] at hrun
  cases hby : parseBy.run (bs ++ ⟨.colon, ":"⟩ :: body) with
  | error =>
    rw [hby] at hrun
    cases hrun
  | ok r =>
    obtain ⟨hleft, hreads⟩ := hbs.run_parseBy hcolon hby
    obtain ⟨byField, left⟩ := r
    obtain rfl : left = ⟨.colon, ":"⟩ :: body := hleft
    have hwithin : parseWithin.run (⟨.colon, ":"⟩ :: body) = .ok (0, ⟨.colon, ":"⟩ :: body) := by
      unfold parseWithin
      rw [run_bind_ok (hcolon.run_accept _)]
      rfl
    rw [hby] at hrun
    have hfinish : (finishSequence fuel byField 0).run (⟨.colon, ":"⟩ :: body) =
        .ok (.sequence q, rest) := (run_bind_ok hwithin).symm.trans hrun
    exact ⟨byField, rest, hreads, fun within => run_finishSequence hfinish⟩

variable {ds : List Char} {unit : Option Char}
  (hlex : lex cls source.toList = .ok (word "sequence" ::
    (bs ++ word "within" :: windowToken ds unit :: ⟨.colon, ":"⟩ :: body)))
include hlex

theorem compile_window :
    compile cls source =
      match readWindow ds unit with
      | .error e => .error (.err e)
      | .ok within => .ok (.sequence { q with within }) := by
  rw [compile, hlex]
  dsimp only
  obtain ⟨byField, rest, hby, hfinish⟩ := exists_run_finishSequence hbs hbare hq
    (word "sequence" :: (bs ++ word "within" :: windowToken ds unit :: ⟨.colon, ":"⟩ :: body)).length
    (by simp; omega)
  have hnotBy : ∀ ts, (accept "by").run (word "within" :: ts) = .ok (false, word "within" :: ts) :=
    fun ts => by rw [run_accept_cons, if_neg (by simp)]
  have hwithin : parseWithin.run (word "within" :: windowToken ds unit :: ⟨.colon, ":"⟩ :: body) =
      parseDuration.run (windowToken ds unit :: ⟨.colon, ":"⟩ :: body) := by
    unfold parseWithin
    rw [run_bind_ok (run_accept_word _ _), if_pos rfl]
  rw [parseTokens, parseAll_sequence, run_bind_ok (hby _ (hnotBy _)), StateT.run_bind, hwithin,
    run_parseDuration]
  cases readWindow ds unit with
  | error => rfl
  | ok within =>
    show Except.map Prod.fst ((finishSequence _ byField within).run _) = _
    rw [hfinish within]
    rfl

theorem exactWindow_iff_of_error {e : Go.Error} (hread : readWindow ds unit = .error e) (n size : ℕ) :
    ExactWindow cls source q n size ↔ 2 ^ 63 ≤ n * size := by
  have hcompile := compile_window hbs hbare hq hlex
  rw [hread] at hcompile
  constructor
  · rintro (⟨-, hok⟩ | ⟨hlarge, -⟩)
    · rw [hcompile] at hok
      cases hok
    · exact hlarge
  · intro hlarge
    exact .inr ⟨hlarge, e, hcompile⟩

theorem exactWindow_iff_of_ok {within : Model.Time} (hread : readWindow ds unit = .ok within)
    (n size : ℕ) :
    ExactWindow cls source q n size ↔ n * size < 2 ^ 63 ∧ within = (n * size : ℕ) := by
  have hcompile := compile_window hbs hbare hq hlex
  rw [hread] at hcompile
  constructor
  · rintro (⟨hfits, hok⟩ | ⟨-, e, herror⟩)
    · rw [hcompile] at hok
      simp only [Except.ok.injEq, Query.sequence.injEq, SequenceQuery.mk.injEq] at hok
      exact ⟨hfits, hok.2.1⟩
    · rw [hcompile] at herror
      cases herror
  · rintro ⟨hfits, rfl⟩
    exact .inl ⟨hfits, hcompile⟩

/-- A window, as it is written, is one token. Windows in seconds, minutes and hours are exact. A
window in days is rejected, so it is exact only if it does not fit. A bare number of seconds that
fits an integer is exact only if it fits as a duration: otherwise it wraps. -/
theorem exact_window_iff {n size : ℕ} (hds : Go.Digits ds n) (hunit : (unit, size) ∈ windowUnits) :
    (∀ tail, NumberEnded cls tail →
      lex cls (ds ++ unit.toList ++ tail) = (lex cls tail).map (windowToken ds unit :: ·)) ∧
    (ExactWindow cls source q n size ↔
      (unit = some 'd' → 2 ^ 63 ≤ n * size) ∧
      (unit = none → n * size < 2 ^ 63 ∨ 2 ^ 63 ≤ n)) := by
  refine ⟨fun tail htail => lex_window hds hunit htail, ?_⟩
  have hok : ∀ {within}, readWindow ds unit = .ok within → ∀ n size : ℕ,
      (ExactWindow cls source q n size ↔ n * size < 2 ^ 63 ∧ within = (n * size : ℕ)) :=
    exactWindow_iff_of_ok hbs hbare hq hlex
  have herror : ∀ {e}, readWindow ds unit = .error e → ∀ n size : ℕ,
      (ExactWindow cls source q n size ↔ 2 ^ 63 ≤ n * size) :=
    exactWindow_iff_of_error hbs hbare hq hlex
  have hnone : (none : Option Char) ≠ some 'd' := Option.some_ne_none 'd' |>.symm
  cases unit with
  | none =>
    obtain rfl : size = 1000000000 := by simpa [windowUnits] using hunit
    by_cases hn : n < 2 ^ 63
    · rw [hok (readWindow_bare hds hn)]
      have hwraps : n * 1000000000 < 2 ^ 63 →
          ((n * 1000000000 : ℕ) : ℤ).bmod (2 ^ 64) = (n * 1000000000 : ℕ) := fun hfits =>
        Int.bmod_eq_of_le (by omega) (by omega)
      constructor
      · exact fun h => ⟨fun hday => absurd hday hnone, fun _ => .inl h.1⟩
      · exact fun h => (h.2 rfl).elim (fun hfits => ⟨hfits, hwraps hfits⟩) fun h => absurd h (by omega)
    · obtain ⟨e, he⟩ := exists_readWindow_bare_error hds (not_lt.mp hn)
      rw [herror he]
      exact iff_of_true (by omega) ⟨fun hday => absurd hday hnone, fun _ => .inr (not_lt.mp hn)⟩
  | some unit =>
    have hsome : some unit ≠ none := Option.some_ne_none unit
    by_cases hday : unit = 'd'
    · obtain ⟨e, he⟩ := Go.exists_parseDuration_error hds
      rw [hday, herror (by rw [hday]; exact he)]
      exact ⟨fun h => ⟨fun _ => h, fun hbare => absurd hbare (by simp)⟩, fun h => h.1 rfl⟩
    · have hwhole : (unit, size) ∈ Go.wholeUnits := by
        simpa [windowUnits, Go.wholeUnits, hday] using hunit
      have hread : readWindow ds (some unit) = _ := Go.parseDuration_digits hds hwhole
      refine iff_of_true ?_ ⟨fun h => absurd (Option.some.inj h) hday, fun h => absurd h hsome⟩
      by_cases hfits : n * size < 2 ^ 63
      · rw [if_pos hfits] at hread
        exact (hok hread n size).mpr ⟨hfits, rfl⟩
      · rw [if_neg hfits] at hread
        exact (herror hread n size).mpr (not_lt.mp hfits)

end

end

/-! ## Runs -/

def execThenConnect : @SequenceQuery .plain :=
  letI : Library := .plain
  { stages := [{ cls := { action := "exec" } }, { cls := { action := "connect" } }] }

def execThenConnectTokens : List Token :=
  [⟨.colon, ":"⟩, word "exec", ⟨.semicolon, ";"⟩, word "connect", .eof]

theorem compile_execThenConnect :
    letI : Library := .plain
    lex .ascii "sequence: exec; connect".toList =
      .ok (word "sequence" :: ([] ++ execThenConnectTokens)) ∧
    compile .ascii "sequence: exec; connect" = .ok (.sequence execThenConnect) := by
  have hlex : lex .ascii "sequence: exec; connect".toList =
      .ok (word "sequence" :: ([] ++ execThenConnectTokens)) := by
    decide +kernel
  refine ⟨hlex, ?_⟩
  unfold compile
  rw [hlex]
  rfl

theorem compile_execThenConnect_within {source : String} (ds : List Char) (unit : Option Char)
    (hlex : lex .ascii source.toList = .ok (word "sequence" ::
      ([] ++ word "within" :: windowToken ds unit :: execThenConnectTokens))) :
    letI : Library := .plain
    compile .ascii source =
      match readWindow ds unit with
      | .error e => .error (.err e)
      | .ok within => .ok (.sequence { execThenConnect with within }) :=
  let _ : Library := .plain
  compile_window (.inl rfl) compile_execThenConnect.1 compile_execThenConnect.2 hlex

/-- A window of a day is rejected; one of `2 ^ 55` seconds is compiled to none, and one second
more than fits to a negative one. -/
theorem day_rejected_and_seconds_wrap :
    letI : Library := .plain
    compile .ascii "sequence within 1d : exec ; connect" =
      .error (.err (.errorf "time: unknown unit %q in duration %q" ["d", "1d"])) ∧
    compile .ascii "sequence within 36028797018963968 : exec ; connect" =
      .ok (.sequence execThenConnect) ∧
    compile .ascii "sequence within 9223372037 : exec ; connect" =
      .ok (.sequence { execThenConnect with within := -9223372036709551616 }) := by
  let _ : Library := .plain
  have hday : readWindow ['1'] (some 'd') =
      .error (.errorf "time: unknown unit %q in duration %q" ["d", "1d"]) := by decide +kernel
  have hzero : readWindow "36028797018963968".toList none = .ok 0 := by decide +kernel
  have hnegative : readWindow "9223372037".toList none = .ok (-9223372036709551616) := by
    decide +kernel
  refine ⟨?_, ?_, ?_⟩
  · rw [compile_execThenConnect_within ['1'] (some 'd') (by decide +kernel), hday]
  · rw [compile_execThenConnect_within "36028797018963968".toList none (by decide +kernel), hzero]
    rfl
  · rw [compile_execThenConnect_within "9223372037".toList none (by decide +kernel), hnegative]

/-- Five minutes are five minutes. -/
theorem five_minutes_exact :
    letI : Library := .plain
    ExactWindow .ascii "sequence within 5m: exec; connect" execThenConnect 5 60000000000 := by
  let _ : Library := .plain
  have hlex : lex .ascii "sequence within 5m: exec; connect".toList =
      .ok (word "sequence" :: ([] ++ word "within" :: windowToken ['5'] (some 'm') ::
        execThenConnectTokens)) := by
    decide +kernel
  have hds : Go.Digits ['5'] 5 := Go.digits_toDigits 5
  refine (exact_window_iff (.inl rfl) compile_execThenConnect.1 compile_execThenConnect.2 hlex hds
    (by decide)).2.mpr ⟨by decide, nofun⟩

end ArgusEdr.Hunt
