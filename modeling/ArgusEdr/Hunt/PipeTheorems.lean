import ArgusEdr.Hunt.Printing
import ArgusEdr.Hunt.Run
import ArgusEdr.Hunt.ToRuleTheorems

/-!
# What a further pipe does to a hunt

`runSimple` applies the filters of all pipes first and cuts once, at the last limit. So a further
`where` of a query with a limit makes room for events the query did not return, and a further
`limit` takes the place of the one before it, also if it is larger; zero takes it away.
`narrows_iff` says exactly when a further pipe narrows a hunt nevertheless.
-/

namespace ArgusEdr.Hunt

open List

open EventStore (Entry Lake)
open Go (Library)
open Model (Event)

/-! ## Cutting and filtering -/

section
variable {α : Type} {f : α → Bool} {l : List α} {m n : ℕ}

theorem take_sublist_take_iff : (l.take m).Sublist (l.take n) ↔ m ≤ n ∨ l.length ≤ n := by
  constructor
  · intro h
    have hlen := h.length_le
    rw [length_take, length_take] at hlen
    omega
  · intro h
    cases h with
    | inl hle => exact (take_prefix_take_left hle).sublist
    | inr hle =>
      rw [take_of_length_le hle]
      exact take_sublist m l

theorem take_filter_sublist_take_iff :
    ((l.filter f).take n).Sublist (l.take n) ↔
      (∀ a ∈ l.drop n, f a = false) ∨ ∀ a ∈ l.take n, f a = true := by
  have hsplit : l.filter f = (l.take n).filter f ++ (l.drop n).filter f := by
    rw [← filter_append, take_append_drop]
  have hlen : ((l.take n).filter f).length ≤ (l.take n).length := length_filter_le ..
  have htake : (l.take n).length ≤ n := length_take_le ..
  constructor
  · intro h
    -- what passes and is among the first n is no longer than those of them that pass
    have hpass : ((l.filter f).take n).Sublist ((l.take n).filter f) := by
      have hself : ((l.filter f).take n).filter f = (l.filter f).take n :=
        filter_eq_self.mpr fun a ha => of_mem_filter (mem_of_mem_take ha)
      rw [← hself]
      exact h.filter f
    have hcount := hpass.length_le
    rw [hsplit, length_take, length_append] at hcount
    by_cases hnone : ((l.drop n).filter f).length = 0
    · left
      intro a ha
      have hnil := filter_eq_nil_iff.mp (length_eq_zero_iff.mp hnone) a ha
      exact Bool.eq_false_of_not_eq_true hnil
    · right
      have hall : ((l.take n).filter f).length = (l.take n).length := by omega
      exact length_filter_eq_length_iff.mp hall
  · intro h
    rw [hsplit]
    cases h with
    | inl hnone =>
      have hnil : (l.drop n).filter f = [] :=
        filter_eq_nil_iff.mpr fun a ha => Bool.not_eq_true _ ▸ hnone a ha
      rw [hnil, append_nil, take_of_length_le (hlen.trans htake)]
      exact filter_sublist
    | inr hall =>
      rw [filter_eq_self.mpr hall]
      by_cases hfull : n ≤ l.length
      · rw [take_append_of_le_length (by rw [length_take]; omega), take_take,
          min_self]
      · rw [drop_eq_nil_of_le (by omega), filter_nil, append_nil]
        exact take_sublist ..

end

/-- A limit that is zero cuts nothing. -/
def cut (limit : ℤ) (events : List Event) : List Event :=
  if limit > 0 then events.take limit.toNat else events

theorem cut_of_nonpos {limit : ℤ} {events : List Event} (h : limit ≤ 0) :
    cut limit events = events :=
  if_neg (not_lt.mpr h)

theorem cut_of_pos {limit : ℤ} {events : List Event} (h : 0 < limit) :
    cut limit events = events.take limit.toNat :=
  if_pos h

/-! ## A further pipe -/

section
variable [Library]

/-- `q | p`. -/
def SimpleQuery.pipe (q : SimpleQuery) (p : Pipe) : SimpleQuery :=
  { q with pipes := q.pipes ++ [p] }

/-- The pipes that can be written: a `where`, or a `limit` of a number. -/
inductive Pipe.Further : Pipe → Prop
  | filter (x : Expr) : Further { filter := some x }
  | limit (n : ℕ) : Further { limit := n, hasLimit := true }

def SimpleQuery.kept (q : SimpleQuery) (events : List Event) : List Event :=
  q.pipes.foldl (fun es p => filterEvents es p.filter) (filterEvents events q.filter)

variable {q : SimpleQuery} {p : Pipe} {events : List Event}

theorem kept_pipe : (q.pipe p).kept events = (q.kept events).filter (passes p.filter) := by
  rw [SimpleQuery.kept, SimpleQuery.pipe, foldl_append, foldl_cons, foldl_nil,
    filterEvents_eq]
  rfl

theorem lastLimit_pipe :
    lastLimit (q.pipe p).pipes = if p.hasLimit then p.limit else lastLimit q.pipes := by
  rw [lastLimit, SimpleQuery.pipe, foldl_append, foldl_cons, foldl_nil]
  rfl

section
variable {cls : Go.Classes} {tokens us : List Token}

end

/-! ## Narrowing -/

/-- The further pipe returns a part of what the query returns, and no more than its limit. -/
structure SimpleQuery.Narrows (u : Go.Unicode) (lake : Lake) (q : SimpleQuery) (p : Pipe) :
    Prop where
  sublist : ((q.pipe p).run u lake).Sublist (q.run u lake)
  bounded : p.hasLimit = true → (((q.pipe p).run u lake).length : ℤ) ≤ p.limit

def SimpleQuery.matched (u : Go.Unicode) (lake : Lake) (q : SimpleQuery) : List Event :=
  q.kept ((lake.query u q.storeQuery).map Entry.event)

/-- No limit is in force, or what the limit cuts off makes no difference to the pipe: it is not
larger, or nothing is cut off, or no event that is cut off would take the place of one that does
not pass. A limit of zero narrows nothing but the empty answer. -/
def SimpleQuery.Narrowable (u : Go.Unicode) (lake : Lake) (q : SimpleQuery) (p : Pipe) : Prop :=
  if p.hasLimit then
    if p.limit = 0 then q.matched u lake = []
    else lastLimit q.pipes ≤ 0 ∨ p.limit ≤ lastLimit q.pipes ∨
      ((q.matched u lake).length : ℤ) ≤ lastLimit q.pipes
  else lastLimit q.pipes ≤ 0 ∨
    (∀ e ∈ (q.matched u lake).drop (lastLimit q.pipes).toNat, passes p.filter e = false) ∨
    ∀ e ∈ (q.matched u lake).take (lastLimit q.pipes).toNat, passes p.filter e = true

variable {u : Go.Unicode} {lake : Lake}

theorem run_eq_cut : q.run u lake = cut (lastLimit q.pipes) (q.matched u lake) := rfl

theorem run_pipe : (q.pipe p).run u lake =
    cut (if p.hasLimit then p.limit else lastLimit q.pipes)
      ((q.matched u lake).filter (passes p.filter)) := by
  have hmatched : (q.pipe p).matched u lake = (q.matched u lake).filter (passes p.filter) :=
    kept_pipe
  rw [run_eq_cut, lastLimit_pipe, hmatched]

theorem narrows_where_iff (x : Expr) :
    q.Narrows u lake { filter := some x } ↔ q.Narrowable u lake { filter := some x } := by
  have hiff : q.Narrows u lake { filter := some x } ↔
      (cut (lastLimit q.pipes) ((q.matched u lake).filter (passes (some x)))).Sublist
        (cut (lastLimit q.pipes) (q.matched u lake)) := by
    constructor
    · intro h
      have hsub := h.sublist
      rwa [run_pipe, run_eq_cut] at hsub
    · intro h
      refine ⟨?_, nofun⟩
      rwa [run_pipe, run_eq_cut]
  rw [hiff, SimpleQuery.Narrowable, if_neg Bool.false_ne_true]
  by_cases hlimit : lastLimit q.pipes ≤ 0
  · simp [cut_of_nonpos hlimit, hlimit]
  · rw [cut_of_pos (not_le.mp hlimit), cut_of_pos (not_le.mp hlimit),
      take_filter_sublist_take_iff, or_iff_right hlimit]

theorem narrows_limit_iff (n : ℕ) :
    q.Narrows u lake { limit := n, hasLimit := true } ↔
      q.Narrowable u lake { limit := n, hasLimit := true } := by
  have hrun : (q.pipe { limit := n, hasLimit := true }).run u lake =
      cut n (q.matched u lake) := by
    rw [run_pipe]
    exact congrArg (cut n) (filter_eq_self.mpr fun _ _ => rfl)
  have hneed : q.Narrowable u lake { limit := n, hasLimit := true } ↔
      if n = 0 then q.matched u lake = []
      else lastLimit q.pipes ≤ 0 ∨ n ≤ lastLimit q.pipes ∨
        ((q.matched u lake).length : ℤ) ≤ lastLimit q.pipes := by
    simp [SimpleQuery.Narrowable]
  rw [hneed]
  by_cases hn : n = 0
  · rw [if_pos hn]
    have hall : cut n (q.matched u lake) = q.matched u lake := cut_of_nonpos (by omega)
    rw [hall] at hrun
    constructor
    · intro h
      have hlen := h.bounded rfl
      rw [hrun, hn] at hlen
      exact length_eq_zero_iff.mp (by simpa using hlen)
    · intro hnil
      rw [hnil] at hrun
      exact ⟨hrun ▸ nil_sublist _, fun _ => by rw [hrun]; exact Int.natCast_nonneg n⟩
  · rw [if_neg hn]
    have htake : cut n (q.matched u lake) = (q.matched u lake).take n :=
      cut_of_pos (by omega)
    rw [htake] at hrun
    have hbounded : (((q.matched u lake).take n).length : ℤ) ≤ n := by
      exact_mod_cast length_take_le ..
    have hiff : q.Narrows u lake { limit := n, hasLimit := true } ↔
        ((q.matched u lake).take n).Sublist (q.run u lake) :=
      ⟨fun h => hrun ▸ h.sublist, fun h => ⟨hrun.symm ▸ h, fun _ => hrun.symm ▸ hbounded⟩⟩
    rw [hiff, run_eq_cut]
    by_cases hlimit : lastLimit q.pipes ≤ 0
    · rw [cut_of_nonpos hlimit]
      exact iff_of_true (take_sublist ..) (.inl hlimit)
    · rw [cut_of_pos (not_le.mp hlimit), take_sublist_take_iff, or_iff_right hlimit]
      omega

/-- Exactly when a further pipe narrows a hunt. -/
theorem narrows_iff (hp : p.Further) : q.Narrows u lake p ↔ q.Narrowable u lake p := by
  cases hp with
  | filter x => exact narrows_where_iff x
  | limit n => exact narrows_limit_iff n

end

/-! ## Runs -/

def oneEvent : @SimpleQuery .plain :=
  letI : Library := .plain
  { cls := { all := true }, pipes := [{ limit := 1, hasLimit := true }] }

def twoEvents : Lake :=
  .memory (EventStore.Memory.newMemory.append
    [{ action := "exec", timestamp := 1 }, { action := "connect", timestamp := 2 }])

def isExec : @Expr .plain :=
  letI : Library := .plain
  .cmp { field := "event.type", op := .eq, value := .text "exec" }

theorem compile_oneEvent :
    letI : Library := .plain
    compile .ascii "any | limit 1" = .ok (.simple oneEvent) ∧
    compile .ascii "any | limit 1 | limit 2" =
      .ok (.simple (oneEvent.pipe { limit := 2, hasLimit := true })) := by
  have hlex : lex .ascii "any | limit 1".toList =
      .ok [word "any", ⟨.pipe, "|"⟩, word "limit", ⟨.number, "1"⟩, .eof] := by
    decide +kernel
  have hlex' : lex .ascii "any | limit 1 | limit 2".toList =
      .ok [word "any", ⟨.pipe, "|"⟩, word "limit", ⟨.number, "1"⟩, ⟨.pipe, "|"⟩, word "limit",
        ⟨.number, "2"⟩, .eof] := by
    decide +kernel
  unfold compile
  rw [hlex, hlex']
  exact ⟨rfl, rfl⟩

/-- A larger limit, a limit of zero and a `where` behind a limit return events the query does not
return, and the limit of zero more than no events. -/
theorem further_pipe_returns_more :
    letI : Library := .plain
    (compile .ascii "any | limit 1" = .ok (.simple oneEvent) ∧
      compile .ascii "any | limit 1 | limit 2" =
        .ok (.simple (oneEvent.pipe { limit := 2, hasLimit := true }))) ∧
    oneEvent.run .ascii twoEvents = [{ action := "connect", timestamp := 2 }] ∧
    (oneEvent.pipe { limit := 2, hasLimit := true }).run .ascii twoEvents =
      [{ action := "connect", timestamp := 2 }, { action := "exec", timestamp := 1 }] ∧
    (oneEvent.pipe { limit := 0, hasLimit := true }).run .ascii twoEvents =
      [{ action := "connect", timestamp := 2 }, { action := "exec", timestamp := 1 }] ∧
    (oneEvent.pipe { filter := some isExec }).run .ascii twoEvents =
      [{ action := "exec", timestamp := 1 }] := by
  let _ : Library := .plain
  exact ⟨compile_oneEvent, by decide⟩

/-- The same limit again narrows the hunt. -/
theorem same_limit_narrows :
    letI : Library := .plain
    oneEvent.Narrows .ascii twoEvents { limit := 1, hasLimit := true } := by
  let _ : Library := .plain
  exact (narrows_iff (.limit 1)).mpr (.inr (.inl le_rfl))

end ArgusEdr.Hunt
