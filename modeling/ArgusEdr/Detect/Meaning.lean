import ArgusEdr.Detect.Condition

/-!
# What a match tree means on an event

A tree means the value of its predicate. A program that builds trees knows what its groups mean
from what their members mean: `MeansAll` and `MeansAny` are the lists that become `all` and `any`
groups.
-/

namespace ArgusEdr.Detect

open List

open Model (Event)
open Go (Library)

variable [Library]

/-- The tree compiles, to a predicate with the value `b` on `e`. -/
def Means (c : Condition) (e : Event) (b : Bool) : Prop := ∃ p, c.compile = .ok p ∧ p e = b

/-- The trees compile, to predicates whose conjunction has the value `b` on `e`. -/
def MeansAll (cs : List Condition) (e : Event) (b : Bool) : Prop :=
  ∃ ps, CompileTo cs ps ∧ (ps.all fun p => p e) = b

/-- The trees compile, to predicates whose disjunction has the value `b` on `e`. -/
def MeansAny (cs : List Condition) (e : Event) (b : Bool) : Prop :=
  ∃ ps, CompileTo cs ps ∧ (ps.any fun p => p e) = b

variable {c : Condition} {cs ds : List Condition} {e : Event} {a b : Bool}

theorem Means.singletonAll (h : Means c e b) : MeansAll [c] e b := by
  obtain ⟨p, hp, hb⟩ := h
  exact ⟨[p], compileTo_singleton hp, by simp [hb]⟩

theorem Means.singletonAny (h : Means c e b) : MeansAny [c] e b := by
  obtain ⟨p, hp, hb⟩ := h
  exact ⟨[p], compileTo_singleton hp, by simp [hb]⟩

theorem MeansAll.append (hc : MeansAll cs e a) (hd : MeansAll ds e b) :
    MeansAll (cs ++ ds) e (a && b) := by
  obtain ⟨ps, hps, ha⟩ := hc
  obtain ⟨qs, hqs, hb⟩ := hd
  exact ⟨ps ++ qs, hps.append hqs, by rw [all_append, ha, hb]⟩

theorem MeansAny.append (hc : MeansAny cs e a) (hd : MeansAny ds e b) :
    MeansAny (cs ++ ds) e (a || b) := by
  obtain ⟨ps, hps, ha⟩ := hc
  obtain ⟨qs, hqs, hb⟩ := hd
  exact ⟨ps ++ qs, hps.append hqs, by rw [any_append, ha, hb]⟩

theorem MeansAll.allOf (hne : cs ≠ []) (h : MeansAll cs e b) : Means (.allOf cs) e b := by
  obtain ⟨ps, hps, hb⟩ := h
  exact ⟨_, compile_allOf hne hps, hb⟩

theorem MeansAny.anyOf (hne : cs ≠ []) (h : MeansAny cs e b) : Means (.anyOf cs) e b := by
  obtain ⟨ps, hps, hb⟩ := h
  exact ⟨_, compile_anyOf hne hps, hb⟩

theorem Means.of_singletonAll (h : MeansAll [c] e b) : Means c e b := by
  obtain ⟨ps, hps, hb⟩ := h
  obtain ⟨p, _, hp, hnil, rfl⟩ := forall₂_cons_left_iff.mp hps
  cases hnil
  exact ⟨p, hp, by simpa using hb⟩

theorem Means.of_singletonAny (h : MeansAny [c] e b) : Means c e b := by
  obtain ⟨ps, hps, hb⟩ := h
  obtain ⟨p, _, hp, hnil, rfl⟩ := forall₂_cons_left_iff.mp hps
  cases hnil
  exact ⟨p, hp, by simpa using hb⟩

theorem meansAll_map {α : Type*} {f : α → Condition} {truth : α → Bool} {l : List α}
    (h : ∀ a ∈ l, Means (f a) e (truth a)) : MeansAll (l.map f) e (l.all truth) := by
  induction l with
  | nil => exact ⟨[], .nil, rfl⟩
  | cons a l ih =>
    obtain ⟨ha, hl⟩ := forall_mem_cons.mp h
    exact ha.singletonAll.append (ih hl)

theorem meansAny_map {α : Type*} {f : α → Condition} {truth : α → Bool} {l : List α}
    (h : ∀ a ∈ l, Means (f a) e (truth a)) : MeansAny (l.map f) e (l.any truth) := by
  induction l with
  | nil => exact ⟨[], .nil, rfl⟩
  | cons a l ih =>
    obtain ⟨ha, hl⟩ := forall_mem_cons.mp h
    exact ha.singletonAny.append (ih hl)

theorem Means.notOf (h : Means c e b) : Means (.notOf c) e (!b) := by
  obtain ⟨p, hp, hb⟩ := h
  exact ⟨_, compile_notOf hp, by rw [hb]⟩

end ArgusEdr.Detect
