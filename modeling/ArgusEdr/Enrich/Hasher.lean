import ArgusEdr.Model.Event
import ArgusEdr.Go.Strconv
import ArgusEdr.Go.Strings
import ArgusEdr.Lib.HashChain
import ArgusEdr.Lib.Memo
import ArgusEdr.Lib.Pool

/-!
# Digests of executables (`internal/enrich/hash.go`)

`Hash` keeps the digest of a file under a key of its path, inode, modification time and size. It looks
at the file twice: the key is taken from `Stat`, the content is read later, and whatever the reading
gave is kept. Here its calls run in steps (`Call.advance`), between which files change and other calls
run, and a step may fail.
-/

namespace ArgusEdr.Enrich
namespace Hasher

open Go (Bytes)
open Model (Time)
open Runs Memo Pool

/-! ## Files and keys -/

structure FileVersion where
  regular : Bool := true
  inode : UInt64
  modTime : Time
  content : Bytes
deriving Repr, DecidableEq

def FileVersion.size (f : FileVersion) : ℕ := f.content.length

/-- What the key of a file is made of. -/
structure Stamp where
  path : String
  inode : UInt64
  modTime : ℤ
  size : ℕ
deriving Repr, DecidableEq

def stamp (path : String) (f : FileVersion) : Stamp where
  path := path
  inode := f.inode
  modTime := f.modTime.unixNano
  size := f.size

/-- `cacheKey`: `"%s|%d|%d|%d"`. -/
def Stamp.key (s : Stamp) : String :=
  s.path ++ "|" ++ toString s.inode.toNat ++ "|" ++ toString s.modTime ++ "|" ++ toString s.size

def cacheKey (path : String) (f : FileVersion) : String := (stamp path f).key

/-! ## The hasher -/

abbrev Digests := Std.ExtTreeMap String String

section
variable (digest : Bytes → String) (maxBytes : ℤ)

/-- Whether `Hash` goes on after `Stat`: a regular file within the limit. -/
def hashable (f : FileVersion) : Bool := f.regular && !(maxBytes > 0 && f.size > maxBytes)

def hashFile (file : Option FileVersion) (fault : Bool) : String :=
  match file with
  | none => ""
  | some f => if fault || !f.regular then "" else digest f.content

/-- `Hash`, of a file that stays as it is meanwhile. `fault` says whether opening or reading it
fails. -/
def hash (cache : Digests) (path : String) (file : Option FileVersion) (fault : Bool) :
    Digests × String :=
  match file with
  | none => (cache, "")
  | some f =>
    if hashable maxBytes f then
      match cache[cacheKey path f]? with
      | some cached => (cache, cached)
      | none =>
        let d := hashFile digest file fault
        (cache.insert (cacheKey path f) d, d)
    else (cache, "")

inductive Call where
  | begun (path : String)
  | statted (path key : String)
  | missed (path key : String)
  | digested (key d : String)
  | returned (d : String)
deriving Repr, DecidableEq

structure Host where
  files : String → Option FileVersion := fun _ => none
  cache : Digests := {}
  calls : List Call := []

/-- The next step of a call, on the files as they are then. `fault` is whether it fails, if it is the
step that reads. -/
def Call.advance (files : String → Option FileVersion) (fault : Bool) (cache : Digests) :
    Call → Digests × Call
  | .begun path =>
    match files path with
    | none => (cache, .returned "")
    | some f =>
      if hashable maxBytes f then (cache, .statted path (cacheKey path f))
      else (cache, .returned "")
  | .statted path key =>
    match cache[key]? with
    | some cached => (cache, .returned cached)
    | none => (cache, .missed path key)
  | .missed path key => (cache, .digested key (hashFile digest (files path) fault))
  | .digested key d => (cache.insert key d, .returned d)
  | .returned d => (cache, .returned d)

inductive Event where
  | change (path : String) (file : Option FileVersion)
  | call (path : String)
  | advance (n : ℕ) (fault : Bool)
deriving Repr, DecidableEq

def Host.step (h : Host) : Event → Host
  | .change path file => { h with files := Function.update h.files path file }
  | .call path => { h with calls := h.calls ++ [.begun path] }
  | .advance n fault =>
    let next := advanceAt (Call.advance digest maxBytes h.files fault) h.cache h.calls n
    { h with cache := next.1, calls := next.2 }

def Call.writes : Call → Option (String × String)
  | .digested key d => some (key, d)
  | .begun _ | .statted .. | .missed .. | .returned _ => none

def Host.written (h : Host) : Event → Option (String × String)
  | .advance n _ => h.calls[n]?.bind Call.writes
  | .change .. | .call _ => none

def kept (es : List Event) : List (String × String) :=
  gathered (fun h e => (h.written e).toList) (Host.step digest maxBytes) {} es

/-- A call whose four steps nothing interrupts is `hash`. -/
theorem advance_uninterrupted (files : String → Option FileVersion) (fault : Bool)
    (cache : Digests) (path : String) :
    let adv := fun x : Digests × Call => x.2.advance digest maxBytes files fault x.1
    adv (adv (adv (adv (cache, .begun path)))) =
      ((hash digest maxBytes cache path (files path) fault).1,
        .returned (hash digest maxBytes cache path (files path) fault).2) := by
  intro adv
  cases hfile : files path with
  | none => simp [adv, Call.advance, hash, hfile]
  | some f =>
    by_cases hf : hashable maxBytes f = true
    · cases hcache : cache[cacheKey path f]? <;>
        simp [adv, Call.advance, hash, hfile, hf, hcache]
    · simp [adv, Call.advance, hash, hfile, hf]

/-! ## What the cache holds -/

/-- Files have one key only if they have one stamp: no number contains the separator. -/
theorem Stamp.key_injective : Function.Injective Stamp.key := by
  have hint : ∀ n : ℤ, '|' ∉ n.repr.toList := Go.notMem_repr_int (by decide) (by decide)
  have hnat : ∀ n : ℕ, '|' ∉ n.repr.toList := fun n => hint n
  have hbar : "|".toList = ['|'] := rfl
  rintro ⟨path, inode, modTime, size⟩ ⟨path', inode', modTime', size'⟩ h
  have htext := congrArg String.toList h
  simp only [Stamp.key, String.toList_append, Nat.toString_eq_repr, Int.toString_eq_repr, hbar,
    ← List.append_cons] at htext
  obtain ⟨htext, hsize⟩ := HashChain.append_cons_inj_of_notMem htext (hnat _) (hnat _)
  obtain ⟨htext, htime⟩ := HashChain.append_cons_inj_of_notMem htext (hint _) (hint _)
  obtain ⟨hpath, hinode⟩ := HashChain.append_cons_inj_of_notMem htext (hnat _) (hnat _)
  rw [String.toList_inj] at hpath hinode htime hsize
  rw [Nat.repr_inj, UInt64.toNat_inj] at hinode
  rw [Int.repr_inj] at htime
  rw [Nat.repr_inj] at hsize
  subst hpath hinode htime hsize
  rfl

theorem advance_fst (files : String → Option FileVersion) (fault : Bool) (cache : Digests)
    (c : Call) :
    (c.advance digest maxBytes files fault cache).1 =
      c.writes.elim cache fun a => cache.insert a.1 a.2 := by
  cases c with
  | begun =>
    simp only [Call.advance]
    split
    · rfl
    · split <;> rfl
  | statted =>
    simp only [Call.advance]
    split <;> rfl
  | missed | digested | returned => rfl

theorem writes_advance (files : String → Option FileVersion) (fault : Bool) (cache : Digests)
    {c : Call} {a : String × String}
    (h : (c.advance digest maxBytes files fault cache).2.writes = some a) :
    ∃ path, c = .missed path a.1 ∧ a.2 = hashFile digest (files path) fault := by
  cases c with
  | begun =>
    simp only [Call.advance] at h
    split at h
    · cases h
    · split at h <;> cases h
  | statted =>
    simp only [Call.advance] at h
    split at h <;> cases h
  | missed path key =>
    cases h
    exact ⟨path, rfl, rfl⟩
  | digested | returned => cases h

theorem cache_step (h : Host) (e : Event) :
    (h.step digest maxBytes e).cache =
      (h.written e).elim h.cache fun a => h.cache.insert a.1 a.2 := by
  cases e with
  | change | call => rfl
  | advance n fault =>
    simp only [Host.step, advanceAt, Host.written]
    cases h.calls[n]? with
    | none => rfl
    | some c => exact advance_fst digest maxBytes h.files fault h.cache c

theorem getElem?_cache_run (es : List Event) (key : String) :
    (run (Host.step digest maxBytes) {} es).cache[key]? = last (kept digest maxBytes es) key := by
  refine getElem?_run_insert Host.cache Host.written rfl ?_ ?_ es key
  · intro h e a hout
    rw [cache_step, hout]
    rfl
  · intro h e hout
    rw [cache_step, hout]
    rfl

/-! ## When a call is right -/

theorem hash_eq_iff (cache : Digests) (path : String) {f : FileVersion}
    (hf : hashable maxBytes f = true) :
    (hash digest maxBytes cache path (some f) false).2 = digest f.content ↔
      ∀ d, cache[cacheKey path f]? = some d → d = digest f.content := by
  have hregular : f.regular = true := by
    simp only [hashable, Bool.and_eq_true] at hf
    exact hf.1
  simp only [hash, hf, if_true]
  cases cache[cacheKey path f]? with
  | none => simp [hashFile, hregular]
  | some => simp

/-- The conditions under which the cache is right: no reading fails, the file a call reads has the
key the call took before, and files with one stamp have the content `version` says. -/
def Undisturbed (version : Stamp → Bytes) (h : Host) : Event → Prop
  | .change path (some f) => f.content = version (stamp path f)
  | .change _ none | .call _ => True
  | .advance n fault => ∀ path key, h.calls[n]? = some (.missed path key) →
      fault = false ∧ ∃ f, h.files path = some f ∧ f.regular = true ∧ cacheKey path f = key

/-- A digest of what `version` says under the key. -/
def Sound (version : Stamp → Bytes) (key d : String) : Prop :=
  ∃ s : Stamp, s.key = key ∧ d = digest (version s)

/-- Everything on the host agrees with `version`. -/
structure Right (version : Stamp → Bytes) (h : Host) : Prop where
  files : ∀ path f, h.files path = some f → f.content = version (stamp path f)
  cache : ∀ key d, h.cache[key]? = some d → Sound digest version key d
  calls : ∀ c ∈ h.calls, ∀ a, c.writes = some a → Sound digest version a.1 a.2

theorem Right.step {version : Stamp → Bytes} {h : Host} {e : Event}
    (hr : Right digest version h) (he : Undisturbed version h e) :
    Right digest version (h.step digest maxBytes e) := by
  cases e with
  | change =>
    refine { files := ?_, cache := hr.cache, calls := hr.calls }
    intro path' f hf
    simp only [Host.step, Function.update_apply] at hf
    split at hf
    · next hpath =>
      subst hpath hf
      exact he
    · exact hr.files path' f hf
  | call =>
    refine { files := hr.files, cache := hr.cache, calls := ?_ }
    refine forall_mem_spawn hr.calls ?_
    intro a ha
    cases ha
  | advance n fault =>
    have hstep : ∀ c, h.calls[n]? = some c →
        (∀ a, c.writes = some a → Sound digest version a.1 a.2) →
        (∀ key d, (c.advance digest maxBytes h.files fault h.cache).1[key]? = some d →
          Sound digest version key d) ∧
        ∀ a, (c.advance digest maxBytes h.files fault h.cache).2.writes = some a →
          Sound digest version a.1 a.2 := by
      intro c hc hsound
      constructor
      · intro key d hd
        rw [advance_fst] at hd
        cases hw : c.writes with
        | none =>
          rw [hw] at hd
          exact hr.cache key d hd
        | some a =>
          rw [hw, Option.elim_some, Std.ExtTreeMap.getElem?_insert] at hd
          split at hd
          · next hkey =>
            cases hd
            rw [← Std.compare_eq_iff_eq.mp hkey]
            exact hsound a hw
          · exact hr.cache key d hd
      · intro a ha
        obtain ⟨path, rfl, hd⟩ := writes_advance digest maxBytes h.files fault h.cache ha
        -- the file that is read has the key, and the content its stamp says
        obtain ⟨rfl, f, hf, hregular, hkey⟩ := he path a.1 hc
        refine ⟨stamp path f, hkey, ?_⟩
        rw [hd, hf, ← hr.files path f hf]
        simp [hashFile, hregular]
    obtain ⟨hcache, hcalls⟩ := advanceAt_invariant (n := n)
      (I := fun cache => ∀ key d, cache[key]? = some d → Sound digest version key d)
      hr.cache hr.calls hstep
    exact { files := hr.files, cache := hcache, calls := hcalls }

/-- After every history, and for every regular file within the limit: a `Hash` that can read it
returns the digest of its content exactly if that is what was last kept under its key. It is if no
reading failed before, no file changed between the two looks of a call, and files with one stamp have
one content. -/
theorem hash_current (es : List Event) :
    let h := run (Host.step digest maxBytes) {} es
    (∀ path f, h.files path = some f → hashable maxBytes f = true →
      ((hash digest maxBytes h.cache path (h.files path) false).2 = digest f.content ↔
        ∀ d, last (kept digest maxBytes es) (cacheKey path f) = some d → d = digest f.content)) ∧
    ∀ version, AllSteps (Host.step digest maxBytes) (Undisturbed version) {} es →
      ∀ path f, h.files path = some f → hashable maxBytes f = true →
        (hash digest maxBytes h.cache path (h.files path) false).2 = digest f.content := by
  intro h
  refine ⟨?_, ?_⟩
  · intro path f hfile hf
    rw [hfile, hash_eq_iff digest maxBytes _ path hf, getElem?_cache_run]
  · intro version hsteps path f hfile hf
    have hright : Right digest version h := by
      refine hsteps.invariant (I := Right digest version) ?_ fun _ _ hr he => hr.step digest maxBytes he
      exact { files := by simp, cache := by simp, calls := by simp }
    rw [hfile, hash_eq_iff digest maxBytes _ path hf]
    intro d hd
    obtain ⟨s, hkey, rfl⟩ := hright.cache _ _ hd
    rw [Stamp.key_injective hkey, ← hright.files path f hfile]

end

def transientFault : List Event :=
  [.change "/bin/sh" (some { inode := 1, modTime := 0, content := [0x7F] }), .call "/bin/sh",
    .advance 0 false, .advance 0 false, .advance 0 true, .advance 0 false]

/-- The file is readable again, and its digest is the empty text. -/
theorem hash_after_fault :
    let h := run (Host.step Go.hexString 0) {} transientFault
    ∃ f, h.files "/bin/sh" = some f ∧ hashable 0 f = true ∧ Go.hexString f.content = "7f" ∧
      (hash Go.hexString 0 h.cache "/bin/sh" (h.files "/bin/sh") false).2 = "" := by
  refine ⟨{ inode := 1, modTime := 0, content := [0x7F] }, rfl, ?_⟩
  decide +kernel

end Hasher
end ArgusEdr.Enrich
