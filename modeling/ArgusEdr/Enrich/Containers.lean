import ArgusEdr.Model.Event
import ArgusEdr.Lib.Memo

/-!
# Containers of processes (`internal/enrich/containers.go`)

`Resolve` derives the container of a process from its cgroup file and keeps the result by the
process id alone. Here it runs on a host where processes start, exit and leave their ids to others,
and where a file may fail to be read. A failed read counts as finding no container.
-/

namespace ArgusEdr.Enrich

open Model (Container)
open Runs Memo

/-! ## The container of a cgroup file -/

def runtimeMarkers : List (String × String) :=
  [("docker", "docker"), ("crio", "cri-o"), ("containerd", "containerd"),
    ("kubepods", "containerd"), ("libpod", "podman")]

def isIDChar (c : Char) : Bool := ('0' ≤ c && c ≤ '9') || ('a' ≤ c && c ≤ 'f')

/-- The first `n` characters, if there are so many and they can stand in an id. -/
def idAt (n : ℕ) (s : List Char) : Option (List Char) :=
  if (s.take n).length = n ∧ (s.take n).all isIDChar then some (s.take n) else none

/-- `containerIDPattern.FindString`: the leftmost place where an id stands, and there the long form
if it fits. -/
def findContainerID : List Char → List Char
  | [] => []
  | c :: s => ((idAt 64 (c :: s)).or (idAt 32 (c :: s))).getD (findContainerID s)

def parseContainer (cgroup : String) : Container :=
  let id := String.ofList (findContainerID cgroup.toList)
  if id = "" then {}
  else
    let marker := runtimeMarkers.find? fun m => Go.contains cgroup m.1
    { id, runtime := (marker.map (·.2)).getD "" }

/-- `Resolve`, where `content` is what reading the cgroup file gives. -/
def resolve (cache : Std.ExtTreeMap UInt32 Container) (pid : UInt32)
    (content : Except Go.Error String) : Std.ExtTreeMap UInt32 Container × Container :=
  match cache[pid]? with
  | some c => (cache, c)
  | none =>
    match content with
    | .error _ => (cache.insert pid {}, {})
    | .ok content => (cache.insert pid (parseContainer content), parseContainer content)

/-! ## A host -/

/-- The cgroup files of the processes that run, and the resolver's cache. -/
structure ContainerHost where
  procs : Std.ExtTreeMap UInt32 String := {}
  cache : Std.ExtTreeMap UInt32 Container := {}

/-- What happens on a host. A `Resolve` may find the file unreadable. -/
inductive ProcEvent where
  | start (pid : UInt32) (cgroup : String)
  | exit (pid : UInt32)
  | resolve (pid : UInt32) (fault : Option Go.Error)
deriving Repr, DecidableEq

namespace ContainerHost

def readCgroup (h : ContainerHost) (pid : UInt32) (fault : Option Go.Error) :
    Except Go.Error String :=
  match fault, h.procs[pid]? with
  | some err, _ => .error err
  | none, some cgroup => .ok cgroup
  | none, none => .error (.errorf "open /proc/%d/cgroup: no such file or directory" [toString pid])

def step (h : ContainerHost) : ProcEvent → ContainerHost
  -- an id is given to one process at a time
  | .start pid cgroup => if pid ∈ h.procs then h else { h with procs := h.procs.insert pid cgroup }
  | .exit pid => { h with procs := h.procs.erase pid }
  | .resolve pid fault => { h with cache := (Enrich.resolve h.cache pid (h.readCgroup pid fault)).1 }

def resolved (h : ContainerHost) (pid : UInt32) (fault : Option Go.Error) : Container :=
  (Enrich.resolve h.cache pid (h.readCgroup pid fault)).2

/-- What a `Resolve` would return without its cache. -/
def found (h : ContainerHost) (pid : UInt32) (fault : Option Go.Error) : Container :=
  match h.readCgroup pid fault with
  | .error _ => {}
  | .ok content => parseContainer content

def lookup (h : ContainerHost) : ProcEvent → Option (UInt32 × Container)
  | .resolve pid fault => some (pid, h.found pid fault)
  | .start .. | .exit _ => none

/-- What the calls of `Resolve` in a history found on the host, in order. -/
def lookups (es : List ProcEvent) : List (UInt32 × Container) :=
  gathered (fun h e => (lookup h e).toList) step {} es

theorem resolve_eq_ask (h : ContainerHost) (pid : UInt32) (fault : Option Go.Error) :
    Enrich.resolve h.cache pid (h.readCgroup pid fault) =
      ask h.cache pid (h.found pid fault) := by
  unfold Enrich.resolve ask found
  cases h.cache[pid]? with
  | some => rfl
  | none => cases h.readCgroup pid fault <;> rfl

theorem getElem?_cache_run (es : List ProcEvent) (pid : UInt32) :
    (run step {} es).cache[pid]? = first (lookups es) pid := by
  refine getElem?_run_ask ContainerHost.cache lookup rfl ?_ ?_ es pid
  · intro h e a hout
    cases e with
    | resolve pid fault =>
      cases hout
      exact congrArg Prod.fst (resolve_eq_ask h pid fault)
    | start | exit => cases hout
  · intro h e hout
    cases e with
    | resolve => cases hout
    | start =>
      simp only [step]
      split <;> rfl
    | exit => rfl

end ContainerHost

open ContainerHost

variable {pid : UInt32} {cgroup : String} {es : List ProcEvent}

/-- A readable `Resolve` returns the container of the process that holds the id exactly if the first
`Resolve` of the id, if there was one, had found that container. -/
theorem resolved_eq_iff {pre : List ProcEvent}
    (hheld : (run step {} pre).procs[pid]? = some cgroup) :
    (run step {} pre).resolved pid none = parseContainer cgroup ↔
      ∀ c, first (lookups pre) pid = some c → c = parseContainer cgroup := by
  have hfound : (run step {} pre).found pid none = parseContainer cgroup := by
    simp [found, readCgroup, hheld]
  rw [resolved, resolve_eq_ask, ← hfound, ask_eq_iff, getElem?_cache_run]

/-- Every `Resolve` that can read the file of the process that holds the id returns its container. -/
def ResolvesRight (es : List ProcEvent) : Prop :=
  ∀ pre pid post cgroup, es = pre ++ .resolve pid none :: post →
    (run step {} pre).procs[pid]? = some cgroup →
    (run step {} pre).resolved pid none = parseContainer cgroup

/-- No id is given to processes with different cgroup files. -/
def NoReuse (es : List ProcEvent) : Prop :=
  ∀ pid c c', .start pid c ∈ es → .start pid c' ∈ es → c = c'

def Reads (h : ContainerHost) (e : ProcEvent) : Prop :=
  ∀ pid fault, e = .resolve pid fault → fault = none ∧ pid ∈ h.procs

theorem start_mem_of_procs (h : (run step {} es).procs[pid]? = some cgroup) :
    .start pid cgroup ∈ es := by
  refine run_history_invariant (I := fun es (h : ContainerHost) => ∀ (pid : UInt32) cgroup,
    h.procs[pid]? = some cgroup → .start pid cgroup ∈ es) (by simp)
    (fun es e ih pid cgroup hheld => ?_) es pid cgroup h
  rw [List.mem_append, List.mem_singleton]
  cases e with
  | start =>
    simp only [step] at hheld
    split at hheld
    · exact Or.inl (ih pid cgroup hheld)
    · rw [Std.ExtTreeMap.getElem?_insert] at hheld
      split at hheld
      · next hpid =>
        cases hheld
        exact Or.inr (by rw [Std.compare_eq_iff_eq.mp hpid])
      · exact Or.inl (ih pid cgroup hheld)
  | exit =>
    simp only [step, Std.ExtTreeMap.getElem?_erase] at hheld
    split at hheld
    · cases hheld
    · exact Or.inl (ih pid cgroup hheld)
  | resolve => exact Or.inl (ih pid cgroup hheld)

theorem resolvesRight_of_noReuse (hreuse : NoReuse es) (hread : AllSteps step Reads {} es) :
    ResolvesRight es := by
  intro pre pid post cgroup hes hheld
  subst hes
  refine (resolved_eq_iff hheld).mpr fun c hfirst => ?_
  -- the first `Resolve` of the id read the file of the one process that ever had it
  obtain ⟨pre', e, post', rfl, hlookup⟩ := someStep_of_mem_gathered (mem_of_first hfirst)
  cases e with
  | start | exit => cases hlookup
  | resolve pid' fault =>
    simp only [lookup, Option.toList_some, List.mem_singleton, Prod.mk.injEq] at hlookup
    obtain ⟨rfl, rfl⟩ := hlookup
    obtain ⟨rfl, hmem⟩ := (AllSteps.append_iff.mp hread).1.at_split pid fault rfl
    obtain ⟨cgroup', hheld'⟩ := Option.isSome_iff_exists.mp
      (Std.ExtTreeMap.isSome_getElem?_iff_mem.mpr hmem)
    have hstart := start_mem_of_procs hheld
    have hstart' := start_mem_of_procs hheld'
    have hsame : cgroup' = cgroup := by
      refine hreuse pid cgroup' cgroup ?_ ?_
      · simp [hstart']
      · exact List.mem_append_left _ hstart
    simp [found, readCgroup, hheld', hsame]

/-- Every readable `Resolve` of a history returns the container of the process that holds the id
exactly if each time the first `Resolve` of that id had found that container. This is so if ids are not
used again and no read fails. -/
theorem resolve_right_iff (es : List ProcEvent) :
    (ResolvesRight es ↔ ∀ pre pid post cgroup, es = pre ++ .resolve pid none :: post →
      (run step {} pre).procs[pid]? = some cgroup →
      ∀ c, first (lookups pre) pid = some c → c = parseContainer cgroup) ∧
    (NoReuse es → AllSteps step Reads {} es → ResolvesRight es) := by
  refine ⟨?_, resolvesRight_of_noReuse⟩
  refine forall_congr' fun pre => forall_congr' fun pid => forall_congr' fun post =>
    forall_congr' fun cgroup => imp_congr_right fun _ => imp_congr_right fun hheld => ?_
  exact resolved_eq_iff hheld

/-- A process in a container, after the id was used, and resolved, by one in another. -/
def pidReuse : List ProcEvent :=
  [.start 7 "0::/docker/0123456789abcdef0123456789abcdef", .resolve 7 none, .exit 7,
    .start 7 "0::/libpod-fedcba9876543210fedcba9876543210"]

/-- The process that holds the id is attributed to the container of the one before it. -/
theorem resolve_after_reuse :
    (run step {} pidReuse).procs[(7 : UInt32)]? =
      some "0::/libpod-fedcba9876543210fedcba9876543210" ∧
    parseContainer "0::/libpod-fedcba9876543210fedcba9876543210" =
      ⟨"fedcba9876543210fedcba9876543210", "podman"⟩ ∧
    (run step {} pidReuse).resolved 7 none = ⟨"0123456789abcdef0123456789abcdef", "docker"⟩ := by
  decide +kernel

end ArgusEdr.Enrich
