import ArgusEdr.Agent.RuleSync
import ArgusEdr.Go.Path

/-!
# Where rule files are written (`cmd/argus/fleet.go`)

`writeRuleFiles` with the paths it writes to, in any tree of directories. A name is reduced to its
last element and joined with the rules directory; of a name that leads elsewhere `.`, `..` or `/` is
left, and the paths of these are directories, which cannot be written to (`written_inside`).
-/

namespace ArgusEdr.RulePaths

open List

open Go (Bytes Tree EntryName Directory base join place)
open Go.Directory (WriteOutcome)
open RuleSync (Env)

/-- A file that was created or replaced. -/
structure Write where
  path : String
  content : Bytes
deriving Repr, DecidableEq

def writeFile (t : Tree) (path : String) (content : Bytes) (outcome : WriteOutcome) :
    List Write × Except Go.Error Unit :=
  if t.isDir (place path) then ([], .error (.errorf "open %s: is a directory" [path]))
  else
    match outcome with
    | .written => ([{ path, content }], .ok ())
    | .openFailed err => ([], .error err)
    | .cutShort len err => ([{ path, content := content.take len }], .error err)

def writeFiles (t : Tree) (dir : String) : List RuleFile → (ℕ → WriteOutcome) →
    List Write × Except Go.Error Unit
  | [], _ => ([], .ok ())
  | file :: files, write =>
    match writeFile t (join dir (base file.name)) file.content (write 0) with
    | (writes, .error err) => (writes, .error (.wrapf "write %s: %w" [base file.name] err))
    | (writes, .ok ()) =>
      let (more, result) := writeFiles t dir files fun n => write (n + 1)
      (writes ++ more, result)

def writeRuleFiles (t : Tree) (dir : String) (files : List RuleFile) (env : Env) :
    List Write × Except Go.Error Unit :=
  match t.mkdirAll dir env.mkdir with
  | (_, .error err) => ([], .error (.wrapf "create rules dir: %w" [] err))
  | (t, .ok ()) => writeFiles t dir files env.write

/-! ## Inside the rules directory -/

section
variable {t : Tree} {dir : String} (hdir : dir ≠ "") (ht : t.isDir (place dir) = true)
include hdir ht

/-- The last elements that are no entry names lead to directories. -/
theorem isDir_join {name : String} (h : name ∈ [".", "/", ".."]) :
    t.isDir (place (join dir name)) = true := by
  simp only [mem_cons, not_mem_nil, or_false] at h
  rcases h with rfl | rfl | rfl
  · rwa [Go.place_join_of_notMem hdir (by decide), Go.Place.enter_dot]
  · -- `Join` splits the slash into two empty elements
    have hsplit : Go.split "/" '/' = ["", ""] := Go.split_append "" ""
    rw [Go.place_join hdir, hsplit, foldl_cons, foldl_cons, Go.Place.enter_empty,
      Go.Place.enter_empty]
    exact ht
  · rw [Go.place_join_of_notMem hdir (by decide), Go.Place.enter_dotDot]
    exact t.isDir_parent ht

theorem writeFile_inside {name : String} {content : Bytes} {outcome : WriteOutcome} {w : Write}
    (hw : w ∈ (writeFile t (join dir (base name)) content outcome).1) :
    ∃ entry : EntryName, w.path = join dir entry.1 := by
  unfold writeFile at hw
  split at hw
  · cases hw
  · next hopen =>
    have hentry : Go.IsEntryName (base name) :=
      (Go.base_cases name).resolve_left fun hdots => hopen (isDir_join hdir ht hdots)
    refine ⟨⟨base name, hentry⟩, ?_⟩
    split at hw
    · rw [mem_singleton.mp hw]
    · cases hw
    · rw [mem_singleton.mp hw]

theorem writeFiles_inside {files : List RuleFile} {write : ℕ → WriteOutcome} {w : Write}
    (hw : w ∈ (writeFiles t dir files write).1) :
    ∃ entry : EntryName, w.path = join dir entry.1 := by
  induction files generalizing write with
  | nil => cases hw
  | cons file files ih =>
    have hfirst : w ∈ (writeFile t (join dir (base file.name)) file.content (write 0)).1 →
        ∃ entry : EntryName, w.path = join dir entry.1 := writeFile_inside hdir ht
    rw [writeFiles] at hw
    split at hw
    · next hwrite =>
      rw [hwrite] at hfirst
      exact hfirst hw
    · next hwrite =>
      rw [hwrite] at hfirst
      exact (mem_append.mp hw).elim hfirst ih

end

theorem mkdirAll_ok {t t' : Tree} {dir : String} {outcome : Except Go.Error Unit}
    (h : t.mkdirAll dir outcome = (t', .ok ())) : dir ≠ "" ∧ t' = t.add (place dir) := by
  unfold Tree.mkdirAll at h
  split at h
  · cases h
  · next hdir =>
    split at h
    · cases h
    · cases h
      exact ⟨hdir, rfl⟩

/-- Whatever the names are, all that is written is the rules directory joined with a single name,
which leads to an entry of the rules directory. -/
theorem written_inside (t : Tree) (dir : String) (files : List RuleFile) (env : Env) {w : Write}
    (hw : w ∈ (writeRuleFiles t dir files env).1) :
    ∃ (name : String) (hname : Go.IsEntryName name),
      w.path = join dir name ∧ place w.path = (place dir).child ⟨name, hname⟩ := by
  unfold writeRuleFiles at hw
  split at hw
  · cases hw
  · next hmkdir =>
    obtain ⟨hdir, rfl⟩ := mkdirAll_ok hmkdir
    obtain ⟨entry, hpath⟩ := writeFiles_inside hdir (t.isDir_add (place dir)) hw
    refine ⟨entry.1, entry.2, hpath, ?_⟩
    rw [hpath, Go.place_join_entryName hdir]

def bareTree : Tree where
  isDir := fun p => p.names = []
  isDir_start := fun _ => rfl
  isDir_of_child := nofun

theorem written_inside_traversal :
    let w : Write := { path := "/etc/argus/rules/passwd", content := Go.ascii "x" }
    (writeRuleFiles bareTree "/etc/argus/rules" [{ name := "../../passwd", content := Go.ascii "x" }]
      {}).1 = [w] ∧
    ∃ (name : String) (hname : Go.IsEntryName name), w.path = join "/etc/argus/rules" name ∧
      place w.path = (place "/etc/argus/rules").child ⟨name, hname⟩ := by
  have hwrites : (writeRuleFiles bareTree "/etc/argus/rules"
      [{ name := "../../passwd", content := Go.ascii "x" }] {}).1 =
      [{ path := "/etc/argus/rules/passwd", content := Go.ascii "x" }] := by
    decide +kernel
  refine ⟨hwrites, written_inside bareTree _ [{ name := "../../passwd", content := Go.ascii "x" }] {}
    ?_⟩
  rw [hwrites]
  exact mem_singleton_self _

/-! ## Over the entries of the rules directory -/

def putWrites (d : Directory) (writes : List Write) : Directory :=
  writes.foldl (fun d w => d.put (base w.path) w.content) d

section
variable {t : Tree} {dir : String} (hdir : dir ≠ "") (ht : t.isDir (place dir) = true)
  (hflat : ∀ entry, t.isDir ((place dir).child entry) = false)
include hdir ht hflat

/-- A write to a path is the write to the entry, and both fail for what is not an entry. -/
theorem writeFile_refines (d : Directory) (name : String) (content : Bytes)
    (outcome : WriteOutcome) :
    (d.writeFile (base name) content outcome).1 =
        putWrites d (writeFile t (join dir (base name)) content outcome).1 ∧
      ((d.writeFile (base name) content outcome).2 = .ok () ↔
        (writeFile t (join dir (base name)) content outcome).2 = .ok ()) := by
  rcases Go.base_cases name with hdots | hentry
  · have hnot : ¬Go.IsEntryName (base name) := by
      simp only [mem_cons, not_mem_nil, or_false] at hdots
      rcases hdots with h | h | h <;> rw [h] <;> decide
    unfold Directory.writeFile writeFile
    rw [if_pos hnot, if_pos (isDir_join hdir ht hdots)]
    exact ⟨rfl, by simp⟩
  · have hplace := Go.place_join_entryName hdir ⟨base name, hentry⟩
    have hbase := Go.base_join hdir ⟨base name, hentry⟩
    have hopen : ¬t.isDir (place (join dir (base name))) = true := by
      rw [hplace, hflat]
      decide
    unfold Directory.writeFile writeFile
    rw [if_neg (not_not.mpr hentry), if_neg hopen]
    cases outcome with
    | written => simp [putWrites, hbase]
    | openFailed err => simp [putWrites]
    | cutShort len err => simp [putWrites, hbase]

theorem writeFiles_refines (d : Directory) (files : List RuleFile) (write : ℕ → WriteOutcome) :
    (RuleSync.writeFiles d files write).1 = putWrites d (writeFiles t dir files write).1 ∧
      ((RuleSync.writeFiles d files write).2 = .ok () ↔
        (writeFiles t dir files write).2 = .ok ()) := by
  induction files generalizing d write with
  | nil => exact ⟨rfl, Iff.rfl⟩
  | cons file files ih =>
    obtain ⟨hdirectory, hresult⟩ :=
      writeFile_refines hdir ht hflat d file.name file.content (write 0)
    rw [RuleSync.writeFiles, writeFiles]
    cases hentry : d.writeFile (base file.name) file.content (write 0) with
    | mk d' result =>
      cases hpath : writeFile t (join dir (base file.name)) file.content (write 0) with
      | mk writes result' =>
        rw [hentry, hpath] at hdirectory hresult
        cases result with
        | error err =>
          cases result' with
          | error err' => exact ⟨hdirectory, by simp⟩
          | ok u => simp at hresult
        | ok u =>
          cases result' with
          | error err' => simp at hresult
          | ok u' =>
            obtain ⟨hmore, hmoreResult⟩ := ih d' fun n => write (n + 1)
            refine ⟨?_, hmoreResult⟩
            dsimp only at hdirectory ⊢
            rw [hmore, hdirectory, putWrites, putWrites, putWrites, foldl_append]

end

/-- Over a rules directory that has no directories in it, the writes are those to its entries. -/
theorem writeRuleFiles_refines {t : Tree} {dir : String} (hdir : dir ≠ "")
    (hflat : ∀ entry, t.isDir ((place dir).child entry) = false) (d : Directory)
    (files : List RuleFile) (env : Env) :
    (RuleSync.writeRuleFiles d files env).1 = putWrites d (writeRuleFiles t dir files env).1 ∧
      ((RuleSync.writeRuleFiles d files env).2 = .ok () ↔
        (writeRuleFiles t dir files env).2 = .ok ()) := by
  have hflat' : ∀ entry, (t.add (place dir)).isDir ((place dir).child entry) = false := by
    intro entry
    have hlonger : ¬((place dir).child entry).names <:+ (place dir).names := fun hsuffix =>
      absurd hsuffix.length_le (Nat.not_succ_le_self _)
    simp [Tree.add, hflat, hlonger]
  unfold RuleSync.writeRuleFiles writeRuleFiles Tree.mkdirAll
  rw [if_neg hdir]
  cases env.mkdir with
  | error err => exact ⟨rfl, by simp⟩
  | ok u => exact writeFiles_refines hdir (t.isDir_add (place dir)) hflat' d files env.write

theorem writeRuleFiles_refines_bareTree :
    (RuleSync.writeRuleFiles .empty [{ name := "../a.yaml", content := [1] }] {}).1 =
        putWrites .empty (writeRuleFiles bareTree "/etc/argus/rules"
          [{ name := "../a.yaml", content := [1] }] {}).1 ∧
      ((RuleSync.writeRuleFiles .empty [{ name := "../a.yaml", content := [1] }] {}).2 = .ok () ↔
        (writeRuleFiles bareTree "/etc/argus/rules"
          [{ name := "../a.yaml", content := [1] }] {}).2 = .ok ()) :=
  writeRuleFiles_refines (by decide) (fun _ => rfl) _ _ _

end ArgusEdr.RulePaths
