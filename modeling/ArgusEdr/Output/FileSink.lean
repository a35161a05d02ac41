import ArgusEdr.Go.Text
import ArgusEdr.Lib.Runs

/-!
# The log file (`internal/output/file.go`)

`FileSink` appends lines to a file and rotates it first where a line would bring it over its limit:
the handle is closed, the file renamed and a new one opened. Each of these can fail, and so can the
write; the operating system's answers are arguments of a write. A handle that has been closed stays
closed, also where closing it failed, and every later call on it fails.
-/

namespace ArgusEdr.Output

open List

open Go (Bytes Error)
open Runs

/-! ## Files -/

def EntriesBelow (files : ℕ) (entries : String → Option ℕ) : Prop :=
  ∀ path inode, entries path = some inode → inode < files

variable {files : ℕ} {entries : String → Option ℕ}

theorem EntriesBelow.update (h : EntriesBelow files entries) (path : String) {entry : Option ℕ}
    (hentry : ∀ inode, entry = some inode → inode < files) :
    EntriesBelow files (Function.update entries path entry) := by
  intro path' inode hinode
  by_cases hpath : path' = path
  · subst hpath
    rw [Function.update_self] at hinode
    exact hentry inode hinode
  · rw [Function.update_of_ne hpath] at hinode
    exact h path' inode hinode

theorem EntriesBelow.mono {files' : ℕ} (h : EntriesBelow files entries) (hle : files ≤ files') :
    EntriesBelow files' entries :=
  fun path inode hinode => (h path inode hinode).trans_le hle

/-- The files, numbered, and the directory. -/
structure FileSystem where
  contents : List Bytes
  entries : String → Option ℕ
  valid : EntriesBelow contents.length entries

structure OSFile where
  name : String
  inode : ℕ
  closed : Bool := false

/-- What the operating system answers to the calls of one write. A failing `write` has written some
part of the line. -/
structure FileAnswers where
  close : Option Error := none
  rename : Option Error := none
  openFile : Option Error := none
  write : Option (ℕ × Error) := none

def errClosed : Error := .errorf "file already closed" []

def OSFile.close (f : OSFile) (answer : Option Error) : OSFile × Option Error :=
  if f.closed then (f, some (.wrapf "close %s: %w" [f.name] errClosed))
  else ({ f with closed := true }, answer)

namespace FileSystem

def read (fs : FileSystem) (path : String) : Option Bytes := do
  let inode ← fs.entries path
  fs.contents[inode]?

def rename (fs : FileSystem) (oldpath newpath : String) : Option Error → Except Error FileSystem
  | some err => .error err
  | none =>
    match h : fs.entries oldpath with
    | none => .error (.errorf "rename %s %s: no such file or directory" [oldpath, newpath])
    | some inode =>
      .ok
        { fs with
          entries := Function.update (Function.update fs.entries newpath (some inode)) oldpath none
          valid :=
            (fs.valid.update newpath fun _ hnew =>
              Option.some.inj hnew ▸ fs.valid oldpath inode h).update oldpath (by simp) }

/-- `os.OpenFile` with `O_APPEND|O_CREATE|O_WRONLY`. -/
def openFile (fs : FileSystem) (name : String) :
    Option Error → Except Error (FileSystem × OSFile)
  | some err => .error err
  | none =>
    match fs.entries name with
    | some inode => .ok (fs, { name, inode })
    | none =>
      .ok
        ({ contents := fs.contents ++ [[]]
           entries := Function.update fs.entries name (some fs.contents.length)
           valid := (fs.valid.mono (by simp)).update name (by simp) },
         { name, inode := fs.contents.length })

def append (fs : FileSystem) (inode : ℕ) (part : Bytes) : FileSystem where
  contents := fs.contents.modify inode (· ++ part)
  entries := fs.entries
  valid := (length_modify _ _ _).symm ▸ fs.valid

/-- The part of a line a write with this answer writes. -/
def written (line : Bytes) : Option (ℕ × Error) → Bytes
  | none => line
  | some (n, _) => line.take n

def write (fs : FileSystem) (f : OSFile) (line : Bytes) (answer : Option (ℕ × Error)) :
    FileSystem × ℕ × Option Error :=
  if f.closed then (fs, 0, some (.wrapf "write %s: %w" [f.name] errClosed))
  else
    let part := written line answer
    (fs.append f.inode part, part.length, answer.map Prod.snd)

theorem written_part (line : Bytes) (answer : Option (ℕ × Error)) :
    written line answer <+: line := by
  cases answer with
  | none => exact prefix_refl line
  | some failure => exact take_prefix failure.1 line

end FileSystem

/-! ## The sink -/

structure FileSink where
  path : String
  rotateMaxBytes : ℤ
  file : OSFile
  size : ℤ

structure FileWorld where
  fs : FileSystem
  sink : FileSink

/-- `NewFile`, with the answers to `MkdirAll`, `OpenFile` and `Stat`. -/
def newFile (fs : FileSystem) (path : String) (rotateMaxBytes : ℤ)
    (mkdirAll openFile stat : Option Error) : Except Error FileWorld :=
  match mkdirAll with
  | some err => .error err
  | none => do
    let (fs, file) ← fs.openFile path openFile
    match stat with
    | some err => .error err
    | none =>
      let size := ((fs.contents[file.inode]?).getD []).length
      return ⟨fs, { path, rotateMaxBytes, file, size }⟩

namespace FileSink

/-- The test of `rotateIfNeeded`: a line of this length is appended without rotating. -/
def Fits (s : FileSink) (incoming : ℕ) : Prop :=
  s.rotateMaxBytes ≤ 0 ∨ s.size + incoming ≤ s.rotateMaxBytes

instance (s : FileSink) (incoming : ℕ) : Decidable (s.Fits incoming) :=
  inferInstanceAs (Decidable (_ ∨ _))

def rotateIfNeeded (w : FileWorld) (incoming : ℕ) (answers : FileAnswers) :
    FileWorld × Option Error :=
  if w.sink.Fits incoming then (w, none)
  else
    match w.sink.file.close answers.close with
    | (file, some err) => (⟨w.fs, { w.sink with file }⟩, some err)
    | (file, none) =>
      let sink := { w.sink with file }
      match w.fs.rename sink.path (sink.path ++ ".1") answers.rename with
      | .error err => (⟨w.fs, sink⟩, some err)
      | .ok fs =>
        match fs.openFile sink.path answers.openFile with
        | .error err => (⟨fs, sink⟩, some err)
        | .ok (fs, file) => (⟨fs, { sink with file, size := 0 }⟩, none)

def writeLine (w : FileWorld) (line : Bytes) (answers : FileAnswers) : FileWorld × Option Error :=
  match rotateIfNeeded w line.length answers with
  | (w, some err) => (w, some err)
  | (w, none) =>
    let (fs, n, err) := w.fs.write w.sink.file line answers.write
    (⟨fs, { w.sink with size := w.sink.size + n }⟩, err)

variable {Doc : Type} (marshal : Doc → Except Error Bytes)

def write (w : FileWorld) (doc : Doc) (answers : FileAnswers) : FileWorld × Option Error :=
  match marshal doc with
  | .error err => (w, some err)
  | .ok line => writeLine w (line ++ [10]) answers

def step (w : FileWorld) (e : Doc × FileAnswers) : FileWorld := (write marshal w e.1 e.2).1

/-! ## What a write does -/

structure Shows (w : FileWorld) (isOpen : Bool) (file : Option Bytes) : Prop where
  closed : w.sink.file.closed = !isOpen
  read : w.fs.read w.sink.path = file
  size : ∀ c ∈ file, w.sink.size = c.length
  entry : isOpen = true → w.fs.entries w.sink.path = some w.sink.file.inode

/-- A rotation for a line of this length, of which a part fails. -/
def RotationFails (w : FileWorld) (incoming : ℕ) (answers : FileAnswers) : Prop :=
  ¬ w.sink.Fits incoming ∧
    (answers.close ≠ none ∨ answers.rename ≠ none ∨ answers.openFile ≠ none)

/-- A rotation for a line of this length that is left without a file. -/
def OpenFails (w : FileWorld) (incoming : ℕ) (answers : FileAnswers) : Prop :=
  ¬ w.sink.Fits incoming ∧ w.sink.file.closed = false ∧
    answers.close = none ∧ answers.rename = none ∧ answers.openFile ≠ none

section
variable {w : FileWorld} {c : Bytes} {incoming : ℕ} {fs : FileSystem}

theorem OpenFails.rotationFails {answers : FileAnswers} (h : OpenFails w incoming answers) :
    RotationFails w incoming answers :=
  ⟨h.1, .inr (.inr h.2.2.2.2)⟩

theorem Shows.exists_file {file : Option Bytes} (h : Shows w true file) : ∃ c, file = some c := by
  have hentry := h.entry rfl
  have hinode : w.sink.file.inode < w.fs.contents.length := w.fs.valid _ _ hentry
  exact ⟨w.fs.contents[w.sink.file.inode], by simp [← h.read, FileSystem.read, hentry, hinode]⟩

theorem openFile_eq_ok {fs' : FileSystem} {name : String} {f : OSFile} {answer : Option Error}
    (h : fs.openFile name answer = .ok (fs', f)) :
    f.closed = false ∧ fs'.entries name = some f.inode ∧
      fs'.read name = some ((fs.read name).getD []) := by
  cases answer with
  | some => cases h
  | none =>
    cases hentry : fs.entries name with
    | none =>
      simp only [FileSystem.openFile, hentry] at h
      cases h
      simp [FileSystem.read, hentry]
    | some inode =>
      simp only [FileSystem.openFile, hentry] at h
      cases h
      have hinode : inode < fs.contents.length := fs.valid name inode hentry
      simp [FileSystem.read, hentry, hinode]

theorem shows_newFile {path : String} {rotateMaxBytes : ℤ}
    {mkdirAll openFile stat : Option Error}
    (h : newFile fs path rotateMaxBytes mkdirAll openFile stat = .ok w) :
    Shows w true (some ((fs.read path).getD [])) ∧ w.sink.path = path ∧
      w.sink.rotateMaxBytes = rotateMaxBytes := by
  cases mkdirAll with
  | some => cases h
  | none =>
    cases hopen : fs.openFile path openFile with
    | error => simp [newFile, hopen, bind, Except.bind] at h
    | ok result =>
      obtain ⟨fs', f⟩ := result
      obtain ⟨hclosed, hentry, hread⟩ := openFile_eq_ok hopen
      cases stat with
      | some => simp [newFile, hopen, bind, Except.bind] at h
      | none =>
        simp only [newFile, hopen, bind, Except.bind, pure, Except.pure, Except.ok.injEq] at h
        subst h
        have hcontent : fs'.contents[f.inode]? = some ((fs.read path).getD []) := by
          rw [← hread, FileSystem.read, hentry]
          rfl
        exact ⟨⟨hclosed, hread, by simp [hcontent], fun _ => hentry⟩, rfl, rfl⟩

theorem writeLine_of_closed (h : w.sink.file.closed = true) (line : Bytes) (answers : FileAnswers) :
    ∃ err, writeLine w line answers = (w, some err) := by
  by_cases hfits : w.sink.Fits line.length
  · simp [writeLine, rotateIfNeeded, hfits, FileSystem.write, h]
  · simp [writeLine, rotateIfNeeded, hfits, OSFile.close, h]

theorem write_of_open (h : Shows w true (some c)) (line : Bytes) (answer : Option (ℕ × Error)) :
    ∃ part fs, part <+: line ∧
      w.fs.write w.sink.file line answer = (fs, part.length, answer.map Prod.snd) ∧
      Shows ⟨fs, { w.sink with size := w.sink.size + part.length }⟩ true (some (c ++ part)) := by
  have hentry := h.entry rfl
  have hread := h.read
  simp only [FileSystem.read, hentry, Option.bind_eq_bind, Option.bind_some] at hread
  refine ⟨FileSystem.written line answer,
    w.fs.append w.sink.file.inode (FileSystem.written line answer),
    FileSystem.written_part line answer, by simp [FileSystem.write, h.closed], ?_⟩
  exact
    { closed := h.closed
      read := by simp [FileSystem.read, FileSystem.append, hentry, hread]
      size := by simp [h.size c rfl]
      entry := fun _ => hentry }

theorem rename_of_entry {oldpath : String} {inode : ℕ} (h : fs.entries oldpath = some inode)
    (newpath : String) :
    ∃ fs', fs.rename oldpath newpath none = .ok fs' ∧ fs'.read oldpath = none := by
  simp only [FileSystem.rename]
  split
  · simp_all
  · exact ⟨_, rfl, by simp [FileSystem.read]⟩

/-- A rotation that succeeds leaves an empty file. One that fails leaves a closed handle, and the file
where it was unless it has been renamed. -/
theorem rotateIfNeeded_of_open (h : Shows w true (some c)) (hfits : ¬ w.sink.Fits incoming)
    (answers : FileAnswers) :
    (¬ RotationFails w incoming answers ∧ ∃ fs f, rotateIfNeeded w incoming answers =
      (⟨fs, { w.sink with file := f, size := 0 }⟩, none) ∧
      Shows ⟨fs, { w.sink with file := f, size := 0 }⟩ true (some [])) ∨
    (RotationFails w incoming answers ∧ ∃ fs err file, rotateIfNeeded w incoming answers =
      (⟨fs, { w.sink with file := { w.sink.file with closed := true } }⟩, some err) ∧
      fs.read w.sink.path = file ∧ (OpenFails w incoming answers ∧ file = none ∨
        ¬ OpenFails w incoming answers ∧ file = some c)) := by
  obtain ⟨close, rename, openFile, write⟩ := answers
  cases close with
  | some err =>
    refine .inr ⟨⟨hfits, by simp⟩, w.fs, err, _, ?_, h.read, .inr ⟨by simp [OpenFails], rfl⟩⟩
    simp [rotateIfNeeded, hfits, OSFile.close, h.closed]
  | none =>
    cases rename with
    | some err =>
      refine .inr ⟨⟨hfits, by simp⟩, w.fs, err, _, ?_, h.read, .inr ⟨by simp [OpenFails], rfl⟩⟩
      simp [rotateIfNeeded, hfits, OSFile.close, h.closed, FileSystem.rename]
    | none =>
      obtain ⟨fs, hrename, hgone⟩ := rename_of_entry (h.entry rfl) (w.sink.path ++ ".1")
      cases hopen : fs.openFile w.sink.path openFile with
      | error err =>
        have hfails : openFile ≠ none := by
          rintro rfl
          simp only [FileSystem.openFile] at hopen
          split at hopen <;> cases hopen
        refine .inr ⟨⟨hfits, by simp [hfails]⟩, fs, err, _, ?_, hgone,
          .inl ⟨⟨hfits, h.closed, rfl, rfl, hfails⟩, rfl⟩⟩
        simp [rotateIfNeeded, hfits, OSFile.close, h.closed, hrename, hopen]
      | ok result =>
        obtain ⟨fs', f⟩ := result
        obtain ⟨hclosed, hentry, hread⟩ := openFile_eq_ok hopen
        have hok : openFile = none := by
          cases openFile with
          | none => rfl
          | some => cases hopen
        rw [hgone] at hread
        refine .inl ⟨by simp [RotationFails, hok], fs', f, ?_, hclosed, hread, by simp, fun _ => hentry⟩
        simp [rotateIfNeeded, hfits, OSFile.close, h.closed, hrename, hopen]

/-- One write through an open handle. A file it leaves open is within the limit or comes from the one
line. -/
theorem writeLine_of_open (h : Shows w true (some c)) (line : Bytes) (answers : FileAnswers) :
    (¬ RotationFails w line.length answers ∧
      (writeLine w line answers).2 = answers.write.map Prod.snd ∧
      ∃ c', Shows (writeLine w line answers).1 true (some c') ∧
        (0 < w.sink.rotateMaxBytes → w.sink.rotateMaxBytes < c'.length → c' <+: line)) ∨
    (RotationFails w line.length answers ∧ ∃ file, Shows (writeLine w line answers).1 false file ∧
      (OpenFails w line.length answers ∧ file = none ∨
        ¬ OpenFails w line.length answers ∧ file = some c)) := by
  by_cases hfits : w.sink.Fits line.length
  · obtain ⟨part, fs, hpart, hwrite, hshows⟩ := write_of_open h line answers.write
    have heq : writeLine w line answers =
        (⟨fs, { w.sink with size := w.sink.size + part.length }⟩, answers.write.map Prod.snd) := by
      simp [writeLine, rotateIfNeeded, hfits, hwrite]
    rw [heq]
    refine .inl ⟨fun hfails => hfails.1 hfits, rfl, c ++ part, hshows, fun hpos hlt => ?_⟩
    -- the line fits, so the limit is kept
    have hlen := hpart.length_le
    have hsize := h.size c rfl
    rw [length_append] at hlt
    rcases hfits with hoff | hfits
    all_goals omega
  · rcases rotateIfNeeded_of_open h hfits answers with
      ⟨hok, fs, f, hrotate, hshows⟩ | ⟨hfails, fs, err, file, hrotate, hread, hfile⟩
    · obtain ⟨part, fs', hpart, hwrite, hshows'⟩ := write_of_open hshows line answers.write
      have heq : writeLine w line answers =
          (⟨fs', { w.sink with file := f, size := 0 + part.length }⟩, answers.write.map Prod.snd) := by
        simp [writeLine, hrotate, hwrite]
      rw [heq]
      exact .inl ⟨hok, rfl, part, hshows', fun _ _ => hpart⟩
    · have heq : writeLine w line answers =
          (⟨fs, { w.sink with file := { w.sink.file with closed := true } }⟩, some err) := by
        simp [writeLine, hrotate]
      have hsize : ∀ b ∈ file, w.sink.size = b.length := by
        intro b hb
        rcases hfile with ⟨-, rfl⟩ | ⟨-, rfl⟩
        · cases hb
        · exact h.size b hb
      rw [heq]
      exact .inr ⟨hfails, file, ⟨rfl, hread, hsize, nofun⟩, hfile⟩

end

theorem setup_writeLine (w : FileWorld) (line : Bytes) (answers : FileAnswers) :
    (writeLine w line answers).1.sink.path = w.sink.path ∧
      (writeLine w line answers).1.sink.rotateMaxBytes = w.sink.rotateMaxBytes := by
  unfold writeLine rotateIfNeeded
  grind

/-! ## Runs of writes -/

/-- No part of a rotation fails in the write `e`. -/
def RotationsSucceed (w : FileWorld) (e : Doc × FileAnswers) : Prop :=
  ∀ line, marshal e.1 = .ok line → ¬ RotationFails w (line ++ [10]).length e.2

/-- No rotation is left without a file in the write `e`. -/
def OpensSucceed (w : FileWorld) (e : Doc × FileAnswers) : Prop :=
  ∀ line, marshal e.1 = .ok line → ¬ OpenFails w (line ++ [10]).length e.2

/-- A file keeps the limit, unless all of it comes from a single line of the writes `es`. -/
def KeepsLimit (rotateMaxBytes : ℤ) (es : List (Doc × FileAnswers)) (c : Bytes) : Prop :=
  0 < rotateMaxBytes → rotateMaxBytes < c.length →
    ∃ e ∈ es, ∃ line, marshal e.1 = .ok line ∧ c <+: line ++ [10]

/-- The sink after the writes `es`: its handle is open if no part of a rotation has failed, and there is
a file if none has failed at opening it. -/
structure After (w₀ : FileWorld) (es : List (Doc × FileAnswers)) (w : FileWorld) (isOpen : Bool)
    (file : Option Bytes) : Prop where
  current : Shows w isOpen file
  rotations : isOpen = true ↔ AllSteps (step marshal) (RotationsSucceed marshal) w₀ es
  opens : file.isSome ↔ AllSteps (step marshal) (OpensSucceed marshal) w₀ es
  limit : ∀ c ∈ file, KeepsLimit marshal w.sink.rotateMaxBytes es c

theorem setup_step (w : FileWorld) (e : Doc × FileAnswers) :
    (step marshal w e).sink.path = w.sink.path ∧
      (step marshal w e).sink.rotateMaxBytes = w.sink.rotateMaxBytes := by
  unfold step write
  split
  · exact ⟨rfl, rfl⟩
  · exact setup_writeLine w _ e.2

variable {marshal}

theorem KeepsLimit.concat {rotateMaxBytes : ℤ} {es : List (Doc × FileAnswers)} {c : Bytes}
    (h : KeepsLimit marshal rotateMaxBytes es c) (e : Doc × FileAnswers) :
    KeepsLimit marshal rotateMaxBytes (es ++ [e]) c := by
  intro hpos hlt
  obtain ⟨e', he', hline⟩ := h hpos hlt
  exact ⟨e', mem_append_left [e] he', hline⟩

theorem write_eq_of_marshal {w : FileWorld} {doc : Doc} {line : Bytes} (h : marshal doc = .ok line)
    (answers : FileAnswers) :
    write marshal w doc answers = writeLine w (line ++ [10]) answers := by
  simp only [write, h]

theorem write_of_closed {w : FileWorld} (h : w.sink.file.closed = true) (doc : Doc)
    (answers : FileAnswers) : ∃ err, write marshal w doc answers = (w, some err) := by
  cases hmarshal : marshal doc with
  | error err => exact ⟨err, by simp only [write, hmarshal]⟩
  | ok =>
    rw [write_eq_of_marshal hmarshal]
    exact writeLine_of_closed h _ answers

section
variable {w₀ : FileWorld} {es : List (Doc × FileAnswers)} {isOpen : Bool} {file : Option Bytes}

theorem After.unchanged {w : FileWorld} (h : After marshal w₀ es w isOpen file)
    (hrun : run (step marshal) w₀ es = w) {e : Doc × FileAnswers} (hstep : step marshal w e = w)
    (hrotation : isOpen = true → RotationsSucceed marshal w e) (hopen : OpensSucceed marshal w e) :
    After marshal w₀ (es ++ [e]) (step marshal w e) isOpen file := by
  subst hrun
  rw [hstep]
  refine ⟨h.current, ?_, ?_, fun c hc => (h.limit c hc).concat e⟩
  · rw [AllSteps.concat_iff, ← h.rotations, and_iff_left_of_imp hrotation]
  · rw [AllSteps.concat_iff, ← h.opens, and_iff_left hopen]

theorem After.concat (h : After marshal w₀ es (run (step marshal) w₀ es) isOpen file)
    (e : Doc × FileAnswers) : ∃ isOpen file,
      After marshal w₀ (es ++ [e]) (step marshal (run (step marshal) w₀ es) e) isOpen file := by
  cases isOpen with
  | false =>
    have hclosed := h.current.closed
    have hstep : step marshal (run (step marshal) w₀ es) e = run (step marshal) w₀ es := by
      obtain ⟨err, herr⟩ := write_of_closed hclosed e.1 e.2
      rw [step, herr]
    refine ⟨false, file, h.unchanged rfl hstep nofun ?_⟩
    rintro line - ⟨-, hopen, -⟩
    rw [hclosed] at hopen
    cases hopen
  | true =>
    obtain ⟨c, rfl⟩ := h.current.exists_file
    cases hmarshal : marshal e.1 with
    | error =>
      have hstep : step marshal (run (step marshal) w₀ es) e = run (step marshal) w₀ es := by
        simp only [step, write, hmarshal]
      exact ⟨true, some c, h.unchanged rfl hstep (fun _ => by simp [RotationsSucceed, hmarshal])
        (by simp [OpensSucceed, hmarshal])⟩
    | ok line =>
      generalize hw : run (step marshal) w₀ es = w at h ⊢
      have hrotation : RotationsSucceed marshal w e ↔ ¬ RotationFails w (line ++ [10]).length e.2 := by
        simp only [RotationsSucceed, hmarshal, Except.ok.injEq, forall_eq']
      have hopen : OpensSucceed marshal w e ↔ ¬ OpenFails w (line ++ [10]).length e.2 := by
        simp only [OpensSucceed, hmarshal, Except.ok.injEq, forall_eq']
      have hsetup := (setup_step marshal w e).2
      rw [step, write_eq_of_marshal hmarshal] at hsetup ⊢
      rcases writeLine_of_open h.current (line ++ [10]) e.2 with
        ⟨hok, -, c', hshows, hline⟩ | ⟨hfails, file, hshows, hfile⟩
      · refine ⟨true, some c', hshows, ?_, ?_, ?_⟩
        · rw [AllSteps.concat_iff, ← h.rotations, hw, hrotation]
          exact iff_of_true rfl ⟨rfl, hok⟩
        · rw [AllSteps.concat_iff, ← h.opens, hw, hopen]
          exact iff_of_true rfl ⟨rfl, mt OpenFails.rotationFails hok⟩
        · rintro _ ⟨⟩ hpos hlt
          rw [hsetup] at hpos hlt
          exact ⟨e, by simp, line, hmarshal, hline hpos hlt⟩
      · refine ⟨false, file, hshows, ?_, ?_, ?_⟩
        · rw [AllSteps.concat_iff, ← h.rotations, hw, hrotation]
          exact iff_of_false nofun fun hall => hall.2 hfails
        · rw [AllSteps.concat_iff, ← h.opens, hw, hopen]
          rcases hfile with ⟨hfailed, rfl⟩ | ⟨hopened, rfl⟩
          · exact iff_of_false nofun fun hall => hall.2 hfailed
          · exact iff_of_true rfl ⟨rfl, hopened⟩
        · rintro b hb
          rw [hsetup]
          rcases hfile with ⟨-, rfl⟩ | ⟨-, rfl⟩
          · cases hb
          · exact (h.limit b hb).concat e

end

/-- A sink opened on a file within its limit, after any writes with any failures. Its file keeps the
limit, unless all of it comes from a single line. The recorded size is the size of the file at the path
exactly if no rotation has failed at opening the new file. If no part of a rotation has failed, a write
for which the operating system does not fail succeeds; if one has, no write does. -/
theorem writes_accounted {fs : FileSystem} {path : String} {rotateMaxBytes : ℤ}
    {mkdirAll openFile stat : Option Error} {w₀ : FileWorld}
    (h : newFile fs path rotateMaxBytes mkdirAll openFile stat = .ok w₀)
    (hlimit : 0 < rotateMaxBytes → w₀.sink.size ≤ rotateMaxBytes) (es : List (Doc × FileAnswers)) :
    let w := run (step marshal) w₀ es
    (∀ c, w.fs.read path = some c → KeepsLimit marshal rotateMaxBytes es c) ∧
    ((∃ c, w.fs.read path = some c ∧ w.sink.size = c.length) ↔
      AllSteps (step marshal) (OpensSucceed marshal) w₀ es) ∧
    (AllSteps (step marshal) (RotationsSucceed marshal) w₀ es →
      ∀ doc line, marshal doc = .ok line → (write marshal w doc {}).2 = none) ∧
    (¬ AllSteps (step marshal) (RotationsSucceed marshal) w₀ es →
      ∀ doc answers, (write marshal w doc answers).2 ≠ none) := by
  intro w
  obtain ⟨hw₀, hpath₀, hmax₀⟩ := shows_newFile h
  obtain ⟨hpath, hmax⟩ : w.sink.path = path ∧ w.sink.rotateMaxBytes = rotateMaxBytes :=
    run_invariant (I := fun w => w.sink.path = path ∧ w.sink.rotateMaxBytes = rotateMaxBytes)
      ⟨hpath₀, hmax₀⟩
      (fun w e hw => ⟨(setup_step marshal w e).1.trans hw.1, (setup_step marshal w e).2.trans hw.2⟩) es
  obtain ⟨isOpen, file, hafter⟩ : ∃ isOpen file, After marshal w₀ es w isOpen file := by
    refine run_history_invariant (I := fun es w => ∃ isOpen file, After marshal w₀ es w isOpen file)
      ⟨true, _, hw₀, by simp, by simp, ?_⟩ (fun es e ⟨isOpen, file, h⟩ => h.concat e) es
    rintro c hc hpos hlt
    rw [hmax₀] at hpos hlt
    exact absurd (hw₀.size c hc ▸ hlimit hpos) (not_le.mpr hlt)
  have hread : w.fs.read path = file := hpath ▸ hafter.current.read
  refine ⟨fun c hc => ?_, ?_, fun hall doc line hline => ?_, fun hnot doc answers => ?_⟩
  · rw [hread] at hc
    exact hmax ▸ hafter.limit c hc
  · rw [← hafter.opens, Option.isSome_iff_exists, hread]
    exact exists_congr fun c => and_iff_left_of_imp (hafter.current.size c)
  · obtain rfl : isOpen = true := hafter.rotations.mpr hall
    obtain ⟨c, rfl⟩ := hafter.current.exists_file
    rw [write_eq_of_marshal hline]
    rcases writeLine_of_open hafter.current (line ++ [10]) {} with
      ⟨-, hresult, -⟩ | ⟨⟨-, hfails⟩, -⟩
    · exact hresult
    · simp at hfails
  · obtain rfl : isOpen = false := by simpa using mt hafter.rotations.mp hnot
    obtain ⟨err, herr⟩ := write_of_closed hafter.current.closed doc answers
    rw [herr]
    exact nofun

def emptyDisk : FileSystem where
  contents := []
  entries := fun _ => none
  valid := by simp [EntriesBelow]

/-- Two lines of three bytes are written under a limit of four, and the second one's rotation succeeds:
the file and the record have the second line, and a third write succeeds. -/
theorem writes_accounted_two_lines :
    let marshal : Unit → Except Error Bytes := fun _ => .ok [123, 125]
    let es : List (Unit × FileAnswers) := [((), {}), ((), {})]
    ∃ w₀, newFile emptyDisk "argus.log" 4 none none none = .ok w₀ ∧
      ((∃ c, (run (step marshal) w₀ es).fs.read "argus.log" = some c ∧
          (run (step marshal) w₀ es).sink.size = c.length) ↔
        AllSteps (step marshal) (OpensSucceed marshal) w₀ es) ∧
      (run (step marshal) w₀ es).fs.read "argus.log" = some [123, 125, 10] := by
  intro marshal es
  obtain ⟨w₀, hnew, hsize, hread⟩ : ∃ w₀, newFile emptyDisk "argus.log" 4 none none none = .ok w₀ ∧
      w₀.sink.size ≤ 4 ∧
      (run (step marshal) w₀ es).fs.read "argus.log" = some [123, 125, 10] :=
    ⟨_, rfl, by decide, by decide⟩
  exact ⟨w₀, hnew, (writes_accounted hnew (fun _ => hsize) es).2.1, hread⟩

/-- The same with no space for the new file: the old one has been renamed, its size of three is still on
record, and the next write fails although nothing stands in its way any more. -/
theorem write_after_failed_open :
    let marshal : Unit → Except Error Bytes := fun _ => .ok [123, 125]
    let failing : FileAnswers := { openFile := some (.errorf "no space left on device" []) }
    ∃ w₀, newFile emptyDisk "argus.log" 4 none none none = .ok w₀ ∧
      let w := run (step marshal) w₀ [((), {}), ((), failing)]
      w.fs.read "argus.log" = none ∧ w.sink.size = 3 ∧
        (write marshal w () {}).2 = some (.wrapf "close %s: %w" ["argus.log"] errClosed) := by
  refine ⟨_, rfl, ?_⟩
  decide

end FileSink
end ArgusEdr.Output
