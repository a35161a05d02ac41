import ArgusEdr.Model.Event
import ArgusEdr.Lib.Runs

/-!
# The client key pair (`internal/fleet/tls.go`)

`keypairLoader` keeps the pair it has parsed and parses the files again when the newer of their two
modification times has changed. Here the two files are replaced, one at a time and with any times,
between calls of `load`.
-/

namespace ArgusEdr.Fleet

open Go (Bytes)
open Model (Time)
open Runs

/-- A file as `Stat` and `ReadFile` see it. -/
structure PEMFile where
  content : Except Go.Error Bytes
  modTime : Time

/-- The two files; a file that is not there fails to be looked at. -/
structure KeyDisk where
  certFile : Except Go.Error PEMFile
  keyFile : Except Go.Error PEMFile

variable {P : Type} (x509KeyPair : Bytes → Bytes → Except Go.Error P)

structure KeypairLoader (P : Type) where
  certFile : String
  keyFile : String
  cached : Option P := none
  modTime : Time := 0

namespace KeypairLoader

/-- The later of two times, as `newestModTime` goes from file to file. -/
def later (newest : Time) (f : PEMFile) : Time := if f.modTime > newest then f.modTime else newest

def newestModTime (l : KeypairLoader P) (d : KeyDisk) : Except Go.Error Time := do
  let cert ← d.certFile.mapError (.wrapf "stat %s: %w" [l.certFile])
  let key ← d.keyFile.mapError (.wrapf "stat %s: %w" [l.keyFile])
  return later (later 0 cert) key

def read (d : KeyDisk) : Except Go.Error P := do
  let certPEM ← (d.certFile >>= PEMFile.content).mapError (.wrapf "read cert: %w" [])
  let keyPEM ← (d.keyFile >>= PEMFile.content).mapError (.wrapf "read key: %w" [])
  (x509KeyPair certPEM keyPEM).mapError (.wrapf "load client keypair: %w" [])

/-- The end of `load`, where the files are read. -/
def reload (l : KeypairLoader P) (d : KeyDisk) (newest : Time) :
    KeypairLoader P × Except Go.Error P :=
  match read x509KeyPair d with
  | .error err => (l, .error err)
  | .ok cert => ({ l with cached := some cert, modTime := newest }, .ok cert)

def load (l : KeypairLoader P) (d : KeyDisk) : KeypairLoader P × Except Go.Error P :=
  match l.newestModTime d with
  | .error err => (l, .error err)
  | .ok newest =>
    match l.cached with
    | some cached =>
      if newest = l.modTime then (l, .ok cached) else l.reload x509KeyPair d newest
    | none => l.reload x509KeyPair d newest

end KeypairLoader

/-! ## Replacements -/

/-- The disk and the loader. `seen` is the pair, and the newest time, of the last load that found a
pair on the disk, whatever it returned. -/
structure KeyWorld (P : Type) where
  disk : KeyDisk
  loader : KeypairLoader P
  seen : Option (P × Time) := none

inductive KeyEvent where
  | replaceCert (f : PEMFile)
  | replaceKey (f : PEMFile)
  | load

namespace KeyWorld

open KeypairLoader

def start (d : KeyDisk) (certFile keyFile : String) : KeyWorld P where
  disk := d
  loader := { certFile, keyFile }

/-- The pair and the newest time of a disk on which both files are readable and form a pair. -/
def found (w : KeyWorld P) : Option (P × Time) :=
  match read x509KeyPair w.disk, w.loader.newestModTime w.disk with
  | .ok pair, .ok newest => some (pair, newest)
  | _, _ => none

def step (w : KeyWorld P) : KeyEvent → KeyWorld P
  | .replaceCert f => { w with disk := { w.disk with certFile := .ok f } }
  | .replaceKey f => { w with disk := { w.disk with keyFile := .ok f } }
  | .load =>
    { w with
      loader := (w.loader.load x509KeyPair w.disk).1
      seen := (w.found x509KeyPair).or w.seen }

def LoadsCurrent (w : KeyWorld P) (e : KeyEvent) : Prop :=
  e = .load → ∀ pair, read x509KeyPair w.disk = .ok pair →
    (w.loader.load x509KeyPair w.disk).2 = .ok pair

/-- A load that finds a pair on the disk finds, under the newest time of the last such load, no other
pair. -/
def ToldApart (w : KeyWorld P) (e : KeyEvent) : Prop :=
  e = .load → ∀ pair newest, w.found x509KeyPair = some (pair, newest) →
    ∀ before, w.seen = some (before, newest) → before = pair

/-- A replacement has a later time than both files. -/
def Advances (w : KeyWorld P) : KeyEvent → Prop
  | .replaceCert f | .replaceKey f =>
    ∀ newest, w.loader.newestModTime w.disk = .ok newest → newest < f.modTime
  | .load => True

/-- The cache is what the last load found. -/
def Fresh (w : KeyWorld P) : Prop :=
  w.loader.cached.map (fun pair => (pair, w.loader.modTime)) = w.seen

variable {x509KeyPair} {d : KeyDisk} {pair : P} {l : KeypairLoader P} {w : KeyWorld P}
  {newest : Time} {e : KeyEvent}

theorem files_of_read (h : read x509KeyPair d = .ok pair) :
    ∃ cert key, d.certFile = .ok cert ∧ d.keyFile = .ok key := by
  obtain ⟨cert, key⟩ := d
  cases cert with
  | error => cases h
  | ok c =>
    cases key with
    | error => rcases c with ⟨_ | _, _⟩ <;> cases h
    | ok k => exact ⟨c, k, rfl, rfl⟩

theorem newestModTime_eq {cert key : PEMFile} (hcert : d.certFile = .ok cert)
    (hkey : d.keyFile = .ok key) : l.newestModTime d = .ok (later (later 0 cert) key) := by
  simp only [newestModTime, hcert, hkey]
  rfl

theorem found_of_read (h : read x509KeyPair w.disk = .ok pair) :
    ∃ newest, w.found x509KeyPair = some (pair, newest) := by
  obtain ⟨cert, key, hcert, hkey⟩ := files_of_read h
  exact ⟨later (later 0 cert) key, by simp only [found, h, newestModTime_eq hcert hkey]⟩

theorem found_eq_some_iff :
    w.found x509KeyPair = some (pair, newest) ↔
      read x509KeyPair w.disk = .ok pair ∧ w.loader.newestModTime w.disk = .ok newest := by
  unfold found
  split <;> simp_all

/-- A load that finds a pair: the cache is returned if it has the pair's time, and the pair itself is
returned and kept otherwise. -/
theorem load_of_found (h : w.found x509KeyPair = some (pair, newest)) :
    (∃ before, w.loader.cached = some before ∧ w.loader.modTime = newest ∧
      w.loader.load x509KeyPair w.disk = (w.loader, .ok before)) ∨
    ((∀ before, w.loader.cached = some before → w.loader.modTime ≠ newest) ∧
      w.loader.load x509KeyPair w.disk =
        ({ w.loader with cached := some pair, modTime := newest }, .ok pair)) := by
  obtain ⟨hread, hnewest⟩ := found_eq_some_iff.mp h
  cases hcached : w.loader.cached with
  | none => simp [load, reload, hread, hnewest, hcached]
  | some before =>
    by_cases htime : newest = w.loader.modTime
    · exact .inl ⟨before, rfl, htime.symm, by simp [load, hnewest, hcached, htime]⟩
    · refine .inr ⟨fun _ _ => Ne.symm htime, ?_⟩
      simp [load, reload, hread, hnewest, hcached, htime]

theorem load_of_not_found (h : w.found x509KeyPair = none) :
    (w.loader.load x509KeyPair w.disk).1 = w.loader := by
  have hread : ∀ pair, read x509KeyPair w.disk ≠ .ok pair := by
    intro pair hread
    obtain ⟨newest, hfound⟩ := found_of_read hread
    rw [h] at hfound
    cases hfound
  simp only [load, reload]
  grind

/-- As long as the cache is what the last load found, a load is current exactly if the newest time
tells the disk apart from that one. -/
theorem loadsCurrent_iff (hw : w.Fresh) :
    LoadsCurrent x509KeyPair w e ↔ ToldApart x509KeyPair w e := by
  refine imp_congr_right fun _ => ?_
  constructor
  · intro hcurrent pair newest hfound before hseen
    have hload := hcurrent pair (found_eq_some_iff.mp hfound).1
    rw [← hw, Option.map_eq_some_iff] at hseen
    obtain ⟨_, hcached, heq⟩ := hseen
    cases heq
    rcases load_of_found hfound with ⟨_, hcached', -, heq⟩ | ⟨hne, -⟩
    · rw [heq] at hload
      rw [hcached] at hcached'
      cases hcached'
      cases hload
      rfl
    · exact absurd rfl (hne before hcached)
  · intro hapart pair hread
    obtain ⟨newest, hfound⟩ := found_of_read hread
    rcases load_of_found hfound with ⟨before, hcached, htime, heq⟩ | ⟨-, heq⟩
    · have hseen : w.seen = some (before, newest) := by rw [← hw, hcached, ← htime]; rfl
      rw [heq, hapart pair newest hfound before hseen]
    · rw [heq]

theorem fresh_step (hw : w.Fresh) (he : ToldApart x509KeyPair w e) :
    (w.step x509KeyPair e).Fresh := by
  cases e with
  | replaceCert | replaceKey => exact hw
  | load =>
    cases hfound : w.found x509KeyPair with
    | none =>
      unfold Fresh at hw ⊢
      simp only [step, load_of_not_found hfound, hfound, Option.none_or]
      exact hw
    | some entry =>
      obtain ⟨pair, newest⟩ := entry
      rcases load_of_found hfound with ⟨before, hcached, htime, heq⟩ | ⟨-, heq⟩
      · have hseen : w.seen = some (before, newest) := by rw [← hw, hcached, ← htime]; rfl
        have hsame := he rfl pair newest hfound before hseen
        simp [Fresh, step, heq, hfound, hcached, htime, hsame]
      · simp [Fresh, step, heq, hfound]

/-- What the last load found has an older time than the disk, or is still on it. -/
def Outdated (x509KeyPair : Bytes → Bytes → Except Go.Error P) (w : KeyWorld P) : Prop :=
  ∀ before time, w.seen = some (before, time) →
    ∃ newest, w.loader.newestModTime w.disk = .ok newest ∧ time ≤ newest ∧
      (time = newest → read x509KeyPair w.disk = .ok before)

theorem later_eq_max (newest : Time) (f : PEMFile) : later newest f = max newest f.modTime := by
  unfold later
  split
  · next h => exact (max_eq_right h.le).symm
  · next h => exact (max_eq_left (not_lt.mp h)).symm

theorem files_of_newestModTime (h : l.newestModTime d = .ok newest) :
    ∃ cert key, d.certFile = .ok cert ∧ d.keyFile = .ok key := by
  obtain ⟨_ | cert, _ | key⟩ := d
  · cases h
  · cases h
  · cases h
  · exact ⟨cert, key, rfl, rfl⟩

theorem newestModTime_step (hne : e ≠ .load) (he : w.Advances e)
    (h : w.loader.newestModTime w.disk = .ok newest) :
    ∃ newest', (w.step x509KeyPair e).loader.newestModTime (w.step x509KeyPair e).disk = .ok newest' ∧
      newest < newest' := by
  obtain ⟨cert, key, hcert, hkey⟩ := files_of_newestModTime h
  cases e with
  | load => exact absurd rfl hne
  | replaceCert f =>
    have hlt : newest < f.modTime := he newest h
    refine ⟨_, newestModTime_eq rfl hkey, ?_⟩
    simp only [later_eq_max]
    exact lt_max_of_lt_left (lt_max_of_lt_right hlt)
  | replaceKey f =>
    have hlt : newest < f.modTime := he newest h
    refine ⟨_, newestModTime_eq hcert rfl, ?_⟩
    simp only [later_eq_max]
    exact lt_max_of_lt_right hlt

theorem seen_step_of_ne (hne : e ≠ .load) : (w.step x509KeyPair e).seen = w.seen := by
  cases e with
  | load => exact absurd rfl hne
  | replaceCert | replaceKey => rfl

theorem newestModTime_load (l : KeypairLoader P) (d d' : KeyDisk) :
    (l.load x509KeyPair d).1.newestModTime d' = l.newestModTime d' := by
  simp only [load, reload]
  grind [newestModTime]

theorem outdated_step (hw : w.Outdated x509KeyPair) (he : w.Advances e) :
    (w.step x509KeyPair e).Outdated x509KeyPair := by
  intro before time hseen
  by_cases hload : e = .load
  · subst hload
    have hdisk : (w.step x509KeyPair .load).loader.newestModTime w.disk =
        w.loader.newestModTime w.disk := newestModTime_load _ _ _
    cases hfound : w.found x509KeyPair with
    | none =>
      simp only [step, hfound, Option.none_or] at hseen
      obtain ⟨newest, hnewest, hrest⟩ := hw before time hseen
      exact ⟨newest, hdisk.trans hnewest, hrest⟩
    | some =>
      simp only [step, hfound, Option.some_or, Option.some.injEq] at hseen
      subst hseen
      obtain ⟨hread, hnewest⟩ := found_eq_some_iff.mp hfound
      exact ⟨time, hdisk.trans hnewest, le_refl time, fun _ => hread⟩
  · rw [seen_step_of_ne hload] at hseen
    obtain ⟨newest, hnewest, hle, -⟩ := hw before time hseen
    obtain ⟨newest', hnewest', hlt⟩ := newestModTime_step hload he hnewest
    have hlt' : time < newest' := lt_of_le_of_lt hle hlt
    exact ⟨newest', hnewest', hlt'.le, fun heq => absurd heq hlt'.ne⟩

theorem toldApart_of_outdated (hw : w.Outdated x509KeyPair) : ToldApart x509KeyPair w e := by
  intro _ pair newest hfound before hseen
  obtain ⟨hread, hnewest⟩ := found_eq_some_iff.mp hfound
  obtain ⟨newest', hnewest', -, hsame⟩ := hw before newest hseen
  rw [hnewest] at hnewest'
  cases hnewest'
  rw [hsame rfl] at hread
  cases hread
  rfl

end KeyWorld

/-- All loads of a history return the pair that is on the disk exactly if the newest time always tells
it apart from the pair of the last load that found one. Replacements that are each later than both files
are told apart. -/
theorem loads_current (d : KeyDisk) (certFile keyFile : String) (es : List KeyEvent) :
    let w : KeyWorld P := .start d certFile keyFile
    (AllSteps (KeyWorld.step x509KeyPair) (KeyWorld.LoadsCurrent x509KeyPair) w es ↔
      AllSteps (KeyWorld.step x509KeyPair) (KeyWorld.ToldApart x509KeyPair) w es) ∧
    (AllSteps (KeyWorld.step x509KeyPair) KeyWorld.Advances w es →
      AllSteps (KeyWorld.step x509KeyPair) (KeyWorld.LoadsCurrent x509KeyPair) w es) := by
  intro w
  have hiff : AllSteps (KeyWorld.step x509KeyPair) (KeyWorld.LoadsCurrent x509KeyPair) w es ↔
      AllSteps (KeyWorld.step x509KeyPair) (KeyWorld.ToldApart x509KeyPair) w es :=
    AllSteps.congr_while (I := KeyWorld.Fresh) rfl (fun _ _ => KeyWorld.loadsCurrent_iff)
      (fun _ _ => KeyWorld.fresh_step)
  refine ⟨hiff, fun hadvances => hiff.mpr ?_⟩
  have h0 : w.Outdated x509KeyPair := fun _ _ hseen => by cases hseen
  exact hadvances.of_invariant h0 (fun _ _ => KeyWorld.outdated_step)
    (fun _ _ hs _ => KeyWorld.toldApart_of_outdated hs)

/-- A certificate of five and a key of ten: the certificate is renewed for the same key, with the time
seven it has in the archive it was copied from. Both files form a pair, the newest time is still ten, and
the old pair is returned. -/
theorem loads_replaced_certificate :
    let x509KeyPair : Bytes → Bytes → Except Go.Error (Bytes × Bytes) := fun certPEM keyPEM =>
      if certPEM.head? = keyPEM.head? then .ok (certPEM, keyPEM) else .error (.errorf "mismatch" [])
    let d : KeyDisk := ⟨.ok ⟨.ok [1, 1], 5⟩, .ok ⟨.ok [1, 9], 10⟩⟩
    let w : KeyWorld (Bytes × Bytes) := .start d "client.crt" "client.key"
    let w' := run (KeyWorld.step x509KeyPair) w [.load, .replaceCert ⟨.ok [1, 2], 7⟩]
    KeypairLoader.read x509KeyPair w'.disk = .ok ([1, 2], [1, 9]) ∧
      (w'.loader.load x509KeyPair w'.disk).2 = .ok ([1, 1], [1, 9]) := by
  decide

end ArgusEdr.Fleet
