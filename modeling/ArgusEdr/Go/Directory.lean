import ArgusEdr.Go.Text

/-!
# A directory of regular files

The contents of one directory, by name. Every name is a single path element. `names` lists it in the
order `filepath.Glob` does, and `writeFile` is `os.WriteFile`: it fails on a name that is not a file
name, and may fail after it has truncated the file and written a part.
-/

namespace ArgusEdr.Go

structure Directory where
  entries : Std.ExtTreeMap String Bytes
  isEntryName : ∀ name ∈ entries, IsEntryName name

namespace Directory

def empty : Directory where
  entries := {}
  isEntryName := by simp

def read (d : Directory) (name : String) : Option Bytes := d.entries[name]?

def names (d : Directory) : List String := d.entries.keys

/-- Replaces or creates a file; a name no file can have leaves the directory alone. -/
def put (d : Directory) (name : String) (content : Bytes) : Directory :=
  if h : IsEntryName name then
    { entries := d.entries.insert name content
      isEntryName := by
        intro n hn
        rw [Std.ExtTreeMap.mem_insert] at hn
        rcases hn with hn | hn
        · rw [compare_eq_iff_eq] at hn
          exact hn ▸ h
        · exact d.isEntryName n hn }
  else d

def remove (d : Directory) (name : String) : Directory where
  entries := d.entries.erase name
  isEntryName := by
    intro n hn
    rw [Std.ExtTreeMap.mem_erase] at hn
    exact d.isEntryName n hn.2

/-- The names that match `*` followed by `suffix`. -/
def glob (d : Directory) (suffix : String) : List String :=
  d.names.filter fun name => hasSuffix name suffix

/-- How one `os.WriteFile` ends: it writes the content, it fails to open the file, or it fails
later, with the first bytes written. -/
inductive WriteOutcome where
  | written
  | openFailed (err : Error)
  | cutShort (len : ℕ) (err : Error)
deriving Repr, DecidableEq

def writeFile (d : Directory) (name : String) (content : Bytes) (outcome : WriteOutcome) :
    Directory × Except Error Unit :=
  if ¬IsEntryName name then (d, .error (.errorf "open %s: is a directory" [name]))
  else
    match outcome with
    | .written => (d.put name content, .ok ())
    | .openFailed err => (d, .error err)
    | .cutShort len err => (d.put name (content.take len), .error err)

/-! ## Reading back -/

@[simp] theorem read_empty (name : String) : empty.read name = none := by
  simp [read, empty]

theorem read_put {name : String} (h : IsEntryName name) (d : Directory) (content : Bytes)
    (k : String) : (d.put name content).read k = if name = k then some content else d.read k := by
  simp [read, put, h, Std.ExtTreeMap.getElem?_insert]

theorem mem_names_iff (d : Directory) (name : String) :
    name ∈ d.names ↔ ∃ content, d.read name = some content := by
  rw [names, Std.ExtTreeMap.mem_keys, Std.ExtTreeMap.mem_iff_isSome_getElem?, Option.isSome_iff_exists]
  rfl

theorem mem_glob_iff (d : Directory) (suffix name : String) :
    name ∈ d.glob suffix ↔ (∃ content, d.read name = some content) ∧ hasSuffix name suffix := by
  rw [glob, List.mem_filter, mem_names_iff]

theorem isEntryName_of_read {d : Directory} {name : String} {content : Bytes}
    (h : d.read name = some content) : IsEntryName name := by
  refine d.isEntryName name ?_
  rw [Std.ExtTreeMap.mem_iff_isSome_getElem?, Option.isSome_iff_exists]
  exact ⟨content, h⟩

theorem names_sorted (d : Directory) : d.names.Pairwise (· < ·) := by
  refine Std.ExtTreeMap.ordered_keys.imp fun h => ?_
  rwa [compare_lt_iff_lt] at h

theorem glob_sorted (d : Directory) (suffix : String) : (d.glob suffix).Pairwise (· < ·) :=
  d.names_sorted.filter _

theorem glob_nodup (d : Directory) (suffix : String) : (d.glob suffix).Nodup :=
  (d.glob_sorted suffix).imp fun h => ne_of_lt h

@[ext] theorem ext {d₁ d₂ : Directory} (h : ∀ name, d₁.read name = d₂.read name) : d₁ = d₂ := by
  obtain ⟨e₁, h₁⟩ := d₁
  obtain ⟨e₂, h₂⟩ := d₂
  have : e₁ = e₂ := Std.ExtTreeMap.ext_getElem? (fun {k} => h k)
  subst this
  rfl

end Directory
end ArgusEdr.Go
