import ArgusEdr.Go.Strings

/-!
# Paths (`path/filepath`)

A path leads from the root or from the working directory through its elements to a place. `Clean` is
the shortest path to the same place (`place_clean`), so that a path may be taken for the place it
leads to: `..` takes back the element in front of it, wherever that leads.

A tree says which places are directories. What a directory is in is a directory.
-/

namespace ArgusEdr.Go

open List

abbrev EntryName := { name : String // IsEntryName name }

/-- Where a path leads: from the root, or from so many levels above the working directory, through
names, of which the innermost is the first. -/
structure Place where
  above : Option ℕ
  names : List EntryName := []
deriving DecidableEq

namespace Place

def child (p : Place) (name : EntryName) : Place := { p with names := name :: p.names }

def parent (p : Place) : Place :=
  match p.names with
  | [] => { p with above := p.above.map (· + 1) }
  | _ :: names => { p with names }

/-- One element of a path further. -/
def enter (p : Place) (element : String) : Place :=
  if h : IsEntryName element then p.child ⟨element, h⟩
  else if element = ".." then p.parent
  else p

def elements (p : Place) : List String :=
  List.replicate (p.above.getD 0) ".." ++ (p.names.map Subtype.val).reverse

/-- The shortest path. -/
def path (p : Place) : String :=
  let joined := ['/'].intercalate (p.elements.map String.toList)
  match p.above with
  | none => String.ofList ('/' :: joined)
  | some _ => if p.elements = [] then "." else String.ofList joined

end Place

def origin (path : String) : Place :=
  { above := if path.toList.head? = some '/' then none else some 0 }

def place (path : String) : Place := (split path '/').foldl Place.enter (origin path)

def clean (path : String) : String := (place path).path

/-- `filepath.Join` of a directory and a name. An empty element is left out. -/
def join (dir name : String) : String :=
  if dir = "" then if name = "" then "" else clean name
  else clean (dir ++ "/" ++ name)

example : clean "/etc//argus/./x/../rules/" = "/etc/argus/rules" ∧ clean "../a/../.." = "../.." ∧
    clean "/.." = "/" ∧ clean "" = "." ∧ join "rules" "/" = "rules" ∧ join "rules" ".." = "." := by
  decide +kernel

/-! ## Cleaning -/

theorem split_append (front back : String) :
    split (front ++ "/" ++ back) '/' = split front '/' ++ split back '/' := by
  have hlist : (front ++ "/" ++ back).toList = front.toList ++ '/' :: back.toList := by
    simp
  have hsep : ('/' == '/') = true := rfl
  rw [split, hlist, List.splitOn, splitOnP_append_cons (p := (· == '/')) _ _ hsep,
    map_append]
  rfl

theorem split_of_notMem {name : String} (h : '/' ∉ name.toList) : split name '/' = [name] := by
  have hplain : ∀ c ∈ name.toList, (c == '/') = false := by
    intro c hc
    rw [beq_eq_false_iff_ne]
    rintro rfl
    exact h hc
  rw [split, List.splitOn, splitOnP_eq_singleton hplain, map_singleton, String.ofList_toList]

namespace Place

theorem enter_entryName (p : Place) (name : EntryName) : p.enter name.1 = p.child name := by
  rw [enter, dif_pos name.2]

theorem enter_dotDot (p : Place) : p.enter ".." = p.parent := by
  rw [enter, dif_neg (by decide), if_pos rfl]

theorem enter_dot (p : Place) : p.enter "." = p := by
  rw [enter, dif_neg (by decide), if_neg (by decide)]

theorem enter_empty (p : Place) : p.enter "" = p := by
  rw [enter, dif_neg (by decide), if_neg (by decide)]

theorem foldl_enter_dotDot (k n : ℕ) :
    (List.replicate k "..").foldl enter { above := some n } = { above := some (n + k) } := by
  induction k generalizing n with
  | zero => rfl
  | succ k ih =>
    rw [replicate_succ, foldl_cons, enter_dotDot]
    show (List.replicate k "..").foldl enter { above := some (n + 1) } = _
    rw [ih, Nat.add_assoc, Nat.add_comm 1]

theorem foldl_enter_names (names : List EntryName) (p : Place) :
    (names.map Subtype.val).reverse.foldl enter p = { p with names := names ++ p.names } := by
  rw [foldl_reverse]
  induction names with
  | nil => rfl
  | cons name names ih =>
    rw [map_cons, foldr_cons, ih, enter_entryName]
    rfl

theorem foldl_enter_elements (p : Place) :
    p.elements.foldl enter { above := p.above.map fun _ => 0 } = p := by
  obtain ⟨above, names⟩ := p
  rw [elements, foldl_append]
  cases above with
  | none => exact (foldl_enter_names names _).trans (by simp)
  | some =>
    rw [Option.map_some, Option.getD_some, foldl_enter_dotDot, foldl_enter_names]
    simp

theorem mem_elements {p : Place} {e : String} (h : e ∈ p.elements) : e ≠ "" ∧ '/' ∉ e.toList := by
  rw [elements, mem_append, mem_replicate, mem_reverse, mem_map] at h
  obtain ⟨-, rfl⟩ | ⟨name, -, rfl⟩ := h
  · decide
  · exact ⟨name.2.1, name.2.2.1⟩

theorem foldl_enter_split (p q : Place) :
    (split (String.ofList (['/'].intercalate (p.elements.map String.toList))) '/').foldl enter q =
      p.elements.foldl enter q := by
  by_cases hp : p.elements = []
  · rw [hp]
    exact q.enter_empty
  · have hplain : ∀ cs ∈ p.elements.map String.toList, '/' ∉ cs := by
      intro cs hcs
      obtain ⟨e, he, rfl⟩ := mem_map.mp hcs
      exact (mem_elements he).2
    rw [split, String.toList_ofList, splitOn_intercalate '/' hplain (by simpa using hp),
      map_map]
    simp [Function.comp_def]

theorem head?_intercalate {p : Place} :
    (['/'].intercalate (p.elements.map String.toList)).head? ≠ some '/' := by
  cases hp : p.elements with
  | nil => simp
  | cons e es =>
    obtain ⟨hne, hslash⟩ := mem_elements (hp ▸ mem_cons_self : e ∈ p.elements)
    obtain ⟨c, cs, hcs⟩ := exists_cons_of_ne_nil (mt String.toList_eq_nil_iff.mp hne)
    have hc : c ≠ '/' := by
      rintro rfl
      exact hslash (hcs ▸ mem_cons_self)
    cases es <;> simpa [List.intercalate, hcs] using hc

theorem place_path (p : Place) : place p.path = p := by
  have hback := p.foldl_enter_elements
  have hhead := p.head?_intercalate
  have hsplit := p.foldl_enter_split
  cases habove : p.above with
  | none =>
    have hpath : p.path =
        "" ++ "/" ++ String.ofList (['/'].intercalate (p.elements.map String.toList)) := by
      rw [← String.toList_inj]
      simp [path, habove]
    have horigin : origin p.path = { above := none } := by
      simp [origin, hpath]
    rw [habove] at hback
    rw [place, horigin, hpath, split_append, foldl_append, hsplit]
    exact hback
  | some =>
    by_cases hp : p.elements = []
    · have hpath : p.path = "." := by
        simp [path, habove, hp]
      rw [hp, habove] at hback
      rw [hpath, ← hback]
      rfl
    · have hpath : p.path = String.ofList (['/'].intercalate (p.elements.map String.toList)) := by
        simp [path, habove, hp]
      have horigin : origin p.path = { above := some 0 } := by
        simp [origin, hpath, hhead]
      rw [habove] at hback
      rw [place, horigin, hpath, hsplit]
      exact hback

end Place

theorem place_clean (path : String) : place (clean path) = place path := (place path).place_path

/-! ## Joining -/

section
variable {dir name : String} (hdir : dir ≠ "")
include hdir

theorem place_join (name : String) :
    place (join dir name) = (split name '/').foldl Place.enter (place dir) := by
  have horigin : origin (dir ++ "/" ++ name) = origin dir := by
    obtain ⟨c, cs, hcs⟩ := exists_cons_of_ne_nil (mt String.toList_eq_nil_iff.mp hdir)
    simp [origin, hcs]
  rw [join, if_neg hdir, place_clean, place, split_append, foldl_append, horigin]
  rfl

theorem place_join_of_notMem (h : '/' ∉ name.toList) :
    place (join dir name) = (place dir).enter name := by
  rw [place_join hdir, split_of_notMem h]
  rfl

theorem place_join_entryName (name : EntryName) :
    place (join dir name.1) = (place dir).child name := by
  rw [place_join_of_notMem hdir name.2.2.1, Place.enter_entryName]

end

/-! ## The last element -/

theorem base_cases (path : String) :
    base path ∈ [".", "/", ".."] ∨ IsEntryName (base path) := by
  unfold base
  split
  · exact .inl (by decide)
  split
  · exact .inl (by decide)
  · next c cs hdrop =>
    have hc : c ≠ '/' := by
      have hnot := head?_dropWhile_not (· == '/') path.toList.reverse
      rw [hdrop] at hnot
      simpa using hnot
    have hplain : '/' ∉ ((c :: cs).takeWhile (· != '/')).reverse := by
      intro hmem
      have := mem_takeWhile_imp (mem_reverse.mp hmem)
      simp at this
    have hne : ((c :: cs).takeWhile (· != '/')).reverse ≠ [] := by
      simp [hc]
    generalize ((c :: cs).takeWhile (· != '/')).reverse = last at hplain hne
    by_cases hdots : String.ofList last = "." ∨ String.ofList last = ".."
    · left
      rcases hdots with hdot | hdotDot
      · rw [hdot]
        decide
      · rw [hdotDot]
        decide
    · right
      rw [not_or] at hdots
      refine ⟨?_, by rwa [String.toList_ofList], hdots.1, hdots.2⟩
      intro hempty
      have hnil := congrArg String.toList hempty
      rw [String.toList_ofList] at hnil
      exact hne hnil

theorem Place.elements_child (p : Place) (name : EntryName) :
    (p.child name).elements = p.elements ++ [name.1] := by
  simp [elements, child]

/-- What is written in front of the last element ends with a slash. -/
theorem exists_intercalate_concat (elements : List (List Char)) (last : List Char) :
    ∃ front, ['/'].intercalate (elements ++ [last]) = front ++ last ∧
      ∀ c ∈ front.getLast?, c = '/' := by
  induction elements with
  | nil => exact ⟨[], intercalate_singleton, nofun⟩
  | cons e elements ih =>
    obtain ⟨front, hfront, hlast⟩ := ih
    refine ⟨e ++ ['/'] ++ front, ?_, fun c hc => ?_⟩
    · rw [cons_append, intercalate_cons_of_ne_nil (by simp), hfront]
      simp only [append_assoc]
    · rw [List.getLast?_append] at hc
      cases hfrontLast : front.getLast? with
      | none => simpa [hfrontLast, eq_comm] using hc
      | some d => exact hlast c (by simpa [hfrontLast] using hc)

theorem Place.exists_path_child (p : Place) (name : EntryName) :
    ∃ front : List Char, (p.child name).path.toList = front ++ name.1.toList ∧
      ∀ c ∈ front.getLast?, c = '/' := by
  obtain ⟨front, hfront, hlast⟩ :=
    exists_intercalate_concat (p.elements.map String.toList) name.1.toList
  have hjoined : ['/'].intercalate ((p.child name).elements.map String.toList) =
      front ++ name.1.toList := by
    rw [elements_child, map_append, map_singleton, hfront]
  cases habove : p.above with
  | none =>
    have hchild : (p.child name).above = none := habove
    refine ⟨'/' :: front, ?_, fun c hc => ?_⟩
    · simp [path, hchild, hjoined]
    · rw [List.getLast?_cons] at hc
      cases hfrontLast : front.getLast? with
      | none => simpa [hfrontLast, eq_comm] using hc
      | some d => exact hlast c (by simpa [hfrontLast] using hc)
  | some k =>
    have hchild : (p.child name).above = some k := habove
    have hne : (p.child name).elements ≠ [] := by simp [elements_child]
    exact ⟨front, by simp [path, hchild, hne, hjoined], hlast⟩

/-- The last element of a path joined with an entry name is the name. -/
theorem base_join {dir : String} (hdir : dir ≠ "") (name : EntryName) :
    base (join dir name.1) = name.1 := by
  have hpath : join dir name.1 = ((place dir).child name).path := by
    rw [← place_join_entryName hdir, join, if_neg hdir, clean, Place.place_path]
  obtain ⟨front, hchild, hfront⟩ := (place dir).exists_path_child name
  exact base_of_toList name.2 hfront (hpath ▸ hchild)

/-! ## Trees -/

structure Tree where
  isDir : Place → Bool
  isDir_start : ∀ above, isDir { above := above } = true
  isDir_of_child : ∀ p name, isDir (p.child name) = true → isDir p = true

namespace Tree

theorem isDir_parent (t : Tree) {p : Place} (h : t.isDir p = true) : t.isDir p.parent = true := by
  obtain ⟨above, names⟩ := p
  cases names with
  | nil => exact t.isDir_start _
  | cons name names => exact t.isDir_of_child { above, names } name h

/-- The tree with a directory and all that it is in. -/
def add (t : Tree) (p : Place) : Tree where
  isDir := fun q => t.isDir q || decide (q.above = p.above ∧ q.names <:+ p.names)
  isDir_start := fun above => by rw [t.isDir_start, Bool.true_or]
  isDir_of_child := by
    intro q name h
    rw [Bool.or_eq_true, decide_eq_true_iff] at h ⊢
    refine h.imp (t.isDir_of_child q name) fun hq => ⟨hq.1, ?_⟩
    exact (suffix_cons name q.names).trans hq.2

theorem isDir_add (t : Tree) (p : Place) : (t.add p).isDir p = true := by
  simp [add]

def mkdirAll (t : Tree) (path : String) (outcome : Except Error Unit) : Tree × Except Error Unit :=
  if path = "" then (t, .error (.errorf "mkdir : no such file or directory" []))
  else
    match outcome with
    | .error err => (t, .error err)
    | .ok () => (t.add (place path), .ok ())

end Tree

end ArgusEdr.Go
