import Mathlib

/-!
# The text functions of Go's standard library the program calls

Texts are Lean strings, read as their list of characters, so that every function here computes in the
kernel. `fmt.Errorf` is the format and the arguments it is given. What the program only passes values
to, and gets a yes or no from, is `Library`: floating-point numbers, regular expressions and address
ranges.
-/

namespace ArgusEdr.Go

open List

/-- File contents and wire data. -/
abbrev Bytes := List UInt8

instance : LawfulBEq Bytes := inferInstance

def ascii (text : String) : Bytes := text.toList.map fun c => UInt8.ofNat c.toNat

def utf8 (text : String) : Bytes := text.toUTF8.data.toList

/-! ## Errors -/

/-- An error value: the format text handed to `fmt.Errorf` (or `errors.New`) with the
arguments of its verbs, and for `%w` the error it wraps. -/
inductive Error where
  | errorf (format : String) (args : List String)
  | wrapf (format : String) (args : List String) (inner : Error)
deriving Repr, DecidableEq

/-- How a call can end without a value: with an error it returns, or in a panic. -/
inductive Fault where
  | err (e : Error)
  | nilDereference
deriving Repr, DecidableEq

/-- A text made by `fmt.Sprintf` or by concatenation: the format with the arguments of its
verbs. -/
structure Formatted where
  format : String
  args : List String := []
deriving Repr, DecidableEq

/-- A format with the arguments in the places of the verbs `%s` and `%d`. -/
def sprintf : List Char → List String → List Char
  | '%' :: 's' :: rest, arg :: args => arg.toList ++ sprintf rest args
  | '%' :: 'd' :: rest, arg :: args => arg.toList ++ sprintf rest args
  | c :: rest, args => c :: sprintf rest args
  | [], _ => []

/-- The text itself, where the format has no other verbs. -/
def Formatted.text (f : Formatted) : String := String.ofList (sprintf f.format.toList f.args)

/-! ## Characters and trimming -/

def isSpace (c : Char) : Bool :=
  c.toNat ∈ [0x09, 0x0A, 0x0B, 0x0C, 0x0D, 0x20, 0x85, 0xA0, 0x1680, 0x2028, 0x2029, 0x202F,
    0x205F, 0x3000] || (0x2000 ≤ c.toNat && c.toNat ≤ 0x200A)

def trimSpace (s : String) : String :=
  String.ofList ((s.toList.dropWhile isSpace).reverse.dropWhile isSpace).reverse

def hasSuffix (s suffix : String) : Bool := suffix.toList.isSuffixOf s.toList

def startsWith (s start : String) : Bool := start.toList.isPrefixOf s.toList

def contains (s sub : String) : Bool := s.toList.tails.any fun rest => sub.toList.isPrefixOf rest

theorem contains_iff (s sub : String) : contains s sub = true ↔ sub.toList <:+: s.toList := by
  simp only [contains, any_eq_true, mem_tails, isPrefixOf_iff_prefix,
    infix_iff_prefix_suffix, and_comm]

/-- `strings.CutPrefix`: the rest of `s` after `start`, if `s` starts with it. -/
def cutPrefix (s start : String) : Option String :=
  if start.toList.isPrefixOf s.toList then some (String.ofList (s.toList.drop start.toList.length))
  else none

/-- The tables of the `unicode` package the program reads: the canonical representative of a
character under simple case folding, and its lower case. -/
structure Unicode where
  fold : Char → Char
  lower : Char → Char

/-- The tables restricted to ASCII, for concrete runs. -/
def Unicode.ascii : Unicode where
  fold := Char.toLower
  lower := Char.toLower

def equalFold (u : Unicode) (s t : String) : Bool := s.toList.map u.fold == t.toList.map u.fold

def toLower (u : Unicode) (s : String) : String := String.ofList (s.toList.map u.lower)

theorem mem_of_lookup {α : Type*} {table : List (String × α)} {key : String} {a : α}
    (h : table.lookup key = some a) : (key, a) ∈ table := by
  obtain ⟨l₁, l₂, rfl, -⟩ := lookup_eq_some_iff.mp h
  exact mem_append_right _ mem_cons_self

/-! ## Paths -/

/-- `filepath.Base`: the last element of a path. Trailing slashes are removed first; the
empty path gives `.` and a path of slashes alone gives `/`. -/
def base (path : String) : String :=
  if path = "" then "."
  else
    match path.toList.reverse.dropWhile (· == '/') with
    | [] => "/"
    | c :: cs => String.ofList ((c :: cs).takeWhile (· != '/')).reverse

/-- A name a directory entry can have: a single path element. -/
def IsEntryName (name : String) : Prop :=
  name ≠ "" ∧ '/' ∉ name.toList ∧ name ≠ "." ∧ name ≠ ".."

instance (name : String) : Decidable (IsEntryName name) := by
  unfold IsEntryName; infer_instance

theorem base_of_toList {path name : String} (hname : IsEntryName name) {front : List Char}
    (hfront : ∀ c ∈ front.getLast?, c = '/') (hpath : path.toList = front ++ name.toList) :
    base path = name := by
  have hkeep : ∀ c ∈ name.toList.reverse, (c != '/') = true := by
    intro c hc
    rw [bne_iff_ne]
    rintro rfl
    exact hname.2.1 (mem_reverse.mp hc)
  have hstop : front.reverse.takeWhile (· != '/') = [] := by
    cases hrev : front.reverse with
    | nil => rfl
    | cons d ds =>
      have hd : d = '/' := hfront d (by rw [← head?_reverse, hrev]; rfl)
      rw [hd]
      rfl
  have htake : (name.toList.reverse ++ front.reverse).takeWhile (· != '/') =
      name.toList.reverse := by
    rw [takeWhile_append_of_pos hkeep, hstop, append_nil]
  obtain ⟨c, cs, hcs⟩ := exists_cons_of_ne_nil
    (show name.toList.reverse ≠ [] by simpa using hname.1)
  have hdrop : (name.toList.reverse ++ front.reverse).dropWhile (· == '/') =
      c :: (cs ++ front.reverse) := by
    have hc : (c == '/') = false := by
      simpa using hkeep c (hcs ▸ mem_cons_self)
    rw [hcs, cons_append, dropWhile_cons_of_neg (by simp [hc])]
  have hne : path ≠ "" := by
    rintro rfl
    have hnil : name.toList = [] := (append_eq_nil_iff.mp hpath.symm).2
    exact hname.1 (String.toList_eq_nil_iff.mp hnil)
  rw [base, if_neg hne, hpath, reverse_append, hdrop]
  show String.ofList ((c :: (cs ++ front.reverse)).takeWhile (· != '/')).reverse = name
  rw [← cons_append, ← hcs, htake, reverse_reverse, String.ofList_toList]

theorem base_of_isEntryName {name : String} (h : IsEntryName name) : base name = name :=
  base_of_toList h (by simp) (nil_append name.toList).symm

/-! ## Decimal numbers -/

def formatUint (n : ℕ) : String := toString n

/-- `fmt.Sprintf("%04d", n)` for a natural number. -/
def pad4 (n : ℕ) : String :=
  let digits := (toString n).toList
  String.ofList (List.replicate (4 - digits.length) '0' ++ digits)

def digitVal (c : Char) : Option ℕ :=
  if '0' ≤ c ∧ c ≤ '9' then some (c.toNat - '0'.toNat) else none

/-- The loop of `strconv.ParseUint` over the characters of `s`: the first character that is
not a digit, or the first digit that takes the value past `limit`, ends it. -/
def parseDigits (s : String) (limit : ℕ) : ℕ → List Char → Except Error ℕ
  | acc, [] => .ok acc
  | acc, c :: cs =>
    match digitVal c with
    | none => .error (.errorf "strconv.ParseUint: parsing %q: invalid syntax" [s])
    | some d =>
      if limit ≤ 10 * acc + d then
        .error (.errorf "strconv.ParseUint: parsing %q: value out of range" [s])
      else parseDigits s limit (10 * acc + d) cs

def parseUint (s : String) (bits : ℕ) : Except Error ℕ :=
  if s = "" then .error (.errorf "strconv.ParseUint: parsing %q: invalid syntax" [s])
  else parseDigits s (2 ^ bits) 0 s.toList

/-- `strconv.ParseInt(s, 10, 64)`, as the value or nothing: a sign, digits, and the range of
`int64`. -/
def parseInt64 (s : String) : Option ℤ :=
  match s.toList with
  | '-' :: digits =>
    match parseUint (String.ofList digits) 64 with
    | .ok n => if n ≤ 2 ^ 63 then some (-(n : ℤ)) else none
    | .error _ => none
  | '+' :: digits =>
    match parseUint (String.ofList digits) 64 with
    | .ok n => if n < 2 ^ 63 then some (n : ℤ) else none
    | .error _ => none
  | _ =>
    match parseUint s 64 with
    | .ok n => if n < 2 ^ 63 then some (n : ℤ) else none
    | .error _ => none

def parseBool (s : String) : Option Bool :=
  if s ∈ ["1", "t", "T", "TRUE", "true", "True"] then some true
  else if s ∈ ["0", "f", "F", "FALSE", "false", "False"] then some false
  else none

def formatBool (b : Bool) : String := if b then "true" else "false"

example : parseUint "4123" 32 = .ok 4123 := by decide

/-! ## What is taken as given -/

/-- The library functions whose inner workings no modelled code depends on. `regexp` and
`cidr` are `regexp.Compile` and `net.ParseCIDR`, with the test on texts that the compiled
value is used for. -/
class Library where
  Float64 : Type
  ofInt64 : ℤ → Float64
  toInt64 : Float64 → ℤ
  eq : Float64 → Float64 → Bool
  lt : Float64 → Float64 → Bool
  le : Float64 → Float64 → Bool
  parseFloat : String → Option Float64
  /-- The shortest `%g` form. -/
  formatFloat : Float64 → String
  /-- The form `fmt.Sprint` prints. -/
  sprintFloat : Float64 → String
  regexp : String → Except Error (String → Bool)
  cidr : String → Except Error (String → Bool)

/-- A library for runs on concrete inputs: every number is an integer, a regular expression
is a text to be contained, and an address range is the one address it names. -/
@[reducible] def Library.plain : Library where
  Float64 := ℤ
  ofInt64 := id
  toInt64 := id
  eq := fun a b => a = b
  lt := fun a b => a < b
  le := fun a b => a ≤ b
  parseFloat := parseInt64
  formatFloat := fun n => toString n
  sprintFloat := fun n => toString n
  regexp := fun pattern => .ok fun s => contains s pattern
  cidr := fun range => .ok fun s => s = range

end ArgusEdr.Go
