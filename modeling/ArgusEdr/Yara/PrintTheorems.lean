import ArgusEdr.Yara.ConditionTheorems

/-!
# Signatures that are printed and compiled

What the compiler makes of the text of signatures: rules that implement them, one by one and in
order (`run_compileRounds`). With what a scan finds, `scan_compile_print`: signatures that are
printed and compiled match exactly the data they hold of.
-/

namespace ArgusEdr.Yara

open List

open Go (Bytes ascii)
open Reading Reading.Cursor

/-! ## Sections -/

/-- Behind the header of a section, the parser goes on as its name says. -/
theorem run_sectionRound {name gap w rest : Bytes} (hgap : Blank gap) (hw : IsIdent w) (r : Draft)
    (before : Bytes) :
    (sectionRound name r).run (between before (gap ++ (w ++ byte ':' :: rest))) =
      (if w = ascii "meta" then return .inl (← parseMeta r)
        else if w = ascii "strings" then return .inl (← parseStrings r)
        else if w = ascii "condition" then return .inl { r with cond := some (← parseCondition) }
        else errf "unknown section %q" [shown w] : Parser (Draft ⊕ Draft)).run
        (between (before ++ (gap ++ (w ++ [byte ':']))) rest) := by
  have hcolon : Solid (byte ':' :: rest) := ⟨by decide, by decide⟩
  have hsolid := hw.solid (byte ':' :: rest)
  have hword := hw.word (ends_colon rest)
  cases w with
  | nil => exact hw.elim
  | cons c cs =>
    obtain ⟨-, -, -, -, hbrace⟩ := isAlpha_spec c hw.1
    rw [sectionRound, run_bind_ok (skipSpace_reads hgap before _ hsolid),
      run_bind_ok (run_look 0 _ _)]
    show (if c = byte '}' then _ else _ : Parser (Draft ⊕ Draft)).run _ = _
    rw [if_neg hbrace, run_bind_ok (run_parseIdent hword _),
      run_bind_ok (run_skipSpace_solid hcolon _), run_bind_ok (run_peekChar head?_cons _),
      if_neg (by decide), run_bind_ok (run_skip_one _ _ _), append_assoc, append_assoc]

theorem blank_newline : Blank [byte '\n'] := by simp [Blank, isBlank]

theorem blank_indent : Blank (ascii "\n  ") := by simp [Blank, ascii, isBlank, byte]

theorem sectionRound_close (name : Bytes) (r : Draft) :
    Reads Anything (sectionRound name r) (ascii "\n\x7d") (.inr r) := by
  intro before rest _
  have hsolid : Solid (byte '}' :: rest) := ⟨by decide, by decide⟩
  show (sectionRound name r).run (between before ([byte '\n'] ++ byte '}' :: rest)) = _
  rw [sectionRound, run_bind_ok (skipSpace_reads blank_newline before _ hsolid),
    run_bind_ok (run_look 0 _ _)]
  show (skip 1 >>= _ : Parser (Draft ⊕ Draft)).run _ = _
  rw [run_bind_ok (run_skip_one _ _ _), append_assoc]
  rfl

theorem sectionRound_strings (name : Bytes) (strings : List Declaration) (r : Draft) :
    Reads HeaderAhead (sectionRound name r)
      (ascii "\n  strings:" ++ strings.flatMap fun d => ascii "\n    " ++ d.print)
      (.inl { r with patterns := r.patterns ++ strings.map Declaration.pattern }) := by
  intro before rest hrest
  have hheader : ascii "\n  strings:" =
      ascii "\n  " ++ (ascii "strings" ++ [byte ':']) := by simp [ascii, byte]
  rw [hheader]
  simp only [append_assoc, cons_append, nil_append]
  rw [run_sectionRound blank_indent (isIdent_ascii (by simp)), if_neg (by simp [ascii]), if_pos rfl,
    run_bind_ok (parseStrings_reads strings r _ rest hrest), run_pure]
  simp only [append_assoc, cons_append, nil_append]

theorem ascii_condition : ascii "\n  condition:\n    " =
    ascii "\n  " ++ (ascii "condition" ++ byte ':' :: ascii "\n    ") := by
  simp [ascii, byte]

theorem headerAhead_condition (rest : Bytes) :
    HeaderAhead (ascii "\n  condition:\n    " ++ rest) := by
  refine ⟨ascii "\n  ", ascii "condition", ascii "\n    " ++ rest, by simp [ascii],
    blank_indent, isIdent_ascii (by simp), by simp [NoModifier, ascii], ?_⟩
  rw [ascii_condition, append_assoc, append_assoc, cons_append]

theorem afterOr_close (rest : Bytes) : AfterOr (ascii "\n\x7d" ++ rest) := by
  have hword : NextWord (· = []) ([byte '\n'] ++ byte '}' :: rest) :=
    nextWord_nil (P := (· = [])) rfl blank_newline (by decide) rest
  exact afterOr_of_nextWord (blank_newline.ends (by simp) (byte '}' :: rest)) hword

theorem run_sectionRound_condition (s : Signature) (name : Bytes) (r : Draft)
    {rest : Bytes} (hrest : AfterOr rest) (before : Bytes) :
    ∃ C, C.Same s.condition.condition ∧
      (sectionRound name r).run (between before
        (ascii "\n  condition:\n    " ++ (s.condition.print 0 ++ rest))) =
      .ok (.inl { r with cond := some C }, between
        (before ++ (ascii "\n  condition:\n    " ++ s.condition.print 0)) rest) := by
  have hgap : Blank (ascii "\n    ") := by simp [Blank, ascii, isBlank, byte]
  obtain ⟨C, hsame, hC⟩ := run_parseCondition s.condition_scoped hgap hrest
    (before ++ (ascii "\n  " ++ (ascii "condition" ++ [byte ':'])))
  refine ⟨C, hsame, ?_⟩
  rw [append_assoc] at hC
  rw [ascii_condition, append_assoc, append_assoc, cons_append,
    run_sectionRound blank_indent (isIdent_ascii (by simp)), if_neg (by simp [ascii]),
    if_neg (by simp [ascii]), if_pos rfl, run_bind_ok hC, run_pure]
  simp only [append_assoc, cons_append, nil_append]

theorem run_sections_condition (s : Signature) (name : Bytes) (r : Draft) (before rest : Bytes) :
    ∃ C, C.Same s.condition.condition ∧
      (forever (sectionRound name) r).run (between before (ascii "\n  condition:\n    " ++
        (s.condition.print 0 ++ (ascii "\n\x7d" ++ rest)))) =
      .ok ({ r with cond := some C }, between (before ++ (ascii "\n  condition:\n    " ++
        (s.condition.print 0 ++ ascii "\n\x7d"))) rest) := by
  obtain ⟨C, hsame, hround⟩ := run_sectionRound_condition s name r (afterOr_close rest) before
  refine ⟨C, hsame, run_forever_step hround ?_ ?_⟩
  · simp only [rest_between, length_append, ascii_condition, length_cons]
    omega
  · have hlast := (sectionRound_close name { r with cond := some C }).last
      (before ++ (ascii "\n  condition:\n    " ++ s.condition.print 0)) rest trivial
    rw [hlast, append_assoc, append_assoc]

theorem run_sections (s : Signature) (name before rest : Bytes) :
    ∃ C, C.Same s.condition.condition ∧
      (forever (sectionRound name) {}).run (between before (printStrings s.strings ++
        (ascii "\n  condition:\n    " ++ (s.condition.print 0 ++
          (ascii "\n\x7d" ++ rest))))) =
      .ok ({ patterns := s.strings.map Declaration.pattern, cond := some C },
        between (before ++ (printStrings s.strings ++ (ascii "\n  condition:\n    " ++
          (s.condition.print 0 ++ ascii "\n\x7d")))) rest) := by
  unfold printStrings
  split
  · next hnone =>
    rw [hnone]
    exact run_sections_condition s name {} before rest
  · have hround := sectionRound_strings name s.strings {} before _
      (headerAhead_condition (s.condition.print 0 ++ (ascii "\n\x7d" ++ rest)))
    obtain ⟨C, hsame, hrest⟩ := run_sections_condition s name
      { patterns := s.strings.map Declaration.pattern }
      (before ++ (ascii "\n  strings:" ++
        s.strings.flatMap fun d => ascii "\n    " ++ d.print)) rest
    refine ⟨C, hsame, run_forever_step hround ?_ ?_⟩
    · simp only [rest_between, length_append]
      have hlen : 0 < (ascii "\n  strings:").length := by simp [ascii]
      omega
    · rw [append_assoc] at hrest
      exact hrest

/-! ## Rules -/

theorem run_parseRule (s : Signature) (before rest : Bytes) :
    ∃ r, Implements r s ∧ parseRule.run (between before (s.print ++ rest)) =
      .ok (r, between (before ++ s.print) rest) := by
  have hkw := acceptKeyword_reads "rule" (isIdent_ascii (by simp)) blank_nil
  rw [nil_append] at hkw
  have hname : s.name ≠ [] := by
    intro hnil
    have hident := s.name_ident
    rwa [hnil] at hident
  have hopen : ∀ after, Solid (byte '\x7b' :: after) := fun _ => ⟨by decide, by decide⟩
  have hends : ∀ after, Ends ([byte ' '] ++ after) := blank_space.ends (by simp)
  have htext : ∀ after, s.print ++ after = ascii "rule" ++ ([byte ' '] ++ (s.name ++ ([byte ' '] ++
      byte '\x7b' :: (printStrings s.strings ++ (ascii "\n  condition:\n    " ++
        (s.condition.print 0 ++ (ascii "\n\x7d" ++ after))))))) := by
    intro after
    simp [Signature.print, ascii, byte]
  rw [htext, parseRule, run_bind_ok (hkw before _ (hends _))]
  show ∃ r, _ ∧ (skipSpace >>= _ : Parser Rule).run _ = _
  rw [run_bind_ok (skipSpace_reads blank_space _ _ (s.name_ident.solid _)),
    run_bind_ok (run_parseIdent (s.name_ident.word (hends _)) _), if_neg hname,
    run_bind_ok (skipSpace_reads blank_space _ _ (hopen _)),
    run_bind_ok (run_peekChar head?_cons _), if_neg (by decide)]
  dsimp only
  rw [run_bind_ok (run_skipSpace_solid (hopen _) _), run_bind_ok (run_peekChar head?_cons _),
    if_neg (by decide), run_bind_ok (run_skip_one _ _ _)]
  obtain ⟨C, hsame, hsections⟩ := run_sections s s.name
    (before ++ ascii "rule" ++ [byte ' '] ++ s.name ++ [byte ' '] ++ [byte '\x7b']) rest
  refine ⟨{ name := s.name, patterns := s.strings.map Declaration.pattern, cond := C },
    ⟨rfl, rfl, hsame⟩, ?_⟩
  rw [run_bind_ok hsections]
  have hprint := htext []
  simp only [append_nil] at hprint
  rw [hprint]
  simp only [append_assoc, cons_append, nil_append]
  rfl

theorem Signature.print_eq_cons (s : Signature) : ∃ tail, s.print = byte 'r' :: tail :=
  ⟨_, by simp [Signature.print, ascii, byte]; rfl⟩

theorem run_compileRound (s : Signature) {gap : Bytes} (hgap : Blank gap) (before rest : Bytes)
    (acc : List Rule) :
    ∃ r, Implements r s ∧
      (compileRound acc).run (between before (gap ++ (s.print ++ rest))) =
        .ok (.inl (acc ++ [r]), between (before ++ gap ++ s.print) rest) := by
  obtain ⟨r, himplements, hrun⟩ := run_parseRule s (before ++ gap) rest
  obtain ⟨tail, htail⟩ := s.print_eq_cons
  have hsolid : Solid (s.print ++ rest) := by
    rw [htail]
    exact ⟨by decide, by decide⟩
  have hlook : (s.print ++ rest)[0]? ≠ none := by
    rw [htail]
    simp
  refine ⟨r, himplements, ?_⟩
  rw [compileRound, run_bind_ok (skipSpace_reads hgap before _ hsolid),
    run_bind_ok (run_look 0 _ _), if_neg hlook, run_bind_ok hrun]
  rfl

/-- The rounds of `Compile`, over what is left of the text after a gap. -/
theorem run_compileRounds (signatures : List Signature) {gap : Bytes} (hgap : Blank gap)
    (before : Bytes) (acc : List Rule) :
    ∃ rules, List.Forall₂ Implements rules signatures ∧ ∃ p,
      (forever compileRound acc).run (between before (gap ++ print signatures)) =
        .ok (acc ++ rules, p) := by
  induction signatures generalizing gap before acc with
  | nil =>
    have hround : (compileRound acc).run (between before (gap ++ [])) =
        .ok (.inr acc, between (before ++ gap) []) := by
      rw [compileRound, run_bind_ok (skipSpace_reads hgap before [] trivial),
        run_bind_ok (run_look 0 _ _)]
      rfl
    refine ⟨[], .nil, between (before ++ gap) [], ?_⟩
    rw [append_nil]
    exact run_forever_last hround
  | cons s signatures ih =>
    have hnewline : Blank (ascii "\n") := by simp [Blank, ascii, isBlank, byte]
    have htext : print (s :: signatures) = s.print ++ (ascii "\n" ++ print signatures) := by
      simp [print]
    obtain ⟨r, hr, hround⟩ :=
      run_compileRound s hgap before (ascii "\n" ++ print signatures) acc
    obtain ⟨rules, hrules, p, hrest⟩ := ih hnewline (before ++ gap ++ s.print) (acc ++ [r])
    refine ⟨r :: rules, .cons hr hrules, p, ?_⟩
    rw [htext]
    rw [append_assoc acc, singleton_append] at hrest
    refine run_forever_step hround ?_ hrest
    obtain ⟨tail, htail⟩ := s.print_eq_cons
    simp only [rest_between, length_append, htail, length_cons]
    omega

/-! ## Printed, compiled and scanned -/

open Classical in
/-- Signatures that are printed and compiled are found by a scan exactly where they hold. -/
theorem scan_compile_print (signatures : List Signature) (hne : signatures ≠ []) :
    ∃ engine, compile (print signatures) = .ok engine ∧ ∀ data, data ≠ [] →
      scan (some engine) data =
        (signatures.filter fun s => s.Holds data).map Signature.name := by
  obtain ⟨rules, himplements, p, hrun⟩ := run_compileRounds signatures blank_nil [] []
  refine ⟨{ rules }, ?_, fun data hdata => scan_eq himplements hdata⟩
  have hlen : rules.length ≠ 0 := by
    rw [himplements.length_eq]
    exact (length_pos_iff.mpr hne).ne'
  rw [nil_append, nil_append] at hrun
  have hcompile : compile (print signatures) = _ := compile_of_run_ok hrun
  rw [hcompile, if_neg hlen]

/-- A signature with both kinds of patterns and all the operators. -/
def shellSignature : Signature where
  name := ascii "web_shell"
  strings :=
    [{ name := ascii "a", literal := .text (ascii "eval(\"") true },
      { name := [], literal := .hex [some 0x4d, none, some 0x5a] }]
  condition :=
    .or (.ident (ascii "a")) (.and (.not (.and (.or .allOfThem (.ofThem 2)) (.bool true)))
      (.and .anyOfThem (.ident [])))

theorem scan_compile_print_shell :
    ∃ engine, compile (print [shellSignature]) = .ok engine ∧
      scan (some engine) (ascii "x EVAL(\"") = [ascii "web_shell"] := by
  classical
  obtain ⟨engine, hcompile, hscan⟩ := scan_compile_print [shellSignature] (by simp)
  have hoccurs : List.Forall₂ SameLetter (ascii "eval(\"") (ascii "EVAL(\"") := by
    decide +kernel
  have hholds : shellSignature.Holds (ascii "x EVAL(\"") :=
    .inl ⟨_, mem_cons_self, rfl, ascii "x ", ascii "EVAL(\"", [], by decide +kernel,
      hoccurs⟩
  refine ⟨engine, hcompile, ?_⟩
  rw [hscan _ (by decide +kernel), filter_cons, if_pos (decide_eq_true hholds)]
  rfl

end ArgusEdr.Yara
