import ArgusEdr.Go.Strings
import ArgusEdr.Server.SoarRuns

/-!
# Notifications (`internal/integrations`, `cmd/argus-server/serve.go`)

The server builds one notifier over four destinations. Each constructor returns a nil pointer if its
setting is missing; the pointer is then stored in an interface, and an interface that holds a nil pointer
is itself not nil (`multi_iff`). The subject of a mail goes into its header as it is (`mail_iff`).
-/

namespace ArgusEdr.Integrations

open List

open Soar (Notification AlertInfo notificationOf)
open Go (Error Fault)

/-! ## Destinations -/

structure Webhook where
  url : String
deriving DecidableEq

structure Slack where
  url : String
deriving DecidableEq

structure Syslog where
  network : String
  addr : String
deriving DecidableEq

structure SMTP where
  addr : String
  sender : String
  recipients : List String
deriving DecidableEq

def newWebhook (url : String) : Option Webhook := if url = "" then none else some { url }

def newSlack (url : String) : Option Slack := if url = "" then none else some { url }

def newSyslog (network addr : String) : Option Syslog :=
  if addr = "" then none else some { network := if network = "" then "udp" else network, addr }

def newSMTP (addr sender : String) (recipients : List String) : Option SMTP :=
  if addr = "" ∨ sender = "" ∨ recipients = [] then none else some { addr, sender, recipients }

/-- The value in a `Notifier` interface that is not nil: a pointer of one of the four types, which may
be nil itself. -/
inductive Destination where
  | webhook (w : Option Webhook)
  | slack (s : Option Slack)
  | syslog (s : Option Syslog)
  | smtp (s : Option SMTP)
deriving DecidableEq

def Destination.name : Destination → String
  | .webhook _ => "webhook"
  | .slack _ => "slack"
  | .syslog _ => "syslog"
  | .smtp _ => "smtp"

structure Multi where
  notifiers : List Destination
deriving DecidableEq

/-- `NewMulti`: interfaces that are nil are dropped. -/
def newMulti (notifiers : List (Option Destination)) : Multi where
  notifiers := notifiers.filterMap id

/-- The `--notify-` flags. -/
structure Settings where
  webhook : String := ""
  slack : String := ""
  syslog : String := ""
  smtp : String := ""
  sender : String := ""
  recipients : String := ""

def splitComma (value : String) : List String :=
  ((Go.split value ',').map Go.trimSpace).filter (· ≠ "")

def Settings.notifier (s : Settings) : Multi :=
  newMulti
    [some (.webhook (newWebhook s.webhook)), some (.slack (newSlack s.slack)),
      some (.syslog (newSyslog "udp" s.syslog)),
      some (.smtp (newSMTP s.smtp s.sender (splitComma s.recipients)))]

/-- A method that reads a field of what the pointer points to. -/
def read {α : Type} (pointer : Option α) (use : α → Option Error) : Except Fault (Option Error) :=
  match pointer with
  | none => .error .nilDereference
  | some value => .ok (use value)

/-- `Notify` of a destination, given the error of the context and what the delivery ends with. -/
def Destination.notify (ctx : Option Error) (deliver : Destination → Option Error) :
    Destination → Except Fault (Option Error)
  | .webhook w => read w fun w => deliver (.webhook (some w))
  | .slack s => read s fun s => deliver (.slack (some s))
  | .syslog s => read s fun s => deliver (.syslog (some s))
  | .smtp s =>
    match ctx with
    | some err => .ok (some err)
    | none => read s fun s => deliver (.smtp (some s))

/-- `Multi.Notify`: the errors of the destinations that failed. -/
def Multi.notify (ctx : Option Error) (deliver : Destination → Option Error) (m : Multi) :
    Except Fault (List Error) := do
  let outcomes ← m.notifiers.mapM fun d => do
    let err ← d.notify ctx deliver
    return err.map fun err => .wrapf "%s: %w" [d.name] err
  return outcomes.filterMap id

def Settings.present (s : Settings) : List Destination :=
  ((newWebhook s.webhook).map fun w => Destination.webhook (some w)).toList ++
    ((newSlack s.slack).map fun s => Destination.slack (some s)).toList ++
    ((newSyslog "udp" s.syslog).map fun s => Destination.syslog (some s)).toList ++
    ((newSMTP s.smtp s.sender (splitComma s.recipients)).map fun s => Destination.smtp (some s)).toList

def Settings.Complete (s : Settings) : Prop :=
  s.webhook ≠ "" ∧ s.slack ≠ "" ∧ s.syslog ≠ "" ∧
    s.smtp ≠ "" ∧ s.sender ≠ "" ∧ splitComma s.recipients ≠ []

theorem complete_iff (s : Settings) :
    s.Complete ↔ (newWebhook s.webhook).isSome ∧ (newSlack s.slack).isSome ∧
      (newSyslog "udp" s.syslog).isSome ∧ (newSMTP s.smtp s.sender (splitComma s.recipients)).isSome := by
  simp [Settings.Complete, newWebhook, newSlack, newSyslog, newSMTP, apply_ite Option.isSome]

/-- For every choice of settings, the notifier of the server holds exactly the destinations that are
set, and `Notify` dereferences no nil pointer, whatever the notification, the context and the outcome of the
deliveries, exactly if all four are set. -/
theorem multi_iff (s : Settings) :
    (s.notifier.notifiers = s.present ↔ s.Complete) ∧
    ((∀ ctx deliver, ∃ errs, s.notifier.notify ctx deliver = .ok errs) ↔ s.Complete) := by
  rw [complete_iff]
  unfold Settings.notifier Settings.present
  generalize newWebhook s.webhook = w
  generalize newSlack s.slack = sl
  generalize newSyslog "udp" s.syslog = sy
  generalize newSMTP s.smtp s.sender (splitComma s.recipients) = sm
  constructor
  · constructor
    · intro h
      have hlen := congrArg List.length h
      cases w <;> cases sl <;> cases sy <;> cases sm <;> simp_all [newMulti]
    · rintro ⟨hw, hsl, hsy, hsm⟩
      obtain ⟨w, rfl⟩ := Option.isSome_iff_exists.mp hw
      obtain ⟨sl, rfl⟩ := Option.isSome_iff_exists.mp hsl
      obtain ⟨sy, rfl⟩ := Option.isSome_iff_exists.mp hsy
      obtain ⟨sm, rfl⟩ := Option.isSome_iff_exists.mp hsm
      rfl
  · constructor
    · intro h
      obtain ⟨errs, herrs⟩ := h none fun _ => none
      cases w <;> cases sl <;> cases sy <;> cases sm <;>
        simp_all [newMulti, Multi.notify, Destination.notify, read, bind, Except.bind, pure, Except.pure]
    · rintro ⟨hw, hsl, hsy, hsm⟩ ctx deliver
      obtain ⟨w, rfl⟩ := Option.isSome_iff_exists.mp hw
      obtain ⟨sl, rfl⟩ := Option.isSome_iff_exists.mp hsl
      obtain ⟨sy, rfl⟩ := Option.isSome_iff_exists.mp hsy
      obtain ⟨sm, rfl⟩ := Option.isSome_iff_exists.mp hsm
      cases ctx <;> exact ⟨_, rfl⟩

/-- With no settings at all the notifier holds four destinations, and the first one panics. -/
theorem multi_without_settings :
    ({} : Settings).notifier.notifiers =
      [.webhook none, .slack none, .syslog none, .smtp none] ∧ ({} : Settings).present = [] ∧
    ({} : Settings).notifier.notify none (fun _ => none) = .error .nilDereference := by
  decide

/-! ## Mails -/

def textLine (upper : Char → Char) (n : Notification) : String :=
  " ".intercalate (["[ARGUS]"] ++ (if n.severity = "" then [] else [Go.toUpper upper n.severity]) ++
    [n.title] ++ (if n.host = "" then [] else ["host=" ++ n.host]) ++
    (if n.ruleID = "" then [] else [n.ruleID]) ++ (if n.technique = "" then [] else [n.technique]))

def subject (upper : Char → Char) (n : Notification) : String :=
  "[ARGUS] " ++ Go.toUpper upper n.severity ++ " " ++ n.title

def headerLine (name value : List Char) : List Char := name ++ ": ".toList ++ value ++ ['\r', '\n']

def mailText (sender recipients subject line summary : List Char) : List Char :=
  headerLine "From".toList sender ++ headerLine "To".toList recipients ++
    headerLine "Subject".toList subject ++
    (['\r', '\n'] ++ line ++ ['\r', '\n'] ++ summary ++ ['\r', '\n'])

def SMTP.message (upper : Char → Char) (s : SMTP) (n : Notification) : List Char :=
  mailText s.sender.toList (", ".intercalate s.recipients).toList (subject upper n).toList
    (textLine upper n).toList n.summary.text.toList

/-- A line that ends the header; a carriage return in front of the line feed is not part of a line. -/
def blankLine (line : List Char) : Bool := line = [] || line = ['\r']

/-- A line that continues the header field before it. -/
def continues (line : List Char) : Bool := line.head?.any fun c => c = ' ' || c = '\t'

/-- The header fields in the lines, each with the lines that continue it, and what the first lines
continue. -/
def joinLines : List (List Char) → List Char × List (List Char)
  | [] => ([], [])
  | line :: rest =>
    let (more, fields) := joinLines rest
    if continues line then (line ++ more, fields) else ([], (line ++ more) :: fields)

/-- A text without the space it starts and the carriage return it ends with. -/
def trimField (text : List Char) : List Char :=
  let value := if text.head? = some ' ' then text.tail else text
  if value.getLast? = some '\r' then value.dropLast else value

def readField (field : List Char) : Option (List Char × List Char) :=
  match field.dropWhile (· ≠ ':') with
  | [] => none
  | _ :: text => some (field.takeWhile (· ≠ ':'), trimField text)

/-- How a mail is read: header fields up to the first empty line, and the lines of a body. -/
def readMail (text : List Char) : List (Option (List Char × List Char)) × List (List Char) :=
  let lines := text.splitOn '\n'
  let (stray, fields) := joinLines (lines.takeWhile (!blankLine ·))
  ((if stray = [] then [] else [none]) ++ fields.map readField,
    (lines.dropWhile (!blankLine ·)).tail)

/-- Every line of the subject behind the first, up to an empty one, continues it. -/
def Unbroken (subject : List Char) : Prop :=
  ∀ line ∈ ((subject ++ ['\r']).splitOn '\n').tail.takeWhile (!blankLine ·), continues line = true

variable {line text name : List Char} {lines : List (List Char)}

theorem splitOn_append (text rest : List Char) :
    (text ++ '\n' :: rest).splitOn '\n' = text.splitOn '\n' ++ rest.splitOn '\n' :=
  splitOnP_append_cons text rest (by decide)

theorem splitOn_line (h : '\n' ∉ line) : line.splitOn '\n' = [line] :=
  splitOnP_eq_singleton fun c hc => by simpa using ne_of_mem_of_not_mem hc h

theorem splitOn_start (h : '\n' ∉ line) (text : List Char) :
    (line ++ text).splitOn '\n' = (text.splitOn '\n').modifyHead (line ++ ·) := by
  induction line with
  | nil =>
    rw [nil_append]
    cases text.splitOn '\n' <;> rfl
  | cons c line ih =>
    rw [mem_cons, not_or] at h
    rw [cons_append, List.splitOn, splitOnP_cons_eq_if_modifyHead,
      if_neg (by simpa using Ne.symm h.1)]
    show ((line ++ text).splitOn '\n').modifyHead _ = _
    rw [ih h.2, modifyHead_modifyHead]
    rfl

theorem newline_notMem (h : line ∈ text.splitOn '\n') : '\n' ∉ line := by
  induction text generalizing line with
  | nil => simp_all [List.splitOn]
  | cons c text ih =>
    by_cases hc : c = '\n'
    · rw [hc, ← nil_append ('\n' :: text), splitOn_append, mem_append] at h
      obtain h | h := h
      · simp_all [List.splitOn]
      · exact ih h
    · have hline : '\n' ∉ [c] := by simpa using Ne.symm hc
      rw [← singleton_append, splitOn_start hline] at h
      cases hsplit : text.splitOn '\n' with
      | nil => simp [hsplit] at h
      | cons =>
        rw [hsplit, modifyHead_cons, mem_cons] at h
        obtain rfl | h := h
        · rw [mem_append, not_or]
          exact ⟨hline, ih (hsplit ▸ mem_cons_self)⟩
        · exact ih (hsplit ▸ mem_cons_of_mem _ h)

theorem joinLines_eq_nil : (joinLines lines).2 = [] ↔ ∀ line ∈ lines, continues line = true := by
  induction lines with
  | nil => simp [joinLines]
  | cons line lines ih =>
    rw [joinLines, forall_mem_cons, ← ih]
    split_ifs with h <;> simp [h]

theorem newline_notMem_joinLines (h : ∀ line ∈ lines, '\n' ∉ line) :
    '\n' ∉ (joinLines lines).1 ∧ ∀ field ∈ (joinLines lines).2, '\n' ∉ field := by
  induction lines with
  | nil => simp [joinLines]
  | cons line lines ih =>
    obtain ⟨hline, hlines⟩ := forall_mem_cons.mp h
    obtain ⟨hmore, hfields⟩ := ih hlines
    rw [joinLines]
    split_ifs
    · exact ⟨by simp [hline, hmore], hfields⟩
    · exact ⟨by simp, forall_mem_cons.mpr ⟨by simp [hline, hmore], hfields⟩⟩

theorem trimField_sublist (text : List Char) : (trimField text).Sublist text := by
  simp only [trimField]
  split_ifs
  · exact (dropLast_sublist _).trans (tail_sublist text)
  · exact tail_sublist text
  · exact dropLast_sublist text
  · exact List.Sublist.refl text

theorem trimField_padded (value : List Char) : trimField (' ' :: (value ++ ['\r'])) = value := by
  simp [trimField]

theorem readField_subset {value : List Char} (h : readField text = some (name, value)) :
    value ⊆ text := by
  unfold readField at h
  split at h
  · cases h
  · next c rest hrest =>
    cases h
    have hsuffix : rest <:+ text :=
      (suffix_cons c rest).trans (hrest ▸ dropWhile_suffix _)
    exact fun c hc => hsuffix.subset ((trimField_sublist rest).subset hc)

theorem newline_notMem_readMail {value : List Char}
    (h : some (name, value) ∈ (readMail text).1) : '\n' ∉ value := by
  simp only [readMail, mem_append, mem_map] at h
  obtain h | ⟨field, hfield, hread⟩ := h
  · split_ifs at h <;> simp at h
  · have hlines : ∀ line ∈ (text.splitOn '\n').takeWhile (!blankLine ·), '\n' ∉ line := fun line hline =>
      newline_notMem ((takeWhile_sublist _).subset hline)
    intro hmem
    exact (newline_notMem_joinLines hlines).2 field hfield (readField_subset hread hmem)

theorem takeWhile_header (lines rest : List (List Char)) :
    (lines ++ ['\r'] :: rest).takeWhile (!blankLine ·) = lines.takeWhile (!blankLine ·) := by
  induction lines with
  | nil => rfl
  | cons first lines ih => simp [takeWhile_cons, ih]

theorem headerLine_append (name value rest : List Char) :
    headerLine name value ++ rest = (name ++ ": ".toList ++ (value ++ ['\r'])) ++ '\n' :: rest := by
  simp only [headerLine, append_assoc, cons_append, nil_append]

theorem readMail_header {sender recipients : List Char} (hsender : '\n' ∉ sender)
    (hrecipients : '\n' ∉ recipients) (subject line summary : List Char) :
    ∃ value, (readMail (mailText sender recipients subject line summary)).1 =
      [some ("From".toList, sender), some ("To".toList, recipients), some ("Subject".toList, value)] ++
        (joinLines (((subject ++ ['\r']).splitOn '\n').tail.takeWhile (!blankLine ·))).2.map
          readField := by
  have hfrom : '\n' ∉ "From".toList ++ ": ".toList ++ (sender ++ ['\r']) := by simp [hsender]
  have hto : '\n' ∉ "To".toList ++ ": ".toList ++ (recipients ++ ['\r']) := by simp [hrecipients]
  have hne : (subject ++ ['\r']).splitOn '\n' ≠ [] := splitOnP_ne_nil _ _
  have hempty (rest : List Char) : ('\r' :: '\n' :: rest).splitOn '\n' = ['\r'] :: rest.splitOn '\n' :=
    splitOn_append ['\r'] rest
  have hlong : ∀ c d text, blankLine (c :: d :: text) = false := by simp [blankLine]
  obtain ⟨first, more, hsubject⟩ := exists_cons_of_ne_nil hne
  refine ⟨trimField (' ' :: (first ++ (joinLines (more.takeWhile (!blankLine ·))).1)), ?_⟩
  simp only [readMail]
  rw [mailText, append_assoc, append_assoc, headerLine_append, splitOn_append,
    splitOn_line hfrom, headerLine_append, splitOn_append, splitOn_line hto, headerLine_append,
    splitOn_append, splitOn_start (by decide), hsubject, modifyHead_cons]
  simp [hempty, takeWhile_header, hlong, joinLines, continues, readField, trimField_padded]

/-- For every alert, whatever its texts: the mail is read as the sender and the recipients that are
set, one subject, and a body exactly if the sender and the recipients are single lines and the subject
does not break the header. -/
theorem mail_iff (upper : Char → Char) (s : SMTP) (alert : AlertInfo) :
    (∃ value, (readMail (s.message upper (notificationOf alert))).1 =
      [some ("From".toList, s.sender.toList),
        some ("To".toList, (", ".intercalate s.recipients).toList), some ("Subject".toList, value)]) ↔
    '\n' ∉ s.sender.toList ∧ '\n' ∉ (", ".intercalate s.recipients).toList ∧
      Unbroken (subject upper (notificationOf alert)).toList := by
  unfold SMTP.message
  generalize s.sender.toList = sender
  generalize (", ".intercalate s.recipients).toList = recipients
  generalize (subject upper (notificationOf alert)).toList = subject
  generalize (textLine upper (notificationOf alert)).toList = line
  generalize (notificationOf alert).summary.text.toList = summary
  constructor
  · rintro ⟨value, h⟩
    have hsender : '\n' ∉ sender := newline_notMem_readMail (h ▸ mem_cons_self)
    have hrecipients : '\n' ∉ recipients :=
      newline_notMem_readMail (h ▸ mem_cons_of_mem _ mem_cons_self)
    obtain ⟨value', hheader⟩ := readMail_header hsender hrecipients subject line summary
    rw [hheader] at h
    refine ⟨hsender, hrecipients, joinLines_eq_nil.mp ?_⟩
    simpa using congrArg (List.drop 3) h
  · rintro ⟨hsender, hrecipients, hsubject⟩
    obtain ⟨value, hheader⟩ := readMail_header hsender hrecipients subject line summary
    refine ⟨value, ?_⟩
    rw [hheader, joinLines_eq_nil.mpr hsubject]
    rfl

/-- A rule name with a line end adds a header field to the mail. -/
theorem mail_extra_recipient :
    (readMail (SMTP.message id { addr := "relay:25", sender := "argus@x", recipients := ["soc@x"] }
      (notificationOf { ruleName := "x\r\nBcc: eve@y", severity := "high" }))).1 =
    [some ("From".toList, "argus@x".toList), some ("To".toList, "soc@x".toList),
      some ("Subject".toList, "[ARGUS] high x".toList), some ("Bcc".toList, "eve@y".toList)] := by
  decide +kernel

end ArgusEdr.Integrations
