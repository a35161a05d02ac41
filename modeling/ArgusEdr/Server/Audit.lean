import ArgusEdr.Go.Strconv
import ArgusEdr.Go.Strings
import ArgusEdr.Lib.HashChain
import ArgusEdr.Lib.Runs
import ArgusEdr.Model.Event

/-!
# The audit log of the control plane (`cmd/argus-server/audit.go`)

Every admin action is sealed into an entry that carries the hash of the entry before it, and
appended to the audit file. The file outlives the server: `serve` is one life of the server, which
opens the file for append and starts a log of its own.
-/

namespace ArgusEdr.Audit

open Go (Bytes)
open Model (Time)

structure Entry where
  seq : UInt64
  time : Time
  actor : String
  action : String
  target : String := ""
  detail : String := ""
  prevHash : String := ""
  hash : String := ""
  sig : String := ""
deriving Repr, DecidableEq

/-- The separator of the hashed fields, 0x1f. -/
def unitSeparator : Char := '\x1f'

/-- What the log takes from outside: `Time.Format(time.RFC3339Nano)`, which writes digits, signs,
points, colons and the letters `T` and `Z`, `sha256.Sum256`, and the HMAC over it of a key and a
message. -/
structure Environment where
  rfc3339Nano : Time → String
  rfc3339Nano_noSeparator : ∀ t, unitSeparator ∉ (rfc3339Nano t).toList
  sum256 : Bytes → Bytes
  hmac : Bytes → Bytes → Bytes

/-- Concrete stand-ins: one time, the identity as a hash, and the key in front of the message. -/
def Environment.plain : Environment where
  rfc3339Nano _ := "2026-01-02T03:04:05Z"
  rfc3339Nano_noSeparator := by
    intro t
    decide
  sum256 := id
  hmac key message := key ++ message

/-- `auditLog`, without its sink and its logger. -/
structure Log where
  seq : UInt64 := 0
  prev : String := ""
  key : Bytes
deriving Repr, DecidableEq

def newAuditLog (key : Bytes) : Log := { key }

/-- The arguments of one call of `record`, with what the clock shows then. -/
structure Action where
  time : Time
  actor : String
  action : String
  target : String := ""
  detail : String := ""
deriving Repr, DecidableEq

section
variable (env : Environment)

/-- The fields of the recorded action, as the hash covers them. -/
def Entry.contents (e : Entry) : List String :=
  [Go.formatUint e.seq.toNat, env.rfc3339Nano e.time, e.actor, e.action, e.target, e.detail]

def Entry.canonical (e : Entry) : String :=
  (String.singleton unitSeparator).intercalate (e.contents env ++ [e.prevHash])

def Entry.computeHash (e : Entry) : String :=
  Go.hexString (env.sum256 (Go.utf8 (e.canonical env)))

def Entry.sign (e : Entry) (key : Bytes) : String := Go.hexString (env.hmac key (Go.utf8 e.hash))

def Log.entry (l : Log) (a : Action) : Entry where
  seq := l.seq + 1
  time := a.time
  actor := a.actor
  action := a.action
  target := a.target
  detail := a.detail
  prevHash := l.prev

def Entry.sealed (e : Entry) (key : Bytes) : Entry :=
  let hashed := { e with hash := e.computeHash env }
  if 0 < key.length then { hashed with sig := hashed.sign env key } else hashed

def Log.record (l : Log) (a : Action) : Log × Entry :=
  let entry := (l.entry a).sealed env l.key
  ({ l with seq := l.seq + 1, prev := entry.hash }, entry)

/-- The loop of `verifyAuditChain`, from the hash of the last entry it has passed. -/
def verifyFrom (key : Bytes) : String → List Entry → Except Go.Error Unit
  | _, [] => .ok ()
  | prev, entry :: entries =>
    if entry.prevHash ≠ prev then
      .error (.errorf "audit entry %d: chain broken (prev_hash mismatch)"
        [Go.formatUint entry.seq.toNat])
    else if entry.computeHash env ≠ entry.hash then
      .error (.errorf "audit entry %d: hash mismatch (record tampered)"
        [Go.formatUint entry.seq.toNat])
    else if 0 < key.length ∧ entry.sign env key ≠ entry.sig then
      .error (.errorf "audit entry %d: signature mismatch" [Go.formatUint entry.seq.toNat])
    else verifyFrom key entry.hash entries

def verifyAuditChain (entries : List Entry) (key : Bytes) : Except Go.Error Unit :=
  verifyFrom env key "" entries

/-! ## The audit file over the lives of the server -/

def Log.recordAll : Log → List Action → List Entry
  | _, [] => []
  | l, a :: actions => (l.record env a).2 :: Log.recordAll (l.record env a).1 actions

def serve (key : Bytes) (file : List Entry) (actions : List Action) : List Entry :=
  file ++ (newAuditLog key).recordAll env actions

def auditFile (key : Bytes) (lives : List (List Action)) : List Entry :=
  Runs.run (serve env key) [] lives

end

end ArgusEdr.Audit
