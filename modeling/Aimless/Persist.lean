import Aimless.Mail
import Aimless.Lib.Replace

/-!
# The files of the contacts and the block list

`mail.go` again, one lock section and one file operation at a time: API connections are served by
separate goroutines, so the calls of `Watch`, `Block` and `Unblock` interleave.  A `Server` is a
daemon with the files it writes and the calls under way; a run is a list of the calls that move, in
turn.  What the files hold is the text that `encoding/json` writes.
-/

namespace Aimless

/-- `contacts.json` and `blocked.json`, each with its `.tmp`. -/
inductive FileName where
  | contacts
  | blocked
  deriving DecidableEq, Repr

/-- `json.Marshal` and `json.Unmarshal` of a `contactsFile` or a `blockedFile`.  A key stands for
its hex form. -/
structure Documents where
  marshal : FileName → List PublicKey → Text
  unmarshal : FileName → Text → Option (List PublicKey)
  unmarshal_marshal : ∀ f keys, unmarshal f (marshal f keys) = some keys

/-- What a file's text lists: nothing if there is no file. -/
def Documents.read (J : Documents) (f : FileName) : Option Text → Option (List PublicKey)
  | none => some []
  | some t => J.unmarshal f t

namespace Server

inductive CallOp where
  | watch
  | block
  | unblock
  deriving DecidableEq, Repr

/-- The file a call writes. -/
def CallOp.file : CallOp → FileName
  | .watch => .contacts
  | .block => .blocked
  | .unblock => .blocked

inductive CallError where
  | peerBlocked
  | parse
  | rename
  deriving DecidableEq, Repr

/-- What a call does next.  `writing` and `renaming` carry the keys of its document. -/
inductive Stage where
  | called
  | admitted
  | boxed
  | writing (keys : List PublicKey)
  | renaming (keys : List PublicKey)
  | listed
  | returned (r : Except CallError Unit)
  deriving DecidableEq

structure Call where
  op : CallOp
  pub : PublicKey
  stage : Stage := .called
  deriving DecidableEq

end Server

/-- The block list in the order of the hex forms. -/
def Daemon.sortedBlockedLocked (d : Daemon) : List PublicKey :=
  d.blocked.insertionSort fun a b => ¬ Hex.encode b < Hex.encode a

structure Server where
  daemon : Daemon
  disk : FileName → Replaced Text
  calls : List Server.Call

namespace Server

variable (J : Documents)

def load (s : Server) (f : FileName) : Option (List PublicKey) := J.read f (s.disk f).file

def loadContacts (s : Server) : Option (List PublicKey) := s.load J .contacts

def loadBlocked (s : Server) : Option (List PublicKey) := s.load J .blocked

def putFile (s : Server) (f : FileName) (r : Replaced Text) : Server :=
  { s with disk := Function.update s.disk f r }

/-- The section under the lock of `Block` and `Unblock`: a change comes with a sorted copy of the
new list. -/
def change (s : Server) (blocked : List PublicKey) : Stage × Server :=
  let d := { s.daemon with blocked }
  (.writing d.sortedBlockedLocked, { s with daemon := d })

/-- One move of a call: a lock section or a file operation. -/
def move (s : Server) (c : Call) : Stage × Server :=
  match c.stage with
  | .called =>
    match c.op with
    | .watch => (if s.daemon.isBlocked c.pub then .returned (.error .peerBlocked) else .admitted, s)
    | .block =>
      if s.daemon.isBlocked c.pub then (.returned (.ok ()), s)
      else s.change (s.daemon.blocked ++ [c.pub])
    | .unblock =>
      if ¬ s.daemon.isBlocked c.pub then (.returned (.ok ()), s)
      else s.change (s.daemon.blocked.filter fun k => k ≠ c.pub)
  | .admitted => (.boxed, { s with daemon := s.daemon.boxFor c.pub })
  | .boxed =>
    match s.loadContacts J with
    | none => (.returned (.error .parse), s)
    | some contacts =>
      if contacts.any fun k => k = c.pub then (.listed, s)
      else (.writing (contacts ++ [c.pub]), s)
  | .writing keys =>
    (.renaming keys,
      s.putFile c.op.file ((s.disk c.op.file).write (J.marshal c.op.file keys)))
  | .renaming _ =>
    match (s.disk c.op.file).rename with
    | none => (.returned (.error .rename), s)
    | some r =>
      (if c.op = .watch then .listed else .returned (.ok ()), s.putFile c.op.file r)
  | .listed => (.returned (.ok ()), { s with daemon := s.daemon.presenceWatch c.pub })
  | .returned r => (.returned r, s)

/-- The call at position `i` moves. -/
def advance (s : Server) (i : ℕ) : Server :=
  match s.calls[i]? with
  | none => s
  | some c =>
    let (stage, s') := s.move J c
    { s' with calls := s'.calls.set i { c with stage } }

def run (s : Server) (moves : List ℕ) : Server := moves.foldl (advance J) s

/-- `NewMail` over the files as they are. -/
def restart (s : Server) : Option Daemon :=
  match s.loadBlocked J, s.loadContacts J with
  | some blocked, some contacts => some (Daemon.newMail s.daemon.db blocked contacts)
  | _, _ => none

end Server

/-! ### The text of the files -/

namespace Documents

def fieldName : FileName → Text
  | .contacts => ['c', 'o', 'n', 't', 'a', 'c', 't', 's']
  | .blocked => ['b', 'l', 'o', 'c', 'k', 'e', 'd']

def opening (f : FileName) : Text := ['\x7b', '"'] ++ fieldName f ++ ['"', ':', '[']

def closing : Text := [']', '\x7d']

def quote (key : PublicKey) : Text := '"' :: (Hex.encode key ++ ['"'])

/-- The document as `json.Marshal` writes it. -/
def goMarshal (f : FileName) (keys : List PublicKey) : Text :=
  opening f ++ ([','].intercalate (keys.map quote) ++ closing)

def unquote (t : Text) : Option PublicKey := (Hex.decode (t.drop 1).dropLast).toOption

def elements (body : Text) : List Text := if body = [] then [] else body.splitOn ','

/-- Reads a document as `goMarshal` writes it and no other. -/
def goUnmarshal (f : FileName) (t : Text) : Option (List PublicKey) :=
  let body := (t.drop (opening f).length).take (t.length - (opening f).length - closing.length)
  ((elements body).mapM unquote).filter fun keys => goMarshal f keys = t

end Documents

end Aimless
