import Aimless.Api
import Aimless.Seal

/-!
# Sending to a room

`Client.send_room` and `Client.send_file_room` of `daemon.py`: a copy is sealed for every member
but the sender, and handed to the daemon as a request of its own.  The daemon's side is that of
`api.go` and `mail.go`, with the places at which its database may fail.
-/

namespace Aimless

open Python (Str Exc Json)

/-! ### The daemon -/

/-- The statement of a send that the database fails. -/
inductive SendFault where
  | nextSeq
  | queue
  deriving DecidableEq, Repr

namespace Daemon

/-- `SendMsg` and `SendFile`; a transaction that fails has no effect, and a seq that was allocated
stays allocated. -/
def sendOrFail (fault : Option SendFault) (typ : EnvelopeType) (now : ℤ) (d : Daemon)
    (dest : PublicKey) (payload : Bytes) : Except MailError UInt64 × Daemon :=
  match d.beginSend dest with
  | (.error e, d) => (.error e, d)
  | (.ok seq, d') =>
    match fault with
    | some .nextSeq => (.error .persist, d.boxFor dest)
    | some .queue => (.error .persist, d')
    | none => (.ok seq, d'.finishSend now dest seq payload typ)

/-- The answer to a `send` or `sendfile` request. -/
def answerSend (fault : Option SendFault) (typ : EnvelopeType) (now : ℤ) (d : Daemon)
    (dest payload : Text) : Reply × Daemon :=
  let d := d.touchClient now
  match decodeKey dest with
  | .error e => (.error e, d)
  | .ok key =>
    match Base64.decode payload with
    | none => (.error .badPayloadBase64, d)
    | some bytes =>
      match d.sendOrFail fault typ now key bytes with
      | (.error e, d) => (.error (.sendFailed e), d)
      | (.ok seq, d) => (.queued dest seq bytes.length, d)

end Daemon

/-! ### The client -/

def isHighSurrogate (c : Python.CodePoint) : Bool := 0xD800 ≤ c.val ∧ c.val ≤ 0xDBFF

def isLowSurrogate (c : Python.CodePoint) : Bool := 0xDC00 ≤ c.val ∧ c.val ≤ 0xDFFF

/-- A code point as Go reads it from JSON; a lone surrogate becomes U+FFFD. -/
def goChar (c : Python.CodePoint) : Char :=
  if isHighSurrogate c ∨ isLowSurrogate c then Char.ofNat 0xFFFD else Char.ofNat c.val

/-- The string that Go reads from what `json.dumps` writes; two surrogates that make a pair become
one character. -/
def goText : Str → Text
  | [] => []
  | [c] => [goChar c]
  | c :: c' :: rest =>
    if isHighSurrogate c ∧ isLowSurrogate c' then
      Char.ofNat (0x10000 + (c.val - 0xD800) * 0x400 + (c'.val - 0xDC00)) :: goText rest
    else goChar c :: goText (c' :: rest)

/-- A member, as the room's roster lists it. -/
structure RoomMember where
  node : Str
  pubkey : Str
  screen : Str
  deriving DecidableEq, Repr

def RoomMember.toJson (m : RoomMember) : Json :=
  .obj [(Field.node, .str m.node), (Field.pubkey, .str m.pubkey), (Field.screen, .str m.screen)]

/-- What a fan-out raises: its own exceptions, or an error reply as a `DaemonError`. -/
inductive RoomError where
  | raised (e : Exc)
  | header (e : HeaderError)
  | daemon (e : ApiError)
  deriving DecidableEq, Repr

/-- What surrounds a fan-out: the key pair drawn for each box, and for each request the time and the
statement that the database fails. -/
structure RoomEnv where
  ephemeral : ℕ → Bytes
  now : ℕ → ℤ
  fault : ℕ → Option SendFault

/-- `resp.get("seq", 0)` of a reply that is no error. -/
def replySeq : Reply → Except ApiError UInt64
  | .error e => .error e
  | .queued _ seq _ => .ok seq
  | _ => .ok 0

/-- The loop that `send_room` and `send_file_room` share, over the members with their positions:
the daemon's seq for each node. -/
def fanOut (E : RoomEnv) (typ : EnvelopeType) (sealFor : ℕ → RoomMember → Except Exc Str)
    (myNode : Str) : List (RoomMember × ℕ) → List (Str × Json) → Daemon →
    Except RoomError (List (Str × Json)) × Daemon
  | [], seqs, d => (.ok seqs, d)
  | (m, i) :: rest, seqs, d =>
    if m.node = myNode then fanOut E typ sealFor myNode rest seqs d
    else
      match sealFor i m with
      | .error e => (.error (.raised e), d)
      | .ok payload =>
        let (reply, d) := d.answerSend (E.fault i) typ (E.now i) (goText m.node) (goText payload)
        match replySeq reply with
        | .error e => (.error (.daemon e), d)
        | .ok seq =>
          fanOut E typ sealFor myNode rest (Python.setItem seqs m.node (.int seq.toNat)) d

/-- `myNode` is what `node_key()` gives. -/
def sendRoom (S : Sealer) (E : RoomEnv) (screenName : Str) (myNode : Except RoomError Str)
    (members : List RoomMember) (conv text : Str) (ts : ℤ) (d : Daemon) :
    Except RoomError (List (Str × Json)) × Daemon :=
  match myNode with
  | .error e => (.error e, d)
  | .ok myNode =>
    fanOut E typeMsg (fun i m => sealMessage S (E.ephemeral i) m.pubkey text ts (some screenName)
      (some conv) (some (.arr (members.map RoomMember.toJson)))) myNode members.zipIdx [] d

/-- The integer that `file_header` takes for an index or a total. -/
def headerInt : Json → Except RoomError ℤ
  | .int n => .ok n
  | .bool b => .ok (if b then 1 else 0)
  | _ => .error (.raised .typeError)

/-- The header of `send_file_room`, from the fields of the chunk. -/
def roomHeader (body : List (Str × Json)) : Except RoomError Bytes := do
  let tid ← (Python.getItem body Field.transferId).mapError .raised
  let tid ← (hexValue tid).mapError .raised
  let index ← headerInt (← (Python.getItem body Field.index).mapError .raised)
  let total ← headerInt (← (Python.getItem body Field.total).mapError .raised)
  (fileHeader tid index total).mapError .header

def sendFileRoom (S : Sealer) (E : RoomEnv) (myNode : Except RoomError Str)
    (members : List RoomMember) (conv : Str) (chunk : List (Str × Json)) (d : Daemon) :
    Except RoomError (List (Str × Json)) × Daemon :=
  match myNode with
  | .error e => (.error e, d)
  | .ok myNode =>
    let body := roomChunk chunk conv
    match roomHeader body with
    | .error e => (.error e, d)
    | .ok header =>
      fanOut E typeFile (fun i m => do
        let box ← sealFileChunk S (E.ephemeral i) m.pubkey body
        return Python.str (Base64.encode (header ++ box))) myNode members.zipIdx [] d

end Aimless
