import Aimless.Deliveries
import Aimless.Fanout

/-!
# Sending a file

`validate_send_size` and `build_file_payload` of `protocol.py`, and `_send_file` of `gtkui.py`: the
file is cut into pieces, each is sealed for the contact or for every member of the room and handed
to the daemon, and when all of them are queued the file appears in the conversation.  What only
draws (the progress row) is left out.
-/

namespace Aimless

open Python (Str Exc Json Dict)

def fileChunkSize : ℕ := 32 * 1024

def maxSendBytes : ℕ := 20 * 1024 * 1024

/-- `f"{n:,}"`. -/
def thousands (n : ℕ) : Str :=
  match (Nat.digits 1000 n).reverse with
  | [] => Python.decimal 0
  | first :: groups =>
    Python.decimal first ++ groups.flatMap fun g =>
      Python.str [',', Hex.digit (g / 100), Hex.digit (g / 10 % 10), Hex.digit (g % 10)]

/-- The text of the `ValueError` for a file that is too large. -/
def validateSendSize (size : ℕ) : Except Str Unit :=
  if maxSendBytes < size then
    .error (Python.str ("file is ".toList) ++ thousands size
      ++ Python.str (" bytes - aimless caps attachments at ".toList) ++ thousands maxSendBytes
      ++ Python.str (" bytes".toList))
  else .ok ()

/-- The pieces of `FILE_CHUNK_SIZE` bytes, of which the last may be shorter. -/
def pieces (data : Bytes) : List Bytes :=
  (List.range ((data.length + (fileChunkSize - 1)) / fileChunkSize)).map fun i =>
    (data.drop (i * fileChunkSize)).take fileChunkSize

/-- Whether `filename.lower()` ends in one of the extensions of an image.  No character but its
capital becomes one of their letters in lower case. -/
def isImageName (filename : Str) : Bool :=
  let lower := filename.map fun c => if 65 ≤ c.val ∧ c.val ≤ 90 then c.val + 32 else c.val
  [".png", ".jpg", ".jpeg", ".gif", ".webp"].any fun ext =>
    (ext.toList.map Char.toNat).isSuffixOf lower

def mimeHintOf (filename : Str) : Str :=
  if isImageName filename then Python.str ['i', 'm', 'a', 'g', 'e']
  else Python.str ['a', 'p', 'p', 'l', 'i', 'c', 'a', 't', 'i', 'o', 'n']

/-- Where a file goes: the conversation with a contact, or a room. -/
inductive SendTarget where
  | contact (conv pubkey : Str)
  | room (conv : Str) (members : List RoomMember)

def SendTarget.conv : SendTarget → Str
  | .contact conv _ => conv
  | .room conv _ => conv

/-- The conversation that is written into a chunk. -/
def SendTarget.chunkConv : SendTarget → Option Str
  | .contact _ _ => none
  | .room conv _ => some conv

/-- What the worker returns: the last seq of each node, and all that are to be acknowledged. -/
structure SentChunks where
  seqs : List (Str × Json) := []
  expected : List (Str × ℕ) := []

/-- `int(s)` of a seq. -/
def seqNat : Json → ℕ
  | .int n => n.toNat
  | _ => 0

/-- The seqs of one chunk; `expected` is a set. -/
def SentChunks.add (sent : SentChunks) (seqs : List (Str × Json)) : SentChunks :=
  seqs.foldl (fun sent e =>
    let key := (e.1, seqNat e.2)
    { seqs := Python.setItem sent.seqs e.1 e.2
      expected := if sent.expected.contains key then sent.expected else sent.expected ++ [key] }) sent

variable (S : Sealer)

/-- The sealed chunk behind its routing header, as the daemon takes it. -/
def buildFilePayload (ephemeral : Bytes) (recipient : Str) (chunk : List (Str × Json)) :
    Except RoomError Str := do
  let box ← (sealFileChunk S ephemeral recipient chunk).mapError .raised
  let header ← roomHeader chunk
  return Python.str (Base64.encode (header ++ box))

/-- One turn of the worker's loop: the seq for each node that gets the chunk. -/
def sendChunk (E : RoomEnv) (myNode : Except RoomError Str) (target : SendTarget)
    (chunk : List (Str × Json)) (d : Daemon) : Except RoomError (List (Str × Json)) × Daemon :=
  match target with
  | .room conv members => sendFileRoom S E myNode members conv chunk d
  | .contact conv pubkey =>
    match buildFilePayload S (E.ephemeral 0) pubkey chunk with
    | .error e => (.error e, d)
    | .ok payload =>
      let (reply, d) := d.answerSend (E.fault 0) typeFile (E.now 0) (goText conv) (goText payload)
      match replySeq reply with
      | .error e => (.error (.daemon e), d)
      | .ok seq => (.ok [(conv, .int seq.toNat)], d)

/-- The worker's loop; `chunkOf` makes the chunk of a piece, and each turn has surroundings of its
own. -/
def sendChunks (E : ℕ → RoomEnv) (myNode : Except RoomError Str) (target : SendTarget)
    (chunkOf : Bytes × ℕ → List (Str × Json)) : List (Bytes × ℕ) → SentChunks → Daemon →
    Except RoomError SentChunks × Daemon
  | [], sent, d => (.ok sent, d)
  | piece :: rest, sent, d =>
    match sendChunk S (E piece.2) myNode target (chunkOf piece) d with
    | (.error e, d) => (.error e, d)
    | (.ok seqs, d) => sendChunks E myNode target chunkOf rest (sent.add seqs) d

/-- A file that was read and that is about to be sent. -/
structure Outgoing where
  path : Str
  filename : Str
  /-- What `os.path.getsize` gave. -/
  size : ℕ
  data : Bytes
  /-- The 16 bytes of the transfer id. -/
  tid : Bytes

/-- The chunk of a piece, for the file with the given digest. -/
def Outgoing.chunk (file : Outgoing) (digest : Bytes) (conv : Option Str) (piece : Bytes × ℕ) :
    List (Str × Json) :=
  makeChunk (Python.str (Hex.encode file.tid)) piece.2 (pieces file.data).length file.filename
    (mimeHintOf file.filename) (Python.str (Hex.encode digest)) file.size piece.1 conv

def Outgoing.attachment (file : Outgoing) : Dict := [
  (.str (Python.str ['p', 'a', 't', 'h']), .str file.path),
  (.str Field.filename, .str file.filename),
  (.str Field.mimeHint, .str (mimeHintOf file.filename)),
  (.str Field.size, .int file.size)]

/-- `worker`. -/
def sendFileWorker (L : Libs) (E : ℕ → RoomEnv) (myNode : Except RoomError Str)
    (target : SendTarget) (file : Outgoing) (d : Daemon) : Except RoomError SentChunks × Daemon :=
  sendChunks S E myNode target (file.chunk (L.sha256 file.data) target.chunkConv)
    (pieces file.data).zipIdx {} d

/-- `_send_file`: whether the file appears in the conversation as sent, which it does when the
worker returned and `add_sent` did. -/
def sendFile (L : Libs) (E : ℕ → RoomEnv) (myNode : Except RoomError Str) (target : SendTarget)
    (file : Outgoing) (ts : ℤ) (t : Tracker) (d : Daemon) : Bool × Tracker × Daemon :=
  match sendFileWorker S L E myNode target file d with
  | (.error _, d) => (false, t, d)
  | (.ok sent, d) =>
    let seqs := sent.seqs.map fun e => (goText e.1, seqNat e.2)
    let expected := sent.expected.map fun e => (goText e.1, e.2)
    match t.addSent L target.conv seqs ts file.filename (some file.attachment) (some expected) with
    | (.error _, t) => (false, t, d)
    | (.ok _, t) => (true, t.registerFileDelivery file.filename expected, d)

end Aimless
