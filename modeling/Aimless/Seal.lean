import Aimless.Lib.SortKeys
import Aimless.Protocol

/-!
# Sealing

`protocol.py`, on the sending side: text messages, statuses and file chunks are written as JSON,
signed, wrapped with their kind and sealed for one recipient; a file chunk gets its routing header
in front.
-/

namespace Aimless

open Python (Str Exc Json)

/-- What the sealing functions call outside this repository, for one identity. -/
structure Sealer where
  /-- `bytes(identity.verify_key)`. -/
  verifyKey : Bytes
  /-- `identity.sign(message).signature`. -/
  sign : (message : Bytes) → Bytes
  /-- `json.dumps`, the entries of a dict in the order in which they stand. -/
  dumps : Json → Except Exc Str
  /-- `crypto_sign_ed25519_pk_to_curve25519`. -/
  curveKey : (pubkey : Bytes) → Except Exc Bytes
  /-- `SealedBox(curve).encrypt(inner)`, with the key pair that is drawn for the box. -/
  encrypt : (ephemeral curve inner : Bytes) → Bytes

namespace Field

def version : Str := Python.str ['v']
def size : Str := Python.str ['s', 'i', 'z', 'e']

end Field

/-! ### The routing header -/

/-- What `file_header` raises: two `ValueError`s, and what `struct.pack` raises. -/
inductive HeaderError where
  | tidLength
  | indexRange
  | structError
  deriving DecidableEq, Repr

def fileHeader (tid : Bytes) (index total : ℤ) : Except HeaderError Bytes :=
  if tid.length ≠ 16 then .error .tidLength
  else if ¬ (0 ≤ index ∧ index < total) then .error .indexRange
  else if 65535 < index ∨ 65535 < total then .error .structError
  else .ok (tid ++ Words.putLE 2 index.toNat ++ Words.putLE 2 total.toNat)

/-! ### The bodies -/

/-- The body of a text message; an empty screen name is left out. -/
def messageBody (text : Str) (ts : ℤ) (screen conv : Option Str) (members : Option Json) :
    List (Str × Json) :=
  [(Field.text, .str text), (Field.ts, .int ts)]
    ++ ((screen.filter (· ≠ [])).map fun s => (Field.screen, Json.str s)).toList
    ++ (conv.map fun s => (Field.conv, Json.str s)).toList
    ++ (members.map fun v => (Field.members, v)).toList

def statusBody (screen : Str) (away : Json) (ts : ℤ) : List (Str × Json) :=
  [(Field.screen, .str screen), (Field.away, away), (Field.ts, .int ts)]

/-- `make_chunk`; an empty conversation is left out. -/
def makeChunk (tid : Str) (index total : ℤ) (filename mimeHint sha256 : Str) (size : ℤ)
    (data : Bytes) (conv : Option Str) : List (Str × Json) :=
  [(Field.transferId, .str tid), (Field.index, .int index), (Field.total, .int total),
    (Field.filename, .str filename), (Field.mimeHint, .str mimeHint), (Field.sha256, .str sha256),
    (Field.size, .int size), (Field.data, .str (Python.str (Base64.encode data)))]
    ++ ((conv.filter (· ≠ [])).map fun s => (Field.conv, Json.str s)).toList

/-- `send_file_room` writes the conversation into its copy of the chunk. -/
def roomChunk (chunk : List (Str × Json)) (conv : Str) : List (Str × Json) :=
  chunk.filter (fun e => e.1 ≠ Field.conv) ++ [(Field.conv, .str conv)]

/-! ### Signing and sealing -/

variable (S : Sealer) (ephemeral : Bytes)

/-- `_sign`: over the body alone. -/
def signBody (body : Bytes) : Text := Base64.encode (S.sign (magic ++ body))

/-- What is sealed: the kind, the sender's key, the body and its signature. -/
def wrapper (k : Kind) (body : Str) (sig : Text) : Json :=
  .obj [(Field.version, .int 1), (Field.kind, .str k.name),
    (Field.sender, .str (Python.str (Hex.encode S.verifyKey))), (Field.body, .str body),
    (Field.sig, .str (Python.str sig))]

/-- The part the `seal_` functions share: a body of the given kind, sealed for a key. -/
def sealBody (k : Kind) (buddy : Str) (fields : List (Str × Json)) : Except Exc Bytes := do
  let body ← S.dumps (Json.obj fields).sortKeys
  let bytes ← Python.utf8 body
  let inner ← S.dumps (wrapper S k body (signBody S bytes))
  let inner ← Python.utf8 inner
  let key ← Python.fromHex buddy
  let curve ← S.curveKey key
  return S.encrypt ephemeral curve inner

def sealMessage (buddy text : Str) (ts : ℤ) (screen conv : Option Str) (members : Option Json) :
    Except Exc Str := do
  let box ← sealBody S ephemeral .msg buddy (messageBody text ts screen conv members)
  return Python.str (Base64.encode box)

def sealStatus (buddy screen : Str) (away : Json) (ts : ℤ) : Except Exc Str := do
  let box ← sealBody S ephemeral .status buddy (statusBody screen away ts)
  return Python.str (Base64.encode box)

/-- The sealed chunk, without its routing header. -/
def sealFileChunk (buddy : Str) (chunk : List (Str × Json)) : Except Exc Bytes :=
  sealBody S ephemeral .file buddy chunk

end Aimless
