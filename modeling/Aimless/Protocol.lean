import Aimless.Lib.Python

/-!
# The sealed payloads

`protocol.py`, on the receiving side: opening a text message, a status or a file chunk that a peer
sealed for this identity.  PyNaCl, `json` and SQLite's rendering of a float are what `Libs` stands
for.
-/

namespace Aimless

open Python (Str Exc Json Dict)

/-- What the client's functions call outside this repository, for one identity. -/
structure Libs where
  /-- `SealedBox.decrypt` on a ciphertext of at least 48 bytes, where it opens. -/
  sealOpen : Bytes → Option Bytes
  /-- Whether `VerifyKey(key).verify(message, signature)` accepts a 64-byte signature. -/
  verifies : (key message signature : Bytes) → Bool
  /-- `json.loads` of a `str`. -/
  loads : Str → Except Exc Json
  /-- `json.loads` of a `bytes`. -/
  loadsBytes : Bytes → Except Exc Json
  /-- `json.dumps` of a dict of values that `loads` gave. -/
  dumps : Dict → Except Exc Str
  /-- `hashlib.sha256(data).digest()`. -/
  sha256 : Bytes → Bytes
  /-- How SQLite writes a `REAL` into a text column. -/
  realText : Python.Float → Str

namespace Field

def kind : Str := Python.str ['k', 'i', 'n', 'd']
def sender : Str := Python.str ['f', 'r', 'o', 'm']
def body : Str := Python.str ['b', 'o', 'd', 'y']
def sig : Str := Python.str ['s', 'i', 'g']
def text : Str := Python.str ['t', 'e', 'x', 't']
def ts : Str := Python.str ['t', 's']
def screen : Str := Python.str ['s', 'c', 'r', 'e', 'e', 'n']
def conv : Str := Python.str ['c', 'o', 'n', 'v']
def members : Str := Python.str ['m', 'e', 'm', 'b', 'e', 'r', 's']
def node : Str := Python.str ['n', 'o', 'd', 'e']
def pubkey : Str := Python.str ['p', 'u', 'b', 'k', 'e', 'y']
def away : Str := Python.str ['a', 'w', 'a', 'y']
def transferId : Str :=
  Python.str ['t', 'r', 'a', 'n', 's', 'f', 'e', 'r', '_', 'i', 'd']
def index : Str := Python.str ['i', 'n', 'd', 'e', 'x']
def total : Str := Python.str ['t', 'o', 't', 'a', 'l']
def filename : Str := Python.str ['f', 'i', 'l', 'e', 'n', 'a', 'm', 'e']
def sha256 : Str := Python.str ['s', 'h', 'a', '2', '5', '6']
def mimeHint : Str := Python.str ['m', 'i', 'm', 'e', '_', 'h', 'i', 'n', 't']
def data : Str := Python.str ['d', 'a', 't', 'a']

end Field

/-- The values of `kind` that the client opens. -/
inductive Kind where
  | msg
  | file
  | status
  deriving DecidableEq, Repr

def Kind.name : Kind → Str
  | .msg => Python.str ['m', 's', 'g']
  | .file => Python.str ['f', 'i', 'l', 'e']
  | .status => Python.str ['s', 't', 'a', 't', 'u', 's']

/-- `MAGIC`: what a signature covers starts with it. -/
def magic : Bytes := [97, 105, 109, 108, 101, 115, 115, 1]

/-- `bytes.fromhex(v)`. -/
def hexValue : Json → Except Exc Bytes
  | .str s => Python.fromHex s
  | _ => .error .typeError

variable (L : Libs)

/-- `SealedBox.decrypt`: too short a ciphertext is a `TypeError`, one that does not open is a
`CryptoError`. -/
def sealedBoxDecrypt (sealed : Bytes) : Except Exc Bytes :=
  if sealed.length < 48 then .error .typeError
  else
    match L.sealOpen sealed with
    | none => .error .cryptoError
    | some inner => .ok inner

/-- `_verify`: only `ValueError`s and a bad signature are turned into `False`. -/
def verify (sender : Json) (body : Bytes) (sig : Json) : Except Exc Bool :=
  match sender with
  | .str s =>
    match Python.fromHex s with
    | .error _ => .ok false
    | .ok key =>
      if key.length ≠ 32 then .ok false
      else
        match sig with
        | .str t =>
          match Python.b64decode t with
          | .error _ => .ok false
          | .ok signature =>
            .ok (signature.length = 64 ∧ L.verifies key (magic ++ body) signature)
        | _ => .error .typeError
  | _ => .error .typeError

/-- The part the `open_` functions share: the value of `from` and the parsed body of a payload of
the given kind, once the signature holds. -/
def openSealed (k : Kind) (sealed : Bytes) : Except Exc (Json × Json) := do
  let inner ← sealedBoxDecrypt L sealed
  match ← L.loadsBytes inner with
  | .obj msg =>
    match Python.get? msg Field.kind, Python.get? msg Field.sender, Python.get? msg Field.body,
        Python.get? msg Field.sig with
    | some kind, some sender, some body, some sig =>
      if kind.eqStr k.name = false then throw .valueError
      match body with
      | .str body =>
        let obj ← L.loads body
        let bytes ← Python.utf8 body
        if (← verify L sender bytes sig) = false then throw .valueError
        return (sender, obj)
      | _ => throw .typeError
    | _, _, _, _ => throw .valueError
  | _ => throw .attributeError

/-- What `open_message` returns: the fields that are always there, and the optional ones. -/
structure Opened where
  sender : Json
  text : Json
  ts : Json
  screen : Option Json
  conv : Option Json
  members : Option Json

def openMessage (payload : Str) : Except Exc Opened := do
  let sealed ← Python.b64decode payload
  let (sender, body) ← openSealed L .msg sealed
  match body with
  | .obj fields =>
    let text ← Python.getItem fields Field.text
    let ts ← Python.getItem fields Field.ts
    return ⟨sender, text, ts, Python.get? fields Field.screen, Python.get? fields Field.conv,
      Python.get? fields Field.members⟩
  | _ => throw .typeError

/-- What `open_status` returns. -/
structure OpenedStatus where
  sender : Json
  screen : Json
  away : Json
  ts : Json

def openStatus (payload : Str) : Except Exc OpenedStatus := do
  let sealed ← Python.b64decode payload
  let (sender, body) ← openSealed L .status sealed
  match body with
  | .obj fields =>
    let screen ← Python.getItem fields Field.screen
    let away ← Python.getItem fields Field.away
    let ts ← Python.getItem fields Field.ts
    return ⟨sender, screen, away, ts⟩
  | _ => throw .typeError

/-- A file payload cut into its routing header and the sealed chunk. -/
structure FilePayload where
  tid : Bytes
  index : ℕ
  total : ℕ
  sealed : Bytes

def parseFilePayload (payload : Str) : Except Exc FilePayload := do
  let raw ← Python.b64decode payload
  if raw.length < 20 then throw .valueError
  let index := Words.getLE ((raw.drop 16).take 2)
  let total := Words.getLE ((raw.drop 18).take 2)
  if total = 0 ∨ total ≤ index then throw .valueError
  return ⟨raw.take 16, index, total, raw.drop 20⟩

/-- The chunk dict; `from` is added to what was signed. -/
def openFileChunk (sealed : Bytes) : Except Exc (List (Str × Json)) := do
  let (sender, body) ← openSealed L .file sealed
  match body with
  | .obj chunk => return (Field.sender, sender) :: chunk.filter fun e => e.1 ≠ Field.sender
  | _ => throw .typeError

/-- The chunks of a transfer by index, as a dict from ints.  `None` if one is missing; a total that
is no int makes `range` fail. -/
def reassembleFile (chunks : List (ℕ × Bytes)) (total : Json) : Except Exc (Option Bytes) :=
  if total.eqInt chunks.length = false then .ok none
  else
    match total with
    | .float _ => .error .typeError
    | _ => .ok ((List.range chunks.length).mapM (fun i => chunks.lookup i) |>.map List.flatten)

/-- `"|".join(sorted(member_nodes))`. -/
def joinNodes (nodes : List Str) : Str :=
  (Python.str ['|']).intercalate (nodes.insertionSort (· ≤ ·))

/-- The id of a room: the same members give the same id. -/
def roomId (nodes : List Str) : Except Exc Str := do
  let bytes ← Python.utf8 (joinNodes nodes)
  return Python.str (Hex.encode (L.sha256 bytes))

end Aimless
