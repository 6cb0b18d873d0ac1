import Aimless.Protocol

/-!
# Restoring a backup

`restore_bundle` writes the identity file, `node.key` and the contacts file of a decrypted bundle,
one after the other.  Who reads the first two is modelled too: `load_identity` of the client and
`LoadOrCreateKey` of the daemon.
-/

namespace Aimless

open Python (Str Exc Json)

namespace Field

def identitySeed : Str :=
  Python.str ['i', 'd', 'e', 'n', 't', 'i', 't', 'y', 'S', 'e', 'e', 'd']
def nodeSeed : Str := Python.str ['n', 'o', 'd', 'e', 'S', 'e', 'e', 'd']
def contacts : Str := Python.str ['c', 'o', 'n', 't', 'a', 'c', 't', 's']
def salt : Str := Python.str ['s', 'a', 'l', 't']
def ct : Str := Python.str ['c', 't']
def v : Str := Python.str ['v']
def kdf : Str := Python.str ['k', 'd', 'f']
def n : Str := Python.str ['n']
def r : Str := Python.str ['r']
def p : Str := Python.str ['p']

end Field

/-- What the client calls outside this repository to lock a file: `hashlib.scrypt` with the
parameters of `kdf_key`, and `nacl.secret.SecretBox`. -/
structure Locks where
  scrypt : (passphrase salt : Bytes) → Bytes
  encrypt : (key nonce message : Bytes) → Bytes
  decrypt : (key ciphertext : Bytes) → Option Bytes

/-- A file that is read as JSON. -/
inductive JsonFile where
  | absent
  | broken (content : Bytes)
  | holds (v : Json)

/-- The files that a bundle is restored to. -/
structure Disk where
  identity : JsonFile
  nodeKey : Option Text
  contacts : JsonFile

/-- What each of the three writes raises, where it fails.  Each one writes a file next to the
target and renames it, so that a write that fails leaves the target. -/
structure WriteFaults where
  identity : Option Exc
  nodeKey : Option Exc
  contacts : Option Exc

def replaceFile {α : Type} (fault : Option Exc) (old new : α) : Except Exc Unit × α :=
  match fault with
  | some e => (.error e, old)
  | none => (.ok (), new)

def kdfKey (K : Locks) (passphrase : Str) (salt : Bytes) : Except Exc Bytes := do
  return K.scrypt (← Python.utf8 passphrase) salt

/-- What `save_identity` writes; `KDF_N`, `KDF_R` and `KDF_P` are recorded with it. -/
def identityFields (salt ct : Bytes) : List (Str × Json) :=
  [(Field.v, .int 1), (Field.kdf, .str (Python.str ['s', 'c', 'r', 'y', 'p', 't'])),
    (Field.n, .int (2 ^ 15)), (Field.r, .int 8), (Field.p, .int 1),
    (Field.salt, .str (Python.str (Base64.encode salt))),
    (Field.ct, .str (Python.str (Base64.encode ct)))]

/-- `save_identity`, with the salt and the nonce that it draws. -/
def saveIdentity (K : Locks) (salt nonce : Bytes) (fault : Option Exc) (seed : Bytes)
    (passphrase : Str) (file : JsonFile) : Except Exc Unit × JsonFile :=
  match kdfKey K passphrase salt with
  | .error e => (.error e, file)
  | .ok key =>
    replaceFile fault file (.holds (.obj (identityFields salt (K.encrypt key nonce seed))))

/-- `base64.b64decode(v)`. -/
def b64Value : Json → Except Exc Bytes
  | .str s => Python.b64decode s
  | _ => .error .typeError

def loadIdentity (K : Locks) (file : JsonFile) (passphrase : Str) : Except Exc Bytes :=
  match file with
  | .absent => .error .osError
  | .broken _ => .error .valueError
  | .holds (.obj data) => do
    let salt ← b64Value (← Python.getItem data Field.salt)
    let ct ← b64Value (← Python.getItem data Field.ct)
    let key ← kdfKey K passphrase salt
    match K.decrypt key ct with
    | none => throw .valueError
    | some seed => if seed.length ≠ 32 then throw .valueError else return seed
  | .holds _ => .error .typeError

def writeNodeKey (fault : Option Exc) (seed : Bytes) (file : Option Text) :
    Except Exc Unit × Option Text :=
  replaceFile fault file (some (Hex.encode seed ++ ['\n']))

/-- Go's `unicode.IsSpace`. -/
def goSpace (c : Char) : Bool :=
  (9 ≤ c.toNat ∧ c.toNat ≤ 13) ∨ c.toNat = 32 ∨ c.toNat = 0x85 ∨ c.toNat = 0xA0 ∨
    c.toNat = 0x1680 ∨ (0x2000 ≤ c.toNat ∧ c.toNat ≤ 0x200A) ∨ c.toNat = 0x2028 ∨
    c.toNat = 0x2029 ∨ c.toNat = 0x202F ∨ c.toNat = 0x205F ∨ c.toNat = 0x3000

/-- Go's `strings.TrimSpace`. -/
def trimSpace (t : Text) : Text := (t.dropWhile goSpace).rdropWhile goSpace

inductive KeyFileError where
  | decode (e : Hex.DecodeError)
  | wrongSize (n : ℕ)
  deriving DecidableEq, Repr

/-- `LoadOrCreateKey`, where the data directory can be read and written: the seed of the key, and
the key file afterwards.  `generated` is the seed of a new key. -/
def loadOrCreateKey (generated : Bytes) (file : Option Text) :
    Except KeyFileError Bytes × Option Text :=
  match file with
  | none => (.ok generated, some (Hex.encode generated ++ ['\n']))
  | some t =>
    match Hex.decode (trimSpace t) with
    | .error e => (.error (.decode e), file)
    | .ok seed => if seed.length ≠ 32 then (.error (.wrongSize seed.length), file)
      else (.ok seed, file)

/-- The identity seed of a bundle, as it is checked before anything is written. -/
def bundleSeed (data : List (Str × Json)) : Except Exc Bytes := do
  let seed ← hexValue ((Python.get? data Field.identitySeed).getD (.str []))
  if seed.length ≠ 32 then throw .valueError
  return seed

/-- The second part of `restore_bundle`: `node.key`, where the bundle has a value for it. -/
def restoreNodeKey (fault : Option Exc) (data : List (Str × Json)) (d : Disk) :
    Except Exc Unit × Disk :=
  match Python.get? data Field.nodeSeed with
  | none => (.ok (), d)
  | some v =>
    if v.truthy = false then (.ok (), d)
    else
      match hexValue v with
      | .error e => (.error e, d)
      | .ok seed =>
        let (r, file) := writeNodeKey fault seed d.nodeKey
        (r, { d with nodeKey := file })

/-- The third part of `restore_bundle`: the contacts file, where the bundle has contacts. -/
def restoreContacts (fault : Option Exc) (data : List (Str × Json)) (d : Disk) :
    Except Exc Unit × Disk :=
  match Python.get? data Field.contacts with
  | none => (.ok (), d)
  | some v =>
    if v.truthy = false then (.ok (), d)
    else
      let (r, file) := replaceFile fault d.contacts (.holds v)
      (r, { d with contacts := file })

/-- `restore_bundle` from the decrypted bundle on. -/
def restoreBundle (K : Locks) (salt nonce : Bytes) (faults : WriteFaults)
    (data : List (Str × Json)) (appPassphrase : Str) (d : Disk) :
    Except Exc (List (Str × Json)) × Disk :=
  match bundleSeed data with
  | .error e => (.error e, d)
  | .ok seed =>
    match saveIdentity K salt nonce faults.identity seed appPassphrase d.identity with
    | (.error e, file) => (.error e, { d with identity := file })
    | (.ok (), file) =>
      match restoreNodeKey faults.nodeKey data { d with identity := file } with
      | (.error e, d) => (.error e, d)
      | (.ok (), d) =>
        match restoreContacts faults.contacts data d with
        | (.error e, d) => (.error e, d)
        | (.ok (), d) => (.ok data, d)

end Aimless
