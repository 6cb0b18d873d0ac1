import Aimless.Protocol

/-!
# Invites and the contacts file

`protocol.py`'s invites, and the ways an entry gets into the contacts file: `cmd_add` of the
command line, `ContactsView.on_add` of the window, and `_add_contact_from_roster`.
-/

namespace Aimless

open Python (Str Exc Json CodePoint)

namespace Base58

/-- `_ALPHABET`. -/
def alphabet : Str := Python.str
  ['1', '2', '3', '4', '5', '6', '7', '8', '9', 'A', 'B', 'C', 'D', 'E', 'F', 'G', 'H', 'J', 'K',
    'L', 'M', 'N', 'P', 'Q', 'R', 'S', 'T', 'U', 'V', 'W', 'X', 'Y', 'Z', 'a', 'b', 'c', 'd', 'e',
    'f', 'g', 'h', 'i', 'j', 'k', 'm', 'n', 'o', 'p', 'q', 'r', 's', 't', 'u', 'v', 'w', 'x', 'y',
    'z']

/-- `int.from_bytes(data, "big")`. -/
def fromBytes (data : Bytes) : ℕ := data.foldl (fun n b => n * 256 + b.toNat) 0

/-- `b58encode`: a leading zero byte is a `1`. -/
def b58encode (data : Bytes) : Str :=
  List.replicate (data.takeWhile (· = 0)).length (Python.codePoint '1') ++
    (Nat.digits 58 (fromBytes data)).reverse.map fun r => alphabet.getD r (Python.codePoint '1')

/-- The number that digits spell, after those that gave `n`; a character outside the alphabet ends
the reading. -/
def number : ℕ → Str → Except CodePoint ℕ
  | n, [] => .ok n
  | n, c :: rest =>
    match alphabet.idxOf? c with
    | none => .error c
    | some d => number (n * 58 + d) rest

/-- `b58decode`: a leading `1` is a zero byte. -/
def b58decode (s : Str) : Except CodePoint Bytes :=
  match number 0 s with
  | .error c => .error c
  | .ok n =>
    .ok (List.replicate (s.takeWhile (· = Python.codePoint '1')).length 0 ++
      (Nat.digits 256 n).reverse.map UInt8.ofNat)

end Base58

/-- The two keys of an invite, as its errors name them. -/
inductive KeyLabel where
  | client
  | node
  deriving DecidableEq, Repr

/-- The `ValueError`s of `parse_invite`. -/
inductive InviteError where
  | badStart
  | badParts
  | hexLength (label : KeyLabel)
  | notBase58 (label : KeyLabel) (c : CodePoint)
  | keyLength (label : KeyLabel)
  | missingScreen
  deriving DecidableEq, Repr

def decodeKeyField (field : Str) (label : KeyLabel) : Except InviteError Bytes :=
  if field.length = 64 ∧ field.all fun c => (Python.hexDigit c).isSome then
    match Python.fromHex field with
    | .error _ => .error (.hexLength label)
    | .ok key => if key.length ≠ 32 then .error (.hexLength label) else .ok key
  else
    match Base58.b58decode field with
    | .error c => .error (.notBase58 label c)
    | .ok key => if key.length ≠ 32 then .error (.keyLength label) else .ok key

/-- What an invite says: the two keys in hex, and a name that its author chose. -/
structure Invite where
  client : Str
  node : Str
  screen : Str
  deriving DecidableEq, Repr

/-- `INVITE_PREFIX`. -/
def inviteStart : Str := Python.str ['a', 'i', 'm', 'l', 'e', 's', 's', '1', ':']

def parseInvite (invite : Str) : Except InviteError Invite := do
  let invite := Python.strip invite
  if inviteStart.isPrefixOf invite = false then throw .badStart
  match (invite.drop inviteStart.length).splitOn (Python.codePoint ':') with
  | [clientField, nodeField, screen] =>
    let client ← decodeKeyField clientField .client
    let node ← decodeKeyField nodeField .node
    if screen = [] then throw .missingScreen
    return ⟨Python.str (Hex.encode client), Python.str (Hex.encode node), screen⟩
  | _ => throw .badParts

/-- `make_invite`, for the client key of an identity. -/
def makeInvite (client : Bytes) (nodeHex screen : Str) : Except Exc Str := do
  let node ← Python.fromHex nodeHex
  return inviteStart ++ Base58.b58encode client ++ Python.str [':'] ++ Base58.b58encode node
    ++ Python.str [':'] ++ screen

def anonymous : Str := Python.str ['a', 'n', 'o', 'n', 'y', 'm', 'o', 'u', 's']

/-- The screen name that `cmd_init` stores for what was typed. -/
def initScreen (typed : Str) : Str :=
  if Python.strip typed = [] then anonymous else Python.strip typed

/-- The screen name that `create_identity` stores for what was typed. -/
def createScreen (typed : Str) : Str := if typed = [] then anonymous else typed

abbrev Entries := List (Str × Json)

/-- The dict of the contacts file: no name has two entries. -/
structure Contacts where
  entries : Entries
  nodup : (entries.map Prod.fst).Nodup

namespace Contacts

def empty : Contacts := ⟨[], List.nodup_nil⟩

def get? (cs : Contacts) (k : Str) : Option Json := Python.get? cs.entries k

def set (cs : Contacts) (k : Str) (v : Json) : Contacts where
  entries := Python.setItem cs.entries k v
  nodup := Python.nodup_setItem cs.nodup k v

end Contacts

/-- The contacts file, as `json.load` finds it. -/
inductive ContactsFile where
  | absent
  | broken (e : Exc)
  | noDict
  | holds (cs : Contacts)

/-- The name under which the contacts file has the client's own entry. -/
def selfName : Str := Python.str ['_', 's', 'e', 'l', 'f']

/-- `load_contacts` with the first use of what it gives; a value that is no dict fails there with
`misuse`. -/
def loadContacts (misuse : Exc) : ContactsFile → Except Exc Contacts
  | .absent => .ok .empty
  | .broken e => .error e
  | .noDict => .error misuse
  | .holds cs => .ok cs

/-- `save_contacts` replaces the file whole; the exception of a write that fails leaves it. -/
def saveContacts (fault : Option Exc) (file : ContactsFile) (cs : Contacts) :
    Except Exc Unit × ContactsFile :=
  match fault with
  | some e => (.error e, file)
  | none => (.ok (), .holds cs)

/-- How adding a contact ends, with the name that the user is told. -/
inductive AddEnd where
  | refused (e : InviteError)
  | ownInvite
  | rerouted (told : Str)
  | known (told : Str)
  | added (screen told : Str)
  | raised (e : Exc)
  deriving DecidableEq, Repr

/-- The entry that is written for a new contact. -/
def contactEntry (pubkey node : Json) (screen : Str) : Json :=
  .obj [(Field.pubkey, pubkey), (Field.node, node), (Field.screen, .str screen)]

/-- The first contact that has the public key; a value before it that is no dict has no `get`. -/
def findContact (client : Str) : Entries → Except Exc (Option (Str × Entries))
  | [] => .ok none
  | (k, c) :: rest =>
    if k = selfName then findContact client rest
    else
      match c with
      | .obj fields =>
        if (Python.get? fields Field.pubkey).any (·.eqStr client) then .ok (some (k, fields))
        else findContact client rest
      | _ => .error .attributeError

/-- The part that `cmd_add` and `on_add` share: a contact that is known is routed to the invite's
node, a new one is written under `name`. `told` is the name that each of them says for a known
contact. -/
def enterContact (fault : Option Exc) (inv : Invite) (name : Str) (told : Str → Str)
    (file : ContactsFile) (cs : Contacts) : AddEnd × ContactsFile :=
  match findContact inv.client cs.entries with
  | .error e => (.raised e, file)
  | .ok (some (k, fields)) =>
    if (Python.get? fields Field.node).any (·.eqStr inv.node) then (.known (told k), file)
    else
      match saveContacts fault file
        (cs.set k (.obj (Python.setItem fields Field.node (.str inv.node)))) with
      | (.error e, file) => (.raised e, file)
      | (.ok (), file) => (.rerouted (told k), file)
  | .ok none =>
    match saveContacts fault file
      (cs.set name (contactEntry (.str inv.client) (.str inv.node) inv.screen)) with
    | (.error e, file) => (.raised e, file)
    | (.ok (), file) => (.added inv.screen name, file)

/-- `contacts.get("_self", {})`, of which the caller takes a field. -/
def selfFields (cs : Contacts) : Except Exc Entries :=
  match cs.get? selfName with
  | none => .ok []
  | some (.obj fields) => .ok fields
  | some _ => .error .attributeError

/-- The client's own public key at the start of `cmd_add`.  One that `_self` lacks is taken from
the identity file, where there is one, and saved. -/
def ownPubkey (identity : Option (Except Exc Bytes)) (fault : Option Exc) (file : ContactsFile)
    (cs : Contacts) : Except Exc (Option Json × Contacts) × ContactsFile :=
  match selfFields cs with
  | .error e => (.error e, file)
  | .ok fields =>
    if (Python.get? fields Field.pubkey).any (·.truthy) then
      (.ok (Python.get? fields Field.pubkey, cs), file)
    else
      match identity with
      | none => (.ok (Python.get? fields Field.pubkey, cs), file)
      | some (.error e) => (.error e, file)
      | some (.ok key) =>
        let pubkey := Json.str (Python.str (Hex.encode key))
        let cs := cs.set selfName (.obj (Python.setItem fields Field.pubkey pubkey))
        match saveContacts fault file cs with
        | (.error e, file) => (.error e, file)
        | (.ok (), file) => (.ok (some pubkey, cs), file)

/-- `args.petname or screen`. -/
def Invite.nameOr (inv : Invite) (petname : Str) : Str :=
  if petname = [] then inv.screen else petname

/-- `identity` is what `load_identity` gives, where the identity file exists, and `migrateFault`
and `fault` are what the two writes raise. -/
def cmdAdd (identity : Option (Except Exc Bytes)) (migrateFault fault : Option Exc)
    (file : ContactsFile) (invite : Str) (petname : Option Str) : AddEnd × ContactsFile :=
  match parseInvite invite with
  | .error e => (.refused e, file)
  | .ok inv =>
    match loadContacts .attributeError file with
    | .error e => (.raised e, file)
    | .ok cs =>
      match ownPubkey identity migrateFault file cs with
      | (.error e, file) => (.raised e, file)
      | (.ok (own, cs), file) =>
        if own.any fun pk => pk.truthy ∧ pk.eqStr inv.client then (.ownInvite, file)
        else
          let name := inv.nameOr (petname.getD [])
          enterContact fault inv name (fun _ => name) file cs

/-- `pubkey` is the session's own key. -/
def onAdd (pubkey : Str) (fault : Option Exc) (file : ContactsFile) (inviteText petnameText : Str) :
    AddEnd × ContactsFile :=
  let petname := Python.strip petnameText
  match parseInvite (Python.strip inviteText) with
  | .error e => (.refused e, file)
  | .ok inv =>
    if inv.client = pubkey then (.ownInvite, file)
    else
      match loadContacts .attributeError file with
      | .error e => (.raised e, file)
      | .ok cs => enterContact fault inv (inv.nameOr petname) id file cs

/-- The names that `_free_petname` tries, in order: the base, then the base with 2, 3, ... -/
def nthPetname (base : Str) (n : ℕ) : Str :=
  if n = 0 then base else base ++ Python.str [' '] ++ Python.decimal (n + 1)

/-- The loop of `_free_petname` from the `n`-th name on, for at most `fuel` more. -/
def freePetnameFrom (cs : Contacts) (base : Str) : ℕ → ℕ → Str
  | 0, n => nthPetname base n
  | fuel + 1, n =>
    if (cs.get? (nthPetname base n)).isSome then freePetnameFrom cs base fuel (n + 1)
    else nthPetname base n

/-- `_free_petname`: there are more names to try than contacts. -/
def freePetname (cs : Contacts) (base : Str) : Str :=
  freePetnameFrom cs base cs.entries.length 0

/-- `_add_contact_from_roster`, with the petname it returns. -/
def addContactFromRoster (fault : Option Exc) (file : ContactsFile) (node : Str) (pubkey : Json)
    (screen : Str) : Except Exc Str × ContactsFile :=
  match loadContacts .typeError file with
  | .error e => (.error e, file)
  | .ok cs =>
    let shown := if screen = [] then node.take 8 else screen
    let petname := freePetname cs shown
    match saveContacts fault file (cs.set petname (contactEntry pubkey (.str node) shown)) with
    | (.error e, file) => (.error e, file)
    | (.ok (), file) => (.ok petname, file)

end Aimless
