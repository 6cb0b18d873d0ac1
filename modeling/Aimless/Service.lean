import Aimless.Api
import Aimless.Store

/-!
# Conversation sync

`service.py`: a peer's history and its live events, decrypted, routed by their `conv` field and
stored.  Only `ValueError` and `KeyError` are caught, and only around `open_message`; whatever else
is raised leaves the loop with the cursor where it was.
-/

namespace Aimless

open Python (Str Exc Json Dict)

/-- `except (ValueError, KeyError)`. -/
def caught : Exc → Bool
  | .valueError => true
  | .keyError => true
  | _ => false

/-- A live `recv` event as it comes over the socket: an empty payload and a zero `seq` are left
out. -/
structure RecvEvent where
  sender : Option Text
  seq : Option UInt64
  ts : Option Int64
  payload : Option Text
  file : Bool
  deriving DecidableEq, Repr

/-- `event.get("seq", 0)`. -/
def RecvEvent.seqOrZero (ev : RecvEvent) : ℕ := (ev.seq.getD 0).toNat

/-- `DeliverMsg` and `DeliverFileMsg`. -/
def Event.toRecv : Event → Option RecvEvent
  | .recv sender seq ts payload => some (recvEvent false sender seq ts payload)
  | .recvFile sender seq ts payload => some (recvEvent true sender seq ts payload)
  | .acked _ _ => none
where
  recvEvent (file : Bool) (sender : PublicKey) (seq : UInt64) (ts : Int64) (payload : Bytes) :
      RecvEvent :=
    { sender := some (Hex.encode sender)
      seq := if seq = 0 then none else some seq
      ts := if ts = 0 then none else some ts
      payload := if payload = [] then none else some (Base64.encode payload)
      file := file }

namespace Sync

variable (L : Libs)

/-- The conversation a message names, or else the peer it came from. -/
def convOf (peer : Text) (o : Opened) : Json :=
  match o.conv with
  | some conv => if conv.truthy then conv else .str (Python.str peer)
  | none => .str (Python.str peer)

/-- One pass of the dict comprehension over a roster: `m["node"]` of something that is no dict is a
`TypeError`, and so is a key that cannot be hashed. -/
def memberNode : Json → Except Exc Json
  | .obj fields => do
    let node ← Python.getItem fields Field.node
    if node.hashable then return node else throw .typeError
  | _ => .error .typeError

/-- `{m["node"]: m for m in members}`. -/
def rosterOf : List Json → Dict → Except Exc Dict
  | [], d => .ok d
  | m :: ms, d => do
    let node ← memberNode m
    rosterOf ms (d.set node m)

/-- The roster of a message that carries one. -/
def roster (o : Opened) : Except Exc (Option Dict) :=
  match o.members with
  | none => .ok none
  | some members =>
    if members.truthy then
      match members with
      | .arr ms => (rosterOf ms []).map some
      | _ => .error .typeError
    else .ok none

/-- `if members: self.store.ensure_room(…)`. -/
def ensureMembers (st : Store) (conv : Json) : Option Dict → Except Exc Unit × Store
  | none => (.ok (), st)
  | some d => st.ensureRoom L conv d

/-- `_route`. -/
def route (st : Store) (peer : Text) (seq : ℕ) (o : Opened) : Except Exc (Json × Bool) × Store :=
  let conv := convOf peer o
  match roster o with
  | .error e => (.error e, st)
  | .ok members =>
    match ensureMembers L st conv members with
    | (.error e, st) => (.error e, st)
    | (.ok (), st) =>
      match st.ingest L conv peer seq o.ts o.text with
      | (.error e, st) => (.error e, st)
      | (.ok isNew, st) => (.ok (conv, isNew), st)

/-- The loop of `apply`: the largest seq seen and the number of new messages. -/
def applyLoop (peer : Text) : Store → List HistoryMsg → (maxSeen added : ℕ) →
    Except Exc (ℕ × ℕ) × Store
  | st, [], maxSeen, added => (.ok (maxSeen, added), st)
  | st, m :: ms, maxSeen, added =>
    let seq := m.seq.toNat
    let maxSeen := max maxSeen seq
    match openMessage L (Python.str m.payload) with
    | .error e => if caught e then applyLoop peer st ms maxSeen added else (.error e, st)
    | .ok o =>
      match route L st peer seq o with
      | (.error e, st) => (.error e, st)
      | (.ok (_, isNew), st) => applyLoop peer st ms maxSeen (if isNew then added + 1 else added)

/-- `apply`: the number of new messages. -/
def apply (st : Store) (peer : Text) (msgs : List HistoryMsg) : Except Exc ℕ × Store :=
  let after := st.cursor peer
  match applyLoop L peer st msgs after 0 with
  | (.error e, st) => (.error e, st)
  | (.ok (maxSeen, added), st) =>
    if after < maxSeen then
      match st.setCursor peer maxSeen with
      | (.error e, st) => (.error e, st)
      | (.ok (), st) => (.ok added, st)
    else (.ok added, st)

/-- `ingest_opened`. -/
def ingestOpened (st : Store) (peer : Text) (seq : ℕ) (o : Opened) :
    Except Exc (Json × Bool) × Store :=
  match route L st peer seq o with
  | (.error e, st) => (.error e, st)
  | (.ok r, st) =>
    if st.cursor peer < seq then
      match st.setCursor peer seq with
      | (.error e, st) => (.error e, st)
      | (.ok (), st) => (.ok r, st)
    else (.ok r, st)

/-- `on_event`: the conversation and whether the message is new, or `(None, False)`. -/
def onEvent (st : Store) (ev : RecvEvent) : Except Exc (Option Json × Bool) × Store :=
  match ev.sender with
  | none => (.ok (none, false), st)
  | some peer =>
    if peer = [] then (.ok (none, false), st)
    else
      match ev.payload with
      | none => (.ok (none, false), st)   -- `event["payload"]` is a `KeyError`
      | some payload =>
        match openMessage L (Python.str payload) with
        | .error e => if caught e then (.ok (none, false), st) else (.error e, st)
        | .ok o =>
          match ingestOpened L st peer ev.seqOrZero o with
          | (.error e, st) => (.error e, st)
          | (.ok (conv, isNew), st) => (.ok (some conv, isNew), st)

end Sync

end Aimless
