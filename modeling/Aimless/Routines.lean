import Aimless.Api
import Aimless.Persist
import Aimless.Lib.Threads

/-!
# The daemon in its critical sections

`api.go`, `mail.go` and `presence.go` once more, cut where the source gives up its locks: a section
is what runs under `m.mu` or `p.mu`, one transaction or query, one entry into a queue, or one file
operation.  The goroutines of a daemon interleave between these.  A routine that nothing interrupts
does what the function of `Daemon` under the same name does.
-/

namespace Aimless

/-- What the goroutines share: the daemon with its two files, and the `.tmp` beside each. -/
structure Shared where
  daemon : Daemon := {}
  tmp : FileName → Option (List PublicKey) := fun _ => none

/-- What a section takes from outside: the clock, whether a file operation succeeds, and the order
in which a map is ranged over. -/
structure Outside where
  now : ℤ
  persisted : Bool
  order : List PublicKey

abbrev Routine := Thread Shared Outside

/-- A file is replaced by another. -/
def Daemon.replaced (d : Daemon) (keys : List PublicKey) : FileName → Daemon
  | .contacts => { d with contactsFile := keys }
  | .blocked => { d with blockedFile := keys }

namespace Routine

variable {α : Type}

/-- A section that has no part in the files. -/
def locked (f : Outside → Daemon → α × Daemon) : Routine α :=
  .atomic fun o s => ((f o s.daemon).1, { s with daemon := (f o s.daemon).2 })

/-- A section that changes nothing. -/
def query (f : Daemon → α) : Routine α := locked fun _ d => (f d, d)

/-- A section that returns nothing. -/
def update (f : Outside → Daemon → Daemon) : Routine Unit := locked fun o d => ((), f o d)

variable (cfg : Config)

def isBlocked (pub : PublicKey) : Routine Bool := query (·.isBlocked pub)

def boxFor (peer : PublicKey) : Routine Unit := update fun _ d => d.boxFor peer

/-! ### Files -/

/-- `os.WriteFile` of the `.tmp`; a write that fails leaves it. -/
def writeTmp (f : FileName) (keys : List PublicKey) : Routine Bool :=
  .atomic fun o s =>
    if o.persisted then (true, { s with tmp := Function.update s.tmp f (some keys) })
    else (false, s)

/-- `os.Rename`, which there must be a `.tmp` for. -/
def rename (f : FileName) : Routine Bool :=
  .atomic fun o s =>
    match s.tmp f with
    | none => (false, s)
    | some keys =>
      if o.persisted then
        (true, { daemon := s.daemon.replaced keys f, tmp := Function.update s.tmp f none })
      else (false, s)

def replaceFile (f : FileName) (keys : List PublicKey) : Routine (Except MailError Unit) := do
  if ← writeTmp f keys then
    if ← rename f then return .ok ()
    else return .error .persist
  else return .error .persist

/-- A change under the lock comes with a copy of the new list; there is none if nothing changes. -/
def changeBlocked (f : Daemon → Option (List PublicKey)) : Routine (Except MailError Unit) := do
  match ← locked fun _ d =>
      match f d with
      | none => (none, d)
      | some blocked => (some blocked, { d with blocked }) with
  | none => return .ok ()
  | some blocked => replaceFile .blocked blocked

def block (pub : PublicKey) : Routine (Except MailError Unit) :=
  changeBlocked fun d => if d.isBlocked pub then none else some (d.blocked ++ [pub])

def unblock (pub : PublicKey) : Routine (Except MailError Unit) :=
  changeBlocked fun d =>
    if ¬ d.isBlocked pub then none else some (d.blocked.filter fun k => k ≠ pub)

def presenceWatch (pub : PublicKey) : Routine Unit := update fun _ d => d.presenceWatch pub

def watch (pub : PublicKey) : Routine (Except MailError Unit) := do
  if ← isBlocked pub then return .error .peerBlocked
  else
    boxFor pub
    let contacts ← query (·.contactsFile)
    if contacts.any fun k => k = pub then
      presenceWatch pub
      return .ok ()
    else
      match ← replaceFile .contacts (contacts ++ [pub]) with
      | .error e => return .error e
      | .ok () =>
        presenceWatch pub
        return .ok ()

/-! ### Mail -/

def nextSeq (dest : PublicKey) : Routine (Option UInt64) :=
  locked fun _ d =>
    let (seq, db) := OutboxJournal.nextSeq d.db dest
    (seq, { d with db })

/-- `SendMsg` and `SendFile`.  The flush they start is another goroutine. -/
def sendAs (typ : EnvelopeType) (dest : PublicKey) (payload : Bytes) :
    Routine (Except MailError UInt64) := do
  if ← isBlocked dest then return .error .peerBlocked
  else
    boxFor dest
    match ← nextSeq dest with
    | none => return .error .seqScan
    | some seq =>
      update fun o d => d.finishSend o.now dest seq payload typ
      return .ok seq

def history (peer : PublicKey) (afterSeq : UInt64) : Routine Daemon.History := do
  boxFor peer
  let box := Daemon.inboxOf cfg peer
  let msgs ← query fun d => box.after d.db afterSeq
  let oldest ← query fun d => box.oldest d.db
  let latest ← query fun d => box.latest d.db
  return { msgs, oldest, latest }

def pendingAttachments (peer : PublicKey) : Routine (List AttachPending) := do
  boxFor peer
  query fun d => (Daemon.attachStore cfg peer).pending d.db

def fetchAttachment (peer : PublicKey) (tid : Text) : Routine (List AttachEntry) := do
  boxFor peer
  query fun d => (Daemon.attachStore cfg peer).fetchTid d.db tid

def ackAttachment (peer : PublicKey) (tid : Text) : Routine Unit := do
  boxFor peer
  update fun _ d => { d with db := (Daemon.attachStore cfg peer).ackTid d.db tid }

/-! ### Presence -/

def setStatus (pub : PublicKey) (payload : Bytes) : Routine (Except SendError UInt64) := do
  let seq ← locked fun _ d =>
    let seq := (((d.keyFor pub).statusOut.map (·.seq)).getD 0) + 1
    (seq, { d with peers := d.peers.insert pub { d.keyFor pub with
      statusOut := some { seq, payload } } })
  let r ← locked fun o d => d.sendStatus cfg o.now pub seq payload
  return r.map fun _ => seq

/-- The entries whose peer is not blocked; whether it is, is a section for each. -/
def unblocked : List Daemon.PresenceEntry → Routine (List Daemon.PresenceEntry)
  | [] => return []
  | e :: entries => do
    let blocked ← isBlocked e.key
    let rest ← unblocked entries
    return if blocked then rest else e :: rest

/-- `Snapshot`, which holds `p.mu` throughout; here its entries are read at the start. -/
def snapshot : Routine (List Daemon.PresenceEntry) := do
  let entries ← locked fun o d =>
    ((d.peers.entries.insertionSort fun e e' => o.order.idxOf e.1 ≤ o.order.idxOf e'.1).map
      fun e => Daemon.presenceEntry cfg o.now e.1 e.2, d)
  let shown ← unblocked entries
  return shown.insertionSort fun a b => ¬ Hex.encode b.key < Hex.encode a.key

/-! ### Requests -/

def handleSend (typ : EnvelopeType) (dest payload : Text) : Routine Reply :=
  match decodeKey dest with
  | .error e => return .error e
  | .ok key =>
    match Base64.decode payload with
    | none => return .error .badPayloadBase64
    | some bytes => do
      match ← sendAs typ key bytes with
      | .error e => return .error (.sendFailed e)
      | .ok seq => return .queued dest seq bytes.length

def handleHistory (sender : Text) (seq : UInt64) : Routine Reply :=
  match decodeKey sender with
  | .error e => return .error e
  | .ok key => do
    let h ← history cfg key seq
    return .history sender (h.msgs.map fun e => ⟨e.seq, e.ts, e.payload⟩) h.oldest h.latest

def handlePendingAttachments (sender : Text) : Routine Reply :=
  match decodeFromKey sender with
  | .error e => return .error e
  | .ok key => return .pendingattachments sender (← pendingAttachments cfg key)

def handleFetchAttachment (sender tid : Text) : Routine Reply :=
  match decodeFromKey sender with
  | .error e => return .error e
  | .ok key =>
    if tid = [] then return .error .missingTid
    else return .fetchattachment sender tid (← fetchAttachment cfg key tid)

def handleAckFile (sender tid : Text) : Routine Reply :=
  match decodeFromKey sender with
  | .error e => return .error e
  | .ok key =>
    if tid = [] then return .error .missingTid
    else do
      ackAttachment cfg key tid
      return .ackfile sender tid

def handleWatch (dest : Text) : Routine Reply :=
  match decodeKey dest with
  | .error e => return .error e
  | .ok key => do
    match ← watch key with
    | .error e => return .error (.watchFailed e)
    | .ok () => return .watching dest

def handleSetStatus (dest payload : Text) : Routine Reply :=
  match decodeKey dest with
  | .error e => return .error e
  | .ok key => do
    if ← isBlocked key then return .error .peerIsBlocked
    else
      match Base64.decode payload with
      | none => return .error .badPayloadBase64
      | some bytes =>
        match ← setStatus cfg key bytes with
        | .error e => return .error (.setstatusFailed e)
        | .ok seq => return .statusset dest seq

def handleBlock (dest : Text) (isBlock : Bool) : Routine Reply :=
  match decodeKey dest with
  | .error e => return .error e
  | .ok key =>
    if isBlock then do
      match ← block key with
      | .error e => return .error (.blockFailed e)
      | .ok () => return .blocked dest
    else do
      match ← unblock key with
      | .error e => return .error (.unblockFailed e)
      | .ok () => return .unblocked dest

/-- `dispatch`, up to the writing of the reply. -/
def dispatch (req : Request) : Routine Reply := do
  update fun o d => d.touchClient o.now
  match req with
  | .whoami => return .whoami
  | .status => return .status cfg.mtu
  | .send dest payload => handleSend typeMsg dest payload
  | .sendfile dest payload => handleSend typeFile dest payload
  | .history sender seq => handleHistory cfg sender seq
  | .pendingattachments sender => handlePendingAttachments cfg sender
  | .fetchattachment sender tid => handleFetchAttachment cfg sender tid
  | .ackfile sender tid => handleAckFile cfg sender tid
  | .presence => return .presence (← snapshot cfg)
  | .watch dest => handleWatch dest
  | .setstatus dest payload => handleSetStatus cfg dest payload
  | .block dest => handleBlock dest true
  | .unblock dest => handleBlock dest false
  | .blocklist => return .blocklist (← query (·.sortedBlockedLocked))
  | .missing => return .error .missingOp
  | .unknown op => return .error (.unknownOp op)

/-! ### Packets -/

def sendAck (dest : PublicKey) (seq : UInt64) : Routine Unit :=
  update fun _ d => d.sendAck cfg dest seq

def addChunk (peer : PublicKey) (tid : Text) (index total : UInt16) (env : Envelope) :
    Routine (Option Bool) :=
  locked fun _ d =>
    match (Daemon.attachStore cfg peer).add d.db tid index total env.seq env.ts env.payload with
    | none => (none, d)
    | some (isNew, db) => (some isNew, { d with db })

def addMessage (peer : PublicKey) (env : Envelope) : Routine Bool :=
  locked fun _ d =>
    let (isNew, db) := (Daemon.inboxOf cfg peer).add d.db env.seq env.ts env.payload
    (isNew, { d with db })

/-- `Ack`: the row is deleted, and then its stamp. -/
def ack (peer : PublicKey) (seq : UInt64) : Routine Bool := do
  let removed ← locked fun _ d =>
    let (removed, db, _) := OutboxJournal.ack d.db peer (d.sentOf peer) seq
    (removed, { d with db })
  update fun _ d => { d with boxes := d.boxes.insert peer ((d.sentOf peer).erase seq) }
  return removed

/-- `HandlePacket`, up to the broadcast of the events. -/
def handlePacket (sender : PublicKey) (data : Bytes) : Routine (List Event) := do
  if ← isBlocked sender then return []
  else
    match decodeEnvelope data with
    | .error _ => return []
    | .ok env =>
      boxFor sender
      if env.type = typeFile then
        match parseFileHeader env.payload with
        | none => return []
        | some (tid, index, total) =>
          match ← addChunk cfg sender tid index total env with
          | none => return []
          | some isNew =>
            sendAck cfg sender env.seq
            return if isNew then [.recvFile sender env.seq env.ts env.payload] else []
      else if env.type = typeMsg then
        let isNew ← addMessage cfg sender env
        sendAck cfg sender env.seq
        return if isNew then [.recv sender env.seq env.ts env.payload] else []
      else if env.type = typeAck then
        let removed ← ack sender env.seq
        return if removed then [.acked sender env.seq] else []
      else if env.type = typeProbe then
        update fun o d => d.onProbe o.now sender
        return []
      else if env.type = typeStatus then
        update fun o d => d.onStatus o.now sender env.seq env.ts env.payload
        return []
      else return []

end Routine

end Aimless
