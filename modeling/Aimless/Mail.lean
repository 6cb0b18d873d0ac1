import Aimless.Attachments

/-!
# The daemon

`node.go`, `mail.go` and `presence.go`: the outbound queues, the mailboxes with their journals, the
block list and the presence table of one daemon.  A daemon is a value of `Daemon`; an operation is
a function from the daemon before it to the daemon after it.  Maps and sets keyed by the hex form
of a public key are keyed by the key, whose hex form determines it.  Times are nanoseconds.
-/

namespace Aimless

/-- What the command line and the network fix for a daemon's lifetime. -/
structure Config where
  inboxCapacity : ℤ
  attachCap : ℤ
  retryInterval : ℤ
  probeInterval : ℤ
  mtu : ℕ
  deriving DecidableEq, Repr

def publicKeySize : ℕ := 32

/-! ### The outbound queues -/

structure Outbound where
  pub : PublicKey
  data : Bytes
  deriving DecidableEq, Repr

/-- The control queue (ACKs, status, probes, text) and the bulk queue (file chunks). -/
structure Node where
  control : List Outbound := []
  bulk : List Outbound := []
  deriving DecidableEq, Repr

def controlCap : ℕ := 64

def bulkCap : ℕ := 512

inductive SendError where
  | badKeySize (n : ℕ)
  | exceedsMtu (n mtu : ℕ)
  | queueFull
  | encode (e : EnvelopeError)
  deriving DecidableEq, Repr

/-- Appends to a queue of the given capacity, without blocking. -/
def enqueue (mtu cap : ℕ) (q : List Outbound) (pub : PublicKey) (payload : Bytes) :
    Except SendError (List Outbound) :=
  if pub.length ≠ publicKeySize then .error (.badKeySize pub.length)
  else if payload.length > mtu then .error (.exceedsMtu payload.length mtu)
  else if q.length < cap then .ok (q ++ [⟨pub, payload⟩])
  else .error .queueFull

namespace Node

def send (mtu : ℕ) (n : Node) (pub : PublicKey) (payload : Bytes) : Except SendError Node :=
  (enqueue mtu controlCap n.control pub payload).map fun q => { n with control := q }

def sendBulk (mtu : ℕ) (n : Node) (pub : PublicKey) (payload : Bytes) : Except SendError Node :=
  (enqueue mtu bulkCap n.bulk pub payload).map fun q => { n with bulk := q }

end Node

/-! ### State -/

structure StatusOut where
  seq : UInt64
  payload : Bytes
  deriving DecidableEq, Repr

structure StatusIn where
  seq : UInt64
  ts : Int64
  payload : Bytes
  attached : Bool
  deriving DecidableEq, Repr

/-- `lastSeen` is `none` for the zero time. -/
structure PeerPresence where
  lastSeen : Option ℤ := none
  statusIn : Option StatusIn := none
  statusOut : Option StatusOut := none
  deriving DecidableEq, Repr

/-- `boxes` holds, for each mailbox, the part of it that is not in the database.  `blockedFile` and
`contactsFile` are `blocked.json` and `contacts.json`. -/
structure Daemon where
  db : DB := {}
  boxes : AList fun _ : PublicKey => OutboxJournal.Sent := ∅
  blocked : List PublicKey := []
  blockedFile : List PublicKey := []
  contactsFile : List PublicKey := []
  node : Node := {}
  probeSeq : UInt64 := 0
  lastClient : Option ℤ := none
  peers : AList fun _ : PublicKey => PeerPresence := ∅

inductive MailError where
  | peerBlocked
  | seqScan
  | persist
  | send (e : SendError)
  deriving DecidableEq, Repr

/-- What the daemon broadcasts to its API connections. -/
inductive Event where
  | recv (sender : PublicKey) (seq : UInt64) (ts : Int64) (payload : Bytes)
  | recvFile (sender : PublicKey) (seq : UInt64) (ts : Int64) (payload : Bytes)
  | acked (dest : PublicKey) (seq : UInt64)
  deriving DecidableEq, Repr

/-- `UnixMilli`. -/
def unixMilli (now : ℤ) : Int64 := Int64.ofInt (now / 1000000)

namespace Daemon

variable (cfg : Config)

def isBlocked (d : Daemon) (pub : PublicKey) : Bool := pub ∈ d.blocked

/-- Creates the mailbox of a peer that has none. -/
def boxFor (d : Daemon) (peer : PublicKey) : Daemon :=
  if peer ∈ d.boxes then d else { d with boxes := d.boxes.insert peer ∅ }

def sentOf (d : Daemon) (peer : PublicKey) : OutboxJournal.Sent := (d.boxes.lookup peer).getD ∅

def inboxOf (peer : PublicKey) : InboxStore := newInboxStore peer cfg.inboxCapacity

def attachStore (peer : PublicKey) : AttachmentStore := { peer, capBytes := cfg.attachCap }

/-! ### Blocking and contacts -/

/-- `persisted` says whether writing `blocked.json` succeeded; memory changes in either case. -/
def persistBlocked (persisted : Bool) (d : Daemon) : Except MailError Unit × Daemon :=
  if persisted then (.ok (), { d with blockedFile := d.blocked }) else (.error .persist, d)

def block (persisted : Bool) (d : Daemon) (pub : PublicKey) : Except MailError Unit × Daemon :=
  if pub ∈ d.blocked then (.ok (), d)
  else persistBlocked persisted { d with blocked := d.blocked ++ [pub] }

def unblock (persisted : Bool) (d : Daemon) (pub : PublicKey) : Except MailError Unit × Daemon :=
  if pub ∉ d.blocked then (.ok (), d)
  else persistBlocked persisted { d with blocked := d.blocked.filter fun k => k ≠ pub }

/-- `Presence.keyFor`, which adds an entry for a peer that has none. -/
def keyFor (d : Daemon) (pub : PublicKey) : PeerPresence := (d.peers.lookup pub).getD {}

def presenceWatch (d : Daemon) (pub : PublicKey) : Daemon :=
  { d with peers := d.peers.insert pub (d.keyFor pub) }

def watch (persisted : Bool) (d : Daemon) (pub : PublicKey) : Except MailError Unit × Daemon :=
  if d.isBlocked pub then (.error .peerBlocked, d)
  else
    let d := d.boxFor pub
    if pub ∈ d.contactsFile then (.ok (), d.presenceWatch pub)
    else if persisted then
      (.ok (), ({ d with contactsFile := d.contactsFile ++ [pub] } : Daemon).presenceWatch pub)
    else (.error .persist, d)

/-! ### Sending -/

/-- `SendMsg` and `SendFile` up to the allocation of the seq. -/
def beginSend (d : Daemon) (dest : PublicKey) : Except MailError UInt64 × Daemon :=
  if d.isBlocked dest then (.error .peerBlocked, d)
  else
    let d := d.boxFor dest
    match OutboxJournal.nextSeq d.db dest with
    | (none, db) => (.error .seqScan, { d with db })
    | (some seq, db) => (.ok seq, { d with db })

/-- The rest of `SendMsg` and `SendFile`: the row is queued.  The flush they start is an operation
of its own. -/
def finishSend (now : ℤ) (d : Daemon) (dest : PublicKey) (seq : UInt64) (payload : Bytes)
    (typ : EnvelopeType) : Daemon :=
  { d with db := OutboxJournal.queueAs d.db dest seq (unixMilli now) payload typ }

def sendAs (typ : EnvelopeType) (now : ℤ) (d : Daemon) (dest : PublicKey) (payload : Bytes) :
    Except MailError UInt64 × Daemon :=
  match d.beginSend dest with
  | (.error e, d) => (.error e, d)
  | (.ok seq, d) => (.ok seq, d.finishSend now dest seq payload typ)

def sendMsg := sendAs typeMsg

def sendFile := sendAs typeFile

/-- `node.Send` of an encoded envelope. -/
def sendControl (d : Daemon) (dest : PublicKey) (env : Envelope) : Except SendError Unit × Daemon :=
  match env.encode with
  | .error e => (.error (.encode e), d)
  | .ok data =>
    match d.node.send cfg.mtu dest data with
    | .error e => (.error e, d)
    | .ok node => (.ok (), { d with node })

/-- The acknowledgement is sent if the queue has room; a failure to send it is ignored. -/
def sendAck (d : Daemon) (dest : PublicKey) (seq : UInt64) : Daemon :=
  match encodeAck seq with
  | .error _ => d
  | .ok data =>
    match d.node.send cfg.mtu dest data with
    | .error _ => d
    | .ok node => { d with node }

def sendProbe (now : ℤ) (d : Daemon) (dest : PublicKey) : Except SendError Unit × Daemon :=
  let d := { d with probeSeq := d.probeSeq + 1 }
  d.sendControl cfg dest
    { version := envelopeVersion, type := typeProbe, seq := d.probeSeq, ts := unixMilli now,
      payload := [] }

def sendStatus (now : ℤ) (d : Daemon) (dest : PublicKey) (seq : UInt64) (payload : Bytes) :
    Except SendError Unit × Daemon :=
  d.sendControl cfg dest
    { version := envelopeVersion, type := typeStatus, seq, ts := unixMilli now, payload }

/-- One pending entry of a flush pass.  An entry sent less than a retry interval ago is skipped,
as is one that does not encode; `stamp` gives the time at which the entry of a seq is enqueued. -/
def flushEntry (now : ℤ) (stamp : UInt64 → ℤ) (pub : PublicKey) (d : Daemon)
    (entry : JournalEntry) : Daemon :=
  if entry.sentAt > 0
      ∧ unixMilli now - entry.sentAt < Int64.ofInt (cfg.retryInterval / 1000000) then d
  else
    match Base64.decode entry.payload with
    | none => d
    | some payload =>
      let env : Envelope :=
        { version := envelopeVersion, type := entry.type, seq := entry.seq, ts := entry.ts, payload }
      match env.encode with
      | .error _ => d
      | .ok data =>
        match (if entry.type = typeFile then d.node.sendBulk cfg.mtu pub data
          else d.node.send cfg.mtu pub data) with
        | .error _ => d
        | .ok node => { d with
            node
            boxes := d.boxes.insert pub
              (OutboxJournal.markSent (d.sentOf pub) entry.seq (unixMilli (stamp entry.seq))) }

/-- The entries a flush pass goes through: none for a blocked or unknown peer. -/
def flushEntries (d : Daemon) (peer : PublicKey) : List JournalEntry :=
  if d.isBlocked peer then []
  else if peer ∉ d.boxes then []
  else OutboxJournal.pending d.db peer (d.sentOf peer)

/-- A flush pass run to its end; the guard that lets one pass run at a time is free at its start. -/
def flushPeer (now : ℤ) (stamp : UInt64 → ℤ) (d : Daemon) (peer : PublicKey) : Daemon :=
  (d.flushEntries peer).foldl (flushEntry cfg now stamp peer) d

/-- One round of the retry loop; `order` is the order in which it ranges over the mailboxes. -/
def retryRound (now : ℤ) (stamp : UInt64 → ℤ) (order : List PublicKey) (d : Daemon) : Daemon :=
  (order.filter (· ∈ d.boxes)).foldl (fun d peer =>
    if (OutboxJournal.pending d.db peer (d.sentOf peer)).length > 0 then
      d.flushPeer cfg now stamp peer
    else d) d

/-! ### Presence -/

def touchClient (now : ℤ) (d : Daemon) : Daemon := { d with lastClient := some now }

/-- Thirty seconds. -/
def clientIdle : ℤ := 30000000000

def clientPresent (now : ℤ) (d : Daemon) : Bool :=
  match d.lastClient with
  | none => false
  | some t => now - t < clientIdle

def onProbe (now : ℤ) (d : Daemon) (pub : PublicKey) : Daemon :=
  { d with peers := d.peers.insert pub { d.keyFor pub with lastSeen := some now } }

/-- An empty payload is the marker of a daemon without a client. -/
def onStatus (now : ℤ) (d : Daemon) (pub : PublicKey) (seq : UInt64) (ts : Int64)
    (payload : Bytes) : Daemon :=
  { d with peers := d.peers.insert pub { d.keyFor pub with
      lastSeen := some now
      statusIn := some { seq, ts, payload, attached := payload.length > 0 } } }

def setStatus (now : ℤ) (d : Daemon) (pub : PublicKey) (payload : Bytes) :
    Except SendError UInt64 × Daemon :=
  let seq := (((d.keyFor pub).statusOut.map (·.seq)).getD 0) + 1
  let d := { d with peers := d.peers.insert pub { d.keyFor pub with
    statusOut := some { seq, payload } } }
  let (r, d) := d.sendStatus cfg now pub seq payload
  (r.map fun _ => seq, d)

def probeOne (now : ℤ) (d : Daemon) (pub : PublicKey) : Daemon :=
  if d.isBlocked pub then d
  else
    let d := (d.sendProbe cfg now pub).2
    if ¬ d.clientPresent now then (d.sendStatus cfg now pub 0 []).2
    else
      match (d.peers.lookup pub).bind (·.statusOut) with
      | some st => (d.sendStatus cfg now pub st.seq st.payload).2
      | none => d

/-- The peers with a mailbox. -/
def buddies (d : Daemon) : List PublicKey := d.boxes.keys.filter fun k => k.length = publicKeySize

/-- One presence round; `order` is the order in which it ranges over its maps. -/
def tick (now : ℤ) (order : List PublicKey) (d : Daemon) : Daemon :=
  let targets := order.filter fun k => k ∈ d.peers ∧ k.length = publicKeySize
  let more := order.filter fun k => k ∈ d.buddies ∧ k ∉ d.peers
  (targets ++ more).foldl (probeOne cfg now) d

def pathUp (now : ℤ) (stamp : UInt64 → ℤ) (d : Daemon) (key : PublicKey) : Daemon :=
  (d.flushPeer cfg now stamp key).probeOne cfg now key

structure PresenceEntry where
  key : PublicKey
  online : Bool
  clientAttached : Bool
  statusTs : Int64
  statusPayload : Text
  deriving DecidableEq, Repr

def presenceEntry (now : ℤ) (key : PublicKey) (pp : PeerPresence) : PresenceEntry :=
  { key
    online := match pp.lastSeen with
      | none => false
      | some t => now - t < 3 * cfg.probeInterval
    clientAttached := match pp.statusIn with
      | none => true
      | some st => st.attached
    statusTs := (pp.statusIn.map (·.ts)).getD 0
    statusPayload := (pp.statusIn.map fun st => Base64.encode st.payload).getD [] }

/-- The presence of every peer that is not blocked, sorted by key. -/
def snapshot (now : ℤ) (d : Daemon) : List PresenceEntry :=
  ((d.peers.entries.filter fun e => ¬ d.isBlocked e.1).map
    fun e => presenceEntry cfg now e.1 e.2).insertionSort
      fun a b => ¬ Hex.encode b.key < Hex.encode a.key

/-! ### Receiving -/

/-- `HandlePacket`: the daemon after it and the events it broadcast. -/
def handlePacket (now : ℤ) (d : Daemon) (sender : PublicKey) (data : Bytes) :
    Daemon × List Event :=
  if d.isBlocked sender then (d, [])
  else
    match decodeEnvelope data with
    | .error _ => (d, [])
    | .ok env =>
      let d := d.boxFor sender
      if env.type = typeFile then
        match parseFileHeader env.payload with
        | none => (d, [])
        | some (tid, index, total) =>
          match (attachStore cfg sender).add d.db tid index total env.seq env.ts env.payload with
          | none => (d, [])
          | some (isNew, db) =>
            (({ d with db } : Daemon).sendAck cfg sender env.seq,
              if isNew then [.recvFile sender env.seq env.ts env.payload] else [])
      else if env.type = typeMsg then
        let (isNew, db) := (inboxOf cfg sender).add d.db env.seq env.ts env.payload
        (({ d with db } : Daemon).sendAck cfg sender env.seq,
          if isNew then [.recv sender env.seq env.ts env.payload] else [])
      else if env.type = typeAck then
        let (removed, db, sent) := OutboxJournal.ack d.db sender (d.sentOf sender) env.seq
        ({ d with db, boxes := d.boxes.insert sender sent },
          if removed then [.acked sender env.seq] else [])
      else if env.type = typeProbe then (d.onProbe now sender, [])
      else if env.type = typeStatus then (d.onStatus now sender env.seq env.ts env.payload, [])
      else (d, [])

/-! ### What the API reads, and starting again -/

structure History where
  msgs : List JournalEntry
  oldest : UInt64
  latest : UInt64
  deriving DecidableEq, Repr

def history (d : Daemon) (peer : PublicKey) (afterSeq : UInt64) : History × Daemon :=
  let box := inboxOf cfg peer
  ({ msgs := box.after d.db afterSeq, oldest := box.oldest d.db, latest := box.latest d.db },
    d.boxFor peer)

def pendingAttachments (d : Daemon) (peer : PublicKey) : List AttachPending × Daemon :=
  ((attachStore cfg peer).pending d.db, d.boxFor peer)

def fetchAttachment (d : Daemon) (peer : PublicKey) (tid : Text) : List AttachEntry × Daemon :=
  ((attachStore cfg peer).fetchTid d.db tid, d.boxFor peer)

def ackAttachment (d : Daemon) (peer : PublicKey) (tid : Text) : Daemon :=
  { d.boxFor peer with db := (attachStore cfg peer).ackTid d.db tid }

/-- `NewMail` over what a stopped daemon left on disk: a mailbox for every peer with an undelivered
row and for every contact. -/
def newMail (db : DB) (blockedFile contactsFile : List PublicKey) : Daemon :=
  let d : Daemon := { db, blocked := blockedFile, blockedFile, contactsFile }
  let d := (db.outbox.map (·.peer)).dedup.foldl boxFor d
  contactsFile.foldl boxFor d

def restart (d : Daemon) : Daemon := newMail d.db d.blockedFile d.contactsFile

end Daemon

end Aimless
