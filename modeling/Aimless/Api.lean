import Aimless.Mail

/-!
# The local API and the daemon's operations

`api.go`: the requests a client makes over the socket and the replies to them; and `Op`, everything
that can happen to a running daemon, one operation at a time.
-/

namespace Aimless

/-- A request line, by its `op`; keys are hex text and payloads base64 text, as they arrive. -/
inductive Request where
  | whoami
  | status
  | send (dest payload : Text)
  | sendfile (dest payload : Text)
  | history (sender : Text) (seq : UInt64)
  | pendingattachments (sender : Text)
  | fetchattachment (sender tid : Text)
  | ackfile (sender tid : Text)
  | presence
  | watch (dest : Text)
  | setstatus (dest payload : Text)
  | block (dest : Text)
  | unblock (dest : Text)
  | blocklist
  | missing
  | unknown (op : Text)
  deriving DecidableEq, Repr

/-- The texts of the error replies; what a library reports about its input is carried along. -/
inductive ApiError where
  | badKeyHex (e : Hex.DecodeError)
  | keyLength
  | badFromKey
  | badPayloadBase64
  | missingTid
  | peerIsBlocked
  | sendFailed (e : MailError)
  | watchFailed (e : MailError)
  | setstatusFailed (e : SendError)
  | blockFailed (e : MailError)
  | unblockFailed (e : MailError)
  | missingOp
  | unknownOp (op : Text)
  deriving DecidableEq, Repr

structure HistoryMsg where
  seq : UInt64
  ts : Int64
  payload : Text
  deriving DecidableEq, Repr

inductive Reply where
  | error (e : ApiError)
  | whoami
  | status (mtu : ℕ)
  | queued (dest : Text) (seq : UInt64) (bytes : ℕ)
  | history (sender : Text) (msgs : List HistoryMsg) (oldest latest : UInt64)
  | pendingattachments (sender : Text) (transfers : List AttachPending)
  | fetchattachment (sender tid : Text) (chunks : List AttachEntry)
  | ackfile (sender tid : Text)
  | presence (entries : List Daemon.PresenceEntry)
  | watching (dest : Text)
  | statusset (dest : Text) (seq : UInt64)
  | blocked (dest : Text)
  | unblocked (dest : Text)
  | blocklist (keys : List PublicKey)
  deriving DecidableEq, Repr

/-- The key a request names: hex of 32 bytes. -/
def decodeKey (t : Text) : Except ApiError PublicKey :=
  match Hex.decode t with
  | .error e => .error (.badKeyHex e)
  | .ok key => if key.length ≠ publicKeySize then .error .keyLength else .ok key

/-- As `decodeKey`, with the one error text of the attachment requests. -/
def decodeFromKey (t : Text) : Except ApiError PublicKey :=
  match decodeKey t with
  | .error _ => .error .badFromKey
  | .ok key => .ok key

namespace Daemon

variable (cfg : Config) (now : ℤ)

def handleSend (d : Daemon) (typ : EnvelopeType) (dest payload : Text) : Reply × Daemon :=
  match decodeKey dest with
  | .error e => (.error e, d)
  | .ok key =>
    match Base64.decode payload with
    | none => (.error .badPayloadBase64, d)
    | some bytes =>
      match d.sendAs typ now key bytes with
      | (.error e, d) => (.error (.sendFailed e), d)
      | (.ok seq, d) => (.queued dest seq bytes.length, d)

def handleHistory (d : Daemon) (sender : Text) (seq : UInt64) : Reply × Daemon :=
  match decodeKey sender with
  | .error e => (.error e, d)
  | .ok key =>
    let (h, d) := d.history cfg key seq
    (.history sender (h.msgs.map fun e => ⟨e.seq, e.ts, e.payload⟩) h.oldest h.latest, d)

def handlePendingAttachments (d : Daemon) (sender : Text) : Reply × Daemon :=
  match decodeFromKey sender with
  | .error e => (.error e, d)
  | .ok key =>
    let (transfers, d) := d.pendingAttachments cfg key
    (.pendingattachments sender transfers, d)

def handleFetchAttachment (d : Daemon) (sender tid : Text) : Reply × Daemon :=
  match decodeFromKey sender with
  | .error e => (.error e, d)
  | .ok key =>
    if tid = [] then (.error .missingTid, d)
    else
      let (chunks, d) := d.fetchAttachment cfg key tid
      (.fetchattachment sender tid chunks, d)

def handleAckFile (d : Daemon) (sender tid : Text) : Reply × Daemon :=
  match decodeFromKey sender with
  | .error e => (.error e, d)
  | .ok key =>
    if tid = [] then (.error .missingTid, d)
    else (.ackfile sender tid, d.ackAttachment cfg key tid)

def handleWatch (persisted : Bool) (d : Daemon) (dest : Text) : Reply × Daemon :=
  match decodeKey dest with
  | .error e => (.error e, d)
  | .ok key =>
    match d.watch persisted key with
    | (.error e, d) => (.error (.watchFailed e), d)
    | (.ok (), d) => (.watching dest, d)

def handleSetStatus (d : Daemon) (dest payload : Text) : Reply × Daemon :=
  match decodeKey dest with
  | .error e => (.error e, d)
  | .ok key =>
    if d.isBlocked key then (.error .peerIsBlocked, d)
    else
      match Base64.decode payload with
      | none => (.error .badPayloadBase64, d)
      | some bytes =>
        match d.setStatus cfg now key bytes with
        | (.error e, d) => (.error (.setstatusFailed e), d)
        | (.ok seq, d) => (.statusset dest seq, d)

def handleBlock (persisted : Bool) (d : Daemon) (dest : Text) (block : Bool) : Reply × Daemon :=
  match decodeKey dest with
  | .error e => (.error e, d)
  | .ok key =>
    if block then
      match d.block persisted key with
      | (.error e, d) => (.error (.blockFailed e), d)
      | (.ok (), d) => (.blocked dest, d)
    else
      match d.unblock persisted key with
      | (.error e, d) => (.error (.unblockFailed e), d)
      | (.ok (), d) => (.unblocked dest, d)

/-- `dispatch`: every request counts as a sign of the client.  `persisted` says whether a file the
request writes could be written. -/
def dispatch (persisted : Bool) (d : Daemon) (req : Request) : Reply × Daemon :=
  let d := d.touchClient now
  match req with
  | .whoami => (.whoami, d)
  | .status => (.status cfg.mtu, d)
  | .send dest payload => d.handleSend now typeMsg dest payload
  | .sendfile dest payload => d.handleSend now typeFile dest payload
  | .history sender seq => d.handleHistory cfg sender seq
  | .pendingattachments sender => d.handlePendingAttachments cfg sender
  | .fetchattachment sender tid => d.handleFetchAttachment cfg sender tid
  | .ackfile sender tid => d.handleAckFile cfg sender tid
  | .presence => (.presence (d.snapshot cfg now), d)
  | .watch dest => d.handleWatch persisted dest
  | .setstatus dest payload => d.handleSetStatus cfg now dest payload
  | .block dest => d.handleBlock persisted dest true
  | .unblock dest => d.handleBlock persisted dest false
  | .blocklist =>
    (.blocklist (d.blocked.insertionSort fun a b => ¬ Hex.encode b < Hex.encode a), d)
  | .missing => (.error .missingOp, d)
  | .unknown op => (.error (.unknownOp op), d)

end Daemon

/-- What can happen to a running daemon. -/
inductive Op where
  | api (now : ℤ) (persisted : Bool) (req : Request)
  | packet (now : ℤ) (sender : PublicKey) (data : Bytes)
  | flush (now : ℤ) (stamp : UInt64 → ℤ) (peer : PublicKey)
  | retry (now : ℤ) (stamp : UInt64 → ℤ) (order : List PublicKey)
  | pathUp (now : ℤ) (stamp : UInt64 → ℤ) (key : PublicKey)
  | tick (now : ℤ) (order : List PublicKey)
  | writeControl
  | writeBulk
  | restart

/-- What leaves a daemon: replies and events to its client, packets to the network. -/
inductive Output where
  | reply (r : Reply)
  | event (e : Event)
  | packet (out : Outbound)
  deriving DecidableEq, Repr

namespace Daemon

variable (cfg : Config)

/-- One operation.  The writer takes the head of a queue and hands it to the network. -/
def step (d : Daemon) : Op → Daemon × List Output
  | .api now persisted req =>
    let (r, d) := d.dispatch cfg now persisted req
    (d, [.reply r])
  | .packet now sender data =>
    let (d, es) := d.handlePacket cfg now sender data
    (d, es.map .event)
  | .flush now stamp peer => (d.flushPeer cfg now stamp peer, [])
  | .retry now stamp order => (d.retryRound cfg now stamp order, [])
  | .pathUp now stamp key => (d.pathUp cfg now stamp key, [])
  | .tick now order => (d.tick cfg now order, [])
  | .writeControl =>
    match d.node.control with
    | [] => (d, [])
    | out :: rest => ({ d with node := { d.node with control := rest } }, [.packet out])
  | .writeBulk =>
    match d.node.bulk with
    | [] => (d, [])
    | out :: rest => ({ d with node := { d.node with bulk := rest } }, [.packet out])
  | .restart => (d.restart, [])

/-- A run: the daemon after the operations and what left it, in order. -/
def run (d : Daemon) : List Op → Daemon × List Output
  | [] => (d, [])
  | op :: ops =>
    let (d₁, out₁) := d.step cfg op
    let (d₂, out₂) := run d₁ ops
    (d₂, out₁ ++ out₂)

end Daemon

end Aimless
