import Aimless.CatchUp
import Aimless.Network
import Aimless.Sending

/-!
# A chat from end to end

Two clients, each at its own daemon, and the network between the daemons.  `A`'s client seals what
it writes, records it when its daemon has answered, and marks it when its daemon reports it
delivered; `B`'s client opens and stores what its daemon announces, and what it gets from a sync.
A client handles the events of its daemon at any time and in any order, or loses them.  Other
clients of both daemons, and other nodes, do what they like.
-/

namespace Aimless

open Python (Str Exc Json)

deriving instance DecidableEq for SendTarget

/-- A text that was sent: `ephemeral` is the key pair drawn for the box of the one recipient that is
followed here, `seqs` the replies of the daemon by node. -/
structure SentText where
  target : SendTarget
  text : Str
  ts : ℤ
  ephemeral : Bytes
  seqs : List DeliveryKey
  deriving DecidableEq

namespace SentText

/-- The keys of those to whom the text goes at a node. -/
def pubkeysAt (m : SentText) (node : Text) : List Str :=
  match m.target with
  | .contact conv pubkey => if goText conv = node then [pubkey] else []
  | .room _ members => (members.filter fun x => goText x.node = node).map (·.pubkey)

variable (S : Sealer) (screenName : Str)

/-- The payload that `send` or `send_room` makes for a key. -/
def sealFor (m : SentText) (pubkey : Str) : Except Exc Str :=
  match m.target with
  | .contact _ _ => sealMessage S m.ephemeral pubkey m.text m.ts (some screenName) none none
  | .room conv members => sealMessage S m.ephemeral pubkey m.text m.ts (some screenName) (some conv)
      (some (.arr (members.map RoomMember.toJson)))

/-- What the daemon was asked to send to the node. -/
def isBox (m : SentText) (node : Text) (payload : Bytes) : Bool :=
  (m.pubkeysAt node).any fun key =>
    match sealFor S screenName m key with
    | .error _ => false
    | .ok sealed => Base64.decode (goText sealed) = some payload

end SentText

def Nodes.config (N : Nodes) : Side → Config
  | .a => N.cfgA
  | .b => N.cfgB

namespace World

variable (N : Nodes)

def party (w : World) : Side → Party
  | .a => w.a
  | .b => w.b

/-- The packet that a daemon takes at a step. -/
def taken (w : World) : Move → Option (Side × ℤ × PublicKey × Bytes)
  | .act _ _ => none
  | .deliver i now =>
    w.net[i]?.bind fun (src, out) =>
      if out.pub = N.keyA then some (.a, now, N.key src, out.data)
      else if out.pub = N.keyB then some (.b, now, N.key src, out.data)
      else none
  | .foreign side now sender data =>
    if sender = N.keyA ∨ sender = N.keyB then none else some (side, now, sender, data)

/-- What a daemon broadcasts at a step. -/
def events (w : World) (side : Side) (move : Move) : List Event :=
  match taken N w move with
  | none => []
  | some (dest, now, sender, data) =>
    if dest = side then ((w.party side).daemon.handlePacket (N.config side) now sender data).2
    else []

end World

/-- The clients and what they work with: `sealer` and `screenName` are `A`'s, and each has libraries
of its own. -/
structure ChatEnv where
  nodes : Nodes
  sealer : Sealer
  screenName : Str
  libsA : Libs
  libsB : Libs

/-- `eventsA` and `eventsB` are what the daemons broadcast, `tracker` and `store` the clients' own.
The rest are records: the seqs of `A`'s sends to `B` that its client has entered, the texts it has
entered, and the seqs of `A`'s messages that `B`'s client has handled. -/
structure Chat where
  world : World := {}
  eventsA : List Event := []
  eventsB : List Event := []
  tracker : Tracker := {}
  store : Store := {}
  entered : List ℕ := []
  texts : List SentText := []
  handled : List UInt64 := []

/-- A step of the daemons or the network, or of a client: `A`'s enters a text or a file that was
sent, or handles an `acked` event; `B`'s handles a `recv` event, or syncs. -/
inductive ChatMove where
  | world (move : Move)
  | text (m : SentText)
  | file (conv : Str) (seqs : List DeliveryKey) (ts : ℤ) (filename : Str) (attachment : Python.Dict)
    (expected : List DeliveryKey)
  | acked (dest : PublicKey) (seq : UInt64)
  | recv (sender : PublicKey) (seq : UInt64) (ts : Int64) (payload : Bytes)
  | sync (now : ℤ) (peer : Text)

namespace Chat

variable (E : ChatEnv)

def nodeA : Text := Hex.encode E.nodes.keyA

def nodeB : Text := Hex.encode E.nodes.keyB

/-- The seqs of sends to `B`. -/
def seqsToB (keys : List DeliveryKey) : List ℕ :=
  (keys.filter fun k => k.1 = nodeB E).map Prod.snd

/-- `A`'s daemon has answered sends of these payloads with the seqs, and none of the answers was
entered before. -/
def answered (w : Chat) (typ : EnvelopeType) (isPayload : Bytes → Bool) (keys : List DeliveryKey) :
    Bool :=
  (seqsToB E keys).all fun s => !w.entered.contains s
    && w.world.posted.any fun p => p.seq.toNat = s && p.type = typ && isPayload p.payload

def enterText (w : Chat) (m : SentText) : Chat :=
  match w.tracker.addSent E.libsA m.target.conv m.seqs m.ts m.text none none with
  | (.error _, tracker) => { w with tracker, entered := w.entered ++ seqsToB E m.seqs }
  | (.ok _, tracker) =>
    { w with tracker, entered := w.entered ++ seqsToB E m.seqs, texts := w.texts ++ [m] }

/-- `on_event`. -/
def recv (w : Chat) (sender : PublicKey) (seq : UInt64) (ts : Int64) (payload : Bytes) : Chat :=
  match (Event.recv sender seq ts payload).toRecv with
  | none => w
  | some ev =>
    match Sync.onEvent E.libsB w.store ev with
    | (.error _, store) => { w with store }
    | (.ok _, store) =>
      { w with
        store
        handled := if sender = E.nodes.keyA then w.handled ++ [seq] else w.handled }

def setDaemonB (w : Chat) (daemon : Daemon) : Chat :=
  { w with world := { w.world with b := { w.world.b with daemon } } }

/-- `sync_peer`. -/
def sync (w : Chat) (now : ℤ) (peer : Text) : Chat :=
  match Sync.fetch E.nodes.cfgB now w.world.b.daemon w.store peer with
  | (.error _, daemon) => w.setDaemonB daemon
  | (.ok msgs, daemon) =>
    match Sync.apply E.libsB w.store peer msgs with
    | (.error _, store) => { w.setDaemonB daemon with store }
    | (.ok _, store) =>
      { w.setDaemonB daemon with
        store
        handled := if peer = nodeA E then w.handled ++ msgs.map (·.seq) else w.handled }

def step (w : Chat) : ChatMove → Chat
  | .world move =>
    { w with
      world := w.world.step E.nodes move
      eventsA := w.eventsA ++ World.events E.nodes w.world .a move
      eventsB := w.eventsB ++ World.events E.nodes w.world .b move }
  | .text m =>
    if w.answered E typeMsg (m.isBox E.sealer E.screenName (nodeB E)) m.seqs then w.enterText E m
    else w
  | .file conv seqs ts filename attachment expected =>
    if w.answered E typeFile (fun _ => true) expected then
      { w with
        tracker := w.tracker.step E.libsA (.file conv seqs ts filename attachment expected)
        entered := w.entered ++ seqsToB E expected }
    else w
  | .acked dest seq =>
    if .acked dest seq ∈ w.eventsA then
      { w with tracker := (w.tracker.noteAcked (Hex.encode dest, seq.toNat)).2 }
    else w
  | .recv sender seq ts payload =>
    if .recv sender seq ts payload ∈ w.eventsB then w.recv E sender seq ts payload else w
  | .sync now peer => w.sync E now peer

def run (moves : List ChatMove) : Chat := moves.foldl (step E) {}

end Chat

end Aimless
