import Aimless.Network

/-!
# The client marker on its way

`presence.go` between two daemons: `A` probes `B`, and `B` handles the packets in the order in which
`A` sent them, none of them lost.  Whether `A`'s client is attached is told by the payload of a
STATUS alone: an empty one says that no client is.
-/

namespace Aimless

/-- A packet from `A` to `B`.  The last packet of a probe is marked with whether `A`'s client was
present when the probe was made. -/
structure Packet where
  data : Bytes
  mark : Option Bool
  deriving DecidableEq, Repr

def Packet.isStatus (p : Packet) : Bool :=
  match decodeEnvelope p.data with
  | .error _ => false
  | .ok env => env.type = typeStatus

/-- The packets of an operation, the last of them marked. -/
def marked (mark : Option Bool) : List Bytes → List Packet
  | [] => []
  | [data] => [⟨data, mark⟩]
  | data :: rest => ⟨data, none⟩ :: marked mark rest

/-- The two daemons and the packets on their way.  `done` is the mark of the packet that `B` handled
last. -/
structure Buddies where
  a : Daemon
  b : Daemon
  wire : List Packet := []
  done : Option Bool := none

namespace Buddies

/-- What happens, each at a time of its own; the client never sets an empty status. -/
inductive Move where
  | touchClient (now : ℤ)
  | setStatus (now : ℤ) (pub : PublicKey) (payload : Bytes) (hpayload : payload ≠ [])
  | probeOne (now : ℤ)
  | deliver (now : ℤ)
  | restartA
  | restartB

variable (N : Nodes)

/-- `A` after an operation: the writer takes what it queued. -/
def send (l : Buddies) (a : Daemon) (mark : Option Bool) : Buddies :=
  let packets := a.node.control.filter fun out => out.pub = N.keyB
  { l with
    a := { a with node := { a.node with control := [] } }
    wire := l.wire ++ marked mark (packets.map (·.data)) }

def step (l : Buddies) : Move → Buddies
  | .touchClient now => { l with a := l.a.touchClient now }
  | .setStatus now pub payload _ => l.send N (l.a.setStatus N.cfgA now pub payload).2 none
  | .probeOne now => l.send N (l.a.probeOne N.cfgA now N.keyB) (some (l.a.clientPresent now))
  | .deliver now =>
    match l.wire with
    | [] => l
    | p :: wire =>
      { l with b := (l.b.handlePacket N.cfgB now N.keyA p.data).1, wire, done := p.mark }
  | .restartA => { l with a := l.a.restart }
  | .restartB => { l with b := l.b.restart, done := none }

def run (l : Buddies) (moves : List Move) : Buddies := moves.foldl (step N) l

end Buddies

/-- The last status of a peer was empty. -/
def Daemon.holdsAway (d : Daemon) (pub : PublicKey) : Bool :=
  match (d.keyFor pub).statusIn with
  | none => false
  | some st => ¬ st.attached

end Aimless
