import Aimless.Api

/-!
# Two daemons and a network

Two daemons, `A` and `B`, each run their sends, flush passes and requests concurrently: a send and a
flush pass are several steps here, one for each database transaction or queue operation, and the
steps of all of them interleave.  A round of the retry loop is a flush pass for each mailbox in
turn, `PathUp` a flush pass and a probe.

Whatever was written to the network stays in `net`, and a delivery may pick any of it at any time,
so packets are dropped, duplicated, delayed and reordered.  A packet comes from a node only if that
node wrote it.
-/

namespace Aimless

/-- A `SendMsg` or `SendFile` that has its seq and has not yet queued its row. -/
structure SendTask where
  file : Bool
  dest : PublicKey
  seq : UInt64
  payload : Bytes
  deriving DecidableEq, Repr

def SendTask.type (t : SendTask) : EnvelopeType := if t.file then typeFile else typeMsg

/-- A flush pass, with the entries it has yet to go through. -/
structure FlushTask where
  peer : PublicKey
  now : ℤ
  entries : List JournalEntry
  deriving DecidableEq, Repr

/-- A daemon and what runs in it. -/
structure Party where
  daemon : Daemon := {}
  sends : List SendTask := []
  flushes : List FlushTask := []

/-- A step of a daemon on its own. -/
inductive Act where
  | beginSend (file : Bool) (dest : PublicKey) (payload : Bytes)
  | finishSend (i : ℕ) (now : ℤ)
  | startFlush (now : ℤ) (peer : PublicKey)
  | flushNext (i : ℕ) (stamp : ℤ)
  | probe (now : ℤ) (key : PublicKey)
  | request (now : ℤ) (persisted : Bool) (req : Request)
  | writeControl
  | writeBulk
  | restart

/-- What a step shows of itself: the seq `NextSeq` returned, the send that returned, the packet that
was written. -/
inductive Effect where
  | allocated (dest : PublicKey) (seq : UInt64)
  | returned (t : SendTask)
  | wrote (out : Outbound)

/-- A request to send is `beginSend` and `finishSend`, not a request here. -/
def Request.isSend : Request → Bool
  | .send _ _ => true
  | .sendfile _ _ => true
  | _ => false

namespace Party

variable (cfg : Config)

def act (p : Party) : Act → Party × Option Effect
  | .beginSend file dest payload =>
    match p.daemon.beginSend dest with
    | (.error _, d) => ({ p with daemon := d }, none)
    | (.ok seq, d) =>
      ({ p with daemon := d, sends := p.sends ++ [⟨file, dest, seq, payload⟩] },
        some (.allocated dest seq))
  | .finishSend i now =>
    match p.sends[i]? with
    | none => (p, none)
    | some t =>
      ({ p with
          daemon := p.daemon.finishSend now t.dest t.seq t.payload t.type
          sends := p.sends.eraseIdx i }, some (.returned t))
  | .startFlush now peer =>
    -- one pass per peer at a time
    if p.flushes.any fun t => t.peer = peer then (p, none)
    else ({ p with flushes := p.flushes ++ [⟨peer, now, p.daemon.flushEntries peer⟩] }, none)
  | .flushNext i stamp =>
    match p.flushes[i]? with
    | none => (p, none)
    | some t =>
      match t.entries with
      | [] => ({ p with flushes := p.flushes.eraseIdx i }, none)
      | entry :: entries =>
        ({ p with
            daemon := Daemon.flushEntry cfg t.now (fun _ => stamp) t.peer p.daemon entry
            flushes := p.flushes.set i { t with entries } }, none)
  | .probe now key => ({ p with daemon := p.daemon.probeOne cfg now key }, none)
  | .request now persisted req =>
    if req.isSend then (p, none)
    else ({ p with daemon := (p.daemon.dispatch cfg now persisted req).2 }, none)
  | .writeControl =>
    match p.daemon.node.control with
    | [] => (p, none)
    | out :: rest =>
      ({ p with daemon := { p.daemon with node := { p.daemon.node with control := rest } } },
        some (.wrote out))
  | .writeBulk =>
    match p.daemon.node.bulk with
    | [] => (p, none)
    | out :: rest =>
      ({ p with daemon := { p.daemon with node := { p.daemon.node with bulk := rest } } },
        some (.wrote out))
  | .restart => ({ daemon := p.daemon.restart }, none)

end Party

inductive Side where
  | a
  | b
  deriving DecidableEq, Repr

/-- What a send to `B` that returned was for. -/
structure Posted where
  seq : UInt64
  type : EnvelopeType
  payload : Bytes
  deriving DecidableEq, Repr

/-- The last three fields record what happened: the seqs `NextSeq` returned on `A` for `B`, the
sends to `B` that returned, and the messages from `A` for which `Add` returned on `B` that they are
new. -/
structure World where
  a : Party := {}
  b : Party := {}
  net : List (Side × Outbound) := []
  allocated : List UInt64 := []
  posted : List Posted := []
  accepted : List (UInt64 × Bytes) := []

/-- The node keys and the settings of the two daemons. -/
structure Nodes where
  keyA : PublicKey
  keyB : PublicKey
  cfgA : Config
  cfgB : Config

def Nodes.key (N : Nodes) : Side → PublicKey
  | .a => N.keyA
  | .b => N.keyB

/-- The message of a packet, if handling it makes `InboxStore.Add` return that it is new. -/
def Daemon.newMessage (cfg : Config) (d : Daemon) (sender : PublicKey) (data : Bytes) :
    List (UInt64 × Bytes) :=
  if d.isBlocked sender then []
  else
    match decodeEnvelope data with
    | .error _ => []
    | .ok env =>
      if env.type = typeMsg ∧ ((inboxOf cfg sender).add d.db env.seq env.ts env.payload).1 then
        [(env.seq, env.payload)]
      else []

/-- A step of the world.  Nodes other than the two may send either of them anything. -/
inductive Move where
  | act (side : Side) (act : Act)
  | deliver (i : ℕ) (now : ℤ)
  | foreign (side : Side) (now : ℤ) (sender : PublicKey) (data : Bytes)

namespace World

variable (N : Nodes)

/-- A step of `A`, with its record. -/
def actA (w : World) (act : Act) : World :=
  let (p, effect) := w.a.act N.cfgA act
  match effect with
  | none => { w with a := p }
  | some (.allocated dest seq) =>
    { w with a := p, allocated := if dest = N.keyB then w.allocated ++ [seq] else w.allocated }
  | some (.returned t) =>
    { w with
      a := p
      posted := if t.dest = N.keyB then w.posted ++ [⟨t.seq, t.type, t.payload⟩] else w.posted }
  | some (.wrote out) => { w with a := p, net := w.net ++ [(.a, out)] }

def actB (w : World) (act : Act) : World :=
  let (p, effect) := w.b.act N.cfgB act
  match effect with
  | some (.wrote out) => { w with b := p, net := w.net ++ [(.b, out)] }
  | _ => { w with b := p }

def receiveA (w : World) (now : ℤ) (sender : PublicKey) (data : Bytes) : World :=
  { w with a := { w.a with daemon := (w.a.daemon.handlePacket N.cfgA now sender data).1 } }

def receiveB (w : World) (now : ℤ) (sender : PublicKey) (data : Bytes) : World :=
  { w with
    b := { w.b with daemon := (w.b.daemon.handlePacket N.cfgB now sender data).1 }
    accepted := if sender = N.keyA then w.accepted ++ w.b.daemon.newMessage N.cfgB sender data
      else w.accepted }

def step (w : World) : Move → World
  | .act .a act => w.actA N act
  | .act .b act => w.actB N act
  | .deliver i now =>
    match w.net[i]? with
    | none => w
    | some (src, out) =>
      if out.pub = N.keyA then w.receiveA N now (N.key src) out.data
      else if out.pub = N.keyB then w.receiveB N now (N.key src) out.data
      else w
  | .foreign side now sender data =>
    if sender = N.keyA ∨ sender = N.keyB then w
    else
      match side with
      | .a => w.receiveA N now sender data
      | .b => w.receiveB N now sender data

/-- A run from two empty data directories. -/
def run (moves : List Move) : World := moves.foldl (step N) {}

end World

end Aimless
