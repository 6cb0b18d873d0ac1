import Aimless.Mail

/-!
# The outbound writer

The two channels of `node.go` between the goroutines that call `Send` and `SendBulk` and the one
goroutine that runs `writeLoop`.  A run is any sequence of calls and of steps of the writer; where
a `select` has several ready cases, the move says which one is taken.  A call that meets the writer
blocked on an empty channel hands its packet over at once, which is the same as a call followed by
the writer's receive.

Every call is numbered, and the number goes with the packet, so that two packets with the same
content are not confused.  `log` is the history of the run.
-/

namespace Aimless

/-- The channels `n.control` and `n.bulk`. -/
inductive Channel where
  | control
  | bulk
  deriving DecidableEq, Repr

/-- What the call of a number hands to `enqueue`. -/
structure QueuedPacket where
  call : ℕ
  out : Outbound
  deriving DecidableEq, Repr

/-- Where `writeLoop` is: at its first `select`, at its second, or in `writeFn`. -/
inductive WriterPoint where
  | first
  | second
  | writing (ch : Channel) (p : QueuedPacket)
  deriving DecidableEq, Repr

/-- `accepted` and `refused` are the returns of `enqueue`; `started` and `finished` are the call of
`writeFn` and its return. -/
inductive Happened where
  | accepted (ch : Channel) (p : QueuedPacket)
  | refused (ch : Channel) (p : QueuedPacket) (e : SendError)
  | started (ch : Channel) (p : QueuedPacket)
  | finished (ch : Channel) (p : QueuedPacket)
  deriving DecidableEq, Repr

structure Uplink where
  queue : Channel → List QueuedPacket := fun _ => []
  point : WriterPoint := .first
  calls : ℕ := 0
  log : List Happened := []

namespace Uplink

inductive Move where
  /-- Some goroutine calls `Send` or `SendBulk`. -/
  | send (ch : Channel) (pub : PublicKey) (payload : Bytes)
  /-- The first `select` of the loop. -/
  | drain
  /-- The second `select`, taking the case of a channel. -/
  | select (ch : Channel)
  /-- `writeFn` returns. -/
  | written
  deriving DecidableEq, Repr

/-- The channels' contents, without the numbers. -/
def node (s : Uplink) : Node :=
  { control := (s.queue .control).map (·.out), bulk := (s.queue .bulk).map (·.out) }

/-- `Send` for the control channel, `SendBulk` for the other. -/
def sendOn (mtu : ℕ) (n : Node) (pub : PublicKey) (payload : Bytes) :
    Channel → Except SendError Node
  | .control => n.send mtu pub payload
  | .bulk => n.sendBulk mtu pub payload

def send (mtu : ℕ) (s : Uplink) (ch : Channel) (pub : PublicKey) (payload : Bytes) : Uplink :=
  let p : QueuedPacket := ⟨s.calls, ⟨pub, payload⟩⟩
  match sendOn mtu s.node pub payload ch with
  | .ok _ => { s with
      queue := Function.update s.queue ch (s.queue ch ++ [p])
      calls := s.calls + 1
      log := s.log ++ [.accepted ch p] }
  | .error e => { s with calls := s.calls + 1, log := s.log ++ [.refused ch p e] }

/-- Receives from a channel and calls `writeFn`. -/
def receive (s : Uplink) (ch : Channel) (p : QueuedPacket) (rest : List QueuedPacket) : Uplink :=
  { s with
    queue := Function.update s.queue ch rest
    point := .writing ch p
    log := s.log ++ [.started ch p] }

/-- The first `select`: control traffic if there is any, else on to the second. -/
def drain (s : Uplink) : Uplink :=
  match s.point, s.queue .control with
  | .first, p :: rest => s.receive .control p rest
  | .first, [] => { s with point := .second }
  | _, _ => s

/-- The second `select`, which blocks while both channels are empty. -/
def select (s : Uplink) (ch : Channel) : Uplink :=
  match s.point, s.queue ch with
  | .second, p :: rest => s.receive ch p rest
  | _, _ => s

/-- The loop starts over after a write, from either `select`. -/
def written (s : Uplink) : Uplink :=
  match s.point with
  | .writing ch p => { s with point := .first, log := s.log ++ [.finished ch p] }
  | _ => s

/-- A move of the writer that is not possible in a state leaves the state as it is. -/
def step (mtu : ℕ) (s : Uplink) : Move → Uplink
  | .send ch pub payload => s.send mtu ch pub payload
  | .drain => s.drain
  | .select ch => s.select ch
  | .written => s.written

def run (mtu : ℕ) (moves : List Move) : Uplink := moves.foldl (step mtu) {}

/-- The packet of a channel that is in `writeFn`. -/
def inWrite (s : Uplink) (ch : Channel) : List QueuedPacket :=
  match s.point with
  | .writing ch' p => if ch' = ch then [p] else []
  | _ => []

end Uplink

namespace Happened

/-- The packets of a channel that `enqueue` accepted, in order. -/
def acceptedOn (ch : Channel) (log : List Happened) : List QueuedPacket :=
  log.filterMap fun
    | .accepted ch' p => if ch' = ch then some p else none
    | _ => none

/-- The packets of a channel that have been written, in order. -/
def writtenOn (ch : Channel) (log : List Happened) : List QueuedPacket :=
  log.filterMap fun
    | .finished ch' p => if ch' = ch then some p else none
    | _ => none

/-- The number of writes of bulk packets that started. -/
def bulkStarts (log : List Happened) : ℕ :=
  log.countP fun
    | .started .bulk _ => true
    | _ => false

end Happened

end Aimless
