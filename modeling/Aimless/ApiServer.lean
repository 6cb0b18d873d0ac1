import Aimless.Multiplex
import Aimless.Routines

/-!
# The daemon's end of the API socket

`api.go` around `dispatch`: connections that are accepted, read line by line and closed, the replies
to their requests, and the events that are broadcast to all of them.  A handler reads a line,
executes it section by section, then writes the reply; the steps of all handlers, of the read loop,
of the daemon's other goroutines and of `Close` interleave.  A broadcast, an entry into the set of
connections and a removal from it exclude each other.  A line is taken as `json.Unmarshal` leaves
it.
-/

namespace Aimless

/-- A line as it was read; the id of one that is not JSON is what was decoded before the error. -/
inductive ApiLine where
  | blank
  | badJson (id : Text)
  | request (id : Text) (req : Request)
  deriving DecidableEq, Repr

def ApiLine.isBlank : ApiLine → Bool
  | .blank => true
  | _ => false

/-- A line that is written. -/
inductive ApiOut where
  | badJson (id : Text)
  | reply (id : Text) (r : Reply)
  | event (e : Event)
  deriving DecidableEq, Repr

/-- A connection.  `registered` is being in `s.conns`, `alive` is being closed at neither end, and
`pending` is what the handler has yet to execute before it writes.  The last three fields are
records: the lines that were read, and how many events had been broadcast when the connection was
registered and when it no longer was. -/
structure Conn where
  registered : Bool := true
  running : Bool := true
  alive : Bool := true
  input : List ApiLine := []
  pending : Option (Routine ApiOut) := none
  output : List ApiOut := []
  seen : List ApiLine := []
  since : ℕ
  till : Option ℕ := none

/-- `reader` is the read loop's handling of the packet in hand, and `announcing` are the events of
it that have yet to be broadcast; `announced` records those that were. -/
structure ApiServer where
  shared : Shared := {}
  closed : Bool := false
  conns : List Conn := []
  reader : Option (Routine (List Event)) := none
  announcing : List Event := []
  announced : List Event := []

/-- What a line has the handler do before it reads on. -/
def ApiLine.routine (cfg : Config) : ApiLine → Option (Routine ApiOut)
  | .blank => none
  | .badJson id => some (return .badJson id)
  | .request id req => some do return .reply id (← Routine.dispatch cfg req)

/-- `conn.Write`, whose error is not looked at. -/
def Conn.put (c : Conn) (o : ApiOut) : Conn :=
  if c.alive then { c with output := c.output ++ [o] } else c

/-- `delete(s.conns, conn)`. -/
def Conn.unregister (c : Conn) (announced : ℕ) : Conn :=
  { c with registered := false, till := if c.registered then some announced else c.till }

namespace ApiServer

def setConn (s : ApiServer) (i : ℕ) (c : Conn) : ApiServer := { s with conns := s.conns.set i c }

/-- `f` of a connection. -/
def withConn (s : ApiServer) (i : ℕ) (f : Conn → ApiServer) : ApiServer :=
  match s.conns[i]? with
  | none => s
  | some c => f c

/-- `acceptLoop`: once the server is closed a connection is closed again. -/
def accept (s : ApiServer) : ApiServer :=
  let c : Conn := { since := s.announced.length }
  let c := if s.closed then
      { c with
        registered := false
        running := false
        alive := false
        till := some s.announced.length }
    else c
  { s with conns := s.conns ++ [c] }

/-- The client writes a line. -/
def line (s : ApiServer) (i : ℕ) (l : ApiLine) : ApiServer :=
  s.withConn i fun c => s.setConn i { c with input := c.input ++ [l] }

/-- `handleConn`: the next line is read. -/
def read (cfg : Config) (s : ApiServer) (i : ℕ) : ApiServer :=
  s.withConn i fun c =>
    if c.running ∧ c.pending.isNone then
      match c.input with
      | [] => s
      | l :: input => s.setConn i { c with input, seen := c.seen ++ [l], pending := l.routine cfg }
    else s

/-- The handler runs a section. -/
def execute (s : ApiServer) (i : ℕ) (o : Outside) : ApiServer :=
  s.withConn i fun c =>
    match c.pending with
    | some (.step f next) =>
      { s.setConn i { c with pending := some (next o s.shared) } with shared := f o s.shared }
    | _ => s

/-- `reply`. -/
def write (s : ApiServer) (i : ℕ) : ApiServer :=
  s.withConn i fun c =>
    match c.pending.bind Thread.value? with
    | none => s
    | some o => s.setConn i (({ c with pending := none } : Conn).put o)

/-- The handler ends: at the end of its input, at a line that is too long, or with a panic. -/
def finish (s : ApiServer) (i : ℕ) : ApiServer :=
  s.withConn i fun c =>
    s.setConn i { c.unregister s.announced.length with
      running := false, alive := false, pending := none }

/-- The client closes its end, or `Close` closes a connection it has taken out of the set. -/
def hangUp (s : ApiServer) (i : ℕ) : ApiServer :=
  s.withConn i fun c => s.setConn i { c with alive := false }

/-- The read loop takes a packet, when the events of the last one are all broadcast. -/
def packet (cfg : Config) (s : ApiServer) (sender : PublicKey) (data : Bytes) : ApiServer :=
  if s.reader.isNone ∧ s.announcing = [] then
    { s with reader := some (Routine.handlePacket cfg sender data) }
  else s

/-- The read loop runs a section, or comes to its events. -/
def receive (s : ApiServer) (o : Outside) : ApiServer :=
  match s.reader with
  | none => s
  | some (.done events) => { s with reader := none, announcing := events }
  | some (.step f next) => { s with shared := f o s.shared, reader := some (next o s.shared) }

def broadcast (s : ApiServer) : ApiServer :=
  match s.announcing with
  | [] => s
  | e :: rest =>
    { s with
      announcing := rest
      announced := s.announced ++ [e]
      conns := if s.closed then s.conns
        else s.conns.map fun c => if c.registered then c.put (.event e) else c }

/-- `Close`, up to the closing of the connections it takes out of the set. -/
def close (s : ApiServer) : ApiServer :=
  if s.closed then s
  else { s with closed := true, conns := s.conns.map (·.unregister s.announced.length) }

end ApiServer

/-- `other` is a step of any other goroutine: a flush, a round of the retry or of the presence loop,
the writer.  It may change what is shared in any way. -/
inductive ServerMove where
  | accept
  | line (i : ℕ) (l : ApiLine)
  | read (i : ℕ)
  | execute (i : ℕ) (o : Outside)
  | write (i : ℕ)
  | finish (i : ℕ)
  | hangUp (i : ℕ)
  | packet (sender : PublicKey) (data : Bytes)
  | receive (o : Outside)
  | broadcast
  | other (f : Shared → Shared)
  | close

namespace ApiServer

variable (cfg : Config)

def step (s : ApiServer) : ServerMove → ApiServer
  | .accept => s.accept
  | .line i l => s.line i l
  | .read i => s.read cfg i
  | .execute i o => s.execute i o
  | .write i => s.write i
  | .finish i => s.finish i
  | .hangUp i => s.hangUp i
  | .packet sender data => s.packet cfg sender data
  | .receive o => s.receive o
  | .broadcast => s.broadcast
  | .other f => { s with shared := f s.shared }
  | .close => s.close

/-- A run over an empty data directory. -/
def run (moves : List ServerMove) : ApiServer := moves.foldl (step cfg) {}

end ApiServer

end Aimless
