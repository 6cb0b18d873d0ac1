import Aimless.Network

/-!
# The client's end of the API socket

`daemon.py`: the request calls of a client, its reader thread and the connection between them and
the daemon, which may break and come back at any point.  A call is several steps, one for each thing
another thread can see, and the steps of all calls, of the reader and of the daemon interleave.
Time is not kept: a wait may end, and a deadline pass, whenever the call is in that wait.

A line that was written may be executed long after the client has given its connection up, or never
be; the answer to it reaches the client over the connection it came from, or not at all.  Events
share the connection with the answers and go to a queue of their own, so they are left out.
-/

namespace Aimless

/-- The `op` of a request. -/
def Request.op : Request → String
  | .whoami => "whoami"
  | .status => "status"
  | .send _ _ => "send"
  | .sendfile _ _ => "sendfile"
  | .history _ _ => "history"
  | .pendingattachments _ => "pendingattachments"
  | .fetchattachment _ _ => "fetchattachment"
  | .ackfile _ _ => "ackfile"
  | .presence => "presence"
  | .watch _ => "watch"
  | .setstatus _ _ => "setstatus"
  | .block _ => "block"
  | .unblock _ => "unblock"
  | .blocklist => "blocklist"
  | .missing => ""
  | .unknown op => String.ofList op

/-- The `op` of a reply. -/
def Reply.op : Reply → String
  | .error _ => "error"
  | .whoami => "whoami"
  | .status _ => "status"
  | .queued _ _ _ => "queued"
  | .history _ _ _ _ => "history"
  | .pendingattachments _ _ => "pendingattachments"
  | .fetchattachment _ _ _ => "fetchattachment"
  | .ackfile _ _ => "ackfile"
  | .presence _ => "presence"
  | .watching _ => "watching"
  | .statusset _ _ => "statusset"
  | .blocked _ => "blocked"
  | .unblocked _ => "unblocked"
  | .blocklist _ => "blocklist"

/-- `RESPONSE_MAP.get(op, op)`. -/
def responseMap (op : String) : String :=
  if op = "send" then "queued"
  else if op = "sendfile" then "queued"
  else if op = "watch" then "watching"
  else if op = "setstatus" then "statusset"
  else if op = "pendingattachments" then "pendingattachments"
  else if op = "fetchattachment" then "fetchattachment"
  else if op = "ackfile" then "ackfile"
  else op

/-- Where a call is: a legacy call waits for its lock first; `unsent` and `waiting` are the loop
with `sent` false and true, `written` is between `sendall` and the read of the generation, and
`reconnecting` is `_wait_generation_change`. -/
inductive Phase where
  | queueing
  | unsent
  | written
  | waiting
  | reconnecting
  | returned (r : Reply)
  | raised
  deriving DecidableEq, Repr

/-- A call of `request`; its id is its place in the list of calls. -/
structure Call where
  req : Request
  multiplex : Bool
  phase : Phase
  sentGen : ℕ
  deriving DecidableEq, Repr

/-- A request line on the connection of generation `gen`. -/
structure Line where
  gen : ℕ
  id : ℕ
  req : Request
  deriving DecidableEq, Repr

/-- A reply line, with the id it echoes. -/
structure Answer where
  id : ℕ
  reply : Reply
  deriving DecidableEq, Repr

/-- The reader thread: `connected` is between `_connect` and the clearing of `_want_reconnect`. -/
inductive Reader where
  | reading
  | closed
  | connected
  deriving DecidableEq, Repr

/-- A client, its connections and the daemon.  `lines` are the lines that no daemon has read yet,
`answers` those on the present connection that the reader has not, `mail` all the mailboxes.
`queued` is a record: the rows that came into the outbox, each with the call whose line brought
it there. -/
structure Link where
  daemon : Daemon := {}
  lines : List Line := []
  answers : List Answer := []
  reader : Reader := .reading
  wantReconnect : Bool := false
  generation : ℕ := 1
  multiplex : Bool := false
  roundtripLock : Option ℕ := none
  calls : List Call := []
  raw : List Answer := []
  stash : List Answer := []
  mail : List Answer := []
  queued : List (ℕ × OutboxRow) := []

namespace Phase

/-- The call is in its loop. -/
def looping : Phase → Bool
  | .unsent | .written | .waiting | .reconnecting => true
  | _ => false

/-- Nothing was written yet, or everything that was is forgotten. -/
def fresh : Phase → Bool
  | .queueing | .unsent => true
  | _ => false

end Phase

namespace Link

/-- `f` of a call that is in phase `p`. -/
def inPhase (s : Link) (i : ℕ) (p : Phase) (f : Call → Link) : Link :=
  match s.calls[i]? with
  | none => s
  | some c => if c.phase = p then f c else s

def setCall (s : Link) (i : ℕ) (c : Call) : Link := { s with calls := s.calls.set i c }

/-- The end of a call: a legacy call gives its lock back, the others drop their mailbox. -/
def finish (s : Link) (i : ℕ) (c : Call) (p : Phase) : Link :=
  let s := s.setCall i { c with phase := p }
  if c.multiplex then { s with mail := s.mail.filter fun a => a.id ≠ i }
  else { s with roundtripLock := none }

/-! ### A call -/

/-- The call takes its id, and its path by what is known of the daemon at that moment. -/
def request (s : Link) (req : Request) : Link :=
  { s with calls := s.calls ++ [⟨req, s.multiplex, if s.multiplex then .unsent else .queueing,
      s.generation⟩] }

/-- `with self._roundtrip_lock`. -/
def acquire (s : Link) (i : ℕ) : Link :=
  s.inPhase i .queueing fun c =>
    if s.roundtripLock = none then
      { s.setCall i { c with phase := .unsent, sentGen := s.generation } with
        roundtripLock := some i }
    else s

/-- `self._sock is None or self._want_reconnect.is_set()`. -/
def broken (s : Link) : Bool := s.reader = .closed || s.wantReconnect

/-- The test at the top of the loop, of a call with `sent` as in `p`. -/
def notice (s : Link) (i : ℕ) (p : Phase) : Link :=
  if s.broken ∧ (p = .unsent ∨ p = .waiting) then
    s.inPhase i p fun c => s.setCall i { c with phase := .reconnecting }
  else s

/-- `sendall` of the request on the present connection. -/
def sendall (s : Link) (i : ℕ) : Link :=
  if s.reader = .closed then s
  else s.inPhase i .unsent fun c =>
    { s.setCall i { c with phase := .written } with lines := s.lines ++ [⟨s.generation, i, c.req⟩] }

/-- `sendall` raises.  What it wrote before may be the whole request but for the line break, which
the daemon does without at the end of a connection. -/
def sendallRaises (s : Link) (i : ℕ) (whole : Bool) : Link :=
  s.inPhase i .unsent fun c =>
    { s.setCall i { c with phase := .reconnecting } with
      lines := if whole then s.lines ++ [⟨s.generation, i, c.req⟩] else s.lines
      wantReconnect := true }

/-- `sent_gen = self._generation`. -/
def stamp (s : Link) (i : ℕ) : Link :=
  s.inPhase i .written fun c => s.setCall i { c with phase := .waiting, sentGen := s.generation }

/-- `_wait_generation_change` is true: the deadline starts anew and the request is sent again. -/
def resume (s : Link) (i : ℕ) : Link :=
  s.inPhase i .reconnecting fun c =>
    if s.generation ≠ c.sentGen then s.setCall i { c with phase := .unsent } else s

/-- `daemon unreachable`. -/
def giveUp (s : Link) (i : ℕ) : Link :=
  s.inPhase i .reconnecting fun c => s.finish i c .raised

/-- `timeout waiting for response`. -/
def timeout (s : Link) (i : ℕ) : Link :=
  s.inPhase i .waiting fun c => s.finish i c .raised

/-- `self._raw.get` of a legacy call.  Whatever has not the expected `op` is put aside, the refusals
of the daemon included; the id is looked at only for what it says about the daemon. -/
def getRaw (s : Link) (i : ℕ) (c : Call) : Link :=
  match s.raw with
  | [] => s
  | a :: rest =>
    let s := { s with raw := rest }
    if a.reply.op ≠ responseMap c.req.op then { s with stash := s.stash ++ [a] }
    else
      let s := { s with multiplex := true }
      if a.reply.op = "error" then s.finish i c .raised else s.finish i c (.returned a.reply)

/-- `mb.get` of a multiplexed call. -/
def getMail (s : Link) (i : ℕ) (c : Call) : Link :=
  match s.mail.find? fun a => a.id = i with
  | none => s
  | some a =>
    if a.reply.op = "error" then s.finish i c .raised else s.finish i c (.returned a.reply)

def get (s : Link) (i : ℕ) : Link :=
  s.inPhase i .waiting fun c => if c.multiplex then s.getMail i c else s.getRaw i c

/-! ### The reader -/

/-- `rid in self._pending`. -/
def pending (s : Link) (i : ℕ) : Bool :=
  match s.calls[i]? with
  | none => false
  | some c => c.multiplex && c.phase.looping

/-- One reply line, to the mailbox of its call if it has one. -/
def readline (s : Link) : Link :=
  if s.reader = .reading then
    match s.answers with
    | [] => s
    | a :: rest =>
      let s := { s with answers := rest }
      if s.pending a.id then { s with mail := s.mail ++ [a] } else { s with raw := s.raw ++ [a] }
  else s

/-- `readline` gives nothing. -/
def eof (s : Link) : Link := if s.reader = .reading then { s with wantReconnect := true } else s

/-- `_close_socket`: what was on its way to the client is lost. -/
def closeSocket (s : Link) : Link :=
  if s.reader = .reading then { s with reader := .closed, answers := [] } else s

def connect (s : Link) : Link :=
  if s.reader = .closed then { s with reader := .connected, generation := s.generation + 1 } else s

/-- `self._want_reconnect.clear()`. -/
def clearWant (s : Link) : Link :=
  if s.reader = .connected then { s with reader := .reading, wantReconnect := false } else s

/-! ### The daemon -/

variable (cfg : Config)

/-- The daemon reads and executes the next line of a connection, and answers it if it still can. -/
def exec (s : Link) (gen : ℕ) (now : ℤ) (persisted answered : Bool) : Link :=
  match s.lines.find? fun l => l.gen = gen with
  | none => s
  | some l =>
    let (r, d) := s.daemon.dispatch cfg now persisted l.req
    { s with
      daemon := d
      lines := s.lines.erase l
      answers := if answered ∧ gen = s.generation ∧ s.reader ≠ .closed then s.answers ++ [⟨l.id, r⟩]
        else s.answers
      queued := s.queued
        ++ (d.db.outbox.filter fun row => row ∉ s.daemon.db.outbox).map fun row => (l.id, row) }

/-- The lines of a connection that the daemon has not read are lost with it. -/
def dropLines (s : Link) (gen : ℕ) : Link := { s with lines := s.lines.filter fun l => l.gen ≠ gen }

end Link

/-- A step of a client, of its reader or of the daemon; `other` is whatever else the daemon does,
the requests of its other connections included. -/
inductive ClientMove where
  | request (req : Request)
  | acquire (i : ℕ)
  | notice (i : ℕ) (p : Phase)
  | sendall (i : ℕ)
  | sendallRaises (i : ℕ) (whole : Bool)
  | stamp (i : ℕ)
  | resume (i : ℕ)
  | giveUp (i : ℕ)
  | timeout (i : ℕ)
  | get (i : ℕ)
  | readline
  | eof
  | closeSocket
  | connect
  | clearWant
  | exec (gen : ℕ) (now : ℤ) (persisted answered : Bool)
  | dropLines (gen : ℕ)
  | other (op : Op)

namespace Link

variable (cfg : Config)

def step (s : Link) : ClientMove → Link
  | .request req => s.request req
  | .acquire i => s.acquire i
  | .notice i p => s.notice i p
  | .sendall i => s.sendall i
  | .sendallRaises i whole => s.sendallRaises i whole
  | .stamp i => s.stamp i
  | .resume i => s.resume i
  | .giveUp i => s.giveUp i
  | .timeout i => s.timeout i
  | .get i => s.get i
  | .readline => s.readline
  | .eof => s.eof
  | .closeSocket => s.closeSocket
  | .connect => s.connect
  | .clearWant => s.clearWant
  | .exec gen now persisted answered => s.exec cfg gen now persisted answered
  | .dropLines gen => s.dropLines gen
  | .other op => { s with daemon := (s.daemon.step cfg op).1 }

/-- A client that connects to the daemon `d`, after `moves`. -/
def run (d : Daemon) (moves : List ClientMove) : Link :=
  moves.foldl (step cfg) { daemon := d }

/-! ### Exactly once or not at all -/

/-- The lines of a call that a daemon may still execute. -/
def inFlight (s : Link) (i : ℕ) : ℕ := s.lines.countP fun l => l.id = i

/-- The answers the client has not looked at. -/
def unread (s : Link) : List Answer := s.answers ++ s.raw ++ s.mail

/-- The outbox rows a call has caused. -/
def rows (s : Link) (i : ℕ) : ℕ := s.queued.countP fun q => q.1 = i

/-- A send that has returned queued one row, and one that has raised queued none. -/
def ExactlyOnce (s : Link) : Prop :=
  ∀ i c, s.calls[i]? = some c → c.req.isSend →
    (∀ r, c.phase = .returned r → s.rows i = 1) ∧ (c.phase = .raised → s.rows i = 0)

/-- The request of the call has queued no row, and no line of it is left that could. -/
def Void (s : Link) (i : ℕ) : Prop := s.inFlight i = 0 ∧ s.rows i = 0

/-- A step that does not give a send up, or send it again, with its fate open.  A multiplexed call
that sends again must not have an answer to its first request left to find. -/
def Decided (s : Link) : ClientMove → Prop
  | .giveUp i | .timeout i => ∀ c, s.calls[i]? = some c → c.req.isSend → s.Void i
  | .resume i => ∀ c, s.calls[i]? = some c → c.req.isSend →
    s.Void i ∧ (c.multiplex → ∀ a ∈ s.unread, a.id ≠ i)
  | _ => True

end Link

end Aimless
