import Aimless.DaemonClient

/-!
# Which call gets which reply

The client's end of a connection that does not break, with a daemon that answers every request once,
in any order and as late as it likes.  What the calls do is in `Link`; here it is recorded which
reply came in time for its call, which call took which reply, and which gave up.
-/

namespace Aimless

/-- The `op` of the reply with which `api.go` answers a request that succeeds. -/
def Request.successOp : Request → String
  | .send _ _ => "queued"
  | .sendfile _ _ => "queued"
  | .watch _ => "watching"
  | .setstatus _ _ => "statusset"
  | .block _ => "blocked"
  | .unblock _ => "unblocked"
  | req => req.op

/-- The requests that the client makes. -/
def Request.issued : Request → Bool
  | .missing => false
  | .unknown _ => false
  | _ => true

namespace Link

/-- The call is in its loop. -/
def looping (s : Link) (i : ℕ) : Bool := s.calls[i]?.any (·.phase.looping)

/-- The reply that call `i` takes when it looks at the queue it reads. -/
def takes (s : Link) (i : ℕ) : Option Answer :=
  match s.calls[i]? with
  | none => none
  | some c =>
    if c.phase = .waiting then
      if c.multiplex then s.mail.find? fun a => a.id = i
      else s.raw.head?.filter fun a => a.reply.op = responseMap c.req.op
    else none

/-- The queue that a call reads: the mailboxes, of which it looks at its own, or `_raw`. -/
def queueOf (s : Link) (c : Call) : List Answer := if c.multiplex then s.mail else s.raw

end Link

/-- A link over one connection, and records: the replies that the daemon `given`, the calls whose
deadline has passed, the replies that `arrived` before the deadline of the call they answer, and how
calls ended, by the reply they `took` or `timedOut`. -/
structure Talk where
  link : Link := {}
  given : List Answer := []
  expired : List ℕ := []
  arrived : List Answer := []
  took : List (ℕ × Answer) := []
  timedOut : List ℕ := []

/-- A step of the calls, of the reader, of the clock or of the daemon. -/
inductive TalkMove where
  | request (req : Request)
  | acquire (i : ℕ)
  | sendall (i : ℕ)
  | stamp (i : ℕ)
  | expire (i : ℕ)
  | timeout (i : ℕ)
  | get (i : ℕ)
  | readline
  | discard
  | answer (i : ℕ) (r : Reply)

namespace Talk

/-- The deadline of a call passes. -/
def expire (t : Talk) (i : ℕ) : Talk :=
  if t.link.looping i then { t with expired := t.expired ++ [i] } else t

/-- `timeout waiting for response`, once the deadline has passed. -/
def timeout (t : Talk) (i : ℕ) : Talk :=
  match t.link.calls[i]? with
  | none => t
  | some c =>
    if c.phase = .waiting ∧ t.expired.contains i then
      { t with link := t.link.timeout i, timedOut := t.timedOut ++ [i] }
    else t

def get (t : Talk) (i : ℕ) : Talk :=
  { t with link := t.link.get i, took := t.took ++ (t.link.takes i).toList.map fun a => (i, a) }

def readline (t : Talk) : Talk :=
  match t.link.answers with
  | [] => t
  | a :: _ => { t with
      link := t.link.readline
      arrived := if t.link.looping a.id ∧ t.expired.contains a.id = false then t.arrived ++ [a]
        else t.arrived }

/-- The reader looked the mailbox of a call up before it ended, and puts the reply there after. -/
def discard (t : Talk) : Talk :=
  match t.link.answers with
  | [] => t
  | a :: rest =>
    if t.link.calls[a.id]?.any (fun c => c.multiplex && !c.phase.looping) then
      { t with link := { t.link with answers := rest } }
    else t

/-- The daemon answers one of the requests it has, with what `api.go` has for it. -/
def answer (t : Talk) (i : ℕ) (r : Reply) : Talk :=
  match t.link.lines.find? fun l => l.id = i with
  | none => t
  | some l =>
    if r.op = l.req.successOp ∨ r.op = "error" then
      { t with
        link := { t.link with lines := t.link.lines.erase l, answers := t.link.answers ++ [⟨i, r⟩] }
        given := t.given ++ [⟨i, r⟩] }
    else t

def step (t : Talk) : TalkMove → Talk
  | .request req => if req.issued then { t with link := t.link.request req } else t
  | .acquire i => { t with link := t.link.acquire i }
  | .sendall i => { t with link := t.link.sendall i }
  | .stamp i => { t with link := t.link.stamp i }
  | .expire i => t.expire i
  | .timeout i => t.timeout i
  | .get i => t.get i
  | .readline => t.readline
  | .discard => t.discard
  | .answer i r => t.answer i r

def run (moves : List TalkMove) : Talk := moves.foldl step {}

/-- Every call gets its own reply: a call that returns has taken the reply with its own id, and one
that raises has taken its own error reply or has timed out; a reply that arrives before the deadline
of its call is in the queue that the call reads until it is taken by it, so that the call ends with
that reply, an error reply as a `DaemonError` with its text, and does not time out. -/
structure OwnReplies (t : Talk) : Prop where
  returned : ∀ i c r, t.link.calls[i]? = some c → c.phase = .returned r → (i, ⟨i, r⟩) ∈ t.took
  raised : ∀ i c, t.link.calls[i]? = some c → c.phase = .raised →
    i ∈ t.timedOut ∨ ∃ e, (i, ⟨i, .error e⟩) ∈ t.took
  own : ∀ i a, (i, a) ∈ t.took → a.id = i
  inTime : ∀ a ∈ t.arrived, a.id ∉ t.timedOut
  kept : ∀ a ∈ t.arrived, ∀ c, t.link.calls[a.id]? = some c → c.phase.looping →
    a ∈ t.link.queueOf c
  ended : ∀ a ∈ t.arrived, ∀ c, t.link.calls[a.id]? = some c → c.phase.looping = false →
    (a.id, a) ∈ t.took ∧ c.phase = if a.reply.op = "error" then .raised else .returned a.reply

/-- A step that does not mix replies up.  A legacy call that looks at the head of `_raw` must know
its own reply, if that came in time, by the expected `op`, and no other by it; and no call may find
its deadline passed while its own reply, which came in time, is in the queue it reads. -/
def Orderly (t : Talk) : TalkMove → Prop
  | .get i => ∀ c a, t.link.calls[i]? = some c → c.phase = .waiting → c.multiplex = false →
    t.link.raw.head? = some a →
    (a.id ≠ i → a.reply.op ≠ responseMap c.req.op) ∧
      (a.id = i → a ∈ t.arrived → a.reply.op = responseMap c.req.op)
  | .timeout i => ∀ c, t.link.calls[i]? = some c → c.phase = .waiting → i ∈ t.expired →
    ∀ a ∈ t.arrived, a.id = i → a ∉ t.link.queueOf c
  | _ => True

end Talk

end Aimless
