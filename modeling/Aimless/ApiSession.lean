import Aimless.ApiServer

/-!
# A client at the server

`daemon.py` and `api.go` joined by one connection: what `sendall` writes the handler reads, and what
the handler writes the reader reads.  The server has its other connections, and takes packets, all
the while.  The connection lasts: what breaks it is left out, and so are the events on it.
-/

namespace Aimless

/-- `_new_id`: the ids count from 1. -/
def callId (i : ℕ) : Text := 'r' :: Nat.toDigits 10 (i + 1)

/-- A request line as the server reads it. -/
def Line.api (l : Line) : ApiLine := .request (callId l.id) l.req

/-- A reply line as the server writes it. -/
def Answer.api (a : Answer) : ApiOut := .reply (callId a.id) a.reply

def ApiOut.idReply? : ApiOut → Option (Text × Reply)
  | .reply id r => some (id, r)
  | _ => none

/-- The server writes a reply; it is that to the line with its id. -/
def Talk.answerId (t : Talk) (id : Text) (r : Reply) : Talk :=
  match t.link.lines.find? fun l => callId l.id = id with
  | none => t
  | some l => t.answer l.id r

structure ApiSession where
  server : ApiServer
  talk : Talk := {}

inductive SessionMove where
  | client (m : TalkMove)
  | server (m : ServerMove)

namespace ApiSession

variable (cfg : Config) (k : ℕ)

/-- The client's own writing, and what ends its connection. -/
def isClients : ServerMove → Bool
  | .line i _ | .finish i | .hangUp i => i = k
  | .close => true
  | _ => false

/-- The reply that a move writes to the client. -/
def writes (s : ApiServer) : ServerMove → Option (Text × Reply)
  | .write i =>
    if i = k then
      (((s.conns[k]?.filter (·.alive)).bind (·.pending)).bind Thread.value?).bind ApiOut.idReply?
    else none
  | _ => none

def step (s : ApiSession) : SessionMove → ApiSession
  | .client (.answer _ _) => s
  | .client m =>
    let talk := s.talk.step m
    let written := talk.link.lines.drop s.talk.link.lines.length
    { server := written.foldl (fun server l => server.line k l.api) s.server, talk }
  | .server m =>
    if isClients k m then s
    else
      { server := s.server.step cfg m
        talk := match writes k s.server m with
          | none => s.talk
          | some (id, r) => s.talk.answerId id r }

/-- A client connects to a server after `before`; its connection is the `k`th. -/
def start (before : List ServerMove) : ApiSession := { server := (ApiServer.run cfg before).accept }

def run (before : List ServerMove) (moves : List SessionMove) : ApiSession :=
  moves.foldl (step cfg (ApiServer.run cfg before).conns.length) (start cfg before)

end ApiSession

end Aimless
