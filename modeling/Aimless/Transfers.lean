import Aimless.Files

/-!
# Received files, from the daemon to the store

A chunk packet is stored by the daemon and reported to the window, which stores the file once its
buffer is complete; `catchup_attachments` fetches transfers from the daemon and stores them too.
The `ackfile` request that ends a transfer is one of the daemon's operations, and may come late or
never.
-/

namespace Aimless

open Python (Str Exc Json Dict)

/-- The `recv` event of a file chunk. -/
structure ChunkEvent where
  sender : PublicKey
  seq : UInt64
  ts : Int64
  payload : Bytes

/-- A transfer that `catchup_attachments` fetched. -/
structure FetchJob where
  node : Text
  tid : Text
  chunks : List AttachEntry

/-- The daemon and its client.  `events` and `jobs` are on their way to the window; `filed` are the
rows that came in, with the sender and the transfer each was made for. -/
structure Receiver where
  daemon : Daemon := {}
  events : List ChunkEvent := []
  jobs : List FetchJob := []
  gui : Gui := {}
  filed : List (PublicKey × Text × Message) := []

/-- `fetch` is a request of `catchup_attachments`; `live` and `sweep` handle the first event and the
first job; `restart` is of the client. -/
inductive ReceiverMove where
  | daemon (op : Op)
  | fetch (now : ℤ) (node tid : Text)
  | live
  | sweep
  | restart

/-- The transfer id in the routing header of a chunk. -/
def headerTid (payload : Bytes) : Text :=
  match parseFileHeader payload with
  | some (tid, _, _) => tid
  | none => []

namespace Receiver

variable (L : Libs) (C : Config) (root : AttachmentsDir)

def eventOf : Output → Option ChunkEvent
  | .event (.recvFile sender seq ts payload) => some ⟨sender, seq, ts, payload⟩
  | _ => none

/-- The window after a file of the given transfer. -/
def file (w : Receiver) (sender : PublicKey) (tid : Text) (gui : Gui) : Receiver :=
  let rows := gui.store.messages.drop w.gui.store.messages.length
  { w with gui, filed := w.filed ++ rows.map fun m => (sender, tid, m) }

def step (w : Receiver) : ReceiverMove → Receiver
  | .daemon op =>
    let (daemon, out) := w.daemon.step C op
    { w with daemon, events := w.events ++ out.filterMap eventOf }
  | .fetch now node tid =>
    match w.daemon.dispatch C now true (.fetchattachment node tid) with
    | (.fetchattachment node tid chunks, daemon) =>
      { w with daemon, jobs := w.jobs ++ [⟨node, tid, chunks⟩] }
    | (_, daemon) => { w with daemon }
  | .live =>
    match w.events with
    | [] => w
    | e :: events =>
      ({ w with events } : Receiver).file e.sender (headerTid e.payload)
        (w.gui.step L root (.live e.sender e.seq e.ts e.payload))
  | .sweep =>
    match w.jobs with
    | [] => w
    | job :: jobs =>
      match decodeFromKey job.node with
      | .error _ => { w with jobs }
      | .ok sender =>
        ({ w with jobs } : Receiver).file sender job.tid
          (w.gui.step L root (.fetched job.node job.tid job.chunks))
  | .restart => { w with events := [], jobs := [], gui := { w.gui with bufs := [] } }

def run (moves : List ReceiverMove) : Receiver := moves.foldl (step L C root) {}

/-- The rows of the store that were made for a transfer. -/
def rowsOf (w : Receiver) (sender : PublicKey) (tid : Text) : List Message :=
  w.gui.store.messages.filter fun m => (sender, tid, m) ∈ w.filed

end Receiver

end Aimless
