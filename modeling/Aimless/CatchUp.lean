import Aimless.Service

/-!
# A client catching up with its daemon

One daemon, the client's store, and a peer: the daemon goes through its operations, the client
handles some of the events the daemon broadcast, whenever and in whatever order they reach it, and
syncs the peer.  An event the client never handles was lost while it was away.
-/

namespace Aimless

open Python (Exc)

namespace Sync

variable (L : Libs) (C : Config)

/-- `Client.history`: the reply to a `history` request above the cursor. -/
def fetch (now : ℤ) (d : Daemon) (st : Store) (peer : Text) :
    Except ApiError (List HistoryMsg) × Daemon :=
  match d.dispatch C now true (.history peer (UInt64.ofNat (st.cursor peer))) with
  | (.history _ msgs _ _, d) => (.ok msgs, d)
  | (.error e, d) => (.error e, d)
  | (_, d) => (.ok [], d)

inductive SyncError where
  | refused (e : ApiError)
  | raised (e : Exc)
  deriving DecidableEq, Repr

/-- `sync_peer`. -/
def syncPeer (now : ℤ) (d : Daemon) (st : Store) (peer : Text) :
    Except SyncError ℕ × Daemon × Store :=
  match fetch C now d st peer with
  | (.error e, d) => (.error (.refused e), d, st)
  | (.ok msgs, d) =>
    match apply L st peer msgs with
    | (.error e, st) => (.error (.raised e), d, st)
    | (.ok n, st) => (.ok n, d, st)

end Sync

/-- The daemon, what it has broadcast, the client's store, and the seqs of the peer's messages that
were handed to the client: by an event it handled, or by a sync that returned. -/
structure Desk where
  daemon : Daemon := {}
  events : List Event := []
  store : Store := {}
  handed : List UInt64 := []

inductive DeskMove where
  | daemon (op : Op)
  | live (seq : UInt64) (ts : Int64) (payload : Bytes)
  | sync (now : ℤ)

namespace Desk

variable (L : Libs) (C : Config) (p : PublicKey)

def eventsOf (out : List Output) : List Event :=
  out.filterMap fun
    | .event e => some e
    | _ => none

/-- `on_event` of a message of `p` that the daemon has broadcast. -/
def live (w : Desk) (seq : UInt64) (ts : Int64) (payload : Bytes) : Desk :=
  match (Event.recv p seq ts payload).toRecv with
  | none => w
  | some ev =>
    match Sync.onEvent L w.store ev with
    | (.ok _, store) => { w with store, handed := w.handed ++ [seq] }
    | (.error _, store) => { w with store }

/-- The entries a sync asks the daemon for now. -/
def tail (now : ℤ) (w : Desk) : List HistoryMsg :=
  match (Sync.fetch C now w.daemon w.store (Hex.encode p)).1 with
  | .ok msgs => msgs
  | .error _ => []

def sync (now : ℤ) (w : Desk) : Desk :=
  match Sync.syncPeer L C now w.daemon w.store (Hex.encode p) with
  | (.ok _, daemon, store) =>
    { w with daemon, store, handed := w.handed ++ (w.tail C p now).map (·.seq) }
  | (.error _, daemon, store) => { w with daemon, store }

/-- Whether `sync_peer` returns. -/
def returns (now : ℤ) (w : Desk) : Bool :=
  match (Sync.syncPeer L C now w.daemon w.store (Hex.encode p)).1 with
  | .ok _ => true
  | .error _ => false

def step (w : Desk) : DeskMove → Desk
  | .daemon op =>
    let (daemon, out) := w.daemon.step C op
    { w with daemon, events := w.events ++ eventsOf out }
  | .live seq ts payload =>
    if .recv p seq ts payload ∈ w.events then w.live L p seq ts payload else w
  | .sync now => w.sync L C p now

def run (moves : List DeskMove) : Desk := moves.foldl (step L C p) {}

end Desk

end Aimless
