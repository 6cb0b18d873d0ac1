import Aimless.CatchUp

/-!
# Clearing and deleting conversations

`on_clear_history` and `on_delete_room` of `gtkui.py`, with `clear_history` and `delete_room` of
`store.py`.  A dismissal has two halves: a worker reads the latest seq of each member from the
daemon, then the messages go and the members' cursors are moved up to what was read.  `Pane` is the
client with the halves of syncs and dismissals that are under way.
-/

namespace Aimless

open Python (Str Exc)

/-- What is done to the conversation itself. -/
inductive Dismissal where
  | clearHistory
  | deleteRoom
  deriving DecidableEq, Repr

namespace Store

/-- `DELETE FROM messages WHERE conv = ?`. -/
def deleteMessages (st : Store) (conv : Str) : Store :=
  { st with messages := st.messages.filter fun m => m.conv ≠ conv }

/-- The cursors moved up, one member after the other. -/
def setCursors : Store → List (Text × UInt64) → Except Exc Unit × Store
  | st, [] => (.ok (), st)
  | st, (node, latest) :: latests =>
    if latest = 0 then setCursors st latests
    else
      match st.setCursor node latest.toNat with
      | (.error e, st) => (.error e, st)
      | (.ok (), st) => setCursors st latests

/-- `clear_history`, or `delete_room` which also hides the conversation, and the cursors. -/
def dismiss (kind : Dismissal) (st : Store) (conv : Str) (latests : List (Text × UInt64)) :
    Except Exc Unit × Store :=
  let hide : Conversation → Conversation := fun c =>
    if c.id = some conv then { c with hidden := true } else c
  let st := st.deleteMessages conv
  let st := match kind with
    | .clearHistory => st
    | .deleteRoom => { st with conversations := st.conversations.map hide }
  st.setCursors latests

end Store

namespace Sync

variable (L : Libs) (C : Config)

/-- `client.history(node, 0).get("latest", 0)`. -/
def readLatest (now : ℤ) (d : Daemon) (node : Text) : Except ApiError UInt64 × Daemon :=
  match d.dispatch C now true (.history node 0) with
  | (.history _ _ _ latest, d) => (.ok latest, d)
  | (.error e, d) => (.error e, d)
  | (_, d) => (.ok 0, d)

/-- The worker of a dismissal; a refused request ends it. -/
def readLatests (now : ℤ) : Daemon → List Text → Except ApiError (List (Text × UInt64)) × Daemon
  | d, [] => (.ok [], d)
  | d, node :: nodes =>
    match readLatest C now d node with
    | (.error e, d) => (.error e, d)
    | (.ok latest, d) =>
      match readLatests now d nodes with
      | (.error e, d) => (.error e, d)
      | (.ok latests, d) => (.ok ((node, latest) :: latests), d)

/-- `on_clear_history` or `on_delete_room`, both halves. -/
def onDismiss (now : ℤ) (kind : Dismissal) (d : Daemon) (st : Store) (conv : Str)
    (nodes : List Text) : Daemon × Store :=
  match readLatests C now d nodes with
  | (.error _, d) => (d, st)
  | (.ok latests, d) => (d, (st.dismiss kind conv latests).2)

/-- `sync_peer` for one peer after the other. -/
def syncAll (now : ℤ) : Daemon → Store → List Text → Daemon × Store
  | d, st, [] => (d, st)
  | d, st, peer :: peers =>
    let (_, d, st) := syncPeer L C now d st peer
    syncAll now d st peers

end Sync

/-- A response on its way to the store.  `after` says how many dismissals had been applied when it
was fetched. -/
structure Response where
  peer : Text
  msgs : List HistoryMsg
  after : ℕ

/-- A dismissal whose worker is under way.  With each latest seq it read stands the daemon's inbox
at that moment. -/
structure Reading where
  kind : Dismissal
  conv : Str
  todo : List Text
  latests : List ((Text × UInt64) × List InboxRow) := []

/-- A dismissal that has been applied. -/
structure Dismissed where
  conv : Str
  latests : List ((Text × UInt64) × List InboxRow)

structure Pane where
  daemon : Daemon := {}
  store : Store := {}
  responses : List Response := []
  readings : List Reading := []
  dismissed : List Dismissed := []

inductive PaneMove where
  | daemon (op : Op)
  | fetch (now : ℤ) (peer : Text)
  | apply (i : ℕ)
  | dismiss (kind : Dismissal) (conv : Str) (nodes : List Text)
  | read (now : ℤ) (i : ℕ)
  | finish (i : ℕ)

namespace Pane

variable (L : Libs) (C : Config)

/-- The first half of a sync of one peer. -/
def fetch (now : ℤ) (w : Pane) (peer : Text) : Pane :=
  match Sync.fetch C now w.daemon w.store peer with
  | (.error _, daemon) => { w with daemon }
  | (.ok msgs, daemon) =>
    { w with daemon, responses := w.responses ++ [⟨peer, msgs, w.dismissed.length⟩] }

/-- The second half: a response that was fetched goes into the store. -/
def apply (w : Pane) (i : ℕ) : Pane :=
  match w.responses[i]? with
  | none => w
  | some r =>
    { w with responses := w.responses.eraseIdx i, store := (Sync.apply L w.store r.peer r.msgs).2 }

/-- The worker of a dismissal reads the next member's latest seq; a refused request ends it. -/
def read (now : ℤ) (w : Pane) (i : ℕ) : Pane :=
  match w.readings[i]? with
  | none => w
  | some rd =>
    match rd.todo with
    | [] => w
    | node :: todo =>
      match Sync.readLatest C now w.daemon node with
      | (.error _, daemon) => { w with daemon, readings := w.readings.eraseIdx i }
      | (.ok latest, daemon) =>
        { w with daemon, readings := w.readings.set i { rd with
          todo, latests := rd.latests ++ [((node, latest), w.daemon.db.inbox)] } }

/-- The second half of a dismissal, once its worker is done.  It counts as applied when it
returns. -/
def finish (w : Pane) (i : ℕ) : Pane :=
  match w.readings[i]? with
  | none => w
  | some rd =>
    if rd.todo ≠ [] then w
    else
      let readings := w.readings.eraseIdx i
      match w.store.dismiss rd.kind rd.conv (rd.latests.map Prod.fst) with
      | (.error _, store) => { w with store, readings }
      | (.ok (), store) =>
        { w with store, readings, dismissed := w.dismissed ++ [⟨rd.conv, rd.latests⟩] }

def step (w : Pane) : PaneMove → Pane
  | .daemon op => { w with daemon := (w.daemon.step C op).1 }
  | .fetch now peer => w.fetch C now peer
  | .apply i => w.apply L i
  | .dismiss kind conv nodes => { w with readings := w.readings ++ [⟨kind, conv, nodes, []⟩] }
  | .read now i => w.read C now i
  | .finish i => w.finish i

def run (moves : List PaneMove) : Pane := moves.foldl (step L C) {}

end Pane

end Aimless
