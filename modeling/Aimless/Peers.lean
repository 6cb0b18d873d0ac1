import Aimless.Dismiss

/-!
# Syncing several peers at once

`fetch` and `sync_peers` of `service.py`: the tails of all peers are fetched in one comprehension,
then the responses are applied in one sum, and whatever a request or a response raises ends both.
The peers come from a set, so no two are the same; a node out of a roster is any string a sender
wrote there.

Responses and live events reach the store in whatever order the worker and the window hand them
over, some of them more than once; `Ingest` is one of them.
-/

namespace Aimless

open Python (Str Exc)

namespace Sync

/-- What the daemon answers to each `history` request. -/
abbrev Replies := Text → ℕ → Except ApiError (List HistoryMsg)

/-- The replies of a daemon as it stands. -/
def repliesOf (C : Config) (now : ℤ) (d : Daemon) : Replies := fun peer after =>
  match (d.dispatch C now true (.history peer (UInt64.ofNat after))).1 with
  | .history _ msgs _ _ => .ok msgs
  | .error e => .error e
  | _ => .ok []

variable (L : Libs) (replies : Replies)

/-- `self.client.history(p, self.store.cursor(p))`: the statement of `cursor` cannot bind a string
with a surrogate. -/
def request (st : Store) (p : Str) : Except SyncError (Text × List HistoryMsg) :=
  match Python.text? p with
  | none => .error (.raised .valueError)
  | some peer =>
    match replies peer (st.cursor peer) with
    | .error e => .error (.refused e)
    | .ok msgs => .ok (peer, msgs)

/-- `fetch`. -/
def fetchPeers (st : Store) : List Str → Except SyncError (List (Text × List HistoryMsg))
  | [] => .ok []
  | p :: peers =>
    match request replies st p with
    | .error e => .error e
    | .ok r =>
      match fetchPeers st peers with
      | .error e => .error e
      | .ok rs => .ok (r :: rs)

/-- `sum(self.apply(p, r) for p, r in …)`. -/
def applyAll : Store → List (Text × List HistoryMsg) → Except Exc ℕ × Store
  | st, [] => (.ok 0, st)
  | st, (peer, msgs) :: rs =>
    match apply L st peer msgs with
    | (.error e, st) => (.error e, st)
    | (.ok n, st) =>
      match applyAll st rs with
      | (.error e, st) => (.error e, st)
      | (.ok total, st) => (.ok (n + total), st)

/-- `sync_peers`. -/
def syncPeers (st : Store) (peers : List Str) : Except SyncError ℕ × Store :=
  match fetchPeers replies st peers with
  | .error e => (.error e, st)
  | .ok rs =>
    match applyAll L st rs with
    | (.error e, st) => (.error (.raised e), st)
    | (.ok total, st) => (.ok total, st)

/-- `sync_peer` of a peer on its own. -/
def syncOne (st : Store) (p : Str) : Except SyncError ℕ × Store :=
  match request replies st p with
  | .error e => (.error e, st)
  | .ok (peer, msgs) =>
    match apply L st peer msgs with
    | (.error e, st) => (.error (.raised e), st)
    | (.ok n, st) => (.ok n, st)

/-- A response that is applied, or an event that is handled. -/
inductive Ingest where
  | apply (peer : Text) (msgs : List HistoryMsg)
  | onEvent (ev : RecvEvent)

/-- What the store is afterwards, whether or not something was raised. -/
def Ingest.exec (st : Store) : Ingest → Store
  | .apply peer msgs => (Sync.apply L st peer msgs).2
  | .onEvent ev => (Sync.onEvent L st ev).2

def ingestAll (st : Store) (ops : List Ingest) : Store := ops.foldl (Ingest.exec L) st

end Sync

end Aimless
