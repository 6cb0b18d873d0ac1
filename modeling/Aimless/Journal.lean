import Aimless.Envelope
import Aimless.Lib.TextCodec

/-!
# The daemon's journals

`db.go` and `store.go`: the tables of a data directory, the per-peer send queue and the per-peer
receive log over them.  All peers share the tables, so every statement carries its own filter on
the peer column, as in the source.  The peer column holds the hex form of a public key, which
determines the key; here it holds the key.  Statements are taken to succeed and a transaction to
take effect as a whole.
-/

namespace Aimless

abbrev PublicKey := Bytes

structure OutboxRow where
  peer : PublicKey
  seq : Int64
  ts : Int64
  type : EnvelopeType
  payload : Bytes
  deriving DecidableEq, Repr

/-- A row of `outbox_seq`.  Past the largest 64-bit integer SQLite turns the sum `next + 1` into a
floating-point number, so `next` is not bounded here. -/
structure OutboxSeqRow where
  peer : PublicKey
  next : ℕ
  deriving DecidableEq, Repr

structure InboxRow where
  peer : PublicKey
  seq : Int64
  ts : Int64
  payload : Bytes
  deriving DecidableEq, Repr

structure InboxSeenRow where
  peer : PublicKey
  seq : Int64
  deriving DecidableEq, Repr

structure PeerStateRow where
  peer : PublicKey
  retainedMin : Int64
  deriving DecidableEq, Repr

structure AttachRow where
  peer : PublicKey
  tid : Text
  idx : UInt16
  total : UInt16
  seq : Int64
  ts : Int64
  payload : Bytes
  deriving DecidableEq, Repr

structure DB where
  outbox : List OutboxRow := []
  outboxSeq : List OutboxSeqRow := []
  inbox : List InboxRow := []
  inboxSeen : List InboxSeenRow := []
  peerState : List PeerStateRow := []
  attach : List AttachRow := []
  deriving DecidableEq, Repr

/-- The shape shared by the outbox and the inbox; `payload` is base64 text. -/
structure JournalEntry where
  seq : UInt64
  ts : Int64
  payload : Text
  type : EnvelopeType
  sentAt : Int64
  deriving DecidableEq, Repr

/-- `MIN(seq)` over the selected rows, `NULL` over none. -/
def sqlMin (l : List Int64) : Option Int64 := l.argmin id

/-- `MAX(seq)` over the selected rows, `NULL` over none. -/
def sqlMax (l : List Int64) : Option Int64 := l.argmax id

namespace OutboxJournal

/-- The times of the last successful enqueue, by seq; kept in memory only. -/
abbrev Sent := AList fun _ : UInt64 => Int64

/-- `sent[seq]`, `0` for a missing key. -/
def sentAt (sent : Sent) (seq : UInt64) : Int64 := (sent.lookup seq).getD 0

/-- The next seq for the peer.  A counter that has left the 64-bit integers does not scan, and the
transaction is rolled back. -/
def nextSeq (db : DB) (peer : PublicKey) : Option UInt64 × DB :=
  let next := ((db.outboxSeq.find? fun r => r.peer = peer).map (·.next)).getD 1
  let rows := if db.outboxSeq.any fun r => r.peer = peer then db.outboxSeq
    else db.outboxSeq ++ [⟨peer, 1⟩]
  if next < 2 ^ 63 then
    (some (UInt64.ofNat next), { db with
      outboxSeq := rows.map fun r => if r.peer = peer then { r with next := r.next + 1 } else r })
  else (none, db)

/-- `INSERT OR REPLACE INTO outbox`. -/
def queueAs (db : DB) (peer : PublicKey) (seq : UInt64) (ts : Int64) (payload : Bytes)
    (typ : EnvelopeType) : DB :=
  { db with outbox := (db.outbox.filter fun r => ¬ (r.peer = peer ∧ r.seq = seq.toInt64))
      ++ [⟨peer, seq.toInt64, ts, typ, payload⟩] }

def queue (db : DB) (peer : PublicKey) (seq : UInt64) (ts : Int64) (payload : Bytes) : DB :=
  queueAs db peer seq ts payload typeMsg

/-- Every unacked entry in seq order, with its last enqueue time. -/
def pending (db : DB) (peer : PublicKey) (sent : Sent) : List JournalEntry :=
  ((db.outbox.filter fun r => r.peer = peer).insertionSort fun r s => r.seq ≤ s.seq).map fun r =>
    { seq := r.seq.toUInt64, ts := r.ts, type := r.type, payload := Base64.encode r.payload,
      sentAt := sentAt sent r.seq.toUInt64 }

def markSent (sent : Sent) (seq : UInt64) (stamp : Int64) : Sent := sent.insert seq stamp

/-- Removes an entry, and says whether the seq was still pending. -/
def ack (db : DB) (peer : PublicKey) (sent : Sent) (seq : UInt64) : Bool × DB × Sent :=
  (db.outbox.any fun r => r.peer = peer ∧ r.seq = seq.toInt64,
    { db with outbox := db.outbox.filter fun r => ¬ (r.peer = peer ∧ r.seq = seq.toInt64) },
    sent.erase seq)

end OutboxJournal

/-- The retained window and the size of its replay guard. -/
structure InboxStore where
  peer : PublicKey
  capacity : ℕ
  seenCap : ℕ
  deriving DecidableEq, Repr

/-- `NewInboxStore` raises a capacity below `1` to `1`. -/
def newInboxStore (peer : PublicKey) (capacity : ℤ) : InboxStore :=
  let c := if capacity < 1 then 1 else capacity.toNat
  { peer, capacity := c, seenCap := 4 * c }

/-- The seqs of `SELECT seq FROM inbox WHERE peer = ?`. -/
def DB.inboxSeqs (db : DB) (peer : PublicKey) : List Int64 :=
  (db.inbox.filter fun r => r.peer = peer).map (·.seq)

/-- The seqs of `SELECT seq FROM inbox_seen WHERE peer = ?`. -/
def DB.seenSeqs (db : DB) (peer : PublicKey) : List Int64 :=
  (db.inboxSeen.filter fun r => r.peer = peer).map (·.seq)

namespace InboxStore

variable (box : InboxStore)

/-- One round of the eviction loop: the oldest row moves to the replay guard. -/
def evictOldest (db : DB) : DB :=
  match sqlMin (db.inboxSeqs box.peer) with
  | none => db
  | some oldest => { db with
      inboxSeen := if db.inboxSeen.any fun r => r.peer = box.peer ∧ r.seq = oldest then db.inboxSeen
        else db.inboxSeen ++ [⟨box.peer, oldest⟩]
      inbox := db.inbox.filter fun r => ¬ (r.peer = box.peer ∧ r.seq = oldest) }

def evictLoop : (count : ℕ) → DB → DB
  | 0, db => db
  | count + 1, db =>
    if count + 1 > box.capacity then evictLoop count (box.evictOldest db) else db

/-- Deletes every seq of the guard but the `seenCap` newest. -/
def boundGuard (db : DB) : DB :=
  let keep := ((db.seenSeqs box.peer).insertionSort (· ≥ ·)).take box.seenCap
  { db with inboxSeen := db.inboxSeen.filter fun r => ¬ (r.peer = box.peer ∧ r.seq ∉ keep) }

/-- `INSERT INTO peer_state … ON CONFLICT(peer) DO UPDATE SET retained_min`. -/
def setRetainedMin (db : DB) : DB :=
  let retained := (sqlMin (db.inboxSeqs box.peer)).getD 0
  { db with peerState :=
      if db.peerState.any fun r => r.peer = box.peer then
        db.peerState.map fun r => if r.peer = box.peer then { r with retainedMin := retained } else r
      else db.peerState ++ [⟨box.peer, retained⟩] }

def trimTx (db : DB) : DB :=
  box.setRetainedMin (box.boundGuard (box.evictLoop (db.inboxSeqs box.peer).length db))

/-- Stores one message; `false` for a seq that is retained or remembered in the guard. -/
def add (db : DB) (seq : UInt64) (ts : Int64) (payload : Bytes) : Bool × DB :=
  if db.inbox.any fun r => r.peer = box.peer ∧ r.seq = seq.toInt64 then (false, db)
  else if db.inboxSeen.any fun r => r.peer = box.peer ∧ r.seq = seq.toInt64 then (false, db)
  else (true, box.trimTx { db with inbox := db.inbox ++ [⟨box.peer, seq.toInt64, ts, payload⟩] })

/-- The entries with seq above `afterSeq`, in order; both are compared as signed integers. -/
def after (db : DB) (afterSeq : UInt64) : List JournalEntry :=
  ((db.inbox.filter fun r => r.peer = box.peer ∧ r.seq > afterSeq.toInt64).insertionSort
    fun r s => r.seq ≤ s.seq).map fun r =>
    { seq := r.seq.toUInt64, ts := r.ts, payload := Base64.encode r.payload, type := 0,
      sentAt := 0 }

def oldest (db : DB) : UInt64 := ((sqlMin (db.inboxSeqs box.peer)).map (·.toUInt64)).getD 0

def latest (db : DB) : UInt64 := ((sqlMax (db.inboxSeqs box.peer)).map (·.toUInt64)).getD 0

end InboxStore

end Aimless
