import Aimless.Journal

/-!
# The attachment store

`attachments.go`: the per-peer landing buffer for file chunks.  A chunk's payload starts with a
20-byte routing header in the clear (transfer id, chunk index, number of chunks).  A byte budget
bounds what a peer may occupy; whole transfers are evicted to make room.
-/

namespace Aimless

open Words

def attachHeaderSize : ℕ := 20

/-- The transfer id in hex, the index and the total of a chunk. -/
def parseFileHeader (payload : Bytes) : Option (Text × UInt16 × UInt16) :=
  if payload.length < attachHeaderSize then none
  else
    let index := UInt16.ofNat (getLE (slice payload 16 18))
    let total := UInt16.ofNat (getLE (slice payload 18 20))
    if total = 0 ∨ index ≥ total then none
    else some (Hex.encode (payload.take 16), index, total)

structure AttachEntry where
  tid : Text
  seq : UInt64
  index : UInt16
  total : UInt16
  ts : Int64
  payload : Text
  deriving DecidableEq, Repr

/-- A complete transfer the client has not consumed. -/
structure AttachPending where
  tid : Text
  total : UInt16
  ts : Int64
  deriving DecidableEq, Repr

structure AttachmentStore where
  peer : PublicKey
  capBytes : ℤ
  deriving DecidableEq, Repr

/-- A group of `SELECT tid, MIN(ts), COUNT(*), MAX(total) … GROUP BY tid`. -/
structure AttachTransferRow where
  tid : Text
  ts : Int64
  cnt : ℕ
  tot : ℕ
  deriving DecidableEq, Repr

def bestTs (transfers : List AttachTransferRow) (tid : Text) : Int64 :=
  ((transfers.find? fun t => t.tid = tid).map (·.ts)).getD 0

/-- The oldest transfer of one kind, by timestamp and then by tid; empty if there is none. -/
def pickOldest (transfers : List AttachTransferRow) (exclude : Text) (incomplete : Bool) : Text :=
  transfers.foldl (fun best t =>
    if t.tid = exclude ∨ t.cnt = 0 then best
    else if decide (t.cnt < t.tot) ≠ incomplete then best
    else if best = [] ∨ t.ts < bestTs transfers best
        ∨ (t.ts = bestTs transfers best ∧ t.tid < best) then t.tid
    else best) []

/-- The oldest incomplete transfer, else the oldest complete one. -/
def pickEviction (transfers : List AttachTransferRow) (exclude : Text) : Text :=
  let v := pickOldest transfers exclude true
  if v ≠ [] then v else pickOldest transfers exclude false

/-- `SELECT … FROM attach WHERE peer = ?`. -/
def DB.attachOf (db : DB) (peer : PublicKey) : List AttachRow :=
  db.attach.filter fun r => r.peer = peer

namespace AttachmentStore

variable (as : AttachmentStore)

/-- `SELECT COALESCE(SUM(LENGTH(payload)), 0)`. -/
def bytes (db : DB) : ℕ := ((db.attachOf as.peer).map (·.payload.length)).sum

def transfersTx (db : DB) : List AttachTransferRow :=
  ((db.attachOf as.peer).map (·.tid)).dedup.map fun tid =>
    let rows := (db.attachOf as.peer).filter fun r => r.tid = tid
    { tid, ts := (sqlMin (rows.map (·.ts))).getD 0, cnt := rows.length,
      tot := (rows.map (·.total.toNat)).foldl max 0 }

/-- Frees a transfer after the client consumed it. -/
def ackTid (db : DB) (tid : Text) : DB :=
  { db with attach := db.attach.filter fun r => ¬ (r.peer = as.peer ∧ r.tid = tid) }

/-- The eviction loop; `none` is the budget error.  Each round deletes at least one row, so the
number of rows bounds the rounds. -/
def makeRoomLoop (need : ℕ) (exclude : Text) : (rounds : ℕ) → DB → Option DB
  | 0, db => if (as.bytes db + need : ℤ) > as.capBytes then none else some db
  | rounds + 1, db =>
    if (as.bytes db + need : ℤ) > as.capBytes then
      let victim := pickEviction (as.transfersTx db) exclude
      if victim = [] then none else makeRoomLoop need exclude rounds (as.ackTid db victim)
    else some db

def makeRoomTx (db : DB) (need : ℕ) (exclude : Text) : Option DB :=
  if (need : ℤ) > as.capBytes then none
  else as.makeRoomLoop need exclude (db.attachOf as.peer).length db

/-- Stores one chunk after enforcing the budget; `false` for a chunk it has, `none` for an error,
which rolls the transaction back. -/
def add (db : DB) (tid : Text) (index total : UInt16) (seq : UInt64) (ts : Int64)
    (payload : Bytes) : Option (Bool × DB) :=
  if db.attach.any fun r => r.peer = as.peer ∧ r.tid = tid ∧ r.idx = index then some (false, db)
  else do
    let db ← as.makeRoomTx db payload.length tid
    return (true, { db with
      attach := db.attach ++ [⟨as.peer, tid, index, total, seq.toInt64, ts, payload⟩] })

/-- The complete transfers, newest first. -/
def pending (db : DB) : List AttachPending :=
  (((as.transfersTx db).filter fun t => t.cnt = t.tot).insertionSort fun s t => s.ts ≥ t.ts).map
    fun t => { tid := t.tid, total := UInt16.ofNat t.tot, ts := t.ts }

/-- One transfer's chunks, ordered by index. -/
def fetchTid (db : DB) (tid : Text) : List AttachEntry :=
  ((db.attach.filter fun r => r.peer = as.peer ∧ r.tid = tid).insertionSort
    fun r s => r.idx ≤ s.idx).map fun r =>
    { tid, seq := r.seq.toUInt64, index := r.idx, total := r.total, ts := r.ts,
      payload := Base64.encode r.payload }

/-! ### The transaction of `Add` -/

/-- The eviction loop on the tables that the transaction sees: whether there is room, and what the
loop leaves of the tables, also where it gives up. -/
def makeRoomWork (need : ℕ) (exclude : Text) : (rounds : ℕ) → DB → Bool × DB
  | 0, db => (¬ (as.bytes db + need : ℤ) > as.capBytes, db)
  | rounds + 1, db =>
    if (as.bytes db + need : ℤ) > as.capBytes then
      let victim := pickEviction (as.transfersTx db) exclude
      if victim = [] then (false, db) else makeRoomWork need exclude rounds (as.ackTid db victim)
    else (true, db)

/-- What `Add` returns: `isNew` true or false without an error, or `errAttachBudget`. -/
inductive AddResult where
  | isNew
  | duplicate
  | budget
  deriving DecidableEq, Repr

/-- The body of `Add` and the tables it leaves in its transaction. -/
def addWork (db : DB) (tid : Text) (index total : UInt16) (seq : UInt64) (ts : Int64)
    (payload : Bytes) : AddResult × DB :=
  if db.attach.any fun r => r.peer = as.peer ∧ r.tid = tid ∧ r.idx = index then (.duplicate, db)
  else if (payload.length : ℤ) > as.capBytes then (.budget, db)
  else
    match as.makeRoomWork payload.length tid (db.attachOf as.peer).length db with
    | (false, db) => (.budget, db)
    | (true, db) => (.isNew, { db with
        attach := db.attach ++ [⟨as.peer, tid, index, total, seq.toInt64, ts, payload⟩] })

/-- The transaction is committed at the end of the body; every earlier return rolls it back. -/
def addTx (db : DB) (tid : Text) (index total : UInt16) (seq : UInt64) (ts : Int64)
    (payload : Bytes) : AddResult × DB :=
  match as.addWork db tid index total seq ts payload with
  | (.isNew, work) => (.isNew, work)
  | (r, _) => (r, db)

end AttachmentStore

/-- A call on the attachment store of a peer. -/
inductive AttachCall where
  | add (tid : Text) (index total : UInt16) (seq : UInt64) (ts : Int64) (payload : Bytes)
  | ackTid (tid : Text)
  deriving DecidableEq, Repr

namespace AttachmentStore

variable (as : AttachmentStore)

def call (db : DB) : AttachCall → DB
  | .add tid index total seq ts payload => (as.addTx db tid index total seq ts payload).2
  | .ackTid tid => as.ackTid db tid

def calls (db : DB) (l : List AttachCall) : DB := l.foldl as.call db

end AttachmentStore

end Aimless
