import Aimless.Deliveries
import Aimless.Dismiss
import Aimless.Lib.Table

/-!
# Reading the store

What `store.py` shows of its tables: the messages of a conversation with the state of their
delivery, and the count of unread ones.  `Archive` is the store with the table `read_marks`.
-/

namespace Aimless

open Python (Str Exc Json Dict)

namespace SqlVal

/-- `value or 0`. -/
def orZero : SqlVal → SqlVal
  | .null => .int 0
  | .real x => if x = .fin 0 then .int 0 else .real x
  | .text s => if s = [] then .int 0 else .text s
  | .int n => .int n

/-- `MAX` of a column, `NULL` over no rows. -/
def maximum (l : List SqlVal) : SqlVal := (l.argmax rank).getD .null

end SqlVal

/-! ### Delivery -/

namespace Tracker

/-- `mark_delivered` of a seq that is given. -/
def markSeq (t : Tracker) (k : DeliveryKey) : Except Exc (Option Str) × Tracker :=
  if 2 ^ 63 ≤ k.2 then (.error .overflowError, t)
  else
    match t.deliveries.find? fun r => r.key = k with
    | none => (.ok none, t)
    | some r =>
      let mark : DeliveryRow → DeliveryRow := fun r =>
        if r.key = k then { r with acked := true } else r
      (.ok (some r.msgId),
        if r.acked then t else { t with deliveries := t.deliveries.map mark })

/-- The rows of a message. -/
def rowsOf (t : Tracker) (mid : Str) : List DeliveryRow := Table.rowsOf (·.msgId) t.deliveries mid

/-- `SUM(acked)`. -/
def sumAcked (rows : List DeliveryRow) : ℕ := rows.countP (·.acked)

/-- Tracked and acked chunks of a message. -/
def deliveryProgress (t : Tracker) (mid : Str) : ℕ × ℕ :=
  ((t.rowsOf mid).length, sumAcked (t.rowsOf mid))

/-- Recipients of a message, and those to whom all of it is delivered. -/
def deliveryMembers (t : Tracker) (mid : Str) : ℕ × ℕ :=
  let groups := Table.groups (fun r : DeliveryRow => r.key.1) (t.rowsOf mid)
  (groups.length, groups.countP fun g => sumAcked g.2 = g.2.length)

def undelivered (t : Tracker) (mid : Str) : List DeliveryKey :=
  (t.deliveries.filter fun r => r.msgId = mid ∧ ¬ r.acked).map (·.key)

/-- One group of `_delivery_summary`: one recipient more, who may be done. -/
def addMember (summary : AList fun _ : Str => ℕ × ℕ) (g : (Str × Text) × List DeliveryRow) :
    AList fun _ : Str => ℕ × ℕ :=
  let old := (summary.lookup g.1.1).getD (0, 0)
  summary.insert g.1.1 (old.1 + 1, old.2 + if sumAcked g.2 = g.2.length then 1 else 0)

/-- Recipients and finished recipients of each message, by groups of message and recipient. -/
def deliverySummary (t : Tracker) (mids : List Str) : AList fun _ : Str => ℕ × ℕ :=
  let ids := mids.filter fun m => m ≠ []
  let rows := t.deliveries.filter fun r => ids.contains r.msgId
  (Table.groups (fun r : DeliveryRow => (r.msgId, r.key.1)) rows).foldl addMember ∅

end Tracker

/-- What a message shows of its delivery. -/
structure DeliveryShown where
  delivered : Option Bool
  deliveryTotal : Option ℕ
  deliveredCount : ℕ
  deriving DecidableEq

/-- A message as `messages` gives it; an incoming one says nothing of delivery. -/
structure ShownMessage where
  message : Message
  delivery : Option DeliveryShown
  deriving DecidableEq

/-- `msg.get("delivered")`. -/
def ShownMessage.delivered (s : ShownMessage) : Option Bool := s.delivery.bind (·.delivered)

namespace Tracker

def rowToMsg (summary : AList fun _ : Str => ℕ × ℕ) (m : Message) : ShownMessage :=
  let shown : DeliveryShown :=
    match summary.lookup m.id with
    | none => ⟨none, none, 0⟩
    | some (total, acked) => ⟨some (acked = total), some total, acked⟩
  { message := m, delivery := if m.dir = .outgoing then some shown else none }

variable (numeric : Str → SqlVal)

/-- The value of the column `ts`. -/
def tsOf (m : Message) : SqlVal := m.ts.toInteger numeric

/-- `messages(conv)`, in the order of `ts` and id. -/
def messages (t : Tracker) (conv : Str) : List ShownMessage :=
  let rows := t.store.msgs numeric conv
  let summary := t.deliverySummary (rows.map (·.id))
  rows.map (rowToMsg summary)

end Tracker

/-! ### Reading -/

structure Archive where
  tracker : Tracker := {}
  readMarks : AList (fun _ : Str => SqlVal) := ∅

inductive ArchiveMove where
  | ingest (conv : Json) (sender : Text) (seq : ℕ) (ts text : Json) (attachment : Option Dict)
  | addSent (conv : Str) (seqs : List DeliveryKey) (ts : ℤ) (text : Str) (attachment : Option Dict)
    (deliveryKeys : Option (List DeliveryKey))
  | markDelivered (k : DeliveryKey)
  | clearHistory (conv : Str)
  | deleteRoom (conv : Str) (scanPoints : List (Text × UInt64))
  | markRead (conv : Str)

namespace Archive

variable (L : Libs) (numeric : Str → SqlVal)

def ingest (a : Archive) (conv : Json) (sender : Text) (seq : ℕ) (ts text : Json)
    (attachment : Option Dict) : Except Exc Bool × Archive :=
  let (r, store) := a.tracker.store.ingest L conv sender seq ts text attachment
  (r, { a with tracker := { a.tracker with store } })

/-- `clear_history` or `delete_room`; the read mark goes with the messages. -/
def dismiss (kind : Dismissal) (a : Archive) (conv : Str) (scanPoints : List (Text × UInt64)) :
    Except Exc Unit × Archive :=
  let (r, store) := a.tracker.store.dismiss kind conv scanPoints
  (r, { a with tracker := { a.tracker with store }, readMarks := a.readMarks.erase conv })

/-- `MAX(upto_ts, excluded.upto_ts)`. -/
def laterMark (old new : SqlVal) : SqlVal := if old.rank < new.rank then new else old

def markRead (a : Archive) (conv : Str) : Archive :=
  let upto := (SqlVal.maximum
    ((a.tracker.store.messagesOf conv).map (Tracker.tsOf numeric))).orZero
  let mark := ((a.readMarks.lookup conv).map fun old => laterMark old upto).getD upto
  { a with readMarks := a.readMarks.insert conv mark }

/-- The mark a conversation is read up to. -/
def readMark (a : Archive) (conv : Str) : SqlVal := (a.readMarks.lookup conv).getD (.int 0)

def unread (a : Archive) (conv : Str) : ℕ :=
  ((a.tracker.store.messagesOf conv).filter fun m =>
    m.dir = .incoming ∧ (a.readMark conv).rank < (Tracker.tsOf numeric m).rank).length

def step (a : Archive) : ArchiveMove → Archive
  | .ingest conv sender seq ts text attachment =>
    (a.ingest L conv sender seq ts text attachment).2
  | .addSent conv seqs ts text attachment deliveryKeys =>
    { a with tracker := (a.tracker.addSent L conv seqs ts text attachment deliveryKeys).2 }
  | .markDelivered k => { a with tracker := (a.tracker.markSeq k).2 }
  | .clearHistory conv => (a.dismiss .clearHistory conv []).2
  | .deleteRoom conv scanPoints => (a.dismiss .deleteRoom conv scanPoints).2
  | .markRead conv => a.markRead numeric conv

def run (a : Archive) (moves : List ArchiveMove) : Archive := moves.foldl (step L numeric) a

end Archive

end Aimless
