import Aimless.Store

/-!
# Delivery of sent messages

`store.py` and `gtkui.py`, where a sent message is recorded with the acknowledgements it waits for
and where these come in.  The table `deliveries` has a row for each recipient and seq.  The window
keeps the outstanding chunks of the files it sent, and the acknowledgements it has seen lately.
What only draws (bubbles, rows) is left out.
-/

namespace Aimless

open Python (Str Exc Json Dict)

/-- A recipient's node and the seq its daemon acknowledges. -/
abbrev DeliveryKey := Text × ℕ

structure DeliveryRow where
  key : DeliveryKey
  msgId : Str
  acked : Bool
  deriving DecidableEq

/-- A sent file that is followed: what is outstanding of it, and how many recipients it has. -/
structure FileRec where
  filename : Str
  keys : Finset DeliveryKey
  membersTotal : ℕ
  deriving DecidableEq

/-- The line below a sent file, by `_set_delivery_text`. -/
inductive DeliveryText where
  | sent (filename : Str)
  | delivered (filename : Str)
  | sending (filename : Str)
  | progress (filename : Str) (done total : ℕ)
  deriving DecidableEq

def FileRec.text (file : FileRec) : DeliveryText :=
  let left := (file.keys.image Prod.fst).card
  if file.membersTotal = 0 then .sent file.filename
  else if left = 0 then .delivered file.filename
  else if file.membersTotal = 1 then .sending file.filename
  else .progress file.filename (file.membersTotal - left) file.membersTotal

/-- `files` are the records made by `register_file_delivery`; `_pending_files` points to them. -/
structure Tracker where
  store : Store := {}
  deliveries : List DeliveryRow := []
  ackedSeen : Finset DeliveryKey := ∅
  files : List FileRec := []
  pendingFiles : AList (fun _ : DeliveryKey => ℕ) := ∅

namespace Tracker

/-- `sorted(seqs.items())`. -/
def sortedItems (seqs : List DeliveryKey) : List DeliveryKey :=
  seqs.insertionSort fun a b => a.1 < b.1 ∨ a.1 = b.1 ∧ a.2 ≤ b.2

def outId (seqs : List DeliveryKey) : Str :=
  Python.str ['o', 'u', 't', ':'] ++ (Python.str [',']).intercalate
    ((sortedItems seqs).map fun e => Python.str e.1 ++ Python.str ['='] ++ Python.decimal e.2)

/-- The keys a message is followed by: its seqs, or those given for it that are not zero. -/
def trackedKeys (seqs : List DeliveryKey) : Option (List DeliveryKey) → List DeliveryKey
  | none => seqs
  | some keys => keys.filter fun k => k.2 ≠ 0

/-- `INSERT OR IGNORE INTO deliveries`. -/
def insertDelivery (t : Tracker) (mid : Str) (k : DeliveryKey) : Except Exc Unit × Tracker :=
  if k.2 < 2 ^ 63 then
    if t.deliveries.any fun r => r.key = k then (.ok (), t)
    else (.ok (), { t with deliveries := t.deliveries ++ [⟨k, mid, false⟩] })
  else (.error .overflowError, t)

/-- The loop over the keys of a message, in the order the set gives them. -/
def insertDeliveries (mid : Str) : Tracker → List DeliveryKey → Except Exc Unit × Tracker
  | t, [] => (.ok (), t)
  | t, k :: ks =>
    match t.insertDelivery mid k with
    | (.error e, t) => (.error e, t)
    | (.ok (), t) => insertDeliveries mid t ks

variable (L : Libs)

/-- `self._enc(json.dumps(attachment)) if attachment else None`. -/
def attachmentColumn : Option Dict → Except Exc (Option Str)
  | none => .ok none
  | some a => if a.isEmpty then .ok none else (L.dumps a).map some

/-- What `add_sent` inserts: first the values are encoded, then they are bound. -/
def outgoingRow (conv : Str) (seqs : List DeliveryKey) (ts : ℤ) (text : Str)
    (attachment : Option Dict) : Except Exc Message := do
  let text ← Store.enc (.str text)
  let attachment ← attachmentColumn L attachment
  let ts ← bindValue (.int ts)
  .ok ⟨outId seqs, conv, Python.str ['s', 'e', 'l', 'f'], .outgoing, ts, 0,
    seqs.map fun e => (Python.str e.1, e.2), text, attachment⟩

/-- `add_sent`: whether the message is new. -/
def addSent (t : Tracker) (conv : Str) (seqs : List DeliveryKey) (ts : ℤ) (text : Str)
    (attachment : Option Dict) (deliveryKeys : Option (List DeliveryKey)) :
    Except Exc Bool × Tracker :=
  match t.store.ensureConv L (.str conv) true with
  | (.error e, store) => (.error e, { t with store })
  | (.ok (), store) =>
    match outgoingRow L conv seqs ts text attachment with
    | .error e => (.error e, { t with store })
    | .ok m =>
      let isNew := !store.hasMessage m.id
      let store := if isNew then { store with messages := store.messages ++ [m] } else store
      match ({ t with store } : Tracker).insertDeliveries m.id (trackedKeys seqs deliveryKeys) with
      | (.error e, t) => (.error e, t)
      | (.ok (), t) => (.ok isNew, t)

/-- `is_delivered`; `none` for a message that is not followed. -/
def isDelivered (t : Tracker) (mid : Str) : Option Bool :=
  let rows := t.deliveries.filter fun r => r.msgId = mid
  if rows = [] then none else some (rows.all (·.acked))

/-- `mark_delivered`: the message the key belongs to.  An event leaves out a zero seq, and
`int(None)` is a `TypeError`. -/
def markDelivered (t : Tracker) (k : DeliveryKey) : Except Exc (Option Str) × Tracker :=
  if k.2 = 0 then (.error .typeError, t)
  else if 2 ^ 63 ≤ k.2 then (.error .overflowError, t)
  else
    match t.deliveries.find? fun r => r.key = k with
    | none => (.ok none, t)
    | some r =>
      let mark : DeliveryRow → DeliveryRow := fun r =>
        if r.key = k then { r with acked := true } else r
      (.ok (some r.msgId),
        if r.acked then t else { t with deliveries := t.deliveries.map mark })

/-- `register_file_delivery`. -/
def registerFileDelivery (t : Tracker) (filename : Str) (keys : List DeliveryKey) : Tracker :=
  let keys := keys.filter fun k => k.2 ≠ 0
  let pending := keys.filter fun k => k ∉ t.ackedSeen
  let file : FileRec :=
    { filename, keys := pending.toFinset, membersTotal := (keys.map Prod.fst).toFinset.card }
  { t with
    files := t.files ++ [file]
    pendingFiles := pending.foldl (fun d k => d.insert k t.files.length) t.pendingFiles }

def ackedSeenCap : ℕ := 4096

/-- `_acked_seen.add`, and the set emptied when it has grown too large. -/
def see (t : Tracker) (k : DeliveryKey) : Tracker :=
  let seen := insert k t.ackedSeen
  { t with ackedSeen := if ackedSeenCap < seen.card then ∅ else seen }

/-- `note_acked`: whether the key was one of a file that is followed. -/
def noteAcked (t : Tracker) (k : DeliveryKey) : Except Exc Bool × Tracker :=
  match (t.see k).markDelivered k with
  | (.error e, t) => (.error e, t)
  | (.ok _, t) =>
    match t.pendingFiles.lookup k with
    | none => (.ok false, t)
    | some i =>
      (.ok true, { t with
        pendingFiles := t.pendingFiles.erase k
        files := t.files.modify i fun file => { file with keys := file.keys.erase k } })

end Tracker

/-- What reaches the window: the reply to a text or a file it sent, or an `acked` event. -/
inductive TrackerMove where
  | text (conv : Str) (seqs : List DeliveryKey) (ts : ℤ) (text : Str)
  | file (conv : Str) (seqs : List DeliveryKey) (ts : ℤ) (filename : Str) (attachment : Dict)
    (expected : List DeliveryKey)
  | acked (k : DeliveryKey)

namespace Tracker

variable (L : Libs)

/-- A raise while a message is recorded ends its callback. -/
def step (t : Tracker) : TrackerMove → Tracker
  | .text conv seqs ts text => (t.addSent L conv seqs ts text none none).2
  | .file conv seqs ts filename attachment expected =>
    match t.addSent L conv seqs ts filename (some attachment) (some expected) with
    | (.error _, t) => t
    | (.ok _, t) => t.registerFileDelivery filename expected
  | .acked k => (t.noteAcked k).2

def run (moves : List TrackerMove) : Tracker := moves.foldl (step L) {}

end Tracker

end Aimless
