import Aimless.Protocol

/-!
# The client's store

`store.py`, as far as inbound messages reach it: conversations, messages and the ingest cursor of
each peer.  A function gives its result or the exception it raises, and the tables as the
connection then shows them: what a statement did before a later one raised stays.  Encrypted
columns hold their plain text.
-/

namespace Aimless

open Python (Str Exc Json Dict)

/-- A value bound to a statement. -/
inductive SqlVal where
  | null
  | int (n : ℤ)
  | real (x : Python.Float)
  | text (s : Str)
  deriving DecidableEq

/-- How `sqlite3` binds a value: an int has to fit in 64 bits and a NaN becomes `NULL`. -/
def bindValue : Json → Except Exc SqlVal
  | .null => .ok .null
  | .bool b => .ok (.int (if b then 1 else 0))
  | .int n => if -2 ^ 63 ≤ n ∧ n < 2 ^ 63 then .ok (.int n) else .error .overflowError
  | .float .nan => .ok .null
  | .float x => .ok (.real x)
  | .str s => if Python.encodable s then .ok (.text s) else .error .valueError
  | .arr _ => .error .sqliteError
  | .obj _ => .error .sqliteError

/-- The affinity of a text column. -/
def SqlVal.toText (L : Libs) : SqlVal → Option Str
  | .null => none
  | .int n => some (Python.decimalInt n)
  | .real x => some (L.realText x)
  | .text s => some s

namespace SqlVal

/-- The order of column values: `NULL`, then numbers, then texts. -/
abbrev Rank := WithBot (Lex (WithBot (WithTop ℚ) ⊕ Str))

def rank : SqlVal → Rank
  | .null => ⊥
  | .int n => (toLex (.inl ((n : ℚ) : WithTop ℚ)) : Lex (WithBot (WithTop ℚ) ⊕ Str))
  | .real .nan => ⊥
  | .real (.inf negative) =>
    (toLex (.inl (if negative then ⊥ else (⊤ : WithTop ℚ))) : Lex (WithBot (WithTop ℚ) ⊕ Str))
  | .real (.fin q) => (toLex (.inl (q : WithTop ℚ)) : Lex (WithBot (WithTop ℚ) ⊕ Str))
  | .text s => (toLex (.inr s) : Lex (WithBot (WithTop ℚ) ⊕ Str))

/-- The affinity of an integer column. -/
def toInteger (numeric : Str → SqlVal) : SqlVal → SqlVal
  | .text s => numeric s
  | v => v

end SqlVal

inductive Dir where
  | incoming
  | outgoing
  deriving DecidableEq, Repr

structure Conversation where
  id : Option Str
  dm : Bool
  members : Str
  muted : Bool
  hidden : Bool
  deriving DecidableEq

structure Message where
  id : Str
  conv : Str
  sender : Str
  dir : Dir
  ts : SqlVal
  seq : ℕ
  seqs : List (Str × ℕ)
  text : Option Str
  attachment : Option Str
  deriving DecidableEq

/-- The key of `ORDER BY ts, id`.  The column `ts` has integer affinity; `numeric` is what SQLite
makes there of a text, a number if the text is one. -/
def Message.order (numeric : Str → SqlVal) (m : Message) : SqlVal.Rank ×ₗ Str :=
  toLex ((m.ts.toInteger numeric).rank, m.id)

/-- What fits in an integer column, of the values a cursor takes. -/
abbrev Cursor := {n : ℕ // n < 2 ^ 63}

structure Store where
  conversations : List Conversation := []
  messages : List Message := []
  watermark : AList (fun _ : Text => Cursor) := ∅

/-- `in:<sender>:<seq>`. -/
def messageId (sender : Text) (seq : ℕ) : Str :=
  Python.str (['i', 'n', ':'] ++ sender ++ [':']) ++ Python.decimal seq

namespace Store

variable (L : Libs)

def cursor (st : Store) (peer : Text) : ℕ :=
  match st.watermark.lookup peer with
  | some n => n.val
  | none => 0

def setCursor (st : Store) (peer : Text) (seq : ℕ) : Except Exc Unit × Store :=
  if h : seq < 2 ^ 63 then
    let n : Cursor :=
      match st.watermark.lookup peer with
      | some old => max old ⟨seq, h⟩
      | none => ⟨seq, h⟩
    (.ok (), { st with watermark := st.watermark.insert peer n })
  else (.error .overflowError, st)

/-- `_enc`: `None` stays `None`, and only a string has an `encode`. -/
def enc : Json → Except Exc (Option Str)
  | .null => .ok none
  | .str s => if Python.encodable s then .ok (some s) else .error .valueError
  | _ => .error .attributeError

def hasConv (st : Store) (id : Option Str) : Bool :=
  id.isSome && st.conversations.any fun c => c.id = id

def ensureConv (st : Store) (conv : Json) (dm : Bool) : Except Exc Unit × Store :=
  match bindValue conv with
  | .error e => (.error e, st)
  | .ok v =>
    let id := v.toText L
    if st.hasConv id then (.ok (), st)
    else
      let c : Conversation := ⟨id, dm, Python.str ['\x7b', '\x7d'], false, false⟩
      (.ok (), { st with conversations := st.conversations ++ [c] })

def ensureRoom (st : Store) (conv : Json) (members : Dict) : Except Exc Unit × Store :=
  match L.dumps members with
  | .error e => (.error e, st)
  | .ok roster =>
    match bindValue conv with
    | .error e => (.error e, st)
    | .ok v =>
      let id := v.toText L
      if st.hasConv id then
        let update : Conversation → Conversation := fun c =>
          if c.id = id then { c with dm := false, members := roster, hidden := false } else c
        (.ok (), { st with conversations := st.conversations.map update })
      else
        (.ok (),
          { st with conversations := st.conversations ++ [⟨id, false, roster, false, false⟩] })

/-- The row of an inbound message; none where a `NOT NULL` column would be null, which
`INSERT OR IGNORE` passes over. -/
def rowOf (conv : SqlVal) (sender : Text) (seq : ℕ) (ts : SqlVal) (text attachment : Option Str) :
    Option Message :=
  match conv.toText L with
  | none => none
  | some conv =>
    if ts = .null then none
    else some ⟨messageId sender seq, conv, Python.str sender, .incoming, ts, seq,
      [(Python.str sender, seq)], text, attachment⟩

/-- What `ingest` inserts: first the values are encoded, then they are bound. -/
def incomingRow (conv : Json) (sender : Text) (seq : ℕ) (ts text : Json)
    (attachment : Option Dict) : Except Exc (Option Message) := do
  let text ← enc text
  let attachment ←
    match attachment with
    | some a => (L.dumps a).map some
    | none => .ok none
  let conv ← bindValue conv
  let ts ← bindValue ts
  if seq < 2 ^ 63 then .ok (rowOf L conv sender seq ts text attachment)
  else .error .overflowError

def hasMessage (st : Store) (id : Str) : Bool := st.messages.any fun m => m.id = id

/-- `INSERT OR IGNORE` of a message, and the conversation no longer hidden if a row came in. -/
def insertMessage (st : Store) (m : Message) : Bool × Store :=
  if st.hasMessage m.id then (false, st)
  else
    let unhide : Conversation → Conversation := fun c =>
      if c.id = some m.conv then { c with hidden := false } else c
    (true, { st with
      messages := st.messages ++ [m], conversations := st.conversations.map unhide })

/-- Whether a row is new. -/
def ingest (st : Store) (conv : Json) (sender : Text) (seq : ℕ) (ts text : Json)
    (attachment : Option Dict := none) : Except Exc Bool × Store :=
  match st.ensureConv L conv (conv.eqStr (Python.str sender)) with
  | (.error e, st) => (.error e, st)
  | (.ok (), st) =>
    match incomingRow L conv sender seq ts text attachment with
    | .error e => (.error e, st)
    | .ok none => (.ok false, st)
    | .ok (some m) =>
      let (isNew, st) := st.insertMessage m
      (.ok isNew, st)

/-- The messages of a conversation, in the order of the table. -/
def messagesOf (st : Store) (conv : Str) : List Message := st.messages.filter fun m => m.conv = conv

/-- The rows that `messages(conv)` reads, `ORDER BY ts, id`. -/
def msgs (numeric : Str → SqlVal) (st : Store) (conv : Str) : List Message :=
  (st.messagesOf conv).insertionSort fun m m' => m.order numeric ≤ m'.order numeric

end Store

end Aimless
