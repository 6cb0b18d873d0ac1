import Aimless.Files

/-!
# The messages window

`MessagesView` and the request dialogs of `gtkui.py`: live events, history responses and fetched
transfers on their way into the store, contacts and requests, rooms, and what is shown of a
contact's presence.  The store and the attachments are those of `Gui`.  What only draws is left out,
and so is what the window tells the daemon about whom to block.
-/

namespace Aimless

open Python (Str Exc Json Dict)

/-- An entry of `contacts.json`; its petname is left out. -/
structure Contact where
  node : Text
  pubkey : Json
  screen : Json

/-- A row of `pending`: a message of a stranger that waits for an answer. -/
structure ContactRequest where
  node : Text
  pubkey : Json
  screen : Json
  conv : Option Json
  members : Json
  seq : ℕ
  ts : Json
  text : Json

/-- An entry of the sidebar. -/
structure Thread where
  conv : Str
  isRoom : Bool
  deriving DecidableEq

inductive Choice where
  | accept
  | block
  | deny
  deriving DecidableEq, Repr

/-- Whose window it is. -/
structure Self where
  node : Text
  pubkey : Str
  screen : Str

/-- `known` are the nodes that are contacts, or have been. -/
structure Window where
  gui : Gui := {}
  contacts : List Contact := []
  pending : List ContactRequest := []
  asking : Option ContactRequest := none
  mutedNodes : List Text := []
  threads : List Thread := []
  known : List Text := []

/-- `v or fallback`, for a value that may be missing. -/
def truthyOr (v : Option Json) (fallback : Json) : Json :=
  match v with
  | some v => if v.truthy then v else fallback
  | none => fallback

namespace Store

/-- The row of a conversation. -/
def convRow (st : Store) (conv : Str) : Option Conversation :=
  st.conversations.find? fun c => c.id = some conv

/-- `is_room`. -/
def isRoom (st : Store) (conv : Str) : Bool := (st.convRow conv).any fun c => !c.dm

/-- `members`. -/
def members (L : Libs) (st : Store) (conv : Str) : Except Exc Json :=
  match st.convRow conv with
  | none => .ok (.obj [])
  | some c => L.loads c.members

/-- `is_conversation_muted`. -/
def isConversationMuted (L : Libs) (st : Store) (conv : Json) : Except Exc Bool :=
  (bindValue conv).map fun v =>
    st.conversations.any fun c => c.id.isSome && c.id = v.toText L && c.muted

def setMuted (st : Store) (conv : Str) (muted : Bool) : Store :=
  let set : Conversation → Conversation := fun c => if c.id = some conv then { c with muted } else c
  { st with conversations := st.conversations.map set }

/-- `rooms`, each with what `members` reads. -/
def rooms (st : Store) : List (Str × Str) :=
  (st.conversations.filter fun c => !c.dm && !c.hidden).filterMap fun c =>
    c.id.map fun id => (id, c.members)

end Store

/-! ### The roster of a message, as the window reads it -/

/-- `for m in v`. -/
def iterate : Json → Except Exc (List Json)
  | .arr l => .ok l
  | .str s => .ok (s.map fun c => .str [c])
  | .obj fields => .ok (fields.map fun e => .str e.1)
  | _ => .error .typeError

def memberInfo (node pubkey screen : Json) : Json :=
  .obj [(Field.node, node), (Field.pubkey, pubkey), (Field.screen, screen)]

/-- A member's node, and what is kept of the member. -/
def memberEntry : Json → Except Exc (Json × Json)
  | .obj fields => do
    let node ← Python.getItem fields Field.node
    let pubkey ← Python.getItem fields Field.pubkey
    let screen := (Python.get? fields Field.screen).getD (.str [])
    if node.hashable then return (node, memberInfo node pubkey screen) else throw .typeError
  | _ => .error .typeError

def memberEntries : List Json → Dict → Except Exc Dict
  | [], d => .ok d
  | m :: ms, d => do
    let (node, info) ← memberEntry m
    memberEntries ms (d.set node info)

/-- The roster that a message or a request with the given members carries. -/
def memberDict (members : Json) : Except Exc Dict := do
  let ms ← iterate members
  memberEntries ms []

/-- The keys of a dict that are strings. -/
def keyStrings (d : Dict) : List Str :=
  d.filterMap fun e =>
    match e.1 with
    | .str s => some s
    | _ => none

section Handlers

variable (L : Libs) (me : Self)

/-- What the sidebar shows of a member. -/
def screenOf (member : Str × Json) : Except Exc Str :=
  match member.2 with
  | .obj fields =>
    match truthyOr (Python.get? fields Field.screen) (.str (member.1.take 8)) with
    | .str s => .ok s
    | _ => .error .typeError   -- `sorted` and `join` take strings only
  | _ => .error .attributeError

/-- The screen names in the title of a room, of all members but oneself. -/
def roomScreens (roster : Str) : Except Exc (List Str) :=
  match L.loads roster with
  | .error e => .error e
  | .ok (.obj fields) => (fields.filter fun m => m.1 ≠ Python.str me.node).mapM screenOf
  | .ok _ => .error .attributeError

/-- `if members: ensure_room(conv, members)`, for a message that names a conversation. -/
def ensureNamed (st : Store) (conv : Option Json) (members : Json) : Except Exc Unit × Store :=
  match conv with
  | none => (.ok (), st)
  | some conv =>
    if conv.truthy then
      match memberDict members with
      | .error e => (.error e, st)
      | .ok d => if d.isEmpty then (.ok (), st) else st.ensureRoom L conv d
    else (.ok (), st)

namespace Window

def store (w : Window) : Store := w.gui.store

def setStore (w : Window) (store : Store) : Window := { w with gui := { w.gui with store } }

def isContact (w : Window) (node : Text) : Bool := w.contacts.any fun c => c.node = node

/-- `is_muted`. -/
def isMuted (w : Window) (node : Text) : Bool := w.mutedNodes.any fun n => n = node

/-- `conv in self.threads`. -/
def hasThread (w : Window) : Json → Bool
  | .str s => w.threads.any fun t => t.conv = s
  | _ => false

def addThread (isRoom : Bool) (threads : List Thread) (conv : Str) : List Thread :=
  if threads.any fun t => t.conv = conv then threads else threads ++ [⟨conv, isRoom⟩]

/-- The rooms' half of `sync_sidebar`; a title that cannot be made ends it. -/
def addRooms : List (Str × Str) → List Thread → Except Exc Unit × List Thread
  | [], threads => (.ok (), threads)
  | (conv, roster) :: rooms, threads =>
    match roomScreens L me roster with
    | .error e => (.error e, threads)
    | .ok _ => addRooms rooms (addThread true threads conv)

/-- `sync_sidebar`. -/
def syncSidebar (w : Window) : Except Exc Unit × Window :=
  let nodes := w.contacts.map fun c => Python.str c.node
  let kept := w.threads.filter fun t => t.isRoom || nodes.any fun n => n = t.conv
  let (r, threads) := addRooms L me w.store.rooms (nodes.foldl (addThread false) kept)
  (r, { w with threads })

/-- `add_recv`. -/
def addRecv (w : Window) (conv : Json) (node : Text) (seq : ℕ) (ts text : Json) :
    Except Exc Unit × Window :=
  match w.store.ingest L conv node seq ts text with
  | (.error e, store) => (.error e, w.setStore store)
  | (.ok _, store) => (.ok (), w.setStore store)

/-- `add_pending`; the first request of a node stays. -/
def addPending (w : Window) (req : ContactRequest) : Window :=
  if w.pending.any fun r => r.node = req.node then w else { w with pending := w.pending ++ [req] }

/-- The request that a stranger's message becomes. -/
def requestOf (node : Text) (seq : ℕ) (o : Opened) : ContactRequest :=
  { node, pubkey := o.sender, screen := truthyOr o.screen (.str (Python.str (node.take 8)))
    conv := o.conv, members := truthyOr o.members (.arr []), seq, ts := o.ts, text := o.text }

/-- The message of a contact: dropped where it has no thread even after the sidebar was synced. -/
def incomingContact (w : Window) (conv : Json) (node : Text) (seq : ℕ) (o : Opened) :
    Except Exc Unit × Window :=
  match if w.hasThread conv then (.ok (), w) else w.syncSidebar L me with
  | (.error e, w) => (.error e, w)
  | (.ok (), w) =>
    if w.hasThread conv then w.addRecv L conv node seq o.ts o.text else (.ok (), w)

/-- `incoming` of a text message, once it is opened. -/
def incomingOpened (w : Window) (node : Text) (seq : ℕ) (o : Opened) : Except Exc Unit × Window :=
  let conv := Sync.convOf node o
  match ensureNamed L w.store o.conv (o.members.getD (.arr [])) with
  | (.error e, store) => (.error e, w.setStore store)
  | (.ok (), store) =>
    let w := w.setStore store
    match w.store.isConversationMuted L conv with
    | .error e => (.error e, w)
    | .ok true => w.addRecv L conv node seq o.ts o.text
    | .ok false =>
      if w.isContact node then w.incomingContact L me conv node seq o
      else if w.isMuted node then (.ok (), w)
      else (.ok (), w.addPending (requestOf node seq o))

/-- `incoming` of a text message. -/
def incoming (w : Window) (node : Text) (ev : RecvEvent) : Except Exc Unit × Window :=
  match ev.payload with
  | none => (.ok (), w)   -- `event["payload"]` is a `KeyError`
  | some payload =>
    match openMessage L (Python.str payload) with
    | .error e => if caught e then (.ok (), w) else (.error e, w)
    | .ok o => w.incomingOpened L me node ev.seqOrZero o

/-! ### Requests and contacts -/

/-- `surface_pending_requests` up to the dialog, of which one is open at a time. -/
def ask (w : Window) : Window :=
  if w.asking.isSome then w
  else
    match w.pending with
    | [] => w
    | req :: pending => { w with pending, asking := some req }

/-- A contact is written to `contacts.json`, and its node is muted no longer. -/
def addContact (w : Window) (c : Contact) : Window :=
  { w with
    contacts := w.contacts ++ [c]
    known := w.known ++ [c.node]
    mutedNodes := w.mutedNodes.filter fun n => n ≠ c.node }

/-- A request is accepted: its node becomes a contact, and the withheld message is stored. -/
def accept (w : Window) (req : ContactRequest) : Except Exc Unit × Window :=
  let w := w.addContact ⟨req.node, req.pubkey, truthyOr (some req.screen)
    (.str (Python.str (req.node.take 8)))⟩
  let conv := truthyOr req.conv (.str (Python.str req.node))
  match ensureNamed L w.store req.conv req.members with
  | (.error e, store) => (.error e, w.setStore store)
  | (.ok (), store) =>
    match (w.setStore store).addRecv L conv req.node req.seq req.ts req.text with
    | (.error e, w) => (.error e, w)
    | (.ok (), w) => w.syncSidebar L me

/-- The answer to the dialog that is open. -/
def answer (w : Window) (choice : Choice) : Except Exc Unit × Window :=
  match w.asking with
  | none => (.ok (), w)
  | some req =>
    let w := { w with asking := none }
    match choice with
    | .accept => w.accept L me req
    | .block => (.ok (), { w with
        mutedNodes := if w.isMuted req.node then w.mutedNodes else w.mutedNodes ++ [req.node] })
    | .deny => (.ok (), w)

def removeContact (w : Window) (node : Text) : Window :=
  (({ w with contacts := w.contacts.filter fun c => c.node ≠ node } : Window).syncSidebar L me).2

/-- The roster of a new room: oneself and the contacts chosen. -/
def roomMembers (me : Self) (chosen : List Contact) : Dict :=
  let key := fun node : Text => Json.str (Python.str node)
  let own : Dict := [(key me.node, memberInfo (key me.node) (.str me.pubkey) (.str me.screen))]
  chosen.foldl
    (fun d c => Dict.set d (key c.node) (memberInfo (key c.node) c.pubkey c.screen)) own

/-- `create_room`. -/
def createRoom (w : Window) (chosen : List Contact) : Except Exc Unit × Window :=
  let members := roomMembers me chosen
  match roomId L (keyStrings members) with
  | .error e => (.error e, w)
  | .ok conv =>
    match w.store.ensureRoom L (.str conv) members with
    | (.error e, store) => (.error e, w.setStore store)
    | (.ok (), store) => (w.setStore store).syncSidebar L me

/-- `on_toggle_mute`. -/
def toggleMute (w : Window) (conv : Str) : Except Exc Unit × Window :=
  match w.store.isConversationMuted L (.str conv) with
  | .error e => (.error e, w)
  | .ok true => (.ok (), w.setStore (w.store.setMuted conv false))
  | .ok false =>
    match w.store.ensureConv L (.str conv) true with
    | (.error e, store) => (.error e, w.setStore store)
    | (.ok (), store) => (.ok (), w.setStore (store.setMuted conv true))

/-- The client closed and opened again: the transfers that were coming in live are lost, and so is
the request that the dialog asked about. -/
def restart (w : Window) : Window :=
  (({ w with gui := { w.gui with bufs := [] }, asking := none, threads := [] } : Window).syncSidebar
    L me).2

end Window

end Handlers

variable (L : Libs)

/-- What happens to the window, or to its store.  `history` is a response that is applied, `onEvent`
an event that goes through `Sync.on_event`; `restart` keeps what is on disk. -/
inductive WindowMove where
  | text (sender : PublicKey) (seq : UInt64) (ts : Int64) (payload : Bytes)
  | onEvent (sender : PublicKey) (seq : UInt64) (ts : Int64) (payload : Bytes)
  | history (peer : Text) (msgs : List HistoryMsg)
  | file (move : FileMove)
  | ask
  | answer (choice : Choice)
  | addContact (c : Contact)
  | removeContact (node : Text)
  | createRoom (chosen : List Contact)
  | toggleMute (conv : Str)
  | restart

namespace Window

variable (root : AttachmentsDir) (me : Self)

/-- One move; an exception leaves what was done before it. -/
def step (w : Window) : WindowMove → Window
  | .text sender seq ts payload =>
    match (Event.recv sender seq ts payload).toRecv with
    | none => w
    | some ev => (w.incoming L me (Hex.encode sender) ev).2
  | .onEvent sender seq ts payload =>
    match (Event.recv sender seq ts payload).toRecv with
    | none => w
    | some ev => w.setStore (Sync.onEvent L w.store ev).2
  | .history peer msgs => w.setStore (Sync.apply L w.store peer msgs).2
  | .file move => { w with gui := w.gui.step L root move }
  | .ask => w.ask
  | .answer choice => (w.answer L me choice).2
  | .addContact c => ((w.addContact c).syncSidebar L me).2
  | .removeContact node => w.removeContact L me node
  | .createRoom chosen => (w.createRoom L me chosen).2
  | .toggleMute conv => (w.toggleMute L conv).2
  | .restart => w.restart L me

/-- A window with the given contacts and an empty store. -/
def start (contacts : List Contact) : Window := { contacts, known := contacts.map (·.node) }

def run (contacts : List Contact) (moves : List WindowMove) : Window :=
  moves.foldl (step L root me) (start contacts)

end Window

/-! ### Presence -/

/-- What is shown of a contact. -/
inductive Shown where
  | offline
  | clientOffline
  | online (away : Option Json)

/-- `_presence_state`. -/
def presenceState (p : Daemon.PresenceEntry) : Shown :=
  if p.online = false then .offline
  else if p.clientAttached = false then .clientOffline
  else if p.statusPayload = [] then .online none
  else
    match openStatus L (Python.str p.statusPayload) with
    | .error _ => .online none
    | .ok st => .online (if st.away.truthy then some st.away else none)

end Aimless
