import Aimless.Proofs.Window
import Aimless.Lib.Runs

/-!
# Whose key signed what is shown

What `open_message`, `open_file_chunk` and `open_status` verify is a signature of the key that the
payload itself names.  No path compares that key with the contact's, so whoever holds the node key
of a contact is shown as the contact (`foreign_key_shown`).  In a run in which every payload from
the node that opens names the contact's key, what is stored and shown of the contact is signed by it
(`contact_authentic`).
-/

namespace Aimless

open Python (Str Exc Json Dict)

/-- What comes in over the transport, and the daemon's presence entry of a node. -/
inductive Inbound where
  | move (mv : WindowMove)
  | presence (p : Daemon.PresenceEntry)

namespace Inbound

/-- The input is a live event, a history response, a transfer or a presence entry of the node. -/
def From (node : Text) : Inbound → Prop
  | .move (.text sender _ _ _) => Hex.encode sender = node
  | .move (.onEvent sender _ _ _) => Hex.encode sender = node
  | .move (.history peer _) => peer = node
  | .move (.file f) => (WindowMove.file f).fileSender = some node
  | .presence p => Hex.encode p.key = node
  | _ => False

/-- The payloads that go through `open_message`. -/
def texts : Inbound → List Str
  | .move (.text _ _ _ payload) => [Python.str (Base64.encode payload)]
  | .move (.onEvent _ _ _ payload) => [Python.str (Base64.encode payload)]
  | .move (.history _ msgs) => msgs.map fun m => Python.str m.payload
  | _ => []

/-- The payloads that go through `open_file_chunk`. -/
def chunks : Inbound → List Str
  | .move (.file (.live _ _ _ payload)) => [Python.str (Base64.encode payload)]
  | .move (.file (.fetched _ _ entries)) => entries.map fun e => Python.str e.payload
  | _ => []

/-- The payloads that go through `open_status`. -/
def statuses : Inbound → List Str
  | .presence p => [Python.str p.statusPayload]
  | _ => []

/-- Every payload of the input that opens names the key. -/
structure Genuine (L : Libs) (key : Json) (i : Inbound) : Prop where
  texts : ∀ p ∈ i.texts, ∀ o, openMessage L p = .ok o → o.sender = key
  chunks : ∀ p ∈ i.chunks, ∀ parsed chunk, checkedChunk L p = some (parsed, chunk) →
    Python.get? chunk Field.sender = some key
  statuses : ∀ p ∈ i.statuses, ∀ st, openStatus L p = .ok st → st.sender = key

end Inbound

/-- The window, and what is shown of the presence of one contact. -/
structure View where
  window : Window
  shown : Shown := .offline

namespace View

variable (L : Libs) (root : AttachmentsDir) (me : Self)

def step (v : View) : Inbound → View
  | .move mv => { v with window := v.window.step L root me mv }
  | .presence p => { v with shown := presenceState L p }

def run (contacts : List Contact) (inputs : List Inbound) : View :=
  inputs.foldl (step L root me) { window := Window.start contacts }

/-- The row of a text message that the key signed. -/
def SignedText (key : Json) (node : Text) (inputs : List Inbound) (row : Message) : Prop :=
  ∃ i ∈ inputs, ∃ p ∈ i.texts, ∃ o conv seq, openMessage L p = .ok o ∧ o.sender = key
    ∧ Store.incomingRow L conv node seq o.ts o.text none = .ok (some row)

/-- A payload of the run that holds a chunk that the key signed. -/
def SignedChunk (key : Json) (inputs : List Inbound) (p : Str) : Prop :=
  (∃ i ∈ inputs, p ∈ i.chunks) ∧ ∀ parsed chunk, checkedChunk L p = some (parsed, chunk) →
    Python.get? chunk Field.sender = some key

/-- The row of a file, all of whose chunks the key signed. -/
def SignedFile (key : Json) (node : Text) (inputs : List Inbound) (row : Message) : Prop :=
  ∃ conv buf seq ts, Gui.Collected L (SignedChunk L key inputs) buf
    ∧ Gui.Finalized L conv node buf seq ts row

/-- What is stored and shown of the node was signed by the key. -/
structure Authentic (key : Json) (node : Text) (inputs : List Inbound) (v : View) : Prop where
  messages : ∀ m ∈ v.window.store.messages, m.sender = Python.str node →
    SignedText L key node inputs m ∨ SignedFile L key node inputs m
  away : ∀ a, v.shown = .online (some a) → ∃ i ∈ inputs, ∃ p ∈ i.statuses, ∃ st,
    openStatus L p = .ok st ∧ st.sender = key ∧ st.away = a

/-! ### One input -/

variable {L root me} {key : Json} {node : Text} {inputs : List Inbound}

/-- All rows are of what the key signed. -/
def AllSigned (L : Libs) (key : Json) (node : Text) (inputs : List Inbound) (st : Store) : Prop :=
  ∀ m ∈ st.messages, SignedText L key node inputs m ∨ SignedFile L key node inputs m

theorem AllSigned.of_messages {st st' : Store} (h : AllSigned L key node inputs st)
    (heq : st'.messages = st.messages) : AllSigned L key node inputs st' := by
  unfold AllSigned
  rw [heq]
  exact h

theorem AllSigned.grows {st st' : Store} (h : AllSigned L key node inputs st)
    {P : Message → Prop} (hgrow : Store.Grows P st st')
    (hP : ∀ row, P row → SignedText L key node inputs row ∨ SignedFile L key node inputs row) :
    AllSigned L key node inputs st' :=
  fun m hm => (hgrow.mem hm).elim (h m) (hP m)

theorem AllSigned.ingest {st : Store} (h : AllSigned L key node inputs st) {i : Inbound}
    (hi : i ∈ inputs) (hgen : i.Genuine L key) {p : Str} (hp : p ∈ i.texts) {o : Opened}
    (ho : openMessage L p = .ok o) (conv : Json) (seq : ℕ) :
    AllSigned L key node inputs (st.ingest L conv node seq o.ts o.text).2 :=
  h.grows (Store.ingest_grows L st conv node seq o.ts o.text none) fun _ hrow =>
    .inl ⟨i, hi, p, hp, o, conv, seq, ho, hgen.texts p hp o ho, hrow⟩

theorem AllSigned.setCursor {st : Store} (h : AllSigned L key node inputs st) (peer : Text)
    (n : ℕ) : AllSigned L key node inputs (st.setCursor peer n).2 := by
  refine h.of_messages ?_
  unfold Store.setCursor
  split <;> rfl

theorem AllSigned.route {st : Store} (h : AllSigned L key node inputs st) {i : Inbound}
    (hi : i ∈ inputs) (hgen : i.Genuine L key) {p : Str} (hp : p ∈ i.texts) {o : Opened}
    (ho : openMessage L p = .ok o) (seq : ℕ) :
    AllSigned L key node inputs (Sync.route L st node seq o).2 := by
  refine Sync.route_inv (fun d _ st h => ?_) (fun _ st h => h.ingest hi hgen hp ho _ seq) h
  obtain ⟨r, st', heq, ⟨hmsgs, -⟩, -⟩ := Store.ensureRoom_spec L st (Sync.convOf node o) d
  rw [heq]
  exact h.of_messages hmsgs

/-- The payloads of the run that go through `open_file_chunk`. -/
def ChunkOf (inputs : List Inbound) (p : Str) : Prop := ∃ i ∈ inputs, p ∈ i.chunks

theorem signedFile_of_collected (hgen : ∀ i ∈ inputs, i.Genuine L key) {conv : Json}
    {buf : FileBuf} {seq : ℕ} {ts : ℤ} {row : Message}
    (hbuf : Gui.Collected L (ChunkOf inputs) buf)
    (hrow : Gui.Finalized L conv node buf seq ts row) : SignedFile L key node inputs row := by
  refine ⟨conv, buf, seq, ts, hbuf.mono ?_, hrow⟩
  rintro p ⟨i, hi, hp⟩
  exact ⟨⟨i, hi, hp⟩, fun parsed chunk => (hgen i hi).chunks p hp parsed chunk⟩

/-- What holds all along the run. -/
structure Inv (L : Libs) (key : Json) (node : Text) (inputs : List Inbound) (v : View) : Prop where
  rows : AllSigned L key node inputs v.window.store
  bufs : Gui.BufsFrom L (ChunkOf inputs) v.window.gui
  away : ∀ a, v.shown = .online (some a) → ∃ i ∈ inputs, ∃ p ∈ i.statuses, ∃ st,
    openStatus L p = .ok st ∧ st.sender = key ∧ st.away = a

theorem Inv.text {v : View} (h : Inv L key node inputs v) {sender : PublicKey} {seq : UInt64}
    {ts : Int64} {payload : Bytes} (hi : .move (.text sender seq ts payload) ∈ inputs)
    (hgen : Inbound.Genuine L key (.move (.text sender seq ts payload)))
    (hfrom : Hex.encode sender = node) :
    Inv L key node inputs (v.step L root me (.move (.text sender seq ts payload))) := by
  subst hfrom
  simp only [step, Window.step, Event.toRecv]
  rcases Window.incoming_cases (L := L) me v.window (Hex.encode sender)
    (Event.toRecv.recvEvent false sender seq ts payload) with heq | ⟨text, o, htext, ho, heq⟩
  · rw [heq]
    exact h
  · rw [heq]
    rw [payload_of_recvEvent htext] at ho
    obtain ⟨haround, -⟩ := Window.incomingOpened_around (L := L) me v.window (Hex.encode sender)
      (Event.toRecv.recvEvent false sender seq ts payload).seqOrZero o
    refine ⟨?_, ?_, h.away⟩
    · exact Window.incomingOpened_inv
        (fun st hst => hst.of_messages (ensureNamed_messages L st o.conv _))
        (fun _ st hst => hst.ingest hi hgen List.mem_cons_self ho _ _) h.rows
    · unfold Gui.BufsFrom
      rw [haround.bufs]
      exact h.bufs

theorem Inv.file {v : View} (h : Inv L key node inputs v) (hgen : ∀ i ∈ inputs, i.Genuine L key)
    {move : FileMove} (hi : .move (.file move) ∈ inputs)
    (hfrom : (WindowMove.file move).fileSender = some node) :
    Inv L key node inputs (v.step L root me (.move (.file move))) := by
  cases move with
  | live sender seq ts payload =>
    cases hfrom
    simp only [step, Window.step, Gui.step, Event.toRecv]
    have hev : ∀ text ∈ (Event.toRecv.recvEvent true sender seq ts payload).payload,
        ChunkOf inputs (Python.str text) := by
      intro text htext
      rw [payload_of_recvEvent htext]
      exact ⟨_, hi, List.mem_cons_self⟩
    obtain ⟨hbufs, hgrow⟩ := Gui.incomingFile_spec h.bufs root (Hex.encode sender) _ hev
    refine ⟨h.rows.grows hgrow ?_, hbufs, h.away⟩
    rintro row ⟨text, -, -, parsed, chunk, buf, -, hbuf, hrow⟩
    exact .inr (signedFile_of_collected hgen hbuf hrow)
  | fetched peer tid entries =>
    obtain rfl : peer = node := Option.some.inj hfrom
    simp only [step, Window.step, Gui.step]
    split
    · exact h
    have hall : ∀ e ∈ entries, ChunkOf inputs (Python.str e.payload) :=
      fun e he => ⟨_, hi, List.mem_map_of_mem he⟩
    obtain ⟨hbufs, hgrow⟩ :=
      Gui.processFetchedTransfer_spec (ChunkOf inputs) root v.window.gui peer tid hall
    refine ⟨h.rows.grows hgrow ?_, ?_, h.away⟩
    · rintro row ⟨buf, seq, ts, -, hbuf, hrow⟩
      exact .inr (signedFile_of_collected hgen hbuf hrow)
    · unfold Gui.BufsFrom
      rw [hbufs]
      exact h.bufs

theorem Inv.presence {v : View} (h : Inv L key node inputs v) {p : Daemon.PresenceEntry}
    (hi : .presence p ∈ inputs) (hgen : Inbound.Genuine L key (.presence p)) :
    Inv L key node inputs (v.step L root me (.presence p)) := by
  refine ⟨h.rows, h.bufs, fun a ha => ⟨_, hi, _, List.mem_cons_self, ?_⟩⟩
  have ha : presenceState L p = .online (some a) := ha
  unfold presenceState at ha
  split at ha
  · cases ha
  split at ha
  · cases ha
  split at ha
  · cases ha
  split at ha
  · cases ha
  · rename_i st hst
    refine ⟨st, hst, hgen.statuses _ List.mem_cons_self st hst, ?_⟩
    split at ha
    · cases ha
      rfl
    · cases ha

theorem Inv.step {v : View} (h : Inv L key node inputs v) (hgen : ∀ i ∈ inputs, i.Genuine L key)
    {i : Inbound} (hi : i ∈ inputs) (hfrom : i.From node) :
    Inv L key node inputs (v.step L root me i) := by
  cases i with
  | presence p => exact h.presence hi (hgen _ hi)
  | move mv =>
    cases mv with
    | text sender seq ts payload => exact h.text hi (hgen _ hi) hfrom
    | onEvent sender seq ts payload =>
      refine ⟨?_, h.bufs, h.away⟩
      refine Sync.onEvent_inv (fun peer _ _ n h => h.setCursor peer n)
        (fun peer hpeer text htext o ho st hst => ?_) h.rows
      rw [payload_of_recvEvent htext] at ho
      cases hpeer
      cases hfrom
      exact hst.route hi (hgen _ hi) List.mem_cons_self ho _
    | history peer msgs =>
      cases hfrom
      refine ⟨?_, h.bufs, h.away⟩
      exact Sync.apply_inv (fun _ n h => h.setCursor _ n)
        (fun m hm o ho st hst => hst.route hi (hgen _ hi) (List.mem_map_of_mem hm) ho _) h.rows
    | file move => exact h.file hgen hi hfrom
    | ask => exact hfrom.elim
    | answer choice => exact hfrom.elim
    | addContact c => exact hfrom.elim
    | removeContact peer => exact hfrom.elim
    | createRoom chosen => exact hfrom.elim
    | toggleMute conv => exact hfrom.elim
    | restart => exact hfrom.elim

theorem Inv.start (contacts : List Contact) :
    Inv L key node inputs { window := Window.start contacts } :=
  ⟨fun _ hm => (List.not_mem_nil hm).elim, fun _ he => (List.not_mem_nil he).elim, nofun⟩

theorem run_inv (root : AttachmentsDir) (me : Self) (contacts : List Contact)
    (hgen : ∀ i ∈ inputs, i.Genuine L key) (hfrom : ∀ i ∈ inputs, i.From node) (n : ℕ) :
    Inv L key node inputs (run L root me contacts (inputs.take n)) := by
  refine Runs.invariant (step L root me) _ inputs (Inv.start contacts) (fun n i hn ih => ?_) n
  have hi : i ∈ inputs := List.mem_of_getElem? hn
  exact ih.step hgen hi (hfrom i hi)

/-- In every state of a run of one contact's inputs, what is stored and shown of the contact was
signed by its key, if what opens of these inputs names that key. -/
theorem contact_authentic (L : Libs) (root : AttachmentsDir) (me : Self) (contact : Contact)
    (others : List Contact) (inputs : List Inbound) (hfrom : ∀ i ∈ inputs, i.From contact.node)
    (hgen : ∀ i ∈ inputs, i.Genuine L contact.pubkey) :
    ∀ n, Authentic L contact.pubkey contact.node inputs
      (run L root me (contact :: others) (inputs.take n)) := by
  intro n
  have h := run_inv root me (contact :: others) hgen hfrom n
  exact ⟨fun m hm _ => h.rows m hm, h.away⟩

/-- A greeting from a node, which in `greetingLibs` is signed with the key of all nines. -/
def greeting : Inbound := .move (.text (List.replicate 32 7) 1 5 (List.replicate 48 0))

def contactOf (key : Bytes) : Contact :=
  ⟨Hex.encode (List.replicate 32 7), .str (Python.str (Hex.encode key)), .str []⟩

theorem sender_of_greeting {p : Str} (hp : p ∈ greeting.texts) {o : Opened}
    (ho : openMessage Desk.greetingLibs p = .ok o) :
    o.sender = (contactOf (List.replicate 32 9)).pubkey := by
  cases List.mem_singleton.1 hp
  cases ho
  rfl

/-- A contact whose key is the one that signed. -/
theorem contact_authentic_greeting :
    let v := run Desk.greetingLibs Gui.homeDir ⟨[], [], []⟩ [contactOf (List.replicate 32 9)]
      [greeting]
    v.window.store.messages.map (·.sender) = [Python.str (contactOf (List.replicate 32 9)).node]
      ∧ Authentic Desk.greetingLibs (contactOf (List.replicate 32 9)).pubkey
        (contactOf (List.replicate 32 9)).node [greeting] v := by
  intro v
  refine ⟨by decide +kernel, ?_⟩
  refine contact_authentic Desk.greetingLibs Gui.homeDir ⟨[], [], []⟩
    (contactOf (List.replicate 32 9)) [] [greeting] (fun i hi => ?_) (fun i hi => ?_) 1
  · cases List.mem_singleton.1 hi
    rfl
  · cases List.mem_singleton.1 hi
    exact ⟨fun p hp o ho => sender_of_greeting hp ho, nofun, nofun⟩

/-- A contact with another key: the greeting is stored as the contact's all the same. -/
theorem foreign_key_shown :
    ¬ Authentic Desk.greetingLibs (contactOf (List.replicate 32 10)).pubkey
      (contactOf (List.replicate 32 10)).node [greeting]
      (run Desk.greetingLibs Gui.homeDir ⟨[], [], []⟩ [contactOf (List.replicate 32 10)]
        [greeting]) := by
  intro h
  have hstored : ∃ m ∈ (run Desk.greetingLibs Gui.homeDir ⟨[], [], []⟩
      [contactOf (List.replicate 32 10)] [greeting]).window.store.messages,
      m.sender = Python.str (contactOf (List.replicate 32 10)).node := by
    decide +kernel
  obtain ⟨m, hm, hsender⟩ := hstored
  rcases h.messages m hm hsender with ⟨i, hi, p, hp, o, -, -, ho, hkey, -⟩ | ⟨-, buf, -, -, hbuf, -⟩
  · cases List.mem_singleton.1 hi
    rw [sender_of_greeting hp ho] at hkey
    have hne : Python.str (Hex.encode (List.replicate 32 9))
        ≠ Python.str (Hex.encode (List.replicate 32 10)) := by
      decide +kernel
    exact hne (Json.str.inj hkey)
  · obtain ⟨-, p, ⟨⟨i, hi, hp⟩, -⟩, -⟩ := hbuf.info
    cases List.mem_singleton.1 hi
    cases hp

end View

end Aimless
