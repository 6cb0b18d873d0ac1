import Aimless.Proofs.Filing
import Aimless.Proofs.Window
import Aimless.Lib.Runs

/-!
# Messages of strangers

A text message of a stranger that comes in live waits in `pending` until its request is accepted.
Files, history responses and fetched transfers are stored whoever sent them
(`stranger_file_stored`).  In every run in which what comes these ways from a node that never was a
contact does not open, nothing of a stranger is stored (`strangers_withheld`).
-/

namespace Aimless

open Python (Str Exc Json Dict)

namespace Window

variable {L : Libs} {root : AttachmentsDir} {me : Self} {w : Window}

/-- What a move stores, and what it writes below the attachment directory, is of a node that is
known, or of a conversation that is muted. -/
structure Withheld (L : Libs) (w : Window) (mv : WindowMove) (w' : Window) : Prop where
  messages : ∀ m ∈ w'.store.messages, m ∉ w.store.messages →
    (∃ node ∈ w'.known, m.sender = Python.str node)
      ∨ ∃ c ∈ w'.store.conversations, c.id = some m.conv ∧ c.muted = true
  files : w'.gui.fs ≠ w.gui.fs → (∃ node ∈ w'.known, mv.fileSender = some node)
    ∨ ∃ conv ∈ mv.fileConv L, w'.store.isConversationMuted L conv = .ok true

/-- What opens of what comes from a node that never was a contact, other than as a live text
message, names a conversation that is muted. -/
def Screened (L : Libs) (w : Window) : WindowMove → Prop
  | .onEvent sender _ _ payload => Hex.encode sender ∈ w.known
    ∨ ∀ o, openMessage L (Python.str (Base64.encode payload)) = .ok o →
      w.store.isConversationMuted L (Sync.convOf (Hex.encode sender) o) = .ok true
  | .history peer msgs => peer ∈ w.known
    ∨ ∀ m ∈ msgs, ∀ o, openMessage L (Python.str m.payload) = .ok o →
      w.store.isConversationMuted L (Sync.convOf peer o) = .ok true
  | .file move => (∃ node ∈ w.known, (WindowMove.file move).fileSender = some node)
    ∨ ∀ conv ∈ (WindowMove.file move).fileConv L, w.store.isConversationMuted L conv = .ok true
  | _ => True

/-! ### What the store keeps of a conversation -/

/-- The conversations of `st` are still there, as muted as they were. -/
def KeepsMuted (st st' : Store) : Prop :=
  ∀ c ∈ st.conversations, ∃ c' ∈ st'.conversations, c'.id = c.id ∧ c'.muted = c.muted

theorem insertMessage_keepsMuted (st : Store) (m : Message) :
    KeepsMuted st (st.insertMessage m).2 := by
  intro c hc
  unfold Store.insertMessage
  dsimp only
  split
  · exact ⟨c, hc, rfl, rfl⟩
  · exact ⟨_, List.mem_map_of_mem hc, by split <;> rfl, by split <;> rfl⟩

theorem ensureConv_keepsMuted (st : Store) (conv : Json) (dm : Bool) :
    KeepsMuted st (st.ensureConv L conv dm).2 := by
  intro c hc
  unfold Store.ensureConv
  split
  · exact ⟨c, hc, rfl, rfl⟩
  dsimp only
  split
  · exact ⟨c, hc, rfl, rfl⟩
  · exact ⟨c, List.mem_append_left _ hc, rfl, rfl⟩

theorem KeepsMuted.trans {st st' st'' : Store} (h : KeepsMuted st st') (h' : KeepsMuted st' st'') :
    KeepsMuted st st'' := by
  intro c hc
  obtain ⟨c', hc', hid, hm⟩ := h c hc
  obtain ⟨c'', hc'', hid', hm'⟩ := h' c' hc'
  exact ⟨c'', hc'', hid'.trans hid, hm'.trans hm⟩

theorem ingest_keepsMuted (st : Store) (conv : Json) (sender : Text) (seq : ℕ) (ts text : Json)
    (attachment : Option Dict) :
    KeepsMuted st (st.ingest L conv sender seq ts text attachment).2 := by
  have hconv := ensureConv_keepsMuted (L := L) st conv (conv.eqStr (Python.str sender))
  unfold Store.ingest
  split <;> rename_i heq <;> rw [heq] at hconv
  · exact hconv
  · split
    · exact hconv
    · exact hconv
    · exact hconv.trans (insertMessage_keepsMuted _ _)

theorem ensureRoom_keepsMuted (st : Store) (conv : Json) (d : Dict) :
    KeepsMuted st (st.ensureRoom L conv d).2 := by
  intro c hc
  unfold Store.ensureRoom
  split
  · exact ⟨c, hc, rfl, rfl⟩
  split
  · exact ⟨c, hc, rfl, rfl⟩
  dsimp only
  split
  · exact ⟨_, List.mem_map_of_mem hc, by split <;> rfl, by split <;> rfl⟩
  · exact ⟨c, List.mem_append_left _ hc, rfl, rfl⟩

theorem setCursor_keepsMuted (st : Store) (node : Text) (n : ℕ) :
    KeepsMuted st (st.setCursor node n).2 := by
  intro c hc
  unfold Store.setCursor
  split
  · exact ⟨c, hc, rfl, rfl⟩
  · exact ⟨c, hc, rfl, rfl⟩

theorem KeepsMuted.refl (st : Store) : KeepsMuted st st := fun c hc => ⟨c, hc, rfl, rfl⟩

theorem isConversationMuted_iff {st : Store} {conv : Json} :
    st.isConversationMuted L conv = .ok true
      ↔ ∃ v, bindValue conv = .ok v
        ∧ ∃ c ∈ st.conversations, c.id.isSome ∧ c.id = v.toText L ∧ c.muted = true := by
  unfold Store.isConversationMuted
  cases bindValue conv with
  | error e => simp [Except.map]
  | ok v => simp [Except.map, and_assoc]

/-- The row of a message for a muted conversation, which is still muted once the row is stored. -/
theorem KeepsMuted.row {st st' : Store} (h : KeepsMuted st st') {conv : Json}
    (hmuted : st.isConversationMuted L conv = .ok true) {m : Message}
    (hm : ∃ v, bindValue conv = .ok v ∧ v.toText L = some m.conv) :
    ∃ c ∈ st'.conversations, c.id = some m.conv ∧ c.muted = true := by
  obtain ⟨v, hv, htext⟩ := hm
  obtain ⟨v', hv', c, hc, -, hid, hcm⟩ := isConversationMuted_iff.1 hmuted
  rw [hv] at hv'
  cases hv'
  obtain ⟨c', hc', hid', hcm'⟩ := h c hc
  exact ⟨c', hc', hid'.trans (hid.trans htext), hcm'.trans hcm⟩

theorem KeepsMuted.muted {st st' : Store} (h : KeepsMuted st st') {conv : Json}
    (hmuted : st.isConversationMuted L conv = .ok true) :
    st'.isConversationMuted L conv = .ok true := by
  obtain ⟨v, hv, c, hc, hsome, hid, hcm⟩ := isConversationMuted_iff.1 hmuted
  obtain ⟨c', hc', hid', hcm'⟩ := h c hc
  exact isConversationMuted_iff.2 ⟨v, hv, c', hc', hid' ▸ hsome, hid'.trans hid, hcm'.trans hcm⟩

/-! ### Live text messages -/

variable (me) in
/-- A live text message is stored for a contact, or where the conversation is muted. -/
theorem incomingOpened_rows (w : Window) (node : Text) (seq : ℕ) (o : Opened) :
    ∀ m ∈ (w.incomingOpened L me node seq o).2.store.messages, m ∈ w.store.messages
      ∨ m.sender = Python.str node ∧ (w.isContact node = true
        ∨ ∃ c ∈ (w.incomingOpened L me node seq o).2.store.conversations,
          c.id = some m.conv ∧ c.muted = true) := by
  have hmsgs := ensureNamed_messages L w.store o.conv (o.members.getD (.arr []))
  unfold incomingOpened
  dsimp only
  split <;> rename_i store hensure <;> rw [hensure] at hmsgs
  · exact fun m hm => .inl (hmsgs ▸ hm)
  split
  · exact fun m hm => .inl (hmsgs ▸ hm)
  · rename_i hmuted
    intro m hm
    rcases addRecv_rows _ _ _ _ _ _ hm with hm | ⟨hsender, hv⟩
    · exact .inl (hmsgs ▸ hm)
    -- The conversation that was found muted is the one of the row.
    · rw [addRecv_spec]
      have hkeep := ingest_keepsMuted (L := L) (w.setStore store).store (Sync.convOf node o) node seq
        o.ts o.text none
      exact .inr ⟨hsender, .inr (hkeep.row hmuted hv)⟩
  · split
    · rename_i hcontact
      intro m hm
      rcases (w.setStore store).incomingContact_store (L := L) me (Sync.convOf node o) node seq o
        with
        heq | heq <;> rw [heq] at hm
      · exact .inl (hmsgs ▸ hm)
      · rcases (Store.ingest_grows L _ _ node seq o.ts o.text none).mem hm with hm | hrow
        · exact .inl (hmsgs ▸ hm)
        · exact .inr ⟨(Store.incomingRow_fields hrow).1, .inl hcontact⟩
    · split
      · exact fun m hm => .inl (hmsgs ▸ hm)
      · unfold addPending
        split <;> exact fun m hm => .inl (hmsgs ▸ hm)

/-! ### What comes from one node -/

/-- The store after messages and files of one node, for the given conversations. -/
structure Adds (L : Libs) (node : Text) (convs : Json → Prop) (st st' : Store) : Prop where
  keepsMuted : KeepsMuted st st'
  rows : ∀ m ∈ st'.messages, m ∈ st.messages ∨ m.sender = Python.str node
    ∧ ∃ conv, convs conv ∧ ∃ v, bindValue conv = .ok v ∧ v.toText L = some m.conv

variable {node : Text} {convs : Json → Prop} {st₀ st : Store}

theorem Adds.refl (st : Store) : Adds L node convs st st := ⟨.refl st, fun _ hm => .inl hm⟩

theorem Adds.ingest (h : Adds L node convs st₀ st) {conv : Json} (hconv : convs conv) (seq : ℕ)
    (ts text : Json) (attachment : Option Dict) :
    Adds L node convs st₀ (st.ingest L conv node seq ts text attachment).2 where
  keepsMuted := h.keepsMuted.trans (ingest_keepsMuted st conv node seq ts text attachment)
  rows m hm := by
    rcases (Store.ingest_grows L st conv node seq ts text attachment).mem hm with hm | hrow
    · exact h.rows m hm
    · obtain ⟨hsender, -, -, -, -, hv⟩ := Store.incomingRow_fields hrow
      exact .inr ⟨hsender, conv, hconv, hv⟩

theorem Adds.ensureRoom (h : Adds L node convs st₀ st) (conv : Json) (d : Dict) :
    Adds L node convs st₀ (st.ensureRoom L conv d).2 where
  keepsMuted := h.keepsMuted.trans (ensureRoom_keepsMuted st conv d)
  rows m hm := by
    obtain ⟨r, st', heq, ⟨hmsgs, -⟩, -⟩ := Store.ensureRoom_spec L st conv d
    rw [heq, hmsgs] at hm
    exact h.rows m hm

theorem Adds.setCursor (h : Adds L node convs st₀ st) (peer : Text) (n : ℕ) :
    Adds L node convs st₀ (st.setCursor peer n).2 where
  keepsMuted := h.keepsMuted.trans (setCursor_keepsMuted st peer n)
  rows m hm := by
    refine h.rows m ?_
    unfold Store.setCursor at hm
    split at hm <;> exact hm

theorem Adds.route (h : Adds L node convs st₀ st) (seq : ℕ) {o : Opened}
    (ho : convs (Sync.convOf node o)) : Adds L node convs st₀ (Sync.route L st node seq o).2 :=
  Sync.route_inv (fun d _ _ h => h.ensureRoom _ d) (fun _ _ h => h.ingest ho seq _ _ none) h

theorem adds_apply (st : Store) (peer : Text) (msgs : List HistoryMsg) :
    Adds L peer (fun conv => ∃ m ∈ msgs, ∃ o, openMessage L (Python.str m.payload) = .ok o
      ∧ conv = Sync.convOf peer o) st (Sync.apply L st peer msgs).2 :=
  Sync.apply_inv (fun _ n h => h.setCursor peer n)
    (fun m hm o ho _ h => h.route m.seq.toNat ⟨m, hm, o, ho, rfl⟩) (.refl st)

theorem adds_onEvent (st : Store) (ev : RecvEvent) (hev : ev.sender = some node) :
    Adds L node (fun conv => ∃ payload ∈ ev.payload, ∃ o, openMessage L (Python.str payload) = .ok o
      ∧ conv = Sync.convOf node o) st (Sync.onEvent L st ev).2 := by
  refine Sync.onEvent_inv (fun peer _ _ n h => h.setCursor peer n)
    (fun peer hpeer payload hp o ho st h => ?_) (.refl st)
  cases hev.symm.trans hpeer
  exact h.route _ ⟨payload, hp, o, ho, rfl⟩

theorem adds_file (root : AttachmentsDir) (g : Gui) {move : FileMove}
    (hnode : (WindowMove.file move).fileSender = some node) :
    Adds L node (fun conv => conv ∈ (WindowMove.file move).fileConv L) g.store
      (g.step L root move).store :=
  fileStep_inv hnode (fun _ hconv seq ts text att _ h => h.ingest hconv seq ts text att) (.refl _)

/-- What comes from one node is withheld where the node is known or its conversations are muted. -/
theorem Adds.withheld (w w' : Window) (h : Adds L node convs w.store w'.store)
    (hs : node ∈ w'.known ∨ ∀ conv, convs conv → w.store.isConversationMuted L conv = .ok true)
    {m : Message} (hm : m ∈ w'.store.messages) (hnew : m ∉ w.store.messages) :
    (∃ node ∈ w'.known, m.sender = Python.str node)
      ∨ ∃ c ∈ w'.store.conversations, c.id = some m.conv ∧ c.muted = true := by
  rcases h.rows m hm with hm | ⟨hsender, conv, hconv, hv⟩
  · exact absurd hm hnew
  · rcases hs with hknown | hmuted
    · exact .inl ⟨node, hknown, hsender⟩
    · exact .inr (h.keepsMuted.row (hmuted conv hconv) hv)

/-! ### One move -/

theorem Withheld.of_same {mv : WindowMove} {w' : Window}
    (hmsgs : w'.store.messages = w.store.messages) (hfs : w'.gui.fs = w.gui.fs) :
    Withheld L w mv w' :=
  ⟨fun _ hm hnew => absurd (hmsgs ▸ hm) hnew, fun h => absurd hfs h⟩

/-- The contacts are known. -/
def Acquainted (w : Window) : Prop := ∀ c ∈ w.contacts, c.node ∈ w.known

theorem SameAround.acquainted {w' : Window} (h : SameAround w w') (hw : Acquainted w) :
    Acquainted w' := by
  unfold Acquainted
  rw [h.contacts, h.known]
  exact hw

theorem isContact_iff {node : Text} : w.isContact node = true ↔ ∃ c ∈ w.contacts, c.node = node := by
  simp [isContact]

variable (me) in
/-- What accepting a request stores is of the node that asked. -/
theorem accept_rows (w : Window) (req : ContactRequest) : ∀ m ∈ (w.accept L me req).2.store.messages,
    m ∈ w.store.messages ∨ m.sender = Python.str req.node := by
  refine accept_inv (I := fun st => ∀ m ∈ st.messages,
    m ∈ w.store.messages ∨ m.sender = Python.str req.node) (fun st h m hm => ?_)
    (fun _ st h m hm => ?_) (fun m hm => .inl hm)
  · rw [ensureNamed_messages] at hm
    exact h m hm
  · rcases (Store.ingest_grows L st _ req.node req.seq req.ts req.text none).mem hm with hm | hrow
    · exact h m hm
    · exact .inr (Store.incomingRow_fields hrow).1

/-- The answer to a request: only accepting it stores something. -/
theorem answer_withheld (hw : Acquainted w) (choice : Choice) :
    Acquainted (w.answer L me choice).2 ∧ Withheld L w (.answer choice) (w.answer L me choice).2 := by
  unfold answer
  split
  · exact ⟨hw, .of_same rfl rfl⟩
  rename_i req _
  dsimp only
  cases choice with
  | block => exact ⟨hw, .of_same rfl rfl⟩
  | deny => exact ⟨hw, .of_same rfl rfl⟩
  | accept =>
    obtain ⟨hfs, -, hknown, -, -, hcontacts⟩ :=
      accept_around (L := L) me { w with asking := none } req
    have hrows := accept_rows (L := L) me { w with asking := none } req
    refine ⟨fun c hc => ?_, fun m hm hnew => ?_, fun h => absurd hfs h⟩
    · rw [hknown]
      rcases hcontacts c hc with hc | hc
      · exact List.mem_append_left _ (hw c hc)
      · rw [hc]
        exact List.mem_append_right _ List.mem_cons_self
    · refine .inl ⟨req.node, ?_, (hrows m hm).resolve_left hnew⟩
      rw [hknown]
      exact List.mem_append_right _ List.mem_cons_self

theorem text_withheld (hw : Acquainted w) (sender : PublicKey) (seq : UInt64) (ts : Int64)
    (payload : Bytes) : Acquainted (w.step L root me (.text sender seq ts payload))
      ∧ Withheld L w (.text sender seq ts payload)
        (w.step L root me (.text sender seq ts payload)) := by
  simp only [step, Event.toRecv]
  rcases incoming_cases (L := L) me w (Hex.encode sender)
    (Event.toRecv.recvEvent false sender seq ts payload) with heq | ⟨text, o, -, -, heq⟩
  · rw [heq]
    exact ⟨hw, .of_same rfl rfl⟩
  · rw [heq]
    obtain ⟨haround, -⟩ := incomingOpened_around (L := L) me w (Hex.encode sender)
      (Event.toRecv.recvEvent false sender seq ts payload).seqOrZero o
    have hrows := incomingOpened_rows (L := L) me w (Hex.encode sender)
      (Event.toRecv.recvEvent false sender seq ts payload).seqOrZero o
    refine ⟨haround.acquainted hw, fun m hm hnew => ?_, fun h => absurd haround.fs h⟩
    rcases hrows m hm with hm | ⟨hsender, hcontact | hmuted⟩
    · exact absurd hm hnew
    · obtain ⟨c, hc, hnode⟩ := isContact_iff.1 hcontact
      refine .inl ⟨c.node, ?_, by rw [hsender, hnode]⟩
      rw [haround.known]
      exact hw c hc
    · exact .inr hmuted

theorem file_withheld {move : FileMove} (hs : Screened L w (.file move)) :
    Withheld L w (.file move) (w.step L root me (.file move)) := by
  obtain ⟨node, hnode⟩ : ∃ node, (WindowMove.file move).fileSender = some node := by
    cases move with
    | live sender seq ts payload => exact ⟨_, rfl⟩
    | fetched node tid entries => exact ⟨_, rfl⟩
  have hadds := adds_file (L := L) root w.gui hnode
  have hs : node ∈ w.known
      ∨ ∀ conv ∈ (WindowMove.file move).fileConv L, w.store.isConversationMuted L conv = .ok true :=
    hs.imp_left fun ⟨n, hn, heq⟩ => Option.some.inj (hnode.symm.trans heq) ▸ hn
  refine ⟨fun m hm hnew => ?_, fun hfs => ?_⟩
  · exact Adds.withheld w (w.step L root me (.file move)) hadds hs hm hnew
  · rcases hs with hknown | hmuted
    · exact .inl ⟨node, hknown, hnode⟩
    · rcases hconv : (WindowMove.file move).fileConv L with _ | conv
      · exact absurd (congrArg Gui.fs (fileStep_of_none w.gui hconv)) hfs
      · exact .inr ⟨conv, rfl, hadds.keepsMuted.muted (hmuted conv hconv)⟩

/-- Every move keeps the contacts known, and withholds what is of a stranger if it is screened. -/
theorem step_withheld (hw : Acquainted w) (mv : WindowMove) :
    Acquainted (w.step L root me mv)
      ∧ (Screened L w mv → Withheld L w mv (w.step L root me mv)) := by
  cases mv with
  | text sender seq ts payload =>
    exact (text_withheld hw sender seq ts payload).imp_right fun h _ => h
  | onEvent sender seq ts payload =>
    refine ⟨hw, fun hs => ⟨fun m hm hnew => ?_, fun h => absurd rfl h⟩⟩
    have hadds := adds_onEvent (L := L) w.store
      (Event.toRecv.recvEvent false sender seq ts payload) rfl
    refine Adds.withheld w (w.step L root me (.onEvent sender seq ts payload)) hadds
      (hs.imp_right ?_) hm hnew
    rintro hmuted conv ⟨text, htext, o, ho, rfl⟩
    rw [payload_of_recvEvent htext] at ho
    exact hmuted o ho
  | history peer msgs =>
    refine ⟨hw, fun hs => ⟨fun m hm hnew => ?_, fun h => absurd rfl h⟩⟩
    refine Adds.withheld w (w.step L root me (.history peer msgs))
      (adds_apply w.store peer msgs) (hs.imp_right ?_) hm hnew
    rintro hmuted conv ⟨x, hx, o, ho, rfl⟩
    exact hmuted x hx o ho
  | file move => exact ⟨hw, file_withheld⟩
  | ask =>
    simp only [step, ask]
    split
    · exact ⟨hw, fun _ => .of_same rfl rfl⟩
    split
    · exact ⟨hw, fun _ => .of_same rfl rfl⟩
    · exact ⟨hw, fun _ => .of_same rfl rfl⟩
  | answer choice => exact (answer_withheld hw choice).imp_right fun h _ => h
  | addContact c =>
    refine ⟨fun x hx => ?_, fun _ => .of_same rfl rfl⟩
    rcases List.mem_append.1 hx with hx | hx
    · exact List.mem_append_left _ (hw x hx)
    · rw [List.mem_singleton.1 hx]
      exact List.mem_append_right _ List.mem_cons_self
  | removeContact node =>
    exact ⟨fun x hx => hw x (List.mem_of_mem_filter hx), fun _ => .of_same rfl rfl⟩
  | createRoom chosen =>
    obtain ⟨haround, -, hmsgs⟩ := createRoom_around (L := L) me w chosen
    exact ⟨haround.acquainted hw, fun _ => .of_same hmsgs haround.fs⟩
  | toggleMute conv =>
    obtain ⟨haround, -, hmsgs⟩ := toggleMute_around (L := L) w conv
    exact ⟨haround.acquainted hw, fun _ => .of_same hmsgs haround.fs⟩
  | restart => exact ⟨hw, fun _ => .of_same rfl rfl⟩

theorem run_acquainted (contacts : List Contact) (moves : List WindowMove) :
    Acquainted (run L root me contacts moves) := by
  have hstart : Acquainted (start contacts) := fun c hc => List.mem_map_of_mem hc
  exact Runs.invariant_end (step L root me) _ moves hstart fun mv _ w hw => (step_withheld hw mv).1

/-- In a run whose moves are all screened, each of them withholds what is of a stranger. -/
theorem strangers_withheld (L : Libs) (root : AttachmentsDir) (me : Self) (contacts : List Contact)
    (moves : List WindowMove)
    (h : ∀ n mv, moves[n]? = some mv → Screened L (run L root me contacts (moves.take n)) mv) :
    ∀ n mv, moves[n]? = some mv → Withheld L (run L root me contacts (moves.take n)) mv
      (run L root me contacts (moves.take (n + 1))) := by
  intro n mv hn
  have hnext : run L root me contacts (moves.take (n + 1))
      = (run L root me contacts (moves.take n)).step L root me mv :=
    Runs.foldl_take_succ (step L root me) _ hn
  rw [hnext]
  exact (step_withheld (run_acquainted contacts _) mv).2 (h n mv hn)

/-- The file of a contact is stored. -/
theorem strangers_withheld_contact :
    let L := Gui.chunkLibs []
    let contact : Contact := ⟨Hex.encode (List.replicate 32 7), .str [], .str []⟩
    let w := run L Gui.homeDir ⟨[], [], []⟩ [contact] [.file Gui.chunkMove]
    w.store.messages.length = 1
      ∧ Withheld L (run L Gui.homeDir ⟨[], [], []⟩ [contact] []) (.file Gui.chunkMove) w := by
  intro L contact w
  refine ⟨by decide +kernel, ?_⟩
  refine strangers_withheld L Gui.homeDir ⟨[], [], []⟩ [contact] [.file Gui.chunkMove] ?_ 0 _ rfl
  intro n mv hn
  cases n with
  | zero =>
    cases hn
    exact .inl ⟨contact.node, List.mem_cons_self, rfl⟩
  | succ n => cases hn

theorem not_withheld {mv : WindowMove} {w' : Window} (hknown : w'.known = [])
    (hmuted : ∀ c ∈ w'.store.conversations, c.muted = false)
    (hnew : ∃ m ∈ w'.store.messages, m ∉ w.store.messages) : ¬ Withheld L w mv w' := by
  intro h
  obtain ⟨m, hm, hnew⟩ := hnew
  rcases h.messages m hm hnew with ⟨node, hnode, -⟩ | ⟨c, hc, -, hcm⟩
  · rw [hknown] at hnode
    cases hnode
  · rw [hmuted c hc] at hcm
    cases hcm

/-- With no contacts at all, the file of a stranger is stored as it comes in, and the message of a
stranger as it is swept. -/
theorem stranger_file_stored :
    let node : Text := Hex.encode (List.replicate 32 7)
    let msg : HistoryMsg := ⟨1, 5, Base64.encode (List.replicate 48 0)⟩
    (¬ Withheld (Gui.chunkLibs []) (run (Gui.chunkLibs []) Gui.homeDir ⟨[], [], []⟩ [] [])
        (.file Gui.chunkMove)
        (run (Gui.chunkLibs []) Gui.homeDir ⟨[], [], []⟩ [] [.file Gui.chunkMove]))
      ∧ ¬ Withheld Desk.greetingLibs (run Desk.greetingLibs Gui.homeDir ⟨[], [], []⟩ [] [])
        (.history node [msg])
        (run Desk.greetingLibs Gui.homeDir ⟨[], [], []⟩ [] [.history node [msg]]) := by
  constructor
  · exact not_withheld rfl (by decide +kernel) (by decide +kernel)
  · exact not_withheld rfl (by decide +kernel) (by decide +kernel)

end Window

end Aimless
