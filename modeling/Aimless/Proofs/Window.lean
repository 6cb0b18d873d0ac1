import Aimless.Window
import Aimless.Proofs.Filing

/-!
# The parts of a move

What each part of a move leaves alone, and rules for invariants of the store: what the store's own
operations keep, a text message, an accepted request and a new room keep.
-/

namespace Aimless

open Python (Str Exc Json Dict)

/-- The node whose file a move brings. -/
def WindowMove.fileSender : WindowMove → Option Text
  | .file (.live sender _ _ _) => some (Hex.encode sender)
  | .file (.fetched node _ _) => some node
  | _ => none

/-- The conversation that the chunk of a move names, or the last chunk of a fetched transfer. -/
def WindowMove.fileConv (L : Libs) : WindowMove → Option Json
  | .file (.live sender _ _ payload) =>
    (checkedChunk L (Python.str (Base64.encode payload))).map fun c =>
      Gui.chunkConv (Hex.encode sender) c.2
  | .file (.fetched node _ entries) =>
    match Gui.collectChunks L entries { total := .int 0, info := [] } 0 0 with
    | .error _ => none
    | .ok (buf, _, _) => if buf.chunks = [] then none else some (Gui.chunkConv node buf.info)
  | _ => none

theorem ensureNamed_messages (L : Libs) (st : Store) (conv : Option Json) (members : Json) :
    (ensureNamed L st conv members).2.messages = st.messages := by
  unfold ensureNamed
  split
  · rfl
  split
  · split
    · rfl
    · split
      · rfl
      · rename_i conv _ _ d _ _
        obtain ⟨r, st', h, hsame, -⟩ := Store.ensureRoom_spec L st conv d
        rw [h]
        exact hsame.1
  · rfl

/-- What `ensureRoom` keeps of the rooms that a message can name. -/
theorem ensureNamed_inv {L : Libs} {I : Store → Prop} {st : Store} {conv : Option Json}
    {members : Json}
    (hroom : ∀ c ∈ conv, c.truthy = true → ∀ d, memberDict members = .ok d → d ≠ [] →
      ∀ st, I st → I (st.ensureRoom L c d).2) (h : I st) :
    I (ensureNamed L st conv members).2 := by
  unfold ensureNamed
  split
  · exact h
  rename_i c
  split
  · rename_i htruthy
    split
    · exact h
    · rename_i d hd
      split
      · exact h
      · rename_i hne
        refine hroom c rfl htruthy d hd ?_ st h
        rintro rfl
        exact hne rfl
  · exact h

/-- A message that names a conversation is stored only where its roster can be read. -/
theorem memberDict_of_ensureNamed {L : Libs} {st st' : Store} {conv : Option Json} {members : Json}
    (h : ensureNamed L st conv members = (.ok (), st')) :
    ∀ c ∈ conv, c.truthy = true → ∃ d, memberDict members = .ok d := by
  intro c hc htruthy
  cases hc
  unfold ensureNamed at h
  dsimp only at h
  rw [if_pos htruthy] at h
  split at h
  · cases h
  · rename_i d hd
    exact ⟨d, hd⟩

namespace Window

variable {L : Libs} {me : Self} {I : Store → Prop} {w : Window}

/-- What is left alone by everything that a text message does. -/
structure SameAround (w w' : Window) : Prop where
  fs : w'.gui.fs = w.gui.fs
  bufs : w'.gui.bufs = w.gui.bufs
  known : w'.known = w.known
  contacts : w'.contacts = w.contacts
  asking : w'.asking = w.asking

theorem SameAround.refl (w : Window) : SameAround w w := ⟨rfl, rfl, rfl, rfl, rfl⟩

theorem SameAround.setStore (w : Window) (store : Store) : SameAround w (w.setStore store) :=
  ⟨rfl, rfl, rfl, rfl, rfl⟩

theorem SameAround.trans {w w' w'' : Window} (h : SameAround w w') (h' : SameAround w' w'') :
    SameAround w w'' :=
  ⟨h'.fs.trans h.fs, h'.bufs.trans h.bufs, h'.known.trans h.known, h'.contacts.trans h.contacts,
    h'.asking.trans h.asking⟩

theorem addRecv_spec (w : Window) (conv : Json) (node : Text) (seq : ℕ) (ts text : Json) :
    (w.addRecv L conv node seq ts text).2
      = w.setStore (w.store.ingest L conv node seq ts text).2 := by
  unfold addRecv
  split <;> rename_i heq <;> rw [heq]

/-- What `addRecv` stores is from its sender. -/
theorem addRecv_rows (w : Window) (conv : Json) (node : Text) (seq : ℕ) (ts text : Json)
    {m : Message} (hm : m ∈ (w.addRecv L conv node seq ts text).2.store.messages) :
    m ∈ w.store.messages ∨ m.sender = Python.str node
      ∧ ∃ v, bindValue conv = .ok v ∧ v.toText L = some m.conv := by
  rw [addRecv_spec] at hm
  refine ((Store.ingest_grows L w.store conv node seq ts text none).mem hm).imp_right fun hrow => ?_
  obtain ⟨hsender, -, -, -, -, hconv⟩ := Store.incomingRow_fields hrow
  exact ⟨hsender, hconv⟩

theorem addRecv_around (w : Window) (conv : Json) (node : Text) (seq : ℕ) (ts text : Json) :
    SameAround w (w.addRecv L conv node seq ts text).2
      ∧ (w.addRecv L conv node seq ts text).2.pending = w.pending := by
  rw [addRecv_spec]
  exact ⟨.setStore w _, rfl⟩

/-! ### Text messages -/

variable (me) in
/-- The window with its sidebar synced where the conversation has no thread. -/
theorem synced_spec (w : Window) (conv : Json) :
    let w' := (if w.hasThread conv then (.ok (), w) else w.syncSidebar L me).2
    SameAround w w' ∧ w'.store = w.store ∧ w'.pending = w.pending := by
  dsimp only
  split
  · exact ⟨.refl w, rfl, rfl⟩
  · exact ⟨⟨rfl, rfl, rfl, rfl, rfl⟩, rfl, rfl⟩

variable (me) in
theorem incomingContact_around (w : Window) (conv : Json) (node : Text) (seq : ℕ) (o : Opened) :
    SameAround w (w.incomingContact L me conv node seq o).2
      ∧ (w.incomingContact L me conv node seq o).2.pending = w.pending := by
  obtain ⟨haround, -, hpending⟩ := w.synced_spec (L := L) me conv
  unfold incomingContact
  generalize (if w.hasThread conv then (.ok (), w) else w.syncSidebar L me) = r at haround hpending ⊢
  obtain ⟨e | u, w₁⟩ := r
  · exact ⟨haround, hpending⟩
  dsimp only
  split
  · obtain ⟨haround', hpending'⟩ := w₁.addRecv_around (L := L) conv node seq o.ts o.text
    exact ⟨haround.trans haround', hpending'.trans hpending⟩
  · exact ⟨haround, hpending⟩

variable (me) in
/-- The message is ingested, or nothing is stored. -/
theorem incomingContact_store (w : Window) (conv : Json) (node : Text) (seq : ℕ) (o : Opened) :
    (w.incomingContact L me conv node seq o).2.store = w.store
      ∨ (w.incomingContact L me conv node seq o).2.store
        = (w.store.ingest L conv node seq o.ts o.text).2 := by
  obtain ⟨-, hstore, -⟩ := w.synced_spec (L := L) me conv
  unfold incomingContact
  generalize (if w.hasThread conv then (.ok (), w) else w.syncSidebar L me) = r at hstore ⊢
  obtain ⟨e | u, w₁⟩ := r
  · exact .inl hstore
  dsimp only at hstore ⊢
  split
  · right
    rw [addRecv_spec, hstore]
    rfl
  · exact .inl hstore

variable (me) in
theorem incomingOpened_around (w : Window) (node : Text) (seq : ℕ) (o : Opened) :
    SameAround w (w.incomingOpened L me node seq o).2
      ∧ ∀ r ∈ (w.incomingOpened L me node seq o).2.pending,
        r ∈ w.pending ∨ r = requestOf node seq o := by
  have hadd (store : Store) : SameAround w ((w.setStore store).addPending (requestOf node seq o))
      ∧ ∀ r ∈ ((w.setStore store).addPending (requestOf node seq o)).pending,
        r ∈ w.pending ∨ r = requestOf node seq o := by
    unfold addPending
    split
    · exact ⟨⟨rfl, rfl, rfl, rfl, rfl⟩, fun r hr => .inl hr⟩
    · refine ⟨⟨rfl, rfl, rfl, rfl, rfl⟩, fun r hr => ?_⟩
      simpa [setStore] using hr
  unfold incomingOpened
  dsimp only
  split
  · exact ⟨.setStore w _, fun r hr => .inl hr⟩
  rename_i store _
  split
  · exact ⟨.setStore w _, fun r hr => .inl hr⟩
  · obtain ⟨haround, hpending⟩ :=
      (w.setStore store).addRecv_around (L := L) (Sync.convOf node o) node seq o.ts o.text
    exact ⟨(SameAround.setStore w store).trans haround, fun r hr => .inl (hpending ▸ hr)⟩
  · split
    · obtain ⟨haround, hpending⟩ :=
        (w.setStore store).incomingContact_around (L := L) me (Sync.convOf node o) node
          seq o
      exact ⟨(SameAround.setStore w store).trans haround, fun r hr => .inl (hpending ▸ hr)⟩
    · split
      · exact ⟨.setStore w _, fun r hr => .inl hr⟩
      · exact hadd store

/-- What naming its conversation and ingesting it keep, a text message keeps. -/
theorem incomingOpened_inv {node : Text} {seq : ℕ} {o : Opened}
    (hnamed : ∀ st, I st → I (ensureNamed L st o.conv (o.members.getD (.arr []))).2)
    (hingest :
      (∀ c ∈ o.conv, c.truthy = true → ∃ d, memberDict (o.members.getD (.arr [])) = .ok d) →
      ∀ st, I st → I (st.ingest L (Sync.convOf node o) node seq o.ts o.text).2)
    (h : I w.store) : I (w.incomingOpened L me node seq o).2.store := by
  have hens := hnamed w.store h
  unfold incomingOpened
  dsimp only
  split <;> rename_i store heq <;> rw [heq] at hens
  · exact hens
  have hingest := hingest (memberDict_of_ensureNamed heq)
  split
  · exact hens
  · rw [addRecv_spec]
    exact hingest store hens
  · split
    · rcases (w.setStore store).incomingContact_store (L := L) me (Sync.convOf node o) node
        seq o with heq | heq
      · rw [heq]
        exact hens
      · rw [heq]
        exact hingest store hens
    · split
      · exact hens
      · unfold addPending
        split <;> exact hens

variable (me) in
/-- The window's `incoming` does what `incomingOpened` does, of a payload that opens. -/
theorem incoming_cases (w : Window) (node : Text) (ev : RecvEvent) :
    (w.incoming L me node ev).2 = w
      ∨ ∃ payload o, ev.payload = some payload ∧ openMessage L (Python.str payload) = .ok o
        ∧ w.incoming L me node ev = w.incomingOpened L me node ev.seqOrZero o := by
  unfold incoming
  split
  · exact .inl rfl
  rename_i payload hpayload
  split
  · split <;> exact .inl rfl
  · rename_i o ho
    exact .inr ⟨payload, o, hpayload, ho, rfl⟩

variable (me) in
/-- A message makes nobody a contact. -/
theorem text_contacts (root : AttachmentsDir) (w : Window) (sender : PublicKey) (seq : UInt64)
    (ts : Int64) (payload : Bytes) :
    (w.step L root me (.text sender seq ts payload)).contacts = w.contacts := by
  simp only [step, Event.toRecv]
  rcases w.incoming_cases (L := L) me (Hex.encode sender)
    (Event.toRecv.recvEvent false sender seq ts payload) with h | ⟨_, o, -, -, h⟩
  · rw [h]
  · rw [h]
    exact (w.incomingOpened_around me _ _ o).1.contacts

/-! ### Files -/

/-- A move that finds no chunk leaves the window's files alone. -/
theorem fileStep_of_none {root : AttachmentsDir} (g : Gui) {move : FileMove}
    (h : (WindowMove.file move).fileConv L = none) : g.step L root move = g := by
  cases move with
  | live sender seq ts payload =>
    have hnone : checkedChunk L (Python.str (Base64.encode payload)) = none := by
      simpa [WindowMove.fileConv] using h
    have hbind : ((if payload = [] then none else some (Base64.encode payload)).bind fun payload =>
        checkedChunk L (Python.str payload)) = none := by
      split
      · rfl
      · exact hnone
    simp only [Gui.step, Event.toRecv, Event.toRecv.recvEvent]
    unfold Gui.incomingFile
    rw [hbind]
  | fetched node tid entries =>
    simp only [Gui.step]
    split
    · rfl
    unfold Gui.processFetchedTransfer
    rcases hcollect : Gui.collectChunks L entries { total := .int 0, info := [] } 0 0 with
      e | ⟨buf, seq, ts⟩
    · rfl
    · dsimp only
      simp only [WindowMove.fileConv, hcollect] at h
      have hnil : buf.chunks = [] := by
        by_contra hne
        rw [if_neg hne] at h
        cases h
      rw [if_pos hnil]

/-- What ingesting a file for its conversation keeps, the move that brings the file keeps. -/
theorem fileStep_inv {root : AttachmentsDir} {g : Gui} {move : FileMove} {node : Text}
    (hnode : (WindowMove.file move).fileSender = some node)
    (hingest : ∀ conv ∈ (WindowMove.file move).fileConv L, ∀ seq ts text attachment st, I st →
      I (st.ingest L conv node seq ts text attachment).2) (h : I g.store) :
    I (g.step L root move).store := by
  cases move with
  | live sender seq ts payload =>
    cases hnode
    simp only [Gui.step, Event.toRecv]
    refine Gui.incomingFile_inv (fun text htext parsed chunk hchecked ts text' att st h =>
      hingest _ ?_ _ ts text' att st h) h
    rw [payload_of_recvEvent htext] at hchecked
    simp [WindowMove.fileConv, hchecked]
  | fetched node tid entries =>
    cases hnode
    simp only [Gui.step]
    split
    · exact h
    refine Gui.processFetchedTransfer_inv (fun buf seq ts hf text att st h =>
      hingest _ ?_ _ (.int ts) text att st h) h
    simp [WindowMove.fileConv, hf.1, hf.2]

/-! ### Requests and rooms -/

variable (me) in
/-- Accepting a request makes its node a contact. -/
theorem accept_around (w : Window) (req : ContactRequest) :
    (w.accept L me req).2.gui.fs = w.gui.fs ∧ (w.accept L me req).2.gui.bufs = w.gui.bufs
      ∧ (w.accept L me req).2.known = w.known ++ [req.node]
      ∧ (w.accept L me req).2.pending = w.pending ∧ (w.accept L me req).2.asking = w.asking
      ∧ ∀ c ∈ (w.accept L me req).2.contacts, c ∈ w.contacts ∨ c.node = req.node := by
  unfold accept
  dsimp only
  set c : Contact := ⟨req.node, req.pubkey, truthyOr (some req.screen)
    (.str (Python.str (req.node.take 8)))⟩
  have hcontacts : ∀ x ∈ (w.addContact c).contacts, x ∈ w.contacts ∨ x.node = req.node := by
    intro x hx
    rcases List.mem_append.1 hx with hx | hx
    · exact .inl hx
    · rw [List.mem_singleton.1 hx]
      exact .inr rfl
  split
  · exact ⟨rfl, rfl, rfl, rfl, rfl, hcontacts⟩
  rename_i store _
  set conv := truthyOr req.conv (.str (Python.str req.node))
  obtain ⟨haround, hpending⟩ := ((w.addContact c).setStore store).addRecv_around (L := L) conv
    req.node req.seq req.ts req.text
  split <;> rename_i heq <;> rw [heq] at haround hpending
  · exact ⟨haround.fs, haround.bufs, haround.known, hpending, haround.asking,
      fun x hx => hcontacts x (haround.contacts ▸ hx)⟩
  · exact ⟨haround.fs, haround.bufs, haround.known, hpending, haround.asking,
      fun x hx => hcontacts x (haround.contacts ▸ hx)⟩

theorem accept_inv {req : ContactRequest}
    (hnamed : ∀ st, I st → I (ensureNamed L st req.conv req.members).2)
    (hingest : (∀ c ∈ req.conv, c.truthy = true → ∃ d, memberDict req.members = .ok d) →
      ∀ st, I st → I (st.ingest L (truthyOr req.conv (.str (Python.str req.node))) req.node
        req.seq req.ts req.text).2) (h : I w.store) : I (w.accept L me req).2.store := by
  unfold accept
  dsimp only
  set c : Contact := ⟨req.node, req.pubkey, truthyOr (some req.screen)
    (.str (Python.str (req.node.take 8)))⟩
  have hens : I (ensureNamed L (w.addContact c).store req.conv req.members).2 := hnamed _ h
  split <;> rename_i store heq <;> rw [heq] at hens
  · exact hens
  have hingest := hingest (memberDict_of_ensureNamed heq)
  set conv := truthyOr req.conv (.str (Python.str req.node))
  have hing : I (((w.addContact c).setStore store).addRecv L conv req.node req.seq req.ts
      req.text).2.store := by
    rw [addRecv_spec]
    exact hingest store hens
  split <;> rename_i heq <;> rw [heq] at hing
  · exact hing
  · exact hing

theorem createRoom_around (me : Self) (w : Window) (chosen : List Contact) :
    SameAround w (w.createRoom L me chosen).2
      ∧ (w.createRoom L me chosen).2.pending = w.pending
      ∧ (w.createRoom L me chosen).2.store.messages = w.store.messages := by
  unfold createRoom
  dsimp only
  split
  · exact ⟨.refl w, rfl, rfl⟩
  rename_i conv _
  split <;> rename_i store heq <;>
    (obtain ⟨r, st', hspec, ⟨hmsgs, -⟩, -⟩ := Store.ensureRoom_spec L w.store (.str conv) _
     rw [hspec] at heq
     cases heq)
  · exact ⟨⟨rfl, rfl, rfl, rfl, rfl⟩, rfl, hmsgs⟩
  · exact ⟨⟨rfl, rfl, rfl, rfl, rfl⟩, rfl, hmsgs⟩

theorem toggleMute_around (w : Window) (conv : Str) :
    SameAround w (w.toggleMute L conv).2
      ∧ (w.toggleMute L conv).2.pending = w.pending
      ∧ (w.toggleMute L conv).2.store.messages = w.store.messages := by
  unfold toggleMute
  split
  · exact ⟨.refl w, rfl, rfl⟩
  · exact ⟨.setStore w _, rfl, rfl⟩
  obtain ⟨r, st', hspec, ⟨hmsgs, -⟩, -⟩ := Store.ensureConv_spec L w.store (.str conv) true
  rw [hspec]
  split <;> rename_i heq <;> cases heq
  · exact ⟨.setStore w _, rfl, hmsgs⟩
  · exact ⟨.setStore w _, rfl, hmsgs⟩

end Window

end Aimless
