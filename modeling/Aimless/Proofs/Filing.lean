import Aimless.Proofs.Rows
import Aimless.Proofs.Files

/-!
# The rows of received files

What a live chunk or a fetched transfer can add to the store is one row (`step_grows`): the row of
the buffer that is finalized, with the seq of the completing chunk, or the largest of the fetched
entries.  A buffer holds data of chunks that were checked (`Collected`).
-/

namespace Aimless

open Python (Str Exc Json Dict)

/-- The payload of a live event is what the sender sent, in base64. -/
theorem payload_of_recvEvent {file : Bool} {sender : PublicKey} {seq : UInt64} {ts : Int64}
    {payload : Bytes} {text : Text}
    (h : (Event.toRecv.recvEvent file sender seq ts payload).payload = some text) :
    text = Base64.encode payload := by
  simp only [Event.toRecv.recvEvent] at h
  split at h
  · cases h
  · exact (Option.some.inj h).symm

theorem seqOrZero_recvEvent (file : Bool) (sender : PublicKey) (seq : UInt64) (ts : Int64)
    (payload : Bytes) :
    (Event.toRecv.recvEvent file sender seq ts payload).seqOrZero = seq.toNat := by
  simp only [RecvEvent.seqOrZero, Event.toRecv.recvEvent]
  split
  · rename_i hzero
    rw [hzero]
    rfl
  · rfl

namespace Gui

variable {L : Libs} {root : AttachmentsDir} {g : Gui} {conv : Json} {node : Text} {buf : FileBuf}
  {seq : ℕ} {ts : ℤ}

def filenameOf (info : List (Str × Json)) : Json :=
  getOr info Field.filename (.str (Python.str ['f', 'i', 'l', 'e']))

/-- The attachment column of a file that was stored. -/
def attachmentOf (path : Str) (info : List (Str × Json)) (size : ℕ) : Dict := [
  (.str (Python.str ['p', 'a', 't', 'h']), .str path),
  (.str Field.filename, filenameOf info),
  (.str Field.mimeHint, (Python.get? info Field.mimeHint).getD (.str [])),
  (.str (Python.str ['s', 'i', 'z', 'e']), .int size)]

/-- The row of a finalized buffer. -/
def Finalized (L : Libs) (conv : Json) (node : Text) (buf : FileBuf) (seq : ℕ) (ts : ℤ)
    (row : Message) : Prop :=
  ∃ rebuilt path, reassembleFile buf.chunks buf.total = .ok (some rebuilt)
    ∧ Store.incomingRow L conv node seq (.int ts) (filenameOf buf.info)
      (some (attachmentOf path buf.info rebuilt.length)) = .ok (some row)

theorem finalizeAttachment_bufs (L : Libs) (root : AttachmentsDir) (g : Gui) (conv : Json)
    (node : Text) (buf : FileBuf) (seq : ℕ) (ts : ℤ) :
    (g.finalizeAttachment L root conv node buf seq ts).2.bufs = g.bufs := by
  unfold finalizeAttachment
  dsimp only
  split
  · rfl
  · rfl
  split
  · rfl
  split
  · split
    · rfl
    · split <;> rfl
  · rfl

/-- The store is left alone, or the row of the rebuilt file is offered to it. -/
theorem finalizeAttachment_store (L : Libs) (root : AttachmentsDir) (g : Gui) (conv : Json)
    (node : Text) (buf : FileBuf) (seq : ℕ) (ts : ℤ) :
    (g.finalizeAttachment L root conv node buf seq ts).2.store = g.store
      ∨ ∃ rebuilt path, reassembleFile buf.chunks buf.total = .ok (some rebuilt)
        ∧ (g.finalizeAttachment L root conv node buf seq ts).2.store
          = (g.store.ingest L conv node seq (.int ts) (filenameOf buf.info)
            (some (attachmentOf path buf.info rebuilt.length))).2 := by
  unfold finalizeAttachment
  dsimp only
  split
  · exact .inl rfl
  · exact .inl rfl
  rename_i rebuilt hrebuilt
  split
  · exact .inl rfl
  split
  · split
    · exact .inl rfl
    rename_i path fs _
    refine .inr ⟨rebuilt, path, hrebuilt, ?_⟩
    split <;> rename_i heq <;> exact (congrArg Prod.snd heq).symm
  · exact .inl rfl

theorem finalizeAttachment_grows (L : Libs) (root : AttachmentsDir) (g : Gui) (conv : Json)
    (node : Text) (buf : FileBuf) (seq : ℕ) (ts : ℤ) :
    Store.Grows (Finalized L conv node buf seq ts) g.store
      (g.finalizeAttachment L root conv node buf seq ts).2.store := by
  rcases finalizeAttachment_store L root g conv node buf seq ts with
    h | ⟨rebuilt, path, hrebuilt, h⟩
  · exact .inl (congrArg Store.messages h)
  · rw [h]
    exact (Store.ingest_grows L g.store conv node seq (.int ts) _ _).mono
      fun row hrow => ⟨rebuilt, path, hrebuilt, hrow⟩

/-! ### Buffers -/

/-- A chunk that a payload holds. -/
def Checked (L : Libs) (payloads : Str → Prop) (parsed : FilePayload) (chunk : List (Str × Json)) :
    Prop :=
  ∃ payload, payloads payload ∧ checkedChunk L payload = some (parsed, chunk)

/-- A buffer whose chunks, and the one that describes it, come from the given payloads. -/
structure Collected (L : Libs) (payloads : Str → Prop) (buf : FileBuf) : Prop where
  info : ∃ parsed, Checked L payloads parsed buf.info
  chunks : ∀ e ∈ buf.chunks, ∃ parsed chunk, Checked L payloads parsed chunk ∧ parsed.index = e.1
    ∧ chunkData chunk = .ok e.2

theorem Collected.mono {P Q : Str → Prop} (h : Collected L P buf)
    (hPQ : ∀ payload, P payload → Q payload) : Collected L Q buf where
  info := by
    obtain ⟨parsed, payload, hp, hchecked⟩ := h.info
    exact ⟨parsed, payload, hPQ payload hp, hchecked⟩
  chunks e he := by
    obtain ⟨parsed, chunk, ⟨payload, hp, hchecked⟩, hindex, hdata⟩ := h.chunks e he
    exact ⟨parsed, chunk, ⟨payload, hPQ payload hp, hchecked⟩, hindex, hdata⟩

theorem mem_setChunk {chunks : List (ℕ × Bytes)} {index : ℕ} {data : Bytes} {e : ℕ × Bytes}
    (h : e ∈ setChunk chunks index data) : e ∈ chunks ∨ e = (index, data) := by
  unfold setChunk at h
  split at h
  · obtain ⟨e', he', rfl⟩ := List.mem_map.1 h
    split
    · exact .inr rfl
    · exact .inl he'
  · simpa using h

theorem Collected.setChunk {payloads : Str → Prop} (h : Collected L payloads buf)
    {parsed : FilePayload} {chunk : List (Str × Json)} {data : Bytes}
    (hchunk : Checked L payloads parsed chunk) (hdata : chunkData chunk = .ok data) :
    Collected L payloads { buf with chunks := setChunk buf.chunks parsed.index data } := by
  refine ⟨h.info, fun e he => ?_⟩
  rcases mem_setChunk he with he | rfl
  · exact h.chunks e he
  · exact ⟨parsed, chunk, hchunk, rfl, hdata⟩

/-- Every buffer of the window comes from the given payloads. -/
def BufsFrom (L : Libs) (payloads : Str → Prop) (g : Gui) : Prop :=
  ∀ e ∈ g.bufs, Collected L payloads e.2

theorem bufFor_collected {payloads : Str → Prop} (h : BufsFrom L payloads g) (key : Json × Str)
    {parsed : FilePayload} {chunk : List (Str × Json)} (hchunk : Checked L payloads parsed chunk) :
    BufsFrom L payloads (g.bufFor key chunk).2 ∧ Collected L payloads (g.bufFor key chunk).1 := by
  unfold bufFor
  split
  · rename_i e he
    exact ⟨h, h e (List.mem_of_find?_eq_some he)⟩
  · have hbuf : Collected L payloads
        { total := (Python.get? chunk Field.total).getD .null, info := chunk } :=
      ⟨⟨parsed, hchunk⟩, by simp⟩
    refine ⟨fun e he => ?_, hbuf⟩
    rcases List.mem_append.1 he with he | he
    · exact h e he
    · rw [List.mem_singleton.1 he]
      exact hbuf

theorem bufFor_store (key : Json × Str) (chunk : List (Str × Json)) :
    (g.bufFor key chunk).2.store = g.store := by
  unfold bufFor
  split <;> rfl

/-- What `addChunk` does: the row of the buffer with the chunk, where that completes it. -/
theorem addChunk_spec {payloads : Str → Prop} (h : BufsFrom L payloads g) (root : AttachmentsDir)
    (node : Text) (ev : RecvEvent) (key : Json × Str) {index : ℕ} {data : Bytes}
    (hbuf : Collected L payloads { buf with chunks := setChunk buf.chunks index data }) :
    let buf' := { buf with chunks := setChunk buf.chunks index data }
    BufsFrom L payloads (g.addChunk L root node ev key buf index data).2
      ∧ Store.Grows (fun row => buf'.total.eqInt buf'.chunks.length = true
          ∧ Finalized L key.1 node buf' ev.seqOrZero (ev.ts.getD 0).toInt row) g.store
        (g.addChunk L root node ev key buf index data).2.store := by
  intro buf'
  have hbufs : BufsFrom L payloads { g with
      bufs := g.bufs.map fun e => if sameKey e.1 key then (e.1, buf') else e } := by
    intro e he
    obtain ⟨e', he', rfl⟩ := List.mem_map.1 he
    split
    · exact hbuf
    · exact h e' he'
  unfold addChunk
  dsimp only
  split
  · rename_i htotal
    set g' : Gui := { g with
      bufs := g.bufs.map fun e => if sameKey e.1 key then (e.1, buf') else e } with hg'
    have hgrow :=
      finalizeAttachment_grows L root g' key.1 node buf' ev.seqOrZero (ev.ts.getD 0).toInt
    have hgrow := hgrow.mono fun row hrow => And.intro htotal hrow
    have hb := finalizeAttachment_bufs L root g' key.1 node buf' ev.seqOrZero (ev.ts.getD 0).toInt
    split <;> rename_i heq
    · rw [heq] at hgrow hb
      exact ⟨fun e he => hbufs e (hb ▸ he), hgrow⟩
    · rw [heq] at hgrow hb
      refine ⟨fun e he => hbufs e ?_, hgrow⟩
      have he := (List.mem_filter.1 he).1
      exact hb ▸ he
  · exact ⟨hbufs, .inl rfl⟩

theorem length_setChunk (chunks : List (ℕ × Bytes)) (index : ℕ) (data data' : Bytes) :
    (setChunk chunks index data).length = (setChunk chunks index data').length := by
  unfold setChunk
  split <;> simp

/-- The conversation of a chunk. -/
def chunkConv (node : Text) (chunk : List (Str × Json)) : Json :=
  getOr chunk Field.conv (.str (Python.str node))

/-- Whether a live chunk completes its transfer. -/
def completes (L : Libs) (g : Gui) (node : Text) (payload : Str) : Bool :=
  match checkedChunk L payload with
  | none => false
  | some (parsed, chunk) =>
    let key := (chunkConv node chunk, Python.str (Hex.encode parsed.tid))
    let buf := (g.bufFor key chunk).1
    buf.total.eqInt (setChunk buf.chunks parsed.index []).length

/-- The row a live chunk can add: of a buffer that the chunk completes, with the seq of its event.
-/
theorem incomingFile_spec {payloads : Str → Prop} (h : BufsFrom L payloads g)
    (root : AttachmentsDir) (node : Text) (ev : RecvEvent)
    (hev : ∀ payload ∈ ev.payload, payloads (Python.str payload)) :
    BufsFrom L payloads (g.incomingFile L root node ev).2
      ∧ Store.Grows (fun row => ∃ payload ∈ ev.payload,
          completes L g node (Python.str payload) = true
          ∧ ∃ parsed chunk buf, checkedChunk L (Python.str payload) = some (parsed, chunk)
            ∧ Collected L payloads buf ∧ Finalized L (chunkConv node chunk) node buf ev.seqOrZero
              (ev.ts.getD 0).toInt row) g.store
        (g.incomingFile L root node ev).2.store := by
  unfold incomingFile
  split
  · exact ⟨h, .inl rfl⟩
  rename_i parsed chunk hbind
  obtain ⟨payload, hpayload, hchecked⟩ := Option.bind_eq_some_iff.1 hbind
  have hchunk : Checked L payloads parsed chunk := ⟨_, hev payload hpayload, hchecked⟩
  dsimp only
  split
  · exact ⟨h, .inl rfl⟩
  set conv := getOr chunk Field.conv (.str (Python.str node)) with hconv
  set key := (conv, Python.str (Hex.encode parsed.tid)) with hkey
  obtain ⟨hbufs, hbuf⟩ := bufFor_collected h key hchunk
  have hstore := bufFor_store (g := g) key chunk
  split
  · exact ⟨hbufs, .inl (by rw [hstore])⟩
  split
  · exact ⟨hbufs, .inl (by rw [hstore])⟩
  rename_i data hdata
  obtain ⟨hb, hgrow⟩ := addChunk_spec hbufs root node ev key (hbuf.setChunk hchunk hdata)
  rw [hstore] at hgrow
  refine ⟨hb, hgrow.mono fun row hrow => ⟨payload, hpayload, ?_, parsed, chunk, _, hchecked,
    hbuf.setChunk hchunk hdata, hrow.2⟩⟩
  unfold completes
  rw [hchecked]
  dsimp only
  rw [length_setChunk _ _ [] data]
  exact hrow.1

/-- The chunks of the entries that are checked. -/
theorem collectChunks_collected {payloads : Str → Prop} : ∀ {entries : List AttachEntry},
    (∀ e ∈ entries, payloads (Python.str e.payload)) →
    ∀ {buf buf' : FileBuf} {seq seq' : ℕ} {ts ts' : ℤ},
      collectChunks L entries buf seq ts = .ok (buf', seq', ts') →
      (buf.chunks ≠ [] → Collected L payloads buf) → buf'.chunks ≠ [] → Collected L payloads buf'
  | [], _, _, _, _, _, _, _, h, hbuf, hne => by
    cases h
    exact hbuf hne
  | e :: entries, hall, buf, buf', seq, seq', ts, ts', h, hbuf, hne => by
    have hrest : ∀ e ∈ entries, payloads (Python.str e.payload) :=
      fun e he => hall e (List.mem_cons_of_mem _ he)
    unfold collectChunks at h
    split at h
    · exact collectChunks_collected hrest h hbuf hne
    rename_i parsed chunk hchecked
    split at h
    · cases h
    rename_i data hdata
    refine collectChunks_collected hrest h (fun _ => ?_) hne
    have hchunk : Checked L payloads parsed chunk := ⟨_, hall e List.mem_cons_self, hchecked⟩
    refine ⟨⟨parsed, hchunk⟩, fun x hx => ?_⟩
    rcases mem_setChunk hx with hx | rfl
    · have hne : buf.chunks ≠ [] := List.ne_nil_of_mem hx
      exact (hbuf hne).chunks x hx
    · exact ⟨parsed, chunk, hchunk, rfl, hdata⟩

/-- What the entries of a transfer come to, where one of them is a chunk. -/
def Fetched (L : Libs) (entries : List AttachEntry) (buf : FileBuf) (seq : ℕ) (ts : ℤ) : Prop :=
  collectChunks L entries { total := .int 0, info := [] } 0 0 = .ok (buf, seq, ts) ∧ buf.chunks ≠ []

/-- The row a fetched transfer can add. -/
theorem processFetchedTransfer_spec (payloads : Str → Prop) (root : AttachmentsDir) (g : Gui)
    (node tid : Text) {entries : List AttachEntry}
    (hall : ∀ e ∈ entries, payloads (Python.str e.payload)) :
    (g.processFetchedTransfer L root node tid entries).2.bufs = g.bufs
      ∧ Store.Grows (fun row => ∃ buf seq ts, Fetched L entries buf seq ts
          ∧ Collected L payloads buf ∧ Finalized L (chunkConv node buf.info) node buf seq ts row)
        g.store (g.processFetchedTransfer L root node tid entries).2.store := by
  unfold processFetchedTransfer
  split
  · exact ⟨rfl, .inl rfl⟩
  rename_i buf seq ts hcollect
  split
  · exact ⟨rfl, .inl rfl⟩
  rename_i hne
  have hbuf : Collected L payloads buf :=
    collectChunks_collected hall hcollect (fun hnil => absurd rfl hnil) hne
  dsimp only
  set conv := getOr buf.info Field.conv (.str (Python.str node)) with hconv
  have hgrow := (finalizeAttachment_grows L root g conv node buf seq ts).mono
    (Q := fun row => ∃ buf seq ts, Fetched L entries buf seq ts
      ∧ Collected L payloads buf ∧ Finalized L (chunkConv node buf.info) node buf seq ts row)
    fun row hrow => ⟨buf, seq, ts, ⟨hcollect, hne⟩, hbuf, hrow⟩
  have hb := finalizeAttachment_bufs L root g conv node buf seq ts
  split <;> rename_i heq <;> rw [heq] at hgrow hb
  · exact ⟨hb, hgrow⟩
  · exact ⟨hb, hgrow⟩

/-! ### Invariants of the store -/

section Invariant

variable {I : Store → Prop}

theorem finalizeAttachment_inv
    (hingest : ∀ text attachment st, I st →
      I (st.ingest L conv node seq (.int ts) text attachment).2)
    (h : I g.store) : I (g.finalizeAttachment L root conv node buf seq ts).2.store := by
  rcases finalizeAttachment_store L root g conv node buf seq ts with heq | ⟨_, _, -, heq⟩
  · rw [heq]
    exact h
  · rw [heq]
    exact hingest _ _ _ h

/-- What `ingest` keeps, a live chunk keeps. -/
theorem incomingFile_inv {ev : RecvEvent}
    (hingest : ∀ payload ∈ ev.payload, ∀ parsed chunk,
      checkedChunk L (Python.str payload) = some (parsed, chunk) → ∀ ts text attachment st, I st →
        I (st.ingest L (chunkConv node chunk) node ev.seqOrZero ts text attachment).2)
    (h : I g.store) : I (g.incomingFile L root node ev).2.store := by
  unfold incomingFile
  split
  · exact h
  rename_i parsed chunk hbind
  obtain ⟨payload, hpayload, hchecked⟩ := Option.bind_eq_some_iff.1 hbind
  have hingest := hingest payload hpayload parsed chunk hchecked
  dsimp only
  split
  · exact h
  set key := (getOr chunk Field.conv (.str (Python.str node)), Python.str (Hex.encode parsed.tid))
  have hbuf : I (g.bufFor key chunk).2.store := by
    rw [bufFor_store]
    exact h
  split
  · exact hbuf
  split
  · exact hbuf
  unfold addChunk
  dsimp only
  split
  · split <;> rename_i heq
    · have hfin := congrArg (fun r => I r.2.store) heq
      exact hfin.mp (finalizeAttachment_inv (hingest _) hbuf)
    · have hfin := congrArg (fun r => I r.2.store) heq
      exact hfin.mp (finalizeAttachment_inv (hingest _) hbuf)
  · exact hbuf

theorem processFetchedTransfer_inv {tid : Text} {entries : List AttachEntry}
    (hingest : ∀ buf seq ts, Fetched L entries buf seq ts → ∀ text attachment st, I st →
      I (st.ingest L (chunkConv node buf.info) node seq (.int ts) text attachment).2)
    (h : I g.store) : I (g.processFetchedTransfer L root node tid entries).2.store := by
  unfold processFetchedTransfer
  split
  · exact h
  rename_i buf seq ts hcollect
  split
  · exact h
  rename_i hne
  have hingest := hingest buf seq ts ⟨hcollect, hne⟩
  dsimp only
  split <;> rename_i heq
  · have hfin := congrArg (fun r => I r.2.store) heq
    exact hfin.mp (finalizeAttachment_inv hingest h)
  · have hfin := congrArg (fun r => I r.2.store) heq
    exact hfin.mp (finalizeAttachment_inv hingest h)

end Invariant

end Gui

end Aimless
