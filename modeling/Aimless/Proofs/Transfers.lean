import Aimless.Transfers
import Aimless.Proofs.Reports
import Aimless.Proofs.Filing
import Aimless.Lib.Runs

/-!
# A received file appears once

The row of a file has the id of its sender and a seq: of the event that completes the transfer where
it came in live, and the largest of the transfer where it was fetched.  A transfer that was stored
live and is fetched again, its `ackfile` lost, is passed over if the two agree, and stored twice if
not (`filed_twice`).  In a run in which the chunk that completes a transfer live is the one with the
largest seq, every file has one row (`filed_once`).
-/

namespace Aimless

open Python (Str Exc Json Dict)

/-- A packet of a transfer. -/
def ChunkPacket (ops : List Op) (p : PublicKey) (tid : Text) (f : FilePacket) : Prop :=
  ∃ op ∈ ops, f ∈ op.filePacket ∧ f.sender = p ∧ f.tid = tid

/-- The largest seq of a transfer. -/
def LargestSeq (ops : List Op) (p : PublicKey) (tid : Text) (seq : UInt64) : Prop :=
  (∃ f, ChunkPacket ops p tid f ∧ f.env.seq = seq)
    ∧ ∀ f, ChunkPacket ops p tid f → f.env.seq ≤ seq

theorem LargestSeq.unique {ops : List Op} {p : PublicKey} {tid : Text} {s s' : UInt64}
    (h : LargestSeq ops p tid s) (h' : LargestSeq ops p tid s') : s = s' := by
  obtain ⟨⟨f, hf, rfl⟩, hle⟩ := h
  obtain ⟨⟨g, hg, rfl⟩, hle'⟩ := h'
  exact UInt64.le_antisymm (hle' f hf) (hle g hg)

/-! ### The header, as the daemon and the client read it -/

theorem header_toNat {payload : Bytes} {tid : Text} {index total : UInt16}
    (h : parseFileHeader payload = some (tid, index, total)) :
    ¬ payload.length < 20 ∧ index.toNat = Words.getLE ((payload.drop 16).take 2)
      ∧ total.toNat = Words.getLE ((payload.drop 18).take 2) ∧ index < total := by
  have hword : ∀ b : Bytes,
      (UInt16.ofNat (Words.getLE (b.take 2))).toNat = Words.getLE (b.take 2) := by
    intro b
    have hlt := Words.getLE_lt (b.take 2)
    have hlen : (b.take 2).length ≤ 2 := List.length_take_le 2 b
    have hpow : 256 ^ (b.take 2).length ≤ 256 ^ 2 := Nat.pow_le_pow_right (by decide) hlen
    rw [UInt16.toNat_ofNat']
    exact Nat.mod_eq_of_lt (by omega)
  unfold parseFileHeader at h
  dsimp only at h
  split_ifs at h with hlen hbad
  simp only [Option.some.injEq, Prod.mk.injEq] at h
  obtain ⟨-, rfl, rfl⟩ := h
  refine ⟨hlen, hword _, hword _, ?_⟩
  rw [not_or] at hbad
  simpa using hbad.2

/-- What the client reads of a chunk that the daemon has taken in. -/
theorem parseFilePayload_index {payload : Bytes} {tid : Text} {index total : UInt16}
    (h : parseFileHeader payload = some (tid, index, total)) {parsed : FilePayload}
    (hparsed : parseFilePayload (Python.str (Base64.encode payload)) = .ok parsed) :
    parsed.index = index.toNat ∧ parsed.total = total.toNat := by
  obtain ⟨-, hindex, htotal, -⟩ := header_toNat h
  unfold parseFilePayload at hparsed
  simp only [Python.b64decode_encode, Python.bind_eq_ok] at hparsed
  obtain ⟨raw, hraw, hparsed⟩ := hparsed
  cases hraw
  split at hparsed
  · cases hparsed
  split at hparsed
  · cases hparsed
  · cases hparsed
    exact ⟨hindex.symm, htotal.symm⟩

/-! ### A fetched transfer -/

namespace Gui

variable {L : Libs}

/-- An entry that is a chunk with the given index. -/
def ChunkAt (L : Libs) (e : AttachEntry) (parsed : FilePayload) : Prop :=
  ∃ chunk, checkedChunk L (Python.str e.payload) = some (parsed, chunk)

theorem ChunkAt.parse {e : AttachEntry} {parsed : FilePayload} (h : ChunkAt L e parsed) :
    parseFilePayload (Python.str e.payload) = .ok parsed := by
  obtain ⟨chunk, h⟩ := h
  unfold checkedChunk at h
  split at h
  · cases h
  rename_i parsed' hparsed
  split at h
  · cases h
  split at h
  · cases h
    exact hparsed
  · cases h

theorem checkedChunk_total {payload : Str} {parsed : FilePayload} {chunk : List (Str × Json)}
    (h : checkedChunk L payload = some (parsed, chunk)) :
    ((Python.get? chunk Field.total).getD .null).eqInt parsed.total = true := by
  unfold checkedChunk at h
  split at h
  · cases h
  split at h
  · cases h
  split at h
  · rename_i hall
    cases h
    obtain ⟨v, hv, heq⟩ := (Option.any_eq_true _ _).1 hall.2.2
    rw [hv]
    exact heq
  · cases h

/-- What the loop over the entries of a transfer leaves: chunks of the entries, whose seqs are at
most the largest, the largest is one of them, and the total is the one of an entry. -/
structure Gathered (L : Libs) (entries : List AttachEntry) (buf : FileBuf) (seq : ℕ) : Prop where
  chunks : ∀ x ∈ buf.chunks, ∃ e ∈ entries, ∃ parsed, ChunkAt L e parsed ∧ parsed.index = x.1
    ∧ e.seq.toNat ≤ seq
  attained : buf.chunks ≠ [] → ∃ e ∈ entries, ∃ parsed, ChunkAt L e parsed ∧ e.seq.toNat = seq
  total : buf.chunks ≠ [] → ∃ e ∈ entries, ∃ parsed, ChunkAt L e parsed
    ∧ buf.total.eqInt parsed.total = true

/-- One more entry that is a chunk. -/
theorem Gathered.add {before : List AttachEntry} {buf : FileBuf} {seq : ℕ}
    (h : Gathered L before buf seq) (hnil : buf.chunks = [] → seq = 0) {e : AttachEntry}
    {parsed : FilePayload} {chunk : List (Str × Json)}
    (hchecked : checkedChunk L (Python.str e.payload) = some (parsed, chunk)) (data : Bytes) :
    Gathered L (before ++ [e])
      { buf with
        total := (Python.get? chunk Field.total).getD .null
        info := chunk
        chunks := setChunk buf.chunks parsed.index data } (max seq e.seq.toNat) where
  chunks x hx := by
    rcases mem_setChunk hx with hx | rfl
    · obtain ⟨e', he', parsed', hp, hi, hle⟩ := h.chunks x hx
      exact ⟨e', List.mem_append_left _ he', parsed', hp, hi, hle.trans (le_max_left _ _)⟩
    · exact ⟨e, by simp, parsed, ⟨chunk, hchecked⟩, rfl, le_max_right _ _⟩
  attained _ := by
    rcases le_total e.seq.toNat seq with hle | hle
    · by_cases hbuf : buf.chunks = []
      · exact ⟨e, by simp, parsed, ⟨chunk, hchecked⟩, by rw [hnil hbuf] at hle ⊢; omega⟩
      · obtain ⟨e', he', parsed', hp, heq⟩ := h.attained hbuf
        exact ⟨e', List.mem_append_left _ he', parsed', hp, by rw [heq, max_eq_left hle]⟩
    · exact ⟨e, by simp, parsed, ⟨chunk, hchecked⟩, (max_eq_right hle).symm⟩
  total _ := ⟨e, by simp, parsed, ⟨chunk, hchecked⟩, checkedChunk_total hchecked⟩

theorem Gathered.skip {before : List AttachEntry} {buf : FileBuf} {seq : ℕ}
    (h : Gathered L before buf seq) (e : AttachEntry) : Gathered L (before ++ [e]) buf seq where
  chunks x hx := by
    obtain ⟨e', he', hp⟩ := h.chunks x hx
    exact ⟨e', List.mem_append_left _ he', hp⟩
  attained hne := by
    obtain ⟨e', he', hp⟩ := h.attained hne
    exact ⟨e', List.mem_append_left _ he', hp⟩
  total hne := by
    obtain ⟨e', he', hp⟩ := h.total hne
    exact ⟨e', List.mem_append_left _ he', hp⟩

theorem setChunk_ne_nil (chunks : List (ℕ × Bytes)) (index : ℕ) (data : Bytes) :
    setChunk chunks index data ≠ [] := by
  unfold setChunk
  split
  · rename_i hany
    intro hnil
    rw [List.map_eq_nil_iff.1 hnil] at hany
    cases hany
  · simp

theorem collectChunks_gathered : ∀ {entries before : List AttachEntry} {buf buf' : FileBuf}
    {seq seq' : ℕ} {ts ts' : ℤ}, collectChunks L entries buf seq ts = .ok (buf', seq', ts') →
    Gathered L before buf seq → (buf.chunks = [] → seq = 0) →
    Gathered L (before ++ entries) buf' seq'
  | [], before, _, _, _, _, _, _, h, hg, _ => by
    cases h
    rw [List.append_nil]
    exact hg
  | e :: entries, before, buf, buf', seq, seq', ts, ts', h, hg, hnil => by
    unfold collectChunks at h
    rw [List.append_cons before e entries]
    split at h
    · exact collectChunks_gathered h (hg.skip e) hnil
    rename_i parsed chunk hchecked
    split at h
    · cases h
    rename_i data hdata
    refine collectChunks_gathered h (hg.add hnil hchecked data) fun hempty => ?_
    exact absurd hempty (setChunk_ne_nil _ _ _)

theorem exists_of_mapM {α β : Type} {f : α → Option β} : ∀ {l : List α} {ys : List β},
    l.mapM f = some ys → ∀ {x : α}, x ∈ l → ∃ y, f x = some y
  | [], _, _, _, hx => (List.not_mem_nil hx).elim
  | a :: l, ys, h, x, hx => by
    rw [List.mapM_cons] at h
    obtain ⟨y, hy, h⟩ := Option.bind_eq_some_iff.1 h
    obtain ⟨zs, hzs, -⟩ := Option.bind_eq_some_iff.1 h
    rcases List.mem_cons.1 hx with rfl | hx
    · exact ⟨y, hy⟩
    · exact exists_of_mapM hzs hx

/-- A file that could be put together has a chunk for every index below its total. -/
theorem reassembled {chunks : List (ℕ × Bytes)} {total : Json} {rebuilt : Bytes}
    (h : reassembleFile chunks total = .ok (some rebuilt)) :
    total.eqInt chunks.length = true ∧ ∀ i < chunks.length, ∃ x ∈ chunks, x.1 = i := by
  unfold reassembleFile at h
  split at h
  · cases h
  rename_i htotal
  refine ⟨by simpa using htotal, fun i hi => ?_⟩
  split at h
  · cases h
  have h := Except.ok.inj h
  obtain ⟨datas, hdatas, -⟩ := Option.map_eq_some_iff.1 h
  obtain ⟨data, hlookup⟩ := exists_of_mapM hdatas (List.mem_range.2 hi)
  obtain ⟨l₁, l₂, hsplit, -⟩ := List.lookup_eq_some_iff.1 hlookup
  exact ⟨(i, data), by rw [hsplit]; simp, rfl⟩

theorem eqInt_unique {v : Json} {m n : ℕ} (hm : v.eqInt m = true) (hn : v.eqInt n = true) :
    m = n := by
  unfold Json.eqInt at hm hn
  simp only [decide_eq_true_eq] at hm hn
  rw [hm] at hn
  simpa using hn

end Gui

theorem ChunkPacket.index_lt {ops : List Op} {p : PublicKey} {tid : Text} {f : FilePacket}
    (h : ChunkPacket ops p tid f) : f.index < f.total := by
  obtain ⟨op, -, hf, -, -⟩ := h
  cases op with
  | packet now sender data =>
    simp only [Op.filePacket, Option.mem_def] at hf
    split at hf
    · cases hf
    split at hf
    · obtain ⟨⟨t, i, n⟩, hhead, rfl⟩ := Option.map_eq_some_iff.1 hf
      exact (header_toNat hhead).2.2.2
    · cases hf
  | _ => cases hf

/-- An entry that was fetched of a transfer. -/
def EntryOf (ops : List Op) (p : PublicKey) (tid : Text) (e : AttachEntry) : Prop :=
  ∃ f payload, ChunkPacket ops p tid f ∧ e.seq = f.env.seq ∧ e.payload = Base64.encode payload
    ∧ parseFileHeader payload = some (tid, f.index, f.total)

theorem EntryOf.packet {L : Libs} {ops : List Op} {p : PublicKey} {tid : Text} {e : AttachEntry}
    (h : EntryOf ops p tid e) {parsed : FilePayload} (hc : Gui.ChunkAt L e parsed) :
    ∃ f, ChunkPacket ops p tid f ∧ e.seq = f.env.seq ∧ parsed.index = f.index.toNat
      ∧ parsed.total = f.total.toNat := by
  obtain ⟨f, payload, hf, hseq, hpayload, hhead⟩ := h
  have hparse := hc.parse
  rw [hpayload] at hparse
  exact ⟨f, hf, hseq, parseFilePayload_index hhead hparse⟩

/-- A fetched transfer that can be put together is complete, so the largest seq of its entries is
the largest of the transfer. -/
theorem fetched_largest {L : Libs} {ops : List Op} {p : PublicKey} {tid : Text} {total : UInt16}
    (hhonest : Daemon.Honest ops p tid total) {entries : List AttachEntry}
    (hentries : ∀ e ∈ entries, EntryOf ops p tid e) {buf : FileBuf} {seq : ℕ} {ts : ℤ}
    (hfetched : Gui.Fetched L entries buf seq ts) {rebuilt : Bytes}
    (hrebuilt : reassembleFile buf.chunks buf.total = .ok (some rebuilt)) :
    ∃ s, LargestSeq ops p tid s ∧ seq = s.toNat := by
  obtain ⟨hcollect, hne⟩ := hfetched
  have hg : Gui.Gathered L ([] ++ entries) buf seq :=
    Gui.collectChunks_gathered hcollect ⟨by simp, by simp, by simp⟩ fun _ => rfl
  rw [List.nil_append] at hg
  obtain ⟨heq, hindices⟩ := Gui.reassembled hrebuilt
  have htotal : ∀ f, ChunkPacket ops p tid f → f.total = total := by
    rintro f ⟨op, hop, hf, hs, ht⟩
    exact hhonest.total_eq op hop f hf hs ht
  have hlen : buf.chunks.length = total.toNat := by
    obtain ⟨e, he, parsed, hc, hpt⟩ := hg.total hne
    obtain ⟨f, hf, -, -, hft⟩ := (hentries e he).packet hc
    rw [hft, htotal f hf] at hpt
    exact Gui.eqInt_unique heq hpt
  obtain ⟨e, he, parsed, hc, hseq⟩ := hg.attained hne
  obtain ⟨g, hgp, hgseq, -, -⟩ := (hentries e he).packet hc
  refine ⟨g.env.seq, ⟨⟨g, hgp, rfl⟩, fun f hf => ?_⟩, by rw [← hseq, hgseq]⟩
  -- The index of the packet is one of the file, and the entry with that index has its seq.
  have hlt : f.index.toNat < buf.chunks.length := by
    rw [hlen, ← htotal f hf]
    exact UInt16.lt_iff_toNat_lt.1 hf.index_lt
  obtain ⟨x, hx, hxi⟩ := hindices f.index.toNat hlt
  obtain ⟨e', he', parsed', hc', hi', hle⟩ := hg.chunks x hx
  obtain ⟨f', hf', hseq', hindex', -⟩ := (hentries e' he').packet hc'
  have hsame : f'.index = f.index := UInt16.toNat.inj (by rw [← hindex', hi', hxi])
  obtain ⟨op, hop, hfo, hs, ht⟩ := hf
  obtain ⟨op', hop', hfo', hs', ht'⟩ := hf'
  have hseqs := hhonest.seq_eq op' hop' f' hfo' op hop f hfo hs' ht' hs ht hsame
  rw [UInt64.le_iff_toNat_le, ← hseqs, ← hseq', ← hgseq, hseq]
  exact hle

/-- What the moves make the daemon do. -/
def ReceiverMove.op : ReceiverMove → Option Op
  | .daemon op => some op
  | .fetch now node tid => some (.api now true (.fetchattachment node tid))
  | _ => none

namespace Receiver

def opsOf (moves : List ReceiverMove) : List Op := moves.filterMap ReceiverMove.op

/-- The chunk that completes the transfer live is the one with the largest seq, and the transfer is
fetched under the node key as the daemon writes it. -/
def LastCompletes (L : Libs) (ops : List Op) (p : PublicKey) (tid : Text) (w : Receiver) :
    ReceiverMove → Prop
  | .live => ∀ e ∈ w.events.head?, e.sender = p → headerTid e.payload = tid →
    Gui.completes L w.gui (Hex.encode p) (Python.str (Base64.encode e.payload)) = true →
      ∀ f, ChunkPacket ops p tid f → f.env.seq ≤ e.seq
  | .sweep => ∀ job ∈ w.jobs.head?, decodeFromKey job.node = .ok p → job.tid = tid →
    job.node = Hex.encode p
  | _ => True

/-! ### One move -/

variable {L : Libs} {C : Config} {root : AttachmentsDir} {ops : List Op} {p : PublicKey} {tid : Text}
  {w : Receiver}

/-- What holds all along a run of the operations. -/
structure Inv (L : Libs) (C : Config) (ops : List Op) (p : PublicKey) (tid : Text) (w : Receiver) :
    Prop where
  daemon : ∃ done ⊆ ops, w.daemon = (Daemon.run C {} done).1
  events : ∀ e ∈ w.events, e.sender = p → headerTid e.payload = tid →
    ∃ f, ChunkPacket ops p tid f ∧ f.env.seq = e.seq
  jobs : ∀ job ∈ w.jobs, decodeFromKey job.node = .ok p → job.tid = tid →
    ∀ e ∈ job.chunks, EntryOf ops p tid e
  bufs : Gui.BufsFrom L (fun _ => True) w.gui
  ids : (w.gui.store.messages.map Message.id).Nodup
  filed : ∀ m, (p, tid, m) ∈ w.filed →
    ∃ s, LargestSeq ops p tid s ∧ m.id = messageId (Hex.encode p) s.toNat

/-- A chunk event of an operation is of its packet. -/
theorem eventOf_step (d : Daemon) (op : Op) {e : ChunkEvent}
    (he : e ∈ (d.step C op).2.filterMap eventOf) : ∃ row seq, Daemon.FileOf d op row seq
      ∧ e.sender = row.peer ∧ e.seq = seq ∧ e.payload = row.payload := by
  have hmap : ((d.step C op).2.filterMap eventOf).map (fun e => (e.sender, e.seq, e.payload))
      = Daemon.fileEvents (d.step C op).2 := by
    rw [List.map_filterMap]
    unfold Daemon.fileEvents
    congr 1
    funext o
    cases o with
    | reply r => rfl
    | packet out => rfl
    | event ev => cases ev <;> rfl
  have hmem := List.mem_map_of_mem (f := fun e : ChunkEvent => (e.sender, e.seq, e.payload)) he
  rw [hmap] at hmem
  rcases d.step_chunks (C := C) op with ⟨-, hev⟩ | ⟨row, seq, rows, hfile, -, -, -, hev⟩
  · rw [hev] at hmem
    cases hmem
  · rw [hev, List.mem_singleton, Prod.mk.injEq, Prod.mk.injEq] at hmem
    exact ⟨row, seq, hfile, hmem⟩

theorem Inv.empty : Inv L C ops p tid {} where
  daemon := ⟨[], by simp, rfl⟩
  events := nofun
  jobs := nofun
  bufs := nofun
  ids := List.nodup_nil
  filed := nofun

theorem Inv.daemon_step (h : Inv L C ops p tid w) {op : Op} (hop : op ∈ ops) :
    Inv L C ops p tid (w.step L C root (.daemon op)) where
  daemon := by
    obtain ⟨done, hdone, heq⟩ := h.daemon
    refine ⟨done ++ [op], by simp [hdone, hop], ?_⟩
    rw [Daemon.run_append, ← heq]
    rfl
  events e he hsender htid := by
    rcases List.mem_append.1 he with he | he
    · exact h.events e he hsender htid
    · obtain ⟨row, seq, hfile, hs, hseq, hpay⟩ := eventOf_step w.daemon op he
      obtain ⟨f, hf, hkey, -⟩ := hfile.filePacket
      rw [FilePacket.key, ChunkKey.mk.injEq] at hkey
      obtain ⟨hpeer, hfseq, hftid, -⟩ := hkey
      have hhead : parseFileHeader row.payload = some (row.tid, row.idx, row.total) := hfile.headed
      rw [hpay, headerTid, hhead] at htid
      exact ⟨f, ⟨op, hop, hf, by rw [hpeer, ← hs, hsender], hftid.trans htid⟩, hfseq.trans hseq.symm⟩
  jobs := h.jobs
  bufs := h.bufs
  ids := h.ids
  filed := h.filed

/-- What a fetch gives is of packets of the run. -/
theorem Inv.entryOf (h : Inv L C ops p tid w) {e : AttachEntry}
    (he : e ∈ (Daemon.attachStore C p).fetchTid w.daemon.db tid) : EntryOf ops p tid e := by
  obtain ⟨done, hdone, heq⟩ := h.daemon
  rw [heq, AttachmentStore.fetchTid_eq] at he
  obtain ⟨r, hr, rfl⟩ := List.mem_map.1 he
  obtain ⟨hr, hpeer, htid⟩ := AttachmentStore.mem_transferOf.1 ((List.mem_insertionSort _).1 hr)
  obtain ⟨op, hop, f, hf, hfs, hft, hfi, htotal, hseq, -⟩ := Daemon.packet_of_stored done r hr
  have hheaded : r.Headed := (Daemon.Chunks.run done ⟨by simp, by simp⟩).headed r hr
  refine ⟨f, r.payload, ⟨op, hdone hop, hf, hfs.trans hpeer, hft.trans htid⟩, ?_, rfl, ?_⟩
  · dsimp only
    rw [hseq, UInt64.toUInt64_toInt64]
  · rw [hfi, htotal, ← htid]
    exact hheaded

theorem Inv.fetch_step (h : Inv L C ops p tid w) {now : ℤ} {node t : Text}
    (hop : .api now true (.fetchattachment node t) ∈ ops) :
    Inv L C ops p tid (w.step L C root (.fetch now node t)) := by
  have hstep : Inv L C ops p tid
      (w.step L C root (.daemon (.api now true (.fetchattachment node t)))) := h.daemon_step hop
  have hdaemon := hstep.daemon
  simp only [step, Daemon.step] at hdaemon ⊢
  split
  · rename_i node' t' chunks d heq
    rw [heq] at hdaemon
    refine ⟨hdaemon, h.events, fun job hjob hnode htid e he => ?_, h.bufs, h.ids, h.filed⟩
    rcases List.mem_append.1 hjob with hjob | hjob
    · exact h.jobs job hjob hnode htid e he
    cases List.mem_singleton.1 hjob
    simp only [Daemon.dispatch, Daemon.handleFetchAttachment] at heq
    split at heq
    · cases heq
    rename_i key hkey
    split at heq
    · cases heq
    simp only [Daemon.fetchAttachment, Prod.mk.injEq, Reply.fetchattachment.injEq] at heq
    obtain ⟨⟨rfl, rfl, rfl⟩, -⟩ := heq
    rw [hkey] at hnode
    cases hnode
    dsimp only at htid he
    rw [htid] at he
    exact h.entryOf he
  · rename_i d heq
    rw [heq] at hdaemon
    exact ⟨hdaemon, h.events, h.jobs, h.bufs, h.ids, h.filed⟩

/-- A file that the window stores, or not. -/
theorem Inv.file (h : Inv L C ops p tid w) {gui : Gui} (hbufs : Gui.BufsFrom L (fun _ => True) gui)
    {P : Message → Prop} (hgrow : Store.Grows P w.gui.store gui.store) {sender : PublicKey}
    {t : Text} (hP : sender = p → t = tid → ∀ row, P row →
      ∃ s, LargestSeq ops p tid s ∧ row.id = messageId (Hex.encode p) s.toNat) :
    Inv L C ops p tid (w.file sender t gui) := by
  refine ⟨h.daemon, h.events, h.jobs, hbufs, ?_, fun m hm => ?_⟩
  · show (gui.store.messages.map Message.id).Nodup
    rcases hgrow with heq | ⟨row, -, hnew, heq⟩
    · rw [heq]
      exact h.ids
    · rw [heq, List.map_append, List.map_singleton, List.nodup_append]
      refine ⟨h.ids, List.nodup_singleton _, ?_⟩
      rintro a ha b hb rfl
      obtain ⟨m, hm, rfl⟩ := List.mem_map.1 ha
      exact hnew m hm (List.mem_singleton.1 hb)
  · rcases List.mem_append.1 hm with hm | hm
    · exact h.filed m hm
    obtain ⟨row, hrow, heq⟩ := List.mem_map.1 hm
    simp only [Prod.mk.injEq] at heq
    obtain ⟨rfl, rfl, rfl⟩ := heq
    refine hP rfl rfl row ?_
    rcases hgrow with heq | ⟨row', hrow', -, heq⟩
    · rw [heq, List.drop_length] at hrow
      cases hrow
    · rw [heq, List.drop_left, List.mem_singleton] at hrow
      rw [hrow]
      exact hrow'

theorem Inv.live_step (h : Inv L C ops p tid w) (hlast : LastCompletes L ops p tid w .live) :
    Inv L C ops p tid (w.step L C root .live) := by
  simp only [step]
  split
  · exact h
  rename_i e events hevents
  have hmem : e ∈ w.events := by simp [hevents]
  have hlast := hlast e (by simp [hevents])
  have hrest : Inv L C ops p tid { w with events } :=
    ⟨h.daemon, fun x hx => h.events x (by simp [hevents, hx]), h.jobs, h.bufs, h.ids, h.filed⟩
  obtain ⟨hbufs, hgrow⟩ := Gui.incomingFile_spec h.bufs root (Hex.encode e.sender)
    (Event.toRecv.recvEvent true e.sender e.seq e.ts e.payload) fun _ _ => trivial
  refine hrest.file hbufs hgrow ?_
  rintro hsender htid row ⟨text, htext, hcompletes, _, _, buf, -, -, rebuilt, path, -, hrow⟩
  obtain ⟨f, hf, hseq⟩ := h.events e hmem hsender htid
  refine ⟨e.seq, ⟨⟨f, hf, hseq⟩, ?_⟩, ?_⟩
  · rw [payload_of_recvEvent htext, hsender] at hcompletes
    exact hlast hsender htid hcompletes
  · rw [(Store.incomingRow_fields hrow).2.1, seqOrZero_recvEvent, hsender]

theorem Inv.sweep_step (h : Inv L C ops p tid w) {total : UInt16}
    (hhonest : Daemon.Honest ops p tid total) (hlast : LastCompletes L ops p tid w .sweep) :
    Inv L C ops p tid (w.step L C root .sweep) := by
  simp only [step]
  split
  · exact h
  rename_i job jobs hjobs
  have hmem : job ∈ w.jobs := by simp [hjobs]
  have hlast := hlast job (by simp [hjobs])
  have hrest : Inv L C ops p tid { w with jobs } :=
    ⟨h.daemon, h.events, fun x hx => h.jobs x (by simp [hjobs, hx]), h.bufs, h.ids, h.filed⟩
  split
  · exact hrest
  rename_i sender hkey
  have hgui : w.gui.step L root (.fetched job.node job.tid job.chunks)
      = (w.gui.processFetchedTransfer L root job.node job.tid job.chunks).2 := by
    simp only [Gui.step, hkey]
  rw [hgui]
  obtain ⟨hbufs, hgrow⟩ := Gui.processFetchedTransfer_spec (L := L) (fun _ => True) root w.gui
    job.node job.tid fun e (_ : e ∈ job.chunks) => trivial
  have hbufs : Gui.BufsFrom L (fun _ => True)
      (w.gui.processFetchedTransfer L root job.node job.tid job.chunks).2 := by
    unfold Gui.BufsFrom
    rw [hbufs]
    exact h.bufs
  refine hrest.file hbufs hgrow ?_
  rintro hsender htid row ⟨buf, seq, ts, hfetched, -, rebuilt, path, hrebuilt, hrow⟩
  rw [hsender] at hkey
  obtain ⟨s, hs, hseq⟩ := fetched_largest hhonest (h.jobs job hmem hkey htid) hfetched hrebuilt
  refine ⟨s, hs, ?_⟩
  rw [(Store.incomingRow_fields hrow).2.1, hlast hkey htid, hseq]

theorem Inv.step (h : Inv L C ops p tid w) {total : UInt16}
    (hhonest : Daemon.Honest ops p tid total) {mv : ReceiverMove} (hop : ∀ op ∈ mv.op, op ∈ ops)
    (hlast : LastCompletes L ops p tid w mv) : Inv L C ops p tid (w.step L C root mv) := by
  cases mv with
  | daemon op => exact h.daemon_step (hop op rfl)
  | fetch now node t => exact h.fetch_step (hop _ rfl)
  | live => exact h.live_step hlast
  | sweep => exact h.sweep_step hhonest hlast
  | restart => exact ⟨h.daemon, nofun, nofun, nofun, h.ids, h.filed⟩

/-- Rows with ids of their own, all made for one transfer. -/
theorem Inv.rowsOf_length (h : Inv L C ops p tid w) : (w.rowsOf p tid).length ≤ 1 := by
  have hids : ((w.rowsOf p tid).map Message.id).Nodup := h.ids.sublist (List.filter_sublist.map _)
  have hfiled : ∀ m ∈ w.rowsOf p tid,
      ∃ s, LargestSeq ops p tid s ∧ m.id = messageId (Hex.encode p) s.toNat :=
    fun m hm => h.filed m (by simpa [rowsOf] using (List.mem_filter.1 hm).2)
  generalize w.rowsOf p tid = rows at hids hfiled
  match rows with
  | [] => simp
  | [m] => simp
  | m :: m' :: rest =>
    obtain ⟨s, hs, hid⟩ := hfiled m (by simp)
    obtain ⟨s', hs', hid'⟩ := hfiled m' (by simp)
    rw [hs.unique hs'] at hid
    simp [hid, hid'] at hids

/-- In a run in which the chunk that completes the transfer live is the one with the largest seq,
the store never has more than one row of it. -/
theorem filed_once (L : Libs) (C : Config) (root : AttachmentsDir) (moves : List ReceiverMove)
    (p : PublicKey) (tid : Text) (total : UInt16)
    (hhonest : Daemon.Honest (opsOf moves) p tid total)
    (hlast : ∀ n mv, moves[n]? = some mv →
      LastCompletes L (opsOf moves) p tid (run L C root (moves.take n)) mv) :
    ∀ n, ((run L C root (moves.take n)).rowsOf p tid).length ≤ 1 := by
  intro n
  suffices h : Inv L C (opsOf moves) p tid (run L C root (moves.take n)) from h.rowsOf_length
  refine Runs.invariant (step L C root) {} moves .empty (fun n mv hmv ih => ?_) n
  refine ih.step hhonest (fun op hop => ?_) (hlast n mv hmv)
  exact List.mem_filterMap.2 ⟨mv, List.mem_of_getElem? hmv, hop⟩

/-! ### A file in two halves -/

section Halves

open Daemon (examplePeer exampleTid)

/-- An identity to which a sealed payload is the half of an empty file that its last byte tells. -/
def halfLibs : Libs where
  sealOpen sealed := some (sealed.drop 48)
  verifies _ _ _ := true
  loads s := .ok (.obj [(Field.transferId, .str (Python.str exampleTid)),
    (Field.index, .int (match s with | [] => 0 | c :: _ => c.val)), (Field.total, .int 2),
    (Field.filename, .str (Python.str ['f'])),
    (Field.sha256, .str (Python.str (Hex.encode Gui.chunkLibs.emptyDigest))), (Field.data, .str [])])
  loadsBytes b := .ok (.obj [(Field.kind, .str Kind.file.name),
    (Field.sender, .str (Python.str (Hex.encode (List.replicate 32 9)))),
    (Field.body, .str (b.map fun x => Python.codePoint (Char.ofNat x.toNat))),
    (Field.sig, .str (Python.str (Base64.encode (List.replicate 64 0))))])
  dumps _ := .ok []
  sha256 _ := Gui.chunkLibs.emptyDigest
  realText _ := []

/-- The packet of a half; the first has seq 1 and the second has seq 2. -/
def half (index : UInt8) : ReceiverMove :=
  .daemon (.packet 0 examplePeer
    ([1, 5, index + 1, 0, 0, 0, 0, 0, 0, 0, 9, 0, 0, 0, 0, 0, 0, 0, 69, 0]
    ++ List.replicate 16 7 ++ [index, 0, 2, 0] ++ List.replicate 48 0 ++ [index]))

/-- The client starts again, fetches the transfer and handles what it fetched. -/
def catchUp : List ReceiverMove := [.restart, .fetch 0 (Hex.encode examplePeer) exampleTid, .sweep]

def inOrder : List ReceiverMove := [half 0, half 1, .live, .live] ++ catchUp

def outOfOrder : List ReceiverMove := [half 1, half 0, .live, .live] ++ catchUp

/-- The packets of the halves, in any order and number. -/
theorem halves_honest {moves : List ReceiverMove} (h : ∀ op ∈ opsOf moves, ∀ f ∈ op.filePacket,
    f.total = 2 ∧ f.env.seq = f.index.toUInt64 + 1) :
    Daemon.Honest (opsOf moves) examplePeer exampleTid 2 where
  total_eq op hop f hf _ _ := (h op hop f hf).1
  seq_eq op hop f hf op' hop' g hg _ _ _ _ hindex := by
    rw [(h op hop f hf).2, (h op' hop' g hg).2, hindex]

/-- In order, the second half completes the file, and the fetched copy is passed over. -/
theorem filed_once_inOrder :
    let C : Config := ⟨10, 1000, 0, 0, 1000⟩
    ((run halfLibs C Gui.homeDir (inOrder.take 4)).rowsOf examplePeer exampleTid).length = 1
      ∧ (run halfLibs C Gui.homeDir (inOrder.take 6)).jobs.length = 1
      ∧ ((run halfLibs C Gui.homeDir (inOrder.take 7)).rowsOf examplePeer exampleTid).length
        ≤ 1 := by
  intro C
  refine ⟨by decide +kernel, by decide +kernel, ?_⟩
  refine filed_once halfLibs C Gui.homeDir inOrder examplePeer exampleTid 2
    (halves_honest (by decide +kernel)) ?_ 7
  have hmax : ∀ f, ChunkPacket (opsOf inOrder) examplePeer exampleTid f → f.env.seq ≤ 2 := by
    rintro f ⟨op, hop, hf, -, -⟩
    have hall : ∀ op ∈ opsOf inOrder, ∀ f ∈ op.filePacket, f.env.seq ≤ 2 := by decide +kernel
    exact hall op hop f hf
  have hlive : ∀ n ∈ [2, 3], ∀ e ∈ (run halfLibs C Gui.homeDir (inOrder.take n)).events.head?,
      Gui.completes halfLibs (run halfLibs C Gui.homeDir (inOrder.take n)).gui
        (Hex.encode examplePeer) (Python.str (Base64.encode e.payload)) = true → e.seq = 2 := by
    decide +kernel
  have hsweep : ∀ job ∈ (run halfLibs C Gui.homeDir (inOrder.take 6)).jobs.head?,
      job.node = Hex.encode examplePeer := by
    decide +kernel
  have hlast : ∀ n ∈ [2, 3], LastCompletes halfLibs (opsOf inOrder) examplePeer exampleTid
      (run halfLibs C Gui.homeDir (inOrder.take n)) .live := by
    intro n hn e he _ _ hcompletes f hf
    rw [hlive n hn e he hcompletes]
    exact hmax f hf
  intro n mv hn
  match n, hn with
  | 0, rfl => trivial
  | 1, rfl => trivial
  | 2, rfl => exact hlast 2 (by simp)
  | 3, rfl => exact hlast 3 (by simp)
  | 4, rfl => trivial
  | 5, rfl => trivial
  | 6, rfl => exact fun job hjob _ _ => hsweep job hjob

/-- Out of order, the first half completes the file, under seq 1; with no `ackfile` before the
client starts again, the fetched copy is stored too, under seq 2. -/
theorem filed_twice :
    let C : Config := ⟨10, 1000, 0, 0, 1000⟩
    Daemon.Honest (opsOf outOfOrder) examplePeer exampleTid 2
      ∧ ((run halfLibs C Gui.homeDir outOfOrder).rowsOf examplePeer exampleTid).length = 2 := by
  intro C
  exact ⟨halves_honest (by decide +kernel), by decide +kernel⟩

end Halves

end Receiver

end Aimless
