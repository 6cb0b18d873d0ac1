import Aimless.Proofs.Reassembly

/-!
# From the file that is sent to the file that is stored

A file with at least one byte goes the whole way: its chunks get headers that the daemon reads, a row
of the outbox each, the daemon that stores them lists the transfer, and the window that fetches it,
or that is told of the chunks as they come in, stores the file.  A file with no byte has no chunk,
and is shown as sent with nothing queued.
-/

namespace Aimless

open Python (Str Exc Json Dict)

section Rows

variable {S : Sealer} {L : Libs} {buddy : Str} {file : Outgoing} {node : Text}

/-- The row of the piece with an index. -/
def Outgoing.RowAt (file : Outgoing) (S : Sealer) (L : Libs) (buddy : Str) (node : Text) (i : ℕ)
    (row : OutboxRow) : Prop :=
  (decodeKey node = .ok row.peer ∧ row.type = typeFile) ∧ ∃ ephemeral,
    buildFilePayload S ephemeral buddy (file.chunkAt L none i)
      = .ok (Python.str (Base64.encode row.payload))

/-- One row for each piece, in their order. -/
def Outgoing.Rows (file : Outgoing) (S : Sealer) (L : Libs) (buddy : Str) (node : Text)
    (rows : List OutboxRow) : Prop :=
  List.Forall₂ (file.RowAt S L buddy node) (List.range (pieces file.data).length) rows

theorem Outgoing.rows_of_queued {digest : Bytes} (hdigest : digest = L.sha256 file.data)
    {rows : List OutboxRow} (h : List.Forall₂ (QueuedAs S buddy node (file.chunk digest none))
      (pieces file.data).zipIdx rows) : file.Rows S L buddy node rows := by
  have hsnd : (pieces file.data).zipIdx.map Prod.snd = List.range (pieces file.data).length := by
    rw [List.zipIdx_map_snd, List.range_eq_range']
  unfold Outgoing.Rows
  rw [← hsnd, List.forall₂_map_left_iff, List.forall₂_iff_get]
  obtain ⟨hlen, hget⟩ := List.forall₂_iff_get.1 h
  refine ⟨hlen, fun i hi hi' => ?_⟩
  have hrow := hget i hi hi'
  obtain ⟨ephemeral, hpayload⟩ := hrow.payload
  refine ⟨⟨hrow.peer, hrow.type⟩, ephemeral, ?_⟩
  have hip : i < (pieces file.data).length := by simpa using hi
  have hpiece : (pieces file.data).zipIdx.get ⟨i, hi⟩ = ((pieces file.data).getD i [], i) := by
    rw [List.get_eq_getElem, List.getElem_zipIdx, List.getD_eq_getElem _ _ hip, Nat.zero_add]
  rw [hpiece] at hpayload ⊢
  rw [Outgoing.chunkAt, ← hdigest]
  exact hpayload

variable {rows : List OutboxRow}

theorem Outgoing.Rows.exists_row (h : file.Rows S L buddy node rows) {i : ℕ}
    (hi : i < (pieces file.data).length) : ∃ row ∈ rows, file.RowAt S L buddy node i row := by
  obtain ⟨hlen, hget⟩ := List.forall₂_iff_get.1 h
  have hi' : i < rows.length := by rwa [← hlen, List.length_range]
  refine ⟨rows.get ⟨i, hi'⟩, List.get_mem _ _, ?_⟩
  have := hget i (by rwa [List.length_range]) hi'
  rwa [List.get_eq_getElem, List.getElem_range] at this

theorem Outgoing.Rows.exists_index (h : file.Rows S L buddy node rows) {row : OutboxRow}
    (hrow : row ∈ rows) : ∃ i < (pieces file.data).length, file.RowAt S L buddy node i row := by
  obtain ⟨hlen, hget⟩ := List.forall₂_iff_get.1 h
  obtain ⟨⟨i, hi⟩, rfl⟩ := List.get_of_mem hrow
  have hi' : i < (List.range (pieces file.data).length).length := by rwa [hlen]
  have := hget i hi' hi
  rw [List.get_eq_getElem, List.getElem_range] at this
  exact ⟨i, by rwa [List.length_range] at hi', this⟩

/-- The header that the daemon reads of the payload of a row. -/
theorem Outgoing.RowAt.header (htid : file.tid.length = 16)
    (hmax : file.data.length ≤ maxSendBytes) {i : ℕ} (hi : i < (pieces file.data).length)
    {row : OutboxRow} (h : file.RowAt S L buddy node i row) :
    parseFileHeader row.payload = some (Hex.encode file.tid, UInt16.ofNat i,
      UInt16.ofNat (pieces file.data).length) := by
  obtain ⟨-, ephemeral, hbuild⟩ := h
  obtain ⟨box, hparse, -⟩ := parse_built htid hmax hi hbuild
  exact parseFileHeader_of_parse hparse

end Rows

/-! ### Stored by the daemon -/

/-- The chunks of the transfer that a daemon was sent are among the rows, and all rows are stored. -/
structure StoresRows (C : Config) (ops : List Op) (a : PublicKey) (file : Outgoing)
    (rows : List OutboxRow) : Prop where
  sent : ∀ f, ChunkPacket ops a (Hex.encode file.tid) f → ∃ row ∈ rows, f.env.payload = row.payload
  stored : ∀ row ∈ rows, ∃ r ∈ (Daemon.run C {} ops).1.db.attach,
    r.peer = a ∧ r.payload = row.payload

section Stored

variable {S : Sealer} {L : Libs} {buddy : Str} {file : Outgoing} {node : Text}
  {rows : List OutboxRow} {C : Config} {ops : List Op} {a : PublicKey}
  (htid : file.tid.length = 16) (hmax : file.data.length ≤ maxSendBytes)
  (hrows : file.Rows S L buddy node rows) (hst : StoresRows C ops a file rows)

include htid hmax hrows hst

/-- A stored chunk of the transfer is the row of a piece. -/
theorem StoresRows.row_of_mem {r : AttachRow} (hr : r ∈ (Daemon.attachStore C a).transferOf
      (Daemon.run C {} ops).1.db (Hex.encode file.tid)) :
    ∃ i < (pieces file.data).length, r.idx.toNat = i
      ∧ r.total.toNat = (pieces file.data).length
      ∧ ∃ row, row.payload = r.payload ∧ file.RowAt S L buddy node i row := by
  obtain ⟨hmem, hpeer, htidr⟩ := AttachmentStore.mem_transferOf.1 hr
  obtain ⟨op, hop, f, hf, hfs, hft, -, -, -, hpay⟩ := Daemon.packet_of_stored ops r hmem
  obtain ⟨row, hrow, hpayload⟩ := hst.sent f ⟨op, hop, hf, hfs.trans hpeer, hft.trans htidr⟩
  obtain ⟨i, hi, hat⟩ := hrows.exists_index hrow
  have hle := length_pieces_le hmax
  have hheaded : r.Headed :=
    (Daemon.Chunks.run ops (d := {}) ⟨by simp, by simp⟩).headed r hmem
  have hheader := hat.header htid hmax hi
  rw [← hpayload, hpay, hheaded] at hheader
  simp only [Option.some.injEq, Prod.mk.injEq] at hheader
  refine ⟨i, hi, ?_, ?_, row, by rw [← hpayload, hpay], hat⟩
  · rw [hheader.2.1, UInt16.toNat_ofNat_of_lt' (lt_of_lt_of_le hi (hle.trans (by decide)))]
  · rw [hheader.2.2, UInt16.toNat_ofNat_of_lt' (lt_of_le_of_lt hle (by decide))]

/-- Every index of the file has its stored chunk. -/
theorem StoresRows.exists_mem {i : ℕ} (hi : i < (pieces file.data).length) :
    ∃ r ∈ (Daemon.attachStore C a).transferOf (Daemon.run C {} ops).1.db (Hex.encode file.tid),
      r.idx.toNat = i := by
  obtain ⟨row, hrow, hat⟩ := hrows.exists_row hi
  obtain ⟨r, hr, hpeer, hpayload⟩ := hst.stored row hrow
  have hheaded : r.Headed :=
    (Daemon.Chunks.run ops (d := {}) ⟨by simp, by simp⟩).headed r hr
  have hle := length_pieces_le hmax
  have hheader := hat.header htid hmax hi
  rw [← hpayload, hheaded] at hheader
  simp only [Option.some.injEq, Prod.mk.injEq] at hheader
  refine ⟨r, AttachmentStore.mem_transferOf.2 ⟨hr, hpeer, hheader.1⟩, ?_⟩
  rw [hheader.2.1, UInt16.toNat_ofNat_of_lt' (lt_of_lt_of_le hi (hle.trans (by decide)))]

/-- A transfer all of whose chunks are stored is listed, with the number of its chunks. -/
theorem StoresRows.pending (hne : file.data ≠ []) :
    ∃ p ∈ (Daemon.attachStore C a).pending (Daemon.run C {} ops).1.db,
      p.tid = Hex.encode file.tid ∧ p.total.toNat = (pieces file.data).length := by
  set as := Daemon.attachStore C a
  set db := (Daemon.run C {} ops).1.db
  have hchunks : Daemon.Chunks db := Daemon.Chunks.run ops ⟨by simp, by simp⟩
  have htotal : as.LargestTotal db (Hex.encode file.tid) (pieces file.data).length := by
    constructor
    · obtain ⟨r, hr, -⟩ := hst.exists_mem htid hmax hrows (length_pieces_pos hne)
      obtain ⟨-, -, -, ht, -⟩ := hst.row_of_mem htid hmax hrows hr
      exact ⟨r, hr, ht⟩
    · rintro n ⟨r, hr, rfl⟩
      obtain ⟨-, -, -, ht, -⟩ := hst.row_of_mem htid hmax hrows hr
      exact ht.le
  have hperm : ((as.transferOf db (Hex.encode file.tid)).map (·.idx.toNat)).Perm
      (List.range (pieces file.data).length) := by
    have hnodup : ((as.transferOf db (Hex.encode file.tid)).map (·.idx.toNat)).Nodup := by
      have hidx : ((as.transferOf db (Hex.encode file.tid)).map (·.idx)).Nodup :=
        AttachmentStore.idx_nodup hchunks
      have := hidx.map fun x y h => UInt16.toNat.inj h
      rwa [List.map_map] at this
    refine (List.perm_ext_iff_of_nodup hnodup List.nodup_range).2 fun i => ?_
    rw [List.mem_map, List.mem_range]
    constructor
    · rintro ⟨r, hr, rfl⟩
      obtain ⟨i, hi, hidx, -⟩ := hst.row_of_mem htid hmax hrows hr
      rwa [hidx]
    · exact fun hi => hst.exists_mem htid hmax hrows hi
  have hlen : (as.transferOf db (Hex.encode file.tid)).length = (pieces file.data).length := by
    simpa using hperm.length_eq
  obtain ⟨hp, hpt⟩ := (AttachmentStore.mem_pending_iff htotal _).2 ⟨hlen, rfl⟩
  refine ⟨_, hp, hpt, ?_⟩
  exact UInt16.toNat_ofNat_of_lt' (lt_of_le_of_lt (length_pieces_le hmax) (by decide))

end Stored

/-! ### Fetched by the window -/

namespace Gui

/-- An entry with the chunk of a piece in it. -/
def EntryAt (S : Sealer) (L : Libs) (buddy : Str) (file : Outgoing) (e : AttachEntry) (i : ℕ) : Prop :=
  i < (pieces file.data).length ∧ ∃ ephemeral raw,
    buildFilePayload S ephemeral buddy (file.chunkAt L none i)
      = .ok (Python.str (Base64.encode raw)) ∧ e.payload = Base64.encode raw

section Fetched

variable {K : Str → Bool} {S : Sealer} {L : Libs} {buddy : Str} {file : Outgoing}
  (H : Ideal K S L buddy) (hname : K file.filename = true) (htid : file.tid.length = 16)
  (hmax : file.data.length ≤ maxSendBytes)

include htid hmax in
theorem EntryAt.unique {e : AttachEntry} {i j : ℕ} (hi : EntryAt S L buddy file e i)
    (hj : EntryAt S L buddy file e j) : i = j := by
  obtain ⟨hi, ephemeral, raw, hbuild, hpay⟩ := hi
  obtain ⟨hj, ephemeral', raw', hbuild', hpay'⟩ := hj
  obtain ⟨box, hparse, -⟩ := parse_built htid hmax hi hbuild
  obtain ⟨box', hparse', -⟩ := parse_built htid hmax hj hbuild'
  rw [← hpay, hpay', hparse'] at hparse
  cases hparse
  rfl

include H hname htid hmax

/-- An entry of the file is added to the pieces. -/
theorem collectChunks_cons {e : AttachEntry} {i : ℕ} (he : EntryAt S L buddy file e i)
    (entries : List AttachEntry) (buf : FileBuf) (seq : ℕ) (ts : ℤ) :
    collectChunks L (e :: entries) buf seq ts
      = collectChunks L entries
        { buf with
          total := .int (pieces file.data).length
          info := openedChunk S (file.chunkAt L none i)
          chunks := setChunk buf.chunks i ((pieces file.data).getD i []) }
        (max seq e.seq.toNat) (max ts e.ts.toInt) := by
  obtain ⟨hi, ephemeral, raw, hbuild, hpay⟩ := he
  obtain ⟨-, box, hc⟩ := checkedChunk_built H hname (by simp) htid hmax hi hbuild
  rw [collectChunks, hpay, hc]
  simp only [chunkData_openedChunk, (reads_openedChunk S file L none i).total, Option.getD_some]

/-- The entries of the file leave a buffer with their pieces. -/
theorem collectChunks_built : ∀ (entries : List AttachEntry) {buf : FileBuf} {A : ℕ → Prop}
    (seq : UInt64) (ts : Int64), Buffered file L A buf → (∃ i, Reads file L none i buf.info) →
    (∀ e ∈ entries, ∃ i, EntryAt S L buddy file e i) →
    ∃ buf' seq' ts' A', collectChunks L entries buf seq.toNat ts.toInt
        = .ok (buf', UInt64.toNat seq', Int64.toInt ts')
      ∧ Buffered file L A' buf' ∧ (∃ i, Reads file L none i buf'.info)
      ∧ (∀ j, A j → A' j) ∧ ∀ e ∈ entries, ∀ j, EntryAt S L buddy file e j → A' j
  | [], buf, A, seq, ts, hB, hinfo, _ => by
    exact ⟨buf, seq, ts, A, rfl, hB, hinfo, fun _ h => h, fun e he => absurd he List.not_mem_nil⟩
  | e :: entries, buf, A, seq, ts, hB, hinfo, hall => by
    obtain ⟨i, hi⟩ := hall e List.mem_cons_self
    have hr := reads_openedChunk S file L none i
    have hset := hB.setChunk (getElem?_pieces hi.1)
    have hB' : Buffered file L (fun j => A j ∨ j = i)
        { buf with
          total := .int (pieces file.data).length
          info := openedChunk S (file.chunkAt L none i)
          chunks := setChunk buf.chunks i ((pieces file.data).getD i []) } :=
      ⟨rfl, hset.failed, ⟨none, i, hr⟩, hset.nodup, hset.pieces⟩
    obtain ⟨seq₁, hseq⟩ : ∃ s : UInt64, s.toNat = max seq.toNat e.seq.toNat := by
      rcases max_choice seq.toNat e.seq.toNat with h | h
      · exact ⟨seq, h.symm⟩
      · exact ⟨e.seq, h.symm⟩
    obtain ⟨ts₁, hts⟩ : ∃ t : Int64, t.toInt = max ts.toInt e.ts.toInt := by
      rcases max_choice ts.toInt e.ts.toInt with h | h
      · exact ⟨ts, h.symm⟩
      · exact ⟨e.ts, h.symm⟩
    rw [collectChunks_cons H hname htid hmax hi, ← hseq, ← hts]
    obtain ⟨buf', seq', ts', A', heq, hbuf, hread, hold, hnew⟩ := collectChunks_built entries seq₁ ts₁
      hB' ⟨i, hr⟩ fun e' he' => hall e' (List.mem_cons_of_mem _ he')
    refine ⟨buf', seq', ts', A', heq, hbuf, hread, fun j hj => hold j (.inl hj), ?_⟩
    intro e' he' j hj
    rcases List.mem_cons.1 he' with rfl | he'
    · exact hold j (.inr (hj.unique htid hmax hi))
    · exact hnew e' he' j hj

/-- A fetched transfer with an entry for every piece is stored as the file. -/
theorem processFetched_stores (root : AttachmentsDir) (g : Gui) (a : PublicKey) (tid : Text)
    {entries : List AttachEntry} (hne : file.data ≠ [])
    (hall : ∀ e ∈ entries, ∃ i, EntryAt S L buddy file e i)
    (hevery : ∀ i < (pieces file.data).length, ∃ e ∈ entries, EntryAt S L buddy file e i)
    {path : Str} {fs' : FileSystem}
    (hwrites : writesFile root g.fs (transferConv none a) file file.data = (.ok path, fs')) :
    ∃ seq ts, StoresFile L root (transferConv none a) a seq ts file g
      (g.processFetchedTransfer L root (Hex.encode a) tid entries).2 := by
  obtain ⟨buf, seq, ts, A, hcollect, hB, ⟨i, hr⟩, hA⟩ : ∃ buf seq ts A,
      collectChunks L entries { total := .int 0, info := [] } 0 0
        = .ok (buf, UInt64.toNat seq, Int64.toInt ts)
      ∧ Buffered file L A buf ∧ (∃ i, Reads file L none i buf.info)
      ∧ ∀ e ∈ entries, ∀ j, EntryAt S L buddy file e j → A j := by
    cases entries with
    | nil =>
      obtain ⟨e, he, -⟩ := hevery 0 (length_pieces_pos hne)
      exact absurd he List.not_mem_nil
    | cons e entries =>
      -- the first entry sets the total, and what follows only adds to it
      obtain ⟨i, hi⟩ := hall e List.mem_cons_self
      have hr := reads_openedChunk S file L none i
      have hempty : Buffered file L (fun _ => False)
          { total := .int (pieces file.data).length, info := openedChunk S (file.chunkAt L none i) } :=
        ⟨rfl, rfl, ⟨none, i, hr⟩, List.nodup_nil, fun j data => by simp⟩
      obtain ⟨buf, seq, ts, A, heq, hbuf, hread, -, hnew⟩ := collectChunks_built H hname htid hmax
        (e :: entries) 0 0 hempty ⟨i, hr⟩ hall
      rw [collectChunks_cons H hname htid hmax hi] at heq
      exact ⟨buf, seq, ts, A, by rw [collectChunks_cons H hname htid hmax hi]; exact heq, hbuf, hread, hnew⟩
  have hcomplete : Complete file A := by
    intro i hi
    obtain ⟨e, he, hei⟩ := hevery i hi
    exact hA e he i hei
  have hchunks : buf.chunks ≠ [] := by
    intro hnil
    have hkey := (hB.mem_keys 0).2 ⟨hcomplete 0 (length_pieces_pos hne), length_pieces_pos hne⟩
    rw [hnil] at hkey
    exact List.not_mem_nil hkey
  have hconv : getOr buf.info Field.conv (.str (Python.str (Hex.encode a)))
      = .str (transferConv none a) := chunkConv_reads hr
  obtain ⟨hfs, hstore⟩ := finalize_buffered hB hcomplete hwrites (Hex.encode a) seq.toNat ts.toInt
  have hg : (g.processFetchedTransfer L root (Hex.encode a) tid entries).2
      = (g.finalizeAttachment L root (.str (transferConv none a)) (Hex.encode a) buf seq.toNat
        ts.toInt).2 := by
    unfold processFetchedTransfer
    simp only [hcollect, if_neg hchunks, hconv]
    split <;> rename_i heq <;> rw [heq]
  refine ⟨seq, ts, path, ?_, ?_, ?_⟩
  · rw [hg, hfs, hwrites]
  · rw [hg, hfs]
    exact storeAttachment_read hwrites
  · rw [hg, hstore]

end Fetched

end Gui

/-! ### The whole way -/

/-- What becomes of the rows of a file at the recipient, whose daemon knows the sender as `a`: the
transfer is listed once they are stored, and the file is stored, whole, by the window that fetches
it and by the one that is told of every chunk. -/
structure Reaches (L : Libs) (file : Outgoing) (rows : List OutboxRow) : Prop where
  listed : ∀ C ops a, StoresRows C ops a file rows →
    ∃ p ∈ (Daemon.attachStore C a).pending (Daemon.run C {} ops).1.db,
      p.tid = Hex.encode file.tid ∧ p.total.toNat = (pieces file.data).length
  fetched : ∀ C ops a root (g : Gui) path fs', StoresRows C ops a file rows →
    a.length = publicKeySize →
    Gui.writesFile root g.fs (Gui.transferConv none a) file file.data = (.ok path, fs') →
    ∃ seq ts, Gui.StoresFile L root (Gui.transferConv none a) a seq ts file g
      (g.step L root (.fetched (Hex.encode a) (Hex.encode file.tid)
        ((Daemon.attachStore C a).fetchTid (Daemon.run C {} ops).1.db (Hex.encode file.tid))))
  live : ∀ a root (g : Gui) moves, g.bufAt (Gui.transferKey file none a) = none →
    (∀ m ∈ moves, (∃ row ∈ rows, ∃ seq ts, m = .live a seq ts row.payload)
      ∨ Gui.Elsewhere L (Gui.transferKey file none a) m) →
    (∀ row ∈ rows, ∃ seq ts, .live a seq ts row.payload ∈ moves) →
    ∃ pre seq ts raw post, moves = pre ++ .live a seq ts raw :: post ∧ ∀ path fs',
      Gui.writesFile root (g.run L root pre).fs (Gui.transferConv none a) file file.data
        = (.ok path, fs') →
      Gui.StoresFile L root (Gui.transferConv none a) a seq ts file (g.run L root pre)
        (g.run L root (pre ++ [.live a seq ts raw]))

/-- A file that can be delivered to a contact: it has between 1 and 65535 chunks, with headers that
can be made and read; the worker returns, from every daemon that has not blocked the contact, has a
seq left for every chunk and does not fail; where it returns, one row for each chunk is queued, and
the rows reach the recipient; and where the file is shown as sent, some row was queued. -/
structure Deliverable (file : Outgoing) : Prop where
  count : 1 ≤ (pieces file.data).length ∧ (pieces file.data).length ≤ 65535
  headers : ∀ i < (pieces file.data).length, ∃ header,
    fileHeader file.tid i (pieces file.data).length = .ok header
      ∧ ∀ box, parseFileHeader (header ++ box) = some (Hex.encode file.tid, UInt16.ofNat i,
        UInt16.ofNat (pieces file.data).length)
  returns : ∀ K S LS L buddy conv key C ops E myNode, Ideal K S L buddy → S.Writes →
    decodeKey (goText conv) = .ok key → key ∉ (Daemon.run C {} ops).1.blocked →
    OutboxJournal.counter (Daemon.run C {} ops).1.db key + (pieces file.data).length ≤ 2 ^ 63 →
    (∀ n, (E n).fault 0 = none) →
    ∃ sent d', sendFileWorker S LS E myNode (.contact conv buddy) file (Daemon.run C {} ops).1
      = (.ok sent, d')
  arrives : ∀ K S LS L buddy conv C ops E myNode sent d', Ideal K S L buddy →
    K file.filename = true → LS.sha256 = L.sha256 →
    sendFileWorker S LS E myNode (.contact conv buddy) file (Daemon.run C {} ops).1 = (.ok sent, d') →
    ∃ rows, d'.db.outbox = (Daemon.run C {} ops).1.db.outbox ++ rows
      ∧ file.Rows S L buddy (goText conv) rows ∧ Reaches L file rows
  shown : ∀ S L buddy conv C ops E myNode ts t t' d',
    sendFile S L E myNode (.contact conv buddy) file ts t (Daemon.run C {} ops).1 = (true, t', d') →
    ∃ rows ≠ [], d'.db.outbox = (Daemon.run C {} ops).1.db.outbox ++ rows
      ∧ file.Rows S L buddy (goText conv) rows

section Deliverable

variable {S : Sealer} {L : Libs} {buddy : Str} {file : Outgoing} {node : Text}
  {rows : List OutboxRow}

theorem decodeFromKey_encode {a : PublicKey} (h : a.length = publicKeySize) :
    decodeFromKey (Hex.encode a) = .ok a := by
  rw [decodeFromKey, decodeKey_encode h]

/-- The rows of a file that is not empty reach the recipient. -/
theorem Outgoing.Rows.reaches {K : Str → Bool} (H : Ideal K S L buddy)
    (hname : K file.filename = true) (htid : file.tid.length = 16)
    (hmax : file.data.length ≤ maxSendBytes) (hne : file.data ≠ [])
    (hrows : file.Rows S L buddy node rows) : Reaches L file rows where
  listed C ops a hst := hst.pending htid hmax hrows hne
  fetched C ops a root g path fs' hst ha hwrites := by
    unfold Gui.step
    simp only [decodeFromKey_encode ha]
    refine Gui.processFetched_stores H hname htid hmax root g a _ hne ?_ ?_ hwrites
    · intro e he
      rw [AttachmentStore.fetchTid_eq] at he
      obtain ⟨r, hr, rfl⟩ := List.mem_map.1 he
      obtain ⟨i, hi, -, -, row, hpay, -, ephemeral, hbuild⟩ :=
        hst.row_of_mem htid hmax hrows ((List.mem_insertionSort _).1 hr)
      exact ⟨i, hi, ephemeral, r.payload, by rw [← hpay]; exact hbuild, rfl⟩
    · intro i hi
      obtain ⟨r, hr, hidx⟩ := hst.exists_mem htid hmax hrows hi
      obtain ⟨j, hj, hidx', -, row, hpay, -, ephemeral, hbuild⟩ := hst.row_of_mem htid hmax hrows hr
      obtain rfl : i = j := hidx.symm.trans hidx'
      rw [AttachmentStore.fetchTid_eq]
      exact ⟨_, List.mem_map_of_mem ((List.mem_insertionSort _).2 hr), hi, ephemeral, r.payload,
        by rw [← hpay]; exact hbuild, rfl⟩
  live a root g moves hfresh hof hall := by
    have hbrings : ∀ row ∈ rows, ∀ seq ts, ∃ i < (pieces file.data).length,
        file.RowAt S L buddy node i row
          ∧ Gui.Brings S L buddy file none a i (.live a seq ts row.payload) := by
      intro row hrow seq ts
      obtain ⟨i, hi, hat⟩ := hrows.exists_index hrow
      obtain ⟨-, ephemeral, hbuild⟩ := id hat
      exact ⟨i, hi, hat, hi, ephemeral, seq, ts, row.payload, hbuild, rfl⟩
    have hof' : Gui.OfTransfer S L buddy file none a moves := by
      intro m hm
      refine (hof m hm).imp_left ?_
      rintro ⟨row, hrow, seq, ts, rfl⟩
      obtain ⟨i, -, -, hb⟩ := hbrings row hrow seq ts
      exact ⟨i, hb⟩
    have hall' : Complete file (Gui.Arrived S L buddy file none a moves) := by
      intro i hi
      obtain ⟨row, hrow, -, ephemeral, hbuild⟩ := hrows.exists_row hi
      obtain ⟨seq, ts, hm⟩ := hall row hrow
      exact ⟨_, hm, hi, ephemeral, seq, ts, row.payload, hbuild, rfl⟩
    obtain ⟨pre, seq, ts, raw, post, hsplit, hnot, hlast, hpre, i, hm⟩ :=
      Gui.exists_last H hname (by simp) htid hmax hne hof' hall'
    exact ⟨pre, seq, ts, raw, post, hsplit, fun path fs' hwrites =>
      Gui.run_stores H hname (by simp) htid hmax hfresh hpre hm hnot hlast hwrites⟩

/-- What a worker that returns has queued. -/
theorem sendFileWorker_rows {LS : Libs} (hsha : LS.sha256 = L.sha256) {conv : Str} {C : Config}
    {ops : List Op} {E : ℕ → RoomEnv} {myNode : Except RoomError Str} {sent : SentChunks}
    {d' : Daemon} (h : sendFileWorker S LS E myNode (.contact conv buddy) file
      (Daemon.run C {} ops).1 = (.ok sent, d')) :
    ∃ rows, d'.db.outbox = (Daemon.run C {} ops).1.db.outbox ++ rows
      ∧ file.Rows S L buddy (goText conv) rows := by
  have hnum : (Daemon.run C {} ops).1.Numbered := Daemon.Numbered.run ops fun r hr => by cases hr
  obtain ⟨rows, hout, hrows⟩ := sendChunks_rows _ _ hnum h
  exact ⟨rows, hout, Outgoing.rows_of_queued (by rw [hsha]) hrows⟩

/-- Of the files that may be sent, those can be delivered that have at least one byte. -/
theorem deliverable_iff (file : Outgoing) (hsize : validateSendSize file.size = .ok ())
    (hdata : file.size = file.data.length) (htid : file.tid.length = 16) :
    Deliverable file ↔ 1 ≤ file.size := by
  constructor
  · intro h
    rw [hdata]
    refine List.length_pos_of_ne_nil fun hnil => ?_
    have hcount := h.count.1
    rw [hnil, length_pieces] at hcount
    exact absurd hcount (by decide)
  · intro hpos
    have hne : file.data ≠ [] := by
      intro hnil
      rw [hdata, hnil] at hpos
      exact absurd hpos (by decide)
    have hmax : file.data.length ≤ maxSendBytes := by
      unfold validateSendSize at hsize
      split at hsize
      · cases hsize
      · omega
    have hle := length_pieces_le hmax
    refine ⟨⟨length_pieces_pos hne, by omega⟩, ?_, ?_, ?_, ?_⟩
    · intro i hi
      have hlt : (i : ℤ) < (pieces file.data).length := by exact_mod_cast hi
      refine ⟨_, fileHeader_ok htid (by omega) hlt (by omega), fun box => ?_⟩
      exact parseFileHeader_of_parse (parse_fileHeader htid (by omega) hlt (by omega) box)
    · intro K S LS L buddy conv key C ops E myNode H hS hkey hblocked hcount hfault
      have hnum : (Daemon.run C {} ops).1.Numbered := Daemon.Numbered.run ops fun r hr => by cases hr
      have hlt : file.size < 2 ^ 64 := hdata ▸ lt_of_le_of_lt hmax (by decide)
      refine sendChunks_returns hkey hfault _ _ hnum hblocked (by rwa [List.length_zipIdx]) ?_
      intro piece hpiece ephemeral
      obtain ⟨hi, hget⟩ := List.mem_zipIdx' hpiece
      have hat : piece = ((pieces file.data).getD piece.2 [], piece.2) := by
        rw [List.getD_eq_getElem _ _ hi, ← hget]
      rw [hat]
      exact build_chunkAt H hS htid hlt hmax hi LS ephemeral
    · intro K S LS L buddy conv C ops E myNode sent d' H hname hsha h
      obtain ⟨rows, hout, hrows⟩ := sendFileWorker_rows hsha h
      exact ⟨rows, hout, hrows, hrows.reaches H hname htid hmax hne⟩
    · intro S L buddy conv C ops E myNode ts t t' d' h
      unfold sendFile at h
      split at h
      · cases h
      rename_i sent d₁ hworker
      dsimp only at h
      split at h
      · cases h
      cases h
      obtain ⟨rows, hout, hrows⟩ := sendFileWorker_rows (L := L) rfl hworker
      refine ⟨rows, ?_, hout, hrows⟩
      rintro rfl
      obtain ⟨row, hrow, -⟩ := hrows.exists_row (length_pieces_pos hne)
      exact List.not_mem_nil hrow

theorem deliverable_iff_note : validateSendSize Gui.note.size = .ok () ∧ Deliverable Gui.note :=
  ⟨rfl, (deliverable_iff Gui.note rfl Gui.length_note.symm rfl).2 (by decide)⟩

/-- A file with nothing in it. -/
def emptyFile : Outgoing where
  path := Python.str ['/', 'e']
  filename := Python.str ['e']
  size := 0
  data := []
  tid := List.replicate 16 1

/-- What the client does with it: its digest, and the text of its attachment column. -/
def emptyLibs : Libs where
  sealOpen _ := none
  verifies _ _ _ := false
  loads _ := .error .valueError
  loadsBytes _ := .error .valueError
  dumps _ := .ok ((Json.obj [(Python.str ['p', 'a', 't', 'h'], .str emptyFile.path),
    (Field.filename, .str emptyFile.filename), (Field.mimeHint, .str (mimeHintOf emptyFile.filename)),
    (Field.size, .int 0)]).dumps zeroFloats)
  sha256 _ := [
    0xe3, 0xb0, 0xc4, 0x42, 0x98, 0xfc, 0x1c, 0x14, 0x9a, 0xfb, 0xf4, 0xc8, 0x99, 0x6f, 0xb9, 0x24,
    0x27, 0xae, 0x41, 0xe4, 0x64, 0x9b, 0x93, 0x4c, 0xa4, 0x95, 0x99, 0x1b, 0x78, 0x52, 0xb8, 0x55]
  realText _ := []

/-- It may be sent, is shown as sent, and nothing was queued. -/
theorem empty_file_shown :
    let contact := SendTarget.contact (Python.str (Hex.encode nines)) (Python.str (Hex.encode nines))
    let sent := sendFile jsonSealer emptyLibs (fun _ => steadyEnv) (.ok []) contact emptyFile 0 {} {}
    validateSendSize emptyFile.size = .ok () ∧ sent.1 = true ∧ sent.2.2.db.outbox = []
      ∧ ¬ Deliverable emptyFile := by
  refine ⟨rfl, by decide +kernel, by decide +kernel, fun h => ?_⟩
  exact absurd h.count.1 (by decide)

end Deliverable

end Aimless
