import Aimless.Sending
import Aimless.Proofs.Fanout
import Aimless.Proofs.Seal

/-!
# The chunks of a file

Cutting a file into pieces loses nothing (`flatten_pieces`) and makes between 1 and 640 of them, for
a file that is not empty and may be sent; the payload of a chunk is its routing header and its box
(`buildFilePayload_eq_ok`); and the worker returns where the daemon takes what it is sent
(`sendChunks_returns`), and then it has queued one row for each piece (`sendChunks_rows`).
-/

namespace Aimless

open Python (Str Exc Json)

theorem length_pieces (data : Bytes) :
    (pieces data).length = (data.length + (fileChunkSize - 1)) / fileChunkSize := by
  simp [pieces]

theorem flatten_pieces (data : Bytes) : (pieces data).flatten = data := by
  have htake : ∀ n, ((List.range n).map fun i =>
      (data.drop (i * fileChunkSize)).take fileChunkSize).flatten
        = data.take (n * fileChunkSize) := by
    intro n
    induction n with
    | zero => simp
    | succ n ih =>
      rw [List.range_succ, List.map_append, List.flatten_append, ih, Nat.succ_mul, List.take_add]
      simp
  unfold pieces
  rw [htake, List.take_of_length_le]
  unfold fileChunkSize
  omega

theorem length_pieces_pos {data : Bytes} (h : data ≠ []) : 0 < (pieces data).length := by
  have := List.length_pos_of_ne_nil h
  rw [length_pieces]
  unfold fileChunkSize
  omega

theorem length_pieces_le {data : Bytes} (h : data.length ≤ maxSendBytes) :
    (pieces data).length ≤ 640 := by
  rw [length_pieces]
  unfold maxSendBytes at h
  unfold fileChunkSize
  omega

/-- The header that a chunk gets. -/
theorem roomHeader_makeChunk {tid : Bytes} (htid : tid.length = 16) {index total : ℕ}
    (hindex : index < total) (htotal : total ≤ 65535) (filename mimeHint sha256 : Str) (size : ℤ)
    (data : Bytes) (conv : Option Str) :
    roomHeader (makeChunk (Python.str (Hex.encode tid)) index total filename mimeHint sha256 size
      data conv) = .ok (tid ++ Words.putLE 2 index ++ Words.putLE 2 total) := by
  set chunk := makeChunk (Python.str (Hex.encode tid)) index total filename mimeHint sha256 size
    data conv
  have hheader : fileHeader tid index total
      = .ok (tid ++ Words.putLE 2 (index : ℤ).toNat ++ Words.putLE 2 (total : ℤ).toNat) :=
    fileHeader_ok htid (by omega) (by exact_mod_cast hindex) (by exact_mod_cast htotal)
  have h₁ : Python.get? chunk Field.transferId = some (.str (Python.str (Hex.encode tid))) := rfl
  have h₂ : Python.get? chunk Field.index = some (.int index) := rfl
  have h₃ : Python.get? chunk Field.total = some (.int total) := rfl
  unfold roomHeader Python.getItem
  rw [h₁, h₂, h₃]
  simp only [Except.mapError, bind, Except.bind, hexValue, Python.fromHex_encode, headerInt, hheader]
  simp

/-- The payload of a chunk: its header, then the box. -/
theorem buildFilePayload_eq_ok {S : Sealer} {ephemeral : Bytes} {recipient payload : Str}
    {chunk : List (Str × Json)} {header : Bytes} (hheader : roomHeader chunk = .ok header) :
    buildFilePayload S ephemeral recipient chunk = .ok payload ↔
      ∃ box, sealFileChunk S ephemeral recipient chunk = .ok box
        ∧ payload = Python.str (Base64.encode (header ++ box)) := by
  unfold buildFilePayload
  rw [hheader]
  cases sealFileChunk S ephemeral recipient chunk with
  | error e =>
    refine ⟨(fun h => by cases h), ?_⟩
    rintro ⟨box, hbox, -⟩
    cases hbox
  | ok box =>
    constructor
    · intro h
      exact ⟨box, rfl, (Except.ok.inj h).symm⟩
    · rintro ⟨box', hbox, rfl⟩
      cases hbox
      rfl

theorem buildFilePayload_base64 {S : Sealer} {ephemeral : Bytes} {recipient payload : Str}
    {chunk : List (Str × Json)} (h : buildFilePayload S ephemeral recipient chunk = .ok payload) :
    ∃ raw, payload = Python.str (Base64.encode raw) := by
  cases hheader : roomHeader chunk with
  | ok header =>
    obtain ⟨box, -, hpayload⟩ := (buildFilePayload_eq_ok hheader).1 h
    exact ⟨header ++ box, hpayload⟩
  | error e =>
    unfold buildFilePayload at h
    rw [hheader] at h
    cases hbox : sealFileChunk S ephemeral recipient chunk <;> rw [hbox] at h <;> cases h

/-- The row that is queued for a piece: for the node of the contact, with the chunk of the piece,
sealed for the contact. -/
structure QueuedAs (S : Sealer) (buddy : Str) (node : Text)
    (chunkOf : Bytes × ℕ → List (Str × Json)) (piece : Bytes × ℕ) (row : OutboxRow) : Prop where
  peer : decodeKey node = .ok row.peer
  type : row.type = typeFile
  payload : ∃ ephemeral, buildFilePayload S ephemeral buddy (chunkOf piece)
    = .ok (Python.str (Base64.encode row.payload))

section Worker

variable {S : Sealer} {E : ℕ → RoomEnv} {myNode : Except RoomError Str} {conv buddy : Str}
  {chunkOf : Bytes × ℕ → List (Str × Json)}

/-- A turn of the loop that does not raise queues one row. -/
theorem sendChunk_row {E : RoomEnv} {piece : Bytes × ℕ} {d d' : Daemon} (hd : d.Numbered)
    {seqs : List (Str × Json)}
    (h : sendChunk S E myNode (.contact conv buddy) (chunkOf piece) d = (.ok seqs, d')) :
    d'.Numbered ∧ ∃ row, d'.db.outbox = d.db.outbox ++ [row]
      ∧ QueuedAs S buddy (goText conv) chunkOf piece row := by
  unfold sendChunk at h
  dsimp only at h
  split at h
  · cases h
  rename_i payload hpayload
  obtain ⟨raw, rfl⟩ := buildFilePayload_base64 hpayload
  split at h
  · cases h
  rename_i seq hseq
  cases h
  have hdecode : Base64.decode (goText (Python.str (Base64.encode raw))) = some raw := by
    rw [goText_str, Base64.decode_encode]
  have haccepted : ¬ d.RefusesSend (E.fault 0) (goText conv) := by
    intro hrefused
    obtain ⟨⟨e, he⟩, -⟩ := Daemon.answerSend_refused typeFile (E.now 0)
      (goText (Python.str (Base64.encode raw))) hrefused
    rw [he] at hseq
    cases hseq
  obtain ⟨key, -, row, hkey, -, ⟨hpeer, htype, hraw⟩, hout, hnum, -⟩ :=
    Daemon.answerSend_queued typeFile (E.now 0) hd haccepted hdecode
  exact ⟨hnum, row, hout, by rw [hkey, hpeer], htype, E.ephemeral 0, by rw [hpayload, hraw]⟩

/-- A worker that returns has queued one row for each piece, in their order. -/
theorem sendChunks_rows : ∀ (l : List (Bytes × ℕ)) (sent : SentChunks) {sent' : SentChunks}
    {d d' : Daemon}, d.Numbered →
    sendChunks S E myNode (.contact conv buddy) chunkOf l sent d = (.ok sent', d') →
    ∃ rows, d'.db.outbox = d.db.outbox ++ rows
      ∧ List.Forall₂ (QueuedAs S buddy (goText conv) chunkOf) l rows
  | [], _, _, _, _, _, h => by
    cases h
    exact ⟨[], (List.append_nil _).symm, .nil⟩
  | piece :: rest, sent, sent', d, d', hd, h => by
    unfold sendChunks at h
    split at h
    · cases h
    rename_i seqs d₁ hturn
    obtain ⟨hnum, row, hout, hrow⟩ := sendChunk_row hd hturn
    obtain ⟨rows, hrest, hrows⟩ := sendChunks_rows rest _ hnum h
    exact ⟨row :: rows, by rw [hrest, hout, List.append_assoc]; rfl, .cons hrow hrows⟩

/-- A turn whose chunk can be built and whose send is not refused does not raise. -/
theorem sendChunk_returns (myNode : Except RoomError Str) {E : RoomEnv} {piece : Bytes × ℕ}
    {d : Daemon} (hd : d.Numbered) {key : PublicKey} (hkey : decodeKey (goText conv) = .ok key)
    (hblocked : key ∉ d.blocked) (hcount : OutboxJournal.counter d.db key < 2 ^ 63)
    (hfault : E.fault 0 = none) {raw : Bytes}
    (hbuild : buildFilePayload S (E.ephemeral 0) buddy (chunkOf piece)
      = .ok (Python.str (Base64.encode raw))) :
    ∃ seqs d', sendChunk S E myNode (.contact conv buddy) (chunkOf piece) d = (.ok seqs, d')
      ∧ d'.Numbered ∧ d'.blocked = d.blocked
      ∧ OutboxJournal.counter d'.db key = OutboxJournal.counter d.db key + 1 := by
  have hdecode : Base64.decode (goText (Python.str (Base64.encode raw))) = some raw := by
    rw [goText_str, Base64.decode_encode]
  have haccepted : ¬ d.RefusesSend (E.fault 0) (goText conv) := by
    intro hrefused
    rcases hrefused key hkey with h | h | h
    · exact hblocked h
    · omega
    · exact h hfault
  obtain ⟨key', seq, row, hkey', hseq, -, -, hnum, hsame, hinc, -⟩ :=
    Daemon.answerSend_queued typeFile (E.now 0) hd haccepted hdecode
  cases hkey.symm.trans hkey'
  refine ⟨[(conv, .int seq.toNat)], _, ?_, hnum, hsame, hinc⟩
  unfold sendChunk
  simp only [hbuild, hseq]

/-- With no fault in the daemon and a seq left for every piece, the worker returns. -/
theorem sendChunks_returns {key : PublicKey} (hkey : decodeKey (goText conv) = .ok key)
    (hfault : ∀ n, (E n).fault 0 = none) : ∀ (l : List (Bytes × ℕ)) (sent : SentChunks) {d : Daemon},
    d.Numbered → key ∉ d.blocked → OutboxJournal.counter d.db key + l.length ≤ 2 ^ 63 →
    (∀ piece ∈ l, ∀ ephemeral, ∃ raw, buildFilePayload S ephemeral buddy (chunkOf piece)
      = .ok (Python.str (Base64.encode raw))) →
    ∃ sent' d', sendChunks S E myNode (.contact conv buddy) chunkOf l sent d = (.ok sent', d')
  | [], sent, d, _, _, _, _ => ⟨sent, d, rfl⟩
  | piece :: rest, sent, d, hd, hblocked, hcount, hbuild => by
    obtain ⟨hpiece, hrest⟩ := List.forall_mem_cons.1 hbuild
    rw [List.length_cons] at hcount
    obtain ⟨raw, hraw⟩ := hpiece ((E piece.2).ephemeral 0)
    obtain ⟨seqs, d₁, hturn, hnum, hsame, hinc⟩ := sendChunk_returns myNode hd hkey
      hblocked (by omega) (hfault piece.2) hraw
    obtain ⟨sent', d', hloop⟩ := sendChunks_returns hkey hfault rest (sent.add seqs) hnum
      (hsame ▸ hblocked) (by omega) hrest
    exact ⟨sent', d', by rw [sendChunks, hturn]; exact hloop⟩

end Worker

end Aimless
