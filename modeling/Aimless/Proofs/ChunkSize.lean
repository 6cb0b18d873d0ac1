import Aimless.Lib.JsonText
import Aimless.Proofs.Sendable
import Aimless.Proofs.Sending

/-!
# The size of a file chunk

A chunk is written as JSON, the JSON text is written into a string of another JSON text, and that is
sealed behind the routing header.  The file name is the part whose length the second writing can
multiply; with a name of 255 bytes and a full piece, what is queued still fits an envelope, and so
does the packet a network of 65535 bytes at a time.
-/

namespace Aimless

open Python (Str Exc Json weight escapedLength)

/-- No value is a list or a dict. -/
def Flat (fields : List (Str × Json)) : Prop :=
  ∀ e ∈ fields, (∀ l, e.2 ≠ .arr l) ∧ ∀ o, e.2 ≠ .obj o

/-- What the length of a payload depends on outside this repository. -/
structure Sealer.Sized (S : Sealer) (F : Python.FloatRepr) : Prop where
  verifyKey : S.verifyKey.length = 32
  sign : ∀ message, (S.sign message).length = 64
  encrypt : ∀ ephemeral curve inner, (S.encrypt ephemeral curve inner).length = inner.length + 48
  dumps : ∀ fields, Flat fields → S.dumps (.obj fields) = .ok ((Json.obj fields).dumps F)

section Body

variable {S : Sealer} {F : Python.FloatRepr} {fields : List (Str × Json)}

theorem Flat.map_sortKeys (h : Flat fields) :
    (fields.map fun e => (e.1, e.2.sortKeys)) = fields := by
  refine (List.map_congr_left fun e he => ?_).trans (List.map_id fields)
  rw [Json.sortKeys_leaf (h e he).1 (h e he).2]
  rfl

theorem Flat.sorted_perm (h : Flat fields) : (Json.sorted fields).Perm fields := by
  have hp := Json.sorted_perm fields
  rwa [h.map_sortKeys] at hp

theorem Flat.sorted (h : Flat fields) : Flat (Json.sorted fields) := fun e he =>
  h e (h.sorted_perm.mem_iff.1 he)

/-- The body of a payload in its own text: the braces, and for each entry its key, its value and two
separators. -/
theorem Flat.weight_body_le (h : Flat fields) (F : Python.FloatRepr) :
    weight escapedLength ((Json.obj fields).sortKeys.dumps F)
      ≤ (fields.map fun e => weight escapedLength (Python.quote e.1)
        + weight escapedLength (e.2.dumps F) + 4).sum + 2 := by
  rw [Json.sortKeys_obj]
  refine (Python.weight_dumps_obj_le escapedLength F (Json.sorted fields)).trans (le_of_eq ?_)
  have hcolon : weight escapedLength (Python.str [':', ' ']) = 2 := rfl
  have hcomma : weight escapedLength (Python.str [',', ' ']) = 2 := rfl
  have hopen : weight escapedLength (Python.str [Char.ofNat 123]) = 1 := rfl
  have hclose : weight escapedLength (Python.str [Char.ofNat 125]) = 1 := rfl
  rw [hcolon, hcomma, hopen, hclose, (h.sorted_perm.map _).sum_eq]
  have hcongr : ∀ e ∈ fields, weight escapedLength (Python.quote e.1) + 2
      + weight escapedLength (e.2.dumps F) + 2 = weight escapedLength (Python.quote e.1)
      + weight escapedLength (e.2.dumps F) + 4 := fun e _ => by omega
  rw [List.map_congr_left hcongr]

theorem wrapper_flat (S : Sealer) (body : Str) (sig : Text) :
    ∃ fields, wrapper S .file body sig = .obj fields ∧ Flat fields := by
  refine ⟨_, rfl, ?_⟩
  intro e he
  simp only [List.mem_cons, List.not_mem_nil, or_false] at he
  rcases he with rfl | rfl | rfl | rfl | rfl <;> exact ⟨nofun, nofun⟩

/-- What is sealed is the body, written into a string, and 213 characters around it at most. -/
theorem length_wrapper_le (hS : S.Sized F) (body : Str) {sig : Bytes} (hsig : sig.length = 64) :
    ((wrapper S .file body (Base64.encode sig)).dumps F).length
      ≤ weight escapedLength body + 213 := by
  have hle := Python.weight_dumps_obj_le (fun _ => 1) F [(Field.version, .int 1),
    (Field.kind, .str Kind.file.name), (Field.sender, .str (Python.str (Hex.encode S.verifyKey))),
    (Field.body, .str body), (Field.sig, .str (Python.str (Base64.encode sig)))]
  have hkey : (Python.quote (Python.str (Hex.encode S.verifyKey))).length = 66 := by
    rw [Python.length_quote_of_plain (Python.plain_hex _), Python.str, List.length_map,
      Hex.length_encode, hS.verifyKey]
  have hquote : (Python.quote (Python.str (Base64.encode sig))).length = 90 := by
    rw [Python.length_quote_of_plain (Python.plain_base64 _), Python.str, List.length_map,
      Base64.length_encode, hsig]
  have hbody : (Python.quote body).length = weight escapedLength body + 2 := by
    rw [Python.weight_escapedLength, Python.quote]
    simp [Python.str]
  have hver : (Python.quote Field.version).length = 3 := rfl
  have hkind : (Python.quote Field.kind).length = 6 := rfl
  have hname : (Python.quote Kind.file.name).length = 6 := rfl
  have hfrom : (Python.quote Field.sender).length = 6 := rfl
  have hbodyKey : (Python.quote Field.body).length = 6 := rfl
  have hsigKey : (Python.quote Field.sig).length = 5 := rfl
  have hone : (Python.decimalInt 1).length = 1 := rfl
  have hcolon : (Python.str [':', ' ']).length = 2 := rfl
  have hcomma : (Python.str [',', ' ']).length = 2 := rfl
  have hopen : (Python.str [Char.ofNat 123]).length = 1 := rfl
  have hclose : (Python.str [Char.ofNat 125]).length = 1 := rfl
  simp only [Python.weight_one, List.map_cons, List.map_nil, List.sum_cons, List.sum_nil, Json.dumps,
    hkey, hquote, hbody, hver, hkind, hname, hfrom, hbodyKey, hsigKey, hone, hcolon, hcomma, hopen,
    hclose] at hle
  unfold wrapper
  rw [Json.dumps]
  omega

/-- For a flat body all that can fail is the recipient's key, and the box has its length from what
the body weighs. -/
theorem sealFileChunk_eq (hS : S.Sized F) (h : Flat fields) (ephemeral : Bytes) (buddy : Str) :
    ∃ inner : Bytes, inner.length ≤ weight escapedLength ((Json.obj fields).sortKeys.dumps F) + 213
      ∧ sealFileChunk S ephemeral buddy fields = (Python.fromHex buddy >>= fun key =>
        S.curveKey key >>= fun curve => .ok (S.encrypt ephemeral curve inner)) := by
  rw [Json.sortKeys_obj]
  obtain ⟨bytes, hbytes, -⟩ := Python.length_utf8_of_ascii
    (Json.ascii_dumps F (Json.obj (Json.sorted fields)))
  obtain ⟨wrapped, hw, hflat⟩ := wrapper_flat S ((Json.obj (Json.sorted fields)).dumps F)
    (signBody S bytes)
  obtain ⟨inner, hinner, hlen⟩ := Python.length_utf8_of_ascii (Json.ascii_dumps F (.obj wrapped))
  refine ⟨inner, ?_, ?_⟩
  · rw [hlen, ← hw]
    exact length_wrapper_le hS _ (hS.sign (magic ++ bytes))
  · unfold sealFileChunk sealBody
    rw [Json.sortKeys_obj]
    simp only [hS.dumps _ h.sorted, hbytes, hw, hS.dumps wrapped hflat, hinner, bind, Except.bind,
      pure, Except.pure]

end Body

/-! ### The chunk -/

section Chunk

variable {tid digest name piece : Bytes} {index total size : ℕ} {conv : Option Str}

/-- The chunk of a piece of a file whose name has the given bytes. -/
def fileChunk (tid : Bytes) (index total : ℕ) (name digest : Bytes) (size : ℕ) (piece : Bytes)
    (conv : Option Str) : List (Str × Json) :=
  makeChunk (Python.str (Hex.encode tid)) index total (Python.fsdecode name)
    (mimeHintOf (Python.fsdecode name)) (Python.str (Hex.encode digest)) size piece conv

/-- A chunk as `_send_file` makes it, of a file that may be sent. -/
structure ChunkBounds (tid : Bytes) (index total : ℕ) (name digest : Bytes) (size : ℕ)
    (piece : Bytes) (conv : Option Str) : Prop where
  tid : tid.length = 16
  digest : digest.length = 32
  index : index < total
  total : total ≤ 65535
  name : name.length ≤ 255
  size : size ≤ maxSendBytes
  piece : piece.length ≤ fileChunkSize
  conv : ∀ room ∈ conv, room.length = 64

theorem fileChunk_flat (tid : Bytes) (index total : ℕ) (name digest : Bytes) (size : ℕ)
    (piece : Bytes) (conv : Option Str) :
    Flat (fileChunk tid index total name digest size piece conv) := by
  intro e he
  unfold fileChunk makeChunk at he
  simp only [List.mem_append, List.mem_cons, List.not_mem_nil, or_false, Option.mem_toList,
    Option.map_eq_some_iff] at he
  rcases he with (rfl | rfl | rfl | rfl | rfl | rfl | rfl | rfl) | ⟨s, -, rfl⟩ <;>
    exact ⟨nofun, nofun⟩

theorem weight_dumps_nat_le (F : Python.FloatRepr) {n k : ℕ} (hk : 0 < k) (h : n < 10 ^ k) :
    weight escapedLength ((Json.int n).dumps F) ≤ k := by
  rw [Json.dumps]
  change weight escapedLength (Python.decimal n) ≤ k
  rw [Python.weight_of_plain (Python.plain_decimal n)]
  exact Python.length_decimal_le hk h

theorem weight_dumps_hex (F : Python.FloatRepr) (b : Bytes) :
    weight escapedLength ((Json.str (Python.str (Hex.encode b))).dumps F) = 2 * b.length + 4 := by
  rw [Json.dumps, Python.weight_quote_of_plain (Python.plain_hex b), Python.str, List.length_map,
    Hex.length_encode]

theorem weight_dumps_name_le (F : Python.FloatRepr) (name : Bytes) :
    weight escapedLength ((Json.str (Python.fsdecode name)).dumps F) ≤ 7 * name.length + 4 := by
  have hle := Python.weight_fsdecodeFrom_le 0 name
  rw [Json.dumps, Python.weight_quote, Python.fsdecode]
  omega

theorem weight_dumps_room_le (F : Python.FloatRepr) (room : Str) :
    weight escapedLength ((Json.str room).dumps F) ≤ 14 * room.length + 4 := by
  have hle := Python.weight_le (fun c => weight escapedLength (Python.escapeChar c))
    fun c (_ : c ∈ room) => (Python.weight_escapeChar_le c).1
  rw [Json.dumps, Python.weight_quote, Python.weight_escape]
  omega

theorem weight_dumps_hint_le (F : Python.FloatRepr) (filename : Str) :
    weight escapedLength ((Json.str (mimeHintOf filename)).dumps F) ≤ 15 := by
  rw [Json.dumps]
  unfold mimeHintOf
  split_ifs
  · decide
  · decide

theorem weight_fileChunk_le (h : ChunkBounds tid index total name digest size piece conv)
    (F : Python.FloatRepr) :
    weight escapedLength
      ((Json.obj (fileChunk tid index total name digest size piece conv)).sortKeys.dumps F)
      ≤ 46700 := by
  refine ((fileChunk_flat _ _ _ _ _ _ _ _).weight_body_le F).trans ?_
  have htid := weight_dumps_hex F tid
  have hdigest := weight_dumps_hex F digest
  have hindex := weight_dumps_nat_le F (n := index) (k := 5) (by norm_num)
    (lt_of_lt_of_le h.index (h.total.trans (by norm_num)))
  have htotal := weight_dumps_nat_le F (n := total) (k := 5) (by norm_num)
    (lt_of_le_of_lt h.total (by norm_num))
  have hsize := weight_dumps_nat_le F (n := size) (k := 8) (by norm_num)
    (lt_of_le_of_lt h.size (by norm_num [maxSendBytes]))
  have hname := weight_dumps_name_le F name
  have hhint := weight_dumps_hint_le F (Python.fsdecode name)
  have hdata : weight escapedLength ((Json.str (Python.str (Base64.encode piece))).dumps F)
      ≤ 43696 := by
    have hpiece : piece.length ≤ 32 * 1024 := h.piece
    rw [Json.dumps, Python.weight_quote_of_plain (Python.plain_base64 piece), Python.str,
      List.length_map, Base64.length_encode]
    omega
  have hconv : (((conv.filter (· ≠ [])).map fun s => (Field.conv, Json.str s)).toList.map fun e =>
      weight escapedLength (Python.quote e.1) + weight escapedLength (e.2.dumps F) + 4).sum
      ≤ 912 := by
    cases hc : conv.filter (· ≠ []) with
    | none => simp
    | some room =>
      have hlen : room.length = 64 := h.conv room (Option.filter_eq_some_iff.1 hc).1
      have hroom := weight_dumps_room_le F room
      have hkey : weight escapedLength (Python.quote Field.conv) = 8 := rfl
      simp only [Option.map_some, Option.toList_some, List.map_cons, List.map_nil, List.sum_cons,
        List.sum_nil, hkey]
      omega
  have h₁ : weight escapedLength (Python.quote Field.transferId) = 15 := rfl
  have h₂ : weight escapedLength (Python.quote Field.index) = 9 := rfl
  have h₃ : weight escapedLength (Python.quote Field.total) = 9 := rfl
  have h₄ : weight escapedLength (Python.quote Field.filename) = 12 := rfl
  have h₅ : weight escapedLength (Python.quote Field.mimeHint) = 13 := rfl
  have h₆ : weight escapedLength (Python.quote Field.sha256) = 10 := rfl
  have h₇ : weight escapedLength (Python.quote Field.size) = 8 := rfl
  have h₈ : weight escapedLength (Python.quote Field.data) = 8 := rfl
  unfold fileChunk makeChunk
  rw [List.map_append, List.sum_append]
  simp only [List.map_cons, List.map_nil, List.sum_cons, List.sum_nil, h₁, h₂, h₃, h₄, h₅, h₆, h₇,
    h₈]
  have hnameLen := h.name
  have htidLen := h.tid
  have hdigestLen := h.digest
  omega

theorem roomHeader_fileChunk (h : ChunkBounds tid index total name digest size piece conv) :
    ∃ header, roomHeader (fileChunk tid index total name digest size piece conv) = .ok header
      ∧ header.length = 20 :=
  ⟨_, roomHeader_makeChunk h.tid h.index h.total _ _ _ _ _ _, by simp [h.tid]⟩

theorem roomChunk_fileChunk (room : Str) (hroom : room.length = 64) :
    roomChunk (fileChunk tid index total name digest size piece conv) room
      = fileChunk tid index total name digest size piece (some room) := by
  have hne : room ≠ [] := by
    rintro rfl
    cases hroom
  have hopt : (((conv.filter (· ≠ [])).map fun s => (Field.conv, Json.str s)).toList).filter
      (fun e => e.1 ≠ Field.conv) = [] := by
    cases conv.filter (· ≠ []) <;> simp
  unfold roomChunk fileChunk makeChunk
  rw [List.filter_append, hopt, List.append_nil, Option.filter_some, if_pos (decide_eq_true hne)]
  rfl

/-! ### The payload -/

/-- A payload that the envelope takes and that a flush pass, when it is due, hands to the network,
in any state a daemon can be in. -/
structure Fits (raw : Bytes) : Prop where
  length_le : raw.length ≤ maxPayloadSize
  encodes : ∀ env : Envelope, env.payload = raw → ∃ data, env.encode = .ok data
  flushed : ∀ (C : Config) (ops : List Op) (now : ℤ) (stamp : UInt64 → ℤ) (row : OutboxRow),
    row.type = typeFile → row.payload = raw → row.peer.length = publicKeySize →
    maxPayloadSize ≤ C.mtu → Daemon.Due C now stamp (({} : Daemon).run C ops).1 row →
    ∃ data, (Daemon.rowEnvelope row).encode = .ok data
      ∧ ⟨row.peer, data⟩ ∈
        (((({} : Daemon).run C ops).1.flushPeer C now stamp row.peer).node.bulk).drop
          (({} : Daemon).run C ops).1.node.bulk.length

theorem fits_of_length_le {raw : Bytes} (h : raw.length + envelopeHeaderSize ≤ maxPayloadSize) :
    Fits raw := by
  have hle : raw.length ≤ maxPayloadSize := by omega
  refine ⟨hle, fun env henv => ⟨_, Envelope.encode_ok (henv ▸ hle)⟩, ?_⟩
  intro C ops now stamp row htype hpayload hkey hmtu hdue
  have hdata := Envelope.encode_ok (e := Daemon.rowEnvelope row) (by
    change row.payload.length ≤ maxPayloadSize
    rw [hpayload]
    exact hle)
  refine ⟨_, hdata, ?_⟩
  have hlen := Envelope.length_of_encode hdata
  have hpay : (Daemon.rowEnvelope row).payload.length = raw.length := congrArg List.length hpayload
  have hboxed : Daemon.Boxed (({} : Daemon).run C ops).1 :=
    Daemon.Boxed.run ops (by simp [Daemon.Boxed])
  have hin := Daemon.flushPeer_enqueues hboxed hdue hkey (by omega) hdata
  unfold Daemon.queueFor at hin
  rwa [if_pos htype, if_pos htype] at hin

theorem fits_header_box (h : ChunkBounds tid index total name digest size piece conv)
    {S : Sealer} {F : Python.FloatRepr} (hS : S.Sized F) {header ephemeral box : Bytes} {buddy : Str}
    (hheader : header.length = 20)
    (hbox : sealFileChunk S ephemeral buddy
      (fileChunk tid index total name digest size piece conv) = .ok box) : Fits (header ++ box) := by
  obtain ⟨inner, hinner, heq⟩ := sealFileChunk_eq hS (fileChunk_flat _ _ _ _ _ _ _ _) ephemeral buddy
  rw [heq] at hbox
  obtain ⟨key, -, hbox⟩ := Python.bind_eq_ok.1 hbox
  obtain ⟨curve, -, hbox⟩ := Python.bind_eq_ok.1 hbox
  have hlen : box.length = inner.length + 48 := by
    rw [← Except.ok.inj hbox, hS.encrypt]
  have hweight := weight_fileChunk_le h F
  have hsum : (header ++ box).length + envelopeHeaderSize ≤ maxPayloadSize := by
    rw [List.length_append, hheader]
    unfold envelopeHeaderSize maxPayloadSize
    omega
  exact fits_of_length_le hsum

/-- What `build_file_payload` returns fits, and it returns for every key that can be used. -/
theorem buildFilePayload_fits (h : ChunkBounds tid index total name digest size piece conv)
    {S : Sealer} {F : Python.FloatRepr} (hS : S.Sized F) (ephemeral : Bytes) (recipient : Str) :
    (∀ payload, buildFilePayload S ephemeral recipient
        (fileChunk tid index total name digest size piece conv) = .ok payload →
      ∃ raw, Base64.decode (goText payload) = some raw ∧ Fits raw)
    ∧ ∀ key curve, Python.fromHex recipient = .ok key → S.curveKey key = .ok curve →
      ∃ payload, buildFilePayload S ephemeral recipient
        (fileChunk tid index total name digest size piece conv) = .ok payload := by
  obtain ⟨header, hheader, hlen⟩ := roomHeader_fileChunk h
  constructor
  · intro payload hpayload
    obtain ⟨box, hbox, rfl⟩ := (buildFilePayload_eq_ok hheader).1 hpayload
    refine ⟨header ++ box, ?_, fits_header_box h hS hlen hbox⟩
    rw [goText_str, Base64.decode_encode]
  · intro key curve hkey hcurve
    obtain ⟨inner, -, heq⟩ := sealFileChunk_eq hS
      (fileChunk_flat tid index total name digest size piece conv) ephemeral recipient
    have hbox : sealFileChunk S ephemeral recipient
        (fileChunk tid index total name digest size piece conv)
          = .ok (S.encrypt ephemeral curve inner) := by
      rw [heq, hkey]
      simp only [bind, Except.bind, hcurve]
    exact ⟨_, (buildFilePayload_eq_ok hheader).2 ⟨_, hbox, rfl⟩⟩

/-! ### The room -/

theorem answerSend_outbox (d : Daemon) (fault : Option SendFault) (typ : EnvelopeType) (now : ℤ)
    (dest : Text) {payload : Text} {raw : Bytes} (hraw : Base64.decode payload = some raw) :
    ∀ row ∈ (d.answerSend fault typ now dest payload).2.db.outbox,
      row ∈ d.db.outbox ∨ row.type = typ ∧ row.payload = raw := by
  unfold Daemon.answerSend
  dsimp only
  cases decodeKey dest with
  | error e => exact fun row hrow => .inl hrow
  | ok key =>
    simp only [hraw]
    unfold Daemon.sendOrFail
    rcases hbegin : (d.touchClient now).beginSend key with ⟨e | seq, d'⟩
    · have hkeeps := (Party.beginSend_keeps hbegin).outbox
      intro row hrow
      exact .inl (hkeeps ▸ hrow)
    · obtain ⟨-, hd', -⟩ := Daemon.beginSend_ok hbegin
      obtain ⟨rows, hrows⟩ := OutboxJournal.nextSeq_outboxSeq (d.touchClient now).db key
      have hout : d'.db.outbox = d.db.outbox := by
        rw [hd']
        simp only [hrows]
        rfl
      rcases fault with _ | _ | _
      · intro row hrow
        rcases List.mem_append.1 hrow with hrow | hrow
        · exact .inl (hout ▸ List.mem_of_mem_filter hrow)
        · rw [List.mem_singleton.1 hrow]
          exact .inr ⟨rfl, rfl⟩
      · intro row hrow
        exact .inl (congrArg DB.outbox ((d.touchClient now).boxFor_db key) ▸ hrow)
      · intro row hrow
        exact .inl (hout ▸ hrow)

/-- Whatever holds of the payloads that are made holds of the rows that a fan-out queues. -/
theorem fanOut_outbox {E : RoomEnv} {typ : EnvelopeType} {sealFor : ℕ → RoomMember → Except Exc Str}
    {myNode : Str} {P : Bytes → Prop} (hseal : ∀ i m payload, sealFor i m = .ok payload →
      ∃ raw, Base64.decode (goText payload) = some raw ∧ P raw) :
    ∀ (l : List (RoomMember × ℕ)) (seqs : List (Str × Json)) (d : Daemon),
      ∀ row ∈ (fanOut E typ sealFor myNode l seqs d).2.db.outbox,
        row ∈ d.db.outbox ∨ row.type = typ ∧ P row.payload
  | [], seqs, d => fun row hrow => .inl hrow
  | (m, i) :: rest, seqs, d => by
    rw [fanOut]
    split
    · exact fanOut_outbox hseal rest seqs d
    split
    · exact fun row hrow => .inl hrow
    rename_i payload hpayload
    obtain ⟨raw, hraw, hP⟩ := hseal i m payload hpayload
    have hone := answerSend_outbox d (E.fault i) typ (E.now i) (goText m.node) hraw
    intro row hrow
    dsimp only at hrow
    have hstep : row ∈ (d.answerSend (E.fault i) typ (E.now i) (goText m.node)
        (goText payload)).2.db.outbox ∨ row.type = typ ∧ P row.payload := by
      split at hrow
      · exact .inl hrow
      · exact fanOut_outbox hseal rest _ _ row hrow
    rcases hstep with hstep | hstep
    · rcases hone row hstep with hin | ⟨htyp, hpay⟩
      · exact .inl hin
      · exact .inr ⟨htyp, hpay ▸ hP⟩
    · exact .inr hstep

theorem sendFileRoom_fits (h : ChunkBounds tid index total name digest size piece conv)
    {S : Sealer} {F : Python.FloatRepr} (hS : S.Sized F) (E : RoomEnv)
    (myNode : Except RoomError Str) (members : List RoomMember) {room : Str}
    (hroom : room.length = 64) (d : Daemon) :
    ∀ row ∈ (sendFileRoom S E myNode members room
        (fileChunk tid index total name digest size piece conv) d).2.db.outbox,
      row ∈ d.db.outbox ∨ row.type = typeFile ∧ Fits row.payload := by
  have hroomBounds : ChunkBounds tid index total name digest size piece (some room) :=
    { h with
      conv := fun r hr => by
        rw [← Option.some.inj hr]
        exact hroom }
  unfold sendFileRoom
  cases myNode with
  | error e => exact fun row hrow => .inl hrow
  | ok myNode =>
    obtain ⟨header, hheader, hlen⟩ := roomHeader_fileChunk hroomBounds
    simp only [roomChunk_fileChunk room hroom, hheader]
    refine fanOut_outbox (fun i m payload hpayload => ?_) _ _ _
    obtain ⟨box, hbox, hpayload⟩ := Python.bind_eq_ok.1 hpayload
    refine ⟨header ++ box, ?_, fits_header_box hroomBounds hS hlen hbox⟩
    rw [← Except.ok.inj hpayload, goText_str, Base64.decode_encode]

/-- File chunks fit the envelope: for every piece, file name, index, total, size and conversation
that `_send_file` can come to, for a contact and in a room. -/
theorem file_chunks_fit {S : Sealer} {F : Python.FloatRepr} (hS : S.Sized F)
    (hchunk : ChunkBounds tid index total name digest size piece conv) :
    (∀ ephemeral recipient,
      (∀ payload, buildFilePayload S ephemeral recipient
          (fileChunk tid index total name digest size piece conv) = .ok payload →
        ∃ raw, Base64.decode (goText payload) = some raw ∧ Fits raw)
      ∧ ∀ key curve, Python.fromHex recipient = .ok key → S.curveKey key = .ok curve →
        ∃ payload, buildFilePayload S ephemeral recipient
          (fileChunk tid index total name digest size piece conv) = .ok payload)
    ∧ ∀ (E : RoomEnv) (myNode : Except RoomError Str) (members : List RoomMember) (room : Str)
        (d : Daemon), room.length = 64 →
      ∀ row ∈ (sendFileRoom S E myNode members room
          (fileChunk tid index total name digest size piece conv) d).2.db.outbox,
        row ∈ d.db.outbox ∨ row.type = typeFile ∧ Fits row.payload := by
  refine ⟨fun ephemeral recipient => buildFilePayload_fits hchunk hS ephemeral recipient, ?_⟩
  intro E myNode members room d hroom
  exact sendFileRoom_fits hchunk hS E myNode members hroom d

end Chunk

/-- As `plainSealer`; a chunk has no float in it. -/
def jsonSealer : Sealer := { plainSealer with dumps := fun v => .ok (v.dumps zeroFloats) }

theorem jsonSealer_sized : jsonSealer.Sized zeroFloats where
  verifyKey := rfl
  sign _ := List.length_replicate
  encrypt _ _ inner := by
    change (List.replicate 48 (0 : UInt8) ++ inner).length = inner.length + 48
    rw [List.length_append, List.length_replicate, Nat.add_comm]
  dumps _ _ := rfl

/-- The longest name, none of whose bytes decodes, and a full piece. -/
theorem file_chunks_fit_full :
    let name : Bytes := List.replicate 255 0xFF
    let piece : Bytes := List.replicate fileChunkSize 0
    let chunk := fileChunk (List.replicate 16 1) 0 2 name nines 40000 piece none
    ∃ payload raw, buildFilePayload jsonSealer [] (Python.str (Hex.encode nines)) chunk = .ok payload
      ∧ Base64.decode (goText payload) = some raw ∧ Fits raw := by
  intro name piece chunk
  have hbounds : ChunkBounds (List.replicate 16 1) 0 2 name nines 40000 piece none :=
    { tid := rfl
      digest := rfl
      index := by norm_num
      total := by norm_num
      name := by rw [List.length_replicate]
      size := by norm_num [maxSendBytes]
      piece := by rw [List.length_replicate]
      conv := nofun }
  obtain ⟨hfits, hbuilt⟩ := (file_chunks_fit jsonSealer_sized hbounds).1 []
    (Python.str (Hex.encode nines))
  obtain ⟨payload, hpayload⟩ := hbuilt nines nines (Python.fromHex_encode nines) rfl
  obtain ⟨raw, hraw, hfit⟩ := hfits payload hpayload
  exact ⟨payload, raw, hpayload, hraw, hfit⟩

end Aimless
