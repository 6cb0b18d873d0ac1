import Aimless.Proofs.Receive

/-!
# What can be sent of what was queued

`SendMsg` and `SendFile` queue any payload.  A flush pass can send it if the envelope's 16-bit
length field holds its length, and the peer stores and acknowledges a file chunk if its routing
header is in order; nothing checks either when the payload is queued.
-/

namespace Aimless

open Window

/-- A decoded payload fits the length field. -/
theorem length_le_of_decode {data : Bytes} {env : Envelope} (h : decodeEnvelope data = .ok env) :
    env.payload.length ≤ maxPayloadSize := by
  unfold decodeEnvelope at h
  split_ifs at h
  dsimp only at h
  split_ifs at h
  cases h
  have hlt := Words.getLE_lt (slice data 18 20)
  have hlen : (slice data 18 20).length ≤ 2 := by
    simp only [slice, List.length_take]
    omega
  have hpow : 256 ^ (slice data 18 20).length ≤ 256 ^ 2 := Nat.pow_le_pow_right (by norm_num) hlen
  simp only [slice, List.length_take, List.length_drop, maxPayloadSize] at hlt hpow ⊢
  omega

namespace Daemon

variable {C : Config}

/-- The queue a packet of a type goes to. -/
def queueFor (typ : EnvelopeType) (n : Node) : List Outbound :=
  if typ = typeFile then n.bulk else n.control

def queueCap (typ : EnvelopeType) : ℕ := if typ = typeFile then bulkCap else controlCap

/-- An undelivered row as a flush pass reads it. -/
def entryOf (d : Daemon) (row : OutboxRow) : JournalEntry :=
  { seq := row.seq.toUInt64, ts := row.ts, type := row.type, payload := Base64.encode row.payload,
    sentAt := OutboxJournal.sentAt (d.sentOf row.peer) row.seq.toUInt64 }

/-- The row is pending and a flush pass has to send it: the peer is not blocked, the last attempt
is not too recent, and the queue has room when the pass comes to the row. -/
structure Due (C : Config) (now : ℤ) (stamp : UInt64 → ℤ) (d : Daemon) (row : OutboxRow) : Prop where
  pending : row ∈ d.db.outbox
  notBlocked : ¬ d.isBlocked row.peer
  stale : ¬ ((d.entryOf row).sentAt > 0
    ∧ unixMilli now - (d.entryOf row).sentAt < Int64.ofInt (C.retryInterval / 1000000))
  room : ∀ pre post, d.flushEntries row.peer = pre ++ d.entryOf row :: post →
    (queueFor row.type (pre.foldl (flushEntry C now stamp row.peer) d).node).length
      < queueCap row.type

/-- A peer that has not had the seq, or the chunk, before, does not block the sender, has room for
the acknowledgement and, for a chunk, in its attachment budget. -/
structure Receiver (C : Config) (e : Daemon) (a : PublicKey) (env : Envelope) : Prop where
  reached : ∃ ops, e = (({} : Daemon).run C ops).1
    ∧ (env.type = typeMsg → env.seq.toInt64 ∉ offered (offersFrom C a {} ops))
  notBlocked : ¬ e.isBlocked a
  canAnswer : CanAnswer C a e
  chunk : env.type = typeFile → ∀ tid index total,
    parseFileHeader env.payload = some (tid, index, total) →
    (∀ r ∈ e.db.attach, ¬ (r.peer = a ∧ r.tid = tid ∧ r.idx = index))
      ∧ ((attachStore C a).makeRoomTx e.db env.payload.length tid).isSome

/-- The peer acknowledges the packet, announces it and keeps it; a message below a full window of
newer ones is not kept. -/
def Delivers (C : Config) (now : ℤ) (e : Daemon) (a : PublicKey) (data : Bytes)
    (env : Envelope) : Prop :=
  let e' := (e.handlePacket C now a data).1
  (∃ ack, encodeAck env.seq = .ok ack ∧ e'.node.control = e.node.control ++ [⟨a, ack⟩])
    ∧ if env.type = typeFile then
        (e.handlePacket C now a data).2 = [.recvFile a env.seq env.ts env.payload]
          ∧ ∃ tid index total, ⟨a, tid, index, total, env.seq.toInt64, env.ts, env.payload⟩
            ∈ e'.db.attach
      else
        (e.handlePacket C now a data).2 = [.recv a env.seq env.ts env.payload]
          ∧ (⟨a, env.seq.toInt64, env.ts, env.payload⟩ ∈ e'.db.inbox
            ∨ ((e'.db.inboxSeqs a).length = (inboxOf C a).capacity
              ∧ ∀ s ∈ e'.db.inboxSeqs a, env.seq.toInt64 < s))

section Flush

variable {now : ℤ} {stamp : UInt64 → ℤ} {d : Daemon} {row : OutboxRow}

theorem entryOf_mem (hd : Boxed d) (h : Due C now stamp d row) :
    d.entryOf row ∈ d.flushEntries row.peer := by
  unfold flushEntries
  rw [if_neg h.notBlocked, if_neg (not_not.2 (hd row h.pending))]
  unfold OutboxJournal.pending
  refine List.mem_map.2 ⟨row, ?_, rfl⟩
  rw [List.mem_insertionSort, List.mem_filter]
  exact ⟨h.pending, by simp⟩

/-- The entry's own turn in the pass. -/
theorem flushEntry_enqueues (now : ℤ) (stamp : UInt64 → ℤ) {s : Daemon} {data : Bytes}
    (hkey : row.peer.length = publicKeySize) (hlen : data.length ≤ C.mtu)
    (hstale : ¬ ((d.entryOf row).sentAt > 0
      ∧ unixMilli now - (d.entryOf row).sentAt < Int64.ofInt (C.retryInterval / 1000000)))
    (hroom : (queueFor row.type s.node).length < queueCap row.type)
    (hdata : (envelopeOf (d.entryOf row) row.payload).encode = .ok data) :
    queueFor row.type (flushEntry C now stamp row.peer s (d.entryOf row)).node
      = queueFor row.type s.node ++ [⟨row.peer, data⟩] := by
  have hturn := flushEntry_of_due s row.peer stamp hstale (Base64.decode_encode _) hdata rfl
  have htype : (d.entryOf row).type = row.type := rfl
  rw [htype] at hturn
  unfold queueFor queueCap at *
  by_cases hf : row.type = typeFile
  · simp only [hf, if_true] at hroom hturn ⊢
    rw [hturn.2 _ (Node.sendBulk_ok.2 ⟨hkey, hlen, hroom, rfl⟩)]
  · simp only [hf, if_false] at hroom hturn ⊢
    rw [hturn.2 _ (Node.send_ok.2 ⟨hkey, hlen, hroom, rfl⟩)]

theorem queueFor_only (typ : EnvelopeType) {p : PublicKey} {d d' : Daemon} (h : Only p d d') :
    ∃ extra, queueFor typ d'.node = queueFor typ d.node ++ extra := by
  unfold queueFor
  split_ifs
  · exact h.bulk.imp fun _ h => h.1
  · exact h.control.imp fun _ h => h.1

/-- A flush pass sends what is due and fits an envelope. -/
theorem flushPeer_enqueues {data : Bytes} (hd : Boxed d) (h : Due C now stamp d row)
    (hkey : row.peer.length = publicKeySize) (hlen : data.length ≤ C.mtu)
    (hdata : (envelopeOf (d.entryOf row) row.payload).encode = .ok data) :
    ⟨row.peer, data⟩ ∈ (queueFor row.type (d.flushPeer C now stamp row.peer).node).drop
      (queueFor row.type d.node).length := by
  obtain ⟨pre, post, hsplit⟩ := List.append_of_mem (entryOf_mem hd h)
  have hturn := flushEntry_enqueues (C := C) now stamp hkey hlen h.stale
    (h.room pre post hsplit) hdata
  obtain ⟨e₁, he₁⟩ := queueFor_only row.type
    (flushEntries_only (C := C) now stamp row.peer pre d)
  obtain ⟨e₂, he₂⟩ := queueFor_only row.type (flushEntries_only (C := C) now stamp
    row.peer post (flushEntry C now stamp row.peer
      (pre.foldl (flushEntry C now stamp row.peer) d) (d.entryOf row)))
  unfold flushPeer
  rw [hsplit, List.foldl_append, List.foldl_cons, he₂, hturn, he₁, List.append_assoc,
    List.append_assoc, List.drop_left]
  simp

end Flush

section Deliver

variable {now : ℤ} {e : Daemon} {a : PublicKey} {data : Bytes} {env : Envelope}

theorem delivers_msg (hR : Receiver C e a env) (he : decodeEnvelope data = .ok env)
    (ht : env.type = typeMsg) : Delivers C now e a data env := by
  obtain ⟨ops, rfl, hnew⟩ := hR.reached
  set e := (({} : Daemon).run C ops).1
  set o : Offer := ⟨env.seq, env.ts, env.payload⟩
  have ho : offerOf a e (.packet now a data) = some o := by
    simp [offerOf, he, ht, hR.notBlocked, o]
  have hoff : o.seq.toInt64 ∉ offered (offersFrom C a {} ops) := hnew ht
  have htrue : ((inboxOf C a).add e.db o.seq o.ts o.payload).1 = true := by
    rw [← Bool.not_eq_false, (run_inboxInv a ops).add_fst o]
    exact fun hm => hoff (largest_subset _ _ hm)
  obtain ⟨ack, hack, hcontrol⟩ := (answersAck_iff ho).2 hR.canAnswer
  have hne : ¬ env.type = typeFile := by
    rw [ht]
    decide
  refine ⟨⟨ack, hack, hcontrol⟩, ?_⟩
  rw [if_neg hne]
  have hevents : (e.handlePacket C now a data).2 = [.recv a env.seq env.ts env.payload] := by
    unfold handlePacket
    simp only [hR.notBlocked, he, if_neg hne, if_pos ht, boxFor_db]
    exact if_pos htrue
  refine ⟨hevents, ?_⟩
  -- the inbox after the packet is the window over one more offer
  have I := run_inboxInv (C := C) a (ops ++ [.packet now a data])
  rw [offersFrom_append, ho, run_append, Option.toList_some] at I
  have hfirst : firstOffer (offersFrom C a {} ops ++ [o]) o.seq.toInt64
      = some (o.ts, o.payload) := by
    have hnone : firstOffer (offersFrom C a {} ops) o.seq.toInt64 = none := by
      rw [← Option.not_isSome_iff_eq_none, firstOffer_isSome]
      exact hoff
    rw [firstOffer_append, hnone, if_pos rfl]
    rfl
  by_cases hin : o.seq.toInt64 ∈ largest (inboxOf C a).capacity
      (offered (offersFrom C a {} ops ++ [o]))
  · exact .inl ((I.mem_inbox (r := ⟨a, env.seq.toInt64, env.ts, env.payload⟩) rfl).2 ⟨hin, hfirst⟩)
  · right
    have hmem : o.seq.toInt64 ∈ offered (offersFrom C a {} ops ++ [o]) := by
      rw [offered_append]
      exact Finset.mem_insert_self _ _
    refine ⟨?_, fun s hs => ?_⟩
    · have hcard := card_largest (inboxOf C a).capacity (offered (offersFrom C a {} ops ++ [o]))
      rw [← I.window, List.toFinset_card_of_nodup I.nodup] at hcard
      refine hcard.trans (min_eq_left (not_lt.1 fun hlt => hin ?_))
      rwa [largest_eq_self hlt.le]
    · rw [← List.mem_toFinset] at hs
      exact lt_of_mem_largest (I.window ▸ hs) hmem hin

/-- A chunk it does not have is stored if there is room for it. -/
theorem attach_add_new (as : AttachmentStore) {db : DB} {tid : Text} {index : UInt16}
    (total : UInt16) (seq : UInt64) (ts : Int64) {payload : Bytes}
    (hnew : ∀ r ∈ db.attach, ¬ (r.peer = as.peer ∧ r.tid = tid ∧ r.idx = index))
    (hroom : (as.makeRoomTx db payload.length tid).isSome) :
    ∃ db', as.add db tid index total seq ts payload = some (true, db')
      ∧ ⟨as.peer, tid, index, total, seq.toInt64, ts, payload⟩ ∈ db'.attach := by
  obtain ⟨db₁, hdb₁⟩ := Option.isSome_iff_exists.1 hroom
  have hany : ¬ (db.attach.any fun r =>
      decide (r.peer = as.peer ∧ r.tid = tid ∧ r.idx = index)) := by
    rw [List.any_eq_true]
    rintro ⟨r, hr, h⟩
    exact hnew r hr (of_decide_eq_true h)
  refine ⟨{ db₁ with attach := db₁.attach
    ++ [⟨as.peer, tid, index, total, seq.toInt64, ts, payload⟩] }, ?_, by simp⟩
  unfold AttachmentStore.add
  rw [if_neg hany, hdb₁]
  rfl

theorem delivers_file (hR : Receiver C e a env) (he : decodeEnvelope data = .ok env)
    (ht : env.type = typeFile) {tid : Text} {index total : UInt16}
    (hh : parseFileHeader env.payload = some (tid, index, total)) :
    Delivers C now e a data env := by
  obtain ⟨hnew, hroom⟩ := hR.chunk ht tid index total hh
  obtain ⟨db, hadd, hmem⟩ := attach_add_new (attachStore C a) total env.seq env.ts hnew hroom
  obtain ⟨ack, hack, -⟩ := encodeAck_ok env.seq
  have hcan : CanAnswer C a ({ e.boxFor a with db } : Daemon) :=
    ⟨hR.canAnswer.1, hR.canAnswer.2.1, by rw [e.boxFor_node a]; exact hR.canAnswer.2.2⟩
  have hpacket : e.handlePacket C now a data = (({ e.boxFor a with db } : Daemon).withControl a ack,
      [.recvFile a env.seq env.ts env.payload]) := by
    unfold handlePacket
    simp only [hR.notBlocked, he, if_pos ht, hh, boxFor_db, hadd, sendAck_of_canAnswer hcan hack]
    rfl
  unfold Delivers
  simp only [hpacket, if_pos ht]
  refine ⟨⟨ack, hack, ?_⟩, trivial, tid, index, total, hmem⟩
  simp only [withControl, e.boxFor_node a]

theorem not_delivers_file (he : decodeEnvelope data = .ok env) (ht : env.type = typeFile)
    (hh : parseFileHeader env.payload = none) : ¬ Delivers C now e a data env := by
  rintro ⟨⟨ack, -, hcontrol⟩, -⟩
  have hsame : (e.handlePacket C now a data).1.node = e.node := by
    unfold handlePacket
    split_ifs
    · rfl
    · simp only [he, if_pos ht, hh, e.boxFor_node a]
  rw [hsame] at hcontrol
  exact absurd (congrArg List.length hcontrol) (by simp)

end Deliver

/-- The envelope of a queued row. -/
def rowEnvelope (row : OutboxRow) : Envelope :=
  { version := envelopeVersion, type := row.type, seq := row.seq.toUInt64, ts := row.ts,
    payload := row.payload }

/-- A flush pass enqueues the row as a packet that decodes to it and that every peer ready for it
stores and acknowledges. -/
def Sendable (C : Config) (now : ℤ) (stamp : UInt64 → ℤ) (d : Daemon) (row : OutboxRow) : Prop :=
  ∃ data, ⟨row.peer, data⟩ ∈ (queueFor row.type (d.flushPeer C now stamp row.peer).node).drop
      (queueFor row.type d.node).length
    ∧ decodeEnvelope data = .ok (rowEnvelope row)
    ∧ ∀ C' now' e a, Receiver C' e a (rowEnvelope row) →
      Delivers C' now' e a data (rowEnvelope row)

theorem sendable_iff {now : ℤ} {stamp : UInt64 → ℤ} {d : Daemon} {row : OutboxRow} (hd : Boxed d)
    (h : Due C now stamp d row) (htyp : row.type = typeMsg ∨ row.type = typeFile)
    (hkey : row.peer.length = publicKeySize)
    (hmtu : envelopeHeaderSize + maxPayloadSize ≤ C.mtu) :
    Sendable C now stamp d row ↔ row.payload.length ≤ maxPayloadSize
      ∧ (row.type = typeFile → (parseFileHeader row.payload).isSome) := by
  constructor
  · rintro ⟨data, -, hdec, hdel⟩
    refine ⟨length_le_of_decode hdec, fun hf => ?_⟩
    by_contra hnone
    rw [Option.not_isSome_iff_eq_none] at hnone
    refine not_delivers_file hdec hf hnone (hdel ⟨1, 0, 0, 0, 20⟩ 0 {} (List.replicate 32 0) ?_)
    refine ⟨⟨[], rfl, fun hm => ?_⟩, by decide,
      ⟨by decide, by decide, by decide⟩, fun _ tid index total hsome => ?_⟩
    · have : typeFile = typeMsg := hf.symm.trans hm
      exact absurd this (by decide)
    · have : parseFileHeader row.payload = some (tid, index, total) := hsome
      rw [hnone] at this
      cases this
  · rintro ⟨hlen, hheader⟩
    have hdata := Envelope.encode_ok (e := rowEnvelope row) hlen
    have hdec := Envelope.decode_of_encode (e := rowEnvelope row) rfl hdata
    have hfits := (Envelope.length_of_encode hdata).trans_le ((Nat.add_le_add_left
      (Envelope.length_le_of_encode hdata) _).trans hmtu)
    refine ⟨_, flushPeer_enqueues hd h hkey hfits hdata, hdec, fun C' now' e a hR => ?_⟩
    rcases htyp with hm | hf
    · exact delivers_msg hR hdec hm
    · obtain ⟨⟨tid, index, total⟩, hh⟩ := Option.isSome_iff_exists.1 (hheader hf)
      exact delivers_file hR hdec hf hh

/-- The row a successful send queues. -/
def queuedRow (typ : EnvelopeType) (now : ℤ) (dest : PublicKey) (seq : UInt64) (payload : Bytes) :
    OutboxRow := ⟨dest, seq.toInt64, unixMilli now, typ, payload⟩

/-- A payload accepted by `SendMsg` or `SendFile`, in any state a daemon can be in, and still
pending after whatever happens next: a flush pass that finds it due sends it, and the peer stores
and acknowledges it, exactly if it fits an envelope and, for a file chunk, has a routing header in
order. -/
theorem queued_sendable_iff (C : Config) (before after : List Op) {typ : EnvelopeType}
    (htyp : typ = typeMsg ∨ typ = typeFile) {now : ℤ} {dest : PublicKey} {payload : Bytes}
    {seq : UInt64} {d₁ : Daemon}
    (hsend : (({} : Daemon).run C before).1.sendAs typ now dest payload = (.ok seq, d₁))
    (hkey : dest.length = publicKeySize) (hmtu : envelopeHeaderSize + maxPayloadSize ≤ C.mtu)
    {now' : ℤ} {stamp : UInt64 → ℤ}
    (hdue : Due C now' stamp (d₁.run C after).1 (queuedRow typ now dest seq payload)) :
    Sendable C now' stamp (d₁.run C after).1 (queuedRow typ now dest seq payload)
      ↔ payload.length ≤ maxPayloadSize
        ∧ (typ = typeFile → (parseFileHeader payload).isSome) := by
  have hbefore : Boxed (({} : Daemon).run C before).1 := Boxed.run before (by simp [Boxed])
  have hd₁ := hbefore.sendAs typ now dest payload
  rw [hsend] at hd₁
  exact sendable_iff (Boxed.run after hd₁) hdue htyp hkey hmtu

/-- The first send of a fresh daemon. -/
theorem sendAs_fresh (typ : EnvelopeType) (now : ℤ) (dest : PublicKey) (payload : Bytes) :
    ({} : Daemon).sendAs typ now dest payload = (.ok 1,
      { db := { outboxSeq := [⟨dest, 2⟩], outbox := [queuedRow typ now dest 1 payload] },
        boxes := (∅ : AList fun _ : PublicKey => OutboxJournal.Sent).insert dest ∅ }) := by
  have hmem : dest ∉ (∅ : AList fun _ : PublicKey => OutboxJournal.Sent) := AList.notMem_empty dest
  simp [sendAs, beginSend, isBlocked, boxFor, hmem, OutboxJournal.nextSeq, finishSend,
    OutboxJournal.queueAs, queuedRow]

theorem due_fresh (C : Config) (now' : ℤ) (stamp : UInt64 → ℤ) (typ : EnvelopeType) (now : ℤ)
    (dest : PublicKey) (payload : Bytes) :
    Due C now' stamp (({} : Daemon).sendAs typ now dest payload).2
      (queuedRow typ now dest 1 payload) := by
  rw [sendAs_fresh]
  set row := queuedRow typ now dest 1 payload
  set d : Daemon :=
    { db := { outboxSeq := [⟨dest, 2⟩], outbox := [row] },
      boxes := (∅ : AList fun _ : PublicKey => OutboxJournal.Sent).insert dest ∅ }
  have hsent : d.sentOf row.peer = ∅ := by
    show (AList.lookup dest (AList.insert dest ∅ ∅)).getD ∅ = ∅
    rw [AList.lookup_insert]
    rfl
  have hentries : d.flushEntries dest = [d.entryOf row] := by
    have hbox : ¬ dest ∉ d.boxes := not_not.2 ((AList.mem_insert _).2 (.inl rfl))
    have hnot : ¬ d.isBlocked dest := by simp [isBlocked, d]
    have hrows : d.db.outbox.filter (fun r => decide (r.peer = dest)) = [row] := by
      simp [d, row, queuedRow]
    simp only [flushEntries, hnot, hbox, if_false, OutboxJournal.pending, hrows]
    rfl
  refine ⟨List.mem_singleton.2 rfl, by simp [isBlocked, d], ?_, fun pre post h => ?_⟩
  · have hat : (d.entryOf row).sentAt = 0 := by
      unfold entryOf
      rw [hsent]
      rfl
    rw [hat]
    simp
  · have hnil : pre = [] := by
      have hlen := congrArg List.length (hentries.symm.trans h)
      simp only [List.length_append, List.length_cons, List.length_nil] at hlen
      exact List.length_eq_zero_iff.1 (by omega)
    rw [hnil]
    unfold queueFor queueCap
    split_ifs
    · show 0 < bulkCap
      decide
    · show 0 < controlCap
      decide

/-- A short text. -/
theorem queued_sendable_iff_hello :
    let C : Config := ⟨10, 0, 30000000000, 0, 65555⟩
    let dest : PublicKey := List.replicate 32 7
    let d := (({} : Daemon).sendAs typeMsg 0 dest [104, 105]).2
    (({} : Daemon).sendAs typeMsg 0 dest [104, 105]).1 = .ok 1
      ∧ Due C 1 (fun _ => 1) d (queuedRow typeMsg 0 dest 1 [104, 105])
      ∧ Sendable C 1 (fun _ => 1) d (queuedRow typeMsg 0 dest 1 [104, 105]) := by
  intro C dest d
  have hsend : ({} : Daemon).sendAs typeMsg 0 dest [104, 105] = (.ok 1, d) :=
    Prod.ext (congrArg Prod.fst (sendAs_fresh typeMsg 0 dest [104, 105])) rfl
  have hdue : Due C 1 (fun _ => 1) d (queuedRow typeMsg 0 dest 1 [104, 105]) :=
    due_fresh C 1 _ typeMsg 0 dest [104, 105]
  exact ⟨by rw [hsend], hdue, (queued_sendable_iff C [] [] (.inl rfl) hsend (by decide) (by decide)
    hdue).2 ⟨by decide, by decide⟩⟩

/-- A text of 65536 bytes is accepted and never sent. -/
theorem queued_sendable_fails_oversized :
    let C : Config := ⟨10, 0, 30000000000, 0, 65555⟩
    let dest : PublicKey := List.replicate 32 7
    let payload : Bytes := List.replicate 65536 0
    let d := (({} : Daemon).sendAs typeMsg 0 dest payload).2
    (({} : Daemon).sendAs typeMsg 0 dest payload).1 = .ok 1
      ∧ Due C 1 (fun _ => 1) d (queuedRow typeMsg 0 dest 1 payload)
      ∧ ¬ Sendable C 1 (fun _ => 1) d (queuedRow typeMsg 0 dest 1 payload) := by
  intro C dest payload d
  have hlen : payload.length = 65536 := List.length_replicate
  have hdue : Due C 1 (fun _ => 1) d (queuedRow typeMsg 0 dest 1 payload) :=
    due_fresh C 1 _ typeMsg 0 dest payload
  refine ⟨by rw [sendAs_fresh], hdue, fun hs => ?_⟩
  have hboxed : Boxed d := Boxed.sendAs (by simp [Boxed]) typeMsg 0 dest payload
  have hmax := ((sendable_iff hboxed hdue (.inl rfl) (by decide) (by decide)).1 hs).1
  have hmax' : payload.length ≤ 65535 := hmax
  omega

end Daemon

end Aimless
