import Aimless.Writer
import Aimless.Proofs.Sendable

/-!
# What a flush pass sends

A pass goes once through the peer's rows in the order of their seqs.  Each of the two queues takes
the rows of its types that are due and fit an envelope, until it is full; the rows it takes are the
ones that get a new stamp.  The stamps are read when the pass starts, so what it sends of a row
does not depend on what it sent before, except through the room that is left (`picked`).
-/

namespace Aimless

namespace Channel

/-- The channel a packet of a type goes to. -/
def ofType (typ : EnvelopeType) : Channel := if typ = typeFile then bulk else control

def cap : Channel → ℕ
  | control => controlCap
  | bulk => bulkCap

end Channel

namespace Node

def queue (n : Node) : Channel → List Outbound
  | .control => n.control
  | .bulk => n.bulk

def push (n : Node) (out : Outbound) : Channel → Node
  | .control => { n with control := n.control ++ [out] }
  | .bulk => { n with bulk := n.bulk ++ [out] }

theorem queue_push (n : Node) (out : Outbound) (ch ch' : Channel) :
    (n.push out ch).queue ch' = n.queue ch' ++ if ch' = ch then [out] else [] := by
  cases ch <;> cases ch' <;> simp [push, queue]

/-- A packet for a real key within the MTU is refused by a full queue only. -/
theorem sendOn_eq {mtu : ℕ} {pub : PublicKey} {payload : Bytes} (n : Node) (ch : Channel)
    (hkey : pub.length = publicKeySize) (hmtu : payload.length ≤ mtu) :
    Uplink.sendOn mtu n pub payload ch = if (n.queue ch).length < ch.cap
      then .ok (n.push ⟨pub, payload⟩ ch) else .error .queueFull := by
  have henq : ∀ (cap : ℕ) (q : List Outbound), enqueue mtu cap q pub payload
      = if q.length < cap then .ok (q ++ [⟨pub, payload⟩]) else .error .queueFull := by
    intro cap q
    rw [enqueue, if_neg (not_not.2 hkey), if_neg (not_lt.2 hmtu)]
  cases ch with
  | control =>
    show (enqueue mtu controlCap n.control pub payload).map _ = _
    rw [henq]
    show _ = if n.control.length < controlCap then _ else _
    split_ifs <;> rfl
  | bulk =>
    show (enqueue mtu bulkCap n.bulk pub payload).map _ = _
    rw [henq]
    show _ = if n.bulk.length < bulkCap then _ else _
    split_ifs <;> rfl

end Node

namespace Daemon

variable {C : Config}

def staleMs (C : Config) : Int64 := Int64.ofInt (C.retryInterval / 1000000)

/-- What a pass at a time makes of the stamp of an entry: the entry is due if it has none, if its
stamp is not positive, or if the stamp is a retry interval old. -/
def stampDue (C : Config) (now : ℤ) (stamp : Option Int64) : Bool :=
  stamp.all fun t => t ≤ 0 || staleMs C ≤ unixMilli now - t

/-- The entry is due if it has no stamp or one that is a retry interval old. -/
def stampOld (C : Config) (now : ℤ) (stamp : Option Int64) : Bool :=
  stamp.all fun t => staleMs C ≤ unixMilli now - t

/-- The peer's rows in the order of their seqs. -/
def rowsOf (d : Daemon) (peer : PublicKey) : List OutboxRow :=
  (d.db.outbox.filter fun r => r.peer = peer).insertionSort fun r s => r.seq ≤ s.seq

/-- The row goes to the channel, is due and fits an envelope. -/
def goesTo (due : Option Int64 → Bool) (sent : OutboxJournal.Sent) (ch : Channel)
    (r : OutboxRow) : Bool :=
  Channel.ofType r.type = ch && due (sent.lookup r.seq.toUInt64)
    && r.payload.length ≤ maxPayloadSize

/-- The first rows that go to the channel, as many as it has room for. -/
def picked (due : Option Int64 → Bool) (sent : OutboxJournal.Sent) (ch : Channel) (n : Node)
    (rows : List OutboxRow) : List OutboxRow :=
  (rows.filter (goesTo due sent ch)).take (ch.cap - (n.queue ch).length)

/-- The packet carries the row: its own type, seq, ts and payload, for its peer. -/
def Carries (row : OutboxRow) (out : Outbound) : Prop :=
  out.pub = row.peer ∧ (rowEnvelope row).encode = .ok out.data

/-- A pass that takes `rows` from `d` to `d'`: each channel gets, after what it held, the packets of
the rows picked for it; these rows are stamped, and nothing else changes. -/
structure Flushed (due : Option Int64 → Bool) (stamp : UInt64 → ℤ) (peer : PublicKey)
    (rows : List OutboxRow) (sent : OutboxJournal.Sent) (d d' : Daemon) : Prop where
  packets : ∀ ch, ∃ new, d'.node.queue ch = d.node.queue ch ++ new
    ∧ List.Forall₂ Carries (picked due sent ch d.node rows) new
  stamped : ∀ ch, ∀ r ∈ picked due sent ch d.node rows,
    (d'.sentOf peer).lookup r.seq.toUInt64 = some (unixMilli (stamp r.seq.toUInt64))
  unstamped : ∀ seq, (∀ ch, ∀ r ∈ picked due sent ch d.node rows, r.seq.toUInt64 ≠ seq) →
    (d'.sentOf peer).lookup seq = (d.sentOf peer).lookup seq
  others : ∀ p, p ≠ peer → d'.sentOf p = d.sentOf p
  rows : d'.db = d.db

section Pass

variable {now : ℤ} {stamp : UInt64 → ℤ} {peer : PublicKey} {sent : OutboxJournal.Sent}
  {d : Daemon} {row : OutboxRow}

/-- A row as a pass reads it that has the stamps `sent`. -/
def entryAt (sent : OutboxJournal.Sent) (row : OutboxRow) : JournalEntry :=
  { seq := row.seq.toUInt64, ts := row.ts, type := row.type, payload := Base64.encode row.payload,
    sentAt := OutboxJournal.sentAt sent row.seq.toUInt64 }

theorem stampDue_iff (C : Config) (now : ℤ) (sent : OutboxJournal.Sent) (seq : UInt64) :
    stampDue C now (sent.lookup seq) ↔ ¬ (OutboxJournal.sentAt sent seq > 0
      ∧ unixMilli now - OutboxJournal.sentAt sent seq < staleMs C) := by
  unfold OutboxJournal.sentAt stampDue
  rcases sent.lookup seq with _ | t
  · simp
  · simp [imp_iff_not_or]

/-- The daemon after a row was sent. -/
def sentRow (stamp : UInt64 → ℤ) (d : Daemon) (row : OutboxRow) (data : Bytes) : Daemon :=
  { d with
    node := d.node.push ⟨row.peer, data⟩ (.ofType row.type)
    boxes := d.boxes.insert row.peer (OutboxJournal.markSent (d.sentOf row.peer) row.seq.toUInt64
      (unixMilli (stamp row.seq.toUInt64))) }

/-- The channel takes the row now. -/
def Takes (due : Option Int64 → Bool) (sent : OutboxJournal.Sent) (n : Node)
    (row : OutboxRow) : Prop :=
  goesTo due sent (.ofType row.type) row
    ∧ (n.queue (.ofType row.type)).length < (Channel.ofType row.type).cap

/-- A row that is not due, or does not fit an envelope, is passed over. -/
theorem flushEntry_skip (h : ¬ (stampDue C now (sent.lookup row.seq.toUInt64)
    ∧ row.payload.length ≤ maxPayloadSize)) :
    flushEntry C now stamp row.peer d (entryAt sent row) = d := by
  have hdec : Base64.decode (entryAt sent row).payload = some row.payload := Base64.decode_encode _
  by_cases hrecent : (entryAt sent row).sentAt > 0 ∧ unixMilli now - (entryAt sent row).sentAt
      < Int64.ofInt (C.retryInterval / 1000000)
  · rw [flushEntry, if_pos hrecent]
  · have hdue := (stampDue_iff C now sent row.seq.toUInt64).2 hrecent
    have hlen : maxPayloadSize < (rowEnvelope row).payload.length :=
      not_le.1 fun hlen => h ⟨hdue, hlen⟩
    obtain ⟨e, he⟩ := Envelope.encode_error_iff.2 hlen
    have henv : Envelope.encode ⟨envelopeVersion, (entryAt sent row).type, (entryAt sent row).seq,
      (entryAt sent row).ts, row.payload⟩ = .error e := he
    rw [flushEntry, if_neg hrecent, hdec]
    dsimp only
    rw [henv]

/-- A row's turn in a pass. -/
theorem flushEntry_row (now : ℤ) (stamp : UInt64 → ℤ) (sent : OutboxJournal.Sent) (d : Daemon)
    (hkey : row.peer.length = publicKeySize)
    (hmtu : row.payload.length ≤ maxPayloadSize →
      envelopeHeaderSize + row.payload.length ≤ C.mtu) :
    (¬ Takes (stampDue C now) sent d.node row
      ∧ flushEntry C now stamp row.peer d (entryAt sent row) = d)
    ∨ (Takes (stampDue C now) sent d.node row ∧ ∃ data, (rowEnvelope row).encode = .ok data
      ∧ flushEntry C now stamp row.peer d (entryAt sent row) = d.sentRow stamp row data) := by
  unfold Takes goesTo
  simp only [Bool.and_eq_true, decide_eq_true_eq, true_and]
  by_cases hfit : stampDue C now (sent.lookup row.seq.toUInt64)
      ∧ row.payload.length ≤ maxPayloadSize
  · obtain ⟨data, hdata⟩ : ∃ data, (rowEnvelope row).encode = .ok data :=
      ⟨_, Envelope.encode_ok hfit.2⟩
    have hlen : data.length ≤ C.mtu := (Envelope.length_of_encode hdata).trans_le (hmtu hfit.2)
    have hdue : ¬ ((entryAt sent row).sentAt > 0 ∧ unixMilli now - (entryAt sent row).sentAt
        < Int64.ofInt (C.retryInterval / 1000000)) :=
      (stampDue_iff C now sent row.seq.toUInt64).1 hfit.1
    have hdec : Base64.decode (entryAt sent row).payload = some row.payload :=
      Base64.decode_encode _
    have henv : (envelopeOf (entryAt sent row) row.payload).encode = .ok data := hdata
    have hsent : (if (entryAt sent row).type = typeFile then d.node.sendBulk C.mtu row.peer data
        else d.node.send C.mtu row.peer data)
        = Uplink.sendOn C.mtu d.node row.peer data (.ofType row.type) := by
      have htype : (entryAt sent row).type = row.type := rfl
      rw [htype, Channel.ofType]
      split_ifs <;> rfl
    obtain ⟨hfull, hfree⟩ := flushEntry_of_due d row.peer stamp hdue hdec henv hsent
    rw [Node.sendOn_eq _ _ hkey hlen] at hfull hfree
    by_cases hroom : (d.node.queue (.ofType row.type)).length < (Channel.ofType row.type).cap
    · rw [if_pos hroom] at hfree
      exact .inr ⟨⟨hfit, hroom⟩, data, hdata, hfree _ rfl⟩
    · rw [if_neg hroom] at hfull
      exact .inl ⟨fun h => hroom h.2, hfull _ rfl⟩
  · exact .inl ⟨fun h => hfit h.1, flushEntry_skip hfit⟩

theorem picked_of_not_takes {due : Option Int64 → Bool} {n : Node} (h : ¬ Takes due sent n row)
    (ch : Channel) (rows : List OutboxRow) :
    picked due sent ch n (row :: rows) = picked due sent ch n rows := by
  unfold picked
  by_cases hgo : goesTo due sent ch row
  · have hch : Channel.ofType row.type = ch := by
      simp only [goesTo, Bool.and_eq_true, decide_eq_true_eq] at hgo
      exact hgo.1.1
    subst hch
    -- the channel is full, so it takes nothing more
    have hfull : (Channel.ofType row.type).cap - (n.queue (.ofType row.type)).length = 0 :=
      Nat.sub_eq_zero_of_le (not_lt.1 fun hroom => h ⟨hgo, hroom⟩)
    rw [hfull, List.take_zero, List.take_zero]
  · rw [List.filter_cons_of_neg hgo]

theorem picked_of_takes {due : Option Int64 → Bool} {n : Node} (h : Takes due sent n row)
    (out : Outbound) (ch : Channel) (rows : List OutboxRow) :
    picked due sent ch n (row :: rows)
      = (if ch = .ofType row.type then [row] else [])
        ++ picked due sent ch (n.push out (.ofType row.type)) rows := by
  obtain ⟨hgo, hroom⟩ := h
  unfold picked
  rw [Node.queue_push]
  by_cases hch : ch = .ofType row.type
  · subst hch
    rw [List.filter_cons_of_pos hgo, if_pos rfl, if_pos rfl, List.length_append,
      List.length_singleton, ← Nat.succ_pred_eq_of_pos (Nat.sub_pos_of_lt hroom), List.take_succ_cons]
    rfl
  · have hno : ¬ goesTo due sent ch row := by
      simp only [goesTo, Bool.and_eq_true, decide_eq_true_eq]
      exact fun h => hch h.1.1.symm
    rw [List.filter_cons_of_neg hno, if_neg hch, if_neg hch, List.append_nil, List.nil_append]

theorem sentOf_sentRow (stamp : UInt64 → ℤ) (d : Daemon) (row : OutboxRow) (data : Bytes)
    (p : PublicKey) : (d.sentRow stamp row data).sentOf p
      = if p = row.peer then OutboxJournal.markSent (d.sentOf row.peer) row.seq.toUInt64
          (unixMilli (stamp row.seq.toUInt64)) else d.sentOf p := by
  unfold sentRow sentOf
  split_ifs with hp
  · subst hp
    rw [AList.lookup_insert]
    rfl
  · rw [AList.lookup_insert_ne hp]

/-- A row the channel takes, and then the rest of the pass. -/
theorem Flushed.cons {due : Option Int64 → Bool} {rows : List OutboxRow} {d' : Daemon}
    {data : Bytes} (htakes : Takes due sent d.node row) (hdata : (rowEnvelope row).encode = .ok data)
    (h : Flushed due stamp row.peer rows sent (d.sentRow stamp row data) d') :
    Flushed due stamp row.peer (row :: rows) sent d d' := by
  have hpicked := fun ch => picked_of_takes htakes ⟨row.peer, data⟩ ch rows
  have hbox : (d.sentRow stamp row data).sentOf row.peer = (d.sentOf row.peer).insert
      row.seq.toUInt64 (unixMilli (stamp row.seq.toUInt64)) := by
    rw [sentOf_sentRow, if_pos rfl]
    rfl
  refine ⟨fun ch => ?_, fun ch r hr => ?_, fun seq hseq => ?_, fun p hp => ?_, h.rows⟩
  · obtain ⟨new, hnew, hcarries⟩ := h.packets ch
    refine ⟨(if ch = .ofType row.type then [⟨row.peer, data⟩] else []) ++ new, ?_, ?_⟩
    · rw [hnew, ← List.append_assoc]
      congr 1
      exact Node.queue_push _ _ _ _
    · rw [hpicked]
      refine List.rel_append ?_ hcarries
      split_ifs
      · exact .cons ⟨rfl, hdata⟩ .nil
      · exact .nil
  · rw [hpicked, List.mem_append] at hr
    rcases hr with hr | hr
    · obtain rfl : r = row := by
        split_ifs at hr
        · exact List.mem_singleton.1 hr
        · cases hr
      by_cases hlater : ∃ ch', ∃ r' ∈ picked due sent ch' (d.sentRow stamp r data).node rows,
          r'.seq.toUInt64 = r.seq.toUInt64
      · obtain ⟨ch', r', hr', heq⟩ := hlater
        rw [← heq]
        exact h.stamped ch' r' hr'
      · push Not at hlater
        rw [h.unstamped _ hlater, hbox, AList.lookup_insert]
    · exact h.stamped ch r hr
  · have hne : seq ≠ row.seq.toUInt64 := by
      intro heq
      refine hseq (.ofType row.type) row ?_ heq.symm
      rw [hpicked, if_pos rfl]
      exact List.mem_append_left _ (List.mem_singleton_self row)
    have hlater : ∀ ch', ∀ r' ∈ picked due sent ch' (d.sentRow stamp row data).node rows,
        r'.seq.toUInt64 ≠ seq := by
      intro ch' r' hr'
      refine hseq ch' r' ?_
      rw [hpicked]
      exact List.mem_append_right _ hr'
    rw [h.unstamped seq hlater, hbox, AList.lookup_insert_ne hne]
  · rw [h.others p hp, sentOf_sentRow, if_neg hp]

/-- The whole pass. -/
theorem foldl_flushEntry (hkey : peer.length = publicKeySize) (rows : List OutboxRow)
    (hpeer : ∀ r ∈ rows, r.peer = peer)
    (hmtu : ∀ r ∈ rows, r.payload.length ≤ maxPayloadSize →
      envelopeHeaderSize + r.payload.length ≤ C.mtu) :
    ∀ d : Daemon, Flushed (stampDue C now) stamp peer rows sent d
      ((rows.map (entryAt sent)).foldl (flushEntry C now stamp peer) d) := by
  induction rows with
  | nil =>
    exact fun d => ⟨fun ch => ⟨[], (List.append_nil _).symm, by simp [picked]⟩, by simp [picked],
      fun _ _ => rfl, fun _ _ => rfl, rfl⟩
  | cons row rows ih =>
    intro d
    obtain rfl := hpeer row List.mem_cons_self
    have ih := ih (fun r hr => hpeer r (List.mem_cons_of_mem _ hr))
      (fun r hr => hmtu r (List.mem_cons_of_mem _ hr))
    rw [List.map_cons, List.foldl_cons]
    rcases flushEntry_row now stamp sent d hkey (hmtu row List.mem_cons_self) with
      ⟨hno, hturn⟩ | ⟨htakes, data, hdata, hturn⟩
    · rw [hturn]
      have hsame := fun ch => picked_of_not_takes hno ch rows
      obtain ⟨hpackets, hstamped, hunstamped, hothers, hrows⟩ := ih d
      exact ⟨by simpa only [hsame] using hpackets, by simpa only [hsame] using hstamped,
        by simpa only [hsame] using hunstamped, hothers, hrows⟩
    · rw [hturn]
      exact .cons htakes hdata (ih _)

theorem flushEntries_eq (hblocked : ¬ d.isBlocked peer) (hknown : peer ∈ d.boxes) :
    d.flushEntries peer = (d.rowsOf peer).map (entryAt (d.sentOf peer)) := by
  rw [flushEntries, if_neg hblocked, if_neg (not_not.2 hknown)]
  rfl

theorem mem_rowsOf {r : OutboxRow} : r ∈ d.rowsOf peer ↔ r ∈ d.db.outbox ∧ r.peer = peer := by
  rw [rowsOf, List.mem_insertionSort, List.mem_filter, decide_eq_true_eq]

/-- For every outbox, stamps, clock and room in the queues: a pass for a known peer that is not
blocked gives each channel, in the order of the seqs and up to its room, the packets of the rows
that are due and fit an envelope; the stamps of these rows change, and no row does. -/
theorem flushPeer_flushed (C : Config) (now : ℤ) (stamp : UInt64 → ℤ) {d : Daemon}
    {peer : PublicKey} (hkey : peer.length = publicKeySize) (hblocked : ¬ d.isBlocked peer)
    (hknown : peer ∈ d.boxes)
    (hmtu : ∀ r ∈ d.db.outbox, r.peer = peer → r.payload.length ≤ maxPayloadSize →
      envelopeHeaderSize + r.payload.length ≤ C.mtu) :
    Flushed (stampDue C now) stamp peer (d.rowsOf peer) (d.sentOf peer) d
      (d.flushPeer C now stamp peer) := by
  rw [flushPeer, flushEntries_eq hblocked hknown]
  exact foldl_flushEntry hkey _ (fun r hr => (mem_rowsOf.1 hr).2)
    (fun r hr => hmtu r (mem_rowsOf.1 hr).1 (mem_rowsOf.1 hr).2) d

end Pass

/-- A daemon with one text for a peer, stamped with a time. -/
def oneText (t : Int64) : Daemon :=
  { db := { outbox := [⟨List.replicate 32 7, 1, 0, typeMsg, [104, 105]⟩] }
    boxes := (∅ : AList fun _ : PublicKey => OutboxJournal.Sent).insert (List.replicate 32 7)
      ((∅ : OutboxJournal.Sent).insert 1 t) }

/-- A text enqueued when the clock stood at zero is sent again a millisecond later, long before the
retry interval of thirty seconds is over. -/
theorem zero_stamp_resent :
    let C : Config := ⟨10, 0, 30000000000, 0, 65555⟩
    let peer : PublicKey := List.replicate 32 7
    ¬ Flushed (stampOld C 1000000) (fun _ => 1000000) peer ((oneText 0).rowsOf peer)
      ((oneText 0).sentOf peer) (oneText 0)
      ((oneText 0).flushPeer C 1000000 (fun _ => 1000000) peer) := by
  intro C peer h
  obtain ⟨new, hnew, hcarries⟩ := h.packets .control
  have hpicked : picked (stampOld C 1000000) ((oneText 0).sentOf peer) .control (oneText 0).node
      ((oneText 0).rowsOf peer) = [] := by decide
  have hcontrol : ((oneText 0).flushPeer C 1000000 (fun _ => 1000000) peer).node.control.length
      = 1 := by decide
  rw [hpicked] at hcarries
  cases hcarries
  have hlen := congrArg List.length hnew
  rw [show ∀ n : Node, n.queue .control = n.control from fun _ => rfl, hcontrol] at hlen
  cases hlen

def crowdedPeer : PublicKey := List.replicate 32 7

def crowdedRow (seq : Int64) (typ : EnvelopeType) (payload : Bytes) : OutboxRow :=
  ⟨crowdedPeer, seq, 0, typ, payload⟩

/-- A daemon with five rows for a peer and one for another, and room for one text. -/
def crowded (large : Bytes) : Daemon :=
  { db := { outbox := [crowdedRow 3 typeFile [1], crowdedRow 1 typeMsg [104, 105],
      ⟨List.replicate 32 8, 1, 0, typeMsg, [4]⟩, crowdedRow 2 typeMsg [2],
      crowdedRow 4 typeFile large, crowdedRow 5 typeMsg [3]] }
    node := { control := List.replicate (controlCap - 1) ⟨List.replicate 32 8, []⟩ }
    boxes := (∅ : AList fun _ : PublicKey => OutboxJournal.Sent).insert crowdedPeer
      (((∅ : OutboxJournal.Sent).insert 1 10000).insert 2 49000) }

theorem rowsOf_crowded (large : Bytes) : (crowded large).rowsOf crowdedPeer
    = [crowdedRow 1 typeMsg [104, 105], crowdedRow 2 typeMsg [2], crowdedRow 3 typeFile [1],
      crowdedRow 4 typeFile large, crowdedRow 5 typeMsg [3]] := by rfl

/-- Of the texts, the one that was stamped forty seconds ago takes the room that is left; the one
that was stamped a second ago is passed over, and the last one waits.  Of the chunks, the one that
is too large for an envelope is passed over. -/
theorem flushPeer_flushed_crowded :
    let C : Config := ⟨10, 0, 30000000000, 0, 65555⟩
    let d := crowded (List.replicate 65536 0)
    let d' := d.flushPeer C 50000000000 (fun _ => 50000000000) crowdedPeer
    let due := stampDue C 50000000000
    Flushed due (fun _ => 50000000000) crowdedPeer (d.rowsOf crowdedPeer) (d.sentOf crowdedPeer) d d'
      ∧ picked due (d.sentOf crowdedPeer) .control d.node (d.rowsOf crowdedPeer)
        = [crowdedRow 1 typeMsg [104, 105]]
      ∧ picked due (d.sentOf crowdedPeer) .bulk d.node (d.rowsOf crowdedPeer)
        = [crowdedRow 3 typeFile [1]]
      ∧ d'.node.control.length = controlCap ∧ d'.node.bulk.length = 1 := by
  intro C d d' due
  obtain ⟨large, hlarge⟩ : ∃ large : Bytes, large = List.replicate 65536 0 := ⟨_, rfl⟩
  have hlong : ¬ large.length ≤ maxPayloadSize := by
    rw [hlarge, List.length_replicate]
    decide
  have hd : d = crowded large := by rw [hlarge]
  clear_value d
  subst hd
  have hmtu : ∀ r ∈ (crowded large).db.outbox, r.peer = crowdedPeer →
      r.payload.length ≤ maxPayloadSize → envelopeHeaderSize + r.payload.length ≤ C.mtu := by
    intro r _ _ hlen
    exact Nat.add_le_add_left hlen _
  have hblocked : ¬ (crowded []).isBlocked crowdedPeer := by decide
  have hknown : crowdedPeer ∈ (crowded []).boxes := by decide
  have hflushed := flushPeer_flushed C 50000000000 (fun _ => 50000000000) (d := crowded large)
    (by decide) hblocked hknown hmtu
  have hskip : ∀ ch, goesTo due ((crowded large).sentOf crowdedPeer) ch
      (crowdedRow 4 typeFile large) = false := fun ch => by
    simp [goesTo, crowdedRow, hlong]
  have hcontrol : picked due ((crowded large).sentOf crowdedPeer) .control (crowded large).node
      ((crowded large).rowsOf crowdedPeer) = [crowdedRow 1 typeMsg [104, 105]] := by
    rw [rowsOf_crowded]
    unfold picked
    simp only [List.filter_cons, hskip]
    rfl
  have hbulk : picked due ((crowded large).sentOf crowdedPeer) .bulk (crowded large).node
      ((crowded large).rowsOf crowdedPeer) = [crowdedRow 3 typeFile [1]] := by
    rw [rowsOf_crowded]
    unfold picked
    simp only [List.filter_cons, hskip]
    rfl
  refine ⟨hflushed, hcontrol, hbulk, ?_, ?_⟩
  · obtain ⟨new, hnew, hcarries⟩ := hflushed.packets .control
    have hone := hcarries.length_eq
    rw [hcontrol] at hone
    rw [show d'.node.control = _ from hnew, List.length_append, ← hone]
    rfl
  · obtain ⟨new, hnew, hcarries⟩ := hflushed.packets .bulk
    have hone := hcarries.length_eq
    rw [hbulk] at hone
    rw [show d'.node.bulk = _ from hnew, List.length_append, ← hone]
    rfl

end Daemon

end Aimless
