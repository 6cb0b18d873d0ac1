import Aimless.Lib.JsonText
import Aimless.Proofs.ChunkSize
import Aimless.Proofs.Fanout
import Aimless.Proofs.Seal
import Aimless.Proofs.CatchUp
import Aimless.Proofs.Sendable

/-!
# A room message from sender to members

`send_room` queues a row for every other member.  The row's packet makes the member's daemon
announce one event, and a client that handles the event files the text under the room, with the time
and the roster that the sender gave: the same roster at every member (`room_text_arrives`).  A text
is filed under the sender's node and its seq, and where the store has a message of that id already,
it keeps that one.
-/

namespace Aimless

open Python (Str Exc Json Dict)

/-! ### What is queued -/

namespace Daemon

variable {d d' : Daemon} {fault : Option SendFault} {typ : EnvelopeType} {now : ℤ}
  {dest payload : Text} {bytes : Bytes}

/-- A send that succeeds queues its row behind the others. -/
theorem Numbered.sendAs_row (h : d.Numbered) {key : PublicKey} {seq : UInt64}
    (hsend : d.sendAs typ now key bytes = (.ok seq, d')) :
    d'.Numbered ∧ seq.toNat < 2 ^ 63
      ∧ d'.db.outbox = d.db.outbox ++ [queuedRow typ now key seq bytes] := by
  have hnum := (h.sendAs typ now key bytes).1
  rw [hsend] at hnum
  refine ⟨hnum, ?_⟩
  unfold Daemon.sendAs at hsend
  rcases hbegin : d.beginSend key with ⟨e | seq', d₁⟩
  · rw [hbegin] at hsend
    cases hsend
  rw [hbegin] at hsend
  cases hsend
  obtain ⟨hnext, hd₁, -⟩ := beginSend_ok hbegin
  obtain ⟨hlt, hseq, -⟩ := OutboxJournal.nextSeq_some hnext
  obtain ⟨rows, hrows⟩ := OutboxJournal.nextSeq_outboxSeq d.db key
  have hout : d₁.db.outbox = d.db.outbox := by
    rw [hd₁]
    simp only [hrows]
  have hto : seq.toNat = OutboxJournal.counter d.db key := by
    rw [hseq, UInt64.toNat_ofNat_of_lt' (lt_trans hlt (by decide))]
  have hfresh : ∀ r ∈ d.db.outbox, ¬ (r.peer = key ∧ r.seq = seq.toInt64) := by
    rintro r hr ⟨hp, hs⟩
    have hpast := h r hr
    rw [hp, hs, UInt64.toUInt64_toInt64] at hpast
    omega
  refine ⟨hto ▸ hlt, ?_⟩
  simp only [finishSend, OutboxJournal.queueAs, hout, queuedRow]
  rw [List.filter_eq_self.2 fun r hr => decide_eq_true (hfresh r hr)]

/-- A request that is answered with a seq. -/
theorem Numbered.answerSend_row (h : d.Numbered) {seq : UInt64}
    (hpay : Base64.decode payload = some bytes)
    (hreply : replySeq (d.answerSend fault typ now dest payload).1 = .ok seq) :
    ∃ key, decodeKey dest = .ok key ∧ seq.toNat < 2 ^ 63
      ∧ (d.answerSend fault typ now dest payload).2.Numbered
      ∧ (d.answerSend fault typ now dest payload).2.db.outbox
        = d.db.outbox ++ [queuedRow typ now key seq bytes] := by
  have haccepted : ¬ d.RefusesSend fault dest := by
    intro hrefused
    obtain ⟨⟨e, he⟩, -⟩ := answerSend_refused typ now payload hrefused
    rw [he] at hreply
    cases hreply
  simp only [RefusesSend, not_forall, not_or, not_le, not_not] at haccepted
  obtain ⟨key, hkey, -, -, rfl⟩ := haccepted
  have hnum : (d.touchClient now).Numbered := h
  unfold answerSend at hreply ⊢
  simp only [hkey, hpay, sendOrFail_none] at hreply ⊢
  rcases hrun : (d.touchClient now).sendAs typ now key bytes with ⟨e | seq', d'⟩
  · rw [hrun] at hreply
    cases hreply
  · rw [hrun] at hreply
    cases hreply
    obtain ⟨hnum', hlt, hout⟩ := hnum.sendAs_row hrun
    exact ⟨key, rfl, hlt, hnum', hout⟩

end Daemon

/-- The row that is queued for a member. -/
structure QueuedFor (typ : EnvelopeType) (sealFor : ℕ → RoomMember → Except Exc Str)
    (p : RoomMember × ℕ) (row : OutboxRow) : Prop where
  peer : p.1.key = .ok row.peer
  type : row.type = typ
  seq : row.seq.toUInt64.toNat < 2 ^ 63
  payload : sealFor p.2 p.1 = .ok (Python.str (Base64.encode row.payload))

/-- A fan-out that returns has queued a row for each of the members, in their order. -/
theorem fanOut_queued {E : RoomEnv} {typ : EnvelopeType}
    {sealFor : ℕ → RoomMember → Except Exc Str} {myNode : Str} (hseal : SealsBase64 sealFor) :
    ∀ (l : List (RoomMember × ℕ)) (seqs : List (Str × Json)) {seqs' : List (Str × Json)}
      {d d' : Daemon}, d.Numbered → (∀ p ∈ l, p.1.node ≠ myNode) →
      fanOut E typ sealFor myNode l seqs d = (.ok seqs', d') →
      ∃ rows, d'.db.outbox = d.db.outbox ++ rows
        ∧ List.Forall₂ (QueuedFor typ sealFor) l rows
  | [], _, _, _, _, _, _, h => by
    cases h
    exact ⟨[], (List.append_nil _).symm, .nil⟩
  | (m, i) :: rest, seqs, seqs', d, d', hd, hl, h => by
    obtain ⟨hm, hrest⟩ := List.forall_mem_cons.1 hl
    rw [fanOut, if_neg hm] at h
    cases hp : sealFor i m with
    | error e =>
      rw [hp] at h
      cases h
    | ok payload =>
      obtain ⟨box, rfl⟩ := hseal i m payload hp
      have hdecode : Base64.decode (goText (Python.str (Base64.encode box))) = some box := by
        rw [goText_str, Base64.decode_encode]
      simp only [hp] at h
      split at h
      · cases h
      rename_i seq hseq
      obtain ⟨key, hkey, hlt, hnum, hout⟩ := hd.answerSend_row hdecode hseq
      obtain ⟨rows, hrows, hall⟩ := fanOut_queued hseal rest _ hnum hrest h
      refine ⟨Daemon.queuedRow typ (E.now i) key seq box :: rows,
        by rw [hrows, hout, List.append_assoc]; rfl, .cons ⟨hkey, rfl, ?_, hp⟩ hall⟩
      show seq.toInt64.toUInt64.toNat < 2 ^ 63
      rw [UInt64.toUInt64_toInt64]
      exact hlt

/-! ### What a member's client reads -/

/-- The roster that a room message gives its reader. -/
def roomRoster (members : List RoomMember) : Dict :=
  members.foldl (fun d m => d.set (.str m.node) m.toJson.sortKeys) []

/-- A room message as it is opened. -/
def openedRoom (S : Sealer) (members : List RoomMember) (screenName conv text : Str) (ts : ℤ) :
    Opened :=
  ⟨senderKey S, .str text, .int ts, ((some screenName).filter (· ≠ [])).map Json.str,
    some (.str conv), some (.arr (members.map fun m => m.toJson.sortKeys))⟩

theorem RoomMember.toJson_proper (m : RoomMember) : m.toJson.Proper := by
  unfold RoomMember.toJson
  rw [Json.proper_obj]
  exact ⟨by simp only [List.map_cons, List.map_nil]; decide, by simp [Json.Proper]⟩

/-- A message as it is opened. -/
def openedText (S : Sealer) (text : Str) (ts : ℤ) (screen conv : Option Str)
    (members : Option Json) : Opened :=
  ⟨senderKey S, .str text, .int ts, (screen.filter (· ≠ [])).map Json.str, conv.map Json.str,
    members.map Json.sortKeys⟩

theorem open_sealMessage {K : Str → Bool} {S : Sealer} {L : Libs} {buddy : Str}
    (H : Ideal K S L buddy)
    {ephemeral : Bytes} {text payload : Str} {ts : ℤ} {screen conv : Option Str}
    {members : Option Json} (hm : ∀ v ∈ members, v.Proper)
    (hk : (Json.obj (messageBody text ts screen conv members)).allStr K = true)
    (h : sealMessage S ephemeral buddy text ts screen conv members = .ok payload) :
    openMessage L payload = .ok (openedText S text ts screen conv members) := by
  have hp := messageBody_proper text ts screen conv hm
  unfold sealMessage at h
  obtain ⟨box, hbox, h⟩ := Python.bind_eq_ok.1 h
  cases h
  obtain ⟨htext, hts, hscreen, hconv, hmembers, -⟩ :=
    get?_messageBody text ts screen conv members
  refine openMessage_eq_ok.2
    ⟨box, _, Python.b64decode_encode box, openSealed_sealBody H hp hk hbox, ?_⟩
  simp only [get?_opened hp, htext, hts, hscreen, hconv, hmembers, Option.map_some, Option.map_map,
    Json.sortKeys, Function.comp_def, openedText, and_self]

theorem roster_proper (members : List RoomMember) :
    (Json.arr (members.map RoomMember.toJson)).Proper := by
  rw [Json.proper_arr]
  intro v hv
  obtain ⟨m, -, rfl⟩ := List.mem_map.1 hv
  exact m.toJson_proper

/-- The body of a room message. -/
def roomBody (members : List RoomMember) (screenName conv text : Str) (ts : ℤ) : List (Str × Json) :=
  messageBody text ts (some screenName) (some conv) (some (.arr (members.map RoomMember.toJson)))

theorem open_sealRoom {K : Str → Bool} {S : Sealer} {L : Libs} {buddy : Str} (H : Ideal K S L buddy)
    {ephemeral : Bytes} {members : List RoomMember} {screenName conv text payload : Str} {ts : ℤ}
    (hk : (Json.obj (roomBody members screenName conv text ts)).allStr K = true)
    (h : sealMessage S ephemeral buddy text ts (some screenName) (some conv)
      (some (.arr (members.map RoomMember.toJson))) = .ok payload) :
    openMessage L payload = .ok (openedRoom S members screenName conv text ts) := by
  have hm : ∀ v ∈ some (Json.arr (members.map RoomMember.toJson)), v.Proper := by
    rintro v ⟨rfl⟩
    exact roster_proper members
  rw [open_sealMessage H hm hk h]
  simp only [openedText, openedRoom, Option.map_some, Json.sortKeys, Json.sortItems_eq,
    List.map_map, Function.comp_def]

theorem memberNode_toJson (m : RoomMember) :
    Sync.memberNode m.toJson.sortKeys = .ok (.str m.node) := by
  have hp := Json.proper_obj.1 m.toJson_proper
  unfold RoomMember.toJson at hp ⊢
  rw [Json.sortKeys_obj]
  have hnode : Python.getItem (Json.sorted [(Field.node, .str m.node),
      (Field.pubkey, .str m.pubkey), (Field.screen, .str m.screen)]) Field.node
        = .ok (.str m.node) := by
    unfold Python.getItem
    rw [Python.get?_sorted hp.1]
    simp [Python.get?, Json.sortKeys]
  simp only [Sync.memberNode, hnode, bind, Except.bind]
  rfl

theorem rosterOf_room : ∀ (members : List RoomMember) (d : Dict),
    Sync.rosterOf (members.map fun m => m.toJson.sortKeys) d
      = .ok (members.foldl (fun d m => d.set (.str m.node) m.toJson.sortKeys) d)
  | [], _ => rfl
  | m :: members, d => by
    rw [List.map_cons, Sync.rosterOf, memberNode_toJson]
    exact rosterOf_room members _

/-! ### What a member's client files -/

/-- The conversation is a room with the given roster, and is shown. -/
def Store.IsRoom (st : Store) (conv roster : Str) : Prop :=
  (∃ c ∈ st.conversations, c.id = some conv)
    ∧ ∀ c ∈ st.conversations, c.id = some conv →
      c.dm = false ∧ c.hidden = false ∧ c.members = roster

/-- The row of a text. -/
def textRow (node : Text) (seq : ℕ) (conv text : Str) (ts : ℤ) : Message :=
  ⟨messageId node seq, conv, Python.str node, .incoming, .int ts, seq, [(Python.str node, seq)],
    some text, none⟩

/-- `st'` is `st` after the text: its row is there unless the id was taken, and then, as before, the
message is that had the id. -/
structure FiledUnder (st : Store) (node : Text) (seq : ℕ) (conv text : Str) (ts : ℤ) (roster : Str)
    (st' : Store) : Prop where
  message : st'.messages = Store.addRow st.messages (some (textRow node seq conv text ts))
  filed : (∀ m ∈ st.messages, m.id ≠ messageId node seq) →
    textRow node seq conv text ts ∈ st'.messages
  kept : st.messages ⊆ st'.messages
  room : st'.IsRoom conv roster
  cursor : st'.cursor node = max (st.cursor node) seq

namespace Store

variable {L : Libs} {st : Store} {conv roster : Str} {d : Dict}

/-- A row whose id is free is added. -/
theorem mem_addRow_of_free {l : List Message} {m : Message} (h : ∀ x ∈ l, x.id ≠ m.id) :
    m ∈ addRow l (some m) := by
  obtain ⟨x, hx, hid, -⟩ := exists_mem_addRow l m
  rcases mem_addRow hx with hold | hnew
  · exact absurd hid (h x hold)
  · cases hnew
    exact hx

theorem ensureRoom_isRoom (st : Store) (hd : L.dumps d = .ok roster)
    (hconv : Python.encodable conv = true) :
    ∃ st', st.ensureRoom L (.str conv) d = (.ok (), st') ∧ SameMail st st'
      ∧ st'.IsRoom conv roster := by
  unfold ensureRoom
  simp only [hd, bindValue, hconv, if_true, SqlVal.toText]
  by_cases hhas : st.hasConv (some conv)
  · simp only [hhas, if_true]
    obtain ⟨c, hc, hid⟩ : ∃ c ∈ st.conversations, c.id = some conv := by
      simpa [hasConv] using hhas
    refine ⟨_, rfl, ⟨rfl, rfl⟩, ⟨_, List.mem_map_of_mem hc, by simp [hid]⟩, fun c' hc' hid' => ?_⟩
    obtain ⟨x, -, rfl⟩ := List.mem_map.1 hc'
    by_cases hx : x.id = some conv
    · simp [hx]
    · simp only [hx, if_false] at hid'
  · simp only [hhas]
    refine ⟨_, rfl, ⟨rfl, rfl⟩, ⟨_, List.mem_append_right _ (List.mem_singleton_self _), rfl⟩,
      fun c' hc' hid' => ?_⟩
    rcases List.mem_append.1 hc' with hc' | hc'
    · exact absurd (by simpa [hasConv] using ⟨c', hc', hid'⟩) hhas
    · rw [List.mem_singleton.1 hc']
      exact ⟨rfl, rfl, rfl⟩

theorem IsRoom.hasConv (h : st.IsRoom conv roster) : st.hasConv (some conv) = true := by
  obtain ⟨c, hc, hid⟩ := h.1
  simpa [Store.hasConv] using ⟨c, hc, hid⟩

theorem IsRoom.insertMessage (h : st.IsRoom conv roster) (m : Message) :
    (st.insertMessage m).2.IsRoom conv roster := by
  unfold Store.insertMessage
  dsimp only
  split
  · exact h
  obtain ⟨⟨c, hc, hid⟩, hall⟩ := h
  refine ⟨⟨_, List.mem_map_of_mem hc, ?_⟩, fun c' hc' hid' => ?_⟩
  · split <;> exact hid
  · obtain ⟨x, hx, rfl⟩ := List.mem_map.1 hc'
    split at hid' <;> rename_i hconv
    · have hroom := hall x hx hid'
      rw [if_pos hconv]
      exact ⟨hroom.1, rfl, hroom.2.2⟩
    · rw [if_neg hconv]
      exact hall x hx hid'

/-- A text goes into a room that is there. -/
theorem IsRoom.ingest (h : st.IsRoom conv roster) (node : Text) {seq : ℕ} {ts : ℤ} {text : Str}
    (hconv : Python.encodable conv = true) (htext : Python.encodable text = true)
    (hts : -2 ^ 63 ≤ ts ∧ ts < 2 ^ 63) (hseq : seq < 2 ^ 63) :
    ∃ isNew st', st.ingest L (.str conv) node seq (.int ts) (.str text) = (.ok isNew, st')
      ∧ st'.messages = addRow st.messages (some (textRow node seq conv text ts))
      ∧ st'.watermark = st.watermark ∧ st'.IsRoom conv roster := by
  have hrow : incomingRow L (.str conv) node seq (.int ts) (.str text) none
      = .ok (some (textRow node seq conv text ts)) := by
    refine incomingRow_eq_ok.2 ⟨some text, .text conv, .int ts, ?_, ?_, ?_, hseq, ?_⟩
    · simp only [enc, htext, if_true]
    · simp only [bindValue, hconv, if_true]
    · simp only [bindValue, hts, and_self, if_true]
    · simp [rowOf, SqlVal.toText, textRow]
  have hensure : st.ensureConv L (.str conv) ((Json.str conv).eqStr (Python.str node))
      = (.ok (), st) := by
    unfold ensureConv
    simp only [bindValue, hconv, if_true, SqlVal.toText, h.hasConv]
  unfold Store.ingest
  simp only [hensure, hrow]
  exact ⟨_, _, rfl, insertMessage_messages st _, insertMessage_watermark st _, h.insertMessage _⟩

end Store

theorem FiledUnder.of_messages {st st' : Store} {node : Text} {seq : ℕ} {conv text : Str} {ts : ℤ}
    {roster : Str}
    (h : st'.messages = Store.addRow st.messages (some (textRow node seq conv text ts)))
    (hroom : st'.IsRoom conv roster) (hcursor : st'.cursor node = max (st.cursor node) seq) :
    FiledUnder st node seq conv text ts roster st' where
  message := h
  filed hfree := h ▸ Store.mem_addRow_of_free hfree
  kept := h ▸ Store.subset_addRow _ _
  room := hroom
  cursor := hcursor

namespace Sync

variable {S : Sealer} {L : Libs} {st : Store} {node : Text} {seq : ℕ} {members : List RoomMember}
  {screenName conv text roster : Str} {ts : ℤ}

/-- A room message is filed under its room. -/
theorem route_room (hne : members ≠ []) (hconv : conv ≠ []) (henc : Python.encodable conv = true)
    (htext : Python.encodable text = true) (hts : -2 ^ 63 ≤ ts ∧ ts < 2 ^ 63) (hseq : seq < 2 ^ 63)
    (hdumps : L.dumps (roomRoster members) = .ok roster) :
    ∃ isNew st', route L st node seq (openedRoom S members screenName conv text ts)
        = (.ok (.str conv, isNew), st')
      ∧ st'.messages = Store.addRow st.messages (some (textRow node seq conv text ts))
      ∧ st'.watermark = st.watermark ∧ st'.IsRoom conv roster := by
  have hconvOf : convOf node (openedRoom S members screenName conv text ts) = .str conv := by
    simp [convOf, openedRoom, Json.truthy, hconv]
  have hroster : Sync.roster (openedRoom S members screenName conv text ts)
      = .ok (some (roomRoster members)) := by
    have hrosterOf := rosterOf_room members []
    simp only [Sync.roster, openedRoom, Json.truthy, List.isEmpty_map]
    rw [List.isEmpty_eq_false_iff.2 hne]
    simp only [Bool.not_false, if_true, hrosterOf]
    rfl
  obtain ⟨st₁, hensure, ⟨hmail, hmark⟩, hroom⟩ :=
    Store.ensureRoom_isRoom st hdumps henc
  obtain ⟨isNew, st₂, hingest, hmessages, hwatermark, hroom₂⟩ :=
    hroom.ingest (L := L) node henc htext hts hseq
  refine ⟨isNew, st₂, ?_, hmessages.trans (by rw [hmail]), hwatermark.trans hmark, hroom₂⟩
  unfold route
  simp only [hconvOf, hroster, ensureMembers, hensure]
  simp only [openedRoom, hingest]

/-- The live event of a room message. -/
theorem onEvent_room (st : Store) {a : PublicKey} {payload : Bytes} {ev : RecvEvent}
    (ha : Hex.encode a ≠ [])
    (hsender : ev.sender = some (Hex.encode a)) (hev : ev.seqOrZero = seq)
    (hpayload : ev.payload = some (Base64.encode payload))
    (hopen : openMessage L (Python.str (Base64.encode payload))
      = .ok (openedRoom S members screenName conv text ts))
    (hne : members ≠ []) (hconv : conv ≠ []) (henc : Python.encodable conv = true)
    (htext : Python.encodable text = true) (hts : -2 ^ 63 ≤ ts ∧ ts < 2 ^ 63) (hseq : seq < 2 ^ 63)
    (hdumps : L.dumps (roomRoster members) = .ok roster) :
    ∃ isNew st', onEvent L st ev = (.ok (some (.str conv), isNew), st')
      ∧ FiledUnder st (Hex.encode a) seq conv text ts roster st' := by
  obtain ⟨isNew, st₁, hroute, hmessages, hmark, hroom⟩ :
      ∃ isNew st', route L st (Hex.encode a) seq (openedRoom S members screenName conv text ts)
          = (.ok (.str conv, isNew), st')
        ∧ st'.messages = Store.addRow st.messages (some (textRow (Hex.encode a) seq conv text ts))
        ∧ st'.watermark = st.watermark ∧ st'.IsRoom conv roster :=
    route_room hne hconv henc htext hts hseq hdumps
  have hcursor : st₁.cursor (Hex.encode a) = st.cursor (Hex.encode a) :=
    Store.cursor_congr hmark _
  unfold onEvent
  rw [hsender, hpayload]
  simp only [ha, if_false, hopen, ingestOpened, hev, hroute, hcursor]
  by_cases hlt : st.cursor (Hex.encode a) < seq
  · obtain ⟨st₂, hset, hm₂, hc₂⟩ := Store.setCursor_of_lt st₁ (Hex.encode a) hseq
    have hroom₂ : st₂.IsRoom conv roster := by
      unfold Store.setCursor at hset
      rw [dif_pos hseq] at hset
      cases hset
      exact hroom
    simp only [hlt, if_true, hset]
    exact ⟨_, _, rfl, .of_messages (hm₂.trans hmessages) hroom₂ (by rw [hc₂, hcursor])⟩
  · simp only [hlt, if_false]
    exact ⟨_, _, rfl, .of_messages hmessages hroom (by rw [hcursor, max_eq_left (not_lt.1 hlt)])⟩

end Sync

/-! ### From the sender's outbox to a member's store -/

/-- The daemon has a message of the peer under the seq, or remembers that it had one. -/
def Daemon.Knows (e : Daemon) (a : PublicKey) (seq : Int64) : Prop :=
  (∃ r ∈ e.db.inbox, r.peer = a ∧ r.seq = seq) ∨ ∃ r ∈ e.db.inboxSeen, r.peer = a ∧ r.seq = seq

/-- The packet of a row, at a daemon that does not know its seq yet: one event, and whoever can open
the boxes for `buddy` files it under the room. -/
def ArrivesAt (S : Sealer) (members : List RoomMember) (screenName conv text : Str) (ts : ℤ)
    (buddy : Str) (row : OutboxRow) : Prop :=
  ∀ (K : Str → Bool) (L : Libs) (roster : Str) (C : Config) (now : ℤ) (e : Daemon) (a : PublicKey)
    (data : Bytes) (st : Store), Ideal K S L buddy →
    (Json.obj (roomBody members screenName conv text ts)).allStr K = true →
    L.dumps (roomRoster members) = .ok roster →
    a.length = publicKeySize → ¬ e.isBlocked a → ¬ e.Knows a row.seq →
    (Daemon.rowEnvelope row).encode = .ok data →
    ∃ event ev isNew st', (e.handlePacket C now a data).2 = [event] ∧ event.toRecv = some ev
      ∧ Sync.onEvent L st ev = (.ok (some (.str conv), isNew), st')
      ∧ FiledUnder st (Hex.encode a) row.seq.toUInt64.toNat conv text ts roster st'

theorem Daemon.handlePacket_announces {C : Config} {now : ℤ} {e : Daemon} {a : PublicKey}
    {data : Bytes} {env : Envelope} (hb : ¬ e.isBlocked a) (hk : ¬ e.Knows a env.seq.toInt64)
    (he : decodeEnvelope data = .ok env) (ht : env.type = typeMsg) :
    (e.handlePacket C now a data).2 = [.recv a env.seq env.ts env.payload] := by
  obtain ⟨hinbox, hseen⟩ := not_or.1 hk
  have hadd : ((inboxOf C a).add e.db env.seq env.ts env.payload).1 = true := by
    unfold InboxStore.add
    rw [if_neg, if_neg]
    · rw [List.any_eq_true]
      rintro ⟨r, hr, hp⟩
      exact hseen ⟨r, hr, of_decide_eq_true hp⟩
    · rw [List.any_eq_true]
      rintro ⟨r, hr, hp⟩
      exact hinbox ⟨r, hr, of_decide_eq_true hp⟩
  have hne : ¬ env.type = typeFile := by
    rw [ht]
    decide
  unfold handlePacket
  simp only [hb, he, if_neg hne, if_pos ht, boxFor_db]
  exact if_pos hadd

theorem QueuedFor.arrives {S : Sealer} {E : RoomEnv} {members : List RoomMember}
    {screenName conv text : Str} {ts : ℤ} (hne : members ≠ []) (hconv : conv ≠ [])
    (henc : Python.encodable conv = true) (htext : Python.encodable text = true)
    (hts : -2 ^ 63 ≤ ts ∧ ts < 2 ^ 63) {p : RoomMember × ℕ} {row : OutboxRow}
    (h : QueuedFor typeMsg (fun i m => sealMessage S (E.ephemeral i) m.pubkey text ts
      (some screenName) (some conv) (some (.arr (members.map RoomMember.toJson)))) p row) :
    ArrivesAt S members screenName conv text ts p.1.pubkey row := by
  intro K L roster C now e a data st H hkept hdumps ha hb hk hdata
  have hopen := open_sealRoom H hkept h.payload
  have hdec := Envelope.decode_of_encode (e := Daemon.rowEnvelope row) rfl hdata
  have hnil : row.payload ≠ [] := by
    intro hnil
    rw [hnil] at hopen
    exact Desk.Inv.openMessage_nil L _ hopen
  obtain ⟨ev, hto, hsender, hseq, hpayload⟩ :=
    Desk.Inv.recvEvent_fields a row.seq.toUInt64 row.ts row.payload
  rw [if_neg hnil] at hpayload
  obtain ⟨isNew, st', hrun, hfiled⟩ := Sync.onEvent_room st (Desk.Inv.encode_ne_nil ha) hsender
    hseq hpayload hopen hne hconv henc htext hts h.seq hdumps
  refine ⟨_, ev, isNew, st', Daemon.handlePacket_announces hb ?_ hdec h.type, hto, hrun, hfiled⟩
  exact hk

/-- `send_room`, once it returns, has queued a row for every other member, and each row that gets
through is filed by its member under the room, with the sender's text, time and roster. -/
theorem room_text_arrives (C : Config) (ops : List Op) (S : Sealer) (E : RoomEnv)
    (screenName self : Str) (members : List RoomMember) (conv text : Str) (ts : ℤ)
    {seqs : List (Str × Json)} {d' : Daemon} (hconv : conv ≠ [])
    (henc : Python.encodable conv = true) (htext : Python.encodable text = true)
    (hts : -2 ^ 63 ≤ ts ∧ ts < 2 ^ 63)
    (h : sendRoom S E screenName (.ok self) members conv text ts (({} : Daemon).run C ops).1
      = (.ok seqs, d')) :
    ∃ rows, d'.db.outbox = (({} : Daemon).run C ops).1.db.outbox ++ rows
      ∧ List.Forall₂ (fun p row => p.1.key = .ok row.peer ∧ row.type = typeMsg
        ∧ ArrivesAt S members screenName conv text ts p.1.pubkey row) (others self members) rows := by
  have hd : (({} : Daemon).run C ops).1.Numbered := Daemon.Numbered.run ops fun r hr => by cases hr
  have hl : ∀ p ∈ others self members, p.1.node ≠ self := fun p hp => by
    simpa using (List.mem_filter.1 hp).2
  unfold sendRoom at h
  dsimp only at h
  rw [fanOut_others] at h
  obtain ⟨rows, hout, hall⟩ :=
    fanOut_queued (sealMessage_base64 text conv screenName ts members) _ _ hd hl h
  refine ⟨rows, hout, ?_⟩
  by_cases hne : members = []
  · subst hne
    cases hall
    exact .nil
  · exact hall.imp fun p row hq => ⟨hq.peer, hq.type, hq.arrives hne hconv henc htext hts⟩

section Hello

/-- Two members with one identity key. -/
def helloMembers : List RoomMember :=
  [⟨Python.str (Hex.encode (List.replicate 32 1)), Python.str (Hex.encode nines), []⟩,
    ⟨Python.str (Hex.encode (List.replicate 32 2)), Python.str (Hex.encode nines), []⟩]

def helloLibs : Libs := plainLibs fun _ => List.replicate 32 0

def helloConfig : Config := ⟨1, 0, 0, 0, 65535⟩

/-- The greeting, sent by the first member. -/
def helloSent : Except RoomError (List (Str × Json)) × Daemon :=
  sendRoom plainSealer steadyEnv [] (.ok (Python.str (Hex.encode (List.replicate 32 1))))
    helloMembers (Python.str ['r']) (Python.str ['h', 'i']) 5 (({} : Daemon).run helloConfig []).1

/-- The greeting arrives at the second member. -/
theorem room_text_arrives_hello : ∃ row data event ev isNew st' roster,
    helloSent.2.db.outbox = [row] ∧ (Daemon.rowEnvelope row).encode = .ok data
      ∧ (({} : Daemon).handlePacket helloConfig 0 (List.replicate 32 1) data).2 = [event]
      ∧ event.toRecv = some ev
      ∧ Sync.onEvent helloLibs {} ev = (.ok (some (.str (Python.str ['r'])), isNew), st')
      ∧ FiledUnder {} (Hex.encode (List.replicate 32 1)) row.seq.toUInt64.toNat (Python.str ['r'])
        (Python.str ['h', 'i']) 5 roster st' := by
  have hsent : helloSent.1.toOption.isSome = true := by decide +kernel
  have hsize : helloSent.2.db.outbox.all (fun r => r.payload.length ≤ maxPayloadSize) = true := by
    decide +kernel
  have hkept : (Json.obj (roomBody helloMembers [] (Python.str ['r']) (Python.str ['h', 'i'])
      5)).allStr Python.joined = true := by decide +kernel
  obtain ⟨roster, hroster⟩ : ∃ roster, helloLibs.dumps (roomRoster helloMembers) = .ok roster := by
    have hok : (helloLibs.dumps (roomRoster helloMembers)).toOption.isSome = true := by
      decide +kernel
    cases h : helloLibs.dumps (roomRoster helloMembers) with
    | ok roster => exact ⟨roster, rfl⟩
    | error e =>
      rw [h] at hok
      cases hok
  rcases hrun : helloSent with ⟨e | seqs, d'⟩
  · rw [hrun] at hsent
    cases hsent
  rw [hrun] at hsize
  obtain ⟨rows, hout, hall⟩ := room_text_arrives helloConfig [] plainSealer steadyEnv []
    (Python.str (Hex.encode (List.replicate 32 1))) helloMembers (Python.str ['r'])
    (Python.str ['h', 'i']) 5 (by decide) (by decide) (by decide) (by decide) hrun
  have hothers : others (Python.str (Hex.encode (List.replicate 32 1))) helloMembers
      = [(⟨Python.str (Hex.encode (List.replicate 32 2)), Python.str (Hex.encode nines), []⟩,
        1)] := by
    decide +kernel
  rw [hothers] at hall
  obtain _ | @⟨_, row, _, _, ⟨-, -, harrives⟩, hnone⟩ := hall
  cases hnone
  have hrow : d'.db.outbox = [row] := hout
  rw [hrow] at hsize
  have hlen : row.payload.length ≤ maxPayloadSize := by simpa using hsize
  obtain ⟨event, ev, isNew, st', hevents, hto, hfile, hfiled⟩ := harrives Python.joined helloLibs
    roster helloConfig 0 {} (List.replicate 32 1) _ {} (plain_ideal _ nines) hkept hroster rfl
    (by simp [Daemon.isBlocked]) (by simp [Daemon.Knows]) (Envelope.encode_ok hlen)
  exact ⟨row, _, event, ev, isNew, st', roster, hrow, Envelope.encode_ok hlen, hevents, hto, hfile,
    hfiled⟩

end Hello

end Aimless
