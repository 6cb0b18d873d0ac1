import Aimless.Api
import Aimless.Proofs.Envelope

/-!
# What the daemon's operations can do

One lemma for each function that sends or handles a packet, saying everything it may change.  Later
proofs go by these and do not unfold the functions.
-/

namespace Aimless

theorem enqueue_ok {mtu cap : ℕ} {q q' : List Outbound} {pub : PublicKey} {payload : Bytes} :
    enqueue mtu cap q pub payload = .ok q' ↔ pub.length = publicKeySize ∧ payload.length ≤ mtu
      ∧ q.length < cap ∧ q' = q ++ [⟨pub, payload⟩] := by
  unfold enqueue
  split_ifs with h1 h2 h3
  · simp [h1]
  · simp [h2]
  · simp only [Except.ok.injEq, not_not.1 h1, not_lt.1 h2, h3, true_and, eq_comm]
  · simp [h3]

theorem Except.map_ok_iff {ε α β : Type*} {x : Except ε α} {f : α → β} {b : β} :
    x.map f = .ok b ↔ ∃ a, x = .ok a ∧ f a = b := by
  cases x <;> simp [Except.map]

namespace Node

variable {mtu : ℕ} {n n' : Node} {pub : PublicKey} {payload : Bytes}

theorem send_ok : n.send mtu pub payload = .ok n' ↔ pub.length = publicKeySize
    ∧ payload.length ≤ mtu ∧ n.control.length < controlCap
    ∧ n' = { n with control := n.control ++ [⟨pub, payload⟩] } := by
  unfold send
  simp only [Except.map_ok_iff, enqueue_ok]
  constructor
  · rintro ⟨q, ⟨h1, h2, h3, rfl⟩, rfl⟩
    exact ⟨h1, h2, h3, rfl⟩
  · rintro ⟨h1, h2, h3, rfl⟩
    exact ⟨_, ⟨h1, h2, h3, rfl⟩, rfl⟩

theorem sendBulk_ok : n.sendBulk mtu pub payload = .ok n' ↔ pub.length = publicKeySize
    ∧ payload.length ≤ mtu ∧ n.bulk.length < bulkCap
    ∧ n' = { n with bulk := n.bulk ++ [⟨pub, payload⟩] } := by
  unfold sendBulk
  simp only [Except.map_ok_iff, enqueue_ok]
  constructor
  · rintro ⟨q, ⟨h1, h2, h3, rfl⟩, rfl⟩
    exact ⟨h1, h2, h3, rfl⟩
  · rintro ⟨h1, h2, h3, rfl⟩
    exact ⟨_, ⟨h1, h2, h3, rfl⟩, rfl⟩

end Node

namespace AttachmentStore

variable (as : AttachmentStore)

theorem makeRoomLoop_attach (need : ℕ) (exclude : Text) : ∀ (rounds : ℕ) (db : DB) {db' : DB},
    as.makeRoomLoop need exclude rounds db = some db' → ∃ rows, db' = { db with attach := rows }
  | 0, db, db', h => by
    unfold makeRoomLoop at h
    split_ifs at h
    exact ⟨db.attach, (Option.some.inj h).symm⟩
  | rounds + 1, db, db', h => by
    unfold makeRoomLoop at h
    dsimp only at h
    split_ifs at h
    · obtain ⟨rows, rfl⟩ := makeRoomLoop_attach need exclude rounds _ h
      exact ⟨rows, rfl⟩
    · exact ⟨db.attach, (Option.some.inj h).symm⟩

/-- The store writes no table but its own. -/
theorem add_attach {db db' : DB} {tid : Text} {index total : UInt16} {seq : UInt64} {ts : Int64}
    {payload : Bytes} {isNew : Bool}
    (h : as.add db tid index total seq ts payload = some (isNew, db')) :
    ∃ rows, db' = { db with attach := rows } := by
  unfold add at h
  split_ifs at h
  · cases h
    exact ⟨db.attach, rfl⟩
  · obtain ⟨db₁, hroom, h'⟩ := Option.bind_eq_some_iff.1 h
    cases h'
    unfold makeRoomTx at hroom
    split_ifs at hroom
    obtain ⟨rows, rfl⟩ := as.makeRoomLoop_attach _ _ _ db hroom
    exact ⟨_, rfl⟩

end AttachmentStore

/-- The inbox writes its own three tables. -/
theorem InboxStore.add_tables (box : InboxStore) (db : DB) (seq : UInt64) (ts : Int64)
    (payload : Bytes) : ∃ inbox seen state, (box.add db seq ts payload).2
      = { db with inbox := inbox, inboxSeen := seen, peerState := state } := by
  have hloop : ∀ (count : ℕ) (db : DB), ∃ inbox seen, box.evictLoop count db
      = { db with inbox := inbox, inboxSeen := seen } := by
    intro count
    induction count with
    | zero => exact fun db => ⟨_, _, rfl⟩
    | succ count ih =>
      intro db
      have hev : ∃ inbox seen, box.evictOldest db
          = { db with inbox := inbox, inboxSeen := seen } := by
        unfold evictOldest
        split <;> exact ⟨_, _, rfl⟩
      unfold evictLoop
      split_ifs
      · obtain ⟨i, s, h⟩ := hev
        obtain ⟨i', s', h'⟩ := ih (box.evictOldest db)
        exact ⟨i', s', by rw [h', h]⟩
      · exact ⟨_, _, rfl⟩
  unfold add
  split_ifs
  · exact ⟨_, _, _, rfl⟩
  · exact ⟨_, _, _, rfl⟩
  · obtain ⟨i, s, h⟩ := hloop
      (DB.inboxSeqs { db with inbox := db.inbox ++ [⟨box.peer, seq.toInt64, ts, payload⟩] }
        box.peer).length { db with inbox := db.inbox ++ [⟨box.peer, seq.toInt64, ts, payload⟩] }
    unfold trimTx
    rw [h]
    exact ⟨_, _, _, rfl⟩

theorem InboxStore.add_outbox (box : InboxStore) (db : DB) (seq : UInt64) (ts : Int64)
    (payload : Bytes) : (box.add db seq ts payload).2.outbox = db.outbox
      ∧ (box.add db seq ts payload).2.outboxSeq = db.outboxSeq := by
  obtain ⟨i, s, p, h⟩ := box.add_tables db seq ts payload
  rw [h]
  exact ⟨rfl, rfl⟩

theorem OutboxJournal.nextSeq_outboxSeq (db : DB) (peer : PublicKey) :
    ∃ rows, (OutboxJournal.nextSeq db peer).2 = { db with outboxSeq := rows } := by
  unfold OutboxJournal.nextSeq
  dsimp only
  split_ifs
  · exact ⟨_, rfl⟩
  · exact ⟨_, rfl⟩
  · exact ⟨_, rfl⟩

/-- A public key in hex is read as the key. -/
theorem decodeKey_encode {key : PublicKey} (h : key.length = publicKeySize) :
    decodeKey (Hex.encode key) = .ok key := by
  rw [decodeKey, Hex.decode_encode]
  simp [h]

namespace Daemon

variable {C : Config}

/-- The daemon with one more packet in its control queue. -/
def withControl (d : Daemon) (dest : PublicKey) (data : Bytes) : Daemon :=
  { d with node := { d.node with control := d.node.control ++ [⟨dest, data⟩] } }

/-- The daemon with one more packet in its bulk queue. -/
def withBulk (d : Daemon) (dest : PublicKey) (data : Bytes) : Daemon :=
  { d with node := { d.node with bulk := d.node.bulk ++ [⟨dest, data⟩] } }

section Send

variable (d : Daemon) (dest : PublicKey)

theorem sendControl_cases (env : Envelope) :
    (d.sendControl C dest env).2 = d
      ∨ ∃ data, env.encode = .ok data ∧ (d.sendControl C dest env).2 = d.withControl dest data := by
  unfold sendControl
  split
  · exact .inl rfl
  · rename_i data hdata
    split
    · exact .inl rfl
    · rename_i node hnode
      obtain ⟨-, -, -, rfl⟩ := Node.send_ok.1 hnode
      exact .inr ⟨data, hdata, rfl⟩

theorem sendAck_cases (seq : UInt64) :
    d.sendAck C dest seq = d
      ∨ ∃ data, encodeAck seq = .ok data ∧ d.sendAck C dest seq = d.withControl dest data := by
  unfold sendAck
  split
  · exact .inl rfl
  · rename_i data hdata
    split
    · exact .inl rfl
    · rename_i node hnode
      obtain ⟨-, -, -, rfl⟩ := Node.send_ok.1 hnode
      exact .inr ⟨data, hdata, rfl⟩

/-- A pending entry as the envelope it is sent as. -/
def envelopeOf (entry : JournalEntry) (payload : Bytes) : Envelope :=
  { version := envelopeVersion, type := entry.type, seq := entry.seq, ts := entry.ts, payload }

/-- An entry that is due, decodes and fits an envelope is handed to its queue. -/
theorem flushEntry_of_due (d : Daemon) (dest : PublicKey) {now : ℤ} (stamp : UInt64 → ℤ)
    {entry : JournalEntry} {payload data : Bytes} (hdue : ¬ (entry.sentAt > 0
      ∧ unixMilli now - entry.sentAt < Int64.ofInt (C.retryInterval / 1000000)))
    (hdec : Base64.decode entry.payload = some payload)
    (hdata : (envelopeOf entry payload).encode = .ok data) {sent : Except SendError Node}
    (hsent : (if entry.type = typeFile then d.node.sendBulk C.mtu dest data
      else d.node.send C.mtu dest data) = sent) :
    (∀ e, sent = .error e → flushEntry C now stamp dest d entry = d)
      ∧ ∀ node, sent = .ok node → flushEntry C now stamp dest d entry = { d with
        node
        boxes := d.boxes.insert dest
          (OutboxJournal.markSent (d.sentOf dest) entry.seq (unixMilli (stamp entry.seq))) } := by
  have henv : Envelope.encode ⟨envelopeVersion, entry.type, entry.seq, entry.ts, payload⟩
      = .ok data := hdata
  unfold flushEntry
  rw [if_neg hdue, hdec]
  simp only [henv, hsent]
  constructor
  · rintro e rfl
    rfl
  · rintro node rfl
    rfl

theorem flushEntry_cases (now : ℤ) (stamp : UInt64 → ℤ) (entry : JournalEntry) :
    flushEntry C now stamp dest d entry = d
      ∨ ∃ payload data, Base64.decode entry.payload = some payload
        ∧ (envelopeOf entry payload).encode = .ok data
        ∧ flushEntry C now stamp dest d entry
          = { (if entry.type = typeFile then d.withBulk dest data else d.withControl dest data) with
            boxes := d.boxes.insert dest (OutboxJournal.markSent (d.sentOf dest) entry.seq
              (unixMilli (stamp entry.seq))) } := by
  unfold flushEntry
  split
  · exact .inl rfl
  split
  · exact .inl rfl
  rename_i payload hpayload
  dsimp only
  split
  · exact .inl rfl
  rename_i data hdata
  split
  · exact .inl rfl
  rename_i node hnode
  refine .inr ⟨payload, data, hpayload, hdata, ?_⟩
  split_ifs at hnode ⊢
  · obtain ⟨-, -, -, rfl⟩ := Node.sendBulk_ok.1 hnode
    rfl
  · obtain ⟨-, -, -, rfl⟩ := Node.send_ok.1 hnode
    rfl

end Send

theorem boxFor_cases (d : Daemon) (peer : PublicKey) :
    d.boxFor peer = d ∨ d.boxFor peer = { d with boxes := d.boxes.insert peer ∅ } := by
  unfold boxFor
  split_ifs
  · exact .inl rfl
  · exact .inr rfl

/-- The outcomes of `HandlePacket`, each with what led to it. -/
inductive Handled (C : Config) (now : ℤ) (d : Daemon) (sender : PublicKey) (data : Bytes) :
    Daemon × List Event → Prop
  | drop (h : d.isBlocked sender ∨ ∃ e, decodeEnvelope data = .error e) :
      Handled C now d sender data (d, [])
  | ignored {env} (hb : ¬ d.isBlocked sender) (he : decodeEnvelope data = .ok env)
      (hm : env.type ≠ typeMsg) :
      Handled C now d sender data (d.boxFor sender, [])
  | file {env tid index total isNew db} (hb : ¬ d.isBlocked sender)
      (he : decodeEnvelope data = .ok env) (ht : env.type = typeFile)
      (hh : parseFileHeader env.payload = some (tid, index, total))
      (ha : (attachStore C sender).add d.db tid index total env.seq env.ts env.payload
        = some (isNew, db)) :
      Handled C now d sender data
        (({ d.boxFor sender with db } : Daemon).sendAck C sender env.seq,
          if isNew then [.recvFile sender env.seq env.ts env.payload] else [])
  | msg {env} (hb : ¬ d.isBlocked sender) (he : decodeEnvelope data = .ok env)
      (ht : env.type = typeMsg) :
      Handled C now d sender data
        (({ d.boxFor sender with
            db := ((inboxOf C sender).add d.db env.seq env.ts env.payload).2 } : Daemon).sendAck
            C sender env.seq,
          if ((inboxOf C sender).add d.db env.seq env.ts env.payload).1
          then [.recv sender env.seq env.ts env.payload] else [])
  | ack {env} (hb : ¬ d.isBlocked sender) (he : decodeEnvelope data = .ok env)
      (ht : env.type = typeAck) :
      Handled C now d sender data
        ({ d.boxFor sender with
            db := (OutboxJournal.ack d.db sender (d.sentOf sender) env.seq).2.1
            boxes := (d.boxFor sender).boxes.insert sender ((d.sentOf sender).erase env.seq) },
          if (OutboxJournal.ack d.db sender (d.sentOf sender) env.seq).1
          then [.acked sender env.seq] else [])
  | probe {env} (hb : ¬ d.isBlocked sender) (he : decodeEnvelope data = .ok env)
      (ht : env.type = typeProbe) :
      Handled C now d sender data ((d.boxFor sender).onProbe now sender, [])
  | status {env} (hb : ¬ d.isBlocked sender) (he : decodeEnvelope data = .ok env)
      (ht : env.type = typeStatus) :
      Handled C now d sender data
        ((d.boxFor sender).onStatus now sender env.seq env.ts env.payload, [])

theorem boxFor_db (d : Daemon) (peer : PublicKey) : (d.boxFor peer).db = d.db := by
  rcases d.boxFor_cases peer with h | h <;> rw [h]

theorem boxFor_sentOf (d : Daemon) (peer q : PublicKey) : (d.boxFor peer).sentOf q = d.sentOf q := by
  unfold boxFor
  split_ifs with h
  · rfl
  · unfold sentOf
    by_cases hq : q = peer
    · subst hq
      rw [AList.lookup_insert, AList.lookup_eq_none.2 h]
      rfl
    · rw [AList.lookup_insert_ne hq]

theorem handlePacket_handled (now : ℤ) (d : Daemon) (sender : PublicKey) (data : Bytes) :
    Handled C now d sender data (d.handlePacket C now sender data) := by
  unfold handlePacket
  split_ifs with hb
  · exact .drop (.inl hb)
  split
  · rename_i e he
    exact .drop (.inr ⟨e, he⟩)
  rename_i env he
  dsimp only
  have hdb := d.boxFor_db sender
  have hsent := d.boxFor_sentOf sender sender
  by_cases hf : env.type = typeFile
  · have hm : env.type ≠ typeMsg := by
      rw [hf]
      decide
    rw [if_pos hf]
    split
    · exact .ignored hb he hm
    · rename_i tid index total hh
      split
      · exact .ignored hb he hm
      · rename_i isNew db hadd
        rw [hdb] at hadd
        exact .file hb he hf hh hadd
  rw [if_neg hf]
  by_cases hm : env.type = typeMsg
  · rw [if_pos hm, hdb]
    exact .msg hb he hm
  rw [if_neg hm]
  by_cases ha : env.type = typeAck
  · rw [if_pos ha, hdb, hsent]
    exact .ack hb he ha
  rw [if_neg ha]
  split_ifs with hp hs
  · exact .probe hb he hp
  · exact .status hb he hs
  · exact .ignored hb he hm

/-! ### Which tables an operation writes -/

theorem sendAck_db (d : Daemon) (dest : PublicKey) (seq : UInt64) :
    (d.sendAck C dest seq).db = d.db := by
  rcases d.sendAck_cases (C := C) dest seq with h | ⟨data, -, h⟩ <;> rw [h]
  rfl

theorem beginSend_db (d : Daemon) (dest : PublicKey) :
    ∃ rows, (d.beginSend dest).2.db = { d.db with outboxSeq := rows } := by
  unfold beginSend
  split
  · exact ⟨_, rfl⟩
  dsimp only
  obtain ⟨rows, h⟩ := OutboxJournal.nextSeq_outboxSeq (d.boxFor dest).db dest
  rw [d.boxFor_db] at h ⊢
  split <;> rename_i heq <;> rw [heq] at h <;> exact ⟨rows, h⟩

theorem sendAs_db (typ : EnvelopeType) (now : ℤ) (d : Daemon) (dest : PublicKey) (payload : Bytes) :
    ∃ seqs rows, (d.sendAs typ now dest payload).2.db
      = { d.db with outboxSeq := seqs, outbox := rows } := by
  obtain ⟨seqs, h⟩ := d.beginSend_db dest
  unfold sendAs
  split <;> rename_i heq <;> rw [heq] at h
  · exact ⟨seqs, _, h⟩
  · dsimp only at h
    simp only [finishSend, OutboxJournal.queueAs, h]
    exact ⟨seqs, _, rfl⟩

theorem flushEntry_db (now : ℤ) (stamp : UInt64 → ℤ) (pub : PublicKey) (d : Daemon)
    (entry : JournalEntry) : (flushEntry C now stamp pub d entry).db = d.db := by
  rcases d.flushEntry_cases (C := C) pub now stamp entry with h | ⟨payload, data, -, -, h⟩ <;>
    rw [h]
  split_ifs <;> rfl

theorem flushPeer_db (now : ℤ) (stamp : UInt64 → ℤ) (d : Daemon) (peer : PublicKey) :
    (d.flushPeer C now stamp peer).db = d.db := by
  have hfold : ∀ (entries : List JournalEntry) (d : Daemon),
      (entries.foldl (flushEntry C now stamp peer) d).db = d.db := by
    intro entries
    induction entries with
    | nil => exact fun d => rfl
    | cons entry entries ih => exact fun d => (ih _).trans (flushEntry_db now stamp peer d entry)
  exact hfold _ d

theorem retryRound_db (now : ℤ) (stamp : UInt64 → ℤ) (order : List PublicKey) (d : Daemon) :
    (d.retryRound C now stamp order).db = d.db := by
  unfold retryRound
  generalize order.filter (· ∈ d.boxes) = keys
  induction keys generalizing d with
  | nil => rfl
  | cons k keys ih =>
    rw [List.foldl_cons, ih]
    split_ifs
    · exact flushPeer_db now stamp d k
    · rfl

/-! ### Starting again -/

theorem boxFor_node (d : Daemon) (peer : PublicKey) : (d.boxFor peer).node = d.node := by
  rcases d.boxFor_cases peer with h | h <;> rw [h]

/-- What creating a mailbox leaves alone is left alone by `NewMail` too. -/
theorem foldl_boxFor {β : Type*} {g : Daemon → β} (hg : ∀ d k, g (boxFor d k) = g d) :
    ∀ (keys : List PublicKey) (d : Daemon), g (keys.foldl boxFor d) = g d
  | [], _ => rfl
  | key :: keys, d => (foldl_boxFor hg keys (d.boxFor key)).trans (hg d key)

theorem newMail_eq {β : Type*} {g : Daemon → β} (hg : ∀ d k, g (boxFor d k) = g d) (db : DB)
    (blockedFile contactsFile : List PublicKey) : g (newMail db blockedFile contactsFile)
      = g { db, blocked := blockedFile, blockedFile, contactsFile } := by
  unfold newMail
  rw [foldl_boxFor hg, foldl_boxFor hg]

theorem restart_spec (d : Daemon) (k : PublicKey) :
    d.restart.sentOf k = ∅ ∧ d.restart.db = d.db ∧ d.restart.node = {} :=
  ⟨newMail_eq (g := (sentOf · k)) (boxFor_sentOf · · k) _ _ _,
    newMail_eq (g := db) boxFor_db _ _ _, newMail_eq (g := node) boxFor_node _ _ _⟩

/-! ### What a request does -/

/-- The daemon after a request, from `d` past the client's stamp: as it was, with a mailbox opened,
or after the one operation the request names. -/
inductive Dispatched (C : Config) (now : ℤ) (persisted : Bool) (d : Daemon) :
    Request → Daemon → Prop
  | reads {req} : Dispatched C now persisted d req d
  | opens {req} (key : PublicKey) : Dispatched C now persisted d req (d.boxFor key)
  | send {dest payload} (key : PublicKey) (bytes : Bytes) :
      Dispatched C now persisted d (.send dest payload) (d.sendAs typeMsg now key bytes).2
  | sendfile {dest payload} (key : PublicKey) (bytes : Bytes) :
      Dispatched C now persisted d (.sendfile dest payload) (d.sendAs typeFile now key bytes).2
  | ackfile {sender tid key} (hkey : decodeFromKey sender = .ok key) :
      Dispatched C now persisted d (.ackfile sender tid) (d.ackAttachment C key tid)
  | watch {dest} (key : PublicKey) :
      Dispatched C now persisted d (.watch dest) (d.watch persisted key).2
  | setstatus {dest payload key} (hb : ¬ d.isBlocked key) (bytes : Bytes) :
      Dispatched C now persisted d (.setstatus dest payload) (d.setStatus C now key bytes).2
  | block {dest} (key : PublicKey) :
      Dispatched C now persisted d (.block dest) (d.block persisted key).2
  | unblock {dest} (key : PublicKey) :
      Dispatched C now persisted d (.unblock dest) (d.unblock persisted key).2

theorem handleSend_cases (now : ℤ) (typ : EnvelopeType) (d : Daemon) (dest payload : Text) :
    (d.handleSend now typ dest payload).2 = d
      ∨ ∃ key bytes, (d.handleSend now typ dest payload).2 = (d.sendAs typ now key bytes).2 := by
  unfold handleSend
  split
  · exact .inl rfl
  rename_i key _
  split
  · exact .inl rfl
  rename_i bytes _
  refine .inr ⟨key, bytes, ?_⟩
  split <;> rename_i heq <;> rw [heq]

theorem dispatch_dispatched (now : ℤ) (persisted : Bool) (d : Daemon) (req : Request) :
    Dispatched C now persisted (d.touchClient now) req (d.dispatch C now persisted req).2 := by
  unfold dispatch
  dsimp only
  cases req with
  | send dest payload =>
    rcases (d.touchClient now).handleSend_cases now typeMsg dest payload with h | ⟨key, bytes, h⟩
    · rw [h]
      exact .reads
    · rw [h]
      exact .send key bytes
  | sendfile dest payload =>
    rcases (d.touchClient now).handleSend_cases now typeFile dest payload with h | ⟨key, bytes, h⟩
    · rw [h]
      exact .reads
    · rw [h]
      exact .sendfile key bytes
  | history sender seq =>
    simp only [handleHistory]
    split
    · exact .reads
    · exact .opens _
  | pendingattachments sender =>
    simp only [handlePendingAttachments]
    split
    · exact .reads
    · exact .opens _
  | fetchattachment sender tid =>
    simp only [handleFetchAttachment]
    split
    · exact .reads
    split
    · exact .reads
    · exact .opens _
  | ackfile sender tid =>
    simp only [handleAckFile]
    split
    · exact .reads
    rename_i key hkey
    split
    · exact .reads
    · exact .ackfile hkey
  | watch dest =>
    simp only [handleWatch]
    split
    · exact .reads
    rename_i key _
    have h : Dispatched C now persisted (d.touchClient now) (.watch dest)
        ((d.touchClient now).watch persisted key).2 := .watch key
    split <;> rename_i heq <;> rw [heq] at h <;> exact h
  | setstatus dest payload =>
    simp only [handleSetStatus]
    split
    · exact .reads
    split
    · exact .reads
    rename_i hb
    split
    · exact .reads
    rename_i bytes _
    have h : Dispatched C now persisted (d.touchClient now) (.setstatus dest payload)
        ((d.touchClient now).setStatus C now _ bytes).2 := .setstatus hb bytes
    split <;> rename_i heq <;> rw [heq] at h <;> exact h
  | block dest =>
    simp only [handleBlock, if_true]
    split
    · exact .reads
    rename_i key _
    have h : Dispatched C now persisted (d.touchClient now) (.block dest)
        ((d.touchClient now).block persisted key).2 := .block key
    split <;> rename_i heq <;> rw [heq] at h <;> exact h
  | unblock dest =>
    simp only [handleBlock, Bool.false_eq_true, if_false]
    split
    · exact .reads
    rename_i key _
    have h : Dispatched C now persisted (d.touchClient now) (.unblock dest)
        ((d.touchClient now).unblock persisted key).2 := .unblock key
    split <;> rename_i heq <;> rw [heq] at h <;> exact h
  | whoami | status | presence | blocklist | missing | unknown => exact .reads

/-! ### Operations that leave the mail alone -/

/-- A probe or a status. -/
def IsPresence (data : Bytes) : Prop :=
  ∃ env, decodeEnvelope data = .ok env ∧ (env.type = typeProbe ∨ env.type = typeStatus)

/-- Outbox, counters and inbox are the same, no mailbox is lost, and only presence packets were
enqueued. -/
structure KeepsMail (d d' : Daemon) : Prop where
  outbox : d'.db.outbox = d.db.outbox
  outboxSeq : d'.db.outboxSeq = d.db.outboxSeq
  inbox : d'.db.inbox = d.db.inbox
  inboxSeen : d'.db.inboxSeen = d.db.inboxSeen
  peerState : d'.db.peerState = d.db.peerState
  boxes : ∀ k ∈ d.boxes, k ∈ d'.boxes
  control : ∃ extra, d'.node.control = d.node.control ++ extra ∧ ∀ out ∈ extra, IsPresence out.data
  bulk : d'.node.bulk = d.node.bulk

namespace KeepsMail

variable {d d₁ d₂ : Daemon}

theorem refl (d : Daemon) : KeepsMail d d :=
  ⟨rfl, rfl, rfl, rfl, rfl, fun _ h => h, ⟨[], by simp⟩, rfl⟩

theorem trans (h₁ : KeepsMail d d₁) (h₂ : KeepsMail d₁ d₂) : KeepsMail d d₂ where
  outbox := h₂.outbox.trans h₁.outbox
  outboxSeq := h₂.outboxSeq.trans h₁.outboxSeq
  inbox := h₂.inbox.trans h₁.inbox
  inboxSeen := h₂.inboxSeen.trans h₁.inboxSeen
  peerState := h₂.peerState.trans h₁.peerState
  boxes k hk := h₂.boxes k (h₁.boxes k hk)
  control := by
    obtain ⟨e₁, hc₁, he₁⟩ := h₁.control
    obtain ⟨e₂, hc₂, he₂⟩ := h₂.control
    refine ⟨e₁ ++ e₂, by rw [hc₂, hc₁, List.append_assoc], fun out hout => ?_⟩
    exact (List.mem_append.1 hout).elim (he₁ out) (he₂ out)
  bulk := h₂.bulk.trans h₁.bulk

/-- Only the fields that are not mail differ. -/
theorem ofSame (hdb : d₁.db = d.db) (hs : d₁.boxes = d.boxes) (hn : d₁.node = d.node) :
    KeepsMail d d₁ :=
  ⟨by rw [hdb], by rw [hdb], by rw [hdb], by rw [hdb], by rw [hdb], by rw [hs]; exact fun _ h => h,
    ⟨[], by rw [hn]; simp⟩, by rw [hn]⟩

theorem boxFor (d : Daemon) (k : PublicKey) : KeepsMail d (d.boxFor k) := by
  rcases d.boxFor_cases k with h | h
  · rw [h]
    exact refl d
  · rw [h]
    exact { refl d with boxes := fun k' hk' => (AList.mem_insert _).2 (.inr hk') }

theorem insertPeer (d : Daemon) (k : PublicKey) (pp : PeerPresence) :
    KeepsMail d { d with peers := d.peers.insert k pp } := ofSame rfl rfl rfl

/-- A probe or status is sent. -/
theorem sendControl (d : Daemon) (dest : PublicKey) {env : Envelope}
    (hv : env.version = envelopeVersion) (ht : env.type = typeProbe ∨ env.type = typeStatus) :
    KeepsMail d (d.sendControl C dest env).2 := by
  rcases d.sendControl_cases (C := C) dest env with h | ⟨data, hdata, h⟩
  · rw [h]
    exact refl d
  · rw [h]
    refine { refl d with control := ⟨[⟨dest, data⟩], rfl, fun out hout => ?_⟩ }
    rw [List.mem_singleton] at hout
    rw [hout]
    exact ⟨env, Envelope.decode_of_encode hv hdata, ht⟩

theorem sendStatus (now : ℤ) (d : Daemon) (dest : PublicKey) (seq : UInt64) (payload : Bytes) :
    KeepsMail d (d.sendStatus C now dest seq payload).2 := sendControl d dest rfl (.inr rfl)

theorem sendProbe (now : ℤ) (d : Daemon) (dest : PublicKey) :
    KeepsMail d (d.sendProbe C now dest).2 := by
  have h : KeepsMail d { d with probeSeq := d.probeSeq + 1 } := ofSame rfl rfl rfl
  exact h.trans (sendControl _ dest rfl (.inl rfl))

theorem probeOne (now : ℤ) (d : Daemon) (k : PublicKey) : KeepsMail d (d.probeOne C now k) := by
  have h := sendProbe (C := C) now d k
  unfold Daemon.probeOne
  split
  · exact refl d
  dsimp only
  split
  · exact h.trans (sendStatus now _ k _ _)
  split
  · exact h.trans (sendStatus now _ k _ _)
  · exact h

theorem probes (now : ℤ) : ∀ (keys : List PublicKey) (d : Daemon),
    KeepsMail d (keys.foldl (Daemon.probeOne C now) d)
  | [], d => refl d
  | k :: keys, d => (probeOne now d k).trans (probes now keys _)

theorem tick (now : ℤ) (order : List PublicKey) (d : Daemon) :
    KeepsMail d (d.tick C now order) := probes now _ d

theorem setStatus (now : ℤ) (d : Daemon) (k : PublicKey) (payload : Bytes) :
    KeepsMail d (d.setStatus C now k payload).2 :=
  (insertPeer d k _).trans (sendStatus now _ k _ _)

theorem watch (persisted : Bool) (d : Daemon) (k : PublicKey) :
    KeepsMail d (d.watch persisted k).2 := by
  have hcontact : KeepsMail (d.boxFor k) { d.boxFor k with
      contactsFile := (d.boxFor k).contactsFile ++ [k] } := ofSame rfl rfl rfl
  unfold Daemon.watch
  split
  · exact refl d
  dsimp only
  split
  · exact (boxFor d k).trans (insertPeer _ k _)
  split
  · exact ((boxFor d k).trans hcontact).trans (insertPeer _ k _)
  · exact boxFor d k

theorem persistBlocked (persisted : Bool) (d : Daemon) (keys : List PublicKey) :
    KeepsMail d (Daemon.persistBlocked persisted { d with blocked := keys }).2 := by
  unfold Daemon.persistBlocked
  split_ifs
  · exact ofSame rfl rfl rfl
  · exact ofSame rfl rfl rfl

theorem block (persisted : Bool) (d : Daemon) (k : PublicKey) :
    KeepsMail d (d.block persisted k).2 := by
  unfold Daemon.block
  split
  · exact refl d
  · exact persistBlocked persisted d _

theorem unblock (persisted : Bool) (d : Daemon) (k : PublicKey) :
    KeepsMail d (d.unblock persisted k).2 := by
  unfold Daemon.unblock
  split
  · exact refl d
  · exact persistBlocked persisted d _

theorem ackAttachment (d : Daemon) (k : PublicKey) (tid : Text) :
    KeepsMail d (d.ackAttachment C k tid) := by
  refine (boxFor d k).trans ?_
  have hdb := d.boxFor_db k
  exact { refl (d.boxFor k) with
    outbox := by rw [hdb]; rfl
    outboxSeq := by rw [hdb]; rfl
    inbox := by rw [hdb]; rfl
    inboxSeen := by rw [hdb]; rfl
    peerState := by rw [hdb]; rfl }

/-- Every request but the two that send. -/
theorem dispatch (now : ℤ) (persisted : Bool) (d : Daemon) {req : Request}
    (hsend : ∀ dest payload, req ≠ .send dest payload)
    (hfile : ∀ dest payload, req ≠ .sendfile dest payload) :
    KeepsMail d (d.dispatch C now persisted req).2 := by
  have htouch : KeepsMail d (d.touchClient now) := ofSame rfl rfl rfl
  refine htouch.trans ?_
  have h := d.dispatch_dispatched (C := C) now persisted req
  generalize (d.dispatch C now persisted req).2 = d' at h ⊢
  cases h with
  | reads => exact refl _
  | opens key => exact boxFor _ key
  | send => exact absurd rfl (hsend _ _)
  | sendfile => exact absurd rfl (hfile _ _)
  | ackfile => exact ackAttachment _ _ _
  | watch key => exact watch persisted _ key
  | setstatus hb bytes => exact setStatus now _ _ bytes
  | block key => exact block persisted _ key
  | unblock key => exact unblock persisted _ key

end KeepsMail

/-! ### Every undelivered row has a mailbox -/

theorem mem_boxFor (d : Daemon) (peer : PublicKey) : peer ∈ (d.boxFor peer).boxes := by
  unfold boxFor
  split_ifs with h
  · exact h
  · exact (AList.mem_insert _).2 (.inl rfl)

theorem sendAck_boxes (d : Daemon) (dest : PublicKey) (seq : UInt64) :
    (d.sendAck C dest seq).boxes = d.boxes := by
  rcases d.sendAck_cases (C := C) dest seq with h | ⟨data, -, h⟩ <;> rw [h]
  rfl

/-- A packet uses no seq, queues no row and loses no mailbox. -/
theorem handlePacket_mail (now : ℤ) (d : Daemon) (sender : PublicKey) (data : Bytes) :
    (d.handlePacket C now sender data).1.db.outboxSeq = d.db.outboxSeq
      ∧ (d.handlePacket C now sender data).1.db.outbox ⊆ d.db.outbox
      ∧ ∀ k ∈ d.boxes, k ∈ (d.handlePacket C now sender data).1.boxes := by
  have hkeep := KeepsMail.boxFor d sender
  have hsub : (d.boxFor sender).db.outbox ⊆ d.db.outbox := by
    rw [hkeep.outbox]
    exact List.Subset.refl _
  have hh := handlePacket_handled (C := C) now d sender data
  generalize d.handlePacket C now sender data = r at hh ⊢
  cases hh with
  | drop => exact ⟨rfl, List.Subset.refl _, fun _ h => h⟩
  | ignored => exact ⟨hkeep.outboxSeq, hsub, hkeep.boxes⟩
  | file _ _ _ _ hadd =>
    obtain ⟨rows, rfl⟩ := AttachmentStore.add_attach _ hadd
    simp only [sendAck_db, sendAck_boxes]
    exact ⟨trivial, List.Subset.refl _, hkeep.boxes⟩
  | msg =>
    simp only [sendAck_db, sendAck_boxes, InboxStore.add_outbox]
    exact ⟨trivial, List.Subset.refl _, hkeep.boxes⟩
  | ack =>
    refine ⟨rfl, fun r hr => List.mem_of_mem_filter hr, fun k hk => ?_⟩
    exact (AList.mem_insert _).2 (.inr (hkeep.boxes k hk))
  | probe => exact ⟨hkeep.outboxSeq, hsub, hkeep.boxes⟩
  | status => exact ⟨hkeep.outboxSeq, hsub, hkeep.boxes⟩

/-- A send that has its seq. -/
theorem beginSend_ok {d d' : Daemon} {dest : PublicKey} {seq : UInt64}
    (h : d.beginSend dest = (.ok seq, d')) : (OutboxJournal.nextSeq d.db dest).1 = some seq
      ∧ d' = { d.boxFor dest with db := (OutboxJournal.nextSeq d.db dest).2 } ∧ dest ∈ d'.boxes := by
  unfold beginSend at h
  split at h
  · cases h
  dsimp only at h
  rw [d.boxFor_db] at h
  split at h
  · cases h
  · rename_i heq
    cases h
    exact ⟨by rw [heq], by rw [heq], d.mem_boxFor dest⟩

/-- The retry loop ranges over the mailboxes, so it reaches every row. -/
def Boxed (d : Daemon) : Prop := ∀ r ∈ d.db.outbox, r.peer ∈ d.boxes

namespace Boxed

variable {d d' : Daemon}

theorem mono (h : Boxed d) (hout : d'.db.outbox ⊆ d.db.outbox)
    (hbox : ∀ k ∈ d.boxes, k ∈ d'.boxes) : Boxed d' := fun r hr => hbox _ (h r (hout hr))

theorem keepsMail (h : Boxed d) (hk : KeepsMail d d') : Boxed d' :=
  h.mono (by rw [hk.outbox]; exact List.Subset.refl _) hk.boxes

theorem flushEntry (h : Boxed d) (now : ℤ) (stamp : UInt64 → ℤ) (pub : PublicKey)
    (entry : JournalEntry) : Boxed (flushEntry C now stamp pub d entry) := by
  refine h.mono (by rw [flushEntry_db]; exact List.Subset.refl _) fun k hk => ?_
  rcases d.flushEntry_cases (C := C) pub now stamp entry with h' | ⟨payload, data, -, -, h'⟩
  · rwa [h']
  · rw [h']
    exact (AList.mem_insert _).2 (.inr hk)

theorem flushEntries (now : ℤ) (stamp : UInt64 → ℤ) (pub : PublicKey) :
    ∀ (entries : List JournalEntry) (d : Daemon), Boxed d →
      Boxed (entries.foldl (Daemon.flushEntry C now stamp pub) d)
  | [], _, h => h
  | entry :: entries, _, h => flushEntries now stamp pub entries _ (h.flushEntry now stamp pub entry)

theorem flushPeer (h : Boxed d) (now : ℤ) (stamp : UInt64 → ℤ) (peer : PublicKey) :
    Boxed (d.flushPeer C now stamp peer) := flushEntries now stamp peer _ d h

theorem retryRound (h : Boxed d) (now : ℤ) (stamp : UInt64 → ℤ) (order : List PublicKey) :
    Boxed (d.retryRound C now stamp order) := by
  unfold Daemon.retryRound
  generalize order.filter (· ∈ d.boxes) = keys
  induction keys generalizing d with
  | nil => exact h
  | cons k keys ih =>
    rw [List.foldl_cons]
    split_ifs
    · exact ih (h.flushPeer now stamp k)
    · exact ih h

theorem beginSend (h : Boxed d) (dest : PublicKey) : Boxed (d.beginSend dest).2 := by
  obtain ⟨rows, hdb⟩ := d.beginSend_db dest
  refine h.mono (by rw [hdb]; exact List.Subset.refl _) fun k hk => ?_
  have hk' := (KeepsMail.boxFor d dest).boxes k hk
  unfold Daemon.beginSend
  split
  · exact hk
  dsimp only
  split <;> exact hk'

theorem finishSend (h : Boxed d) (now : ℤ) {dest : PublicKey} (hd : dest ∈ d.boxes) (seq : UInt64)
    (payload : Bytes) (typ : EnvelopeType) : Boxed (d.finishSend now dest seq payload typ) := by
  intro r hr
  rcases List.mem_append.1 hr with hr | hr
  · exact h r (List.mem_of_mem_filter hr)
  · rw [List.mem_singleton.1 hr]
    exact hd

theorem sendAs (h : Boxed d) (typ : EnvelopeType) (now : ℤ) (dest : PublicKey) (payload : Bytes) :
    Boxed (d.sendAs typ now dest payload).2 := by
  have hb := h.beginSend dest
  unfold Daemon.sendAs
  split <;> rename_i heq <;> rw [heq] at hb
  · exact hb
  · exact hb.finishSend now (beginSend_ok heq).2.2 _ _ _

theorem handlePacket (h : Boxed d) (now : ℤ) (sender : PublicKey) (data : Bytes) :
    Boxed (d.handlePacket C now sender data).1 := by
  obtain ⟨-, hout, hbox⟩ := handlePacket_mail (C := C) now d sender data
  exact h.mono hout hbox

theorem restart (d : Daemon) : Boxed d.restart := by
  intro r hr
  rw [(d.restart_spec r.peer).2.1] at hr
  have hfold : ∀ (keys : List PublicKey) (d : Daemon),
      (∀ k ∈ d.boxes, k ∈ (keys.foldl boxFor d).boxes)
      ∧ ∀ k ∈ keys, k ∈ (keys.foldl boxFor d).boxes := by
    intro keys
    induction keys with
    | nil => exact fun d => ⟨fun _ h => h, by simp⟩
    | cons key keys ih =>
      intro d
      obtain ⟨h1, h2⟩ := ih (d.boxFor key)
      refine ⟨fun k hk => h1 k ((KeepsMail.boxFor d key).boxes k hk), fun k hk => ?_⟩
      rcases List.mem_cons.1 hk with rfl | hk
      · exact h1 k (d.mem_boxFor k)
      · exact h2 k hk
  exact (hfold _ _).1 _ ((hfold _ _).2 _ (List.mem_dedup.2 (List.mem_map_of_mem hr)))

theorem dispatch (h : Boxed d) (now : ℤ) (persisted : Bool) (req : Request) :
    Boxed (d.dispatch C now persisted req).2 := by
  have htouch : Boxed (d.touchClient now) := h
  have hd := d.dispatch_dispatched (C := C) now persisted req
  generalize (d.dispatch C now persisted req).2 = d' at hd ⊢
  cases hd with
  | reads => exact htouch
  | opens key => exact htouch.keepsMail (.boxFor _ key)
  | send key bytes => exact htouch.sendAs typeMsg now key bytes
  | sendfile key bytes => exact htouch.sendAs typeFile now key bytes
  | ackfile => exact htouch.keepsMail (.ackAttachment _ _ _)
  | watch key => exact htouch.keepsMail (.watch persisted _ key)
  | setstatus hb bytes => exact htouch.keepsMail (.setStatus now _ _ bytes)
  | block key => exact htouch.keepsMail (.block persisted _ key)
  | unblock key => exact htouch.keepsMail (.unblock persisted _ key)

theorem step (h : Boxed d) (op : Op) : Boxed (d.step C op).1 := by
  cases op with
  | api now persisted req => exact h.dispatch now persisted req
  | packet now sender data => exact h.handlePacket now sender data
  | flush now stamp peer => exact h.flushPeer now stamp peer
  | retry now stamp order => exact h.retryRound now stamp order
  | pathUp now stamp key =>
    exact (h.flushPeer now stamp key).keepsMail (KeepsMail.probeOne now _ key)
  | tick now order => exact h.keepsMail (KeepsMail.tick now order d)
  | writeControl =>
    unfold Daemon.step
    dsimp only
    split <;> exact h
  | writeBulk =>
    unfold Daemon.step
    dsimp only
    split <;> exact h
  | restart => exact restart d

theorem run : ∀ (ops : List Op) {d : Daemon}, Boxed d → Boxed (d.run C ops).1
  | [], _, h => h
  | op :: ops, _, h => run ops (h.step op)

end Boxed

end Daemon

end Aimless
