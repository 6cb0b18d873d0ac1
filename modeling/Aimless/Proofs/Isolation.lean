import Aimless.Proofs.Mail
import Aimless.Proofs.Separate

/-!
# A packet touches its sender only

`Daemon.Only p d d'` says that the two daemons differ in what belongs to `p` alone, and that what
was enqueued in between is addressed to `p`.  Every packet from `p` keeps it, so any sequence of
them does.
-/

namespace Aimless

namespace Daemon

variable {C : Config}

structure Only (p : PublicKey) (d d' : Daemon) : Prop where
  db : ∀ q, q ≠ p → d.db.SameFor q d'.db
  boxes : ∀ q, q ≠ p → d'.boxes.lookup q = d.boxes.lookup q
  peers : ∀ q, q ≠ p → d'.peers.lookup q = d.peers.lookup q
  blocked : d'.blocked = d.blocked ∧ d'.blockedFile = d.blockedFile
  control : ∃ extra, d'.node.control = d.node.control ++ extra ∧ ∀ out ∈ extra, out.pub = p
  bulk : ∃ extra, d'.node.bulk = d.node.bulk ++ extra ∧ ∀ out ∈ extra, out.pub = p

namespace Only

variable {p : PublicKey} {d d₁ d₂ : Daemon}

theorem refl (p : PublicKey) (d : Daemon) : Only p d d where
  db q _ := DB.SameFor.refl q d.db
  boxes _ _ := rfl
  peers _ _ := rfl
  blocked := ⟨rfl, rfl⟩
  control := ⟨[], by simp⟩
  bulk := ⟨[], by simp⟩

/-- Packets appended twice. -/
theorem append_trans {l l₁ l₂ : List Outbound}
    (h₁ : ∃ extra, l₁ = l ++ extra ∧ ∀ out ∈ extra, out.pub = p)
    (h₂ : ∃ extra, l₂ = l₁ ++ extra ∧ ∀ out ∈ extra, out.pub = p) :
    ∃ extra, l₂ = l ++ extra ∧ ∀ out ∈ extra, out.pub = p := by
  obtain ⟨e₁, rfl, he₁⟩ := h₁
  obtain ⟨e₂, rfl, he₂⟩ := h₂
  refine ⟨e₁ ++ e₂, List.append_assoc .., fun out hout => ?_⟩
  exact (List.mem_append.1 hout).elim (he₁ out) (he₂ out)

theorem trans (h₁ : Only p d d₁) (h₂ : Only p d₁ d₂) : Only p d d₂ where
  db q hq := (h₁.db q hq).trans (h₂.db q hq)
  boxes q hq := (h₂.boxes q hq).trans (h₁.boxes q hq)
  peers q hq := (h₂.peers q hq).trans (h₁.peers q hq)
  blocked := ⟨h₂.blocked.1.trans h₁.blocked.1, h₂.blocked.2.trans h₁.blocked.2⟩
  control := append_trans h₁.control h₂.control
  bulk := append_trans h₁.bulk h₂.bulk

/-- Replacing the database by one with the same rows of the others. -/
theorem setDb {db : DB} (h : ∀ q, q ≠ p → d.db.SameFor q db) : Only p d { d with db } :=
  { refl p d with db := h }

theorem insertBox (d : Daemon) (sent : OutboxJournal.Sent) :
    Only p d { d with boxes := d.boxes.insert p sent } :=
  { refl p d with boxes := fun _ hq => AList.lookup_insert_ne hq }

theorem insertPeer (d : Daemon) (pp : PeerPresence) :
    Only p d { d with peers := d.peers.insert p pp } :=
  { refl p d with peers := fun _ hq => AList.lookup_insert_ne hq }

theorem withControl (d : Daemon) (data : Bytes) : Only p d (d.withControl p data) :=
  { refl p d with control := ⟨[⟨p, data⟩], rfl, by simp⟩ }

theorem withBulk (d : Daemon) (data : Bytes) : Only p d (d.withBulk p data) :=
  { refl p d with bulk := ⟨[⟨p, data⟩], rfl, by simp⟩ }

theorem boxFor (d : Daemon) : Only p d (d.boxFor p) := by
  rcases d.boxFor_cases p with h | h
  · rw [h]
    exact refl p d
  · rw [h]
    exact insertBox d ∅

theorem sendControl (d : Daemon) (env : Envelope) : Only p d (d.sendControl C p env).2 := by
  rcases d.sendControl_cases (C := C) p env with h | ⟨data, -, h⟩
  · rw [h]
    exact refl p d
  · rw [h]
    exact withControl d data

theorem sendAck (d : Daemon) (seq : UInt64) : Only p d (d.sendAck C p seq) := by
  rcases d.sendAck_cases (C := C) p seq with h | ⟨data, -, h⟩
  · rw [h]
    exact refl p d
  · rw [h]
    exact withControl d data

end Only

theorem newMail_blocked (db : DB) (blocked contacts : List PublicKey) :
    (newMail db blocked contacts).blocked = blocked
      ∧ (newMail db blocked contacts).blockedFile = blocked :=
  ⟨newMail_eq (fun d _ => (Only.boxFor d).blocked.1) db blocked contacts,
    newMail_eq (fun d _ => (Only.boxFor d).blocked.2) db blocked contacts⟩

/-- A packet from `p` changes nothing but what is `p`'s. -/
theorem handlePacket_only (now : ℤ) (d : Daemon) (p : PublicKey) (data : Bytes) :
    Only p d (d.handlePacket C now p data).1 := by
  have hdb : ∀ q, (d.boxFor p).db.SameFor q d.db := fun q => by
    rw [d.boxFor_db p]
    exact DB.SameFor.refl q d.db
  have hbox : Only p d (d.boxFor p) := Only.boxFor d
  have h := handlePacket_handled (C := C) now d p data
  generalize d.handlePacket C now p data = r at h ⊢
  cases h with
  | drop => exact Only.refl p d
  | ignored => exact hbox
  | file _ _ _ _ ha =>
    refine (hbox.trans (Only.setDb fun q hq => (hdb q).trans ?_)).trans (Only.sendAck _ _)
    exact AttachmentStore.add_sameFor _ hq ha
  | msg =>
    refine (hbox.trans (Only.setDb fun q hq => (hdb q).trans ?_)).trans (Only.sendAck _ _)
    exact InboxStore.add_sameFor (inboxOf C p) hq _ _ _ _
  | ack =>
    refine hbox.trans ((Only.setDb fun q hq => (hdb q).trans ?_).trans (Only.insertBox _ _))
    exact OutboxJournal.ack_sameFor hq (d.sentOf p) _
  | probe => exact hbox.trans (Only.insertPeer _ _)
  | status => exact hbox.trans (Only.insertPeer _ _)

/-- The packets, each with the time at which it is handled, one after the other. -/
def handlePackets (C : Config) (d : Daemon) (sender : PublicKey) (packets : List (ℤ × Bytes)) :
    Daemon :=
  packets.foldl (fun d packet => (d.handlePacket C packet.1 sender packet.2).1) d

theorem handlePackets_only (p : PublicKey) : ∀ (packets : List (ℤ × Bytes)) (d : Daemon),
    Only p d (d.handlePackets C p packets)
  | [], d => Only.refl p d
  | packet :: packets, d =>
    (handlePacket_only packet.1 d p packet.2).trans (handlePackets_only p packets _)

/-- Whatever `p` sends, every other peer keeps its rows and stamps, its next seq, its answers to
every history and attachment request, its replay guard, its use of the budget and its presence; the
block list stays; and what is enqueued goes to `p`. -/
theorem handlePackets_isolated {p q : PublicKey} (hq : q ≠ p) (d : Daemon)
    (packets : List (ℤ × Bytes)) :
    let d' := d.handlePackets C p packets
    Table.rowsOf OutboxRow.peer d'.db.outbox q = Table.rowsOf OutboxRow.peer d.db.outbox q
    ∧ d'.sentOf q = d.sentOf q
    ∧ Table.rowsOf OutboxSeqRow.peer d'.db.outboxSeq q
      = Table.rowsOf OutboxSeqRow.peer d.db.outboxSeq q
    ∧ (OutboxJournal.nextSeq d'.db q).1 = (OutboxJournal.nextSeq d.db q).1
    ∧ (∀ afterSeq, (d'.history C q afterSeq).1 = (d.history C q afterSeq).1)
    ∧ (d'.pendingAttachments C q).1 = (d.pendingAttachments C q).1
    ∧ (∀ tid, (d'.fetchAttachment C q tid).1 = (d.fetchAttachment C q tid).1)
    ∧ Table.rowsOf InboxSeenRow.peer d'.db.inboxSeen q
      = Table.rowsOf InboxSeenRow.peer d.db.inboxSeen q
    ∧ (attachStore C q).bytes d'.db = (attachStore C q).bytes d.db
    ∧ d'.peers.lookup q = d.peers.lookup q
    ∧ d'.blocked = d.blocked ∧ d'.blockedFile = d.blockedFile
    ∧ (∃ extra, d'.node.control = d.node.control ++ extra ∧ ∀ out ∈ extra, out.pub = p)
    ∧ ∃ extra, d'.node.bulk = d.node.bulk ++ extra ∧ ∀ out ∈ extra, out.pub = p := by
  intro d'
  have h : Only p d d' := handlePackets_only p packets d
  have hs := h.db q hq
  refine ⟨hs.outbox, ?_, hs.outboxSeq, hs.nextSeq_eq, fun afterSeq => ?_, ?_, fun tid => ?_,
    hs.inboxSeen, hs.bytes_eq rfl, h.peers q hq, h.blocked.1, h.blocked.2, h.control, h.bulk⟩
  · unfold sentOf
    rw [h.boxes q hq]
  · have hpeer : (inboxOf C q).peer = q := rfl
    simp only [history, hs.after_eq hpeer, InboxStore.oldest, InboxStore.latest, hpeer,
      hs.inboxSeqs_eq]
  · exact hs.pendingAttach_eq rfl
  · exact hs.fetchTid_eq rfl tid

/-- Two peers with a pending message of the same seq; one acknowledges. -/
theorem handlePackets_isolated_ack :
    let C : Config := ⟨1, 0, 0, 0, 65555⟩
    let d : Daemon := { db := { outbox := [⟨[1], 1, 0, typeMsg, [7]⟩, ⟨[2], 1, 0, typeMsg, [8]⟩] } }
    let packets : List (ℤ × Bytes) := [(0, (encodeAck 1).toOption.getD [])]
    ([2] : PublicKey) ≠ [1] ∧ (d.handlePackets C [1] packets).db.outbox ≠ d.db.outbox
      ∧ Table.rowsOf OutboxRow.peer (d.handlePackets C [1] packets).db.outbox [2]
        = [⟨[2], 1, 0, typeMsg, [8]⟩] := by
  intro C d packets
  have hq : ([2] : PublicKey) ≠ [1] := by decide
  exact ⟨hq, by decide, (handlePackets_isolated (C := C) hq d packets).1⟩

/-! ### The other operations on a peer -/

section Operations

variable (now : ℤ) (stamp : UInt64 → ℤ) (d : Daemon) (p : PublicKey)

theorem beginSend_only : Only p d (d.beginSend p).2 := by
  unfold beginSend
  split_ifs
  · exact Only.refl p d
  · dsimp only
    have hnext : ∀ q, q ≠ p →
        (d.boxFor p).db.SameFor q (OutboxJournal.nextSeq (d.boxFor p).db p).2 :=
      fun q hq => OutboxJournal.nextSeq_sameFor hq
    split <;> rename_i heq <;> rw [heq] at hnext
    · exact (Only.boxFor d).trans (Only.setDb hnext)
    · exact (Only.boxFor d).trans (Only.setDb hnext)

theorem sendAs_only (typ : EnvelopeType) (payload : Bytes) :
    Only p d (d.sendAs typ now p payload).2 := by
  have h := d.beginSend_only p
  unfold sendAs
  split <;> rename_i heq <;> rw [heq] at h
  · exact h
  · exact h.trans (Only.setDb fun q hq => OutboxJournal.queueAs_sameFor hq _ _ _ _)

theorem flushEntry_only (entry : JournalEntry) :
    Only p d (flushEntry C now stamp p d entry) := by
  rcases d.flushEntry_cases (C := C) p now stamp entry with h | ⟨payload, data, -, -, h⟩
  · rw [h]
    exact Only.refl p d
  · rw [h]
    split_ifs
    · exact (Only.withBulk d data).trans (Only.insertBox _ _)
    · exact (Only.withControl d data).trans (Only.insertBox _ _)

theorem flushEntries_only : ∀ (entries : List JournalEntry) (d : Daemon),
    Only p d (entries.foldl (flushEntry C now stamp p) d)
  | [], d => Only.refl p d
  | entry :: entries, d =>
    (d.flushEntry_only now stamp p entry).trans (flushEntries_only entries _)

theorem flushPeer_only : Only p d (d.flushPeer C now stamp p) :=
  flushEntries_only now stamp p _ d

theorem sendProbe_only : Only p d (d.sendProbe C now p).2 := by
  have h : Only p d { d with probeSeq := d.probeSeq + 1 } := { Only.refl p d with }
  exact h.trans (Only.sendControl _ _)

theorem probeOne_only : Only p d (d.probeOne C now p) := by
  have h := d.sendProbe_only (C := C) now p
  unfold probeOne
  split
  · exact Only.refl p d
  dsimp only
  split
  · exact h.trans (Only.sendControl _ _)
  split
  · exact h.trans (Only.sendControl _ _)
  · exact h

theorem setStatus_only (payload : Bytes) : Only p d (d.setStatus C now p payload).2 :=
  (Only.insertPeer d _).trans (Only.sendControl _ _)

theorem watch_only (persisted : Bool) : Only p d (d.watch persisted p).2 := by
  have hcontact : Only p (d.boxFor p) { d.boxFor p with
      contactsFile := (d.boxFor p).contactsFile ++ [p] } := { Only.refl p (d.boxFor p) with }
  unfold watch
  split
  · exact Only.refl p d
  dsimp only
  split
  · exact (Only.boxFor d).trans (Only.insertPeer _ _)
  split
  · exact ((Only.boxFor d).trans hcontact).trans (Only.insertPeer _ _)
  · exact Only.boxFor d

end Operations

end Daemon

end Aimless
