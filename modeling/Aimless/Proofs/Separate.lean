import Aimless.Attachments
import Aimless.Lib.Table

/-!
# Peers are kept apart in the tables

All peers share the daemon's tables.  `DB.SameFor q` says that two databases hold the same rows of
`q`; every journal operation of another peer keeps it.
-/

namespace Aimless

open Table

/-- The two databases hold the same rows of `q`. -/
structure DB.SameFor (q : PublicKey) (db db' : DB) : Prop where
  outbox : rowsOf OutboxRow.peer db'.outbox q = rowsOf OutboxRow.peer db.outbox q
  outboxSeq : rowsOf OutboxSeqRow.peer db'.outboxSeq q = rowsOf OutboxSeqRow.peer db.outboxSeq q
  inbox : rowsOf InboxRow.peer db'.inbox q = rowsOf InboxRow.peer db.inbox q
  inboxSeen : rowsOf InboxSeenRow.peer db'.inboxSeen q = rowsOf InboxSeenRow.peer db.inboxSeen q
  peerState : rowsOf PeerStateRow.peer db'.peerState q = rowsOf PeerStateRow.peer db.peerState q
  attach : rowsOf AttachRow.peer db'.attach q = rowsOf AttachRow.peer db.attach q

namespace DB.SameFor

variable {q : PublicKey} {db db₁ db₂ : DB}

theorem refl (q : PublicKey) (db : DB) : SameFor q db db := ⟨rfl, rfl, rfl, rfl, rfl, rfl⟩

theorem trans (h₁ : SameFor q db db₁) (h₂ : SameFor q db₁ db₂) : SameFor q db db₂ :=
  ⟨h₂.outbox.trans h₁.outbox, h₂.outboxSeq.trans h₁.outboxSeq, h₂.inbox.trans h₁.inbox,
    h₂.inboxSeen.trans h₁.inboxSeen, h₂.peerState.trans h₁.peerState, h₂.attach.trans h₁.attach⟩

end DB.SameFor

namespace OutboxJournal

variable {q peer : PublicKey} {db : DB}

theorem nextSeq_sameFor (hq : q ≠ peer) : db.SameFor q (nextSeq db peer).2 := by
  have hrows : rowsOf OutboxSeqRow.peer (if db.outboxSeq.any fun r => r.peer = peer
      then db.outboxSeq else db.outboxSeq ++ [⟨peer, 1⟩]) q
      = rowsOf OutboxSeqRow.peer db.outboxSeq q := by
    split_ifs
    · rfl
    · exact rowsOf_append OutboxSeqRow.peer rfl hq _
  unfold nextSeq
  dsimp only
  split
  · refine { DB.SameFor.refl q db with outboxSeq := ?_ }
    exact (rowsOf_update OutboxSeqRow.peer (f := fun r => { r with next := r.next + 1 })
      (fun _ => rfl) hq _).trans hrows
  · exact DB.SameFor.refl q db

theorem queueAs_sameFor (hq : q ≠ peer) (seq : UInt64) (ts : Int64) (payload : Bytes)
    (typ : EnvelopeType) : db.SameFor q (queueAs db peer seq ts payload typ) :=
  { DB.SameFor.refl q db with
    outbox := (rowsOf_append OutboxRow.peer rfl hq _).trans
      (rowsOf_delete OutboxRow.peer hq (fun r => r.seq = seq.toInt64) _) }

theorem ack_sameFor (hq : q ≠ peer) (sent : Sent) (seq : UInt64) :
    db.SameFor q (ack db peer sent seq).2.1 :=
  { DB.SameFor.refl q db with
    outbox := rowsOf_delete OutboxRow.peer hq (fun r => r.seq = seq.toInt64) _ }

end OutboxJournal

namespace InboxStore

variable {q : PublicKey} (box : InboxStore) (hq : q ≠ box.peer)

include hq

theorem evictOldest_sameFor (db : DB) : db.SameFor q (box.evictOldest db) := by
  unfold evictOldest
  split
  · exact DB.SameFor.refl q db
  · rename_i oldest _
    refine { DB.SameFor.refl q db with inbox := ?_, inboxSeen := ?_ }
    · exact rowsOf_delete InboxRow.peer hq (fun r => r.seq = oldest) _
    · dsimp only
      split_ifs
      · rfl
      · exact rowsOf_append InboxSeenRow.peer rfl hq _

theorem evictLoop_sameFor : ∀ (count : ℕ) (db : DB), db.SameFor q (box.evictLoop count db)
  | 0, db => DB.SameFor.refl q db
  | count + 1, db => by
    unfold evictLoop
    split_ifs
    · exact (box.evictOldest_sameFor hq db).trans (evictLoop_sameFor count _)
    · exact DB.SameFor.refl q db

theorem boundGuard_sameFor (db : DB) : db.SameFor q (box.boundGuard db) :=
  { DB.SameFor.refl q db with
    inboxSeen := rowsOf_delete InboxSeenRow.peer hq (fun r => r.seq
      ∉ ((db.seenSeqs box.peer).insertionSort (· ≥ ·)).take box.seenCap) _ }

theorem setRetainedMin_sameFor (db : DB) : db.SameFor q (box.setRetainedMin db) := by
  refine { DB.SameFor.refl q db with peerState := ?_ }
  unfold setRetainedMin
  dsimp only
  split_ifs
  · exact rowsOf_update PeerStateRow.peer
      (f := fun r => { r with retainedMin := (sqlMin (db.inboxSeqs box.peer)).getD 0 })
      (fun _ => rfl) hq _
  · exact rowsOf_append PeerStateRow.peer rfl hq _

theorem add_sameFor (db : DB) (seq : UInt64) (ts : Int64) (payload : Bytes) :
    db.SameFor q (box.add db seq ts payload).2 := by
  unfold add
  split_ifs
  · exact DB.SameFor.refl q db
  · exact DB.SameFor.refl q db
  · have hrow : db.SameFor q
        { db with inbox := db.inbox ++ [⟨box.peer, seq.toInt64, ts, payload⟩] } :=
      { DB.SameFor.refl q db with inbox := rowsOf_append InboxRow.peer rfl hq _ }
    refine hrow.trans ?_
    exact ((box.evictLoop_sameFor hq _ _).trans (box.boundGuard_sameFor hq _)).trans
      (box.setRetainedMin_sameFor hq _)

end InboxStore

namespace AttachmentStore

variable {q : PublicKey} (as : AttachmentStore) (hq : q ≠ as.peer)

include hq

theorem ackTid_sameFor (db : DB) (tid : Text) : db.SameFor q (as.ackTid db tid) :=
  { DB.SameFor.refl q db with attach := rowsOf_delete AttachRow.peer hq (fun r => r.tid = tid) _ }

theorem makeRoomLoop_sameFor (need : ℕ) (exclude : Text) : ∀ (rounds : ℕ) (db : DB) {db' : DB},
    as.makeRoomLoop need exclude rounds db = some db' → db.SameFor q db'
  | 0, db, db', h => by
    unfold makeRoomLoop at h
    split_ifs at h
    cases h
    exact DB.SameFor.refl q db
  | rounds + 1, db, db', h => by
    unfold makeRoomLoop at h
    dsimp only at h
    split_ifs at h
    · exact (as.ackTid_sameFor hq db _).trans (makeRoomLoop_sameFor need exclude rounds _ h)
    · cases h
      exact DB.SameFor.refl q db

theorem add_sameFor {db db' : DB} {tid : Text} {index total : UInt16} {seq : UInt64} {ts : Int64}
    {payload : Bytes} {isNew : Bool}
    (h : as.add db tid index total seq ts payload = some (isNew, db')) : db.SameFor q db' := by
  unfold add at h
  split_ifs at h
  · cases h
    exact DB.SameFor.refl q db
  · obtain ⟨db₁, hroom, h'⟩ := Option.bind_eq_some_iff.1 h
    cases h'
    unfold makeRoomTx at hroom
    split_ifs at hroom
    refine (as.makeRoomLoop_sameFor hq _ _ _ db hroom).trans ?_
    exact { DB.SameFor.refl q db₁ with attach := rowsOf_append AttachRow.peer rfl hq _ }

end AttachmentStore

/-! ### What is read of a peer depends on its rows only -/

namespace DB.SameFor

variable {q : PublicKey} {db db' : DB} (h : SameFor q db db')

include h

theorem nextSeq_eq : (OutboxJournal.nextSeq db' q).1 = (OutboxJournal.nextSeq db q).1 := by
  have hfind : db'.outboxSeq.find? (fun r => decide (r.peer = q))
      = db.outboxSeq.find? (fun r => decide (r.peer = q)) := by
    rw [← List.head?_filter, ← List.head?_filter]
    exact congrArg List.head? h.outboxSeq
  unfold OutboxJournal.nextSeq
  dsimp only
  rw [hfind]
  split_ifs <;> rfl

theorem inboxSeqs_eq : db'.inboxSeqs q = db.inboxSeqs q := congrArg (List.map InboxRow.seq) h.inbox

theorem attachOf_eq : db'.attachOf q = db.attachOf q := h.attach

theorem after_eq {box : InboxStore} (hbox : box.peer = q) (afterSeq : UInt64) :
    box.after db' afterSeq = box.after db afterSeq := by
  have hrows := congrArg (List.filter fun r => decide (r.seq > afterSeq.toInt64)) h.inbox
  unfold rowsOf at hrows
  simp only [List.filter_filter] at hrows
  unfold InboxStore.after
  simp only [hbox, Bool.decide_and, Bool.and_comm (decide (_ = q)), hrows]

theorem fetchTid_eq {as : AttachmentStore} (has : as.peer = q) (tid : Text) :
    as.fetchTid db' tid = as.fetchTid db tid := by
  have hrows := congrArg (List.filter fun r => decide (r.tid = tid)) h.attach
  unfold rowsOf at hrows
  simp only [List.filter_filter] at hrows
  unfold AttachmentStore.fetchTid
  simp only [has, Bool.decide_and, Bool.and_comm (decide (_ = q)), hrows]

theorem pendingAttach_eq {as : AttachmentStore} (has : as.peer = q) :
    as.pending db' = as.pending db := by
  unfold AttachmentStore.pending AttachmentStore.transfersTx
  rw [has, h.attachOf_eq]

theorem bytes_eq {as : AttachmentStore} (has : as.peer = q) : as.bytes db' = as.bytes db := by
  unfold AttachmentStore.bytes
  rw [has, h.attachOf_eq]

end DB.SameFor

end Aimless
