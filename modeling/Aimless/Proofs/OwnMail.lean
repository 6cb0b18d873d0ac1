import Aimless.Proofs.Isolation
import Aimless.Lib.Unwinding

/-!
# The mail of a peer is its own

What the daemon keeps in its tables for a peer, whether it blocks it, and what it answers to the
requests about it are made by these requests and by the packets of that peer: the other peers, the
flush passes, the presence rounds, full queues and restarts leave no trace in them.  An operation on
a peer reads and writes the rows of that peer only, so two daemons that agree on these rows still do
after it and gave the same answer (`step_own`); any other operation keeps them (`step_other`).
-/

namespace Aimless

open Table

/-! ### An operation on a peer, on two databases with the same rows of the peer -/

namespace OutboxJournal

variable {q : PublicKey} {db db' : DB}

theorem nextSeq_congr (h : db.SameFor q db') : (nextSeq db q).2.SameFor q (nextSeq db' q).2 := by
  have hfind : db'.outboxSeq.find? (fun r => decide (r.peer = q))
      = db.outboxSeq.find? (fun r => decide (r.peer = q)) := by
    rw [← List.head?_filter, ← List.head?_filter]
    exact congrArg List.head? h.outboxSeq
  have hany : (db'.outboxSeq.any fun r => decide (r.peer = q))
      = db.outboxSeq.any fun r => decide (r.peer = q) := by
    rw [← List.isSome_find?, ← List.isSome_find?, hfind]
  have hrows : rowsOf OutboxSeqRow.peer (if db'.outboxSeq.any fun r => r.peer = q
      then db'.outboxSeq else db'.outboxSeq ++ [⟨q, 1⟩]) q
      = rowsOf OutboxSeqRow.peer (if db.outboxSeq.any fun r => r.peer = q
      then db.outboxSeq else db.outboxSeq ++ [⟨q, 1⟩]) q := by
    rw [hany]
    split_ifs
    · exact h.outboxSeq
    · rw [rowsOf_add, rowsOf_add, h.outboxSeq]
  have hkey : ∀ r : OutboxSeqRow,
      (if r.peer = q then { r with next := r.next + 1 } else r).peer = r.peer := by
    intro r
    split_ifs <;> rfl
  unfold nextSeq
  dsimp only
  rw [hfind]
  split
  · refine { h with outboxSeq := ?_ }
    dsimp only
    rw [rowsOf_map _ hkey, rowsOf_map _ hkey, hrows]
  · exact h

theorem queueAs_congr (h : db.SameFor q db') (seq : UInt64) (ts : Int64) (payload : Bytes)
    (typ : EnvelopeType) :
    (queueAs db q seq ts payload typ).SameFor q (queueAs db' q seq ts payload typ) := by
  refine { h with outbox := ?_ }
  unfold queueAs
  dsimp only
  rw [rowsOf_add, rowsOf_add, rowsOf_filter, rowsOf_filter, h.outbox]

theorem ack_congr (h : db.SameFor q db') (sent sent' : Sent) (seq : UInt64) :
    (ack db q sent seq).2.1.SameFor q (ack db' q sent' seq).2.1
      ∧ (ack db' q sent' seq).1 = (ack db q sent seq).1 := by
  constructor
  · refine { h with outbox := ?_ }
    unfold ack
    dsimp only
    rw [rowsOf_filter, rowsOf_filter, h.outbox]
  · unfold ack
    dsimp only
    rw [any_rowsOf OutboxRow.peer fun r => r.seq = seq.toInt64,
      any_rowsOf OutboxRow.peer fun r => r.seq = seq.toInt64, h.outbox]

end OutboxJournal

namespace InboxStore

variable (box : InboxStore) {db db' : DB}

theorem evictOldest_congr (h : db.SameFor box.peer db') :
    (box.evictOldest db).SameFor box.peer (box.evictOldest db') := by
  unfold evictOldest
  rw [h.inboxSeqs_eq]
  split
  · exact h
  · rename_i oldest _
    have hany := any_rowsOf (k := box.peer) InboxSeenRow.peer fun r => r.seq = oldest
    refine { h with inbox := ?_, inboxSeen := ?_ }
    · dsimp only
      rw [rowsOf_filter, rowsOf_filter, h.inbox]
    · dsimp only
      rw [hany, hany, h.inboxSeen]
      split_ifs
      · exact h.inboxSeen
      · rw [rowsOf_add, rowsOf_add, h.inboxSeen]

theorem evictLoop_congr : ∀ (count : ℕ) {db db' : DB}, db.SameFor box.peer db' →
    (box.evictLoop count db).SameFor box.peer (box.evictLoop count db')
  | 0, _, _, h => h
  | count + 1, db, db', h => by
    unfold evictLoop
    split_ifs
    · exact evictLoop_congr count (box.evictOldest_congr h)
    · exact h

theorem boundGuard_congr (h : db.SameFor box.peer db') :
    (box.boundGuard db).SameFor box.peer (box.boundGuard db') := by
  have hseqs : db'.seenSeqs box.peer = db.seenSeqs box.peer :=
    congrArg (List.map InboxSeenRow.seq) h.inboxSeen
  unfold boundGuard
  rw [hseqs]
  refine { h with inboxSeen := ?_ }
  dsimp only
  rw [rowsOf_filter, rowsOf_filter, h.inboxSeen]

theorem setRetainedMin_congr (h : db.SameFor box.peer db') :
    (box.setRetainedMin db).SameFor box.peer (box.setRetainedMin db') := by
  have hany : (db'.peerState.any fun r => decide (r.peer = box.peer))
      = db.peerState.any fun r => decide (r.peer = box.peer) := by
    rw [← List.isSome_find?, ← List.isSome_find?, ← List.head?_filter, ← List.head?_filter]
    exact congrArg (fun l => (List.head? l).isSome) h.peerState
  unfold setRetainedMin
  rw [h.inboxSeqs_eq, hany]
  refine { h with peerState := ?_ }
  dsimp only
  split
  · have hkey : ∀ r : PeerStateRow, (if r.peer = box.peer
        then { r with retainedMin := (sqlMin (db.inboxSeqs box.peer)).getD 0 } else r).peer
        = r.peer := by
      intro r
      split_ifs <;> rfl
    rw [rowsOf_map _ hkey, rowsOf_map _ hkey, h.peerState]
  · rw [rowsOf_add, rowsOf_add, h.peerState]

theorem add_congr (h : db.SameFor box.peer db') (seq : UInt64) (ts : Int64) (payload : Bytes) :
    (box.add db seq ts payload).2.SameFor box.peer (box.add db' seq ts payload).2
      ∧ (box.add db' seq ts payload).1 = (box.add db seq ts payload).1 := by
  have hinbox := any_rowsOf (k := box.peer) InboxRow.peer fun r => r.seq = seq.toInt64
  have hseen := any_rowsOf (k := box.peer) InboxSeenRow.peer fun r => r.seq = seq.toInt64
  unfold add
  rw [hinbox, hinbox, hseen, hseen, h.inbox, h.inboxSeen]
  split_ifs
  · exact ⟨h, rfl⟩
  · exact ⟨h, rfl⟩
  · have hadd : DB.SameFor box.peer
        { db with inbox := db.inbox ++ [⟨box.peer, seq.toInt64, ts, payload⟩] }
        { db' with inbox := db'.inbox ++ [⟨box.peer, seq.toInt64, ts, payload⟩] } := by
      refine { h with inbox := ?_ }
      dsimp only
      rw [rowsOf_add, rowsOf_add, h.inbox]
    refine ⟨?_, rfl⟩
    unfold trimTx
    rw [hadd.inboxSeqs_eq]
    exact box.setRetainedMin_congr (box.boundGuard_congr (box.evictLoop_congr _ hadd))

end InboxStore

namespace AttachmentStore

variable (as : AttachmentStore) {db db' : DB}

theorem ackTid_congr (h : db.SameFor as.peer db') (tid : Text) :
    (as.ackTid db tid).SameFor as.peer (as.ackTid db' tid) := by
  refine { h with attach := ?_ }
  unfold ackTid
  dsimp only
  rw [rowsOf_filter, rowsOf_filter, h.attach]

theorem makeRoomLoop_congr (need : ℕ) (exclude : Text) : ∀ (rounds : ℕ) {db db' : DB},
    db.SameFor as.peer db' → Option.Rel (DB.SameFor as.peer)
      (as.makeRoomLoop need exclude rounds db) (as.makeRoomLoop need exclude rounds db')
  | 0, db, db', h => by
    unfold makeRoomLoop
    rw [h.bytes_eq rfl]
    split_ifs
    · exact .none
    · exact .some h
  | rounds + 1, db, db', h => by
    have htransfers : as.transfersTx db' = as.transfersTx db := by
      unfold transfersTx
      rw [h.attachOf_eq]
    unfold makeRoomLoop
    rw [h.bytes_eq rfl, htransfers]
    dsimp only
    split_ifs
    · exact .none
    · exact makeRoomLoop_congr need exclude rounds (as.ackTid_congr h _)
    · exact .some h

theorem add_congr (h : db.SameFor as.peer db') (tid : Text) (index total : UInt16) (seq : UInt64)
    (ts : Int64) (payload : Bytes) :
    Option.Rel (fun r r' => r.1 = r'.1 ∧ r.2.SameFor as.peer r'.2)
      (as.add db tid index total seq ts payload) (as.add db' tid index total seq ts payload) := by
  have hany := any_rowsOf (k := as.peer) AttachRow.peer fun r => r.tid = tid ∧ r.idx = index
  unfold add
  rw [hany, hany, h.attach]
  split_ifs
  · exact .some ⟨rfl, h⟩
  · unfold makeRoomTx
    rw [h.attachOf_eq]
    split_ifs
    · exact .none
    · have hloop := as.makeRoomLoop_congr payload.length tid (db.attachOf as.peer).length h
      generalize as.makeRoomLoop payload.length tid (db.attachOf as.peer).length db = r at hloop ⊢
      generalize as.makeRoomLoop payload.length tid (db.attachOf as.peer).length db' = r' at hloop ⊢
      cases hloop with
      | none => exact .none
      | some hroom =>
        refine .some ⟨rfl, { hroom with attach := ?_ }⟩
        dsimp only
        rw [rowsOf_add, rowsOf_add, hroom.attach]

end AttachmentStore

/-! ### Which operations concern a peer -/

/-- The peer whose mail a request is about. -/
def Request.mailPeer : Request → Option PublicKey
  | .send dest _ | .sendfile dest _ | .block dest | .unblock dest => (decodeKey dest).toOption
  | .history sender _ | .pendingattachments sender | .fetchattachment sender _
  | .ackfile sender _ =>
    (decodeKey sender).toOption
  | _ => none

/-- A request about the mail of `q`, or a packet from it. -/
def Op.concerns (q : PublicKey) : Op → Bool
  | .api _ _ req => req.mailPeer = some q
  | .packet _ sender _ => sender = q
  | _ => false

/-- A change of the block list, where the operation makes one, could be written. -/
def Op.Saves : Op → Prop
  | .api _ persisted (.block _) | .api _ persisted (.unblock _) => persisted = true
  | _ => True

namespace Daemon

variable {C : Config}

/-- The block list in memory is the one in the file. -/
def Saved (d : Daemon) : Prop := ∀ k, k ∈ d.blockedFile ↔ k ∈ d.blocked

/-- Tables and block list are the same. -/
structure KeepsTables (d d' : Daemon) : Prop where
  db : d'.db = d.db
  blocked : d'.blocked = d.blocked
  blockedFile : d'.blockedFile = d.blockedFile

/-- The two daemons hold the same mail of `q`, and both block it or neither does. -/
structure MailFor (q : PublicKey) (d d' : Daemon) : Prop where
  db : d.db.SameFor q d'.db
  blocked : q ∈ d.blocked ↔ q ∈ d'.blocked

namespace KeepsTables

variable {d d₁ d₂ : Daemon}

theorem refl (d : Daemon) : KeepsTables d d := ⟨rfl, rfl, rfl⟩

theorem trans (h₁ : KeepsTables d d₁) (h₂ : KeepsTables d₁ d₂) : KeepsTables d d₂ :=
  ⟨h₂.db.trans h₁.db, h₂.blocked.trans h₁.blocked, h₂.blockedFile.trans h₁.blockedFile⟩

theorem saved (h : KeepsTables d d₁) (hd : d.Saved) : d₁.Saved := by
  unfold Saved at hd ⊢
  rwa [h.blocked, h.blockedFile]

theorem boxFor (d : Daemon) (k : PublicKey) : KeepsTables d (d.boxFor k) := by
  rcases d.boxFor_cases k with h | h <;> rw [h] <;> exact ⟨rfl, rfl, rfl⟩

theorem sendControl (d : Daemon) (dest : PublicKey) (env : Envelope) :
    KeepsTables d (d.sendControl C dest env).2 := by
  rcases d.sendControl_cases (C := C) dest env with h | ⟨data, -, h⟩ <;> rw [h] <;>
    exact ⟨rfl, rfl, rfl⟩

theorem sendAck (d : Daemon) (dest : PublicKey) (seq : UInt64) :
    KeepsTables d (d.sendAck C dest seq) := by
  rcases d.sendAck_cases (C := C) dest seq with h | ⟨data, -, h⟩ <;> rw [h] <;>
    exact ⟨rfl, rfl, rfl⟩

theorem probeOne (now : ℤ) (d : Daemon) (k : PublicKey) :
    KeepsTables d (d.probeOne C now k) := by
  have hprobe : KeepsTables d (d.sendProbe C now k).2 :=
    (⟨rfl, rfl, rfl⟩ : KeepsTables d { d with probeSeq := d.probeSeq + 1 }).trans
      (sendControl _ _ _)
  unfold Daemon.probeOne
  split
  · exact refl d
  dsimp only
  split
  · exact hprobe.trans (sendControl _ _ _)
  split
  · exact hprobe.trans (sendControl _ _ _)
  · exact hprobe

theorem flushEntry (now : ℤ) (stamp : UInt64 → ℤ) (pub : PublicKey) (d : Daemon)
    (entry : JournalEntry) : KeepsTables d (flushEntry C now stamp pub d entry) := by
  rcases d.flushEntry_cases (C := C) pub now stamp entry with h | ⟨payload, data, -, -, h⟩
  · rw [h]
    exact refl d
  · rw [h]
    split_ifs <;> exact ⟨rfl, rfl, rfl⟩

/-- A loop whose body keeps them. -/
theorem foldl {α : Type*} {f : Daemon → α → Daemon} (hf : ∀ d a, KeepsTables d (f d a)) :
    ∀ (l : List α) (d : Daemon), KeepsTables d (l.foldl f d)
  | [], d => refl d
  | a :: l, d => (hf d a).trans (foldl hf l _)

theorem flushPeer (now : ℤ) (stamp : UInt64 → ℤ) (d : Daemon) (peer : PublicKey) :
    KeepsTables d (d.flushPeer C now stamp peer) := foldl (flushEntry now stamp peer) _ d

theorem retryRound (now : ℤ) (stamp : UInt64 → ℤ) (order : List PublicKey) (d : Daemon) :
    KeepsTables d (d.retryRound C now stamp order) := by
  refine foldl (fun d k => ?_) _ d
  split_ifs
  · exact flushPeer now stamp d k
  · exact refl d

theorem tick (now : ℤ) (order : List PublicKey) (d : Daemon) :
    KeepsTables d (d.tick C now order) := foldl (probeOne now) _ d

theorem insertPeer (d : Daemon) (k : PublicKey) (pp : PeerPresence) :
    KeepsTables d { d with peers := d.peers.insert k pp } := ⟨rfl, rfl, rfl⟩

theorem setStatus (now : ℤ) (d : Daemon) (k : PublicKey) (payload : Bytes) :
    KeepsTables d (d.setStatus C now k payload).2 :=
  (insertPeer d k _).trans (sendControl _ _ _)

theorem watch (persisted : Bool) (d : Daemon) (k : PublicKey) :
    KeepsTables d (d.watch persisted k).2 := by
  have hbox := boxFor d k
  unfold Daemon.watch
  split
  · exact refl d
  dsimp only
  split
  · exact hbox.trans ⟨rfl, rfl, rfl⟩
  split
  · exact hbox.trans ⟨rfl, rfl, rfl⟩
  · exact hbox

end KeepsTables

namespace MailFor

variable {q : PublicKey} {d d₁ d₂ e : Daemon}

theorem refl (q : PublicKey) (d : Daemon) : MailFor q d d := ⟨DB.SameFor.refl q d.db, Iff.rfl⟩

theorem symm (h : MailFor q d d₁) : MailFor q d₁ d where
  db := ⟨h.db.outbox.symm, h.db.outboxSeq.symm, h.db.inbox.symm, h.db.inboxSeen.symm,
    h.db.peerState.symm, h.db.attach.symm⟩
  blocked := h.blocked.symm

theorem trans (h₁ : MailFor q d d₁) (h₂ : MailFor q d₁ d₂) : MailFor q d d₂ :=
  ⟨h₁.db.trans h₂.db, h₁.blocked.trans h₂.blocked⟩

theorem ofKeeps (h : KeepsTables d d₁) : MailFor q d d₁ := by
  refine ⟨?_, by rw [h.blocked]⟩
  rw [h.db]
  exact DB.SameFor.refl q d.db

theorem ofOnly {k : PublicKey} (h : Only k d d₁) (hk : q ≠ k) : MailFor q d d₁ :=
  ⟨h.db q hk, by rw [h.blocked.1]⟩

theorem keeps {d' e' : Daemon} (h : MailFor q d e) (hd : KeepsTables d d')
    (he : KeepsTables e e') : MailFor q d' e' := (ofKeeps hd).symm.trans (h.trans (ofKeeps he))

theorem setDb {db db' : DB} (h : MailFor q d e) (hdb : db.SameFor q db') :
    MailFor q { d with db } { e with db := db' } := ⟨hdb, h.blocked⟩

theorem isBlocked_eq (h : MailFor q d e) : e.isBlocked q = d.isBlocked q :=
  decide_eq_decide.2 h.blocked.symm

end MailFor

/-! ### An operation that does not concern the peer -/

section Other

variable {q : PublicKey} {d : Daemon}

theorem block_other (hd : d.Saved) {k : PublicKey} (hk : q ≠ k) :
    (d.block true k).2.Saved ∧ MailFor q (d.block true k).2 d := by
  unfold Daemon.block
  split_ifs
  · exact ⟨hd, MailFor.refl q d⟩
  · exact ⟨fun _ => Iff.rfl, ⟨DB.SameFor.refl q d.db, by simp [persistBlocked, hk]⟩⟩

theorem unblock_other (hd : d.Saved) {k : PublicKey} (hk : q ≠ k) :
    (d.unblock true k).2.Saved ∧ MailFor q (d.unblock true k).2 d := by
  unfold Daemon.unblock
  split
  · exact ⟨hd, MailFor.refl q d⟩
  · exact ⟨fun _ => Iff.rfl, ⟨DB.SameFor.refl q d.db, by simp [persistBlocked, hk]⟩⟩

theorem other_of_keeps {d' : Daemon} (h : KeepsTables d d') (hd : d.Saved) :
    d'.Saved ∧ MailFor q d' d := ⟨h.saved hd, (MailFor.ofKeeps h).symm⟩

theorem other_of_only {k : PublicKey} {d' : Daemon} (h : Only k d d') (hk : q ≠ k)
    (hd : d.Saved) : d'.Saved ∧ MailFor q d' d := by
  refine ⟨?_, (MailFor.ofOnly h hk).symm⟩
  unfold Saved at hd ⊢
  rwa [h.blocked.1, h.blocked.2]

theorem ackAttachment_only (d : Daemon) (k : PublicKey) (tid : Text) :
    Only k d (d.ackAttachment C k tid) := by
  refine (Only.boxFor d).trans (Only.setDb fun p hp => ?_)
  rw [d.boxFor_db]
  exact AttachmentStore.ackTid_sameFor _ hp _ _

theorem handleSend_other (hd : d.Saved) (now : ℤ) (typ : EnvelopeType) {dest : Text}
    (hq : (decodeKey dest).toOption ≠ some q) (payload : Text) :
    (d.handleSend now typ dest payload).2.Saved
      ∧ MailFor q (d.handleSend now typ dest payload).2 d := by
  unfold handleSend
  rcases hkey : decodeKey dest with e | key <;> dsimp only
  · exact ⟨hd, MailFor.refl q d⟩
  have hne : q ≠ key := by
    rintro rfl
    exact hq (by rw [hkey]; rfl)
  split
  · exact ⟨hd, MailFor.refl q d⟩
  · rename_i bytes _
    have h := other_of_only (d.sendAs_only now key typ bytes) hne hd
    split <;> rename_i heq <;> rw [heq] at h <;> exact h

theorem dispatch_other (hd : d.Saved) (now : ℤ) {persisted : Bool} {req : Request}
    (hs : (Op.api now persisted req).Saves) (hq : req.mailPeer ≠ some q) :
    (d.dispatch C now persisted req).2.Saved ∧ MailFor q (d.dispatch C now persisted req).2 d := by
  have htouch : KeepsTables d (d.touchClient now) := ⟨rfl, rfl, rfl⟩
  have hd' := htouch.saved hd
  have hsame : (d.touchClient now).Saved ∧ MailFor q (d.touchClient now) (d.touchClient now) :=
    ⟨hd', MailFor.refl q _⟩
  suffices h : (d.dispatch C now persisted req).2.Saved
      ∧ MailFor q (d.dispatch C now persisted req).2 (d.touchClient now) from
    ⟨h.1, h.2.trans (MailFor.ofKeeps htouch).symm⟩
  -- a key the request names is not `q`
  have hne : ∀ {t : Text} {key : PublicKey}, req.mailPeer = (decodeKey t).toOption →
      decodeKey t = .ok key → q ≠ key := by
    rintro t key hreq hkey rfl
    exact hq (by rw [hreq, hkey]; rfl)
  unfold dispatch
  dsimp only
  cases req with
  | send dest payload => exact handleSend_other hd' now typeMsg hq payload
  | sendfile dest payload => exact handleSend_other hd' now typeFile hq payload
  | history sender seq =>
    simp only [handleHistory]
    split
    · exact hsame
    · exact other_of_keeps (KeepsTables.boxFor _ _) hd'
  | pendingattachments sender =>
    simp only [handlePendingAttachments]
    split
    · exact hsame
    · exact other_of_keeps (KeepsTables.boxFor _ _) hd'
  | fetchattachment sender tid =>
    simp only [handleFetchAttachment]
    split
    · exact hsame
    split
    · exact hsame
    · exact other_of_keeps (KeepsTables.boxFor _ _) hd'
  | ackfile sender tid =>
    simp only [handleAckFile, decodeFromKey]
    split
    · exact hsame
    rename_i key hkey
    split
    · exact hsame
    · refine other_of_only (ackAttachment_only _ key tid) (hne (t := sender) rfl ?_) hd'
      split at hkey <;> simp_all
  | watch dest =>
    simp only [handleWatch]
    split
    · exact hsame
    rename_i key _
    have h := other_of_keeps (q := q) (KeepsTables.watch persisted (d.touchClient now) key) hd'
    split <;> rename_i heq <;> rw [heq] at h <;> exact h
  | setstatus dest payload =>
    simp only [handleSetStatus]
    split
    · exact hsame
    rename_i key _
    split
    · exact hsame
    split
    · exact hsame
    rename_i bytes _
    have h := other_of_keeps (q := q)
      (KeepsTables.setStatus (C := C) now (d.touchClient now) key bytes) hd'
    split <;> rename_i heq <;> rw [heq] at h <;> exact h
  | block dest =>
    obtain rfl : persisted = true := hs
    simp only [handleBlock, if_true]
    split
    · exact hsame
    rename_i key hkey
    have h := block_other hd' (hne rfl hkey)
    split <;> rename_i heq <;> rw [heq] at h <;> exact h
  | unblock dest =>
    obtain rfl : persisted = true := hs
    simp only [handleBlock, Bool.false_eq_true, if_false]
    split
    · exact hsame
    rename_i key hkey
    have h := unblock_other hd' (hne rfl hkey)
    split <;> rename_i heq <;> rw [heq] at h <;> exact h
  | whoami | status | presence | blocklist | missing | unknown => exact hsame

/-- An operation that does not concern `q`. -/
theorem step_other (hd : d.Saved) {op : Op} (hs : op.Saves) (hq : ¬ op.concerns q) :
    (d.step C op).1.Saved ∧ MailFor q (d.step C op).1 d := by
  cases op with
  | api now persisted req =>
    exact dispatch_other hd now hs fun h => hq (by simp [Op.concerns, h])
  | packet now sender data =>
    refine other_of_only (handlePacket_only now d sender data) (fun h => hq ?_) hd
    simp [Op.concerns, h]
  | flush now stamp peer => exact other_of_keeps (KeepsTables.flushPeer now stamp d peer) hd
  | retry now stamp order => exact other_of_keeps (KeepsTables.retryRound now stamp order d) hd
  | pathUp now stamp key =>
    exact other_of_keeps ((KeepsTables.flushPeer now stamp d key).trans
      (KeepsTables.probeOne now _ key)) hd
  | tick now order => exact other_of_keeps (KeepsTables.tick now order d) hd
  | writeControl =>
    unfold step
    dsimp only
    split <;> exact other_of_keeps ⟨rfl, rfl, rfl⟩ hd
  | writeBulk =>
    unfold step
    dsimp only
    split <;> exact other_of_keeps ⟨rfl, rfl, rfl⟩ hd
  | restart =>
    obtain ⟨hblocked, hfile⟩ := newMail_blocked d.db d.blockedFile d.contactsFile
    refine ⟨fun k => ?_, ⟨?_, ?_⟩⟩
    · change k ∈ (newMail _ _ _).blockedFile ↔ k ∈ (newMail _ _ _).blocked
      rw [hblocked, hfile]
    · rw [show (d.step C .restart).1.db = d.db from (d.restart_spec q).2.1]
      exact DB.SameFor.refl q d.db
    · change q ∈ (newMail _ _ _).blocked ↔ q ∈ d.blocked
      rw [hblocked]
      exact hd q

end Other

/-! ### An operation that concerns the peer -/

section Own

variable {q : PublicKey} {d e : Daemon}

theorem beginSend_own (h : MailFor q d e) :
    MailFor q (d.beginSend q).2 (e.beginSend q).2 ∧ (e.beginSend q).1 = (d.beginSend q).1 := by
  have hbox : MailFor q (d.boxFor q) (e.boxFor q) :=
    h.keeps (KeepsTables.boxFor d q) (KeepsTables.boxFor e q)
  have hseq := hbox.db.nextSeq_eq
  have hdb := hbox.setDb (OutboxJournal.nextSeq_congr hbox.db)
  unfold beginSend
  rw [h.isBlocked_eq]
  split_ifs
  · exact ⟨h, rfl⟩
  dsimp only
  generalize OutboxJournal.nextSeq (d.boxFor q).db q = r at hseq hdb ⊢
  generalize OutboxJournal.nextSeq (e.boxFor q).db q = r' at hseq hdb ⊢
  obtain ⟨seq, db⟩ := r
  obtain ⟨seq', db'⟩ := r'
  obtain rfl : seq' = seq := hseq
  cases seq' with
  | none => exact ⟨hdb, rfl⟩
  | some seq => exact ⟨hdb, rfl⟩

theorem sendAs_own (h : MailFor q d e) (typ : EnvelopeType) (now : ℤ) (payload : Bytes) :
    MailFor q (d.sendAs typ now q payload).2 (e.sendAs typ now q payload).2
      ∧ (e.sendAs typ now q payload).1 = (d.sendAs typ now q payload).1 := by
  obtain ⟨hd, hr⟩ := beginSend_own h
  unfold sendAs
  generalize d.beginSend q = r at hd hr ⊢
  generalize e.beginSend q = r' at hd hr ⊢
  obtain ⟨res, d'⟩ := r
  obtain ⟨res', e'⟩ := r'
  obtain rfl : res' = res := hr
  cases res' with
  | error err => exact ⟨hd, rfl⟩
  | ok seq => exact ⟨hd.setDb (OutboxJournal.queueAs_congr hd.db _ _ _ _), rfl⟩

theorem handleSend_own (h : MailFor q d e) (now : ℤ) (typ : EnvelopeType) {dest : Text}
    (hq : decodeKey dest = .ok q) (payload : Text) :
    MailFor q (d.handleSend now typ dest payload).2 (e.handleSend now typ dest payload).2
      ∧ (e.handleSend now typ dest payload).1 = (d.handleSend now typ dest payload).1 := by
  unfold handleSend
  rw [hq]
  dsimp only
  split
  · exact ⟨h, rfl⟩
  rename_i bytes _
  obtain ⟨hd, hr⟩ := sendAs_own h typ now bytes
  generalize d.sendAs typ now q bytes = r at hd hr ⊢
  generalize e.sendAs typ now q bytes = r' at hd hr ⊢
  obtain ⟨res, d'⟩ := r
  obtain ⟨res', e'⟩ := r'
  obtain rfl : res' = res := hr
  cases res' with
  | error err => exact ⟨hd, rfl⟩
  | ok seq => exact ⟨hd, rfl⟩

theorem history_own (h : MailFor q d e) (afterSeq : UInt64) :
    MailFor q (d.history C q afterSeq).2 (e.history C q afterSeq).2
      ∧ (e.history C q afterSeq).1 = (d.history C q afterSeq).1 := by
  have hpeer : (inboxOf C q).peer = q := rfl
  refine ⟨h.keeps (KeepsTables.boxFor d q) (KeepsTables.boxFor e q), ?_⟩
  simp only [history, h.db.after_eq hpeer, InboxStore.oldest, InboxStore.latest, hpeer,
    h.db.inboxSeqs_eq]

theorem block_own (h : MailFor q d e) :
    MailFor q (d.block true q).2 (e.block true q).2
      ∧ (e.block true q).1 = (d.block true q).1 := by
  have hb := h.blocked
  unfold Daemon.block
  by_cases hq : q ∈ d.blocked
  · rw [if_pos hq, if_pos (hb.1 hq)]
    exact ⟨h, rfl⟩
  · rw [if_neg hq, if_neg (mt hb.2 hq)]
    exact ⟨⟨h.db, by simp [persistBlocked]⟩, rfl⟩

theorem unblock_own (h : MailFor q d e) :
    MailFor q (d.unblock true q).2 (e.unblock true q).2
      ∧ (e.unblock true q).1 = (d.unblock true q).1 := by
  have hb := h.blocked
  unfold Daemon.unblock
  by_cases hq : q ∈ d.blocked
  · rw [if_neg (not_not.2 hq), if_neg (not_not.2 (hb.1 hq))]
    exact ⟨⟨h.db, by simp [persistBlocked]⟩, rfl⟩
  · rw [if_pos hq, if_pos (mt hb.2 hq)]
    exact ⟨h, rfl⟩

theorem handlePacket_own (h : MailFor q d e) (now : ℤ) (data : Bytes) :
    MailFor q (d.handlePacket C now q data).1 (e.handlePacket C now q data).1
      ∧ (e.handlePacket C now q data).2 = (d.handlePacket C now q data).2 := by
  have hbox : MailFor q (d.boxFor q) (e.boxFor q) :=
    h.keeps (KeepsTables.boxFor d q) (KeepsTables.boxFor e q)
  unfold handlePacket
  rw [h.isBlocked_eq]
  split_ifs
  · exact ⟨h, rfl⟩
  rcases decodeEnvelope data with err | env <;> dsimp only
  · exact ⟨h, rfl⟩
  by_cases hf : env.type = typeFile
  · rw [if_pos hf, if_pos hf]
    rcases parseFileHeader env.payload with _ | ⟨tid, index, total⟩ <;> dsimp only
    · exact ⟨hbox, rfl⟩
    have hadd := (attachStore C q).add_congr hbox.db tid index total env.seq env.ts env.payload
    generalize (attachStore C q).add (d.boxFor q).db tid index total env.seq env.ts env.payload = r
      at hadd ⊢
    generalize (attachStore C q).add (e.boxFor q).db tid index total env.seq env.ts env.payload = r'
      at hadd ⊢
    cases hadd with
    | none => exact ⟨hbox, rfl⟩
    | @some a b hab =>
      obtain ⟨isNew, db⟩ := a
      obtain ⟨isNew', db'⟩ := b
      obtain ⟨rfl, hdb⟩ : isNew = isNew' ∧ DB.SameFor q db db' := hab
      exact ⟨(hbox.setDb hdb).keeps (KeepsTables.sendAck _ _ _) (KeepsTables.sendAck _ _ _), rfl⟩
  rw [if_neg hf, if_neg hf]
  by_cases hm : env.type = typeMsg
  · obtain ⟨hdb, hnew⟩ := (inboxOf C q).add_congr hbox.db env.seq env.ts env.payload
    rw [if_pos hm, if_pos hm, hnew]
    exact ⟨(hbox.setDb hdb).keeps (KeepsTables.sendAck _ _ _) (KeepsTables.sendAck _ _ _), rfl⟩
  rw [if_neg hm, if_neg hm]
  by_cases ha : env.type = typeAck
  · obtain ⟨hdb, hremoved⟩ := OutboxJournal.ack_congr hbox.db ((d.boxFor q).sentOf q)
      ((e.boxFor q).sentOf q) env.seq
    rw [if_pos ha, if_pos ha, hremoved]
    exact ⟨⟨hdb, hbox.blocked⟩, rfl⟩
  rw [if_neg ha, if_neg ha]
  split_ifs
  · exact ⟨hbox.keeps (KeepsTables.insertPeer _ _ _) (KeepsTables.insertPeer _ _ _), rfl⟩
  · exact ⟨hbox.keeps (KeepsTables.insertPeer _ _ _) (KeepsTables.insertPeer _ _ _), rfl⟩
  · exact ⟨hbox, rfl⟩

theorem decodeKey_of_mailPeer {t : Text} (h : (decodeKey t).toOption = some q) :
    decodeKey t = .ok q := by
  rcases hkey : decodeKey t with err | key <;> rw [hkey] at h
  · cases h
  · obtain rfl : key = q := Option.some.inj h
    rfl

theorem dispatch_own (h : MailFor q d e) (now : ℤ) {persisted : Bool} {req : Request}
    (hs : (Op.api now persisted req).Saves) (hq : req.mailPeer = some q) :
    MailFor q (d.dispatch C now persisted req).2 (e.dispatch C now persisted req).2
      ∧ (e.dispatch C now persisted req).1 = (d.dispatch C now persisted req).1 := by
  have h' : MailFor q (d.touchClient now) (e.touchClient now) :=
    h.keeps ⟨rfl, rfl, rfl⟩ ⟨rfl, rfl, rfl⟩
  have hbox := h'.keeps (KeepsTables.boxFor _ q) (KeepsTables.boxFor _ q)
  have hpeer : (attachStore C q).peer = q := rfl
  unfold dispatch
  dsimp only
  cases req with
  | send dest payload => exact handleSend_own h' now typeMsg (decodeKey_of_mailPeer hq) payload
  | sendfile dest payload => exact handleSend_own h' now typeFile (decodeKey_of_mailPeer hq) payload
  | history sender seq =>
    obtain ⟨hd, hr⟩ := history_own (C := C) h' seq
    simp only [handleHistory, decodeKey_of_mailPeer hq]
    exact ⟨hd, by rw [hr]⟩
  | pendingattachments sender =>
    simp only [handlePendingAttachments, decodeFromKey, decodeKey_of_mailPeer hq,
      pendingAttachments, h'.db.pendingAttach_eq hpeer]
    exact ⟨hbox, trivial⟩
  | fetchattachment sender tid =>
    simp only [handleFetchAttachment, decodeFromKey, decodeKey_of_mailPeer hq]
    split_ifs
    · exact ⟨h', rfl⟩
    · simp only [fetchAttachment, h'.db.fetchTid_eq hpeer]
      exact ⟨hbox, trivial⟩
  | ackfile sender tid =>
    simp only [handleAckFile, decodeFromKey, decodeKey_of_mailPeer hq]
    split_ifs
    · exact ⟨h', rfl⟩
    · refine ⟨hbox.setDb ?_, rfl⟩
      exact (attachStore C q).ackTid_congr h'.db tid
  | block dest =>
    obtain rfl : persisted = true := hs
    obtain ⟨hd, hr⟩ := block_own h'
    simp only [handleBlock, if_true, decodeKey_of_mailPeer hq]
    generalize (d.touchClient now).block true q = r at hd hr ⊢
    generalize (e.touchClient now).block true q = r' at hd hr ⊢
    obtain ⟨res, d'⟩ := r
    obtain ⟨res', e'⟩ := r'
    obtain rfl : res' = res := hr
    cases res' with
    | error err => exact ⟨hd, rfl⟩
    | ok => exact ⟨hd, rfl⟩
  | unblock dest =>
    obtain rfl : persisted = true := hs
    obtain ⟨hd, hr⟩ := unblock_own h'
    simp only [handleBlock, Bool.false_eq_true, if_false, decodeKey_of_mailPeer hq]
    generalize (d.touchClient now).unblock true q = r at hd hr ⊢
    generalize (e.touchClient now).unblock true q = r' at hd hr ⊢
    obtain ⟨res, d'⟩ := r
    obtain ⟨res', e'⟩ := r'
    obtain rfl : res' = res := hr
    cases res' with
    | error err => exact ⟨hd, rfl⟩
    | ok => exact ⟨hd, rfl⟩
  | whoami | status | presence | watch | setstatus | blocklist | missing | unknown => cases hq

/-- An operation that concerns `q`, on two daemons with the same mail of `q`. -/
theorem step_own (h : MailFor q d e) {op : Op} (hs : op.Saves) (hq : op.concerns q) :
    MailFor q (d.step C op).1 (e.step C op).1 ∧ (e.step C op).2 = (d.step C op).2 := by
  cases op with
  | api now persisted req =>
    obtain ⟨hd, hr⟩ := dispatch_own (C := C) h now hs (of_decide_eq_true hq)
    exact ⟨hd, congrArg (fun r => [Output.reply r]) hr⟩
  | packet now sender data =>
    obtain rfl : sender = q := of_decide_eq_true hq
    obtain ⟨hd, hr⟩ := handlePacket_own (C := C) h now data
    exact ⟨hd, congrArg (List.map Output.event) hr⟩
  | flush | retry | pathUp | tick | writeControl | writeBulk | restart => cases hq

end Own

/-! ### Whole runs -/

/-- No operation concerns two peers. -/
theorem exists_not_concerns (op : Op) : ∃ q, ¬ op.concerns q := by
  by_contra hall
  push Not at hall
  have h0 := hall []
  have h1 := hall [0]
  cases op with
  | api now persisted req =>
    simp only [Op.concerns, decide_eq_true_eq] at h0 h1
    rw [h0] at h1
    cases h1
  | packet now sender data =>
    simp only [Op.concerns, decide_eq_true_eq] at h0 h1
    rw [h0] at h1
    cases h1
  | flush | retry | pathUp | tick | writeControl | writeBulk | restart => cases h0

theorem step_saved {d : Daemon} (hd : d.Saved) {op : Op} (hs : op.Saves) :
    (d.step C op).1.Saved := by
  obtain ⟨q, hq⟩ := exists_not_concerns op
  exact (step_other hd hs hq).1

theorem run_eq (d : Daemon) : ∀ ops : List Op, d.run C ops = Unwinding.run (step C) d ops := by
  intro ops
  induction ops generalizing d with
  | nil => rfl
  | cons op ops ih =>
    simp only [Daemon.run, Unwinding.run, ih]

theorem hides_others (C : Config) (q : PublicKey) :
    Unwinding.Hides (step C) (Op.concerns q) Op.Saves fun d e => d.Saved ∧ MailFor q d e where
  other _ _ _ h hs hq :=
    ⟨step_saved h.1 hs, (step_other h.1 hs hq).2.trans h.2⟩
  own _ _ _ h hs hq :=
    ⟨⟨step_saved h.1 hs, (step_own h.2 hs hq).1⟩, (step_own h.2 hs hq).2.symm⟩

/-- What the daemon put out at the operations of a run that concern `q`: the replies to the requests
about its mail and the events its packets gave rise to. -/
def answersAbout (C : Config) (q : PublicKey) (d : Daemon) (ops : List Op) : List Output :=
  Unwinding.shown (step C) (Op.concerns q) d ops

/-- For every run in which the changes of the block list could be written, with any number of other
peers, flush and retry passes, presence rounds and restarts, and every peer: the rows the daemon
holds for the peer, whether it is blocked, and every reply and event about it are those of the run
that consists of the requests about the peer and of its packets alone. -/
theorem own_mail_only (C : Config) (q : PublicKey) {d : Daemon} (hd : d.Saved) {ops : List Op}
    (hs : ∀ op ∈ ops, op.Saves) :
    (d.run C ops).1.db.SameFor q (d.run C (ops.filter (Op.concerns q))).1.db
      ∧ (q ∈ (d.run C ops).1.blocked ↔ q ∈ (d.run C (ops.filter (Op.concerns q))).1.blocked)
      ∧ answersAbout C q d ops = (d.run C (ops.filter (Op.concerns q))).2 := by
  obtain ⟨⟨-, hmail⟩, hshown⟩ := Unwinding.run_purge (step C) (Op.concerns q) (hides_others C q) ops
    ⟨hd, MailFor.refl q d⟩ hs
  rw [run_eq, run_eq]
  exact ⟨hmail.db, hmail.blocked, hshown⟩

/-- Two peers send a text each; the daemon starts again and gets the text of the first once more. -/
theorem own_mail_only_two :
    let C : Config := ⟨1, 0, 0, 0, 65555⟩
    let text : Bytes := (Envelope.encode ⟨1, typeMsg, 7, 0, [104]⟩).toOption.getD []
    let ops : List Op := [.packet 0 [1] text, .packet 0 [2] text, .restart, .packet 0 [1] text,
      .tick 0 []]
    (∀ op ∈ ops, op.Saves)
      ∧ answersAbout C [1] {} ops = [.event (.recv [1] 7 0 [104])]
      ∧ (({} : Daemon).run C (ops.filter (Op.concerns [1]))).2 = answersAbout C [1] {} ops := by
  intro C text ops
  have hs : ∀ op ∈ ops, op.Saves := by simp [ops, Op.Saves]
  refine ⟨hs, by decide +kernel, ?_⟩
  exact (own_mail_only C [1] (d := {}) (fun _ => Iff.rfl) hs).2.2.symm

end Daemon

end Aimless
