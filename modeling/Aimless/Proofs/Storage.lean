import Aimless.Proofs.Delivery
import Aimless.Proofs.Chunks
import Aimless.Proofs.Budget

/-!
# What a daemon stores stays within its bounds

An operation of a daemon is at most one transaction on its tables (`Daemon.step_acts`), and adds to
its queues only by `send` and `sendBulk` (`Daemon.step_node`).  What every transaction keeps of the
tables and each of the two keeps of the queues therefore holds in all runs, restarts included.
-/

namespace Aimless

/-- The transactions of a daemon. -/
inductive DB.Acts (C : Config) (db : DB) : DB → Prop
  | same : DB.Acts C db db
  | queued {dest : PublicKey} {seq : UInt64} (ts : Int64) (payload : Bytes) (typ : EnvelopeType)
      (h : (OutboxJournal.nextSeq db dest).1 = some seq) :
      DB.Acts C db
        (OutboxJournal.queueAs (OutboxJournal.nextSeq db dest).2 dest seq ts payload typ)
  | acked (peer : PublicKey) (sent : OutboxJournal.Sent) (seq : UInt64) :
      DB.Acts C db (OutboxJournal.ack db peer sent seq).2.1
  | added (peer : PublicKey) (seq : UInt64) (ts : Int64) (payload : Bytes) :
      DB.Acts C db ((Daemon.inboxOf C peer).add db seq ts payload).2
  | stored {peer : PublicKey} {tid : Text} {index total : UInt16} {seq : UInt64} {ts : Int64}
      {payload : Bytes} {isNew : Bool} {db' : DB}
      (h : (Daemon.attachStore C peer).add db tid index total seq ts payload = some (isNew, db')) :
      DB.Acts C db db'
  | consumed (peer : PublicKey) (tid : Text) :
      DB.Acts C db ((Daemon.attachStore C peer).ackTid db tid)

variable {C : Config}

namespace Daemon

/-! ### One operation on the tables -/

theorem beginSend_error_db {d d' : Daemon} {dest : PublicKey} {e : MailError}
    (h : d.beginSend dest = (.error e, d')) : d'.db = d.db := by
  have hbox := d.boxFor_db dest
  unfold beginSend at h
  split at h
  · cases h
    rfl
  dsimp only at h
  split at h
  · rename_i db hnone
    cases h
    rw [← hbox]
    unfold OutboxJournal.nextSeq at hnone
    dsimp only at hnone
    split at hnone
    · cases hnone
    · exact (congrArg Prod.snd hnone).symm
  · cases h

theorem sendAs_acts (typ : EnvelopeType) (now : ℤ) (d : Daemon) (dest : PublicKey)
    (payload : Bytes) : d.db.Acts C (d.sendAs typ now dest payload).2.db := by
  unfold sendAs
  rcases hb : d.beginSend dest with ⟨e | seq, d'⟩
  · dsimp only
    rw [beginSend_error_db hb]
    exact .same
  · obtain ⟨hseq, hd', -⟩ := beginSend_ok hb
    dsimp only [finishSend]
    rw [hd']
    exact .queued _ _ _ hseq

theorem dispatch_acts (now : ℤ) (persisted : Bool) (d : Daemon) (req : Request) :
    d.db.Acts C (d.dispatch C now persisted req).2.db := by
  have h := d.dispatch_dispatched (C := C) now persisted req
  generalize (d.dispatch C now persisted req).2 = d' at h ⊢
  have hsame : ∀ {db' : DB}, db' = d.db → d.db.Acts C db' := fun h => h ▸ .same
  cases h with
  | reads => exact .same
  | opens key => exact hsame (boxFor_db _ _)
  | send key bytes => exact sendAs_acts typeMsg now (d.touchClient now) key bytes
  | sendfile key bytes => exact sendAs_acts typeFile now (d.touchClient now) key bytes
  | ackfile hkey => exact .consumed _ _
  | watch key => exact hsame (watch_db persisted _ key)
  | setstatus hb bytes => exact hsame (sendStatus_db now _ _ _ _)
  | block key => exact hsame (block_db persisted _ key)
  | unblock key => exact hsame (unblock_db persisted _ key)

theorem handlePacket_acts (now : ℤ) (d : Daemon) (sender : PublicKey) (data : Bytes) :
    d.db.Acts C (d.handlePacket C now sender data).1.db := by
  have hh := handlePacket_handled (C := C) now d sender data
  generalize d.handlePacket C now sender data = r at hh ⊢
  have hsame : ∀ {db' : DB}, db' = d.db → d.db.Acts C db' := fun h => h ▸ .same
  cases hh with
  | drop => exact .same
  | ignored => exact hsame (boxFor_db _ _)
  | file hb he ht hhead hadd =>
    dsimp only
    rw [sendAck_db]
    exact .stored hadd
  | msg hb he ht =>
    dsimp only
    rw [sendAck_db]
    exact .added _ _ _ _
  | ack hb he ht => exact .acked sender (d.sentOf sender) _
  | probe => exact hsame (boxFor_db _ _)
  | status => exact hsame (boxFor_db _ _)

theorem step_acts (d : Daemon) (op : Op) : d.db.Acts C (d.step C op).1.db := by
  have hsame : ∀ {db' : DB}, db' = d.db → d.db.Acts C db' := fun h => h ▸ .same
  cases op with
  | api now persisted req => exact dispatch_acts now persisted d req
  | packet now sender data => exact handlePacket_acts now d sender data
  | flush now stamp peer => exact hsame (d.flushPeer_db now stamp peer)
  | retry now stamp order => exact hsame (d.retryRound_db now stamp order)
  | pathUp now stamp key =>
    exact hsame ((probeOne_db now _ key).trans (d.flushPeer_db now stamp key))
  | tick now order => exact hsame (tick_db now order d)
  | writeControl =>
    unfold Daemon.step
    dsimp only
    split <;> exact .same
  | writeBulk =>
    unfold Daemon.step
    dsimp only
    split <;> exact .same
  | restart => exact hsame (d.restart_spec []).2.1

/-- What every transaction keeps holds of the tables after any run. -/
theorem run_tables {P : DB → Prop} (hacts : ∀ db db', db.Acts C db' → P db → P db') :
    ∀ (ops : List Op) {d : Daemon}, P d.db → P (d.run C ops).1.db
  | [], _, h => h
  | op :: ops, d, h => run_tables hacts ops (hacts _ _ (d.step_acts op) h)

/-! ### One operation on the queues -/

theorem beginSend_node (d : Daemon) (dest : PublicKey) : (d.beginSend dest).2.node = d.node := by
  have hbox := d.boxFor_node dest
  unfold beginSend
  split
  · rfl
  dsimp only
  split <;> exact hbox

theorem sendAs_node (typ : EnvelopeType) (now : ℤ) (d : Daemon) (dest : PublicKey)
    (payload : Bytes) : (d.sendAs typ now dest payload).2.node = d.node := by
  have hbegin := d.beginSend_node dest
  unfold sendAs
  split <;> rename_i heq <;> rw [heq] at hbegin <;> exact hbegin

theorem watch_node (persisted : Bool) (d : Daemon) (k : PublicKey) :
    (d.watch persisted k).2.node = d.node := by
  have hbox := d.boxFor_node k
  unfold watch
  split
  · rfl
  dsimp only
  split
  · exact hbox
  split <;> exact hbox

theorem block_node (persisted : Bool) (d : Daemon) (k : PublicKey) :
    (d.block persisted k).2.node = d.node := by
  unfold block persistBlocked
  split
  · rfl
  split <;> rfl

theorem unblock_node (persisted : Bool) (d : Daemon) (k : PublicKey) :
    (d.unblock persisted k).2.node = d.node := by
  unfold unblock persistBlocked
  split
  · rfl
  split <;> rfl

/-- A property of the queues that enqueuing keeps, and taking the head of a queue. -/
structure KeptByQueues (C : Config) (P : Node → Prop) : Prop where
  empty : P {}
  send : ∀ {n n' : Node} {pub : PublicKey} {data : Bytes}, n.send C.mtu pub data = .ok n' →
    P n → P n'
  sendBulk : ∀ {n n' : Node} {pub : PublicKey} {data : Bytes}, n.sendBulk C.mtu pub data = .ok n' →
    P n → P n'
  control : ∀ {n : Node} {out : Outbound} {rest : List Outbound}, n.control = out :: rest →
    P n → P { n with control := rest }
  bulk : ∀ {n : Node} {out : Outbound} {rest : List Outbound}, n.bulk = out :: rest →
    P n → P { n with bulk := rest }

namespace KeptByQueues

variable {P : Node → Prop} {d : Daemon}

theorem sendControl (K : KeptByQueues C P) (h : P d.node) (dest : PublicKey) (env : Envelope) :
    P (d.sendControl C dest env).2.node := by
  unfold Daemon.sendControl
  split
  · exact h
  split
  · exact h
  · rename_i hsend
    exact K.send hsend h

theorem sendAck (K : KeptByQueues C P) (h : P d.node) (dest : PublicKey) (seq : UInt64) :
    P (d.sendAck C dest seq).node := by
  unfold Daemon.sendAck
  split
  · exact h
  split
  · exact h
  · rename_i hsend
    exact K.send hsend h

theorem probeOne (K : KeptByQueues C P) (h : P d.node) (now : ℤ) (pub : PublicKey) :
    P (d.probeOne C now pub).node := by
  have hprobe : P (d.sendProbe C now pub).2.node :=
    K.sendControl (d := { d with probeSeq := d.probeSeq + 1 }) h pub _
  unfold Daemon.probeOne
  split
  · exact h
  dsimp only
  split
  · exact K.sendControl hprobe pub _
  split
  · exact K.sendControl hprobe pub _
  · exact hprobe

theorem probes (K : KeptByQueues C P) (now : ℤ) : ∀ (keys : List PublicKey) {d : Daemon},
    P d.node → P (keys.foldl (Daemon.probeOne C now) d).node
  | [], _, h => h
  | key :: keys, _, h => K.probes now keys (K.probeOne h now key)

theorem flushEntry (K : KeptByQueues C P) (h : P d.node) (now : ℤ) (stamp : UInt64 → ℤ)
    (pub : PublicKey) (entry : JournalEntry) :
    P (Daemon.flushEntry C now stamp pub d entry).node := by
  unfold Daemon.flushEntry
  split
  · exact h
  split
  · exact h
  dsimp only
  split
  · exact h
  split
  · exact h
  · rename_i hsend
    split_ifs at hsend
    · exact K.sendBulk hsend h
    · exact K.send hsend h

theorem flushPeer (K : KeptByQueues C P) (h : P d.node) (now : ℤ) (stamp : UInt64 → ℤ)
    (peer : PublicKey) : P (d.flushPeer C now stamp peer).node := by
  have hfold : ∀ (entries : List JournalEntry) (d : Daemon), P d.node →
      P (entries.foldl (Daemon.flushEntry C now stamp peer) d).node := by
    intro entries
    induction entries with
    | nil => exact fun _ h => h
    | cons entry entries ih => exact fun d h => ih _ (K.flushEntry h now stamp peer entry)
  exact hfold _ d h

theorem retryRound (K : KeptByQueues C P) (h : P d.node) (now : ℤ) (stamp : UInt64 → ℤ)
    (order : List PublicKey) : P (d.retryRound C now stamp order).node := by
  unfold Daemon.retryRound
  generalize order.filter (· ∈ d.boxes) = keys
  induction keys generalizing d with
  | nil => exact h
  | cons key keys ih =>
    rw [List.foldl_cons]
    apply ih
    split
    · exact K.flushPeer h now stamp key
    · exact h

theorem dispatch (K : KeptByQueues C P) (h : P d.node) (now : ℤ) (persisted : Bool)
    (req : Request) : P (d.dispatch C now persisted req).2.node := by
  have hd := d.dispatch_dispatched (C := C) now persisted req
  generalize (d.dispatch C now persisted req).2 = d' at hd ⊢
  have hsame : ∀ {n : Node}, n = d.node → P n := fun hn => hn ▸ h
  cases hd with
  | reads => exact h
  | opens key => exact hsame (boxFor_node _ _)
  | send key bytes => exact hsame (sendAs_node _ _ _ _ _)
  | sendfile key bytes => exact hsame (sendAs_node _ _ _ _ _)
  | ackfile hkey => exact hsame (boxFor_node _ _)
  | watch key => exact hsame (watch_node _ _ _)
  | setstatus hb bytes =>
    unfold Daemon.setStatus
    dsimp only
    refine K.sendControl ?_ _ _
    exact h
  | block key => exact hsame (block_node _ _ _)
  | unblock key => exact hsame (unblock_node _ _ _)

theorem handlePacket (K : KeptByQueues C P) (h : P d.node) (now : ℤ) (sender : PublicKey)
    (data : Bytes) : P (d.handlePacket C now sender data).1.node := by
  have hh := handlePacket_handled (C := C) now d sender data
  generalize d.handlePacket C now sender data = r at hh ⊢
  have hbox : P (d.boxFor sender).node := d.boxFor_node sender ▸ h
  cases hh with
  | drop => exact h
  | file | msg =>
    refine K.sendAck ?_ _ _
    exact hbox
  | ignored | ack | probe | status => exact hbox

theorem step (K : KeptByQueues C P) (h : P d.node) (op : Op) : P (d.step C op).1.node := by
  cases op with
  | api now persisted req => exact K.dispatch h now persisted req
  | packet now sender data => exact K.handlePacket h now sender data
  | flush now stamp peer => exact K.flushPeer h now stamp peer
  | retry now stamp order => exact K.retryRound h now stamp order
  | pathUp now stamp key => exact K.probeOne (K.flushPeer h now stamp key) now key
  | tick now order => exact K.probes now _ h
  | writeControl =>
    unfold Daemon.step
    dsimp only
    split
    · exact h
    · exact K.control ‹_› h
  | writeBulk =>
    unfold Daemon.step
    dsimp only
    split
    · exact h
    · exact K.bulk ‹_› h
  | restart =>
    show P d.restart.node
    rw [(d.restart_spec []).2.2]
    exact K.empty

theorem run (K : KeptByQueues C P) : ∀ (ops : List Op) {d : Daemon}, P d.node →
    P (d.run C ops).1.node
  | [], _, h => h
  | op :: ops, _, h => K.run ops (K.step h op)

end KeptByQueues

/-- A queue has its capacity, and all that waits in it can be written. -/
structure Queues (C : Config) (n : Node) : Prop where
  control_le : n.control.length ≤ controlCap
  bulk_le : n.bulk.length ≤ bulkCap
  fits : ∀ out ∈ n.control ++ n.bulk, out.pub.length = publicKeySize ∧ out.data.length ≤ C.mtu

theorem queues_kept : KeptByQueues C (Queues C) where
  empty := ⟨by simp, by simp, by simp⟩
  send hsend h := by
    obtain ⟨hpub, hdata, hlt, rfl⟩ := Node.send_ok.1 hsend
    refine ⟨?_, h.bulk_le, fun out hout => ?_⟩
    · rw [List.length_append, List.length_singleton]
      omega
    · simp only [List.mem_append, List.mem_singleton] at hout
      rcases hout with (hout | rfl) | hout
      · exact h.fits out (List.mem_append_left _ hout)
      · exact ⟨hpub, hdata⟩
      · exact h.fits out (List.mem_append_right _ hout)
  sendBulk hsend h := by
    obtain ⟨hpub, hdata, hlt, rfl⟩ := Node.sendBulk_ok.1 hsend
    refine ⟨h.control_le, ?_, fun out hout => ?_⟩
    · rw [List.length_append, List.length_singleton]
      omega
    · simp only [List.mem_append, List.mem_singleton] at hout
      rcases hout with hout | hout | rfl
      · exact h.fits out (List.mem_append_left _ hout)
      · exact h.fits out (List.mem_append_right _ hout)
      · exact ⟨hpub, hdata⟩
  control heq h := by
    have hlen := h.control_le
    rw [heq, List.length_cons] at hlen
    refine ⟨(Nat.le_succ _).trans hlen, h.bulk_le, fun out hout => h.fits out ?_⟩
    rw [heq, List.cons_append]
    exact List.mem_cons_of_mem _ hout
  bulk heq h := by
    have hlen := h.bulk_le
    rw [heq, List.length_cons] at hlen
    refine ⟨h.control_le, (Nat.le_succ _).trans hlen, fun out hout => h.fits out ?_⟩
    rw [heq]
    rcases List.mem_append.1 hout with hout | hout
    · exact List.mem_append_left _ hout
    · exact List.mem_append_right _ (List.mem_cons_of_mem _ hout)

/-! ### The outbox and its counters -/

/-- A row has a key of its own, and a seq that its peer's counter has passed. -/
structure Outboxed (db : DB) : Prop where
  keys : (db.outbox.map fun r => (r.peer, r.seq)).Nodup
  counters : (db.outboxSeq.map (·.peer)).Nodup
  positive : ∀ p, 1 ≤ OutboxJournal.counter db p
  counted : ∀ r ∈ db.outbox, 1 ≤ r.seq.toInt ∧ r.seq.toInt < OutboxJournal.counter db r.peer

theorem Outboxed.ofSame {db db' : DB} (h : Outboxed db) (hrows : db'.outbox = db.outbox)
    (hseqs : db'.outboxSeq = db.outboxSeq) : Outboxed db' := by
  have hcounter : OutboxJournal.counter db' = OutboxJournal.counter db := by
    unfold OutboxJournal.counter
    rw [hseqs]
  refine ⟨?_, ?_, ?_, ?_⟩
  · rw [hrows]
    exact h.keys
  · rw [hseqs]
    exact h.counters
  · rw [hcounter]
    exact h.positive
  · rw [hrows, hcounter]
    exact h.counted

/-- The counters keep their keys. -/
theorem nextSeq_counters {db : DB} (h : (db.outboxSeq.map (·.peer)).Nodup) (dest : PublicKey) :
    ((OutboxJournal.nextSeq db dest).2.outboxSeq.map (·.peer)).Nodup := by
  unfold OutboxJournal.nextSeq
  dsimp only
  split
  swap
  · exact h
  rw [List.map_map]
  have hpeer : (OutboxSeqRow.peer ∘ fun r : OutboxSeqRow =>
      if r.peer = dest then { r with next := r.next + 1 } else r) = OutboxSeqRow.peer := by
    funext r
    simp only [Function.comp_apply]
    split <;> rfl
  rw [hpeer]
  split
  · exact h
  · rename_i hany
    rw [List.map_append, List.map_singleton]
    refine h.append (List.nodup_singleton _) ?_
    rw [List.disjoint_singleton]
    intro hmem
    obtain ⟨r, hr, hp⟩ := List.mem_map.1 hmem
    exact hany (List.any_eq_true.2 ⟨r, hr, by simpa using hp⟩)

theorem Outboxed.queued {db : DB} (h : Outboxed db) {dest : PublicKey} {seq : UInt64} (ts : Int64)
    (payload : Bytes) (typ : EnvelopeType)
    (hseq : (OutboxJournal.nextSeq db dest).1 = some seq) :
    Outboxed
      (OutboxJournal.queueAs (OutboxJournal.nextSeq db dest).2 dest seq ts payload typ) := by
  obtain ⟨hlt, rfl, hnext⟩ := OutboxJournal.nextSeq_some hseq
  have hrows : (OutboxJournal.nextSeq db dest).2.outbox = db.outbox := by
    obtain ⟨rows, hdb⟩ := OutboxJournal.nextSeq_outboxSeq db dest
    rw [hdb]
  have hother : ∀ q, q ≠ dest → OutboxJournal.counter (OutboxJournal.nextSeq db dest).2 q
      = OutboxJournal.counter db q := fun q hq =>
    OutboxJournal.counter_eq (OutboxJournal.nextSeq_sameFor hq).outboxSeq
  have hle : ∀ q, OutboxJournal.counter db q
      ≤ OutboxJournal.counter (OutboxJournal.nextSeq db dest).2 q := by
    intro q
    by_cases hq : q = dest
    · subst hq
      omega
    · rw [hother q hq]
  have hpos := h.positive dest
  have htoInt : (UInt64.ofNat (OutboxJournal.counter db dest)).toInt64.toInt
      = OutboxJournal.counter db dest := by
    have hmod : (UInt64.ofNat (OutboxJournal.counter db dest)).toNat
        = OutboxJournal.counter db dest := UInt64.toNat_ofNat_of_lt' (lt_trans hlt (by decide))
    have hint : (UInt64.ofNat (OutboxJournal.counter db dest)).toBitVec.toInt
        = (UInt64.ofNat (OutboxJournal.counter db dest)).toBitVec.toNat :=
      BitVec.toInt_eq_toNat_of_lt (by simpa [hmod] using (by omega : 2 * _ < 2 ^ 64))
    exact hint.trans (congrArg Nat.cast hmod)
  have hnew : ∀ q, OutboxJournal.counter (OutboxJournal.queueAs (OutboxJournal.nextSeq db dest).2
      dest (UInt64.ofNat (OutboxJournal.counter db dest)) ts payload typ) q
      = OutboxJournal.counter (OutboxJournal.nextSeq db dest).2 q := fun _ => rfl
  refine ⟨?_, nextSeq_counters h.counters dest, fun q => ?_, fun r hr => ?_⟩
  · unfold OutboxJournal.queueAs
    dsimp only
    rw [hrows, List.map_append, List.map_singleton]
    refine (h.keys.sublist (List.filter_sublist.map _)).append (List.nodup_singleton _) ?_
    rw [List.disjoint_singleton]
    intro hmem
    obtain ⟨r, hr, heq⟩ := List.mem_map.1 hmem
    simp only [Prod.mk.injEq] at heq
    exact of_decide_eq_true (List.mem_filter.1 hr).2 heq
  · rw [hnew]
    exact (h.positive q).trans (hle q)
  · rw [hnew]
    rcases List.mem_append.1 hr with hr | hr
    · rw [hrows] at hr
      have hrow := h.counted r (List.mem_filter.1 hr).1
      have := hle r.peer
      omega
    · obtain rfl := List.mem_singleton.1 hr
      dsimp only
      rw [htoInt, hnext]
      omega

theorem Outboxed.acts {db db' : DB} (h : Outboxed db) (ha : db.Acts C db') : Outboxed db' := by
  cases ha with
  | same => exact h
  | queued ts payload typ hseq => exact h.queued ts payload typ hseq
  | acked peer sent seq =>
    refine ⟨h.keys.sublist (List.filter_sublist.map _), h.counters, h.positive, fun r hr => ?_⟩
    exact h.counted r (List.mem_filter.1 hr).1
  | added peer seq ts payload =>
    obtain ⟨hrows, hseqs⟩ := (inboxOf C peer).add_outbox db seq ts payload
    exact h.ofSame hrows hseqs
  | stored hadd =>
    obtain ⟨rows, rfl⟩ := AttachmentStore.add_attach _ hadd
    exact h.ofSame rfl rfl
  | consumed peer tid => exact h.ofSame rfl rfl

/-! ### The chunks -/

/-- The bytes of every peer's chunks are within the budget; below a budget of 0 there are none. -/
def Budgeted (C : Config) (db : DB) : Prop :=
  ∀ p, ((attachStore C p).bytes db : ℤ) ≤ max C.attachCap 0

theorem Budgeted.ofSame {db db' : DB} (h : Budgeted C db) (hrows : db'.attach = db.attach) :
    Budgeted C db' := by
  intro p
  have hbytes : (attachStore C p).bytes db' = (attachStore C p).bytes db := by
    unfold AttachmentStore.bytes DB.attachOf
    rw [hrows]
  rw [hbytes]
  exact h p

theorem Budgeted.stored {db db' : DB} {peer : PublicKey} {tid : Text} {index total : UInt16}
    {seq : UInt64} {ts : Int64} {payload : Bytes} {isNew : Bool} (h : Budgeted C db)
    (hadd : (attachStore C peer).add db tid index total seq ts payload = some (isNew, db')) :
    Budgeted C db' := by
  intro p
  by_cases hp : p = peer
  · subst hp
    have hdb : db' = ((attachStore C p).addTx db tid index total seq ts payload).2 := by
      rw [AttachmentStore.add_eq_addTx] at hadd
      split at hadd <;> rename_i heq <;> cases hadd <;> rw [heq]
    by_cases hcap : 0 ≤ C.attachCap
    · have hle := h p
      rw [max_eq_left hcap] at hle ⊢
      rw [hdb]
      exact AttachmentStore.bytes_addTx_le hle
    · -- not even an empty chunk fits
      have hover : (payload.length : ℤ) > (attachStore C p).capBytes := by
        show (payload.length : ℤ) > C.attachCap
        omega
      have hold : ((attachStore C p).addTx db tid index total seq ts payload).1 ≠ .isNew := by
        unfold AttachmentStore.addTx AttachmentStore.addWork
        split_ifs <;> simp
      rw [hdb, AttachmentStore.addTx_eq_of_ne hold]
      exact h p
  · have hsame := AttachmentStore.add_sameFor (attachStore C peer) hp hadd
    rw [DB.SameFor.bytes_eq hsame rfl]
    exact h p

theorem Budgeted.acts {db db' : DB} (h : Budgeted C db) (ha : db.Acts C db') : Budgeted C db' := by
  cases ha with
  | same => exact h
  | queued ts payload typ hseq =>
    rename_i dest seq
    obtain ⟨rows, hdb⟩ := OutboxJournal.nextSeq_outboxSeq db dest
    rw [hdb]
    exact h.ofSame rfl
  | acked peer sent seq => exact h.ofSame rfl
  | added peer seq ts payload =>
    obtain ⟨inbox, seen, state, hdb⟩ := (inboxOf C peer).add_tables db seq ts payload
    rw [hdb]
    exact h.ofSame rfl
  | stored hadd => exact h.stored hadd
  | consumed peer tid =>
    intro p
    by_cases hp : p = peer
    · subst hp
      have hle := (attachStore C p).bytes_ackTid_le db tid
      have := h p
      omega
    · have hsame := AttachmentStore.ackTid_sameFor (attachStore C peer) hp db tid
      rw [DB.SameFor.bytes_eq hsame rfl]
      exact h p

/-! ### The window of a peer and its guard -/

/-- A peer's messages have seqs of their own, and so have the entries of its replay guard, all of
them older; each is within its bound, and the lowest seq retained is on record. -/
structure Windowed (box : InboxStore) (db : DB) : Prop where
  nodup : (db.inboxSeqs box.peer).Nodup
  nodupSeen : (db.seenSeqs box.peer).Nodup
  length_le : (db.inboxSeqs box.peer).length ≤ box.capacity
  seen_le : (db.seenSeqs box.peer).length ≤ box.seenCap
  older : ∀ s ∈ db.seenSeqs box.peer, ∀ t ∈ db.inboxSeqs box.peer, s < t
  retained : box.retainedMin db = sqlMin (db.inboxSeqs box.peer)

theorem windowed {box : InboxStore} {h : List Offer} {db : DB} (I : InboxInv box h db) :
    Windowed box db where
  nodup := I.nodup
  nodupSeen := I.nodupSeen
  length_le := by
    rw [← List.toFinset_card_of_nodup I.nodup, I.window, Window.card_largest]
    exact min_le_left _ _
  seen_le := by
    rw [← List.toFinset_card_of_nodup I.nodupSeen, I.guard, Window.card_largest]
    exact min_le_left _ _
  older s hs t ht := by
    rw [← List.mem_toFinset, I.guard] at hs
    rw [← List.mem_toFinset, I.window] at ht
    obtain ⟨hoffered, hrest⟩ := Finset.mem_sdiff.1 (Window.largest_subset _ _ hs)
    exact Window.lt_of_mem_largest ht hoffered hrest
  retained := I.retained

/-- What a daemon stores and queues is within its bounds. -/
structure Bounded (C : Config) (d : Daemon) : Prop where
  outbox : Outboxed d.db
  inbox : ∀ p, Windowed (inboxOf C p) d.db
  chunks : Chunks d.db
  budget : Budgeted C d.db
  queues : Queues C d.node

/-- In every run. -/
theorem run_bounded (C : Config) (ops : List Op) : Bounded C (({} : Daemon).run C ops).1 where
  outbox := run_tables (fun _ _ ha h => Outboxed.acts h ha) ops
    ⟨by simp, by simp, fun _ => le_rfl, by simp⟩
  inbox p := windowed (run_inboxInv p ops)
  chunks := Chunks.run ops ⟨by simp, by simp⟩
  budget := run_tables (fun _ _ ha h => Budgeted.acts h ha) ops fun p => le_max_right _ _
  queues := queues_kept.run ops queues_kept.empty

end Daemon

end Aimless
