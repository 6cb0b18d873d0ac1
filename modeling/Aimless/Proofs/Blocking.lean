import Aimless.Proofs.Isolation

/-!
# A blocked peer is cut off

`Daemon.Quiet p d d'` says that between the two daemons nothing was enqueued for `p` and that `p`'s
undelivered rows were neither removed nor stamped.  Every operation keeps it while `p` is blocked:
one on another peer because it touches that peer only, one on `p` because it finds the block.
-/

namespace Aimless

namespace Daemon

variable {C : Config}

/-- The packets for `p` that are waiting in a queue. -/
def addressedTo (p : PublicKey) (queue : List Outbound) : List Outbound :=
  queue.filter fun out => out.pub = p

structure Quiet (p : PublicKey) (d d' : Daemon) : Prop where
  control : addressedTo p d'.node.control = addressedTo p d.node.control
  bulk : addressedTo p d'.node.bulk = addressedTo p d.node.bulk
  outbox : Table.rowsOf OutboxRow.peer d'.db.outbox p = Table.rowsOf OutboxRow.peer d.db.outbox p
  sent : ∀ seq t, (d'.sentOf p).lookup seq = some t → (d.sentOf p).lookup seq = some t

namespace Quiet

variable {p k : PublicKey} {d d₁ d₂ : Daemon}

theorem refl (p : PublicKey) (d : Daemon) : Quiet p d d :=
  ⟨rfl, rfl, rfl, fun _ _ h => h⟩

theorem trans (h₁ : Quiet p d d₁) (h₂ : Quiet p d₁ d₂) : Quiet p d d₂ where
  control := h₂.control.trans h₁.control
  bulk := h₂.bulk.trans h₁.bulk
  outbox := h₂.outbox.trans h₁.outbox
  sent seq t h := h₁.sent seq t (h₂.sent seq t h)

theorem addressedTo_append {l l' : List Outbound} (hk : k ≠ p)
    (h : ∃ extra, l' = l ++ extra ∧ ∀ out ∈ extra, out.pub = k) :
    addressedTo p l' = addressedTo p l := by
  obtain ⟨extra, rfl, he⟩ := h
  have hnil : addressedTo p extra = [] := by
    refine List.filter_eq_nil_iff.2 fun out hout => ?_
    simp [he out hout, hk]
  unfold addressedTo at hnil ⊢
  rw [List.filter_append, hnil, List.append_nil]

/-- An operation on another peer. -/
theorem ofOnly (hk : k ≠ p) (h : Only k d d₁) : Quiet p d d₁ where
  control := addressedTo_append hk h.control
  bulk := addressedTo_append hk h.bulk
  outbox := (h.db p hk.symm).outbox
  sent seq t hs := by
    unfold sentOf at hs ⊢
    rwa [h.boxes p hk.symm] at hs

/-- An operation on some peer: only the case of `p` itself is left. -/
theorem ofKey (h : Only k d d₁) (hp : k = p → Quiet p d d₁) : Quiet p d d₁ := by
  by_cases hk : k = p
  · exact hp hk
  · exact ofOnly hk h

/-- An operation that leaves queues, tables and mailboxes alone. -/
theorem ofSame (hn : d₁.node = d.node) (hdb : d₁.db = d.db) (hs : d₁.boxes = d.boxes) :
    Quiet p d d₁ where
  control := by rw [hn]
  bulk := by rw [hn]
  outbox := by rw [hdb]
  sent seq t h := by
    unfold sentOf at h ⊢
    rwa [hs] at h

theorem boxFor (d : Daemon) (k : PublicKey) : Quiet p d (d.boxFor k) := by
  have hsent := d.boxFor_sentOf k p
  rcases d.boxFor_cases k with h | h
  · rw [h]
    exact refl p d
  · rw [h] at hsent ⊢
    exact { refl p d with sent := fun seq t ht => by rwa [hsent] at ht }

end Quiet

section Blocked

variable {p : PublicKey} {d : Daemon} (hb : p ∈ d.blocked)

include hb

theorem isBlocked_of_mem : d.isBlocked p = true := decide_eq_true hb

theorem sendAs_blocked (typ : EnvelopeType) (now : ℤ) (payload : Bytes) :
    d.sendAs typ now p payload = (.error .peerBlocked, d) := by
  simp only [sendAs, beginSend, isBlocked_of_mem hb, if_true]

theorem flushPeer_blocked (now : ℤ) (stamp : UInt64 → ℤ) : d.flushPeer C now stamp p = d := by
  simp only [flushPeer, flushEntries, isBlocked_of_mem hb, if_true, List.foldl_nil]

theorem probeOne_blocked (now : ℤ) : d.probeOne C now p = d := by
  simp only [probeOne, isBlocked_of_mem hb, if_true]

theorem watch_blocked (persisted : Bool) : d.watch persisted p = (.error .peerBlocked, d) := by
  simp only [watch, isBlocked_of_mem hb, if_true]

theorem handlePacket_blocked (now : ℤ) (data : Bytes) :
    d.handlePacket C now p data = (d, []) := by
  simp only [handlePacket, isBlocked_of_mem hb, if_true]

theorem snapshot_blocked (now : ℤ) : ∀ e ∈ d.snapshot C now, e.key ≠ p := by
  intro e he
  unfold snapshot at he
  rw [List.mem_insertionSort, List.mem_map] at he
  obtain ⟨x, hx, rfl⟩ := he
  rw [List.mem_filter, decide_eq_true_eq] at hx
  rintro rfl
  exact hx.2 (isBlocked_of_mem hb)

end Blocked

section Step

variable {p : PublicKey}

theorem flushPeer_quiet {d : Daemon} (hb : p ∈ d.blocked) (now : ℤ) (stamp : UInt64 → ℤ)
    (k : PublicKey) : Quiet p d (d.flushPeer C now stamp k) := by
  refine Quiet.ofKey (d.flushPeer_only now stamp k) ?_
  rintro rfl
  rw [flushPeer_blocked hb]
  exact Quiet.refl k d

theorem probeOne_quiet {d : Daemon} (hb : p ∈ d.blocked) (now : ℤ) (k : PublicKey) :
    Quiet p d (d.probeOne C now k) := by
  refine Quiet.ofKey (d.probeOne_only now k) ?_
  rintro rfl
  rw [probeOne_blocked hb]
  exact Quiet.refl k d

/-- A loop over peers whose body keeps the block list. -/
theorem foldl_quiet {f : Daemon → PublicKey → Daemon}
    (hf : ∀ d k, p ∈ d.blocked → Quiet p d (f d k) ∧ (f d k).blocked = d.blocked) :
    ∀ (keys : List PublicKey) (d : Daemon), p ∈ d.blocked → Quiet p d (keys.foldl f d)
  | [], d, _ => Quiet.refl p d
  | k :: keys, d, hb => by
    obtain ⟨hq, hblocked⟩ := hf d k hb
    exact hq.trans (foldl_quiet hf keys _ (hblocked ▸ hb))

theorem retryRound_quiet {d : Daemon} (hb : p ∈ d.blocked) (now : ℤ) (stamp : UInt64 → ℤ)
    (order : List PublicKey) : Quiet p d (d.retryRound C now stamp order) := by
  refine foldl_quiet (fun d k hb => ?_) _ d hb
  split_ifs
  · exact ⟨flushPeer_quiet hb now stamp k, (d.flushPeer_only now stamp k).blocked.1⟩
  · exact ⟨Quiet.refl p d, rfl⟩

theorem tick_quiet {d : Daemon} (hb : p ∈ d.blocked) (now : ℤ) (order : List PublicKey) :
    Quiet p d (d.tick C now order) :=
  foldl_quiet (fun d k hb => ⟨probeOne_quiet hb now k, (d.probeOne_only now k).blocked.1⟩) _ d hb

theorem pathUp_quiet {d : Daemon} (hb : p ∈ d.blocked) (now : ℤ) (stamp : UInt64 → ℤ)
    (k : PublicKey) : Quiet p d (d.pathUp C now stamp k) := by
  have hblocked := (d.flushPeer_only (C := C) now stamp k).blocked.1
  exact (flushPeer_quiet hb now stamp k).trans (probeOne_quiet (hblocked ▸ hb) now k)

theorem handlePacket_quiet {d : Daemon} (hb : p ∈ d.blocked) (now : ℤ) (k : PublicKey)
    (data : Bytes) : Quiet p d (d.handlePacket C now k data).1 := by
  refine Quiet.ofKey (handlePacket_only now d k data) ?_
  rintro rfl
  rw [handlePacket_blocked hb]
  exact Quiet.refl k d

theorem sendAs_quiet {d : Daemon} (hb : p ∈ d.blocked) (now : ℤ) (typ : EnvelopeType)
    (key : PublicKey) (bytes : Bytes) : Quiet p d (d.sendAs typ now key bytes).2 := by
  refine Quiet.ofKey (d.sendAs_only now key typ bytes) ?_
  rintro rfl
  rw [sendAs_blocked hb]
  exact Quiet.refl key d

theorem watch_quiet {d : Daemon} (hb : p ∈ d.blocked) (persisted : Bool) (key : PublicKey) :
    Quiet p d (d.watch persisted key).2 := by
  refine Quiet.ofKey (d.watch_only key persisted) ?_
  rintro rfl
  rw [watch_blocked hb]
  exact Quiet.refl key d

theorem ackAttachment_quiet (d : Daemon) (key : PublicKey) (tid : Text) :
    Quiet p d (d.ackAttachment C key tid) :=
  (Quiet.boxFor d key).trans { Quiet.refl p (d.boxFor key) with
    outbox := by
      rw [boxFor_db]
      rfl }

theorem persistBlocked_quiet (persisted : Bool) (d : Daemon) (keys : List PublicKey) :
    Quiet p d (persistBlocked persisted { d with blocked := keys }).2 := by
  unfold persistBlocked
  split_ifs
  · exact Quiet.ofSame rfl rfl rfl
  · exact Quiet.ofSame rfl rfl rfl

theorem block_quiet (d : Daemon) (persisted : Bool) (key : PublicKey) :
    Quiet p d (d.block persisted key).2 := by
  unfold Daemon.block
  split_ifs
  · exact Quiet.refl p d
  · exact persistBlocked_quiet persisted d _

theorem unblock_quiet (d : Daemon) (persisted : Bool) (key : PublicKey) :
    Quiet p d (d.unblock persisted key).2 := by
  unfold Daemon.unblock
  split
  · exact Quiet.refl p d
  · exact persistBlocked_quiet persisted d _

theorem dispatch_quiet {d : Daemon} (hb : p ∈ d.blocked) (now : ℤ) (persisted : Bool)
    (req : Request) : Quiet p d (d.dispatch C now persisted req).2 := by
  have htouch : Quiet p d (d.touchClient now) := Quiet.ofSame rfl rfl rfl
  have hb' : p ∈ (d.touchClient now).blocked := hb
  refine htouch.trans ?_
  have h := d.dispatch_dispatched (C := C) now persisted req
  generalize (d.dispatch C now persisted req).2 = d' at h ⊢
  cases h with
  | reads => exact Quiet.refl p _
  | opens key => exact Quiet.boxFor _ key
  | send key bytes => exact sendAs_quiet hb' now typeMsg key bytes
  | sendfile key bytes => exact sendAs_quiet hb' now typeFile key bytes
  | ackfile => exact ackAttachment_quiet _ _ _
  | watch key => exact watch_quiet hb' persisted key
  | setstatus hkey bytes =>
    rename_i key
    -- the status is refused for a blocked peer, so this one is for another
    have hne : key ≠ p := by
      rintro rfl
      exact hkey (isBlocked_of_mem hb')
    exact Quiet.ofOnly hne (setStatus_only now _ key bytes)
  | block key => exact block_quiet _ persisted key
  | unblock key => exact unblock_quiet _ persisted key

/-- What an operation leaves of the queues, the rows and the stamps of a blocked peer: the writer
takes a packet off a queue, a restart drops queues and stamps, and nothing else changes them. -/
inductive CutOff (p : PublicKey) (d : Daemon) : Op → Daemon → Prop
  | quiet {op d'} (h : Quiet p d d') : CutOff p d op d'
  | writeControl {d'} (hc : d'.node.control = d.node.control.tail) (hbk : d'.node.bulk = d.node.bulk)
      (hdb : d'.db = d.db) (hs : d'.boxes = d.boxes) : CutOff p d .writeControl d'
  | writeBulk {d'} (hc : d'.node.control = d.node.control) (hbk : d'.node.bulk = d.node.bulk.tail)
      (hdb : d'.db = d.db) (hs : d'.boxes = d.boxes) : CutOff p d .writeBulk d'
  | restart {d'} (hn : d'.node = {}) (hdb : d'.db = d.db) (hs : ∀ k, d'.sentOf k = ∅) :
      CutOff p d .restart d'

/-- Every operation, one step. -/
theorem step_cutOff {d : Daemon} (hb : p ∈ d.blocked) (op : Op) :
    CutOff p d op (d.step C op).1 := by
  cases op with
  | api now persisted req => exact .quiet (dispatch_quiet hb now persisted req)
  | packet now sender data => exact .quiet (handlePacket_quiet hb now sender data)
  | flush now stamp peer => exact .quiet (flushPeer_quiet hb now stamp peer)
  | retry now stamp order => exact .quiet (retryRound_quiet hb now stamp order)
  | pathUp now stamp key => exact .quiet (pathUp_quiet hb now stamp key)
  | tick now order => exact .quiet (tick_quiet hb now order)
  | writeControl =>
    unfold step
    dsimp only
    split
    · exact .quiet (Quiet.refl p d)
    · rename_i heq
      exact .writeControl (by rw [heq]; rfl) rfl rfl rfl
  | writeBulk =>
    unfold step
    dsimp only
    split
    · exact .quiet (Quiet.refl p d)
    · rename_i heq
      exact .writeBulk rfl (by rw [heq]; rfl) rfl rfl
  | restart =>
    obtain ⟨-, hdb, hnode⟩ := d.restart_spec p
    exact .restart hnode hdb fun k => (d.restart_spec k).1

end Step

/-! ### Whole runs -/

/-- The operation is the receipt of a packet from `p`. -/
def isPacketFrom (p : PublicKey) : Op → Bool
  | .packet _ sender _ => sender = p
  | _ => false

/-- The operations of a run without the packets received from `p` while it was blocked. -/
def dropBlocked (C : Config) (p : PublicKey) : Daemon → List Op → List Op
  | _, [] => []
  | d, op :: ops =>
    if d.isBlocked p ∧ isPacketFrom p op then dropBlocked C p (d.step C op).1 ops
    else op :: dropBlocked C p (d.step C op).1 ops

theorem step_blocked {p : PublicKey} {d : Daemon} (hb : p ∈ d.blocked) {op : Op}
    (hop : isPacketFrom p op) : d.step C op = (d, []) := by
  cases op <;> simp only [isPacketFrom, decide_eq_true_eq, Bool.false_eq_true] at hop
  subst hop
  simp only [step, handlePacket_blocked hb, List.map_nil]

theorem run_dropBlocked (p : PublicKey) : ∀ (ops : List Op) (d : Daemon),
    d.run C (dropBlocked C p d ops) = d.run C ops
  | [], _ => rfl
  | op :: ops, d => by
    have ih := run_dropBlocked p ops (d.step C op).1
    unfold dropBlocked
    split_ifs with h
    · have hstep := step_blocked (C := C) (of_decide_eq_true h.1) h.2
      rw [hstep] at ih
      simp only [run, hstep, List.nil_append]
      exact ih
    · simp only [run, ih]

/-- In every state of a run in which `p` is blocked the next operation enqueues nothing for `p`, is
without any effect if it is a packet from `p`, and neither removes nor stamps a row of `p`; and `p`
is not in the presence snapshot.  The packets received from `p` while it is blocked can be deleted
from the run without a change in the final state or in what the daemon put out. -/
theorem blocked_peer_cut_off (C : Config) (p : PublicKey) (d₀ : Daemon) (ops : List Op) :
    (∀ pre op post, ops = pre ++ op :: post →
      let d := (d₀.run C pre).1
      let d' := (d.step C op).1
      d.isBlocked p →
        (addressedTo p d'.node.control = addressedTo p d.node.control
          ∨ (op = .writeControl ∧ d'.node.control = d.node.control.tail)
          ∨ (op = .restart ∧ d'.node.control = []))
        ∧ (addressedTo p d'.node.bulk = addressedTo p d.node.bulk
          ∨ (op = .writeBulk ∧ d'.node.bulk = d.node.bulk.tail)
          ∨ (op = .restart ∧ d'.node.bulk = []))
        ∧ (isPacketFrom p op → d.step C op = (d, []))
        ∧ (∀ now, ∀ e ∈ d.snapshot C now, e.key ≠ p)
        ∧ Table.rowsOf OutboxRow.peer d'.db.outbox p = Table.rowsOf OutboxRow.peer d.db.outbox p
        ∧ ∀ seq t, (d'.sentOf p).lookup seq = some t → (d.sentOf p).lookup seq = some t)
    ∧ d₀.run C (dropBlocked C p d₀ ops) = d₀.run C ops := by
  refine ⟨fun pre op post _ => ?_, run_dropBlocked p ops d₀⟩
  intro d d' hblocked
  have hb : p ∈ d.blocked := of_decide_eq_true hblocked
  have hpacket : isPacketFrom p op → d.step C op = (d, []) := step_blocked hb
  have hsnap := fun now => snapshot_blocked (C := C) hb now
  have h : CutOff p d op d' := step_cutOff hb op
  clear_value d'
  cases h with
  | quiet h => exact ⟨.inl h.control, .inl h.bulk, hpacket, hsnap, h.outbox, h.sent⟩
  | writeControl hc hbk hdb hs =>
    refine ⟨.inr (.inl ⟨rfl, hc⟩), .inl (by rw [hbk]), hpacket, hsnap, by rw [hdb], ?_⟩
    unfold sentOf
    rw [hs]
    exact fun _ _ h => h
  | writeBulk hc hbk hdb hs =>
    refine ⟨.inl (by rw [hc]), .inr (.inl ⟨rfl, hbk⟩), hpacket, hsnap, by rw [hdb], ?_⟩
    unfold sentOf
    rw [hs]
    exact fun _ _ h => h
  | restart hn hdb hs =>
    refine ⟨.inr (.inr ⟨rfl, by rw [hn]⟩), .inr (.inr ⟨rfl, by rw [hn]⟩), hpacket, hsnap,
      by rw [hdb], fun seq t h => ?_⟩
    rw [hs] at h
    cases h

/-- A blocked peer acknowledges its one pending message. -/
theorem blocked_peer_cut_off_ack :
    let C : Config := ⟨1, 0, 0, 0, 65555⟩
    let d : Daemon := { db := { outbox := [⟨[1], 1, 0, typeMsg, [7]⟩] }, blocked := [[1]] }
    let op : Op := .packet 0 [1] ((encodeAck 1).toOption.getD [])
    d.isBlocked [1] ∧ d.step C op = (d, []) ∧ d.run C [] = d.run C [op] := by
  intro C d op
  obtain ⟨hsteps, hrun⟩ := blocked_peer_cut_off C [1] d [op]
  have hb : d.isBlocked [1] := by decide
  exact ⟨hb, (hsteps [] op [] rfl hb).2.2.1 rfl, hrun⟩

end Daemon

end Aimless
