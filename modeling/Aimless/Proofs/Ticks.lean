import Aimless.Proofs.Delivery
import Aimless.Lib.Unwinding

/-!
# A delivery is reported once

A client learns that a message was delivered from the event that `A` broadcasts when a packet of `B`
removes its row.  The seqs reported so far are tied to the rows (`Ticked`): a seq that was posted is
reported if and only if it has no row any more.  A row comes back for no seq, since a send that
returns has a seq that was not posted before it, so no seq is reported a second time.
-/

namespace Aimless

/-- The journal of a peer has a row of this seq. -/
def OutboxJournal.Holds (db : DB) (peer : PublicKey) (seq : UInt64) : Prop :=
  ∃ r ∈ db.outbox, r.peer = peer ∧ r.seq = seq.toInt64

/-- The seqs that events report as delivered to a peer. -/
def ackedSeqs (dest : PublicKey) (events : List Event) : List UInt64 :=
  events.filterMap fun e =>
    match e with
    | .acked d seq => if d = dest then some seq else none
    | _ => none

namespace OutboxJournal

variable {db : DB} {peer dest : PublicKey} {seq : UInt64}

theorem holds_queueAs {ts : Int64} {payload : Bytes} {typ : EnvelopeType} (s : UInt64) :
    Holds (queueAs db peer seq ts payload typ) dest s
      ↔ Holds db dest s ∨ peer = dest ∧ seq = s := by
  constructor
  · rintro ⟨r, hr, hp, hs⟩
    rcases List.mem_append.1 hr with hr | hr
    · exact .inl ⟨r, List.mem_of_mem_filter hr, hp, hs⟩
    · rw [List.mem_singleton] at hr
      subst hr
      exact .inr ⟨hp, Words.toInt64_inj.1 hs⟩
  · rintro (⟨r, hr, hp, hs⟩ | ⟨rfl, rfl⟩)
    · by_cases hsame : r.peer = peer ∧ r.seq = seq.toInt64
      · obtain ⟨hpeer, hseq⟩ := hsame
        exact ⟨_, List.mem_append_right _ (List.mem_singleton.2 rfl), hpeer.symm.trans hp,
          hseq.symm.trans hs⟩
      · exact ⟨r, List.mem_append_left _ (List.mem_filter.2 ⟨hr, decide_eq_true hsame⟩), hp, hs⟩
    · exact ⟨_, List.mem_append_right _ (List.mem_singleton.2 rfl), rfl, rfl⟩

theorem holds_ack {sent : Sent} (s : UInt64) :
    Holds (ack db peer sent seq).2.1 dest s ↔ Holds db dest s ∧ ¬ (peer = dest ∧ seq = s) := by
  constructor
  · rintro ⟨r, hr, hp, hs⟩
    obtain ⟨hr, hkept⟩ := List.mem_filter.1 hr
    refine ⟨⟨r, hr, hp, hs⟩, ?_⟩
    rintro ⟨rfl, rfl⟩
    exact of_decide_eq_true hkept ⟨hp, hs⟩
  · rintro ⟨⟨r, hr, hp, hs⟩, hne⟩
    refine ⟨r, List.mem_filter.2 ⟨hr, decide_eq_true ?_⟩, hp, hs⟩
    rintro ⟨hpeer, hseq⟩
    exact hne ⟨hpeer.symm.trans hp, Words.toInt64_inj.1 (hseq.symm.trans hs)⟩

theorem ack_removed {sent : Sent} : (ack db peer sent seq).1 = true ↔ Holds db peer seq := by
  simp [ack, Holds]

end OutboxJournal

/-! ### What was reported -/

/-- `ticks` are the seqs reported so far. -/
structure Ticked (dest : PublicKey) (posted : List Posted) (ticks : List UInt64) (db : DB) :
    Prop where
  nodup : ticks.Nodup
  was_posted : ∀ s ∈ ticks, ∃ m ∈ posted, m.seq = s
  mem_iff : ∀ m ∈ posted, m.seq ∈ ticks ↔ ¬ OutboxJournal.Holds db dest m.seq

namespace Ticked

open OutboxJournal

variable {C : Config} {dest : PublicKey} {allocated : List UInt64} {posted : List Posted}
  {ticks : List UInt64} {db db' : DB} {p : Party}

theorem init : Ticked dest [] [] {} := by
  constructor <;> simp

theorem ofHolds (T : Ticked dest posted ticks db) (h : ∀ s, Holds db' dest s ↔ Holds db dest s) :
    Ticked dest posted ticks db' :=
  ⟨T.nodup, T.was_posted, fun m hm => by rw [h]; exact T.mem_iff m hm⟩

theorem ofOutbox (T : Ticked dest posted ticks db) (h : db'.outbox = db.outbox) :
    Ticked dest posted ticks db' :=
  T.ofHolds fun s => by rw [Holds, Holds, h]

/-- A send returns.  Its seq is not yet posted, so it is neither reported nor that of a row of a
message posted before. -/
theorem returned (T : Ticked dest posted ticks p.daemon.db) (I : SenderInv dest allocated posted p)
    {i : ℕ} (now : ℤ) {t : SendTask} (h : p.sends[i]? = some t) :
    Ticked dest (if t.dest = dest then posted ++ [⟨t.seq, t.type, t.payload⟩] else posted) ticks
      (p.daemon.finishSend now t.dest t.seq t.payload t.type).db := by
  have hholds : ∀ s, Holds (p.daemon.finishSend now t.dest t.seq t.payload t.type).db dest s
      ↔ Holds p.daemon.db dest s ∨ t.dest = dest ∧ t.seq = s := fun s => holds_queueAs s
  by_cases hd : t.dest = dest
  · have hfresh : ∀ m ∈ posted, m.seq ≠ t.seq := by
      intro m hm heq
      have hin : t.seq ∈ p.seqsTo dest := List.mem_map.2
        ⟨t, List.mem_filter.2 ⟨List.mem_of_getElem? h, decide_eq_true hd⟩, rfl⟩
      exact List.disjoint_of_nodup_append I.nodup hin (List.mem_map.2 ⟨m, hm, heq⟩)
    rw [if_pos hd]
    refine ⟨T.nodup, fun s hs => ?_, fun m hm => ?_⟩
    · obtain ⟨m, hm, hseq⟩ := T.was_posted s hs
      exact ⟨m, List.mem_append_left _ hm, hseq⟩
    rw [hholds]
    rcases List.mem_append.1 hm with hm | hm
    · rw [T.mem_iff m hm]
      have hne := hfresh m hm
      constructor
      · rintro hno (hold | ⟨-, hseq⟩)
        · exact hno hold
        · exact hne hseq.symm
      · exact fun hno hold => hno (.inl hold)
    · rw [List.mem_singleton] at hm
      subst hm
      constructor
      · intro hin
        obtain ⟨m, hm, hseq⟩ := T.was_posted _ hin
        exact absurd hseq (hfresh m hm)
      · exact fun hno => absurd (.inr ⟨hd, rfl⟩) hno
  · rw [if_neg hd]
    refine T.ofHolds fun s => ?_
    rw [hholds]
    simp [hd]

/-- A packet.  Only an acknowledgement of `dest` that finds a row reports a seq. -/
theorem received (T : Ticked dest posted ticks p.daemon.db) (I : SenderInv dest allocated posted p)
    (now : ℤ) (sender : PublicKey) (data : Bytes) :
    Ticked dest posted
      (ticks ++ ackedSeqs dest (p.daemon.handlePacket C now sender data).2)
      (p.daemon.handlePacket C now sender data).1.db := by
  have hh := Daemon.handlePacket_handled (C := C) now p.daemon sender data
  generalize p.daemon.handlePacket C now sender data = r at hh ⊢
  have hnone : ticks ++ ackedSeqs dest [] = ticks := List.append_nil ticks
  cases hh with
  | drop => rwa [hnone]
  | ignored | probe | status =>
    rw [hnone]
    exact T.ofOutbox (congrArg DB.outbox (p.daemon.boxFor_db sender))
  | @file env tid index total isNew db' _ _ _ _ hadd =>
    have hno : ackedSeqs dest (if isNew then [.recvFile sender env.seq env.ts env.payload] else [])
        = [] := by
      split_ifs <;> rfl
    obtain ⟨rows, rfl⟩ := AttachmentStore.add_attach _ hadd
    rw [hno, List.append_nil, Daemon.sendAck_db]
    exact T.ofOutbox rfl
  | @msg env =>
    have hno : ackedSeqs dest
        (if ((Daemon.inboxOf C sender).add p.daemon.db env.seq env.ts env.payload).1
          then [.recv sender env.seq env.ts env.payload] else []) = [] := by
      split_ifs <;> rfl
    rw [hno, List.append_nil, Daemon.sendAck_db]
    exact T.ofOutbox (InboxStore.add_outbox _ _ _ _ _).1
  | @ack env =>
    have hholds : ∀ s, Holds (ack p.daemon.db sender (p.daemon.sentOf sender) env.seq).2.1 dest s
        ↔ Holds p.daemon.db dest s ∧ ¬ (sender = dest ∧ env.seq = s) := holds_ack
    by_cases hs : sender = dest
    · subst hs
      by_cases hrow : Holds p.daemon.db sender env.seq
      · have hone : ackedSeqs sender [.acked sender env.seq] = [env.seq] := by
          simp [ackedSeqs]
        rw [if_pos (ack_removed.2 hrow), hone]
        obtain ⟨m, hm, hseq⟩ : ∃ m ∈ posted, m.seq = env.seq := by
          obtain ⟨r, hr, hp, hseq⟩ := hrow
          refine ⟨_, I.rows r hr hp, ?_⟩
          rw [hseq]
          simp
        have hnew : env.seq ∉ ticks := by
          rw [← hseq, T.mem_iff m hm, hseq]
          exact not_not.2 hrow
        refine ⟨T.nodup.append (List.nodup_singleton _) (by simpa using hnew), fun s hs => ?_,
          fun m' hm' => ?_⟩
        · rcases List.mem_append.1 hs with hs | hs
          · exact T.was_posted s hs
          · exact ⟨m, hm, hseq.trans (List.mem_singleton.1 hs).symm⟩
        · rw [hholds, List.mem_append, List.mem_singleton, T.mem_iff m' hm', not_and_or, not_not]
          simp [eq_comm]
      · have hno : ¬ (ack p.daemon.db sender (p.daemon.sentOf sender) env.seq).1 = true :=
          fun h => hrow (ack_removed.1 h)
        rw [if_neg hno, hnone]
        refine T.ofHolds fun s => ?_
        rw [hholds]
        constructor
        · exact And.left
        · refine fun h => ⟨h, ?_⟩
          rintro ⟨-, rfl⟩
          exact hrow h
    · have hno : ackedSeqs dest
          (if (ack p.daemon.db sender (p.daemon.sentOf sender) env.seq).1
            then [.acked sender env.seq] else []) = [] := by
        split_ifs
        · simp [ackedSeqs, hs]
        · rfl
      rw [hno, List.append_nil]
      refine T.ofHolds fun s => ?_
      rw [hholds]
      simp [hs]

end Ticked

/-! ### The world -/

namespace World

variable {N : Nodes} {w : World} {reported : List UInt64}

/-- The seqs of sends to `B` that `A` reports as delivered at a step. -/
def ticksAt (N : Nodes) (w : World) : Move → List UInt64
  | .act _ _ => []
  | .deliver i now =>
    match w.net[i]? with
    | none => []
    | some (src, out) =>
      if out.pub = N.keyA then
        ackedSeqs N.keyB (w.a.daemon.handlePacket N.cfgA now (N.key src) out.data).2
      else []
  | .foreign side now sender data =>
    if sender = N.keyA ∨ sender = N.keyB then []
    else
      match side with
      | .a => ackedSeqs N.keyB (w.a.daemon.handlePacket N.cfgA now sender data).2
      | .b => []

/-- The seqs reported in a run, in order. -/
def ticks (N : Nodes) (moves : List Move) : List UInt64 :=
  (Unwinding.run (fun w move => (World.step N w move, ticksAt N w move)) {} moves).2

theorem ticked_actA (I : Inv N w) (T : Ticked N.keyB w.posted reported w.a.daemon.db) (act : Act) :
    Ticked N.keyB (w.actA N act).posted reported (w.actA N act).a.daemon.db := by
  have h := Party.act_acted (C := N.cfgA) w.a act
  unfold World.actA
  generalize w.a.act N.cfgA act = r at h ⊢
  cases h with
  | keeps h => exact T.ofOutbox h.outbox
  | allocated h =>
    rename_i dest payload seq d'
    obtain ⟨-, hd', -⟩ := Daemon.beginSend_ok h
    obtain ⟨rows, hrows⟩ := OutboxJournal.nextSeq_outboxSeq w.a.daemon.db dest
    refine T.ofOutbox ?_
    rw [hd']
    simp only [hrows]
  | returned h => exact T.returned I.sender _ h
  | started => exact T
  | ended => exact T
  | flushed h he => exact T.ofOutbox (congrArg DB.outbox (Daemon.flushEntry_db _ _ _ _ _))
  | wrote hout hn => exact T
  | restarted => exact T.ofOutbox (congrArg DB.outbox (w.a.daemon.restart_spec N.keyB).2.1)

theorem actB_a (act : Act) : (w.actB N act).posted = w.posted ∧ (w.actB N act).a = w.a := by
  unfold World.actB
  dsimp only
  split <;> exact ⟨rfl, rfl⟩

theorem ticked_step (I : Inv N w) (T : Ticked N.keyB w.posted reported w.a.daemon.db)
    (move : Move) :
    Ticked N.keyB (w.step N move).posted (reported ++ ticksAt N w move)
      (w.step N move).a.daemon.db := by
  have hnone : Ticked N.keyB w.posted (reported ++ []) w.a.daemon.db := by rwa [List.append_nil]
  cases move with
  | act side act =>
    rw [show ticksAt N w (.act side act) = [] from rfl, List.append_nil]
    cases side with
    | a => exact ticked_actA I T act
    | b =>
      obtain ⟨hp, ha⟩ := actB_a (N := N) (w := w) act
      show Ticked N.keyB (w.actB N act).posted reported (w.actB N act).a.daemon.db
      rw [hp, ha]
      exact T
  | deliver i now =>
    unfold World.step ticksAt
    dsimp only
    rcases w.net[i]? with _ | ⟨src, out⟩
    · exact hnone
    dsimp only
    split_ifs
    · exact T.received I.sender now _ _
    · exact hnone
    · exact hnone
  | foreign side now sender data =>
    unfold World.step ticksAt
    dsimp only
    split_ifs
    · exact hnone
    cases side with
    | a => exact T.received I.sender now sender data
    | b => exact hnone

theorem run_ticked (hne : N.keyA ≠ N.keyB) (moves : List Move) :
    Ticked N.keyB (World.run N moves).posted (ticks N moves) (World.run N moves).a.daemon.db := by
  have h := Unwinding.run_invariant (fun w move => (World.step N w move, ticksAt N w move))
    (I := fun _ w out => Inv N w ∧ Ticked N.keyB w.posted out w.a.daemon.db)
    ⟨Inv.init, Ticked.init⟩
    (fun _ w out move h => ⟨h.1.step hne move, ticked_step h.1 h.2 move⟩) moves
  rw [Unwinding.run_fst] at h
  exact h.2

/-- In every run no seq is reported twice, and each seq reported is that of a send that returned.  A
send that returned has been reported if and only if its row is gone; if it was a message, `B` has
accepted it under that seq with that payload. -/
theorem delivery_reported_once (N : Nodes) (hne : N.keyA ≠ N.keyB) (moves : List Move) :
    (ticks N moves).Nodup
      ∧ (∀ s ∈ ticks N moves, ∃ m ∈ (World.run N moves).posted, m.seq = s)
      ∧ ∀ m ∈ (World.run N moves).posted,
        (m.seq ∈ ticks N moves
          ↔ ¬ OutboxJournal.Holds (World.run N moves).a.daemon.db N.keyB m.seq)
        ∧ (m.seq ∈ ticks N moves → m.type = typeMsg →
          (m.seq, m.payload) ∈ (World.run N moves).accepted) := by
  have I : Inv N (World.run N moves) := run_inv hne moves
  have T := run_ticked hne moves
  refine ⟨T.nodup, T.was_posted, fun m hm => ⟨T.mem_iff m hm, fun hin ht => ?_⟩⟩
  rcases I.kept m hm ht with ⟨r, hr, hp, hs, -⟩ | hacc
  · exact absurd ⟨r, hr, hp, hs⟩ ((T.mem_iff m hm).1 hin)
  · exact hacc

/-- The acknowledgement of a message arrives twice, with a restart in between. -/
theorem delivery_reported_once_twice :
    let N : Nodes := ⟨List.replicate 32 1, List.replicate 32 2, ⟨10, 0, 0, 0, 65555⟩,
      ⟨10, 0, 0, 0, 65555⟩⟩
    let moves : List Move := [.act .a (.beginSend false N.keyB [104, 105]),
      .act .a (.finishSend 0 0), .act .a (.startFlush 0 N.keyB), .act .a (.flushNext 0 0),
      .act .a .writeControl, .deliver 0 0, .act .b .writeControl, .deliver 1 0,
      .act .a .restart, .deliver 1 0]
    N.keyA ≠ N.keyB ∧ ticks N moves = [1] ∧ (ticks N moves).Nodup := by
  intro N moves
  have hne : N.keyA ≠ N.keyB := by decide
  exact ⟨hne, by decide +kernel, (delivery_reported_once N hne moves).1⟩

end World

end Aimless
