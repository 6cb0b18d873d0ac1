import Aimless.Proofs.Delivery
import Aimless.Proofs.History

/-!
# Messages are read in the order they were sent

The network reorders, `B` stores what comes in as it comes, and a reader asks for it again and
again.  What `History` returns is in the order of the seqs, and the seqs are in the order in which
the sends got them, as long as they are words without a sign bit, which is all that `NextSeq` gives
out.
-/

namespace Aimless

/-- A strictly increasing selection from a strictly increasing list is in its order. -/
theorem sublist_of_increasing {α : Type*} [LinearOrder α] {l l' : List α}
    (h : l.Pairwise (· < ·)) (h' : l'.Pairwise (· < ·)) (hsub : l ⊆ l') : l.Sublist l' :=
  List.sublist_of_subperm_of_pairwise
    (List.subperm_of_subset (h.imp fun hlt => hlt.ne) hsub) h h'

/-- A step of a party on its own leaves the inbox alone. -/
theorem Party.Acted.sameInbox {C : Config} {p : Party} {r : Party × Option Effect}
    (h : Party.Acted C p r) (src : PublicKey) :
    Daemon.SameInbox src p.daemon.db r.1.daemon.db := by
  cases h with
  | keeps h => exact Daemon.sameInbox_of_keepsMail h
  | allocated h =>
    rename_i dest payload seq d'
    obtain ⟨-, hd', -⟩ := Daemon.beginSend_ok h
    obtain ⟨rows, hrows⟩ := OutboxJournal.nextSeq_outboxSeq p.daemon.db dest
    rw [hd']
    simp only [hrows]
    exact ⟨rfl, rfl, rfl⟩
  | flushed =>
    rw [Daemon.flushEntry_db]
    exact ⟨rfl, rfl, rfl⟩
  | restarted =>
    rw [(p.daemon.restart_spec src).2.1]
    exact ⟨rfl, rfl, rfl⟩
  | returned | started | ended | wrote => exact ⟨rfl, rfl, rfl⟩

/-- What a reader of `B`'s inbox of `src` can see was posted. -/
def Filed (C : Config) (src : PublicKey) (posted : List Posted) (db : DB) : Prop :=
  ∃ offers : List Offer, InboxInv (Daemon.inboxOf C src) offers db
    ∧ ∀ o ∈ offers, ⟨o.seq, typeMsg, o.payload⟩ ∈ posted

namespace Filed

variable {C : Config} {src : PublicKey} {posted posted' : List Posted} {db db' : DB} {p : Party}

theorem init : Filed C src [] {} := ⟨[], InboxInv.nil rfl rfl rfl, by simp⟩

theorem mono (F : Filed C src posted db) (h : posted ⊆ posted') : Filed C src posted' db := by
  obtain ⟨offers, I, hoffers⟩ := F
  exact ⟨offers, I, fun o ho => h (hoffers o ho)⟩

theorem sameInbox (F : Filed C src posted db) (h : Daemon.SameInbox src db db') :
    Filed C src posted db' := by
  obtain ⟨offers, I, hoffers⟩ := F
  exact ⟨offers, I.ofRows h.1 h.2.1 h.2.2, hoffers⟩

/-- A packet, which from `src` is as posted. -/
theorem received {d : Daemon} (F : Filed C src posted d.db) (now : ℤ) {sender : PublicKey}
    {data : Bytes} (h : sender = src → DataOk posted data) :
    Filed C src posted (d.handlePacket C now sender data).1.db := by
  obtain ⟨offers, I, hoffers⟩ := F
  refine ⟨_, Daemon.inboxInv_step I (.packet now sender data), fun o ho => ?_⟩
  rcases List.mem_append.1 ho with ho | ho
  · exact hoffers o ho
  · obtain ⟨env, hs, -, he, ht, rfl⟩ := Daemon.offerOf_packet (Option.mem_toList.1 ho)
    have hposted := h hs env he (.inl ht)
    rwa [ht] at hposted

theorem posted_row (F : Filed C src posted db) {r : InboxRow} (hr : r ∈ db.inbox)
    (hp : r.peer = src) : ⟨r.seq.toUInt64, typeMsg, r.payload⟩ ∈ posted := by
  obtain ⟨offers, I, hoffers⟩ := F
  obtain ⟨o, ho, hval⟩ := Option.map_eq_some_iff.1 (I.first r hr hp)
  have hseq : o.seq.toInt64 = r.seq := by simpa using List.find?_some ho
  have hmem := hoffers o (List.mem_of_find?_eq_some ho)
  rw [Prod.mk.injEq] at hval
  rw [← hseq, ← hval.2]
  simpa using hmem

/-- Every entry a reader gets was posted, and they come in the order of their seqs. -/
theorem history (F : Filed C src posted db) (afterSeq : UInt64) {seqs : List UInt64}
    (hinc : seqs.Pairwise (· < ·)) (hsmall : ∀ s ∈ seqs, s < Words.signBit)
    (hposted : ∀ m ∈ posted, m.seq ∈ seqs) :
    (((Daemon.inboxOf C src).after db afterSeq).map (·.seq)).Sublist seqs
      ∧ ∀ e ∈ (Daemon.inboxOf C src).after db afterSeq, ∃ m ∈ posted, m.type = typeMsg
        ∧ m.seq = e.seq ∧ e.payload = Base64.encode m.payload := by
  have hrow : ∀ r ∈ db.inbox, r.peer = src → ⟨r.seq.toUInt64, typeMsg, r.payload⟩ ∈ posted :=
    fun r hr hp => F.posted_row hr hp
  obtain ⟨offers, I, -⟩ := F
  -- the rows `After` selects, in its order
  set rows := (db.inbox.filter fun r => r.peer = src ∧ r.seq > afterSeq.toInt64).insertionSort
    fun r s => r.seq ≤ s.seq with hrows
  have hmem : ∀ r ∈ rows, r ∈ db.inbox ∧ r.peer = src := by
    intro r hr
    rw [hrows, List.mem_insertionSort] at hr
    obtain ⟨hin, hsel⟩ := List.mem_filter.1 hr
    exact ⟨hin, (of_decide_eq_true hsel).1⟩
  have hafter : (Daemon.inboxOf C src).after db afterSeq = rows.map InboxStore.entryOf :=
    InboxStore.after_eq_map _
  have hin : ∀ r ∈ rows, r.seq.toUInt64 ∈ seqs := fun r hr =>
    hposted _ (hrow r (hmem r hr).1 (hmem r hr).2)
  have hnodup : (rows.map (·.seq)).Nodup := by
    have hperm : (rows.map (·.seq)).Perm
        ((db.inbox.filter fun r => r.peer = src ∧ r.seq > afterSeq.toInt64).map (·.seq)) :=
      (List.perm_insertionSort _ _).map _
    refine hperm.nodup_iff.2 (List.Nodup.sublist (List.Sublist.map _ ?_) I.nodup)
    refine List.monotone_filter_right _ fun r hr => ?_
    exact decide_eq_true (of_decide_eq_true hr).1
  have hsorted : rows.Pairwise fun r s => r.seq < s.seq := by
    have hle : rows.Pairwise fun r s => r.seq ≤ s.seq := List.pairwise_insertionSort _ _
    have hne : rows.Pairwise fun r s => r.seq ≠ s.seq := List.pairwise_map.1 hnodup
    exact hle.imp₂ (fun _ _ h₁ h₂ => lt_of_le_of_ne h₁ h₂) hne
  have hlt : (rows.map fun r => r.seq.toUInt64).Pairwise (· < ·) := by
    rw [List.pairwise_map]
    refine hsorted.imp_of_mem fun {r s} hr hs hrs => ?_
    have hside : SameSide r.seq.toUInt64 s.seq.toUInt64 :=
      iff_of_true (hsmall _ (hin r hr)) (hsmall _ (hin s hs))
    exact hside.lt_iff.1 (by simpa using hrs)
  rw [hafter]
  constructor
  · rw [List.map_map]
    refine sublist_of_increasing hlt hinc fun s hs => ?_
    obtain ⟨r, hr, rfl⟩ := List.mem_map.1 hs
    exact hin r hr
  · intro e he
    obtain ⟨r, hr, rfl⟩ := List.mem_map.1 he
    exact ⟨_, hrow r (hmem r hr).1 (hmem r hr).2, rfl, rfl, rfl⟩

end Filed

namespace World

variable {N : Nodes} {w : World}

/-- The seqs `A` gave out are in order, and `B` has filed only what was posted. -/
structure Ordered (N : Nodes) (w : World) : Prop where
  increasing : w.allocated.Pairwise (· < ·)
  small : ∀ s ∈ w.allocated, s < Words.signBit
  filed : Filed N.cfgB N.keyA w.posted w.b.daemon.db

theorem Ordered.init : Ordered N {} := ⟨by simp, by simp, Filed.init⟩

theorem Ordered.actA (I : Inv N w) (O : Ordered N w) (act : Act) : Ordered N (w.actA N act) := by
  have h := Party.act_acted (C := N.cfgA) w.a act
  unfold World.actA
  generalize w.a.act N.cfgA act = r at h ⊢
  cases h with
  | allocated h =>
    rename_i dest payload seq d'
    by_cases hd : dest = N.keyB
    · subst hd
      obtain ⟨hnext, -, -⟩ := Daemon.beginSend_ok h
      obtain ⟨hlt, hseq, -⟩ := OutboxJournal.nextSeq_some hnext
      have hto : seq.toNat = OutboxJournal.counter w.a.daemon.db N.keyB := by
        rw [hseq, UInt64.toNat_ofNat_of_lt' (lt_trans hlt (by decide))]
      refine ⟨?_, ?_, O.filed⟩
      · dsimp only
        rw [if_pos rfl]
        refine List.pairwise_append.2 ⟨O.increasing, List.pairwise_singleton _ _, ?_⟩
        intro s hs s' hs'
        rw [List.mem_singleton.1 hs', UInt64.lt_iff_toNat_lt, hto]
        exact I.sender.lt s hs
      · dsimp only
        rw [if_pos rfl]
        intro s hs
        rcases List.mem_append.1 hs with hs | hs
        · exact O.small s hs
        · rw [List.mem_singleton.1 hs, UInt64.lt_iff_toNat_lt, hto]
          exact hlt
    · dsimp only
      rw [if_neg hd]
      exact ⟨O.increasing, O.small, O.filed⟩
  | returned =>
    refine ⟨O.increasing, O.small, O.filed.mono ?_⟩
    dsimp only
    split_ifs
    · exact List.subset_append_left _ _
    · exact List.Subset.refl _
  | keeps | started | ended | flushed | wrote | restarted => exact ⟨O.increasing, O.small, O.filed⟩

theorem Ordered.actB (O : Ordered N w) (act : Act) : Ordered N (w.actB N act) := by
  have h := (Party.act_acted (C := N.cfgB) w.b act).sameInbox N.keyA
  have hfiled := O.filed.sameInbox h
  unfold World.actB
  dsimp only
  split <;> exact ⟨O.increasing, O.small, hfiled⟩

theorem Ordered.receiveB (O : Ordered N w) (now : ℤ) {sender : PublicKey} {data : Bytes}
    (h : sender = N.keyA → DataOk w.posted data) : Ordered N (w.receiveB N now sender data) :=
  ⟨O.increasing, O.small, O.filed.received now h⟩

theorem Ordered.step (hne : N.keyA ≠ N.keyB) (I : Inv N w) (O : Ordered N w) (move : Move) :
    Ordered N (w.step N move) := by
  cases move with
  | act side act =>
    cases side with
    | a => exact O.actA I act
    | b => exact O.actB act
  | deliver i now =>
    unfold World.step
    dsimp only
    split
    · exact O
    rename_i src out hget
    split_ifs with ha hb
    · exact ⟨O.increasing, O.small, O.filed⟩
    · refine O.receiveB now fun hs => ?_
      cases src with
      | a => exact I.dataNet out (List.mem_of_getElem? hget) hb
      | b => exact absurd hs.symm hne
    · exact O
  | foreign side now sender data =>
    unfold World.step
    dsimp only
    split_ifs with hs
    · exact O
    push Not at hs
    cases side with
    | a => exact ⟨O.increasing, O.small, O.filed⟩
    | b => exact O.receiveB now fun h => absurd h hs.1

theorem run_ordered (hne : N.keyA ≠ N.keyB) (moves : List Move) :
    Inv N (World.run N moves) ∧ Ordered N (World.run N moves) :=
  Runs.invariant_end (I := fun w => Inv N w ∧ Ordered N w) (World.step N) {} moves
    ⟨Inv.init, Ordered.init⟩ fun move _ _ h => ⟨h.1.step hne move, h.2.step hne h.1 move⟩

/-- In every state of every run and from any seq on: the seqs of the history that `B` returns for
`A` are a selection, in order, of the seqs that the sends got, in the order in which they got them,
and each entry is a text that was sent under its seq. -/
theorem history_in_order (N : Nodes) (hne : N.keyA ≠ N.keyB) (moves : List Move)
    (afterSeq : UInt64) :
    let w := World.run N moves
    let h := (w.b.daemon.history N.cfgB N.keyA afterSeq).1.msgs
    (h.map (·.seq)).Sublist w.allocated
      ∧ ∀ e ∈ h, ∃ m ∈ w.posted, m.type = typeMsg ∧ m.seq = e.seq
        ∧ e.payload = Base64.encode m.payload := by
  intro w h
  obtain ⟨I, O⟩ : Inv N w ∧ Ordered N w := run_ordered hne moves
  refine O.filed.history afterSeq O.increasing O.small fun m hm => ?_
  exact I.sender.subset (List.mem_append_right _ (List.mem_map_of_mem hm))

/-- Two texts, of which the second comes in first. -/
theorem history_in_order_swapped :
    let N : Nodes := ⟨List.replicate 32 1, List.replicate 32 2, ⟨10, 0, 0, 0, 65555⟩,
      ⟨10, 0, 0, 0, 65555⟩⟩
    let moves : List Move := [.act .a (.beginSend false N.keyB [104]), .act .a (.finishSend 0 0),
      .act .a (.beginSend false N.keyB [105]), .act .a (.finishSend 0 0),
      .act .a (.startFlush 0 N.keyB), .act .a (.flushNext 0 0), .act .a (.flushNext 0 0),
      .act .a .writeControl, .act .a .writeControl, .deliver 1 0, .deliver 0 0]
    N.keyA ≠ N.keyB ∧ (World.run N moves).accepted = [(2, [105]), (1, [104])]
      ∧ (((World.run N moves).b.daemon.history N.cfgB N.keyA 0).1.msgs.map (·.seq)).Sublist
        (World.run N moves).allocated := by
  intro N moves
  have hne : N.keyA ≠ N.keyB := by decide
  have hacc : (World.run N moves).accepted = [(2, [105]), (1, [104])] := by decide +kernel
  exact ⟨hne, hacc, (history_in_order N hne moves 0).1⟩

end World

end Aimless
