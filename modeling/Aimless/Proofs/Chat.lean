import Aimless.Chat
import Aimless.Proofs.Deliveries
import Aimless.Proofs.Order
import Aimless.Proofs.RoomDelivery
import Aimless.Proofs.Ticks

/-!
# Delivered means delivered

A mark on a text that `A`'s client shows stands on a row that an event of `A`'s daemon marked, which
stands on a row of the outbox that an acknowledgement of `B`'s daemon removed, which stands on a
message that `B`'s daemon accepted and announced.  A seq was posted with one payload, so this is the
box that was sealed from the text, and `B`'s client files the text when it handles the message.
-/

namespace Aimless

open Python (Str Exc Json Dict)

/-! ### What the daemons broadcast -/

/-- The messages that are new are the `recv` events. -/
theorem Daemon.mem_newMessage {C : Config} (now : ℤ) {d : Daemon} {sender : PublicKey}
    {data : Bytes} {seq : UInt64} {payload : Bytes} :
    (seq, payload) ∈ d.newMessage C sender data
      ↔ ∃ ts, Event.recv sender seq ts payload ∈ (d.handlePacket C now sender data).2 := by
  have hh := Daemon.handlePacket_handled (C := C) now d sender data
  generalize d.handlePacket C now sender data = r at hh ⊢
  unfold Daemon.newMessage
  cases hh with
  | drop h =>
    rcases h with hb | ⟨e, he⟩
    · simp [hb]
    · simp [he]
  | msg hb he ht =>
    simp only [hb, he, ht, Bool.false_eq_true, if_false, true_and]
    split_ifs
    · simp
    · simp
  | ignored hb he ht => simp [hb, he, ht]
  | file hb he ht =>
    have hne : ¬ typeFile = typeMsg := by decide
    simp only [hb, he, ht, hne, Bool.false_eq_true, if_false, false_and]
    split_ifs <;> simp
  | ack hb he ht =>
    have hne : ¬ typeAck = typeMsg := by decide
    simp only [hb, he, ht, hne, Bool.false_eq_true, if_false, false_and]
    split_ifs <;> simp
  | probe hb he ht =>
    have hne : ¬ typeProbe = typeMsg := by decide
    simp [hb, he, ht, hne]
  | status hb he ht =>
    have hne : ¬ typeStatus = typeMsg := by decide
    simp [hb, he, ht, hne]

theorem Daemon.handlePacket_recv {C : Config} {now : ℤ} {d : Daemon} {sender src : PublicKey}
    {data : Bytes} {seq : UInt64} {ts : Int64} {payload : Bytes}
    (h : Event.recv src seq ts payload ∈ (d.handlePacket C now sender data).2) : src = sender := by
  have hh := Daemon.handlePacket_handled (C := C) now d sender data
  generalize d.handlePacket C now sender data = r at hh h
  cases hh with
  | drop | ignored | probe | status => simp at h
  | msg | file | ack =>
    dsimp only at h
    split_ifs at h <;> simp_all

namespace World

variable {N : Nodes} {w : World} {move : Move}

/-- A step is of a daemon on its own, or the packet that one takes. -/
theorem step_taken (h : ∀ side act, move ≠ .act side act) : w.step N move
    = match taken N w move with
      | none => w
      | some (.a, now, sender, data) => w.receiveA N now sender data
      | some (.b, now, sender, data) => w.receiveB N now sender data := by
  cases move with
  | act side act => exact absurd rfl (h side act)
  | deliver i now =>
    unfold World.step taken
    dsimp only
    rcases w.net[i]? with _ | ⟨src, out⟩
    · rfl
    · dsimp only [Option.bind_some]
      split_ifs <;> rfl
  | foreign side now sender data =>
    unfold World.step taken
    dsimp only
    split_ifs
    · rfl
    · cases side <;> rfl

theorem events_act (w : World) (side side' : Side) (act : Act) :
    events N w side (.act side' act) = [] := rfl

theorem events_a (w : World) (move : Move) :
    ackedSeqs N.keyB (events N w .a move) = ticksAt N w move := by
  cases move with
  | act => rfl
  | deliver i now =>
    unfold events ticksAt taken
    dsimp only
    rcases w.net[i]? with _ | ⟨src, out⟩
    · rfl
    · dsimp only [Option.bind_some]
      split_ifs <;> rfl
  | foreign side now sender data =>
    unfold events ticksAt taken
    dsimp only
    split_ifs
    · rfl
    · cases side <;> rfl

theorem act_accepted (side : Side) (act : Act) :
    (w.step N (.act side act)).accepted = w.accepted := by
  cases side with
  | a =>
    show (w.actA N act).accepted = w.accepted
    unfold World.actA
    dsimp only
    split <;> rfl
  | b =>
    show (w.actB N act).accepted = w.accepted
    unfold World.actB
    dsimp only
    split <;> rfl

theorem posted_subset_step (w : World) (move : Move) : w.posted ⊆ (w.step N move).posted := by
  by_cases hact : ∃ side act, move = .act side act
  · obtain ⟨side, act, rfl⟩ := hact
    cases side with
    | a =>
      show w.posted ⊆ (w.actA N act).posted
      unfold World.actA
      dsimp only
      split
      · exact List.Subset.refl _
      · exact List.Subset.refl _
      · dsimp only
        split_ifs
        · exact List.subset_append_left _ _
        · exact List.Subset.refl _
      · exact List.Subset.refl _
    | b =>
      have hsame : (w.actB N act).posted = w.posted := (actB_a act).1
      exact hsame.symm ▸ List.Subset.refl w.posted
  push Not at hact
  rw [step_taken hact]
  split <;> exact List.Subset.refl _

/-- What `B` accepts of `A` it announces. -/
theorem mem_accepted_step {seq : UInt64} {payload : Bytes} :
    (seq, payload) ∈ (w.step N move).accepted ↔ (seq, payload) ∈ w.accepted
      ∨ ∃ ts, Event.recv N.keyA seq ts payload ∈ events N w .b move := by
  by_cases hact : ∃ side act, move = .act side act
  · obtain ⟨side, act, rfl⟩ := hact
    rw [act_accepted, events_act]
    simp
  push Not at hact
  rw [step_taken hact]
  unfold events
  rcases htaken : taken N w move with _ | ⟨side, now, sender, data⟩
  · simp
  cases side with
  | a => simp [receiveA]
  | b =>
    dsimp only [receiveB]
    rw [if_pos rfl]
    split_ifs with hs
    · rw [List.mem_append, Daemon.mem_newMessage now, hs]
      rfl
    · refine (or_iff_left ?_).symm
      rintro ⟨ts, hev⟩
      exact hs (Daemon.handlePacket_recv hev).symm

end World

/-! ### The mark -/

namespace Chat

variable {E : ChatEnv} {w : Chat}

theorem mem_seqsToB {keys : List DeliveryKey} {s : ℕ} :
    s ∈ seqsToB E keys ↔ (nodeB E, s) ∈ keys := by
  unfold seqsToB
  rw [List.mem_map]
  constructor
  · rintro ⟨⟨node, s'⟩, hk, rfl⟩
    obtain ⟨hk, hnode⟩ := List.mem_filter.1 hk
    obtain rfl : node = nodeB E := of_decide_eq_true hnode
    exact hk
  · exact fun hk => ⟨_, List.mem_filter.2 ⟨hk, decide_eq_true rfl⟩, rfl⟩

/-- The rows of sends to `B` are of seqs that were entered, and are marked only if `ticks`, the seqs
that were reported, has their seq. -/
structure Marked (E : ChatEnv) (entered : List ℕ) (ticks : List UInt64) (t : Tracker) : Prop where
  keys : (t.deliveries.map (·.key)).Nodup
  entered : ∀ r ∈ t.deliveries, r.key.1 = nodeB E → r.key.2 ∈ entered
  marked : ∀ r ∈ t.deliveries, r.key.1 = nodeB E → r.acked →
    ∃ seq ∈ ticks, seq.toNat = r.key.2

/-- A text that was entered: its seq has the box that was sealed from it, and it has its row. -/
def Followed (E : ChatEnv) (posted : List Posted) (t : Tracker) (m : SentText) : Prop :=
  ∀ s, (nodeB E, s) ∈ m.seqs → ∃ p ∈ posted, p.seq.toNat = s ∧ p.type = typeMsg
    ∧ m.isBox E.sealer E.screenName (nodeB E) p.payload
    ∧ ∃ r ∈ t.deliveries, r.key = (nodeB E, s) ∧ r.msgId = Tracker.outId m.seqs

variable {entered : List ℕ} {ticks ticks' : List UInt64} {posted posted' : List Posted}
  {t t' : Tracker} {m : SentText}

theorem Marked.mono (M : Marked E entered ticks t) (h : ticks ⊆ ticks') :
    Marked E entered ticks' t :=
  ⟨M.keys, M.entered, fun r hr hb hacked =>
    let ⟨seq, hseq, heq⟩ := M.marked r hr hb hacked
    ⟨seq, h hseq, heq⟩⟩

theorem Followed.mono (F : Followed E posted t m) (h : posted ⊆ posted')
    (ht : ∀ r ∈ t.deliveries, ∃ r' ∈ t'.deliveries, r'.key = r.key ∧ r'.msgId = r.msgId) :
    Followed E posted' t' m := by
  intro s hs
  obtain ⟨p, hp, hseq, htype, hbox, r, hr, hkey, hmid⟩ := F s hs
  obtain ⟨r', hr', hkey', hmid'⟩ := ht r hr
  exact ⟨p, h hp, hseq, htype, hbox, r', hr', hkey'.trans hkey, hmid'.trans hmid⟩

/-- A message is entered, with rows of its keys. -/
theorem Marked.enter (M : Marked E entered ticks t) {mid : Str} {keys : List DeliveryKey}
    {ok : Prop} {new : List DeliveryRow} (hins : Tracker.Inserted mid keys ok t.deliveries new)
    (ht : t'.deliveries = t.deliveries ++ new) :
    Marked E (entered ++ seqsToB E keys) ticks t' := by
  refine ⟨?_, fun r hr hb => ?_, fun r hr hb hacked => ?_⟩
  · rw [ht]
    exact hins.nodup M.keys
  · rw [ht] at hr
    rcases List.mem_append.1 hr with hr | hr
    · exact List.mem_append_left _ (M.entered r hr hb)
    · refine List.mem_append_right _ (mem_seqsToB.2 ?_)
      rw [← hb]
      exact (hins.rows r hr).1
  · rw [ht] at hr
    rcases List.mem_append.1 hr with hr | hr
    · exact M.marked r hr hb hacked
    · rw [(hins.rows r hr).2.2] at hacked
      cases hacked

/-- A seq that was not entered before has a row of its own message. -/
theorem Marked.row (M : Marked E entered ticks t) {mid : Str} {keys : List DeliveryKey} {ok : Prop}
    {new : List DeliveryRow} (hins : Tracker.Inserted mid keys ok t.deliveries new) (hok : ok)
    {s : ℕ} (hs : (nodeB E, s) ∈ keys) (hnew : s ∉ entered) :
    ∃ r ∈ t.deliveries ++ new, r.key = (nodeB E, s) ∧ r.msgId = mid := by
  obtain ⟨-, r, hr, hkey⟩ := hins.taken hok _ hs
  refine ⟨r, hr, hkey, ?_⟩
  rcases List.mem_append.1 hr with hr | hr
  · have hin := M.entered r hr (by rw [hkey])
    rw [hkey] at hin
    exact absurd hin hnew
  · exact (hins.rows r hr).2.1

/-- An `acked` event is handled. -/
theorem Marked.acked (M : Marked E entered ticks t) {dest : PublicKey} {seq : UInt64}
    (h : dest = E.nodes.keyB → seq ∈ ticks) :
    Marked E entered ticks (t.noteAcked (Hex.encode dest, seq.toNat)).2
      ∧ ∀ r ∈ t.deliveries, ∃ r' ∈ (t.noteAcked (Hex.encode dest, seq.toNat)).2.deliveries,
        r'.key = r.key ∧ r'.msgId = r.msgId := by
  rcases Tracker.noteAcked_spec M.keys (Hex.encode dest, seq.toNat) with ⟨heq, -⟩ | hacked
  · rw [heq]
    exact ⟨⟨M.keys, M.entered, M.marked⟩, fun r hr => ⟨r, hr, rfl, rfl⟩⟩
  have hdel := hacked.deliveries
  generalize (t.noteAcked (Hex.encode dest, seq.toNat)).2 = t' at hdel
  refine ⟨⟨?_, fun r hr hb => ?_, fun r hr hb hr' => ?_⟩, fun r hr => ?_⟩
  · have hkeys : t'.deliveries.map (·.key) = t.deliveries.map (·.key) := by
      rw [hdel, List.map_map]
      exact List.map_congr_left fun r _ => Tracker.markRow_key _ r
    rw [hkeys]
    exact M.keys
  · rw [hdel] at hr
    obtain ⟨x, hx, rfl⟩ := List.mem_map.1 hr
    rw [Tracker.markRow_key] at hb ⊢
    exact M.entered x hx hb
  · rw [hdel] at hr
    obtain ⟨x, hx, rfl⟩ := List.mem_map.1 hr
    rw [Tracker.markRow_key] at hb ⊢
    by_cases hk : x.key = (Hex.encode dest, seq.toNat)
    · rw [hk] at hb ⊢
      exact ⟨seq, h (Hex.encode_injective hb), rfl⟩
    · rw [Tracker.markRow, if_neg hk] at hr'
      exact M.marked x hx hb hr'
  · rw [hdel]
    exact ⟨_, List.mem_map_of_mem hr, by simp, by simp⟩

/-! ### The other end -/

/-- A row is of a message as it was opened, which under `A`'s name is one that was posted. -/
def StoredFrom (E : ChatEnv) (posted : List Posted) (row : Message) : Prop :=
  ∃ (peer : Text) (seq : UInt64) (payload : Text) (o : Opened),
    openMessage E.libsB (Python.str payload) = .ok o
      ∧ Store.incomingRow E.libsB (Sync.convOf peer o) peer seq.toNat o.ts o.text none
        = .ok (some row)
      ∧ (peer = nodeA E → ∃ p ∈ posted, p.seq = seq ∧ p.type = typeMsg
        ∧ payload = Base64.encode p.payload)

/-- `B`'s store has only such rows, and one for each message of `A` that was handled. -/
structure Stored (E : ChatEnv) (posted : List Posted) (st : Store) (handled : List UInt64) :
    Prop where
  rows : ∀ row ∈ st.messages, StoredFrom E posted row
  handled : ∀ seq ∈ handled, ∃ p ∈ posted, p.seq = seq ∧ p.type = typeMsg
    ∧ ∀ o, openMessage E.libsB (Python.str (Base64.encode p.payload)) = .ok o →
      Sync.HasRow (nodeA E) o → ∃ row ∈ st.messages, row.id = messageId (nodeA E) seq.toNat

variable {st st' : Store} {handled : List UInt64}

theorem Stored.mono (R : Stored E posted st handled) (h : posted ⊆ posted') :
    Stored E posted' st handled := by
  refine ⟨fun row hrow => ?_, fun seq hseq => ?_⟩
  · obtain ⟨peer, seq, payload, o, ho, hinc, hp⟩ := R.rows row hrow
    refine ⟨peer, seq, payload, o, ho, hinc, fun hpeer => ?_⟩
    obtain ⟨p, hmem, hrest⟩ := hp hpeer
    exact ⟨p, h hmem, hrest⟩
  · obtain ⟨p, hmem, hrest⟩ := R.handled seq hseq
    exact ⟨p, h hmem, hrest⟩

/-- Rows come in, and messages are handled that then have theirs. -/
theorem Stored.grow (R : Stored E posted st handled) (more : List UInt64)
    (hsub : st.messages ⊆ st'.messages)
    (hrows : ∀ row ∈ st'.messages, row ∈ st.messages ∨ StoredFrom E posted row)
    (hmore : ∀ seq ∈ more, ∃ p ∈ posted, p.seq = seq ∧ p.type = typeMsg
      ∧ ∀ o, openMessage E.libsB (Python.str (Base64.encode p.payload)) = .ok o →
        Sync.HasRow (nodeA E) o → ∃ row ∈ st'.messages, row.id = messageId (nodeA E) seq.toNat) :
    Stored E posted st' (handled ++ more) := by
  refine ⟨fun row hrow => (hrows row hrow).elim (R.rows row) id, fun seq hseq => ?_⟩
  rcases List.mem_append.1 hseq with hseq | hseq
  · obtain ⟨p, hmem, hs, ht, hrow⟩ := R.handled seq hseq
    refine ⟨p, hmem, hs, ht, fun o ho hh => ?_⟩
    obtain ⟨row, hin, hid⟩ := hrow o ho hh
    exact ⟨row, hsub hin, hid⟩
  · exact hmore seq hseq

theorem Stored.grow_rows (R : Stored E posted st handled) (hsub : st.messages ⊆ st'.messages)
    (hrows : ∀ row ∈ st'.messages, row ∈ st.messages ∨ StoredFrom E posted row) :
    Stored E posted st' handled := by
  have hgrow := R.grow [] hsub hrows (by simp)
  rwa [List.append_nil] at hgrow

theorem append_if {α : Type*} (c : Prop) [Decidable c] (l more : List α) :
    (if c then l ++ more else l) = l ++ if c then more else [] := by
  split_ifs
  · rfl
  · rw [List.append_nil]

/-- A `recv` event is handled. -/
theorem Stored.recv (hA : E.nodes.keyA.length = publicKeySize)
    (R : Stored E posted w.store w.handled) {sender : PublicKey} {seq : UInt64} (ts : Int64)
    {payload : Bytes}
    (h : sender = E.nodes.keyA → ⟨seq, typeMsg, payload⟩ ∈ posted) :
    Stored E posted (w.recv E sender seq ts payload).store
      (w.recv E sender seq ts payload).handled := by
  obtain ⟨ev, hto, hsender, hseq, hpayload⟩ := Desk.Inv.recvEvent_fields sender seq ts payload
  unfold Chat.recv
  simp only [hto]
  have hsame : ∀ {more : List UInt64}, (∀ s ∈ more, s = seq ∧ sender = E.nodes.keyA
      ∧ ∀ o, openMessage E.libsB (Python.str (Base64.encode payload)) ≠ .ok o) →
      Stored E posted w.store (w.handled ++ more) := by
    intro more hmore
    refine R.grow more (List.Subset.refl _) (fun row hrow => .inl hrow) fun s hs => ?_
    obtain ⟨rfl, hkey, hno⟩ := hmore s hs
    exact ⟨_, h hkey, rfl, rfl, fun o ho => absurd ho (hno o)⟩
  -- the seqs that are handled, at most the one
  have hhandled := append_if (sender = E.nodes.keyA) w.handled [seq]
  have hmem : ∀ s ∈ (if sender = E.nodes.keyA then [seq] else []),
      s = seq ∧ sender = E.nodes.keyA := by
    intro s hs
    split_ifs at hs with hkey
    · exact ⟨List.mem_singleton.1 hs, hkey⟩
    · cases hs
  by_cases hnil : Hex.encode sender = []
  · have hnone : Sync.onEvent E.libsB w.store ev = (.ok (none, false), w.store) := by
      simp only [Sync.onEvent, hsender, hnil, if_true]
    have hkey : sender ≠ E.nodes.keyA := by
      rintro rfl
      exact Desk.Inv.encode_ne_nil hA hnil
    simp only [hnone, if_neg hkey]
    exact R
  by_cases hempty : payload = []
  · subst hempty
    rw [if_pos rfl] at hpayload
    have hnone : Sync.onEvent E.libsB w.store ev = (.ok (none, false), w.store) := by
      simp only [Sync.onEvent, hsender, hnil, if_false, hpayload]
    simp only [hnone, hhandled]
    exact hsame fun s hs => ⟨(hmem s hs).1, (hmem s hs).2, Desk.Inv.openMessage_nil E.libsB⟩
  rw [if_neg hempty] at hpayload
  obtain ⟨r, st', hrun, hcase⟩ := Sync.onEvent_cases E.libsB w.store hsender hnil hpayload
  simp only [hrun]
  rcases hcase with ⟨e, rfl, -, hm, -⟩ | ⟨b, rfl, ⟨e, he, -⟩, rfl⟩
    | ⟨b, o, row, rfl, ho, -, -, hrow, hm, -⟩
  · have hsub : w.store.messages ⊆ st'.messages := by rw [hm]; exact List.Subset.refl _
    exact R.grow_rows hsub fun row hrow => .inl (by rwa [hm] at hrow)
  · dsimp only
    rw [hhandled]
    refine hsame fun s hs => ⟨(hmem s hs).1, (hmem s hs).2, fun o ho => ?_⟩
    rw [he] at ho
    cases ho
  · rw [hseq] at hrow
    dsimp only
    rw [hhandled]
    refine R.grow _ ?_ (fun x hx => ?_) fun s hs => ?_
    · rw [hm]
      exact Store.subset_addRow _ _
    · rw [hm] at hx
      rcases Store.mem_addRow hx with hx | rfl
      · exact .inl hx
      · refine .inr ⟨_, seq, _, o, ho, hrow, fun hpeer => ?_⟩
        exact ⟨_, h (Hex.encode_injective hpeer), rfl, rfl, rfl⟩
    · obtain ⟨rfl, rfl⟩ := hmem s hs
      refine ⟨_, h rfl, rfl, rfl, fun o' ho' hh => ?_⟩
      obtain rfl : o = o' := Except.ok.inj (ho.symm.trans ho')
      obtain ⟨x, rfl⟩ := hh.exists_row hrow
      obtain ⟨y, hy, hid, -⟩ := Store.exists_mem_addRow w.store.messages x
      rw [← hm] at hy
      exact ⟨y, hy, hid.trans (Store.incomingRow_id hrow)⟩

/-- A sync of any peer. -/
theorem Stored.sync (hA : E.nodes.keyA.length = publicKeySize)
    (R : Stored E posted w.store w.handled)
    (F : Filed E.nodes.cfgB E.nodes.keyA posted w.world.b.daemon.db) (now : ℤ) (peer : Text) :
    Stored E posted (w.sync E now peer).store (w.sync E now peer).handled := by
  unfold Chat.sync
  rcases hfetch : Sync.fetch E.nodes.cfgB now w.world.b.daemon w.store peer with ⟨e | msgs, daemon⟩
  · exact R
  dsimp only
  have hmsgs : peer = nodeA E → ∀ m ∈ msgs, ∃ p ∈ posted, p.seq = m.seq ∧ p.type = typeMsg
      ∧ m.payload = Base64.encode p.payload := by
    rintro rfl m hm
    obtain ⟨msgs', d', heq, -, hmem⟩ :=
      Sync.fetch_eq E.nodes.cfgB hA now w.world.b.daemon w.store
    obtain rfl : msgs' = msgs := Except.ok.inj (congrArg Prod.fst (heq.symm.trans hfetch))
    obtain ⟨r, hr, hpeer, -, rfl⟩ := (hmem m).1 hm
    exact ⟨_, F.posted_row hr hpeer, rfl, rfl, rfl⟩
  have hnew : ∀ row, Sync.NewRow E.libsB peer msgs row → StoredFrom E posted row := by
    rintro row ⟨m, hm, o, ho, hinc⟩
    exact ⟨peer, m.seq, m.payload, o, ho, hinc, fun hpeer => hmsgs hpeer m hm⟩
  obtain ⟨r, st', hrun, hsub, hrows, hcase⟩ := Sync.apply_cases E.libsB w.store peer msgs
  rw [hrun]
  rcases hcase with ⟨e, rfl, -, -⟩ | ⟨n, rfl, hall, hstored, -⟩
  · exact R.grow_rows hsub fun row hrow => (hrows row hrow).imp_right (hnew row)
  dsimp only
  rw [append_if]
  refine R.grow _ hsub (fun row hrow => (hrows row hrow).imp_right (hnew row)) fun s hs => ?_
  split_ifs at hs with hpeer
  swap
  · cases hs
  obtain ⟨m, hm, rfl⟩ := List.mem_map.1 hs
  obtain ⟨p, hp, hseq, ht, hpay⟩ := hmsgs hpeer m hm
  refine ⟨p, hp, hseq, ht, fun o ho hh => ?_⟩
  rw [← hpay] at ho
  rw [← hpeer] at hh ⊢
  -- what was fetched was handled, so it could be stored
  obtain ⟨hlt, hhandles⟩ := hall m hm
  have hs : Storable E.libsB peer o := by
    rcases hhandles with ⟨e, he, -⟩ | ⟨o', ho', hs, -⟩
    · rw [ho] at he
      cases he
    · obtain rfl : o = o' := Except.ok.inj (ho.symm.trans ho')
      exact hs
  obtain ⟨r, hinc⟩ := hs.exists_row hlt
  obtain ⟨row, rfl⟩ := hh.exists_row hinc
  obtain ⟨x, hx, hid⟩ := hstored row ⟨m, hm, o, ho, hinc⟩
  exact ⟨x, hx, hid.trans (Store.incomingRow_id hinc)⟩

/-- For the daemons a sync is a `history` request. -/
def historyMove (w : Chat) (now : ℤ) (peer : Text) : Move :=
  .act .b (.request now true (.history peer (UInt64.ofNat (w.store.cursor peer))))

theorem sync_world (w : Chat) (now : ℤ) (peer : Text) :
    w.sync E now peer = { w with
      world := w.world.step E.nodes (w.historyMove now peer)
      store := (w.sync E now peer).store
      handled := (w.sync E now peer).handled } := by
  have hdaemon : (Sync.fetch E.nodes.cfgB now w.world.b.daemon w.store peer).2
      = (w.world.b.daemon.dispatch E.nodes.cfgB now true
        (.history peer (UInt64.ofNat (w.store.cursor peer)))).2 := by
    unfold Sync.fetch
    split <;> rename_i h <;> rw [h]
  have hworld : (w.setDaemonB (Sync.fetch E.nodes.cfgB now w.world.b.daemon w.store peer).2).world
      = w.world.step E.nodes (w.historyMove now peer) := by
    rw [hdaemon]
    rfl
  rw [← hworld]
  unfold Chat.sync
  rcases Sync.fetch E.nodes.cfgB now w.world.b.daemon w.store peer with ⟨e | msgs, daemon⟩
  · rfl
  dsimp only
  rcases Sync.apply E.libsB w.store peer msgs with ⟨e | n, st'⟩ <;> rfl

theorem recv_world (w : Chat) (sender : PublicKey) (seq : UInt64) (ts : Int64) (payload : Bytes) :
    w.recv E sender seq ts payload = { w with
      store := (w.recv E sender seq ts payload).store
      handled := (w.recv E sender seq ts payload).handled } := by
  unfold Chat.recv
  split
  · rfl
  · split <;> rfl

/-! ### Whole runs -/

/-- What holds of a chat in every state. -/
structure Inv (E : ChatEnv) (w : Chat) : Prop where
  world : World.Inv E.nodes w.world
  ordered : World.Ordered E.nodes w.world
  ticked : Ticked E.nodes.keyB w.world.posted (ackedSeqs E.nodes.keyB w.eventsA) w.world.a.daemon.db
  announced : ∀ seq payload, (seq, payload) ∈ w.world.accepted
    ↔ ∃ ts, Event.recv E.nodes.keyA seq ts payload ∈ w.eventsB
  marked : Marked E w.entered (ackedSeqs E.nodes.keyB w.eventsA) w.tracker
  texts : ∀ m ∈ w.texts, Followed E w.world.posted w.tracker m
  stored : Stored E w.world.posted w.store w.handled

theorem Inv.init : Inv E {} where
  world := World.Inv.init
  ordered := World.Ordered.init
  ticked := Ticked.init
  announced := by simp
  marked := ⟨List.nodup_nil, nofun, nofun⟩
  texts := nofun
  stored := ⟨nofun, nofun⟩

theorem ackedSeqs_append (dest : PublicKey) (l l' : List Event) :
    ackedSeqs dest (l ++ l') = ackedSeqs dest l ++ ackedSeqs dest l' := List.filterMap_append

theorem Inv.worldStep (hne : E.nodes.keyA ≠ E.nodes.keyB) (I : Inv E w) (move : Move) :
    Inv E (w.step E (.world move)) := by
  have hticked := World.ticked_step I.world I.ticked move
  rw [← World.events_a, ← ackedSeqs_append] at hticked
  have hsub := World.posted_subset_step (N := E.nodes) w.world move
  refine ⟨I.world.step hne move, I.ordered.step hne I.world move, hticked, fun seq payload => ?_,
    I.marked.mono ?_, fun m hm => (I.texts m hm).mono hsub fun r hr => ⟨r, hr, rfl, rfl⟩,
    I.stored.mono hsub⟩
  · show (seq, payload) ∈ (w.world.step E.nodes move).accepted ↔ _
    rw [World.mem_accepted_step, I.announced, ← exists_or]
    simp only [Chat.step, List.mem_append]
  · show _ ⊆ ackedSeqs E.nodes.keyB (w.eventsA ++ World.events E.nodes w.world .a move)
    rw [ackedSeqs_append]
    exact List.subset_append_left _ _

theorem answered_spec {typ : EnvelopeType} {isPayload : Bytes → Bool} {keys : List DeliveryKey}
    (h : w.answered E typ isPayload keys) {s : ℕ} (hs : (nodeB E, s) ∈ keys) :
    s ∉ w.entered ∧ ∃ p ∈ w.world.posted, p.seq.toNat = s ∧ p.type = typ
      ∧ isPayload p.payload = true := by
  have hall := List.all_eq_true.1 h s (mem_seqsToB.2 hs)
  obtain ⟨hnew, hposted⟩ := Bool.and_eq_true_iff.1 hall
  obtain ⟨p, hp, hand⟩ := List.any_eq_true.1 hposted
  simp only [Bool.and_eq_true, decide_eq_true_eq] at hand
  exact ⟨by simpa using hnew, p, hp, hand.1.1, hand.1.2, hand.2⟩

theorem Inv.textStep (I : Inv E w) {m : SentText}
    (h : w.answered E typeMsg (m.isBox E.sealer E.screenName (nodeB E)) m.seqs) :
    Inv E (w.enterText E m) := by
  obtain ⟨store, new, heq, hins⟩ :=
    w.tracker.addSent_spec (L := E.libsA) m.target.conv m.seqs m.ts m.text none none
  have hold : ∀ x ∈ w.texts, Followed E w.world.posted
      (w.tracker.addSent E.libsA m.target.conv m.seqs m.ts m.text none none).2 x := by
    intro x hx
    refine (I.texts x hx).mono (List.Subset.refl _) fun r hr => ⟨r, ?_, rfl, rfl⟩
    rw [heq]
    exact List.mem_append_left _ hr
  have hdel : (w.tracker.addSent E.libsA m.target.conv m.seqs m.ts m.text none none).2.deliveries
      = w.tracker.deliveries ++ new := by rw [heq]
  have hmarked := I.marked.enter hins hdel
  have hrow := fun hok s hs => I.marked.row hins hok (s := s) hs (answered_spec h hs).1
  unfold enterText
  rcases hadd : w.tracker.addSent E.libsA m.target.conv m.seqs m.ts m.text none none
    with ⟨e | isNew, t'⟩
  · rw [hadd] at hold hmarked
    exact { I with marked := hmarked, texts := hold }
  rw [hadd] at hold hmarked hdel hrow
  refine { I with marked := hmarked, texts := fun x hx => ?_ }
  rcases List.mem_append.1 hx with hx | hx
  · exact hold x hx
  obtain rfl := List.mem_singleton.1 hx
  intro s hs
  obtain ⟨-, p, hp, hseq, ht, hbox⟩ := answered_spec h hs
  obtain ⟨r, hr, hkey, hmid⟩ := hrow ⟨_, rfl⟩ s hs
  refine ⟨p, hp, hseq, ht, hbox, r, ?_, hkey, hmid⟩
  have hdel : t'.deliveries = w.tracker.deliveries ++ new := hdel
  rw [hdel]
  exact hr

theorem Inv.step (hne : E.nodes.keyA ≠ E.nodes.keyB) (hA : E.nodes.keyA.length = publicKeySize)
    (I : Inv E w) (move : ChatMove) : Inv E (w.step E move) := by
  cases move with
  | world move => exact I.worldStep hne move
  | text m =>
    unfold Chat.step
    dsimp only
    split_ifs with h
    · exact I.textStep h
    · exact I
  | file conv seqs ts filename attachment expected =>
    unfold Chat.step
    dsimp only
    split_ifs with h
    swap
    · exact I
    obtain ⟨store, new, heq, hins⟩ := w.tracker.addSent_spec (L := E.libsA) conv seqs ts filename
      (some attachment) (some expected)
    have hdel : (w.tracker.step E.libsA
        (.file conv seqs ts filename attachment expected)).deliveries
          = w.tracker.deliveries ++ new := by
      unfold Tracker.step
      dsimp only
      split <;> rename_i hadd <;> rw [hadd] at heq <;> cases heq <;> rfl
    have hmarked := I.marked.enter hins hdel
    refine { I with marked := ⟨hmarked.keys, fun r hr hb => ?_, hmarked.marked⟩, texts := ?_ }
    · rcases List.mem_append.1 (hmarked.entered r hr hb) with hin | hin
      · exact List.mem_append_left _ hin
      · refine List.mem_append_right _ (mem_seqsToB.2 ?_)
        exact List.mem_of_mem_filter (mem_seqsToB.1 hin)
    · intro x hx
      refine (I.texts x hx).mono (List.Subset.refl _) fun r hr => ⟨r, ?_, rfl, rfl⟩
      rw [hdel]
      exact List.mem_append_left _ hr
  | acked dest seq =>
    unfold Chat.step
    dsimp only
    split_ifs with h
    swap
    · exact I
    have hseq : dest = E.nodes.keyB → seq ∈ ackedSeqs E.nodes.keyB w.eventsA := by
      rintro rfl
      exact List.mem_filterMap.2 ⟨_, h, if_pos rfl⟩
    obtain ⟨hmarked, hrows⟩ := I.marked.acked hseq
    exact { I with
      marked := hmarked
      texts := fun x hx => (I.texts x hx).mono (List.Subset.refl _) hrows }
  | recv sender seq ts payload =>
    unfold Chat.step
    dsimp only
    split_ifs with h
    swap
    · exact I
    have hposted : sender = E.nodes.keyA → ⟨seq, typeMsg, payload⟩ ∈ w.world.posted := by
      rintro rfl
      exact I.world.accepted _ ((I.announced seq payload).2 ⟨ts, h⟩)
    have hstored := I.stored.recv hA ts hposted
    rw [recv_world]
    exact { I with stored := hstored }
  | sync now peer =>
    have hworld := I.worldStep hne (w.historyMove now peer)
    have hstored := I.stored.sync hA I.ordered.filed now peer
    have hA' : w.eventsA ++ World.events E.nodes w.world .a (w.historyMove now peer) = w.eventsA :=
      List.append_nil _
    have hB' : w.eventsB ++ World.events E.nodes w.world .b (w.historyMove now peer) = w.eventsB :=
      List.append_nil _
    show Inv E (w.sync E now peer)
    rw [sync_world]
    dsimp only [Chat.step] at hworld
    rw [hA', hB'] at hworld
    exact { hworld with
      stored := hstored.mono (World.posted_subset_step (N := E.nodes) w.world _) }

theorem run_inv (hne : E.nodes.keyA ≠ E.nodes.keyB) (hA : E.nodes.keyA.length = publicKeySize)
    (moves : List ChatMove) : Inv E (run E moves) :=
  Runs.invariant_end (step E) {} moves Inv.init fun move _ _ I => I.step hne hA move

/-! ### From the mark to the other end -/

/-- A seq was posted once. -/
theorem Inv.posted_unique (I : Inv E w) {p q : Posted} (hp : p ∈ w.world.posted)
    (hq : q ∈ w.world.posted) (h : p.seq = q.seq) : p = q :=
  List.inj_on_of_nodup_map (List.Nodup.of_append_right I.world.sender.nodup) hp hq h

/-- A text whose row is marked was accepted, and announced. -/
theorem Inv.announced_of_delivered (I : Inv E w) {m : SentText} (hm : m ∈ w.texts)
    (hd : w.tracker.isDelivered (Tracker.outId m.seqs) = some true) {s : ℕ}
    (hs : (nodeB E, s) ∈ m.seqs) : ∃ p ∈ w.world.posted, p.seq.toNat = s ∧ p.type = typeMsg
      ∧ m.isBox E.sealer E.screenName (nodeB E) p.payload
      ∧ ∃ ts, Event.recv E.nodes.keyA p.seq ts p.payload ∈ w.eventsB := by
  obtain ⟨p, hp, hseq, ht, hbox, r, hr, hkey, hmid⟩ := I.texts m hm s hs
  refine ⟨p, hp, hseq, ht, hbox, (I.announced p.seq p.payload).1 ?_⟩
  have hacked : r.acked = true := by
    unfold Tracker.isDelivered at hd
    dsimp only at hd
    split_ifs at hd
    have hall := List.all_eq_true.1 (Option.some.inj hd)
    exact hall r (List.mem_filter.2 ⟨hr, decide_eq_true hmid⟩)
  obtain ⟨seq, hticked, hsame⟩ := I.marked.marked r hr (by rw [hkey]) hacked
  obtain rfl : seq = p.seq := by
    rw [hkey] at hsame
    exact UInt64.toNat_inj.1 (hsame.trans hseq.symm)
  rcases I.world.kept p hp ht with ⟨x, hx, hpeer, hxs, -⟩ | hacc
  · exact absurd ⟨x, hx, hpeer, hxs⟩ ((I.ticked.mem_iff p hp).1 hticked)
  · exact hacc

/-- A message of `A` that was handled has its row. -/
theorem Inv.row_of_handled (I : Inv E w) {p : Posted} (hp : p ∈ w.world.posted)
    (hhandled : p.seq ∈ w.handled) {o : Opened}
    (ho : openMessage E.libsB (Python.str (Base64.encode p.payload)) = .ok o)
    (hh : Sync.HasRow (nodeA E) o) :
    ∃ row ∈ w.store.messages, Store.incomingRow E.libsB (Sync.convOf (nodeA E) o) (nodeA E)
      p.seq.toNat o.ts o.text none = .ok (some row) := by
  obtain ⟨q, hq, hqs, -, hrow⟩ := I.stored.handled _ hhandled
  obtain rfl := I.posted_unique hq hp hqs
  obtain ⟨row, hmem, hid⟩ := hrow o ho hh
  refine ⟨row, hmem, ?_⟩
  -- the row has its id of the peer and the seq, and these of the payload
  obtain ⟨peer, seq, payload, o', ho', hinc, hfrom⟩ := I.stored.rows row hmem
  rw [Store.incomingRow_id hinc] at hid
  obtain ⟨rfl, hseq⟩ := messageId_eq_iff.1 hid
  obtain rfl := UInt64.toNat_inj.1 hseq
  obtain ⟨x, hx, hxs, -, rfl⟩ := hfrom rfl
  obtain rfl := I.posted_unique hx hq hxs
  obtain rfl : o = o' := Except.ok.inj (ho.symm.trans ho')
  exact hinc

end Chat

/-- The conversation under which a text is filed by one who gets it from the node. -/
def SentText.filedUnder (m : SentText) (node : Text) : Str :=
  match m.target with
  | .contact _ _ => Python.str node
  | .room conv _ => if conv = [] then Python.str node else conv

namespace SentText

variable {S : Sealer} {L : Libs} {screenName : Str} {node : Text} {m : SentText}

/-- What is read from the box of a text. -/
structure Reads (m : SentText) (node : Text) (o : Opened) : Prop where
  text : o.text = .str m.text
  ts : o.ts = .int m.ts
  conv : Sync.convOf node o = .str (m.filedUnder node)

/-- What is signed of a text. -/
def body (m : SentText) (screenName : Str) : List (Str × Json) :=
  match m.target with
  | .contact _ _ => messageBody m.text m.ts (some screenName) none none
  | .room conv members => roomBody members screenName conv m.text m.ts

theorem openMessage_sealFor {K : Str → Bool} {key sealed : Str} (H : Ideal K S L key)
    (hk : (Json.obj (m.body screenName)).allStr K = true)
    (h : m.sealFor S screenName key = .ok sealed) (from' : Text) :
    ∃ o, openMessage L sealed = .ok o ∧ m.Reads from' o := by
  unfold sealFor at h
  unfold body at hk
  rcases htarget : m.target with ⟨conv, pubkey⟩ | ⟨conv, members⟩
  · rw [htarget] at h hk
    refine ⟨_, open_sealMessage H (by simp) hk h, rfl, rfl, ?_⟩
    simp [Sync.convOf, openedText, filedUnder, htarget]
  · rw [htarget] at h hk
    have hm : ∀ v ∈ some (Json.arr (members.map RoomMember.toJson)), v.Proper := by
      rintro v ⟨rfl⟩
      exact roster_proper members
    refine ⟨_, open_sealMessage H hm hk h, rfl, rfl, ?_⟩
    by_cases hconv : conv = []
    · simp [Sync.convOf, openedText, filedUnder, htarget, hconv, Json.truthy]
    · simp [Sync.convOf, openedText, filedUnder, htarget, hconv, Json.truthy]

theorem sealFor_base64 {key sealed : Str} (h : m.sealFor S screenName key = .ok sealed) :
    ∃ box, sealed = Python.str (Base64.encode box) := by
  unfold sealFor at h
  split at h <;>
  · unfold sealMessage at h
    obtain ⟨box, -, h⟩ := Python.bind_eq_ok.1 h
    cases h
    exact ⟨box, rfl⟩

/-- Whoever can open the boxes for a node reads the text in them. -/
theorem openMessage_isBox {K : Str → Bool} {payload : Bytes}
    (H : ∀ key ∈ m.pubkeysAt node, Ideal K S L key)
    (hk : (Json.obj (m.body screenName)).allStr K = true)
    (h : m.isBox S screenName node payload) (from' : Text) :
    ∃ o, openMessage L (Python.str (Base64.encode payload)) = .ok o ∧ m.Reads from' o := by
  obtain ⟨key, hkey, hbox⟩ := List.any_eq_true.1 h
  rcases hsealed : m.sealFor S screenName key with e | sealed
  · rw [hsealed] at hbox
    cases hbox
  rw [hsealed] at hbox
  obtain ⟨box, rfl⟩ := sealFor_base64 hsealed
  have hdecode := of_decide_eq_true hbox
  rw [goText_str, Base64.decode_encode] at hdecode
  obtain rfl := Option.some.inj hdecode
  exact openMessage_sealFor (H key hkey) hk hsealed from'

theorem Reads.hasRow {o : Opened} (h : m.Reads node o) : Sync.HasRow node o :=
  ⟨by rw [h.ts]; nofun, by rw [h.ts]; nofun, by rw [h.conv]; nofun⟩

theorem Reads.row {o : Opened} (h : m.Reads node o) {s : ℕ} {row : Message}
    (hrow : Store.incomingRow L (Sync.convOf node o) node s o.ts o.text none = .ok (some row)) :
    row = textRow node s (m.filedUnder node) m.text m.ts := by
  rw [h.conv, h.ts, h.text] at hrow
  obtain ⟨t, c, x, ht, hc, hx, -, hrow⟩ := Store.incomingRow_eq_ok.1 hrow
  simp only [Store.enc, bindValue] at ht hc hx
  split_ifs at ht hc hx
  cases ht
  cases hc
  cases hx
  simpa [Store.rowOf, SqlVal.toText, textRow, eq_comm] using hrow

end SentText

namespace Chat

/-- In every run of the two clients, their daemons and the network: a text that `A`'s client shows
as delivered was announced by `B`'s daemon, with the box that was sealed from the text for `B`; once
`B`'s client has handled it, its store has the text, under the conversation, the time and the seq it
was sent with; and whatever that store has under `A`'s name was sent. -/
theorem delivered_is_filed (E : ChatEnv) (hne : E.nodes.keyA ≠ E.nodes.keyB)
    (hA : E.nodes.keyA.length = publicKeySize) (moves : List ChatMove) :
    let w := run E moves
    (∀ m ∈ w.texts, w.tracker.isDelivered (Tracker.outId m.seqs) = some true →
      ∀ s, (nodeB E, s) ∈ m.seqs → ∃ seq ts payload, seq.toNat = s
        ∧ m.isBox E.sealer E.screenName (nodeB E) payload
        ∧ Event.recv E.nodes.keyA seq ts payload ∈ w.eventsB
        ∧ (seq ∈ w.handled → ∀ K : Str → Bool,
          (∀ key ∈ m.pubkeysAt (nodeB E), Ideal K E.sealer E.libsB key) →
          (Json.obj (m.body E.screenName)).allStr K = true →
          textRow (nodeA E) s (m.filedUnder (nodeA E)) m.text m.ts ∈ w.store.messages))
      ∧ ∀ row ∈ w.store.messages, row.sender = Python.str (nodeA E) →
        ∃ p ∈ w.world.posted, p.type = typeMsg
          ∧ ∃ o, Desk.RowOf E.libsB E.nodes.keyA p.seq p.payload o row := by
  intro w
  have I : Inv E w := run_inv hne hA moves
  refine ⟨fun m hm hd s hs => ?_, fun row hrow hsender => ?_⟩
  · obtain ⟨p, hp, rfl, -, hbox, ts, hev⟩ := I.announced_of_delivered hm hd hs
    refine ⟨p.seq, ts, p.payload, rfl, hbox, hev, fun hhandled K H hk => ?_⟩
    obtain ⟨o, ho, hreads⟩ := SentText.openMessage_isBox H hk hbox (nodeA E)
    obtain ⟨row, hmem, hinc⟩ := I.row_of_handled hp hhandled ho hreads.hasRow
    rw [← hreads.row hinc]
    exact hmem
  · obtain ⟨peer, seq, payload, o, ho, hinc, hfrom⟩ := I.stored.rows row hrow
    obtain rfl : peer = nodeA E := by
      obtain ⟨t, c, x, -, -, -, -, hof⟩ := Store.incomingRow_eq_ok.1 hinc
      unfold Store.rowOf at hof
      split at hof
      · cases hof
      · split_ifs at hof
        cases hof
        exact Python.str_injective hsender
    obtain ⟨p, hp, rfl, ht, rfl⟩ := hfrom rfl
    exact ⟨p, hp, ht, o, ho, hinc⟩

/-- The greeting to a room of two, from one to the other. -/
def helloEnv : ChatEnv :=
  ⟨⟨List.replicate 32 1, List.replicate 32 2, helloConfig, helloConfig⟩, plainSealer, [], helloLibs,
    helloLibs⟩

def helloNote : SentText :=
  ⟨.room (Python.str ['r']) helloMembers, Python.str ['h', 'i'], 5, [], [(nodeB helloEnv, 1)]⟩

def helloBox : Bytes :=
  (((helloNote.sealFor plainSealer [] (Python.str (Hex.encode nines))).toOption.bind
    fun sealed => Base64.decode (goText sealed))).getD []

/-- It is sent, entered, delivered and acknowledged, and both clients handle what their daemons
report. -/
def helloMoves : List ChatMove :=
  [.world (.act .a (.beginSend false (List.replicate 32 2) helloBox)),
    .world (.act .a (.finishSend 0 0)), .text helloNote,
    .world (.act .a (.startFlush 0 (List.replicate 32 2))), .world (.act .a (.flushNext 0 0)),
    .world (.act .a .writeControl), .world (.deliver 0 0), .world (.act .b .writeControl),
    .world (.deliver 1 0), .acked (List.replicate 32 2) 1,
    .recv (List.replicate 32 1) 1 0 helloBox]

theorem delivered_is_filed_hello :
    textRow (nodeA helloEnv) 1 (Python.str ['r']) (Python.str ['h', 'i']) 5
      ∈ (run helloEnv helloMoves).store.messages := by
  have hmem : helloNote ∈ (run helloEnv helloMoves).texts := by decide +kernel
  have hd : (run helloEnv helloMoves).tracker.isDelivered (Tracker.outId helloNote.seqs)
      = some true := by decide +kernel
  have hhandled : (1 : UInt64) ∈ (run helloEnv helloMoves).handled := by decide +kernel
  have hideal : ∀ key ∈ helloNote.pubkeysAt (nodeB helloEnv), Ideal Python.joined plainSealer
      helloLibs key := by
    have hkeys : helloNote.pubkeysAt (nodeB helloEnv) = [Python.str (Hex.encode nines)] := by
      decide +kernel
    intro key hkey
    rw [hkeys, List.mem_singleton] at hkey
    rw [hkey]
    exact plain_ideal _ nines
  obtain ⟨seq, ts, payload, hseq, -, -, hfiled⟩ :=
    (delivered_is_filed helloEnv (by decide) (by decide) helloMoves).1 helloNote hmem hd 1
      (List.mem_singleton_self _)
  obtain rfl : seq = 1 := UInt64.toNat_inj.1 hseq
  exact hfiled hhandled Python.joined hideal (by decide +kernel)

end Chat

end Aimless
