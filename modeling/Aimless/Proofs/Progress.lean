import Aimless.Proofs.Ticks
import Aimless.Proofs.Flush

/-!
# No text is stuck

Whatever the two daemons and the network did so far, a pending text can still be delivered: passes
that are under way end, the queues empty onto the network, a new pass enqueues the text if it is
due, and `B` acknowledges it whether it is new or not.  The state in between is `Waiting`: the row
is there, and it is due or a packet that brings it is on its way.
-/

namespace Aimless

/-- A step of the retry loop of `A`, of a write loop or of the network, at a time. -/
def Move.Routine (N : Nodes) (now : ℤ) : Move → Prop
  | .act .a (.startFlush t peer) => t = now ∧ peer = N.keyB
  | .act .a (.flushNext _ stamp) => stamp = now
  | .act _ .writeControl => True
  | .deliver _ t => t = now
  | _ => False

namespace World

variable {N : Nodes} {w w' : World} {now : ℤ} {r : OutboxRow}

/-- The packet is for `B` and has the type and the seq of the row. -/
def Brings (N : Nodes) (r : OutboxRow) (out : Outbound) : Prop :=
  out.pub = N.keyB ∧ ∃ env, decodeEnvelope out.data = .ok env ∧ env.type = typeMsg
    ∧ env.seq = r.seq.toUInt64

/-- The packet is in the control queue of `A` or on the network. -/
def UnderWay (w : World) (out : Outbound) : Prop :=
  out ∈ w.a.daemon.node.control ∨ (Side.a, out) ∈ w.net

structure Waiting (N : Nodes) (now : ℤ) (r : OutboxRow) (w : World) : Prop where
  inv : Inv N w
  row : r ∈ w.a.daemon.db.outbox
  open_a : ¬ w.a.daemon.isBlocked N.keyB
  open_b : ¬ w.b.daemon.isBlocked N.keyA
  ready : Daemon.stampDue N.cfgA now ((w.a.daemon.sentOf N.keyB).lookup r.seq.toUInt64)
    ∨ ∃ out, w.UnderWay out ∧ Brings N r out

/-! ### The write loops -/

theorem writeControl_a {out : Outbound} {rest : List Outbound}
    (h : w.a.daemon.node.control = out :: rest) :
    w.step N (.act .a .writeControl) = { w with
      a := { w.a with
        daemon := { w.a.daemon with node := { w.a.daemon.node with control := rest } } }
      net := w.net ++ [(.a, out)] } := by
  simp only [World.step, World.actA, Party.act, h]

theorem writeControl_b {out : Outbound} {rest : List Outbound}
    (h : w.b.daemon.node.control = out :: rest) :
    w.step N (.act .b .writeControl) = { w with
      b := { w.b with
        daemon := { w.b.daemon with node := { w.b.daemon.node with control := rest } } }
      net := w.net ++ [(.b, out)] } := by
  simp only [World.step, World.actB, Party.act, h]

variable (hne : N.keyA ≠ N.keyB)

/-- What is unchanged while the write loop of `A` runs. -/
structure Written (w w' : World) : Prop where
  flushes : w'.a.flushes = w.a.flushes
  underWay : ∀ out, w.UnderWay out → w'.UnderWay out

include hne in
/-- The write loop of `A` empties the control queue. -/
theorem Waiting.drain (W : Waiting N now r w) :
    ∃ w', Runs.Reaches (World.step N) (Move.Routine N now) w w'
      ∧ Waiting N now r w' ∧ Written w w'
      ∧ w'.a.daemon.node.control = [] := by
  have hstep : ∀ v, Waiting N now r v ∧ Written w v → v.a.daemon.node.control.length ≠ 0 →
      ∃ v', Runs.Reaches (World.step N) (Move.Routine N now) v v'
        ∧ (Waiting N now r v' ∧ Written w v')
        ∧ v'.a.daemon.node.control.length < v.a.daemon.node.control.length := by
    rintro v ⟨hv, hwritten⟩ hlen
    obtain ⟨out, rest, h⟩ := List.exists_cons_of_length_pos (Nat.pos_of_ne_zero hlen)
    have hinv := hv.inv.step hne (.act .a .writeControl)
    have hreach : Runs.Reaches (World.step N) (Move.Routine N now) v
        (v.step N (.act .a .writeControl)) := Runs.Reaches.one trivial
    have hunder : ∀ out', v.UnderWay out' → (v.step N (.act .a .writeControl)).UnderWay out' := by
      intro out' hout
      rw [writeControl_a h]
      rcases hout with hout | hout
      · rw [h] at hout
        rcases List.mem_cons.1 hout with rfl | hout
        · exact .inr (List.mem_append_right _ (List.mem_singleton.2 rfl))
        · exact .inl hout
      · exact .inr (List.mem_append_left _ hout)
    rw [writeControl_a h] at hinv hreach hunder
    refine ⟨_, hreach, ⟨?_, ?_⟩, ?_⟩
    · exact ⟨hinv, hv.row, hv.open_a, hv.open_b,
        hv.ready.imp id fun ⟨out', hout, hb⟩ => ⟨out', hunder out' hout, hb⟩⟩
    · exact ⟨hwritten.flushes, fun out' hout => hunder out' (hwritten.underWay out' hout)⟩
    · simp [h]
  obtain ⟨w', hreach, ⟨hW, hwritten⟩, hzero⟩ :=
    Runs.Reaches.of_measure (fun v : World => v.a.daemon.node.control.length) hstep
      ⟨W, rfl, fun _ => id⟩
  exact ⟨w', hreach, hW, hwritten, List.length_eq_zero_iff.1 hzero⟩

/-! ### Passes -/

section Pass

variable {i : ℕ} {t : FlushTask} {entry : JournalEntry} {entries : List JournalEntry}

theorem flushNext_nil (stamp : ℤ) (h : w.a.flushes[i]? = some t) (he : t.entries = []) :
    w.step N (.act .a (.flushNext i stamp))
      = { w with a := { w.a with flushes := w.a.flushes.eraseIdx i } } := by
  simp only [World.step, World.actA, Party.act, h, he]

theorem flushNext_cons (stamp : ℤ) (h : w.a.flushes[i]? = some t)
    (he : t.entries = entry :: entries) :
    w.step N (.act .a (.flushNext i stamp)) = { w with
      a := { w.a with
        daemon := Daemon.flushEntry N.cfgA t.now (fun _ => stamp) t.peer w.a.daemon entry
        flushes := w.a.flushes.set i { t with entries } } } := by
  simp only [World.step, World.actA, Party.act, h, he]

variable (hr : r.peer = N.keyB) (ht : r.type = typeMsg)

include hr ht in
/-- An entry that `A` enqueues under the seq of the row is that of the row. -/
theorem Waiting.entry_type (W : Waiting N now r w) (h : t ∈ w.a.flushes) (hp : t.peer = N.keyB)
    (he : entry ∈ t.entries) (hseq : entry.seq = r.seq.toUInt64) : entry.type = typeMsg := by
  obtain ⟨payload, -, hposted⟩ := W.inv.sender.entries t h hp entry he
  have hrow := W.inv.sender.rows r W.row hr
  have heq := W.inv.sender.posted_unique hposted hrow hseq
  rw [← ht]
  exact congrArg Posted.type heq

include hne hr ht in
theorem Waiting.flushed (W : Waiting N now r w) (h : w.a.flushes[i]? = some t)
    (hp : t.peer = N.keyB) (he : t.entries = entry :: entries) :
    Waiting N now r (w.step N (.act .a (.flushNext i now)))
      ∧ ∀ out, w.UnderWay out → (w.step N (.act .a (.flushNext i now))).UnderWay out := by
  have hinv := W.inv.step hne (.act .a (.flushNext i now))
  have hmem : t ∈ w.a.flushes := List.mem_of_getElem? h
  rw [flushNext_cons now h he] at hinv ⊢
  have hdb := Daemon.flushEntry_db (C := N.cfgA) t.now (fun _ => now) t.peer w.a.daemon entry
  have hrow :
      r ∈ (Daemon.flushEntry N.cfgA t.now (fun _ => now) t.peer w.a.daemon entry).db.outbox :=
    hdb ▸ W.row
  rcases w.a.daemon.flushEntry_cases (C := N.cfgA) t.peer t.now (fun _ => now) entry with
    hsame | ⟨payload, data, hpay, hdata, hsent⟩
  · rw [hsame] at hinv ⊢
    exact ⟨⟨hinv, W.row, W.open_a, W.open_b, W.ready⟩, fun _ => id⟩
  rw [hsent] at hinv hrow ⊢
  have hunder : ∀ out, w.UnderWay out →
      out ∈ (if entry.type = typeFile then w.a.daemon.withBulk t.peer data
        else w.a.daemon.withControl t.peer data).node.control ∨ (Side.a, out) ∈ w.net := by
    intro out hout
    refine hout.imp (fun hout => ?_) id
    split_ifs
    · exact hout
    · exact List.mem_append_left _ hout
  have hblocked : ¬ Daemon.isBlocked (if entry.type = typeFile then w.a.daemon.withBulk t.peer data
      else w.a.daemon.withControl t.peer data) N.keyB := by
    have hopen := W.open_a
    split_ifs <;> exact hopen
  refine ⟨⟨hinv, hrow, hblocked, W.open_b, ?_⟩, hunder⟩
  by_cases hseq : entry.seq = r.seq.toUInt64
  · -- the pass has just sent the row
    have htype := W.entry_type hr ht hmem hp (he ▸ List.mem_cons_self) hseq
    have hne' : entry.type ≠ typeFile := by
      rw [htype]
      decide
    refine .inr ⟨⟨t.peer, data⟩, .inl ?_, hp, _, Envelope.decode_of_encode rfl hdata, htype, hseq⟩
    show _ ∈ (if entry.type = typeFile then w.a.daemon.withBulk t.peer data
      else w.a.daemon.withControl t.peer data).node.control
    rw [if_neg hne']
    exact List.mem_append_right _ (List.mem_singleton.2 rfl)
  · refine W.ready.imp (fun hdue => ?_) fun ⟨out, hout, hb⟩ => ⟨out, hunder out hout, hb⟩
    rw [hp, Daemon.sentOf, AList.lookup_insert, Option.getD_some, OutboxJournal.markSent,
      AList.lookup_insert_ne (Ne.symm hseq)]
    exact hdue

/-- What the passes for `B` have yet to do. -/
def toFlush (N : Nodes) (flushes : List FlushTask) : ℕ :=
  (flushes.map fun t => if t.peer = N.keyB then t.entries.length + 1 else 0).sum

theorem toFlush_cons (t : FlushTask) (flushes : List FlushTask) : toFlush N (t :: flushes)
    = (if t.peer = N.keyB then t.entries.length + 1 else 0) + toFlush N flushes := by
  simp [toFlush]

theorem toFlush_perm {l l' : List FlushTask} (h : l.Perm l') : toFlush N l = toFlush N l' :=
  (h.map _).sum_eq

theorem toFlush_get {l : List FlushTask} (h : l[i]? = some t) : toFlush N l
    = (if t.peer = N.keyB then t.entries.length + 1 else 0) + toFlush N (l.eraseIdx i) := by
  obtain ⟨hi, rfl⟩ := List.getElem?_eq_some_iff.1 h
  rw [← toFlush_cons]
  exact toFlush_perm (List.getElem_cons_eraseIdx_perm hi).symm

theorem toFlush_set {l : List FlushTask} (h : l[i]? = some t) (t' : FlushTask) :
    toFlush N (l.set i t')
      = (if t'.peer = N.keyB then t'.entries.length + 1 else 0) + toFlush N (l.eraseIdx i) := by
  obtain ⟨hi, -⟩ := List.getElem?_eq_some_iff.1 h
  rw [← toFlush_cons]
  exact toFlush_perm (List.set_perm_cons_eraseIdx hi t')

include hne hr ht in
/-- The passes for `B` that are under way come to their ends. -/
theorem Waiting.finish (W : Waiting N now r w) (hw : w.a.daemon.node.control = []) :
    ∃ w', Runs.Reaches (World.step N) (Move.Routine N now) w w' ∧ Waiting N now r w'
      ∧ w'.a.daemon.node.control = [] ∧ ∀ t ∈ w'.a.flushes, t.peer ≠ N.keyB := by
  have hstep : ∀ v, Waiting N now r v ∧ v.a.daemon.node.control = [] →
      toFlush N v.a.flushes ≠ 0 → ∃ v', Runs.Reaches (World.step N) (Move.Routine N now) v v'
        ∧ (Waiting N now r v' ∧ v'.a.daemon.node.control = [])
        ∧ toFlush N v'.a.flushes < toFlush N v.a.flushes := by
    rintro v ⟨hv, hcontrol⟩ hsum
    obtain ⟨t, htm, hp⟩ : ∃ t ∈ v.a.flushes, t.peer = N.keyB := by
      by_contra hno
      push Not at hno
      refine hsum (List.sum_eq_zero_iff.2 fun n hn => ?_)
      obtain ⟨t, htm, rfl⟩ := List.mem_map.1 hn
      exact if_neg (hno t htm)
    obtain ⟨i, hi⟩ := List.mem_iff_getElem?.1 htm
    have hreach : Runs.Reaches (World.step N) (Move.Routine N now) v
        (v.step N (.act .a (.flushNext i now))) := Runs.Reaches.one rfl
    have hold := toFlush_get (N := N) hi
    rw [if_pos hp] at hold
    rcases hentries : t.entries with _ | ⟨entry, entries⟩
    · have hinv := hv.inv.step hne (.act .a (.flushNext i now))
      rw [flushNext_nil now hi hentries] at hreach hinv
      refine ⟨_, hreach, ⟨⟨hinv, hv.row, hv.open_a, hv.open_b, hv.ready⟩, hcontrol⟩, ?_⟩
      show toFlush N (v.a.flushes.eraseIdx i) < _
      omega
    · obtain ⟨hv', -⟩ := hv.flushed hne hr ht hi hp hentries
      obtain ⟨v'', hreach', hv'', hwritten, hempty⟩ := hv'.drain hne
      refine ⟨v'', hreach.trans hreach', ⟨hv'', hempty⟩, ?_⟩
      rw [hwritten.flushes, flushNext_cons now hi hentries]
      show toFlush N (v.a.flushes.set i { t with entries }) < _
      rw [toFlush_set hi, hold, if_pos hp, hentries, List.length_cons]
      exact Nat.add_lt_add_right (Nat.lt_succ_self _) _
  obtain ⟨w', hreach, ⟨hW, hempty⟩, hzero⟩ :=
    Runs.Reaches.of_measure (fun v : World => toFlush N v.a.flushes) hstep ⟨W, hw⟩
  refine ⟨w', hreach, hW, hempty, fun t htm hp => ?_⟩
  have hpos := List.sum_eq_zero_iff.1 hzero _ (List.mem_map_of_mem htm)
  rw [if_pos hp] at hpos
  exact Nat.succ_ne_zero _ hpos

theorem startFlush_eq (h : ∀ t ∈ w.a.flushes, t.peer ≠ N.keyB) :
    w.step N (.act .a (.startFlush now N.keyB)) = { w with
      a := { w.a with
        flushes := w.a.flushes ++ [⟨N.keyB, now, w.a.daemon.flushEntries N.keyB⟩] } } := by
  have hfree : ¬ w.a.flushes.any fun t => decide (t.peer = N.keyB) := by
    rw [List.any_eq_true]
    rintro ⟨t, htm, hp⟩
    exact h t htm (of_decide_eq_true hp)
  simp only [World.step, World.actA, Party.act, if_neg hfree]

variable (hkey : N.keyB.length = publicKeySize) (hlen : r.payload.length ≤ maxPayloadSize)
  (hmtu : envelopeHeaderSize + r.payload.length ≤ N.cfgA.mtu)

include hne hr ht hkey hlen hmtu in
/-- A pass with the due row among the entries to come. -/
theorem Waiting.pass {sent : OutboxJournal.Sent}
    (hdue : Daemon.stampDue N.cfgA now (sent.lookup r.seq.toUInt64)) :
    ∀ (entries : List JournalEntry) {w : World}, Waiting N now r w →
      w.a.daemon.node.control = [] → w.a.flushes[i]? = some ⟨N.keyB, now, entries⟩ →
      Daemon.entryAt sent r ∈ entries →
      ∃ w', Runs.Reaches (World.step N) (Move.Routine N now) w w' ∧ Waiting N now r w'
        ∧ ∃ out, (Side.a, out) ∈ w'.net ∧ Brings N r out
  | [], _, _, _, _, hmem => absurd hmem List.not_mem_nil
  | entry :: entries, w, W, hcontrol, hi, hmem => by
    obtain ⟨W', -⟩ := W.flushed hne hr ht hi rfl rfl
    have hreach : Runs.Reaches (World.step N) (Move.Routine N now) w
        (w.step N (.act .a (.flushNext i now))) := Runs.Reaches.one rfl
    obtain ⟨w₁, hdrain, W₁, hwritten, hempty⟩ := W'.drain hne
    by_cases hentry : entry = Daemon.entryAt sent r
    · -- the turn of the row, with the control queue empty
      subst hentry
      have hrowTurn := fun h => Daemon.flushEntry_row (C := N.cfgA) now (fun _ => now) sent
        w.a.daemon h fun _ => hmtu
      obtain ⟨hno, -⟩ | ⟨-, data, hdata, hturn⟩ := hrowTurn (hr ▸ hkey)
      · refine absurd ⟨?_, ?_⟩ hno
        · simp [Daemon.goesTo, hdue, hlen]
        · rw [ht]
          show w.a.daemon.node.control.length < controlCap
          rw [hcontrol]
          exact Nat.zero_lt_succ _
      · have hout : UnderWay (w.step N (.act .a (.flushNext i now))) ⟨N.keyB, data⟩ := by
          left
          rw [flushNext_cons now hi rfl, ← hr]
          show _ ∈ (Daemon.flushEntry _ now _ r.peer _ _).node.control
          rw [hturn, Daemon.sentRow, ht]
          exact List.mem_append_right _ (List.mem_singleton.2 rfl)
        refine ⟨w₁, hreach.trans hdrain, W₁, ⟨N.keyB, data⟩, ?_, rfl, _,
          Envelope.decode_of_encode rfl hdata, ht, rfl⟩
        refine (hwritten.underWay _ hout).resolve_left ?_
        rw [hempty]
        exact List.not_mem_nil
    · have hmem' : Daemon.entryAt sent r ∈ entries :=
        (List.mem_cons.1 hmem).resolve_left (Ne.symm hentry)
      have hi' : w₁.a.flushes[i]? = some ⟨N.keyB, now, entries⟩ := by
        rw [hwritten.flushes, flushNext_cons now hi rfl]
        exact List.getElem?_set_self (List.getElem?_eq_some_iff.1 hi).1
      obtain ⟨w₂, hrest, hw₂⟩ := Waiting.pass hdue entries W₁ hempty hi' hmem'
      exact ⟨w₂, (hreach.trans hdrain).trans hrest, hw₂⟩

include hne hr ht hkey hlen hmtu in
/-- A packet that brings the text gets onto the network. -/
theorem Waiting.send (W : Waiting N now r w) :
    ∃ w', Runs.Reaches (World.step N) (Move.Routine N now) w w' ∧ Waiting N now r w'
      ∧ ∃ out, (Side.a, out) ∈ w'.net ∧ Brings N r out := by
  obtain ⟨w₁, hdrain, W₁, -, hempty₁⟩ := W.drain hne
  obtain ⟨w₂, hfinish, W₂, hempty, hfree⟩ := W₁.finish hne hr ht hempty₁
  have hreach := hdrain.trans hfinish
  rcases W₂.ready with hdue | ⟨out, hout, hb⟩
  · have hstart : Runs.Reaches (World.step N) (Move.Routine N now) w₂
        (w₂.step N (.act .a (.startFlush now N.keyB))) := Runs.Reaches.one ⟨rfl, rfl⟩
    have hinv := W₂.inv.step hne (.act .a (.startFlush now N.keyB))
    rw [startFlush_eq hfree] at hstart hinv
    have hknown : N.keyB ∈ w₂.a.daemon.boxes := hr ▸ W₂.inv.sender.boxed r W₂.row
    have hentries := Daemon.flushEntries_eq W₂.open_a hknown
    have hmem : Daemon.entryAt (w₂.a.daemon.sentOf N.keyB) r
        ∈ w₂.a.daemon.flushEntries N.keyB := by
      rw [hentries]
      exact List.mem_map_of_mem (Daemon.mem_rowsOf.2 ⟨W₂.row, hr⟩)
    obtain ⟨w₃, hpass, hw₃⟩ := Waiting.pass (i := w₂.a.flushes.length) hne hr ht hkey hlen hmtu hdue
      (w₂.a.daemon.flushEntries N.keyB) ⟨hinv, W₂.row, W₂.open_a, W₂.open_b, W₂.ready⟩ hempty
      (by simp) hmem
    exact ⟨w₃, (hreach.trans hstart).trans hpass, hw₃⟩
  · refine ⟨w₂, hreach, W₂, out, hout.resolve_left ?_, hb⟩
    rw [hempty]
    exact List.not_mem_nil

end Pass

/-! ### The network and back -/

include hne in
theorem Waiting.drain_b (W : Waiting N now r w) :
    ∃ w', Runs.Reaches (World.step N) (Move.Routine N now) w w' ∧ Waiting N now r w'
      ∧ (∀ x ∈ w.net, x ∈ w'.net) ∧ w'.b.daemon.node.control = [] := by
  have hstep : ∀ v, Waiting N now r v ∧ (∀ x ∈ w.net, x ∈ v.net) →
      v.b.daemon.node.control.length ≠ 0 →
        ∃ v', Runs.Reaches (World.step N) (Move.Routine N now) v v'
        ∧ (Waiting N now r v' ∧ ∀ x ∈ w.net, x ∈ v'.net)
        ∧ v'.b.daemon.node.control.length < v.b.daemon.node.control.length := by
    rintro v ⟨hv, hnet⟩ hlen
    obtain ⟨out, rest, h⟩ := List.exists_cons_of_length_pos (Nat.pos_of_ne_zero hlen)
    have hinv := hv.inv.step hne (.act .b .writeControl)
    have hreach : Runs.Reaches (World.step N) (Move.Routine N now) v
        (v.step N (.act .b .writeControl)) := Runs.Reaches.one trivial
    rw [writeControl_b h] at hinv hreach
    refine ⟨_, hreach, ⟨⟨hinv, hv.row, hv.open_a, hv.open_b, ?_⟩, fun x hx => ?_⟩, ?_⟩
    · exact hv.ready.imp id fun ⟨out', hout, hb⟩ =>
        ⟨out', hout.imp id (List.mem_append_left _), hb⟩
    · exact List.mem_append_left _ (hnet x hx)
    · simp [h]
  obtain ⟨w', hreach, ⟨hW, hnet⟩, hzero⟩ :=
    Runs.Reaches.of_measure (fun v : World => v.b.daemon.node.control.length) hstep ⟨W, fun _ => id⟩
  exact ⟨w', hreach, hW, hnet, List.length_eq_zero_iff.1 hzero⟩

/-- `B` acknowledges a text, new or not. -/
theorem handlePacket_text (now : ℤ) {C : Config} {d : Daemon} {sender : PublicKey} {data : Bytes}
    {env : Envelope} (hopen : ¬ d.isBlocked sender) (henv : decodeEnvelope data = .ok env)
    (ht : env.type = typeMsg) (hcan : d.CanAnswer C sender) :
    ∃ ack, encodeAck env.seq = .ok ack ∧ (d.handlePacket C now sender data).1.node.control
      = d.node.control ++ [⟨sender, ack⟩] := by
  obtain ⟨ack, hack, -⟩ := encodeAck_ok env.seq
  refine ⟨ack, hack, ?_⟩
  have hne : typeMsg ≠ typeFile := by decide
  simp only [Daemon.handlePacket, if_neg hopen, henv, ht, if_neg hne, if_true]
  rw [Daemon.sendAck_of_canAnswer _ hack]
  · simp only [Daemon.withControl, d.boxFor_node]
  · refine ⟨hcan.1, hcan.2.1, ?_⟩
    simp only [d.boxFor_node]
    exact hcan.2.2

/-- `A` deletes the row of a seq that is acknowledged. -/
theorem handlePacket_ack {C : Config} {d : Daemon} {sender : PublicKey} {data : Bytes}
    {seq : UInt64} (hopen : ¬ d.isBlocked sender) (hack : encodeAck seq = .ok data) :
    ¬ OutboxJournal.Holds (d.handlePacket C now sender data).1.db sender seq := by
  have henv := Envelope.decode_of_encode rfl hack
  have hf : typeAck ≠ typeFile := by decide
  have hm : typeAck ≠ typeMsg := by decide
  simp only [Daemon.handlePacket, if_neg hopen, henv, if_neg hf, if_neg hm, if_true, d.boxFor_db]
  rw [OutboxJournal.holds_ack]
  exact fun h => h.2 ⟨rfl, rfl⟩

theorem deliver_b {i : ℕ} {out : Outbound} (h : w.net[i]? = some (Side.a, out))
    (hout : out.pub = N.keyB) (hne : N.keyA ≠ N.keyB) :
    w.step N (.deliver i now) = w.receiveB N now N.keyA out.data := by
  have hna : ¬ N.keyB = N.keyA := Ne.symm hne
  simp only [World.step, h, hout, if_neg hna, if_true]
  rfl

theorem deliver_a {i : ℕ} {out : Outbound} (h : w.net[i]? = some (Side.b, out))
    (hout : out.pub = N.keyA) :
    w.step N (.deliver i now) = w.receiveA N now N.keyB out.data := by
  simp only [World.step, h, hout, if_true]
  rfl

include hne in
/-- The packet is delivered, and its acknowledgement. -/
theorem Waiting.deliver (W : Waiting N now r w) (hcan : w.b.daemon.CanAnswer N.cfgB N.keyA)
    (hempty : w.b.daemon.node.control = []) {out : Outbound} (hout : (Side.a, out) ∈ w.net)
    (hb : Brings N r out) :
    ∃ w', Runs.Reaches (World.step N) (Move.Routine N now) w w' ∧ w'.posted = w.posted
      ∧ ¬ OutboxJournal.Holds w'.a.daemon.db N.keyB r.seq.toUInt64 := by
  obtain ⟨hpub, env, henv, htype, hseq⟩ := hb
  obtain ⟨i, hi⟩ := List.mem_iff_getElem?.1 hout
  obtain ⟨ack, hack, hcontrol⟩ := handlePacket_text now W.open_b henv htype hcan
  rw [hempty, List.nil_append] at hcontrol
  have hdata : Runs.Reaches (World.step N) (Move.Routine N now) w (w.step N (.deliver i now)) :=
    Runs.Reaches.one rfl
  rw [deliver_b hi hpub hne] at hdata
  have hwrite : Runs.Reaches (World.step N) (Move.Routine N now) (w.receiveB N now N.keyA out.data)
      ((w.receiveB N now N.keyA out.data).step N (.act .b .writeControl)) :=
    Runs.Reaches.one trivial
  rw [writeControl_b hcontrol] at hwrite
  set w₂ : World := { w.receiveB N now N.keyA out.data with
    b := { (w.receiveB N now N.keyA out.data).b with
      daemon := { (w.receiveB N now N.keyA out.data).b.daemon with
        node := { (w.receiveB N now N.keyA out.data).b.daemon.node with control := [] } } }
    net := (w.receiveB N now N.keyA out.data).net ++ [(.b, ⟨N.keyA, ack⟩)] }
  have hj : w₂.net[w.net.length]? = some (Side.b, ⟨N.keyA, ack⟩) := by
    simp [w₂, World.receiveB]
  have hback : Runs.Reaches (World.step N) (Move.Routine N now) w₂
      (w₂.step N (.deliver w.net.length now)) := Runs.Reaches.one rfl
  rw [deliver_a hj rfl] at hback
  refine ⟨_, (hdata.trans hwrite).trans hback, rfl, ?_⟩
  rw [← hseq]
  exact handlePacket_ack (C := N.cfgA) (d := w.a.daemon) W.open_a hack

/-- In every state of every run: a text row for a peer, neither of the two having blocked the other,
that fits an envelope and the MTU can be delivered at any time at which it is due, by steps of the
retry loop, the write loops and the network alone.  The row is gone then, the peer has accepted its
seq with its payload, and that was reported. -/
theorem delivery_possible (N : Nodes) (hne : N.keyA ≠ N.keyB)
    (hkeyA : N.keyA.length = publicKeySize) (hkeyB : N.keyB.length = publicKeySize)
    (hack : envelopeHeaderSize ≤ N.cfgB.mtu) (moves : List Move) (now : ℤ) {r : OutboxRow}
    (hrow : r ∈ (World.run N moves).a.daemon.db.outbox) (hr : r.peer = N.keyB)
    (ht : r.type = typeMsg) (hlen : r.payload.length ≤ maxPayloadSize)
    (hmtu : envelopeHeaderSize + r.payload.length ≤ N.cfgA.mtu)
    (hopenA : ¬ (World.run N moves).a.daemon.isBlocked N.keyB)
    (hopenB : ¬ (World.run N moves).b.daemon.isBlocked N.keyA)
    (hdue : Daemon.stampDue N.cfgA now
      (((World.run N moves).a.daemon.sentOf N.keyB).lookup r.seq.toUInt64)) :
    ∃ more : List Move, (∀ m ∈ more, m.Routine N now)
      ∧ ¬ OutboxJournal.Holds (World.run N (moves ++ more)).a.daemon.db N.keyB r.seq.toUInt64
      ∧ (r.seq.toUInt64, r.payload) ∈ (World.run N (moves ++ more)).accepted
      ∧ r.seq.toUInt64 ∈ ticks N (moves ++ more) := by
  have W : Waiting N now r (World.run N moves) :=
    ⟨run_inv hne moves, hrow, hopenA, hopenB, .inl hdue⟩
  obtain ⟨w₁, hsend, W₁, out, hout, hb⟩ := W.send hne hr ht hkeyB hlen hmtu
  obtain ⟨w₂, hdrain, W₂, hnet, hempty⟩ := W₁.drain_b hne
  have hcan : w₂.b.daemon.CanAnswer N.cfgB N.keyA := by
    refine ⟨hkeyA, hack, ?_⟩
    rw [hempty]
    exact Nat.zero_lt_succ _
  obtain ⟨w₃, hdeliver, hposted, hgone⟩ := W₂.deliver hne hcan hempty (hnet _ hout) hb
  obtain ⟨more, hroutine, hrun⟩ := (hsend.trans hdrain).trans hdeliver
  have hrun' : World.run N (moves ++ more) = w₃ := by
    rw [World.run, List.foldl_append]
    exact hrun
  have hmem := W₂.inv.sender.rows r W₂.row hr
  rw [← hposted, ← hrun'] at hmem
  rw [← hrun'] at hgone
  refine ⟨more, hroutine, hgone, ?_, ((run_ticked hne _).mem_iff _ hmem).2 hgone⟩
  rcases (run_inv hne (moves ++ more)).kept _ hmem ht with ⟨r', hr', hp, hs, -⟩ | hacc
  · exact absurd ⟨r', hr', hp, hs⟩ hgone
  · exact hacc

/-- A text that was queued and never flushed. -/
theorem delivery_possible_queued :
    let N : Nodes := ⟨List.replicate 32 1, List.replicate 32 2, ⟨10, 0, 0, 0, 65555⟩,
      ⟨10, 0, 0, 0, 65555⟩⟩
    let moves : List Move := [.act .a (.beginSend false N.keyB [104, 105]),
      .act .a (.finishSend 0 0)]
    ∃ more : List Move, (∀ m ∈ more, m.Routine N 0)
      ∧ ¬ OutboxJournal.Holds (World.run N (moves ++ more)).a.daemon.db N.keyB 1
      ∧ (1, [104, 105]) ∈ (World.run N (moves ++ more)).accepted
      ∧ 1 ∈ ticks N (moves ++ more) := by
  intro N moves
  exact delivery_possible N (by decide) (by decide) (by decide) (by decide) moves 0
    (r := ⟨N.keyB, 1, 0, typeMsg, [104, 105]⟩) (by decide +kernel) rfl rfl (by decide) (by decide)
    (by decide +kernel) (by decide +kernel) (by decide +kernel)

end World

end Aimless
