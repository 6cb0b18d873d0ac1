import Aimless.Archive
import Aimless.Proofs.Deliveries
import Aimless.Proofs.Dismiss
import Aimless.Proofs.Rows
import Aimless.Lib.Runs

/-!
# All views of delivery agree

The five queries count rows of one message: all of them, by recipient, or by message and recipient
(`deliverySummary`).  Each asks in its own way whether all the rows are acked.  A message that has
rows is an outgoing one, since the ids of the two directions start differently (`IdsApart`).  A row
that is acked stays as it is: rows are only ever added for keys that have none, and marked.
-/

namespace Aimless

open Python (Str Exc Json Dict)

namespace Tracker

variable {t : Tracker} {mid : Str}

theorem sumAcked_eq_length_iff {rows : List DeliveryRow} :
    sumAcked rows = rows.length ↔ ∀ r ∈ rows, r.acked = true :=
  List.countP_eq_length

theorem isDelivered_of_rows (h : t.rowsOf mid ≠ []) :
    t.isDelivered mid = some (decide (∀ r ∈ t.rowsOf mid, r.acked = true)) := by
  have hrows : t.isDelivered mid = if t.rowsOf mid = [] then none
      else some ((t.rowsOf mid).all (·.acked)) := rfl
  rw [hrows, if_neg h, List.all_eq]

theorem isDelivered_of_no_rows (h : t.rowsOf mid = []) : t.isDelivered mid = none := by
  unfold isDelivered
  exact if_pos h

theorem deliveryMembers_iff :
    (∃ n, t.deliveryMembers mid = (n, n)) ↔ ∀ r ∈ t.rowsOf mid, r.acked = true := by
  unfold deliveryMembers
  have hgroups := Table.forall_groups (fun r : DeliveryRow => r.key.1) (l := t.rowsOf mid)
    (Q := fun _ => True) (P := fun r => r.acked = true)
  simp only [true_implies, ← sumAcked_eq_length_iff] at hgroups
  rw [← sumAcked_eq_length_iff, ← hgroups]
  set groups := Table.groups (fun r : DeliveryRow => r.key.1) (t.rowsOf mid)
  have hall := List.countP_eq_length (p := fun g : Text × List DeliveryRow =>
    decide (sumAcked g.2 = g.2.length)) (l := groups)
  simp only [decide_eq_true_eq] at hall
  rw [← hall]
  constructor
  · rintro ⟨n, h⟩
    obtain ⟨hn, hcount⟩ := Prod.mk.inj h
    exact hcount.trans hn.symm
  · exact fun h => ⟨groups.length, Prod.ext rfl h⟩

theorem deliveryProgress_iff : (t.deliveryProgress mid).2 = (t.deliveryProgress mid).1
    ↔ ∀ r ∈ t.rowsOf mid, r.acked = true :=
  sumAcked_eq_length_iff

theorem undelivered_iff : t.undelivered mid = [] ↔ ∀ r ∈ t.rowsOf mid, r.acked = true := by
  unfold undelivered rowsOf
  rw [List.map_eq_nil_iff, List.filter_eq_nil_iff]
  simp only [Table.mem_rowsOf]
  constructor
  · intro h r hr
    simpa [hr.2] using h r hr.1
  · intro h r hr hopen
    simp only [decide_eq_true_eq] at hopen
    exact hopen.2 (h r ⟨hr, hopen.1⟩)

/-! ### The summary -/

/-- What the loop over the groups has counted for a message. -/
theorem lookup_foldl_addMember (mid : Str) : ∀ (gs : List ((Str × Text) × List DeliveryRow))
    (d : AList fun _ : Str => ℕ × ℕ),
    (gs.foldl addMember d).lookup mid
      = if gs.filter (fun g => g.1.1 = mid) = [] then d.lookup mid
        else some (((d.lookup mid).getD (0, 0)).1 + (gs.filter fun g => g.1.1 = mid).length,
          ((d.lookup mid).getD (0, 0)).2
            + (gs.filter fun g => g.1.1 = mid).countP fun g => sumAcked g.2 = g.2.length)
  | [], d => rfl
  | g :: gs, d => by
    rw [List.foldl_cons, lookup_foldl_addMember mid gs]
    by_cases hg : g.1.1 = mid
    · have hlook : (addMember d g).lookup mid = some (((d.lookup mid).getD (0, 0)).1 + 1,
          ((d.lookup mid).getD (0, 0)).2 + if sumAcked g.2 = g.2.length then 1 else 0) := by
        unfold addMember
        rw [hg, AList.lookup_insert]
      rw [hlook, List.filter_cons_of_pos (by simpa using hg), if_neg (List.cons_ne_nil _ _),
        List.length_cons, List.countP_cons]
      by_cases hrest : gs.filter (fun g => g.1.1 = mid) = []
      · rw [if_pos hrest, hrest]
        simp
      · rw [if_neg hrest]
        simp only [Option.getD_some, decide_eq_true_eq, Option.some.injEq, Prod.mk.injEq]
        omega
    · have hlook : (addMember d g).lookup mid = d.lookup mid := by
        unfold addMember
        exact AList.lookup_insert_ne (Ne.symm hg)
      rw [hlook, List.filter_cons_of_neg (by simpa using hg)]

/-- What the summary says of a message is what `is_delivered` says. -/
theorem deliverySummary_delivered {mids : List Str} (hmid : mid ∈ mids) (hne : mid ≠ []) :
    ((t.deliverySummary mids).lookup mid).map (fun s => decide (s.2 = s.1))
      = t.isDelivered mid := by
  unfold deliverySummary
  dsimp only
  set rows := t.deliveries.filter fun r => (mids.filter fun m => m ≠ []).contains r.msgId
  set gs := Table.groups (fun r : DeliveryRow => (r.msgId, r.key.1)) rows
  have hrows : ∀ r, r ∈ t.rowsOf mid ↔ r ∈ rows ∧ r.msgId = mid := by
    intro r
    simp only [rowsOf, Table.mem_rowsOf, rows, List.mem_filter, List.contains_iff_mem]
    constructor
    · rintro ⟨hr, rfl⟩
      exact ⟨⟨hr, hmid, by simpa using hne⟩, rfl⟩
    · rintro ⟨⟨hr, -⟩, h⟩
      exact ⟨hr, h⟩
  -- the groups of the message hold the rows of the message
  have hall := Table.forall_groups (fun r : DeliveryRow => (r.msgId, r.key.1)) (l := rows)
    (Q := fun k => k.1 = mid) (P := fun r => r.acked = true)
  have hsome := Table.exists_groups (fun r : DeliveryRow => (r.msgId, r.key.1)) (l := rows)
    (Q := fun k => k.1 = mid)
  rw [lookup_foldl_addMember]
  by_cases hnil : t.rowsOf mid = []
  · have hmine : gs.filter (fun g => g.1.1 = mid) = [] := by
      rw [List.filter_eq_nil_iff]
      intro g hg hgm
      obtain ⟨r, hr, hrm⟩ := hsome.1 ⟨g, hg, by simpa using hgm⟩
      have := (hrows r).2 ⟨hr, hrm⟩
      rw [hnil] at this
      cases this
    rw [if_pos hmine, isDelivered_of_no_rows hnil]
    rfl
  · have hmine : gs.filter (fun g => g.1.1 = mid) ≠ [] := by
      obtain ⟨r, hr⟩ := List.exists_mem_of_ne_nil _ hnil
      obtain ⟨g, hg, hgm⟩ := hsome.2 ⟨r, (hrows r).1 hr⟩
      exact List.ne_nil_of_mem (List.mem_filter.2 ⟨hg, by simpa using hgm⟩)
    rw [if_neg hmine, isDelivered_of_rows hnil]
    simp only [AList.lookup_empty, Option.getD_none, zero_add, Option.map_some, Option.some.injEq,
      decide_eq_decide, List.countP_eq_length, List.mem_filter, decide_eq_true_eq, and_imp,
      sumAcked_eq_length_iff]
    rw [hall]
    simp only [hrows, and_imp]

theorem rowToMsg_delivered (summary : AList fun _ : Str => ℕ × ℕ) (m : Message) :
    (rowToMsg summary m).delivered = if m.dir = .outgoing
      then (summary.lookup m.id).map (fun s => decide (s.2 = s.1)) else none := by
  unfold rowToMsg ShownMessage.delivered
  dsimp only
  split_ifs
  · rcases summary.lookup m.id with _ | s <;> rfl
  · rfl

/-! ### What the moves do -/

section Moves

variable (L : Libs)

theorem outgoingRow_dir {conv : Str} {seqs : List DeliveryKey} {ts : ℤ} {text : Str}
    {attachment : Option Dict} {m : Message}
    (h : outgoingRow L conv seqs ts text attachment = .ok m) : m.dir = .outgoing := by
  unfold outgoingRow at h
  obtain ⟨text', -, h⟩ := Python.bind_eq_ok.1 h
  obtain ⟨attachment', -, h⟩ := Python.bind_eq_ok.1 h
  obtain ⟨ts', -, h⟩ := Python.bind_eq_ok.1 h
  cases h
  rfl

/-- What `add_sent` adds is the row it builds. -/
theorem addSent_grows (t : Tracker) (conv : Str) (seqs : List DeliveryKey) (ts : ℤ) (text : Str)
    (attachment : Option Dict) (keys : Option (List DeliveryKey)) :
    Store.Grows (fun m => outgoingRow L conv seqs ts text attachment = .ok m) t.store
      (t.addSent L conv seqs ts text attachment keys).2.store := by
  obtain ⟨r, st, hconv, ⟨hm, -⟩, -⟩ := t.store.ensureConv_spec L (.str conv) true
  unfold addSent
  rw [hconv]
  cases r with
  | error e => exact .inl hm
  | ok u =>
    dsimp only
    split
    · exact .inl hm
    · rename_i m hrow
      set store := if (!st.hasMessage m.id) = true then { st with messages := st.messages ++ [m] }
        else st with hstore
      obtain ⟨new, hnew, -⟩ := insertDeliveries_spec m.id (trackedKeys seqs keys) { t with store }
      have hgrows : Store.Grows (fun m => outgoingRow L conv seqs ts text attachment = .ok m)
          t.store store := by
        rw [hstore]
        split
        · rename_i hfree
          refine .inr ⟨m, hrow, fun x hx hid => ?_, by rw [hm]⟩
          have htaken : st.hasMessage m.id := List.any_eq_true.2 ⟨x, hm ▸ hx, by simpa using hid⟩
          simp [htaken] at hfree
        · exact .inl hm
      split <;> rename_i heq <;> rw [heq] at hnew <;> rw [hnew] <;> exact hgrows

theorem markDelivered_eq_markSeq (t : Tracker) {k : DeliveryKey} (h : k.2 ≠ 0) :
    t.markDelivered k = t.markSeq k := by
  rw [markDelivered, if_neg h]
  rfl

/-- `mark_delivered` marks the row of the key, if there is one. -/
theorem markSeq_cases {t : Tracker} (hn : (t.deliveries.map (·.key)).Nodup) (k : DeliveryKey) :
    (∃ r, t.markSeq k = (r, t) ∧ ∀ mid, r ≠ .ok (some mid))
      ∨ ∃ row ∈ t.deliveries, row.key = k ∧ t.markSeq k
        = (.ok (some row.msgId), { t with deliveries := t.deliveries.map (markRow k) }) := by
  unfold markSeq
  split
  · exact .inl ⟨_, rfl, by simp⟩
  · split
    · exact .inl ⟨_, rfl, by simp⟩
    · rename_i row hsome
      have hmem := List.mem_of_find?_eq_some hsome
      obtain rfl : row.key = k := by simpa using List.find?_some hsome
      refine .inr ⟨row, hmem, rfl, ?_⟩
      dsimp only
      split
      · rename_i hacked
        rw [map_markRow_of_acked hn hmem hacked]
      · rfl

end Moves

/-! ### Ids -/

/-- Where the ids of messages and the message ids of rows come from. -/
structure IdsApart (t : Tracker) : Prop where
  incoming : ∀ m ∈ t.store.messages, m.dir = .incoming → ∃ sender seq, m.id = messageId sender seq
  outgoing : ∀ m ∈ t.store.messages, m.dir = .outgoing → ∃ seqs, m.id = outId seqs
  rows : ∀ r ∈ t.deliveries, ∃ seqs, r.msgId = outId seqs

theorem messageId_ne_outId (sender : Text) (seq : ℕ) (seqs : List DeliveryKey) :
    messageId sender seq ≠ outId seqs := by
  intro h
  have hhead := List.head_eq_of_cons_eq (show Python.codePoint 'i' :: _ = Python.codePoint 'o' :: _
    from h)
  exact absurd hhead (by decide)

theorem outId_ne_nil (seqs : List DeliveryKey) : outId seqs ≠ [] := by
  intro h
  cases (show Python.codePoint 'o' :: _ = [] from h)

/-- A message as it is shown says of its delivery what `is_delivered` says. -/
theorem IdsApart.delivered_eq (h : IdsApart t) {numeric : Str → SqlVal} {conv : Str}
    {s : ShownMessage} (hs : s ∈ t.messages numeric conv) :
    s.delivered = t.isDelivered s.message.id := by
  unfold messages at hs
  obtain ⟨m, hm, rfl⟩ := List.mem_map.1 hs
  have hmem : m ∈ t.store.messages :=
    (List.mem_filter.1 ((List.mem_insertionSort _).1 hm)).1
  rw [rowToMsg_delivered]
  show _ = t.isDelivered m.id
  cases hdir : m.dir with
  | incoming =>
    -- an incoming message has no rows
    obtain ⟨sender, seq, hid⟩ := h.incoming m hmem hdir
    have hnone : t.rowsOf m.id = [] := by
      refine List.eq_nil_iff_forall_not_mem.2 fun r hr => ?_
      obtain ⟨hr, hmid⟩ := (Table.mem_rowsOf _).1 hr
      obtain ⟨seqs, hseqs⟩ := h.rows r hr
      exact messageId_ne_outId sender seq seqs (hid.symm.trans (hmid.symm.trans hseqs))
    exact (isDelivered_of_no_rows hnone).symm
  | outgoing =>
    obtain ⟨seqs, hid⟩ := h.outgoing m hmem hdir
    have hne : m.id ≠ [] := hid ▸ outId_ne_nil seqs
    rw [if_pos rfl, deliverySummary_delivered (List.mem_map_of_mem hm) hne]

end Tracker

namespace Archive

variable {L : Libs} {numeric : Str → SqlVal} {a : Archive}

/-- What a move does to the messages and to the rows. -/
inductive Moved (L : Libs) (a a' : Archive) : Prop
  | received {conv sender seq ts text attachment}
      (hm : Store.Grows (fun m => Store.incomingRow L conv sender seq ts text attachment
        = .ok (some m)) a.tracker.store a'.tracker.store)
      (hd : a'.tracker.deliveries = a.tracker.deliveries)
  | sent {conv seqs ts text attachment keys ok new}
      (hm : Store.Grows (fun m => Tracker.outgoingRow L conv seqs ts text attachment = .ok m)
        a.tracker.store a'.tracker.store)
      (hd : a'.tracker.deliveries = a.tracker.deliveries ++ new)
      (hnew : Tracker.Inserted (Tracker.outId seqs) keys ok a.tracker.deliveries new)
  | marked {k : DeliveryKey} (hm : a'.tracker.store = a.tracker.store)
      (hd : a'.tracker.deliveries = a.tracker.deliveries
        ∨ a'.tracker.deliveries = a.tracker.deliveries.map (Tracker.markRow k))
  | dismissed {conv : Str} (hm : a'.tracker.store.messages
        = a.tracker.store.messages.filter fun m => m.conv ≠ conv)
      (hd : a'.tracker.deliveries = a.tracker.deliveries)
  | read (h : a'.tracker = a.tracker)

theorem step_moved (L : Libs) (numeric : Str → SqlVal) (a : Archive)
    (hn : (a.tracker.deliveries.map (·.key)).Nodup) (m : ArchiveMove) :
    Moved L a (a.step L numeric m) := by
  cases m with
  | ingest conv sender seq ts text attachment =>
    exact .received (Store.ingest_grows L a.tracker.store conv sender seq ts text attachment) rfl
  | addSent conv seqs ts text attachment keys =>
    obtain ⟨store, new, heq, hnew⟩ :=
      a.tracker.addSent_spec (L := L) conv seqs ts text attachment keys
    refine .sent (a.tracker.addSent_grows L conv seqs ts text attachment keys) ?_ hnew
    show (a.tracker.addSent L conv seqs ts text attachment keys).2.deliveries = _
    rw [heq]
  | markDelivered k =>
    rcases Tracker.markSeq_cases hn k with ⟨r, h, -⟩ | ⟨row, -, -, h⟩
    · exact .marked (k := k) (by simp [step, h]) (.inl (by simp [step, h]))
    · exact .marked (k := k) (by simp [step, h]) (.inr (by simp [step, h]))
  | clearHistory conv =>
    exact .dismissed (a.tracker.store.dismiss_spec .clearHistory conv []).1 rfl
  | deleteRoom conv scanPoints =>
    exact .dismissed (a.tracker.store.dismiss_spec .deleteRoom conv scanPoints).1 rfl
  | markRead conv => exact .read rfl

/-- The keys of the rows differ, and the ids of the two directions do. -/
structure Sound (a : Archive) : Prop where
  nodup : (a.tracker.deliveries.map (·.key)).Nodup
  ids : a.tracker.IdsApart

theorem Sound.moved {a' : Archive} (h : Sound a) (hmove : Moved L a a') : Sound a' := by
  obtain ⟨hn, hin, hout, hrows⟩ := h
  cases hmove with
  | received hm hd =>
    refine ⟨hd ▸ hn, fun m hmem hdir => ?_, fun m hmem hdir => ?_, hd ▸ hrows⟩
    · rcases hm.mem hmem with hold | hrow
      · exact hin m hold hdir
      · exact ⟨_, _, (Store.incomingRow_fields hrow).2.1⟩
    · rcases hm.mem hmem with hold | hrow
      · exact hout m hold hdir
      · rw [(Store.incomingRow_fields hrow).2.2.1] at hdir
        cases hdir
  | sent hm hd hnew =>
    refine ⟨hd ▸ hnew.nodup hn, fun m hmem hdir => ?_, fun m hmem hdir => ?_, fun r hr => ?_⟩
    · rcases hm.mem hmem with hold | hrow
      · exact hin m hold hdir
      · rw [Tracker.outgoingRow_dir L hrow] at hdir
        cases hdir
    · rcases hm.mem hmem with hold | hrow
      · exact hout m hold hdir
      · exact ⟨_, Tracker.outgoingRow_id hrow⟩
    · rw [hd] at hr
      rcases List.mem_append.1 hr with hr | hr
      · exact hrows r hr
      · exact ⟨_, (hnew.rows r hr).2.1⟩
  | marked hm hd =>
    rcases hd with hd | hd
    · exact ⟨hd ▸ hn, hm ▸ hin, hm ▸ hout, hd ▸ hrows⟩
    · refine ⟨?_, hm ▸ hin, hm ▸ hout, fun r hr => ?_⟩
      · rw [hd, List.map_map]
        simpa [Function.comp_def] using hn
      · rw [hd] at hr
        obtain ⟨old, hold, rfl⟩ := List.mem_map.1 hr
        rw [Tracker.markRow_msgId]
        exact hrows old hold
  | dismissed hm hd =>
    have hsub : ∀ m ∈ a'.tracker.store.messages, m ∈ a.tracker.store.messages :=
      fun m hmem => (List.mem_filter.1 (hm ▸ hmem)).1
    exact ⟨hd ▸ hn, fun m hmem => hin m (hsub m hmem), fun m hmem => hout m (hsub m hmem),
      hd ▸ hrows⟩
  | read h => exact ⟨h ▸ hn, h ▸ hin, h ▸ hout, h ▸ hrows⟩

theorem run_sound (L : Libs) (numeric : Str → SqlVal) (moves : List ArchiveMove) :
    Sound (run L numeric {} moves) :=
  Runs.invariant_end (step L numeric) {} moves ⟨List.nodup_nil, by simp, by simp, by simp⟩
    fun m _ b hb => hb.moved (step_moved L numeric b hb.nodup m)

/-- An acked row stays, with the message it belongs to. -/
theorem Moved.acked {a' : Archive} (h : Moved L a a') {k : DeliveryKey} {mid : Str}
    (hrow : ⟨k, mid, true⟩ ∈ a.tracker.deliveries) : ⟨k, mid, true⟩ ∈ a'.tracker.deliveries := by
  cases h with
  | received hm hd => exact hd ▸ hrow
  | sent hm hd hnew =>
    rw [hd]
    exact List.mem_append_left _ hrow
  | @marked k' hm hd =>
    rcases hd with hd | hd
    · exact hd ▸ hrow
    · rw [hd]
      refine List.mem_map.2 ⟨_, hrow, ?_⟩
      unfold Tracker.markRow
      split <;> rfl
  | dismissed hm hd => exact hd ▸ hrow
  | read h => exact h ▸ hrow

/-- `mark_delivered` finds a row and marks it. -/
theorem markSeq_acked (hn : (a.tracker.deliveries.map (·.key)).Nodup) {k : DeliveryKey} {mid : Str}
    (h : (a.tracker.markSeq k).1 = .ok (some mid)) :
    ⟨k, mid, true⟩ ∈ (a.tracker.markSeq k).2.deliveries := by
  rcases Tracker.markSeq_cases hn k with ⟨r, hr, hno⟩ | ⟨row, hrow, rfl, hr⟩
  · rw [hr] at h
    exact absurd h (hno mid)
  · rw [hr] at h ⊢
    cases h
    refine List.mem_map.2 ⟨row, hrow, ?_⟩
    rw [Tracker.markRow, if_pos rfl]

/-- The views of a message's delivery say the same. -/
structure ViewsAgree (numeric : Str → SqlVal) (t : Tracker) (mid : Str) : Prop where
  members : t.isDelivered mid = some true ↔ ∃ n, t.deliveryMembers mid = (n, n)
  undelivered : t.isDelivered mid = some true ↔ t.undelivered mid = []
  progress : t.isDelivered mid = some true
    ↔ (t.deliveryProgress mid).2 = (t.deliveryProgress mid).1
  shown : ∀ conv, ∀ s ∈ t.messages numeric conv, s.message.id = mid →
    (t.isDelivered mid = some true ↔ s.delivered = some true)

theorem viewsAgree_of_rows (h : Sound a) {mid : Str} (hrows : a.tracker.rowsOf mid ≠ []) :
    ViewsAgree numeric a.tracker mid := by
  have hall : a.tracker.isDelivered mid = some true
      ↔ ∀ r ∈ a.tracker.rowsOf mid, r.acked = true := by
    rw [Tracker.isDelivered_of_rows hrows, Option.some.injEq, decide_eq_true_eq]
  refine ⟨?_, ?_, ?_, fun conv s hs hid => ?_⟩
  · rw [hall, Tracker.deliveryMembers_iff]
  · rw [hall, Tracker.undelivered_iff]
  · rw [hall, Tracker.deliveryProgress_iff]
  · rw [h.ids.delivered_eq hs, hid]

/-- In every state that a store comes to: the five views of a message's delivery agree, a message
without rows says nothing of it, and a row that `mark_delivered` has marked is the row of its key,
and marked, from then on. -/
theorem views_agree (L : Libs) (numeric : Str → SqlVal) (moves : List ArchiveMove) :
    let t := (run L numeric {} moves).tracker
    (∀ mid, t.rowsOf mid ≠ [] → ViewsAgree numeric t mid)
      ∧ (∀ mid, t.rowsOf mid = [] → t.isDelivered mid = none
        ∧ ∀ conv, ∀ s ∈ t.messages numeric conv, s.message.id = mid → s.delivered = none)
      ∧ ∀ k mid, (t.markSeq k).1 = .ok (some mid) → ∀ later, Table.rowsOf (·.key)
        (run L numeric {} (moves ++ .markDelivered k :: later)).tracker.deliveries k
          = [⟨k, mid, true⟩] := by
  intro t
  have hsound := run_sound L numeric moves
  refine ⟨fun mid => viewsAgree_of_rows hsound, fun mid hnone => ?_, fun k mid hmark later => ?_⟩
  · have hdelivered := Tracker.isDelivered_of_no_rows hnone
    refine ⟨hdelivered, fun conv s hs hid => ?_⟩
    rw [hsound.ids.delivered_eq hs, hid, hdelivered]
  · have hmarked : ⟨k, mid, true⟩ ∈ ((run L numeric {} moves).step L numeric
        (.markDelivered k)).tracker.deliveries := markSeq_acked hsound.nodup hmark
    have hend : ∀ b : Archive, Sound b → ⟨k, mid, true⟩ ∈ b.tracker.deliveries →
        Sound (run L numeric b later)
          ∧ ⟨k, mid, true⟩ ∈ (run L numeric b later).tracker.deliveries := by
      intro b hb hrow
      refine Runs.invariant_end (I := fun b => Sound b ∧ ⟨k, mid, true⟩ ∈ b.tracker.deliveries)
        (step L numeric) b later ⟨hb, hrow⟩ fun m _ b hb => ?_
      have hmove := step_moved L numeric b hb.1.nodup m
      exact ⟨hb.1.moved hmove, hmove.acked hb.2⟩
    rw [run, List.foldl_append, List.foldl_cons]
    obtain ⟨hs, hrow⟩ := hend _ (hsound.moved (step_moved L numeric _ hsound.nodup _)) hmarked
    exact Table.rowsOf_eq_singleton (fun r : DeliveryRow => r.key) hs.nodup hrow

end Archive

end Aimless
