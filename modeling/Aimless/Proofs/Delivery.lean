import Aimless.Network
import Aimless.Proofs.Receive
import Aimless.Lib.Runs

/-!
# No message is lost between two daemons

What is known of `A` (`SenderInv`), of `B` (`ReceiverInv`) and of the packets on their way ties a
message to the seq it got: a packet with a seq carries what was queued under it, and an
acknowledgement of a seq is for a message `B` accepted or for a file chunk.  Seqs are not reused, so
a row is only deleted when `B` accepted exactly its message.
-/

namespace Aimless

namespace OutboxJournal

/-- The counter of a peer. -/
def counter (db : DB) (peer : PublicKey) : ℕ :=
  ((db.outboxSeq.find? fun r => r.peer = peer).map (·.next)).getD 1

variable {db db' : DB} {peer : PublicKey}

theorem counter_eq (h : Table.rowsOf OutboxSeqRow.peer db'.outboxSeq peer
    = Table.rowsOf OutboxSeqRow.peer db.outboxSeq peer) : counter db' peer = counter db peer := by
  unfold counter
  rw [← List.head?_filter, ← List.head?_filter]
  exact congrArg (fun l => ((List.head? l).map OutboxSeqRow.next).getD 1) h

theorem nextSeq_some {seq : UInt64} (h : (nextSeq db peer).1 = some seq) :
    counter db peer < 2 ^ 63 ∧ seq = UInt64.ofNat (counter db peer)
      ∧ counter (nextSeq db peer).2 peer = counter db peer + 1 := by
  set rows := if db.outboxSeq.any fun r => r.peer = peer then db.outboxSeq
    else db.outboxSeq ++ [⟨peer, 1⟩]
  set f : OutboxSeqRow → OutboxSeqRow := fun r =>
    if r.peer = peer then { r with next := r.next + 1 } else r
  have hlt : counter db peer < 2 ^ 63 := by
    by_contra hge
    have hfail : nextSeq db peer = (none, db) := if_neg hge
    rw [hfail] at h
    cases h
  have hnext : nextSeq db peer
      = (some (UInt64.ofNat (counter db peer)), { db with outboxSeq := rows.map f }) := if_pos hlt
  rw [hnext] at h ⊢
  refine ⟨hlt, (Option.some.inj h).symm, ?_⟩
  have hrow : ∃ r, rows.find? (fun r => decide (r.peer = peer)) = some r
      ∧ r.peer = peer ∧ r.next = counter db peer := by
    unfold counter
    rcases hf : db.outboxSeq.find? fun r => decide (r.peer = peer) with _ | r
    · have hany : ¬ db.outboxSeq.any fun r => decide (r.peer = peer) := by
        rw [List.any_eq_true]
        rintro ⟨r, hr, hp⟩
        exact List.find?_eq_none.1 hf r hr hp
      refine ⟨⟨peer, 1⟩, ?_, rfl, by rw [hf]; rfl⟩
      simp only [rows, if_neg hany, List.find?_append, hf]
      simp
    · have hp : r.peer = peer := by simpa using List.find?_some hf
      have hany : db.outboxSeq.any fun r => decide (r.peer = peer) :=
        List.any_eq_true.2 ⟨r, List.mem_of_find?_eq_some hf, by simpa using hp⟩
      refine ⟨r, ?_, hp, by rw [hf]; rfl⟩
      simp only [rows, if_pos hany, hf]
  obtain ⟨r, hfind, hp, hr⟩ := hrow
  have hcomp : ((fun r : OutboxSeqRow => decide (r.peer = peer)) ∘ f)
      = fun r => decide (r.peer = peer) := by
    funext r
    by_cases hp : r.peer = peer <;> simp [f, hp]
  show (((rows.map f).find? fun r => decide (r.peer = peer)).map (·.next)).getD 1 = _
  rw [List.find?_map, hcomp, hfind]
  simp [f, hp, hr]

end OutboxJournal

/-- The packets waiting in a daemon. -/
def Daemon.queued (d : Daemon) : List Outbound := d.node.control ++ d.node.bulk

namespace Party

variable {C : Config} {p : Party}

/-- The outcomes of a step of a party, each with what led to it. -/
inductive Acted (C : Config) (p : Party) : Party × Option Effect → Prop
  | keeps {d'} (h : p.daemon.KeepsMail d') : Acted C p ({ p with daemon := d' }, none)
  | allocated {file dest payload seq d'} (h : p.daemon.beginSend dest = (.ok seq, d')) :
      Acted C p ({ p with daemon := d', sends := p.sends ++ [⟨file, dest, seq, payload⟩] },
        some (.allocated dest seq))
  | returned {i now t} (h : p.sends[i]? = some t) :
      Acted C p ({ p with
        daemon := p.daemon.finishSend now t.dest t.seq t.payload t.type
        sends := p.sends.eraseIdx i }, some (.returned t))
  | started {now peer} : Acted C p
      ({ p with flushes := p.flushes ++ [⟨peer, now, p.daemon.flushEntries peer⟩] }, none)
  | ended {i} : Acted C p ({ p with flushes := p.flushes.eraseIdx i }, none)
  | flushed {i stamp t entry entries} (h : p.flushes[i]? = some t)
      (he : t.entries = entry :: entries) :
      Acted C p ({ p with
        daemon := Daemon.flushEntry C t.now (fun _ => stamp) t.peer p.daemon entry
        flushes := p.flushes.set i { t with entries } }, none)
  | wrote {out node} (hout : out ∈ p.daemon.queued)
      (hn : node.control ++ node.bulk ⊆ p.daemon.queued) :
      Acted C p ({ p with daemon := { p.daemon with node } }, some (.wrote out))
  | restarted : Acted C p ({ daemon := p.daemon.restart }, none)

theorem beginSend_keeps {d d' : Daemon} {dest : PublicKey} {e : MailError}
    (h : d.beginSend dest = (.error e, d')) : d.KeepsMail d' := by
  unfold Daemon.beginSend at h
  split at h
  · cases h
    exact Daemon.KeepsMail.refl d
  dsimp only at h
  split at h
  · rename_i db heq
    cases h
    have hdb : db = (d.boxFor dest).db := by
      have hfail : (OutboxJournal.nextSeq (d.boxFor dest).db dest).1 = none := by rw [heq]
      unfold OutboxJournal.nextSeq at heq hfail
      dsimp only at heq hfail
      split_ifs at heq hfail
      exact (Prod.ext_iff.1 heq).2.symm
    exact (Daemon.KeepsMail.boxFor d dest).trans (Daemon.KeepsMail.ofSame hdb rfl rfl)
  · cases h

theorem act_acted (p : Party) (act : Act) : Acted C p (p.act C act) := by
  have hidle : Acted C p (p, none) := .keeps (Daemon.KeepsMail.refl p.daemon)
  cases act with
  | beginSend file dest payload =>
    simp only [Party.act]
    split
    · rename_i h
      exact .keeps (beginSend_keeps h)
    · rename_i h
      exact .allocated h
  | finishSend i now =>
    simp only [Party.act]
    split
    · exact hidle
    · rename_i h
      exact .returned h
  | startFlush now peer =>
    simp only [Party.act]
    split_ifs
    · exact hidle
    · exact .started
  | flushNext i stamp =>
    simp only [Party.act]
    split
    · exact hidle
    rename_i t h
    split
    · exact .ended
    · rename_i entry entries he
      exact .flushed h he
  | probe now key => exact .keeps (Daemon.KeepsMail.probeOne now p.daemon key)
  | request now persisted req =>
    simp only [Party.act]
    split_ifs with h
    · exact hidle
    · refine .keeps (Daemon.KeepsMail.dispatch now persisted p.daemon ?_ ?_)
      · rintro dest payload rfl
        exact h rfl
      · rintro dest payload rfl
        exact h rfl
  | writeControl =>
    simp only [Party.act]
    split
    · exact hidle
    · rename_i out rest h
      refine .wrote ?_ ?_
      · simp [Daemon.queued, h]
      · simp only [Daemon.queued, h, List.cons_append]
        exact List.subset_cons_self _ _
  | writeBulk =>
    simp only [Party.act]
    split
    · exact hidle
    · rename_i out rest h
      refine .wrote ?_ ?_
      · simp [Daemon.queued, h]
      · simp only [Daemon.queued, h]
        exact List.append_subset.2 ⟨List.subset_append_left _ _,
          List.Subset.trans (List.subset_cons_self _ _) (List.subset_append_right _ _)⟩
  | restart => exact .restarted

end Party

/-! ### What packets say -/

/-- A message or chunk is as it was posted. -/
def DataOk (posted : List Posted) (data : Bytes) : Prop :=
  ∀ env, decodeEnvelope data = .ok env → env.type = typeMsg ∨ env.type = typeFile →
    ⟨env.seq, env.type, env.payload⟩ ∈ posted

/-- An acknowledgement is of a message that was accepted or of a chunk. -/
def AckOk (posted : List Posted) (accepted : List (UInt64 × Bytes)) (data : Bytes) : Prop :=
  ∀ env, decodeEnvelope data = .ok env → env.type = typeAck →
    (∃ payload, (env.seq, payload) ∈ accepted) ∨ ∃ payload, ⟨env.seq, typeFile, payload⟩ ∈ posted

section Packets

variable {posted posted' : List Posted} {accepted accepted' : List (UInt64 × Bytes)} {data : Bytes}

theorem DataOk.mono (h : DataOk posted data) (hp : posted ⊆ posted') : DataOk posted' data :=
  fun env he ht => hp (h env he ht)

theorem AckOk.mono (h : AckOk posted accepted data) (hp : posted ⊆ posted')
    (ha : accepted ⊆ accepted') : AckOk posted' accepted' data := fun env he ht =>
  (h env he ht).imp (fun ⟨payload, hm⟩ => ⟨payload, ha hm⟩) fun ⟨payload, hm⟩ => ⟨payload, hp hm⟩

theorem dataOk_of_type {env : Envelope} (he : decodeEnvelope data = .ok env)
    (hm : env.type ≠ typeMsg) (hf : env.type ≠ typeFile) : DataOk posted data := by
  intro env' he' ht
  rw [he] at he'
  cases he'
  exact ht.elim (fun h => absurd h hm) fun h => absurd h hf

theorem ackOk_of_type {env : Envelope} (he : decodeEnvelope data = .ok env)
    (ha : env.type ≠ typeAck) : AckOk posted accepted data := by
  intro env' he' ht
  rw [he] at he'
  cases he'
  exact absurd ht ha

theorem dataOk_of_presence (h : Daemon.IsPresence data) : DataOk posted data := by
  obtain ⟨env, he, ht⟩ := h
  rcases ht with ht | ht <;> exact dataOk_of_type he (by rw [ht]; decide) (by rw [ht]; decide)

theorem ackOk_of_presence (h : Daemon.IsPresence data) : AckOk posted accepted data := by
  obtain ⟨env, he, ht⟩ := h
  rcases ht with ht | ht <;> exact ackOk_of_type he (by rw [ht]; decide)

theorem dataOk_of_ack {seq : UInt64} (h : encodeAck seq = .ok data) : DataOk posted data :=
  have hm : typeAck ≠ typeMsg := by decide
  have hf : typeAck ≠ typeFile := by decide
  dataOk_of_type (Envelope.decode_of_encode rfl h) hm hf

end Packets

namespace Daemon

variable {C : Config} {d d' : Daemon} {out : Outbound}

theorem KeepsMail.queued (h : KeepsMail d d') (hout : out ∈ d'.queued) :
    out ∈ d.queued ∨ IsPresence out.data := by
  obtain ⟨extra, hc, he⟩ := h.control
  unfold Daemon.queued at hout ⊢
  rw [hc, h.bulk] at hout
  simp only [List.mem_append] at hout ⊢
  rcases hout with (hout | hout) | hout
  · exact .inl (.inl hout)
  · exact .inr (he out hout)
  · exact .inl (.inr hout)

theorem mem_queued_withControl {dest : PublicKey} {data : Bytes} :
    out ∈ (d.withControl dest data).queued ↔ out ∈ d.queued ∨ out = ⟨dest, data⟩ := by
  simp only [queued, withControl, List.mem_append, List.mem_singleton]
  tauto

theorem mem_queued_withBulk {dest : PublicKey} {data : Bytes} :
    out ∈ (d.withBulk dest data).queued ↔ out ∈ d.queued ∨ out = ⟨dest, data⟩ := by
  simp only [queued, withBulk, List.mem_append, List.mem_singleton]
  tauto

theorem flushEntry_queued {now : ℤ} {stamp : UInt64 → ℤ} {pub : PublicKey} {entry : JournalEntry}
    (hout : out ∈ (flushEntry C now stamp pub d entry).queued) :
    out ∈ d.queued ∨ out.pub = pub ∧ ∃ payload, Base64.decode entry.payload = some payload
      ∧ decodeEnvelope out.data = .ok (envelopeOf entry payload) := by
  rcases d.flushEntry_cases (C := C) pub now stamp entry with h | ⟨payload, data, hp, he, h⟩
  · rw [h] at hout
    exact .inl hout
  · have hmem : out ∈ d.queued ∨ out = ⟨pub, data⟩ := by
      rw [h] at hout
      by_cases hf : entry.type = typeFile
      · rw [if_pos hf] at hout
        exact mem_queued_withBulk.1 hout
      · rw [if_neg hf] at hout
        exact mem_queued_withControl.1 hout
    rcases hmem with hmem | rfl
    · exact .inl hmem
    · exact .inr ⟨rfl, payload, hp, Envelope.decode_of_encode rfl he⟩

/-- What a packet makes a daemon enqueue is its acknowledgement. -/
theorem handlePacket_queued {now : ℤ} {sender : PublicKey} {data : Bytes}
    (hout : out ∈ (d.handlePacket C now sender data).1.queued) :
    out ∈ d.queued ∨ out.pub = sender ∧ ¬ d.isBlocked sender ∧ ∃ env,
      decodeEnvelope data = .ok env ∧ (env.type = typeMsg ∨ env.type = typeFile)
        ∧ encodeAck env.seq = .ok out.data := by
  have hbox : (d.boxFor sender).queued = d.queued := by
    unfold Daemon.queued
    rw [d.boxFor_node]
  have hack : ∀ {d₁ : Daemon} {seq : UInt64}, out ∈ (d₁.sendAck C sender seq).queued →
      d₁.queued = d.queued →
      out ∈ d.queued ∨ out.pub = sender ∧ encodeAck seq = .ok out.data := by
    intro d₁ seq hmem hd₁
    rcases d₁.sendAck_cases (C := C) sender seq with h | ⟨ack, hack, h⟩
    · rw [h, hd₁] at hmem
      exact .inl hmem
    · rw [h, mem_queued_withControl, hd₁] at hmem
      rcases hmem with hmem | rfl
      · exact .inl hmem
      · exact .inr ⟨rfl, hack⟩
  have hh := handlePacket_handled (C := C) now d sender data
  generalize d.handlePacket C now sender data = r at hh hout
  cases hh with
  | drop => exact .inl hout
  | ignored | ack | probe | status => exact .inl (hbox ▸ hout)
  | file hb he ht =>
    exact (hack hout hbox).imp id fun ⟨hp, ha⟩ => ⟨hp, hb, _, he, .inr ht, ha⟩
  | msg hb he ht =>
    exact (hack hout hbox).imp id fun ⟨hp, ha⟩ => ⟨hp, hb, _, he, .inl ht, ha⟩

theorem restart_queued (d : Daemon) : d.restart.queued = [] := by
  simp only [queued, (d.restart_spec []).2.2]
  rfl

end Daemon

/-! ### The sender -/

/-- The seqs of the sends to `dest` that have not returned. -/
def Party.seqsTo (p : Party) (dest : PublicKey) : List UInt64 :=
  (p.sends.filter fun t => t.dest = dest).map (·.seq)

theorem sends_perm {p : Party} {i : ℕ} {t : SendTask} (h : p.sends[i]? = some t) :
    (t :: p.sends.eraseIdx i).Perm p.sends := by
  obtain ⟨hi, rfl⟩ := List.getElem?_eq_some_iff.1 h
  exact List.getElem_cons_eraseIdx_perm hi

/-- What holds of a party and its sends to `dest`. -/
structure SenderInv (dest : PublicKey) (allocated : List UInt64) (posted : List Posted)
    (p : Party) : Prop where
  lt : ∀ s ∈ allocated, s.toNat < OutboxJournal.counter p.daemon.db dest
  nodupAlloc : allocated.Nodup
  nodup : (p.seqsTo dest ++ posted.map (·.seq)).Nodup
  subset : p.seqsTo dest ++ posted.map (·.seq) ⊆ allocated
  rows : ∀ r ∈ p.daemon.db.outbox, r.peer = dest → ⟨r.seq.toUInt64, r.type, r.payload⟩ ∈ posted
  entries : ∀ t ∈ p.flushes, t.peer = dest → ∀ e ∈ t.entries,
    ∃ payload, e.payload = Base64.encode payload ∧ ⟨e.seq, e.type, payload⟩ ∈ posted
  packets : ∀ out ∈ p.daemon.queued, out.pub = dest → DataOk posted out.data
  boxed : p.daemon.Boxed
  boxes : ∀ t ∈ p.sends, t.dest ∈ p.daemon.boxes

namespace SenderInv

variable {C : Config} {dest : PublicKey} {allocated : List UInt64} {posted : List Posted} {p : Party}

theorem init : SenderInv dest [] [] {} := by
  constructor <;> simp [Party.seqsTo, Daemon.queued, Daemon.Boxed]

/-- No two sends that returned have the same seq. -/
theorem posted_unique (I : SenderInv dest allocated posted p) {m m' : Posted} (hm : m ∈ posted)
    (hm' : m' ∈ posted) (h : m.seq = m'.seq) : m = m' := by
  have hnd : (posted.map (·.seq)).Nodup := (List.nodup_append.1 I.nodup).2.1
  exact List.inj_on_of_nodup_map hnd hm hm' h

/-- A step that leaves rows, counters, sends and flush passes alone. -/
theorem setDaemon (I : SenderInv dest allocated posted p) {d' : Daemon}
    (hc : OutboxJournal.counter d'.db dest = OutboxJournal.counter p.daemon.db dest)
    (hr : ∀ r ∈ d'.db.outbox, r.peer = dest → r ∈ p.daemon.db.outbox)
    (hq : ∀ out ∈ d'.queued, out.pub = dest → out ∈ p.daemon.queued ∨ DataOk posted out.data)
    (hb : d'.Boxed) (hbox : ∀ k ∈ p.daemon.boxes, k ∈ d'.boxes) :
    SenderInv dest allocated posted { p with daemon := d' } where
  lt s hs := by rw [hc]; exact I.lt s hs
  nodupAlloc := I.nodupAlloc
  nodup := I.nodup
  subset := I.subset
  rows r hr' hp := I.rows r (hr r hr' hp) hp
  entries := I.entries
  packets out hout hp := (hq out hout hp).elim (fun h => I.packets out h hp) id
  boxed := hb
  boxes t ht := hbox _ (I.boxes t ht)

theorem keeps (I : SenderInv dest allocated posted p) {d' : Daemon} (h : p.daemon.KeepsMail d') :
    SenderInv dest allocated posted { p with daemon := d' } := by
  refine I.setDaemon ?_ (fun r hr _ => h.outbox ▸ hr) (fun out hout _ => ?_)
    (I.boxed.keepsMail h) h.boxes
  · exact OutboxJournal.counter_eq (by rw [h.outboxSeq])
  · exact (h.queued hout).imp id dataOk_of_presence

theorem flushed (I : SenderInv dest allocated posted p) {i : ℕ} {stamp : ℤ} {t : FlushTask}
    {entry : JournalEntry} {entries : List JournalEntry} (h : p.flushes[i]? = some t)
    (he : t.entries = entry :: entries) :
    SenderInv dest allocated posted { p with
      daemon := Daemon.flushEntry C t.now (fun _ => stamp) t.peer p.daemon entry
      flushes := p.flushes.set i { t with entries } } := by
  have ht : t ∈ p.flushes := List.mem_of_getElem? h
  have hdb := Daemon.flushEntry_db (C := C) t.now (fun _ => stamp) t.peer p.daemon entry
  have hentry : t.peer = dest → ∃ payload, entry.payload = Base64.encode payload
      ∧ ⟨entry.seq, entry.type, payload⟩ ∈ posted := fun hp =>
    I.entries t ht hp entry (by simp [he])
  have hstep : SenderInv dest allocated posted { p with
      daemon := Daemon.flushEntry C t.now (fun _ => stamp) t.peer p.daemon entry } := by
    refine I.setDaemon (by rw [hdb]) (fun r hr _ => hdb ▸ hr) (fun out hout hp => ?_)
      (I.boxed.flushEntry t.now _ t.peer entry) ?_
    · rcases Daemon.flushEntry_queued hout with hq | ⟨hpub, payload, hdec, henv⟩
      · exact .inl hq
      · right
        obtain ⟨payload', hpay, hmem⟩ := hentry (hpub.symm.trans hp)
        rw [hpay, Base64.decode_encode] at hdec
        cases hdec
        intro env henv' _
        rw [henv] at henv'
        cases henv'
        exact hmem
    · intro k hk
      rcases p.daemon.flushEntry_cases (C := C) t.peer t.now (fun _ => stamp) entry with
        h' | ⟨payload, data, -, -, h'⟩
      · rwa [h']
      · rw [h']
        exact (AList.mem_insert _).2 (.inr hk)
  refine { hstep with entries := fun t' ht' hp e hmem => ?_ }
  rcases List.mem_or_eq_of_mem_set ht' with ht' | rfl
  · exact I.entries t' ht' hp e hmem
  · exact I.entries t ht hp e (by rw [he]; exact List.mem_cons_of_mem _ hmem)

theorem allocate (I : SenderInv dest allocated posted p) {file : Bool} {k : PublicKey}
    {payload : Bytes} {seq : UInt64} {d' : Daemon} (h : p.daemon.beginSend k = (.ok seq, d')) :
    SenderInv dest (if k = dest then allocated ++ [seq] else allocated) posted
      { p with daemon := d', sends := p.sends ++ [⟨file, k, seq, payload⟩] } := by
  obtain ⟨hnext, hd', hmem⟩ := Daemon.beginSend_ok h
  have hbox : ∀ k' ∈ p.daemon.boxes, k' ∈ d'.boxes := by
    rw [hd']
    exact (Daemon.KeepsMail.boxFor p.daemon k).boxes
  have hqueued : d'.queued = p.daemon.queued := by
    rw [hd', Daemon.queued, Daemon.queued]
    simp only [p.daemon.boxFor_node k]
  have houtbox : d'.db.outbox = p.daemon.db.outbox := by
    obtain ⟨rows, hrows⟩ := OutboxJournal.nextSeq_outboxSeq p.daemon.db k
    rw [hd']
    simp only [hrows]
  have hboxed : d'.Boxed := I.boxed.mono (by rw [houtbox]; exact List.Subset.refl _) hbox
  have hboxes : ∀ t ∈ p.sends ++ [⟨file, k, seq, payload⟩], t.dest ∈ d'.boxes := by
    intro t ht
    rcases List.mem_append.1 ht with ht | ht
    · exact hbox _ (I.boxes t ht)
    · rw [List.mem_singleton.1 ht]
      exact hmem
  have hcounter : d'.db = (OutboxJournal.nextSeq p.daemon.db k).2 := by rw [hd']
  by_cases hk : k = dest
  · subst hk
    obtain ⟨hlt, hseq, hinc⟩ := OutboxJournal.nextSeq_some hnext
    have hto : seq.toNat = OutboxJournal.counter p.daemon.db k := by
      rw [hseq, UInt64.toNat_ofNat_of_lt' (lt_trans hlt (by decide))]
    have hfresh : seq ∉ allocated := fun hs => by
      have := I.lt seq hs
      omega
    have hseqs :
        Party.seqsTo { p with daemon := d', sends := p.sends ++ [⟨file, k, seq, payload⟩] } k
          = p.seqsTo k ++ [seq] := by
      simp [Party.seqsTo]
    refine ⟨fun s hs => ?_, ?_, ?_, ?_, fun r hr => I.rows r (houtbox ▸ hr), I.entries,
      fun out hout => I.packets out (hqueued ▸ hout), hboxed, hboxes⟩
    · rw [if_pos rfl] at hs
      show s.toNat < OutboxJournal.counter d'.db k
      rw [hcounter, hinc]
      rcases List.mem_append.1 hs with hs | hs
      · exact (I.lt s hs).trans (Nat.lt_succ_self _)
      · rw [List.mem_singleton.1 hs, hto]
        exact Nat.lt_succ_self _
    · rw [if_pos rfl]
      exact I.nodupAlloc.append (List.nodup_singleton seq) (by simpa using hfresh)
    · rw [hseqs, List.append_assoc, List.singleton_append]
      refine (List.perm_middle.nodup_iff).2 (List.nodup_cons.2 ⟨fun hs => ?_, I.nodup⟩)
      exact hfresh (I.subset hs)
    · rw [hseqs, if_pos rfl]
      intro s hs
      simp only [List.mem_append, List.mem_singleton] at hs ⊢
      rcases hs with (hs | hs) | hs
      · exact .inl (I.subset (List.mem_append_left _ hs))
      · exact .inr hs
      · exact .inl (I.subset (List.mem_append_right _ hs))
  · have hseqs : Party.seqsTo { p with daemon := d', sends := p.sends ++ [⟨file, k, seq, payload⟩] }
        dest = p.seqsTo dest := by
      simp [Party.seqsTo, hk]
    have hsame : OutboxJournal.counter d'.db dest = OutboxJournal.counter p.daemon.db dest := by
      rw [hcounter]
      exact OutboxJournal.counter_eq (OutboxJournal.nextSeq_sameFor (Ne.symm hk)).outboxSeq
    rw [if_neg hk]
    refine ⟨fun s hs => ?_, I.nodupAlloc, ?_, ?_, fun r hr => I.rows r (houtbox ▸ hr), I.entries,
      fun out hout => I.packets out (hqueued ▸ hout), hboxed, hboxes⟩
    · show s.toNat < OutboxJournal.counter d'.db dest
      rw [hsame]
      exact I.lt s hs
    · rw [hseqs]
      exact I.nodup
    · rw [hseqs]
      exact I.subset

theorem returned (I : SenderInv dest allocated posted p) {i : ℕ} {now : ℤ} {t : SendTask}
    (h : p.sends[i]? = some t) :
    SenderInv dest allocated
      (if t.dest = dest then posted ++ [⟨t.seq, t.type, t.payload⟩] else posted)
      { p with
        daemon := p.daemon.finishSend now t.dest t.seq t.payload t.type
        sends := p.sends.eraseIdx i } := by
  set posted' := if t.dest = dest then posted ++ [⟨t.seq, t.type, t.payload⟩] else posted
  have hsub : posted ⊆ posted' := by
    simp only [posted']
    split_ifs
    · exact List.subset_append_left _ _
    · exact List.Subset.refl _
  have hmem : t ∈ p.sends := List.mem_of_getElem? h
  have hperm := ((sends_perm h).filter fun t => decide (t.dest = dest)).map (·.seq)
  -- the seq moves from the sends under way to those that returned
  have hseqs : ((Party.seqsTo { p with
      daemon := p.daemon.finishSend now t.dest t.seq t.payload t.type
      sends := p.sends.eraseIdx i } dest) ++ posted'.map (·.seq)).Perm
      (p.seqsTo dest ++ posted.map (·.seq)) := by
    unfold Party.seqsTo
    simp only [posted']
    by_cases hd : t.dest = dest
    · rw [List.filter_cons_of_pos (by simp [hd]), List.map_cons] at hperm
      rw [if_pos hd, List.map_append, ← List.append_assoc]
      refine List.perm_append_comm.trans ?_
      exact hperm.append_right _
    · rw [List.filter_cons_of_neg (by simp [hd])] at hperm
      rw [if_neg hd]
      exact hperm.append_right _
  refine ⟨I.lt, I.nodupAlloc, hseqs.nodup_iff.2 I.nodup, List.Subset.trans hseqs.subset I.subset,
    fun r hr hp => ?_, fun t' ht' hp e he => ?_,
    fun out hout hp => (I.packets out hout hp).mono hsub,
    I.boxed.finishSend now (I.boxes t hmem) _ _ _,
    fun t' ht' => I.boxes t' (List.mem_of_mem_eraseIdx ht')⟩
  · rcases List.mem_append.1 hr with hr | hr
    · exact hsub (I.rows r (List.mem_of_mem_filter hr) hp)
    · rw [List.mem_singleton] at hr
      subst hr
      simp only [posted', if_pos hp]
      simp
  · obtain ⟨payload, hpay, hm⟩ := I.entries t' ht' hp e he
    exact ⟨payload, hpay, hsub hm⟩

theorem started (I : SenderInv dest allocated posted p) {now : ℤ} {peer : PublicKey} :
    SenderInv dest allocated posted
      { p with flushes := p.flushes ++ [⟨peer, now, p.daemon.flushEntries peer⟩] } := by
  refine { I with entries := fun t ht hp e he => ?_ }
  rcases List.mem_append.1 ht with ht | ht
  · exact I.entries t ht hp e he
  · rw [List.mem_singleton] at ht
    subst ht
    dsimp only at hp he
    subst hp
    unfold Daemon.flushEntries at he
    split at he
    · simp at he
    split at he
    · simp at he
    · unfold OutboxJournal.pending at he
      obtain ⟨r, hr, rfl⟩ := List.mem_map.1 he
      rw [List.mem_insertionSort, List.mem_filter, decide_eq_true_eq] at hr
      exact ⟨r.payload, rfl, I.rows r hr.1 hr.2⟩

theorem ended (I : SenderInv dest allocated posted p) {i : ℕ} :
    SenderInv dest allocated posted { p with flushes := p.flushes.eraseIdx i } :=
  { I with entries := fun t ht => I.entries t (List.mem_of_mem_eraseIdx ht) }

theorem wrote (I : SenderInv dest allocated posted p) {node : Node}
    (hn : node.control ++ node.bulk ⊆ p.daemon.queued) :
    SenderInv dest allocated posted { p with daemon := { p.daemon with node } } :=
  { I with packets := fun out hout => I.packets out (hn hout) }

theorem restarted (I : SenderInv dest allocated posted p) :
    SenderInv dest allocated posted { daemon := p.daemon.restart } := by
  have hdb : p.daemon.restart.db = p.daemon.db := (p.daemon.restart_spec dest).2.1
  refine ⟨fun s hs => ?_, I.nodupAlloc, ?_, ?_, fun r hr => I.rows r (hdb ▸ hr), by simp,
    fun out hout => ?_, Daemon.Boxed.restart p.daemon, by simp⟩
  · show s.toNat < OutboxJournal.counter p.daemon.restart.db dest
    rw [hdb]
    exact I.lt s hs
  · exact (List.nodup_append.1 I.nodup).2.1
  · exact fun s hs => I.subset (List.mem_append_right _ hs)
  · have hnil := p.daemon.restart_queued
    rw [hnil] at hout
    exact absurd hout List.not_mem_nil

theorem received (I : SenderInv dest allocated posted p) (now : ℤ) (sender : PublicKey)
    (data : Bytes) : SenderInv dest allocated posted
      { p with daemon := (p.daemon.handlePacket C now sender data).1 } := by
  obtain ⟨hseq, hout, hbox⟩ := Daemon.handlePacket_mail (C := C) now p.daemon sender data
  refine I.setDaemon (OutboxJournal.counter_eq (by rw [hseq])) (fun r hr _ => hout hr)
    (fun out hq _ => ?_) (I.boxed.handlePacket now sender data) hbox
  exact (Daemon.handlePacket_queued hq).imp id fun ⟨_, _, _, _, _, ha⟩ => dataOk_of_ack ha

end SenderInv

/-- Every message posted is a row or was accepted. -/
def Kept (dest : PublicKey) (posted : List Posted) (accepted : List (UInt64 × Bytes))
    (db : DB) : Prop :=
  ∀ m ∈ posted, m.type = typeMsg →
    (∃ r ∈ db.outbox, r.peer = dest ∧ r.seq = m.seq.toInt64 ∧ r.payload = m.payload)
      ∨ (m.seq, m.payload) ∈ accepted

namespace Kept

variable {C : Config} {dest : PublicKey} {allocated : List UInt64} {posted : List Posted}
  {accepted accepted' : List (UInt64 × Bytes)} {p : Party}

theorem ofOutbox {db db' : DB} (K : Kept dest posted accepted db)
    (h : ∀ r ∈ db.outbox, r.peer = dest → r ∈ db'.outbox) : Kept dest posted accepted db' :=
  fun m hm ht => (K m hm ht).imp (fun ⟨r, hr, hp, hs⟩ => ⟨r, h r hr hp, hp, hs⟩) id

theorem mono {db : DB} (K : Kept dest posted accepted db) (h : accepted ⊆ accepted') :
    Kept dest posted accepted' db := fun m hm ht => (K m hm ht).imp id fun h' => h h'

theorem returned (K : Kept dest posted accepted p.daemon.db) (I : SenderInv dest allocated posted p)
    {i : ℕ} (now : ℤ) {t : SendTask} (h : p.sends[i]? = some t) :
    Kept dest (if t.dest = dest then posted ++ [⟨t.seq, t.type, t.payload⟩] else posted) accepted
      (p.daemon.finishSend now t.dest t.seq t.payload t.type).db := by
  have hmem : t ∈ p.sends := List.mem_of_getElem? h
  have hold : ∀ r ∈ p.daemon.db.outbox, r.peer = dest →
      r ∈ (p.daemon.finishSend now t.dest t.seq t.payload t.type).db.outbox := by
    intro r hr hp
    refine List.mem_append_left _ (List.mem_filter.2 ⟨hr, decide_eq_true ?_⟩)
    -- the row replaced would have a seq that was not yet posted
    rintro ⟨hpeer, hseq⟩
    have hin : t.seq ∈ p.seqsTo dest := List.mem_map.2
      ⟨t, List.mem_filter.2 ⟨hmem, decide_eq_true (hpeer.symm.trans hp)⟩, rfl⟩
    have hposted : t.seq ∈ posted.map (·.seq) := by
      refine List.mem_map.2 ⟨_, I.rows r hr hp, ?_⟩
      rw [hseq]
      simp
    exact (List.disjoint_of_nodup_append I.nodup) hin hposted
  intro m hm ht
  by_cases hd : t.dest = dest
  · rw [if_pos hd] at hm
    rcases List.mem_append.1 hm with hm | hm
    · exact (K.ofOutbox hold) m hm ht
    · rw [List.mem_singleton] at hm
      subst hm
      exact .inl ⟨⟨t.dest, t.seq.toInt64, unixMilli now, t.type, t.payload⟩,
        List.mem_append_right _ (List.mem_singleton.2 rfl), hd, rfl, rfl⟩
  · rw [if_neg hd] at hm
    exact (K.ofOutbox hold) m hm ht

/-- A packet from the receiver deletes a row only if it acknowledges a message accepted or a
chunk. -/
theorem received (K : Kept dest posted accepted p.daemon.db) (I : SenderInv dest allocated posted p)
    (hacc : ∀ m ∈ accepted, ⟨m.1, typeMsg, m.2⟩ ∈ posted) (now : ℤ) {sender : PublicKey}
    {data : Bytes} (hack : sender = dest → AckOk posted accepted data) :
    Kept dest posted accepted (p.daemon.handlePacket C now sender data).1.db := by
  by_cases hs : sender = dest
  · subst hs
    have hok := hack rfl
    have hh := Daemon.handlePacket_handled (C := C) now p.daemon sender data
    generalize p.daemon.handlePacket C now sender data = r at hh ⊢
    cases hh with
    | drop => exact K
    | ignored | probe | status =>
      exact K.ofOutbox fun r hr _ => (Daemon.KeepsMail.boxFor p.daemon sender).outbox ▸ hr
    | file _ _ _ _ hadd =>
      obtain ⟨rows, rfl⟩ := AttachmentStore.add_attach _ hadd
      refine K.ofOutbox fun r hr _ => ?_
      rw [Daemon.sendAck_db]
      exact hr
    | msg =>
      refine K.ofOutbox fun r hr _ => ?_
      rw [Daemon.sendAck_db, (InboxStore.add_outbox _ _ _ _ _).1]
      exact hr
    | @ack env hb he ht =>
      intro m hm hmt
      rcases K m hm hmt with ⟨r, hr, hp, hseq, hpay⟩ | hin
      · by_cases hdel : m.seq = env.seq
        · right
          rcases hok env he ht with ⟨payload, hin⟩ | ⟨payload, hin⟩
          · have := I.posted_unique hm (hacc _ hin) hdel
            rw [this]
            exact hin
          · have := I.posted_unique hm hin hdel
            rw [this] at hmt
            have hne : typeFile ≠ typeMsg := by decide
            exact absurd hmt hne
        · refine .inl ⟨r, List.mem_filter.2 ⟨hr, decide_eq_true ?_⟩, hp, hseq, hpay⟩
          rintro ⟨-, hseq'⟩
          rw [hseq] at hseq'
          exact hdel (Words.toInt64_inj.1 hseq')
      · exact .inr hin
  · have hsame := (Daemon.handlePacket_only (C := C) now p.daemon sender data).db dest (Ne.symm hs)
    refine K.ofOutbox fun r hr hp => ?_
    have hrow : r ∈ Table.rowsOf OutboxRow.peer p.daemon.db.outbox dest :=
      (Table.mem_rowsOf _).2 ⟨hr, hp⟩
    rw [← hsame.outbox] at hrow
    exact ((Table.mem_rowsOf _).1 hrow).1

end Kept

/-! ### The receiver -/

namespace InboxStore

variable (box : InboxStore)

/-- The seq is in the inbox or in the guard. -/
def Remembers (db : DB) (s : Int64) : Prop :=
  s ∈ db.inboxSeqs box.peer ∨ s ∈ db.seenSeqs box.peer

theorem remembers_of_evictOldest {db : DB} {s : Int64} (h : box.Remembers (box.evictOldest db) s) :
    box.Remembers db s := by
  rcases hm : sqlMin (db.inboxSeqs box.peer) with _ | m
  · have hsame : box.evictOldest db = db := by simp only [evictOldest, hm]
    rwa [hsame] at h
  · unfold Remembers at h ⊢
    rw [evictOldest_inboxSeqs box hm, evictOldest_seenSeqs box hm] at h
    rcases h with h | h
    · exact .inl (List.mem_of_mem_filter h)
    · split_ifs at h
      · exact .inr h
      · rcases List.mem_append.1 h with h | h
        · exact .inr h
        · rw [List.mem_singleton.1 h]
          exact .inl (sqlMin_spec hm).1

theorem remembers_of_evictLoop : ∀ (count : ℕ) {db : DB} {s : Int64},
    box.Remembers (box.evictLoop count db) s → box.Remembers db s
  | 0, _, _, h => h
  | count + 1, db, s, h => by
    unfold evictLoop at h
    split_ifs at h
    · exact box.remembers_of_evictOldest (remembers_of_evictLoop count h)
    · exact h

/-- A seq remembered after an `Add` was remembered before it or is the one that was added. -/
theorem remembers_of_add {db : DB} {seq : UInt64} {ts : Int64} {payload : Bytes} {s : Int64}
    (h : box.Remembers (box.add db seq ts payload).2 s) :
    box.Remembers db s ∨ s = seq.toInt64 ∧ (box.add db seq ts payload).1 = true := by
  unfold add at h ⊢
  split_ifs at h ⊢
  · exact .inl h
  · exact .inl h
  · set db₁ : DB := { db with inbox := db.inbox ++ [⟨box.peer, seq.toInt64, ts, payload⟩] }
    have hguard : box.Remembers (box.evictLoop (db₁.inboxSeqs box.peer).length db₁) s := by
      refine h.imp id fun hs => DB.mem_seenSeqs.2 ?_
      exact List.mem_of_mem_filter (DB.mem_seenSeqs.1 hs)
    have hrow : db₁.inboxSeqs box.peer = db.inboxSeqs box.peer ++ [seq.toInt64] := by
      simp [db₁, DB.inboxSeqs]
    rcases box.remembers_of_evictLoop _ hguard with hs | hs
    · rw [hrow] at hs
      rcases List.mem_append.1 hs with hs | hs
      · exact .inl (.inl hs)
      · exact .inr ⟨List.mem_singleton.1 hs, rfl⟩
    · exact .inl (.inr hs)

/-- What is not new is remembered. -/
theorem remembers_of_not_new {db : DB} {seq : UInt64} {ts : Int64} {payload : Bytes}
    (h : (box.add db seq ts payload).1 = false) : box.Remembers db seq.toInt64 := by
  unfold add at h
  split_ifs at h with h1 h2
  · exact .inl (DB.any_inbox.1 h1)
  · exact .inr (DB.any_inboxSeen.1 h2)

end InboxStore

/-- A type that `SendMsg` or `SendFile` queues. -/
def IsMail (typ : EnvelopeType) : Prop := typ = typeMsg ∨ typ = typeFile

theorem IsMail.ne_ack {typ : EnvelopeType} (h : IsMail typ) : typ ≠ typeAck := by
  rcases h with rfl | rfl <;> decide

/-- What holds of a party and what it received from `src`. -/
structure ReceiverInv (src : PublicKey) (posted : List Posted) (accepted : List (UInt64 × Bytes))
    (p : Party) : Prop where
  rows : ∀ r ∈ p.daemon.db.outbox, IsMail r.type
  entries : ∀ t ∈ p.flushes, ∀ e ∈ t.entries, IsMail e.type
  packets : ∀ out ∈ p.daemon.queued, out.pub = src → AckOk posted accepted out.data
  remembered : ∀ s, s ∈ p.daemon.db.inboxSeqs src ∨ s ∈ p.daemon.db.seenSeqs src →
    ∃ payload, (s.toUInt64, payload) ∈ accepted

namespace ReceiverInv

variable {C : Config} {src : PublicKey} {posted posted' : List Posted}
  {accepted : List (UInt64 × Bytes)} {p : Party}

theorem init : ReceiverInv src [] [] {} := by
  constructor <;> simp [Daemon.queued, DB.inboxSeqs, DB.seenSeqs]

theorem mono (I : ReceiverInv src posted accepted p) (h : posted ⊆ posted') :
    ReceiverInv src posted' accepted p :=
  { I with packets := fun out hout hp => (I.packets out hout hp).mono h (List.Subset.refl _) }

theorem sameInbox {d' : Daemon} (I : ReceiverInv src posted accepted p)
    (h : Daemon.SameInbox src p.daemon.db d'.db) (s : Int64)
    (hs : s ∈ d'.db.inboxSeqs src ∨ s ∈ d'.db.seenSeqs src) :
    ∃ payload, (s.toUInt64, payload) ∈ accepted := by
  have hi : d'.db.inboxSeqs src = p.daemon.db.inboxSeqs src := congrArg (List.map InboxRow.seq) h.1
  have hg : d'.db.seenSeqs src = p.daemon.db.seenSeqs src :=
    congrArg (List.map InboxSeenRow.seq) h.2.1
  rw [hi, hg] at hs
  exact I.remembered s hs

/-- A step of the receiver on its own. -/
theorem acted (I : ReceiverInv src posted accepted p) {r : Party × Option Effect}
    (h : Party.Acted C p r) : ReceiverInv src posted accepted r.1 := by
  cases h with
  | keeps h =>
    refine ⟨fun r hr => I.rows r (h.outbox ▸ hr), I.entries, fun out hout hp => ?_,
      I.sameInbox (Daemon.sameInbox_of_keepsMail h)⟩
    exact (h.queued hout).elim (fun hq => I.packets out hq hp) ackOk_of_presence
  | allocated h =>
    rename_i dest payload seq d'
    obtain ⟨-, hd', -⟩ := Daemon.beginSend_ok h
    obtain ⟨rows, hrows⟩ := OutboxJournal.nextSeq_outboxSeq p.daemon.db dest
    have hq : d'.queued = p.daemon.queued := by
      rw [hd', Daemon.queued, Daemon.queued]
      simp only [p.daemon.boxFor_node dest]
    have hdb : d'.db = { p.daemon.db with outboxSeq := rows } := by rw [hd', ← hrows]
    refine ⟨fun r hr => I.rows r ?_, I.entries, fun out hout => I.packets out (hq ▸ hout),
      I.sameInbox ?_⟩
    · have hr' : r ∈ d'.db.outbox := hr
      rw [hdb] at hr'
      exact hr'
    · rw [hdb]
      exact ⟨rfl, rfl, rfl⟩
  | returned h =>
    rename_i t
    refine ⟨fun r hr => ?_, I.entries, I.packets, I.remembered⟩
    rcases List.mem_append.1 hr with hr | hr
    · exact I.rows r (List.mem_of_mem_filter hr)
    · rw [List.mem_singleton.1 hr]
      show IsMail t.type
      unfold SendTask.type IsMail
      split_ifs <;> simp
  | started =>
    refine { I with entries := fun t ht e he => ?_ }
    rcases List.mem_append.1 ht with ht | ht
    · exact I.entries t ht e he
    · rw [List.mem_singleton] at ht
      subst ht
      dsimp only at he
      unfold Daemon.flushEntries at he
      split at he
      · simp at he
      split at he
      · simp at he
      · unfold OutboxJournal.pending at he
        obtain ⟨r, hr, rfl⟩ := List.mem_map.1 he
        rw [List.mem_insertionSort] at hr
        exact I.rows r (List.mem_of_mem_filter hr)
  | ended => exact { I with entries := fun t ht => I.entries t (List.mem_of_mem_eraseIdx ht) }
  | flushed h he =>
    rename_i i stamp t entry entries
    have ht : t ∈ p.flushes := List.mem_of_getElem? h
    have hdb := Daemon.flushEntry_db (C := C) t.now (fun _ => stamp) t.peer p.daemon entry
    refine ⟨fun r hr => I.rows r (hdb ▸ hr), fun t' ht' e hmem => ?_, fun out hout hp => ?_,
      I.sameInbox ?_⟩
    · rcases List.mem_or_eq_of_mem_set ht' with ht' | rfl
      · exact I.entries t' ht' e hmem
      · exact I.entries t ht e (by rw [he]; exact List.mem_cons_of_mem _ hmem)
    · rcases Daemon.flushEntry_queued hout with hq | ⟨-, payload, -, henv⟩
      · exact I.packets out hq hp
      · have hmail := I.entries t ht entry (by simp [he])
        exact ackOk_of_type henv hmail.ne_ack
    · rw [hdb]
      exact ⟨rfl, rfl, rfl⟩
  | wrote _ hn => exact { I with packets := fun out hout => I.packets out (hn hout) }
  | restarted =>
    have hdb : p.daemon.restart.db = p.daemon.db := (p.daemon.restart_spec src).2.1
    refine ⟨fun r hr => I.rows r (hdb ▸ hr), by simp, fun out hout => ?_, I.sameInbox ?_⟩
    · have hnil := p.daemon.restart_queued
      rw [hnil] at hout
      exact absurd hout List.not_mem_nil
    · rw [hdb]
      exact ⟨rfl, rfl, rfl⟩

theorem newMessage_eq {d : Daemon} {sender : PublicKey} {data : Bytes} {env : Envelope}
    (hb : ¬ d.isBlocked sender) (he : decodeEnvelope data = .ok env) (ht : env.type = typeMsg)
    (hnew : ((Daemon.inboxOf C sender).add d.db env.seq env.ts env.payload).1 = true) :
    d.newMessage C sender data = [(env.seq, env.payload)] := by
  unfold Daemon.newMessage
  simp only [hb, he, ht, hnew, and_self, if_true, Bool.false_eq_true, if_false]

theorem newMessage_posted {d : Daemon} {sender : PublicKey} {data : Bytes}
    (h : DataOk posted data) {m : UInt64 × Bytes} (hm : m ∈ d.newMessage C sender data) :
    ⟨m.1, typeMsg, m.2⟩ ∈ posted := by
  unfold Daemon.newMessage at hm
  split at hm
  · simp at hm
  split at hm
  · simp at hm
  rename_i env he
  split at hm
  · rename_i ht
    rw [List.mem_singleton] at hm
    subst hm
    have := h env he (.inl ht.1)
    rwa [ht.1] at this
  · simp at hm

/-- A packet, which from `src` is as posted. -/
theorem received (I : ReceiverInv src posted accepted p) (now : ℤ) {sender : PublicKey}
    {data : Bytes} (hdata : sender = src → DataOk posted data) :
    ReceiverInv src posted
      (if sender = src then accepted ++ p.daemon.newMessage C sender data else accepted)
      { p with daemon := (p.daemon.handlePacket C now sender data).1 } := by
  set accepted' := if sender = src then accepted ++ p.daemon.newMessage C sender data else accepted
  have hsub : accepted ⊆ accepted' := by
    simp only [accepted']
    split_ifs
    · exact List.subset_append_left _ _
    · exact List.Subset.refl _
  have hnew : ∀ env, sender = src → ¬ p.daemon.isBlocked sender → decodeEnvelope data = .ok env →
      env.type = typeMsg →
      ((Daemon.inboxOf C sender).add p.daemon.db env.seq env.ts env.payload).1 = true →
      (env.seq, env.payload) ∈ accepted' := by
    intro env hs hb he ht htrue
    simp only [accepted', if_pos hs, newMessage_eq hb he ht htrue]
    simp
  obtain ⟨-, hout, -⟩ := Daemon.handlePacket_mail (C := C) now p.daemon sender data
  refine ⟨fun r hr => I.rows r (hout hr), I.entries, fun out hq hp => ?_, fun s hs => ?_⟩
  · rcases Daemon.handlePacket_queued hq with hq | ⟨hpub, hb, env, he, ht, hack⟩
    · exact (I.packets out hq hp).mono (List.Subset.refl _) hsub
    · intro env' he' _
      rw [Envelope.decode_of_encode rfl hack] at he'
      cases he'
      have hsrc : sender = src := hpub.symm.trans hp
      rcases ht with ht | ht
      · left
        rcases hadd : ((Daemon.inboxOf C sender).add p.daemon.db env.seq env.ts env.payload).1
        · have hrem : (Daemon.inboxOf C sender).Remembers p.daemon.db env.seq.toInt64 :=
            InboxStore.remembers_of_not_new _ hadd
          obtain ⟨payload, hm⟩ := I.remembered env.seq.toInt64 (hsrc ▸ hrem)
          exact ⟨payload, hsub (by simpa using hm)⟩
        · exact ⟨env.payload, hnew env hsrc hb he ht hadd⟩
      · right
        have := hdata hsrc env he (.inr ht)
        rw [ht] at this
        exact ⟨env.payload, this⟩
  · rcases ho : Daemon.offerOf src p.daemon (.packet now sender data) with _ | o
    · obtain ⟨payload, hm⟩ := I.sameInbox (Daemon.handlePacket_sameInbox (C := C) now ho) s hs
      exact ⟨payload, hsub hm⟩
    · have hdb := Daemon.step_offer_db (C := C) ho
      have hs' : (Daemon.inboxOf C src).Remembers
          ((Daemon.inboxOf C src).add p.daemon.db o.seq o.ts o.payload).2 s := by
        rw [← hdb]
        exact hs
      rcases InboxStore.remembers_of_add _ hs' with hold | ⟨rfl, htrue⟩
      · obtain ⟨payload, hm⟩ := I.remembered s hold
        exact ⟨payload, hsub hm⟩
      · obtain ⟨env, hsrc, hb, he, ht, rfl⟩ := Daemon.offerOf_packet ho
        refine ⟨env.payload, ?_⟩
        have := hnew env hsrc (hsrc ▸ hb) he ht (hsrc ▸ htrue)
        simpa using this

end ReceiverInv

/-! ### The world -/

namespace World

variable {N : Nodes} {w : World}

structure Inv (N : Nodes) (w : World) : Prop where
  sender : SenderInv N.keyB w.allocated w.posted w.a
  receiver : ReceiverInv N.keyA w.posted w.accepted w.b
  dataNet : ∀ out, (Side.a, out) ∈ w.net → out.pub = N.keyB → DataOk w.posted out.data
  ackNet : ∀ out, (Side.b, out) ∈ w.net → out.pub = N.keyA → AckOk w.posted w.accepted out.data
  accepted : ∀ m ∈ w.accepted, ⟨m.1, typeMsg, m.2⟩ ∈ w.posted
  kept : Kept N.keyB w.posted w.accepted w.a.daemon.db

theorem Inv.init : Inv N {} where
  sender := SenderInv.init
  receiver := ReceiverInv.init
  dataNet := by simp
  ackNet := by simp
  accepted := by simp
  kept := by simp [Kept]

/-- A step of `A` that posts nothing. -/
theorem Inv.setA (I : Inv N w) {p : Party} {allocated : List UInt64}
    (h : SenderInv N.keyB allocated w.posted p)
    (hk : ∀ r ∈ w.a.daemon.db.outbox, r.peer = N.keyB → r ∈ p.daemon.db.outbox) :
    Inv N { w with a := p, allocated } :=
  { I with sender := h, kept := I.kept.ofOutbox hk }

theorem Inv.actA (I : Inv N w) (act : Act) : Inv N (w.actA N act) := by
  have h := Party.act_acted (C := N.cfgA) w.a act
  unfold World.actA
  generalize w.a.act N.cfgA act = r at h ⊢
  cases h with
  | keeps h => exact I.setA (I.sender.keeps h) fun r hr _ => h.outbox ▸ hr
  | allocated h =>
    rename_i dest payload seq d'
    obtain ⟨-, hd', -⟩ := Daemon.beginSend_ok h
    obtain ⟨rows, hrows⟩ := OutboxJournal.nextSeq_outboxSeq w.a.daemon.db dest
    refine I.setA (I.sender.allocate h) fun r hr _ => ?_
    rw [hd']
    simp only [hrows]
    exact hr
  | returned h =>
    rename_i i now t
    have hsub : w.posted ⊆ if t.dest = N.keyB then w.posted ++ [⟨t.seq, t.type, t.payload⟩]
        else w.posted := by
      split_ifs
      · exact List.subset_append_left _ _
      · exact List.Subset.refl _
    exact ⟨I.sender.returned h, I.receiver.mono hsub,
      fun out hout hp => (I.dataNet out hout hp).mono hsub,
      fun out hout hp => (I.ackNet out hout hp).mono hsub (List.Subset.refl _),
      fun m hm => hsub (I.accepted m hm), I.kept.returned I.sender now h⟩
  | started => exact I.setA I.sender.started fun r hr _ => hr
  | ended => exact I.setA I.sender.ended fun r hr _ => hr
  | flushed h he =>
    refine I.setA (I.sender.flushed h he) fun r hr _ => ?_
    rw [Daemon.flushEntry_db]
    exact hr
  | wrote hout hn =>
    rename_i out node
    refine { I.setA (I.sender.wrote hn) fun r hr _ => hr with dataNet := ?_, ackNet := ?_ }
    · intro out' hmem hp
      rcases List.mem_append.1 hmem with hmem | hmem
      · exact I.dataNet out' hmem hp
      · cases List.mem_singleton.1 hmem
        exact I.sender.packets out hout hp
    · intro out' hmem hp
      rcases List.mem_append.1 hmem with hmem | hmem
      · exact I.ackNet out' hmem hp
      · cases List.mem_singleton.1 hmem
  | restarted =>
    refine I.setA I.sender.restarted fun r hr _ => ?_
    rw [(w.a.daemon.restart_spec N.keyB).2.1]
    exact hr

theorem Inv.actB (I : Inv N w) (act : Act) : Inv N (w.actB N act) := by
  have h := Party.act_acted (C := N.cfgB) w.b act
  have hb := I.receiver.acted h
  unfold World.actB
  generalize w.b.act N.cfgB act = r at h hb ⊢
  cases h with
  | wrote hout hn =>
    rename_i out node
    refine { I with receiver := hb, dataNet := ?_, ackNet := ?_ }
    · intro out' hmem hp
      rcases List.mem_append.1 hmem with hmem | hmem
      · exact I.dataNet out' hmem hp
      · cases List.mem_singleton.1 hmem
    · intro out' hmem hp
      rcases List.mem_append.1 hmem with hmem | hmem
      · exact I.ackNet out' hmem hp
      · cases List.mem_singleton.1 hmem
        exact I.receiver.packets out hout hp
  | keeps | allocated | returned | started | ended | flushed | restarted =>
    exact { I with receiver := hb }

theorem Inv.receiveA (I : Inv N w) (now : ℤ) {sender : PublicKey} {data : Bytes}
    (h : sender = N.keyB → AckOk w.posted w.accepted data) :
    Inv N (w.receiveA N now sender data) :=
  { I with
    sender := I.sender.received now sender data
    kept := I.kept.received I.sender I.accepted now h }

theorem Inv.receiveB (I : Inv N w) (now : ℤ) {sender : PublicKey} {data : Bytes}
    (h : sender = N.keyA → DataOk w.posted data) : Inv N (w.receiveB N now sender data) := by
  have hsub : w.accepted ⊆ if sender = N.keyA
      then w.accepted ++ w.b.daemon.newMessage N.cfgB sender data else w.accepted := by
    split_ifs
    · exact List.subset_append_left _ _
    · exact List.Subset.refl _
  refine ⟨I.sender, I.receiver.received now h, I.dataNet,
    fun out hout hp => (I.ackNet out hout hp).mono (List.Subset.refl _) hsub, fun m hm => ?_,
    I.kept.mono hsub⟩
  by_cases hs : sender = N.keyA
  · simp only [World.receiveB, if_pos hs] at hm
    rcases List.mem_append.1 hm with hm | hm
    · exact I.accepted m hm
    · exact ReceiverInv.newMessage_posted (h hs) hm
  · simp only [World.receiveB, if_neg hs] at hm
    exact I.accepted m hm

theorem Inv.step (hne : N.keyA ≠ N.keyB) (I : Inv N w) (move : Move) : Inv N (w.step N move) := by
  cases move with
  | act side act =>
    cases side with
    | a => exact I.actA act
    | b => exact I.actB act
  | deliver i now =>
    unfold World.step
    dsimp only
    split
    · exact I
    rename_i src out hget
    have hmem : (src, out) ∈ w.net := List.mem_of_getElem? hget
    split_ifs with ha hb
    · refine I.receiveA now fun hs => ?_
      cases src with
      | a => exact absurd hs hne
      | b => exact I.ackNet out hmem ha
    · refine I.receiveB now fun hs => ?_
      cases src with
      | a => exact I.dataNet out hmem hb
      | b => exact absurd hs.symm hne
    · exact I
  | foreign side now sender data =>
    unfold World.step
    dsimp only
    split_ifs with hs
    · exact I
    push Not at hs
    cases side with
    | a => exact I.receiveA now fun h => absurd h hs.2
    | b => exact I.receiveB now fun h => absurd h hs.1

theorem run_inv (hne : N.keyA ≠ N.keyB) (moves : List Move) : Inv N (World.run N moves) :=
  Runs.invariant_end (World.step N) {} moves Inv.init fun move _ _ I => I.step hne move

/-- In every state of every run no seq was allocated twice, and each message whose `SendMsg`
returned is still a row of `A`'s outbox, under a peer that has a mailbox, or was accepted by `B`
under that seq with that payload. -/
theorem no_message_lost (N : Nodes) (hne : N.keyA ≠ N.keyB) (moves : List Move) :
    let w := World.run N moves
    w.allocated.Nodup
    ∧ ∀ m ∈ w.posted, m.type = typeMsg →
      (∃ r ∈ w.a.daemon.db.outbox, r.peer = N.keyB ∧ r.seq = m.seq.toInt64 ∧ r.payload = m.payload
        ∧ N.keyB ∈ w.a.daemon.boxes)
      ∨ (m.seq, m.payload) ∈ w.accepted := by
  intro w
  have I : Inv N w := run_inv hne moves
  refine ⟨I.sender.nodupAlloc, fun m hm ht => (I.kept m hm ht).imp ?_ id⟩
  rintro ⟨r, hr, hp, hseq, hpay⟩
  exact ⟨r, hr, hp, hseq, hpay, hp ▸ I.sender.boxed r hr⟩

/-- A message that is sent, delivered and acknowledged. -/
theorem no_message_lost_hello :
    let N : Nodes := ⟨List.replicate 32 1, List.replicate 32 2, ⟨10, 0, 0, 0, 65555⟩,
      ⟨10, 0, 0, 0, 65555⟩⟩
    let moves : List Move := [.act .a (.beginSend false N.keyB [104, 105]),
      .act .a (.finishSend 0 0), .act .a (.startFlush 0 N.keyB), .act .a (.flushNext 0 0),
      .act .a .writeControl, .deliver 0 0, .act .b .writeControl, .deliver 1 0]
    let w := World.run N moves
    N.keyA ≠ N.keyB ∧ w.posted = [⟨1, typeMsg, [104, 105]⟩] ∧ w.a.daemon.db.outbox = []
      ∧ (1, [104, 105]) ∈ w.accepted := by
  intro N moves w
  have hne : N.keyA ≠ N.keyB := by decide
  have hposted : w.posted = [⟨1, typeMsg, [104, 105]⟩] := by decide +kernel
  have houtbox : w.a.daemon.db.outbox = [] := by decide +kernel
  have hlost := (no_message_lost N hne moves).2
  rw [show World.run N moves = w from rfl] at hlost
  clear_value w
  rw [hposted] at hlost
  rcases hlost ⟨1, typeMsg, [104, 105]⟩ (List.mem_singleton.2 rfl) rfl with ⟨r, hr, -⟩ | h
  · rw [houtbox] at hr
    exact absurd hr List.not_mem_nil
  · exact ⟨hne, hposted, houtbox, h⟩

end World

end Aimless
