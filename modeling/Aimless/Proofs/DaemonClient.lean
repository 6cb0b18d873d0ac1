import Aimless.DaemonClient
import Aimless.Proofs.Delivery
import Aimless.Lib.Runs

/-!
# A send takes effect once or not at all

A send that returned has queued one row and one that raised has queued none, as long as no send is
given up or sent again with its fate open (`sends_exactly_once`).

For each send four numbers are kept: its lines that may still be executed, the answers not yet
looked at that accept it and that refuse it, and its rows.  A line becomes a row or a refusal when
it is executed (`Fate`).
-/

namespace Aimless

variable {C : Config}

/-! ### What a request does to the outbox -/

namespace Daemon

/-- The counter of a peer is past every row of it. -/
def Numbered (d : Daemon) : Prop :=
  ∀ r ∈ d.db.outbox, r.seq.toUInt64.toNat < OutboxJournal.counter d.db r.peer

namespace Numbered

variable {d d' : Daemon}

theorem mono (h : Numbered d) (hseq : d'.db.outboxSeq = d.db.outboxSeq)
    (hout : d'.db.outbox ⊆ d.db.outbox) : Numbered d' := fun r hr => by
  have := h r (hout hr)
  rwa [← OutboxJournal.counter_eq (by rw [hseq])] at this

theorem keepsMail (h : Numbered d) (hk : KeepsMail d d') : Numbered d' :=
  h.mono hk.outboxSeq (by rw [hk.outbox]; exact List.Subset.refl _)

theorem sameDb (h : Numbered d) (hdb : d'.db = d.db) : Numbered d' :=
  h.mono (by rw [hdb]) (by rw [hdb]; exact List.Subset.refl _)

/-- A send adds one row, which was not there before. -/
theorem sendAs (h : Numbered d) (typ : EnvelopeType) (now : ℤ) (dest : PublicKey)
    (payload : Bytes) : Numbered (d.sendAs typ now dest payload).2
      ∧ ((∃ e, (d.sendAs typ now dest payload).1 = .error e)
          ∧ (d.sendAs typ now dest payload).2.db.outbox = d.db.outbox
        ∨ (∃ seq, (d.sendAs typ now dest payload).1 = .ok seq)
          ∧ ∃ row ∉ d.db.outbox, (row.peer = dest ∧ row.type = typ ∧ row.payload = payload)
            ∧ (d.sendAs typ now dest payload).2.db.outbox = d.db.outbox ++ [row]) := by
  unfold Daemon.sendAs
  split <;> rename_i heq
  · have hk := Party.beginSend_keeps heq
    exact ⟨h.keepsMail hk, .inl ⟨⟨_, rfl⟩, hk.outbox⟩⟩
  rename_i seq d₁
  obtain ⟨hnext, hd₁, -⟩ := beginSend_ok heq
  obtain ⟨hlt, hseq, hinc⟩ := OutboxJournal.nextSeq_some hnext
  obtain ⟨rows, hrows⟩ := OutboxJournal.nextSeq_outboxSeq d.db dest
  have hdb : d₁.db = (OutboxJournal.nextSeq d.db dest).2 := by rw [hd₁]
  have hout : d₁.db.outbox = d.db.outbox := by rw [hdb, hrows]
  have hto : seq.toNat = OutboxJournal.counter d.db dest := by
    rw [hseq, UInt64.toNat_ofNat_of_lt' (lt_trans hlt (by decide))]
  have hfresh : ∀ r ∈ d.db.outbox, ¬ (r.peer = dest ∧ r.seq = seq.toInt64) := by
    rintro r hr ⟨hp, hs⟩
    have := h r hr
    rw [hp, hs, UInt64.toUInt64_toInt64] at this
    omega
  have hadd : (d₁.finishSend now dest seq payload typ).db.outbox
      = d.db.outbox ++ [⟨dest, seq.toInt64, unixMilli now, typ, payload⟩] := by
    simp only [finishSend, OutboxJournal.queueAs, hout]
    rw [List.filter_eq_self.2 fun r hr => decide_eq_true (hfresh r hr)]
  have hcount : ∀ k, OutboxJournal.counter d.db k
      ≤ OutboxJournal.counter (d₁.finishSend now dest seq payload typ).db k := by
    intro k
    have hfin : OutboxJournal.counter (d₁.finishSend now dest seq payload typ).db k
        = OutboxJournal.counter d₁.db k := OutboxJournal.counter_eq rfl
    rw [hfin, hdb]
    by_cases hk : k = dest
    · rw [hk, hinc]
      exact Nat.le_succ _
    · rw [OutboxJournal.counter_eq (OutboxJournal.nextSeq_sameFor hk).outboxSeq]
  refine ⟨fun r hr => ?_,
    .inr ⟨⟨seq, rfl⟩, _, fun hr => hfresh _ hr ⟨rfl, rfl⟩, ⟨rfl, rfl, rfl⟩, hadd⟩⟩
  dsimp only at hr ⊢
  rw [hadd] at hr
  rcases List.mem_append.1 hr with hr | hr
  · exact (h r hr).trans_le (hcount _)
  · rw [List.mem_singleton.1 hr]
    have hfin : OutboxJournal.counter (d₁.finishSend now dest seq payload typ).db dest
        = OutboxJournal.counter d₁.db dest := OutboxJournal.counter_eq rfl
    simp only [UInt64.toUInt64_toInt64]
    rw [hfin, hdb, hinc, hto]
    exact Nat.lt_succ_self _

end Numbered

/-- What the daemon does with a request when the outbox is `rows`: it refuses it or answers
something else, with the outbox as it was, or it queues one row and says so. -/
inductive Answered (rows : List OutboxRow) (req : Request) : Reply × Daemon → Prop
  | other {r : Reply} {d : Daemon} (hop : r.op ≠ "queued") (hsend : req.isSend → r.op = "error")
      (hout : d.db.outbox = rows) : Answered rows req (r, d)
  | queued {r : Reply} {d : Daemon} {row : OutboxRow} (hop : r.op = "queued") (hsend : req.isSend)
      (hnew : row ∉ rows) (hout : d.db.outbox = rows ++ [row]) : Answered rows req (r, d)

theorem dispatch_op {d : Daemon} {now : ℤ} {persisted : Bool} {req : Request}
    (hreq : ¬ req.isSend) : (d.dispatch C now persisted req).1.op ≠ "queued" := by
  unfold dispatch
  dsimp only
  cases req with
  | send | sendfile => exact absurd rfl hreq
  | history =>
    simp only [handleHistory]
    split <;> simp [Reply.op]
  | pendingattachments =>
    simp only [handlePendingAttachments]
    split <;> simp [Reply.op]
  | fetchattachment =>
    simp only [handleFetchAttachment]
    split
    · simp [Reply.op]
    · split <;> simp [Reply.op]
  | ackfile =>
    simp only [handleAckFile]
    split
    · simp [Reply.op]
    · split <;> simp [Reply.op]
  | watch =>
    simp only [handleWatch]
    split
    · simp [Reply.op]
    · split <;> simp [Reply.op]
  | setstatus =>
    simp only [handleSetStatus]
    split
    · simp [Reply.op]
    split
    · simp [Reply.op]
    split
    · simp [Reply.op]
    · split <;> simp [Reply.op]
  | block =>
    simp only [handleBlock, if_true]
    split
    · simp [Reply.op]
    · split <;> simp [Reply.op]
  | unblock =>
    simp only [handleBlock, Bool.false_eq_true, if_false]
    split
    · simp [Reply.op]
    · split <;> simp [Reply.op]
  | whoami | status | presence | blocklist | missing | unknown => simp [Reply.op]

theorem handleSend_answered {d : Daemon} (h : Numbered d) {req : Request} (hreq : req.isSend)
    (now : ℤ) (typ : EnvelopeType) (dest payload : Text) :
    Numbered (d.handleSend now typ dest payload).2
      ∧ Answered d.db.outbox req (d.handleSend now typ dest payload) := by
  unfold handleSend
  split
  · exact ⟨h, .other (by simp [Reply.op]) (fun _ => rfl) rfl⟩
  split
  · exact ⟨h, .other (by simp [Reply.op]) (fun _ => rfl) rfl⟩
  rename_i key _ _ bytes _
  obtain ⟨hn, ⟨⟨e, he⟩, hout⟩ | ⟨⟨seq, hs⟩, row, hnew, -, hout⟩⟩ := h.sendAs typ now key bytes
  · split <;> rename_i heq <;> rw [heq] at he hout hn
    · exact ⟨hn, .other (by simp [Reply.op]) (fun _ => rfl) hout⟩
    · cases he
  · split <;> rename_i heq <;> rw [heq] at hs hout hn
    · cases hs
    · exact ⟨hn, .queued rfl hreq hnew hout⟩

theorem dispatch_answered {d : Daemon} (h : Numbered d) (now : ℤ) (persisted : Bool)
    (req : Request) : Numbered (d.dispatch C now persisted req).2
      ∧ Answered d.db.outbox req (d.dispatch C now persisted req) := by
  have htouch : Numbered (d.touchClient now) := h
  by_cases hreq : req.isSend
  · cases req with
    | send dest payload => exact handleSend_answered htouch hreq now typeMsg dest payload
    | sendfile dest payload => exact handleSend_answered htouch hreq now typeFile dest payload
    | _ => cases hreq
  · have hk : KeepsMail d (d.dispatch C now persisted req).2 := by
      refine KeepsMail.dispatch now persisted d ?_ ?_
      · rintro dest payload rfl
        exact hreq rfl
      · rintro dest payload rfl
        exact hreq rfl
    exact ⟨h.keepsMail hk, .other (dispatch_op hreq) (fun h => absurd h hreq) hk.outbox⟩

namespace Numbered

variable {d : Daemon}

theorem step (h : Numbered d) (op : Op) : Numbered (d.step C op).1 := by
  cases op with
  | api now persisted req => exact (dispatch_answered h now persisted req).1
  | packet now sender data =>
    obtain ⟨hseq, hout, -⟩ := handlePacket_mail (C := C) now d sender data
    exact h.mono hseq hout
  | flush now stamp peer => exact h.sameDb (d.flushPeer_db now stamp peer)
  | retry now stamp order => exact h.sameDb (d.retryRound_db now stamp order)
  | pathUp now stamp key =>
    exact (h.sameDb (d.flushPeer_db now stamp key)).keepsMail (KeepsMail.probeOne now _ key)
  | tick now order => exact h.keepsMail (KeepsMail.tick now order d)
  | writeControl =>
    unfold Daemon.step
    dsimp only
    split <;> exact h
  | writeBulk =>
    unfold Daemon.step
    dsimp only
    split <;> exact h
  | restart => exact h.sameDb (d.restart_spec []).2.1

theorem run : ∀ (ops : List Op) {d : Daemon}, Numbered d → Numbered (d.run C ops).1
  | [], _, h => h
  | op :: ops, _, h => run ops (h.step op)

end Numbered

end Daemon

/-! ### The fate of a send -/

/-- The numbers of a send in phase `p`: its lines that may still be executed, the unread answers
that accept it and that refuse it, and its rows. -/
structure Fate (p : Phase) (lines accepted refused rows : ℕ) : Prop where
  flight : lines + accepted + refused ≤ 1
  once : lines + rows ≤ 1
  accept : accepted ≤ rows
  refuse : refused + rows ≤ 1
  fresh : p.fresh → lines = 0 ∧ accepted = 0 ∧ refused = 0 ∧ rows = 0
  returned : ∀ r, p = .returned r → lines = 0 ∧ accepted = 0 ∧ refused = 0 ∧ rows = 1
  raised : p = .raised → lines = 0 ∧ rows = 0

namespace Fate

variable {p q : Phase} {l a r n l' a' r' : ℕ}

/-- Lines and answers may be lost. -/
theorem lose (F : Fate p l a r n) (hl : l' ≤ l) (ha : a' ≤ a) (hr : r' ≤ r) : Fate p l' a' r' n where
  flight := by have := F.flight; omega
  once := by have := F.once; omega
  accept := by have := F.accept; omega
  refuse := by have := F.refuse; omega
  fresh h := by have := F.fresh h; omega
  returned x h := by have := F.returned x h; omega
  raised h := by have := F.raised h; omega

/-- Nothing is settled yet in the phases of the loop. -/
theorem loop (F : Fate p l a r n) (hq : q.looping) (hf : q.fresh → l = 0 ∧ a = 0 ∧ r = 0 ∧ n = 0) :
    Fate q l a r n :=
  { F with
    fresh := hf
    returned := by rintro x rfl; cases hq
    raised := by rintro rfl; cases hq }

/-- A send whose acceptance is taken from what is unread has its row. -/
theorem take (F : Fate p l a r n) (x : Reply) (ha : a' < a) (hr : r' ≤ r) :
    Fate (.returned x) l a' r' n := by
  have hflight := F.flight
  have honce := F.once
  have haccept := F.accept
  have hn : l = 0 ∧ a' = 0 ∧ r' = 0 ∧ n = 1 := by omega
  obtain ⟨rfl, rfl, rfl, rfl⟩ := hn
  refine ⟨by omega, by omega, by omega, by omega, ?_, fun _ _ => ⟨rfl, rfl, rfl, rfl⟩, ?_⟩
  · intro h
    cases h
  · intro h
    cases h

/-- The line is executed and queues its row. -/
theorem queue (F : Fate p l a r n) (hl : 0 < l) (ha : a' ≤ a + 1) : Fate p (l - 1) a' r (n + 1) := by
  have hflight := F.flight
  have honce := F.once
  refine ⟨by omega, by omega, by omega, by omega, fun h => ?_, fun x h => ?_, fun h => ?_⟩
  · have := F.fresh h
    omega
  · have := F.returned x h
    omega
  · have := F.raised h
    omega

/-- The line is executed and refused. -/
theorem refusal (F : Fate p l a r n) (hl : 0 < l) (hr : r' ≤ r + 1) : Fate p (l - 1) a r' n := by
  have hflight := F.flight
  have honce := F.once
  have haccept := F.accept
  refine ⟨by omega, by omega, by omega, by omega, fun h => ?_, fun x h => ?_, fun h => ?_⟩
  · have := F.fresh h
    omega
  · have := F.returned x h
    omega
  · have := F.raised h
    omega

theorem looping_of_accepted (F : Fate p l a r n) (ha : 0 < a) : p.looping := by
  have hn := F.accept
  cases p with
  | queueing =>
    have := F.fresh rfl
    omega
  | returned x =>
    have := F.returned x rfl
    omega
  | raised =>
    have := F.raised rfl
    omega
  | unsent | written | waiting | reconnecting => rfl

end Fate

namespace Link

variable {s s' : Link} {i : ℕ} {c e : Call}

def accepted (s : Link) (i : ℕ) : ℕ :=
  s.unread.countP fun a => a.id = i ∧ a.reply.op = "queued"

/-- A legacy call puts its refusals aside, so they are not counted. -/
def refused (s : Link) (c : Call) (i : ℕ) : ℕ :=
  if c.multiplex then s.unread.countP fun a => a.id = i ∧ a.reply.op ≠ "queued" else 0

theorem mem_unread_of_raw {a : Answer} (h : a ∈ s.raw) : a ∈ s.unread :=
  List.mem_append_left _ (List.mem_append_right _ h)

theorem mem_unread_of_mail {a : Answer} (h : a ∈ s.mail) : a ∈ s.unread :=
  List.mem_append_right _ h

structure Inv (s : Link) : Prop where
  numbered : s.daemon.Numbered
  fate : ∀ {i c}, s.calls[i]? = some c → c.req.isSend →
    Fate c.phase (s.inFlight i) (s.accepted i) (s.refused c i) (s.rows i)
  line : ∀ l ∈ s.lines, ∃ c, s.calls[l.id]? = some c ∧ c.req = l.req
  answer : ∀ a ∈ s.unread, ∃ c, s.calls[a.id]? = some c ∧ (a.reply.op = "queued" → c.req.isSend)
    ∧ (c.req.isSend → a.reply.op = "queued" ∨ a.reply.op = "error")
  row : ∀ q ∈ s.queued, q.1 < s.calls.length
  raw : ∀ a ∈ s.raw, a.reply.op = "queued" → ∀ c, s.calls[a.id]? = some c → c.multiplex = false
  lock : ∀ {i c}, s.calls[i]? = some c → c.multiplex = false → c.phase.looping →
    s.roundtripLock = some i

namespace Inv

theorem init {d : Daemon} (h : d.Numbered) : Inv { daemon := d } where
  numbered := h
  fate hc := by cases hc
  line := by simp
  answer := by simp [unread]
  row := by simp
  raw := by simp
  lock hc := by cases hc

/-- The call that an unread acceptance belongs to is still in its loop. -/
theorem of_accepted (I : Inv s) {a : Answer} (ha : a ∈ s.unread) (hop : a.reply.op = "queued") :
    ∃ c, s.calls[a.id]? = some c ∧ c.req.isSend ∧ c.phase.looping ∧ 0 < s.accepted a.id := by
  obtain ⟨c, hc, hsend, -⟩ := I.answer a ha
  have hpos : 0 < s.accepted a.id := List.countP_pos_iff.2 ⟨a, ha, by simp [hop]⟩
  exact ⟨c, hc, hsend hop, (I.fate hc (hsend hop)).looping_of_accepted hpos, hpos⟩

/-- Lines and answers are lost; the calls are as they were. -/
theorem lose (I : Inv s) (hd : s'.daemon.Numbered) (hcalls : s'.calls = s.calls)
    (hlock : s'.roundtripLock = s.roundtripLock) (hq : s'.queued = s.queued)
    (hlines : s'.lines.Sublist s.lines)
    (hunread : ∀ p : Answer → Bool, s'.unread.countP p ≤ s.unread.countP p)
    (hraw : ∀ a ∈ s'.raw, a.reply.op = "queued" → ∀ c, s.calls[a.id]? = some c →
      c.multiplex = false) : Inv s' where
  numbered := hd
  fate {i c} hc hs := by
    rw [hcalls] at hc
    have hr : s'.refused c i ≤ s.refused c i := by
      unfold refused
      split
      · exact hunread _
      · exact le_rfl
    have hrows : s'.rows i = s.rows i := by rw [rows, rows, hq]
    rw [hrows]
    exact (I.fate hc hs).lose (hlines.countP_le) (hunread _) hr
  line l hl := by
    rw [hcalls]
    exact I.line l (hlines.subset hl)
  answer a ha := by
    rw [hcalls]
    have hpos : 0 < s'.unread.countP fun b => b = a := List.countP_pos_iff.2 ⟨a, ha, by simp⟩
    obtain ⟨b, hb, hba⟩ := List.countP_pos_iff.1 (hpos.trans_le (hunread _))
    exact I.answer a (of_decide_eq_true hba ▸ hb)
  row := by rw [hcalls, hq]; exact I.row
  raw := by rw [hcalls]; exact hraw
  lock := by rw [hcalls, hlock]; exact I.lock

/-- One call moves on; its request stays the same, and what the others wait for can only get
lost. -/
theorem moveCall (I : Inv s) (hc : s.calls[i]? = some c) (hreq : e.req = c.req)
    (hmul : e.multiplex = c.multiplex) (hd : s'.daemon = s.daemon) (hq : s'.queued = s.queued)
    (hcalls : s'.calls = s.calls.set i e)
    (hlines : ∀ l ∈ s'.lines, l ∈ s.lines ∨ l.id = i ∧ l.req = c.req)
    (hflight : ∀ j ≠ i, s'.inFlight j ≤ s.inFlight j) (hunread : s'.unread.Sublist s.unread)
    (hraw : s'.raw ⊆ s.raw)
    (hfate : c.req.isSend →
      Fate e.phase (s'.inFlight i) (s'.accepted i) (s'.refused c i) (s.rows i))
    (hown : c.multiplex = false → e.phase.looping → s'.roundtripLock = some i)
    (hlock : ∀ j ≠ i, s.roundtripLock = some j → s'.roundtripLock = some j) : Inv s' := by
  have hlen : i < s.calls.length := (List.getElem?_eq_some_iff.1 hc).1
  have hself : s'.calls[i]? = some e := by rw [hcalls, List.getElem?_set_self hlen]
  have hother : ∀ j ≠ i, s'.calls[j]? = s.calls[j]? := fun j hj => by
    rw [hcalls, List.getElem?_set_ne (Ne.symm hj)]
  have hkeep : ∀ (j : ℕ) (d : Call), s.calls[j]? = some d →
      ∃ d' : Call, s'.calls[j]? = some d' ∧ d'.req = d.req ∧ d'.multiplex = d.multiplex := by
    intro j d hj
    by_cases hji : j = i
    · subst hji
      rw [hc, Option.some.injEq] at hj
      exact ⟨e, hself, hj ▸ hreq, hj ▸ hmul⟩
    · exact ⟨d, by rw [hother j hji, hj], rfl, rfl⟩
  have hrefused : ∀ (d : Call) (j : ℕ), s'.refused d j ≤ s.refused d j := by
    intro d j
    unfold refused
    split
    · exact hunread.countP_le
    · exact le_rfl
  have hrows : ∀ j, s'.rows j = s.rows j := fun j => by rw [rows, rows, hq]
  refine ⟨hd ▸ I.numbered, ?_, ?_, ?_, ?_, ?_, ?_⟩
  · intro j d hj hs
    by_cases hji : j = i
    · subst hji
      rw [hself, Option.some.injEq] at hj
      subst hj
      rw [hrows]
      have := hfate (hreq ▸ hs)
      rwa [refused, ← hmul] at this
    · rw [hother j hji] at hj
      rw [hrows]
      exact (I.fate hj hs).lose (hflight j hji) hunread.countP_le (hrefused d j)
  · intro l hl
    rcases hlines l hl with hl | ⟨hid, hr⟩
    · obtain ⟨d, hj, hr⟩ := I.line l hl
      obtain ⟨d', hj', hr', -⟩ := hkeep _ d hj
      exact ⟨d', hj', hr'.trans hr⟩
    · exact ⟨e, by rw [hid, hself], hreq.trans hr.symm⟩
  · intro a ha
    obtain ⟨d, hj, h1, h2⟩ := I.answer a (hunread.subset ha)
    obtain ⟨d', hj', hr', -⟩ := hkeep _ d hj
    exact ⟨d', hj', by rwa [hr'], by rwa [hr']⟩
  · intro q hq'
    rw [hcalls, List.length_set]
    exact I.row q (hq ▸ hq')
  · intro a ha hop d hj
    by_cases hji : a.id = i
    · rw [hji, hself, Option.some.injEq] at hj
      rw [← hj, hmul]
      exact I.raw a (hraw ha) hop c (hji ▸ hc)
    · exact I.raw a (hraw ha) hop d (hother _ hji ▸ hj)
  · intro j d hj hm hl
    by_cases hji : j = i
    · subst hji
      rw [hself, Option.some.injEq] at hj
      subst hj
      exact hown (hmul ▸ hm) hl
    · exact hlock j hji (I.lock (hother j hji ▸ hj) hm hl)

/-! ### The steps of a call -/

theorem inPhase (I : Inv s) {p : Phase} {f : Call → Link}
    (h : ∀ c, s.calls[i]? = some c → c.phase = p → Inv (f c)) : Inv (s.inPhase i p f) := by
  unfold Link.inPhase
  split
  · exact I
  · rename_i c hc
    split_ifs with hp
    · exact h c hc hp
    · exact I

/-- A call in its loop changes its phase and nothing else. -/
theorem setCall (I : Inv s) (hc : s.calls[i]? = some c) (hloop : c.phase.looping)
    (hreq : e.req = c.req) (hmul : e.multiplex = c.multiplex)
    (hfate : c.req.isSend →
      Fate e.phase (s.inFlight i) (s.accepted i) (s.refused c i) (s.rows i)) :
    Inv (s.setCall i e) :=
  I.moveCall hc hreq hmul rfl rfl rfl (fun _ h => .inl h) (fun _ _ => le_rfl) (List.Sublist.refl _)
    (List.Subset.refl _) hfate (fun hm _ => I.lock hc hm hloop) fun _ _ h => h

theorem finish (I : Inv s) (hc : s.calls[i]? = some c) (hloop : c.phase.looping) {p : Phase}
    (hp : ¬ p.looping) (hfate : c.req.isSend → Fate p (s.inFlight i) ((s.finish i c p).accepted i)
      ((s.finish i c p).refused c i) (s.rows i)) : Inv (s.finish i c p) := by
  unfold Link.finish at hfate ⊢
  dsimp only at hfate ⊢
  split_ifs at hfate ⊢ with hm
  · refine I.moveCall hc (e := { c with phase := p }) rfl rfl rfl rfl rfl (fun _ h => .inl h)
      (fun _ _ => le_rfl) ?_ (List.Subset.refl _) hfate (fun _ hl => absurd hl hp) fun _ _ h => h
    exact (List.Sublist.refl _).append List.filter_sublist
  · have hlock := I.lock hc (Bool.not_eq_true _ ▸ hm) hloop
    refine I.moveCall hc (e := { c with phase := p }) rfl rfl rfl rfl rfl (fun _ h => .inl h)
      (fun _ _ => le_rfl) (List.Sublist.refl _) (List.Subset.refl _) hfate
      (fun _ hl => absurd hl hp) fun j hj h => ?_
    exact absurd (Option.some.inj (h.symm.trans hlock)) hj

/-- What a call leaves unread when it ends was there before. -/
theorem finish_unread (s : Link) (i : ℕ) (c : Call) (p : Phase) :
    (s.finish i c p).unread.Sublist s.unread := by
  unfold Link.finish
  dsimp only
  split_ifs
  · exact (List.Sublist.refl _).append List.filter_sublist
  · exact List.Sublist.refl _

theorem finish_refused_le (s : Link) (i : ℕ) (c : Call) (p : Phase) :
    (s.finish i c p).refused c i ≤ s.refused c i := by
  unfold refused
  split
  · exact (finish_unread s i c p).countP_le
  · exact le_rfl

/-- A call raises when nothing came of it and nothing can. -/
theorem raise (I : Inv s) (hc : s.calls[i]? = some c) (hloop : c.phase.looping)
    (hvoid : c.req.isSend → s.Void i) : Inv (s.finish i c .raised) := by
  refine I.finish hc hloop (by simp [Phase.looping]) fun hs => ?_
  obtain ⟨hl, hn⟩ := hvoid hs
  have F := (I.fate hc hs).lose le_rfl (finish_unread s i c .raised).countP_le
    (finish_refused_le s i c .raised)
  exact { F with
    fresh := fun h => by cases h
    returned := fun r h => by cases h
    raised := fun _ => ⟨hl, hn⟩ }

theorem request (I : Inv s) (req : Request) : Inv (s.request req) := by
  have hold : ∀ {j : ℕ} {d : Call}, s.calls[j]? = some d → (s.request req).calls[j]? = some d := by
    intro j d hj
    have hlt := (List.getElem?_eq_some_iff.1 hj).1
    simp only [Link.request]
    rw [List.getElem?_append_left hlt, hj]
  have hcases : ∀ {j : ℕ} {d : Call}, (s.request req).calls[j]? = some d →
      s.calls[j]? = some d ∨ j = s.calls.length
        ∧ d.phase = (if s.multiplex then .unsent else .queueing) ∧ d.multiplex = s.multiplex := by
    intro j d hj
    simp only [Link.request] at hj
    rcases lt_trichotomy j s.calls.length with hlt | rfl | hgt
    · rw [List.getElem?_append_left hlt] at hj
      exact .inl hj
    · rw [List.getElem?_concat_length, Option.some.injEq] at hj
      subst hj
      exact .inr ⟨rfl, rfl, rfl⟩
    · rw [List.getElem?_eq_none (by simp; omega)] at hj
      cases hj
  have hlen : ∀ {j : ℕ} {d : Call}, s.calls[j]? = some d → j ≠ s.calls.length := fun hj =>
    (List.getElem?_eq_some_iff.1 hj).1.ne
  refine ⟨I.numbered, ?_, ?_, ?_, ?_, ?_, ?_⟩
  · intro j d hj hs
    rcases hcases hj with hj | ⟨rfl, hp, -⟩
    · exact I.fate hj hs
    -- no line, answer or row carries an id that was not given out
    have hl : (s.request req).inFlight s.calls.length = 0 := List.countP_eq_zero.2 fun l hl h => by
      obtain ⟨d, hd, -⟩ := I.line l hl
      exact hlen hd (of_decide_eq_true h)
    have hun : ∀ a ∈ s.unread, a.id ≠ s.calls.length := fun a ha => by
      obtain ⟨d, hd, -⟩ := I.answer a ha
      exact hlen hd
    have ha : (s.request req).accepted s.calls.length = 0 := List.countP_eq_zero.2 fun a ha h =>
      hun a ha (of_decide_eq_true h).1
    have hr : (s.request req).refused d s.calls.length = 0 := by
      unfold refused
      split
      · exact List.countP_eq_zero.2 fun a ha h => hun a ha (of_decide_eq_true h).1
      · rfl
    have hn : (s.request req).rows s.calls.length = 0 := List.countP_eq_zero.2 fun q hq h =>
      (I.row q hq).ne (of_decide_eq_true h)
    rw [hl, ha, hr, hn, hp]
    refine ⟨by omega, by omega, by omega, by omega, fun _ => ⟨rfl, rfl, rfl, rfl⟩, ?_, ?_⟩
    · intro r h
      split_ifs at h
    · intro h
      split_ifs at h
  · intro l hl
    obtain ⟨d, hd, hr⟩ := I.line l hl
    exact ⟨d, hold hd, hr⟩
  · intro a ha
    obtain ⟨d, hd, h⟩ := I.answer a ha
    exact ⟨d, hold hd, h⟩
  · intro q hq
    have := I.row q hq
    simp only [Link.request, List.length_append, List.length_singleton]
    omega
  · intro a ha hop d hd
    obtain ⟨e, he, -⟩ := I.answer a (mem_unread_of_raw ha)
    have := hold he
    rw [hd, Option.some.injEq] at this
    subst this
    exact I.raw a ha hop d he
  · intro j d hj hm hl
    rcases hcases hj with hj | ⟨-, hp, hm'⟩
    · exact I.lock hj hm hl
    · rw [← hm', hm] at hp
      rw [hp] at hl
      cases hl

theorem acquire (I : Inv s) (i : ℕ) : Inv (s.acquire i) := by
  refine I.inPhase fun c hc hp => ?_
  split_ifs with hlock
  · refine I.moveCall hc (e := { c with phase := .unsent, sentGen := s.generation }) rfl rfl rfl rfl
      rfl (fun _ h => .inl h) (fun _ _ => le_rfl) (List.Sublist.refl _) (List.Subset.refl _)
      (fun hs => ?_) (fun _ _ => rfl) fun j _ h => ?_
    · have F := I.fate hc hs
      exact F.loop rfl fun _ => F.fresh (by rw [hp]; rfl)
    · rw [hlock] at h
      cases h
  · exact I

theorem notice (I : Inv s) (i : ℕ) (p : Phase) : Inv (s.notice i p) := by
  unfold Link.notice
  split_ifs with h
  · refine I.inPhase fun c hc hp => ?_
    have hloop : c.phase.looping := by
      rcases h.2 with h | h <;> rw [hp, h] <;> rfl
    exact I.setCall hc hloop rfl rfl fun hs => (I.fate hc hs).loop rfl fun h => by cases h
  · exact I

theorem stamp (I : Inv s) (i : ℕ) : Inv (s.stamp i) :=
  I.inPhase fun c hc hp => I.setCall hc (by rw [hp]; rfl) rfl rfl fun hs =>
    (I.fate hc hs).loop rfl fun h => by cases h

/-- A request is written for the first time since the call knows of no other. -/
theorem write (I : Inv s) (hc : s.calls[i]? = some c) (hp : c.phase = .unsent) {p : Phase}
    (hloop : p.looping) (hfresh : ¬ p.fresh) (hd : s'.daemon = s.daemon)
    (hq : s'.queued = s.queued) (hcalls : s'.calls = s.calls.set i { c with phase := p })
    (hlines : s'.lines = s.lines ++ [⟨s.generation, i, c.req⟩]) (hun : s'.unread = s.unread)
    (hraw : s'.raw = s.raw) (hlock : s'.roundtripLock = s.roundtripLock) : Inv s' := by
  have hflight : ∀ j, s'.inFlight j = s.inFlight j + if i = j then 1 else 0 := by
    intro j
    rw [inFlight, inFlight, hlines, List.countP_append, List.countP_singleton]
    simp
  refine I.moveCall hc (e := { c with phase := p }) rfl rfl hd hq hcalls (fun l hl => ?_)
    (fun j hj => ?_) (by rw [hun]) (by rw [hraw]; exact List.Subset.refl _) (fun hs => ?_)
    (fun hm _ => ?_) fun j _ h => by rw [hlock, h]
  · rw [hlines] at hl
    rcases List.mem_append.1 hl with hl | hl
    · exact .inl hl
    · rw [List.mem_singleton.1 hl]
      exact .inr ⟨rfl, rfl⟩
  · rw [hflight, if_neg (Ne.symm hj)]
    exact le_rfl
  · have F := I.fate hc hs
    obtain ⟨hl, ha, hr, hn⟩ := F.fresh (by rw [hp]; rfl)
    have ha' : s'.accepted i = 0 := by rw [accepted, hun, ← ha]; rfl
    have hr' : s'.refused c i = 0 := by rw [← hr, refused, refused, hun]
    rw [hflight, if_pos rfl, hl, ha', hr', hn]
    refine ⟨by omega, by omega, by omega, by omega, fun h => absurd h hfresh, ?_, ?_⟩
    · rintro r rfl
      cases hloop
    · rintro rfl
      cases hloop
  · rw [hlock]
    exact I.lock hc hm (by rw [hp]; rfl)

theorem sendall (I : Inv s) (i : ℕ) : Inv (s.sendall i) := by
  unfold Link.sendall
  split_ifs
  · exact I
  · exact I.inPhase fun c hc hp => I.write hc hp (p := .written) rfl (by simp [Phase.fresh]) rfl rfl
      rfl rfl rfl rfl rfl

theorem sendallRaises (I : Inv s) (i : ℕ) (whole : Bool) : Inv (s.sendallRaises i whole) := by
  refine I.inPhase fun c hc hp => ?_
  cases whole with
  | true =>
    exact I.write hc hp (p := .reconnecting) rfl (by simp [Phase.fresh]) rfl rfl rfl rfl rfl rfl rfl
  | false =>
    refine I.moveCall hc (e := { c with phase := .reconnecting }) rfl rfl rfl rfl rfl
      (fun _ h => .inl h) (fun _ _ => le_rfl) (List.Sublist.refl _) (List.Subset.refl _)
      (fun hs => (I.fate hc hs).loop rfl fun h => by cases h)
      (fun hm _ => I.lock hc hm (by rw [hp]; rfl)) fun _ _ h => h

/-- A send starts anew only when its first request has left no trace. -/
theorem resume (I : Inv s) (hd : s.Decided (.resume i)) : Inv (s.resume i) := by
  refine I.inPhase fun c hc hp => ?_
  split_ifs
  · refine I.setCall hc (by rw [hp]; rfl) rfl rfl fun hs => ?_
    have F := I.fate hc hs
    obtain ⟨⟨hl, hn⟩, hun⟩ := hd c hc hs
    refine F.loop rfl fun _ => ⟨hl, by have := F.accept; omega, ?_, hn⟩
    unfold refused
    split_ifs with hm
    · exact List.countP_eq_zero.2 fun a ha h => hun hm a ha (of_decide_eq_true h).1
    · rfl
  · exact I

theorem giveUp (I : Inv s) (hd : s.Decided (.giveUp i)) : Inv (s.giveUp i) :=
  I.inPhase fun c hc hp => I.raise hc (by rw [hp]; rfl) (hd c hc)

theorem timeout (I : Inv s) (hd : s.Decided (.timeout i)) : Inv (s.timeout i) :=
  I.inPhase fun c hc hp => I.raise hc (by rw [hp]; rfl) (hd c hc)

/-- A multiplexed call takes its mailbox with it. -/
theorem finish_accepted (s : Link) (hm : c.multiplex) (p : Phase) :
    (s.finish i c p).accepted i + s.mail.countP (fun a => a.id = i ∧ a.reply.op = "queued")
      = s.accepted i := by
  have hdrop : (s.mail.filter fun a => a.id ≠ i).countP (fun a => a.id = i ∧ a.reply.op = "queued")
      = 0 := List.countP_eq_zero.2 fun a ha h =>
    of_decide_eq_true (List.mem_filter.1 ha).2 (of_decide_eq_true h).1
  have hunread : (s.finish i c p).unread
      = s.answers ++ s.raw ++ s.mail.filter fun a => a.id ≠ i := by
    simp only [Link.finish, Link.setCall, if_pos hm, unread]
  rw [accepted, hunread, accepted, unread, List.countP_append, hdrop, Nat.add_zero,
    ← List.countP_append]

theorem getMail (I : Inv s) (hc : s.calls[i]? = some c) (hp : c.phase = .waiting)
    (hm : c.multiplex) : Inv (s.getMail i c) := by
  unfold Link.getMail
  split
  · exact I
  rename_i a hfind
  have hmem : a ∈ s.mail := List.mem_of_find?_eq_some hfind
  have hid : a.id = i := by simpa using List.find?_some hfind
  have hloop : c.phase.looping := by rw [hp]; rfl
  split_ifs with herr
  · refine I.raise hc hloop fun hs => ?_
    have F := I.fate hc hs
    have hpos : 0 < s.refused c i := by
      rw [refused, if_pos hm]
      exact List.countP_pos_iff.2 ⟨a, mem_unread_of_mail hmem, by simp [hid, herr]⟩
    have hf := F.flight
    have hr := F.refuse
    exact ⟨by omega, by omega⟩
  · refine I.finish hc hloop (by simp [Phase.looping]) fun hs => ?_
    have hop : a.reply.op = "queued" := by
      obtain ⟨d, hd, -, h⟩ := I.answer a (mem_unread_of_mail hmem)
      rw [hid, hc, Option.some.injEq] at hd
      exact (h (hd ▸ hs)).resolve_right herr
    have hpos : 0 < s.mail.countP fun a => a.id = i ∧ a.reply.op = "queued" :=
      List.countP_pos_iff.2 ⟨a, hmem, by simp [hid, hop]⟩
    have hsum := finish_accepted (i := i) s hm (.returned a.reply)
    exact (I.fate hc hs).take _ (by omega) (finish_refused_le s i c (.returned a.reply))

/-- The acceptance a legacy send finds is its own: whoever else it could belong to would hold the
lock. -/
theorem raw_own (I : Inv s) (hlock : s.roundtripLock = some i) {a : Answer} (ha : a ∈ s.raw)
    (hop : a.reply.op = "queued") : a.id = i := by
  obtain ⟨d, hd, -, hloop, -⟩ := I.of_accepted (mem_unread_of_raw ha) hop
  have := I.lock hd (I.raw a ha hop d hd) hloop
  exact Option.some.inj (this.symm.trans hlock)

theorem responseMap_send {req : Request} (h : req.isSend) : responseMap req.op = "queued" := by
  cases req with
  | send | sendfile => rfl
  | _ => cases h

theorem getRaw (I : Inv s) (hc : s.calls[i]? = some c) (hp : c.phase = .waiting)
    (hm : c.multiplex = false) : Inv (s.getRaw i c) := by
  have hloop : c.phase.looping := by rw [hp]; rfl
  have hlock := I.lock hc hm hloop
  unfold Link.getRaw
  split
  · exact I
  rename_i a rest hraw
  have hmem : a ∈ s.raw := by rw [hraw]; exact List.mem_cons_self
  -- the queue without its head
  have hrest : ∀ (b : Bool) (l : List Answer),
      Inv { s with raw := rest, multiplex := b, stash := l } := fun b l => by
    refine I.lose I.numbered rfl rfl rfl (List.Sublist.refl _) (fun p => ?_) fun d hd => ?_
    · refine List.Sublist.countP_le ?_
      rw [unread, unread, hraw]
      exact ((List.Sublist.refl _).append (List.sublist_cons_self a rest)).append
        (List.Sublist.refl _)
    · exact I.raw d (by rw [hraw]; exact List.mem_cons_of_mem a hd)
  dsimp only
  split_ifs with hop herr
  · exact hrest _ _
  · refine (hrest true s.stash).raise hc hloop fun hs => ?_
    rw [responseMap_send hs] at hop
    simp [herr] at hop
  · refine (hrest true s.stash).finish hc hloop (by simp [Phase.looping]) fun hs => ?_
    rw [responseMap_send hs, not_not] at hop
    have hid : a.id = i := I.raw_own hlock hmem hop
    set t : Link := { s with raw := rest, multiplex := true }
    have hunread : (t.finish i c (.returned a.reply)).unread = s.answers ++ rest ++ s.mail := by
      simp [Link.finish, hm, unread, t, Link.setCall]
    have hacc : (t.finish i c (.returned a.reply)).accepted i + 1 = s.accepted i := by
      rw [accepted, accepted, hunread, unread, hraw]
      simp [hid, hop]
      omega
    have href : (t.finish i c (.returned a.reply)).refused c i = 0 := by simp [refused, hm]
    rw [href]
    exact (I.fate hc hs).take _ (by omega) (Nat.zero_le _)

theorem get (I : Inv s) (i : ℕ) : Inv (s.get i) := by
  refine I.inPhase fun c hc hp => ?_
  split_ifs with hm
  · exact I.getMail hc hp hm
  · exact I.getRaw hc hp (Bool.not_eq_true _ ▸ hm)

/-! ### The reader and the daemon -/

/-- An answer changes its place; an acceptance of a multiplexed call finds the mailbox open. -/
theorem readline (I : Inv s) : Inv s.readline := by
  unfold Link.readline
  split_ifs
  swap
  · exact I
  split
  · exact I
  rename_i a rest hans
  have hmem : a ∈ s.unread := by simp [unread, hans]
  dsimp only
  split_ifs with hpend
  · refine I.lose I.numbered rfl rfl rfl (List.Sublist.refl _) (fun p => ?_) I.raw
    simp only [unread, hans, List.countP_append, List.countP_cons, List.countP_nil]
    omega
  · refine I.lose I.numbered rfl rfl rfl (List.Sublist.refl _) (fun p => ?_) fun d hd hop => ?_
    · simp only [unread, hans, List.countP_append, List.countP_cons, List.countP_nil]
      omega
    · rcases List.mem_append.1 hd with hd | hd
      · exact I.raw d hd hop
      · rw [List.mem_singleton] at hd
        subst hd
        obtain ⟨c, hc, -, hloop, -⟩ := I.of_accepted hmem hop
        intro e he
        rw [hc, Option.some.injEq] at he
        subst he
        by_contra hm
        refine hpend ?_
        simp [pending, hc, hloop, Bool.not_eq_false _ ▸ hm]

theorem closeSocket (I : Inv s) : Inv s.closeSocket := by
  unfold Link.closeSocket
  split_ifs
  · refine I.lose I.numbered rfl rfl rfl (List.Sublist.refl _) (fun p => ?_) I.raw
    simp only [unread, List.countP_append, List.countP_nil]
    omega
  · exact I

theorem eof (I : Inv s) : Inv s.eof := by
  unfold Link.eof
  split_ifs
  · exact I.lose I.numbered rfl rfl rfl (List.Sublist.refl _) (fun _ => le_rfl) I.raw
  · exact I

theorem connect (I : Inv s) : Inv s.connect := by
  unfold Link.connect
  split_ifs
  · exact I.lose I.numbered rfl rfl rfl (List.Sublist.refl _) (fun _ => le_rfl) I.raw
  · exact I

theorem clearWant (I : Inv s) : Inv s.clearWant := by
  unfold Link.clearWant
  split_ifs
  · exact I.lose I.numbered rfl rfl rfl (List.Sublist.refl _) (fun _ => le_rfl) I.raw
  · exact I

theorem dropLines (I : Inv s) (gen : ℕ) : Inv (s.dropLines gen) :=
  I.lose I.numbered rfl rfl rfl List.filter_sublist (fun _ => le_rfl) I.raw

theorem other (I : Inv s) (op : Op) : Inv { s with daemon := (s.daemon.step C op).1 } :=
  I.lose (I.numbered.step op) rfl rfl rfl (List.Sublist.refl _) (fun _ => le_rfl) I.raw

/-- The rows that a request brought. -/
theorem newRows {rows : List OutboxRow} {req : Request} {r : Reply} {d : Daemon}
    (h : Daemon.Answered rows req (r, d)) :
    (d.db.outbox.filter fun row => row ∉ rows).length = if r.op = "queued" then 1 else 0 := by
  have hold : rows.filter (fun row => row ∉ rows) = [] := List.filter_eq_nil_iff.2 fun row hrow => by
    simpa using hrow
  cases h with
  | other hop _ hout => rw [hout, hold, if_neg hop, List.length_nil]
  | queued hop _ hnew hout =>
    rw [hout, List.filter_append, hold, if_pos hop, List.nil_append, List.filter_singleton]
    simp [hnew]

/-- A line becomes a row, and perhaps an acceptance; or a refusal, or nothing. -/
theorem executed (I : Inv s) {l : Line} (hl : l ∈ s.lines) {r : Reply} {d : Daemon}
    (hd : d.Numbered) (hans : Daemon.Answered s.daemon.db.outbox l.req (r, d)) {as : List Answer}
    (has : as = s.answers ∨ as = s.answers ++ [⟨l.id, r⟩]) :
    Inv { s with
      daemon := d
      lines := s.lines.erase l
      answers := as
      queued := s.queued
        ++ (d.db.outbox.filter fun row => row ∉ s.daemon.db.outbox).map
          fun row => (l.id, row) } := by
  obtain ⟨c, hc, hreq⟩ := I.line l hl
  have hlen : l.id < s.calls.length := (List.getElem?_eq_some_iff.1 hc).1
  have hnew := newRows hans
  generalize d.db.outbox.filter (fun row => row ∉ s.daemon.db.outbox) = new at hnew ⊢
  set t : Link := { s with
    daemon := d
    lines := s.lines.erase l
    answers := as
    queued := s.queued ++ new.map fun row => (l.id, row) }
  have hflight : ∀ j, t.inFlight j = s.inFlight j - if l.id = j then 1 else 0 := by
    intro j
    simp only [t, inFlight, List.countP_erase, hl, true_and, decide_eq_true_eq]
  have hpos : 0 < s.inFlight l.id := List.countP_pos_iff.2 ⟨l, hl, by simp⟩
  have hrows : ∀ j, t.rows j = s.rows j + if l.id = j then new.length else 0 := by
    intro j
    simp only [t, rows, List.countP_append, List.countP_map, Function.comp_def]
    split_ifs with h <;> simp [h]
  have hcount : ∀ p : Answer → Bool, t.unread.countP p
      ≤ s.unread.countP p + if p ⟨l.id, r⟩ then 1 else 0 := by
    intro p
    simp only [t, unread]
    rcases has with rfl | rfl
    · exact Nat.le_add_right _ _
    · simp only [List.countP_append, List.countP_singleton]
      omega
  have hmem : ∀ a ∈ t.unread, a ∈ s.unread ∨ a = ⟨l.id, r⟩ := by
    intro a ha
    simp only [t, unread, List.mem_append] at ha ⊢
    rcases has with rfl | rfl
    · exact .inl ha
    · simp only [List.mem_append, List.mem_singleton] at ha
      tauto
  refine ⟨hd, ?_, ?_, ?_, ?_, I.raw, I.lock⟩
  · intro j e hj hs
    have F := I.fate hj hs
    have hacc : t.accepted j ≤ s.accepted j + if l.id = j ∧ r.op = "queued" then 1 else 0 := by
      simpa [accepted] using hcount fun a => a.id = j ∧ a.reply.op = "queued"
    have href : t.refused e j ≤ s.refused e j + if l.id = j ∧ r.op ≠ "queued" then 1 else 0 := by
      unfold refused
      split
      · simpa using hcount fun a => a.id = j ∧ a.reply.op ≠ "queued"
      · exact Nat.zero_le _
    rw [hflight, hrows, hnew]
    by_cases hjl : l.id = j
    · subst hjl
      by_cases hop : r.op = "queued"
      · simp only [hop, ne_eq, not_true_eq_false, and_false, and_self, if_true, if_false]
          at hacc href ⊢
        exact (F.queue hpos hacc).lose le_rfl le_rfl href
      · simp only [hop, ne_eq, not_false_eq_true, and_false, and_self, if_true, if_false]
          at hacc href ⊢
        exact (F.refusal hpos href).lose le_rfl hacc le_rfl
    · simp only [hjl, false_and, if_false] at hacc href ⊢
      exact F.lose le_rfl hacc href
  · intro l' hl'
    exact I.line l' (List.mem_of_mem_erase hl')
  · intro a ha
    rcases hmem a ha with ha | rfl
    · exact I.answer a ha
    · refine ⟨c, hc, ?_⟩
      rw [hreq]
      cases hans with
      | other hop herr _ => exact ⟨fun h => absurd h hop, fun h => .inr (herr h)⟩
      | queued hop hs _ _ => exact ⟨fun _ => hs, fun _ => .inl hop⟩
  · intro q hq
    rcases List.mem_append.1 hq with hq | hq
    · exact I.row q hq
    · obtain ⟨row, -, rfl⟩ := List.mem_map.1 hq
      exact hlen

theorem exec (I : Inv s) (gen : ℕ) (now : ℤ) (persisted answered : Bool) :
    Inv (s.exec C gen now persisted answered) := by
  unfold Link.exec
  split
  · exact I
  rename_i l hfind
  obtain ⟨hd, hans⟩ := Daemon.dispatch_answered (C := C) I.numbered now persisted l.req
  refine I.executed (List.mem_of_find?_eq_some hfind) hd hans ?_
  split_ifs
  · exact .inr rfl
  · exact .inl rfl

theorem step (I : Inv s) {move : ClientMove} (hd : s.Decided move) : Inv (s.step C move) := by
  cases move with
  | request req => exact I.request req
  | acquire i => exact I.acquire i
  | notice i p => exact I.notice i p
  | sendall i => exact I.sendall i
  | sendallRaises i whole => exact I.sendallRaises i whole
  | stamp i => exact I.stamp i
  | resume i => exact I.resume hd
  | giveUp i => exact I.giveUp hd
  | timeout i => exact I.timeout hd
  | get i => exact I.get i
  | readline => exact I.readline
  | eof => exact I.eof
  | closeSocket => exact I.closeSocket
  | connect => exact I.connect
  | clearWant => exact I.clearWant
  | exec gen now persisted answered => exact I.exec gen now persisted answered
  | dropLines gen => exact I.dropLines gen
  | other op => exact I.other op

theorem exactlyOnce (I : Inv s) : s.ExactlyOnce := fun _ _ hc hs =>
  ⟨fun r hr => ((I.fate hc hs).returned r hr).2.2.2, fun hr => ((I.fate hc hs).raised hr).2⟩

theorem run {d : Daemon} (h : d.Numbered) {moves : List ClientMove}
    (hd : ∀ k move, moves[k]? = some move → (Link.run C d (moves.take k)).Decided move) (k : ℕ) :
    Inv (Link.run C d (moves.take k)) :=
  Runs.invariant (Link.step C) _ moves (init h) (fun k move hk ih => ih.step (hd k move hk)) k

end Inv

/-- Over a daemon to which anything may have happened before. -/
theorem sends_exactly_once (C : Config) (ops : List Op) (moves : List ClientMove)
    (hd : ∀ k move, moves[k]? = some move →
      (run C (Daemon.run C {} ops).1 (moves.take k)).Decided move) (k : ℕ) :
    (run C (Daemon.run C {} ops).1 (moves.take k)).ExactlyOnce := by
  have hn : (Daemon.run C {} ops).1.Numbered := Daemon.Numbered.run ops fun r hr => by cases hr
  exact (Inv.run hn hd k).exactlyOnce

/-- The connection breaks before anything was written, comes back, and the send succeeds. -/
theorem sends_exactly_once_reconnect :
    let C : Config := ⟨10, 0, 30000000000, 0, 65555⟩
    let req : Request := .send (Hex.encode (List.replicate 32 7)) ['a', 'G', 'k', '=']
    let moves : List ClientMove := [.request req, .acquire 0, .sendallRaises 0 false, .closeSocket,
      .connect, .clearWant, .resume 0, .sendall 0, .stamp 0, .exec 2 0 true true, .readline, .get 0]
    (run C {} moves).calls.map (·.phase)
        = [.returned (.queued (Hex.encode (List.replicate 32 7)) 1 2)]
      ∧ (run C {} moves).ExactlyOnce := by
  intro C req moves
  refine ⟨by decide +kernel, ?_⟩
  refine sends_exactly_once C [] moves (fun k move hk => ?_) 12
  have hlt : k < 12 := (List.getElem?_eq_some_iff.1 hk).1
  interval_cases k <;> cases hk <;> try trivial
  refine fun c _ _ => ⟨⟨by decide +kernel, by decide +kernel⟩, fun _ a ha => ?_⟩
  have hnone : (run C {} (moves.take 6)).unread = [] := by decide +kernel
  exact absurd (hnone ▸ ha) List.not_mem_nil

/-- The daemon executes a send and stops before it answers.  If it comes back, the send is sent
again and queues a second row; if it does not, the send raises and has its row. -/
theorem sends_not_exactly_once :
    let C : Config := ⟨10, 0, 30000000000, 0, 65555⟩
    let req : Request := .send (Hex.encode (List.replicate 32 7)) ['a', 'G', 'k', '=']
    let lost : List ClientMove := [.request req, .acquire 0, .sendall 0, .stamp 0,
      .exec 1 0 true false, .eof, .notice 0 .waiting, .closeSocket]
    let again : List ClientMove := [.other .restart, .connect, .clearWant, .resume 0, .sendall 0,
      .stamp 0, .exec 2 0 true true, .readline, .get 0]
    ¬ (run C {} (lost ++ again)).ExactlyOnce ∧ ¬ (run C {} (lost ++ [.giveUp 0])).ExactlyOnce := by
  intro C req lost again
  constructor
  · intro h
    have hc : (run C {} (lost ++ again)).calls[0]?
        = some ⟨req, false, .returned (.queued (Hex.encode (List.replicate 32 7)) 2 2), 2⟩ := by
      decide +kernel
    have hrows : (run C {} (lost ++ again)).rows 0 = 2 := by decide +kernel
    have := (h 0 _ hc rfl).1 _ rfl
    omega
  · intro h
    have hc : (run C {} (lost ++ [.giveUp 0])).calls[0]? = some ⟨req, false, .raised, 1⟩ := by
      decide +kernel
    have hrows : (run C {} (lost ++ [.giveUp 0])).rows 0 = 1 := by decide +kernel
    have := (h 0 _ hc rfl).2 rfl
    omega

end Link

end Aimless
