import Aimless.ApiSession
import Aimless.Proofs.ApiServer
import Aimless.Proofs.Multiplex

/-!
# What a call returns was executed once

The client and the server agree on what is under way on their connection (`Linked`): the lines that
were written are those that the handler has executed, one in hand if it has yet to be answered, and
those it has not read.  So each reply a call takes stands in the order in which the daemon executed
everything, next to the request of the call it belongs to, and there is one such place for a call.
-/

namespace Aimless

theorem callId_injective : Function.Injective callId := by
  intro i j h
  have hdigits := congrArg (Nat.ofDigitChars 10 · 0) (List.cons.inj h).2
  simp only [Nat.ofDigitChars_ten_toDigits] at hdigits
  omega

/-! ### The client's moves -/

namespace Talk

variable {t t' : Talk} {m : TalkMove}

/-- What a call is made with. -/
def made (t : Talk) : List (Request × Bool) := t.link.calls.map fun c => (c.req, c.multiplex)

theorem made_set {calls : List Call} {i : ℕ} {c e : Call} (hc : calls[i]? = some c)
    (he : (e.req, e.multiplex) = (c.req, c.multiplex)) :
    (calls.map fun c => (c.req, c.multiplex))
      <+: (calls.set i e).map fun c => (c.req, c.multiplex) := by
  obtain ⟨hlt, rfl⟩ := List.getElem?_eq_some_iff.1 hc
  have hset : (calls.set i e).map (fun c => (c.req, c.multiplex))
      = calls.map fun c => (c.req, c.multiplex) := by
    rw [List.map_set, he]
    refine List.ext_getElem (by simp) fun n h h' => ?_
    rw [List.getElem_set]
    split_ifs with hn
    · subst hn
      rw [List.getElem_map]
    · rfl
  rw [hset]

/-- Calls are added and never changed. -/
theorem Moved.made (h : Moved t m t') : t.made <+: t'.made := by
  unfold Talk.made
  cases h with
  | requested req c =>
    dsimp only
    rw [List.map_append]
    exact List.prefix_append _ _
  | acquired i c hc => exact made_set hc rfl
  | wrote i c hc => exact made_set hc rfl
  | stamped i c hc => exact made_set hc rfl
  | gaveUp i c hc =>
    rw [finish_calls]
    exact made_set hc rfl
  | tookMail i c a hc =>
    rw [finish_calls]
    exact made_set hc rfl
  | tookRaw i c a rest hc =>
    rw [finish_calls]
    exact made_set hc rfl
  | read =>
    dsimp only
    split_ifs <;> exact List.prefix_rfl
  | idle | expired | putAside | discarded | answered => exact List.prefix_rfl

/-- The lines and the replies of a move that is not the daemon's. -/
theorem Moved.lines (h : Moved t m t') (hm : ∀ i r, m ≠ .answer i r) : t'.given = t.given
    ∧ (t'.link.lines = t.link.lines ∨ ∃ l c, t'.link.lines = t.link.lines ++ [l]
      ∧ t.link.calls[l.id]? = some c ∧ l.req = c.req) := by
  cases h with
  | wrote i c hc => exact ⟨rfl, .inr ⟨_, c, rfl, hc, rfl⟩⟩
  | gaveUp i c | tookMail i c a | tookRaw i c a =>
    exact ⟨rfl, .inl (finish_same _ _ _ _).2.1⟩
  | read =>
    refine ⟨rfl, .inl ?_⟩
    dsimp only
    split_ifs <;> rfl
  | answered l r => exact absurd rfl (hm _ _)
  | idle | requested | acquired | stamped | expired | putAside | discarded => exact ⟨rfl, .inl rfl⟩

/-- What multiplexed calls took is their own. -/
def Own (t : Talk) : Prop :=
  ∀ i a, (i, a) ∈ t.took → ∀ c, t.link.calls[i]? = some c → c.multiplex = true → a.id = i

theorem Own.step (O : t.Own) (I : t.Inv) (h : Moved t m t') : t'.Own := by
  have hold : ∀ i a, (i, a) ∈ t.took → ∀ d, t'.link.calls[i]? = some d → d.multiplex = true →
      a.id = i := by
    intro i a ha d hd hmult
    obtain ⟨-, c, hc, -⟩ := I.took i a ha
    obtain ⟨d', hd', hlater⟩ := h.later hc
    obtain rfl : d = d' := Option.some.inj (hd.symm.trans hd')
    exact O i a ha c hc (hlater.multiplex.symm.trans hmult)
  cases h with
  | tookMail i c a hc hp hm ha hid =>
    rintro j b hb d hd hmult
    rcases List.mem_append.1 hb with hb | hb
    · exact hold j b hb d hd hmult
    · obtain ⟨rfl, rfl⟩ := Prod.mk.inj (List.mem_singleton.1 hb)
      exact hid
  | tookRaw i c a rest hc hp hm =>
    rintro j b hb d hd hmult
    rcases List.mem_append.1 hb with hb | hb
    · exact hold j b hb d hd hmult
    · obtain ⟨rfl, rfl⟩ := Prod.mk.inj (List.mem_singleton.1 hb)
      rw [finish_calls] at hd
      obtain rfl := Option.some.inj
        (hd.symm.trans (List.getElem?_set_self (List.getElem?_eq_some_iff.1 hc).1))
      rw [hm] at hmult
      cases hmult
  | read => exact hold
  | idle | requested | acquired | wrote | stamped | expired | gaveUp | putAside | discarded
  | answered => exact hold

end Talk

/-! ### The server's moves -/

namespace ApiSession

variable {C : Config} {k : ℕ} {s : ApiServer} {c : Conn} {m : ServerMove}

/-- The connections differ in the events they show and in whether they are registered, at most. -/
structure Alike (c c' : Conn) : Prop where
  running : c'.running = c.running
  alive : c'.alive = c.alive
  input : c'.input = c.input
  pending : c'.pending = c.pending
  seen : c'.seen = c.seen
  answers : c'.answers = c.answers

theorem Alike.refl (c : Conn) : Alike c c := ⟨rfl, rfl, rfl, rfl, rfl, rfl⟩

/-- What a move that is not its client's does to a connection, and writes to it. -/
inductive ConnMoved (C : Config) (c : Conn) : Option (Text × Reply) → Conn → Prop
  | same {c' : Conn} (h : Alike c c') : ConnMoved C c none c'
  | read {l : ApiLine} {input : List ApiLine} (hrun : c.running) (hnone : c.pending = none)
      (hin : c.input = l :: input) :
      ConnMoved C c none { c with input, seen := c.seen ++ [l], pending := l.routine C }
  | executed {f : Outside → Shared → Shared} {next : Outside → Shared → Routine ApiOut}
      (hp : c.pending = some (.step f next)) (o : Outside) (s : Shared) :
      ConnMoved C c none { c with pending := some (next o s) }
  | wrote {o : ApiOut} (hp : c.pending = some (.done o)) :
      ConnMoved C c (if c.alive then o.idReply? else none)
        (({ c with pending := none } : Conn).put o)

theorem getElem?_withConn {j : ℕ} {f : Conn → ApiServer}
    (hf : ∀ d, (f d).conns[k]? = s.conns[k]?) (hc : s.conns[k]? = some c) :
    (s.withConn j f).conns[k]? = some c := by
  unfold ApiServer.withConn
  split
  · exact hc
  · exact (hf _).trans hc

theorem conn_read (hc : s.conns[k]? = some c) :
    ∃ c', (s.read C k).conns[k]? = some c' ∧ ConnMoved C c none c' := by
  have hlt := (List.getElem?_eq_some_iff.1 hc).1
  simp only [ApiServer.read, ApiServer.withConn, hc]
  split_ifs with hready
  swap
  · exact ⟨c, hc, .same (Alike.refl c)⟩
  obtain ⟨hrun, hnone⟩ := hready
  rcases hin : c.input with _ | ⟨l, input⟩
  · exact ⟨c, hc, .same (Alike.refl c)⟩
  · exact ⟨_, List.getElem?_set_self hlt, .read hrun (Option.isNone_iff_eq_none.1 hnone) hin⟩

theorem conn_execute (hc : s.conns[k]? = some c) (o : Outside) :
    ∃ c', (s.execute k o).conns[k]? = some c' ∧ ConnMoved C c none c' := by
  have hlt := (List.getElem?_eq_some_iff.1 hc).1
  simp only [ApiServer.execute, ApiServer.withConn, hc]
  split
  · exact ⟨_, List.getElem?_set_self hlt, .executed ‹_› o s.shared⟩
  · exact ⟨c, hc, .same (Alike.refl c)⟩

theorem conn_write (hc : s.conns[k]? = some c) :
    ∃ c', (s.write k).conns[k]? = some c' ∧ ConnMoved C c (writes k s (.write k)) c' := by
  have hlt := (List.getElem?_eq_some_iff.1 hc).1
  simp only [writes, if_true, hc, Option.filter_some, ApiServer.write, ApiServer.withConn]
  have hwrites : (((if c.alive = true then some c else none).bind (·.pending)).bind
      Thread.value?).bind ApiOut.idReply?
      = if c.alive then (c.pending.bind Thread.value?).bind ApiOut.idReply? else none := by
    split_ifs <;> rfl
  rw [hwrites]
  rcases hp : c.pending.bind Thread.value? with _ | o
  · refine ⟨c, hc, ?_⟩
    rw [Option.bind_none, ite_self]
    exact .same (Alike.refl c)
  · obtain ⟨t, ht, hdone⟩ := Option.bind_eq_some_iff.1 hp
    obtain rfl := Thread.value?_eq_some.1 hdone
    exact ⟨_, List.getElem?_set_self hlt, .wrote ht⟩

theorem Alike.put (c : Conn) (e : Event) : Alike c (c.put (.event e)) := by
  unfold Conn.put
  split
  · exact ⟨rfl, rfl, rfl, rfl, rfl, by simp [Conn.answers, ApiOut.event?]⟩
  · exact Alike.refl c

theorem conn_broadcast (hc : s.conns[k]? = some c) :
    ∃ c', s.broadcast.conns[k]? = some c' ∧ Alike c c' := by
  unfold ApiServer.broadcast
  split
  · exact ⟨c, hc, Alike.refl c⟩
  rename_i e rest _
  by_cases hclosed : s.closed
  · simp only [hclosed, if_true]
    exact ⟨c, hc, Alike.refl c⟩
  · simp only [hclosed, Bool.false_eq_true, if_false, List.getElem?_map, hc, Option.map_some]
    refine ⟨_, rfl, ?_⟩
    split_ifs
    · exact Alike.put c e
    · exact Alike.refl c

theorem conn_step (hc : s.conns[k]? = some c) (hm : isClients k m = false) :
    ∃ c', (s.step C m).conns[k]? = some c' ∧ ConnMoved C c (writes k s m) c' := by
  have hlt := (List.getElem?_eq_some_iff.1 hc).1
  have hsame : (s.step C m).conns[k]? = some c → writes k s m = none →
      ∃ c', (s.step C m).conns[k]? = some c' ∧ ConnMoved C c (writes k s m) c' := by
    intro h hw
    rw [hw]
    exact ⟨c, h, .same (Alike.refl c)⟩
  cases m with
  | accept =>
    refine hsame ?_ rfl
    show (s.conns ++ _)[k]? = some c
    rw [List.getElem?_append_left hlt, hc]
  | line i l | finish i | hangUp i =>
    have hik : i ≠ k := by simpa [isClients] using hm
    exact hsame (getElem?_withConn (fun d => List.getElem?_set_ne hik) hc) rfl
  | packet sender data =>
    refine hsame ?_ rfl
    simp only [ApiServer.step, ApiServer.packet]
    split <;> exact hc
  | receive o =>
    refine hsame ?_ rfl
    simp only [ApiServer.step, ApiServer.receive]
    split <;> exact hc
  | other f => exact hsame hc rfl
  | read i =>
    by_cases hik : i = k
    · subst hik
      exact conn_read hc
    · refine hsame (getElem?_withConn (fun d => ?_) hc) rfl
      split_ifs
      · split
        · rfl
        · exact List.getElem?_set_ne hik
      · rfl
  | execute i o =>
    by_cases hik : i = k
    · subst hik
      exact conn_execute hc o
    · refine hsame (getElem?_withConn (fun d => ?_) hc) rfl
      split
      · exact List.getElem?_set_ne hik
      · rfl
  | write i =>
    by_cases hik : i = k
    · subst hik
      exact conn_write hc
    · refine hsame (getElem?_withConn (fun d => ?_) hc) (if_neg hik)
      split
      · rfl
      · exact List.getElem?_set_ne hik
  | broadcast =>
    obtain ⟨c', hc', hlike⟩ := conn_broadcast hc
    exact ⟨c', hc', .same hlike⟩
  | close => cases hm

/-! ### What is under way -/

/-- The connection at the server's end, against the client's records.  `done` are the lines that
were answered. -/
structure Linked (t : Talk) (c : Conn) (done : List Line) : Prop where
  lines : c.seen ++ c.input = (done ++ t.link.lines).map Line.api
  seen : c.seen.length = done.length + c.pending.toList.length
  given : t.given.map Answer.id = done.map Line.id
  answers : c.answers = t.given.map Answer.api
  pending : ∀ routine, c.pending = some routine → ∃ l rest, t.link.lines = l :: rest
    ∧ routine.Returns l.api.Answer
  reqs : ∀ l ∈ done ++ t.link.lines, (t.made[l.id]?).map Prod.fst = some l.req
  closed : c.alive = false → c.running = false ∧ c.pending = none

variable {t t' : Talk} {done : List Line}

theorem Linked.alike {c' : Conn} (L : Linked t c done) (h : Alike c c') : Linked t c' done where
  lines := by rw [h.seen, h.input, L.lines]
  seen := by rw [h.seen, h.pending, L.seen]
  given := L.given
  answers := by rw [h.answers, L.answers]
  pending := by rw [h.pending]; exact L.pending
  reqs := L.reqs
  closed := by rw [h.alive, h.running, h.pending]; exact L.closed

/-- The handler reads the first line that the client wrote and has no answer to. -/
theorem Linked.read {l : ApiLine} {input : List ApiLine} (L : Linked t c done)
    (hrun : c.running) (hnone : c.pending = none) (hin : c.input = l :: input) :
    Linked t { c with input, seen := c.seen ++ [l], pending := l.routine C } done := by
  have hlen : c.seen.length = (done.map Line.api).length := by
    rw [List.length_map, L.seen, hnone]
    rfl
  obtain ⟨hseen, hinput⟩ := List.append_inj (L.lines.trans List.map_append) hlen
  rw [hin] at hinput
  obtain ⟨line, rest, hlines, rfl, -⟩ := List.map_eq_cons_iff.1 hinput.symm
  have halive : ¬ c.alive = false := fun h => by
    rw [(L.closed h).1] at hrun
    cases hrun
  refine ⟨?_, ?_, L.given, L.answers, fun routine hr => ?_, L.reqs, fun h => absurd h halive⟩
  · rw [← L.lines, hin, List.append_assoc]
    rfl
  · rw [List.length_append, hlen, List.length_map]
    rfl
  · exact ⟨line, rest, hlines, ApiLine.routine_returns hr⟩

/-- The handler runs a section for the line in hand. -/
theorem Linked.executed {f : Outside → Shared → Shared} {next : Outside → Shared → Routine ApiOut}
    (L : Linked t c done) (hp : c.pending = some (.step f next)) (o : Outside) (s : Shared) :
    Linked t { c with pending := some (next o s) } done := by
  obtain ⟨l, rest, hl, hreturns⟩ := L.pending _ hp
  refine ⟨L.lines, ?_, L.given, L.answers, fun routine hr => ?_, L.reqs, fun h => ?_⟩
  · rw [L.seen, hp]
    rfl
  · cases hr
    exact ⟨l, rest, hl, hreturns o s⟩
  · rw [(L.closed h).2] at hp
    cases hp

theorem answerId_eq {l : Line} {rest : List Line} {r : Reply} (hl : t.link.lines = l :: rest)
    (hr : r.op = l.req.successOp ∨ r.op = "error") :
    t.answerId (callId l.id) r = t.step (.answer l.id r)
      ∧ t.step (.answer l.id r) = { t with
        link := { t.link with lines := rest, answers := t.link.answers ++ [⟨l.id, r⟩] }
        given := t.given ++ [⟨l.id, r⟩] } := by
  have htext : (l :: rest).find? (fun l' => callId l'.id = callId l.id) = some l :=
    List.find?_cons_of_pos (decide_eq_true rfl)
  have hid : (l :: rest).find? (fun l' => l'.id = l.id) = some l :=
    List.find?_cons_of_pos (decide_eq_true rfl)
  constructor
  · rw [Talk.answerId, hl, htext]
    rfl
  · show t.answer l.id r = _
    rw [Talk.answer, hl, hid]
    dsimp only
    rw [if_pos hr, List.erase_cons_head]

/-- The handler's answer goes to the first line. -/
theorem Linked.wrote {o : ApiOut} (L : Linked t c done) (hp : c.pending = some (.done o)) :
    ∃ l r, (if c.alive then o.idReply? else none) = some (callId l.id, r)
      ∧ t.answerId (callId l.id) r = t.step (.answer l.id r)
      ∧ Linked (t.step (.answer l.id r)) (({ c with pending := none } : Conn).put o)
        (done ++ [l]) := by
  obtain ⟨l, rest, hl, hreturns⟩ := L.pending _ hp
  obtain ⟨r, rfl, hr⟩ : ∃ r, o = .reply (callId l.id) r
      ∧ (r.op = l.req.successOp ∨ r.op = "error") := by
    cases hreturns with
    | request _ h => exact ⟨_, rfl, h⟩
  have halive : c.alive = true := by
    by_contra h
    rw [(L.closed (by simpa using h)).2] at hp
    cases hp
  obtain ⟨hid, hstep⟩ := answerId_eq hl hr
  refine ⟨l, r, by rw [halive]; rfl, hid, ?_⟩
  have hlines : done ++ t.link.lines = done ++ [l] ++ rest := by rw [hl, List.append_cons]
  rw [hstep, Conn.put]
  dsimp only
  rw [if_pos halive]
  refine ⟨?_, ?_, ?_, ?_, fun _ ho => ?_, ?_, fun h => ?_⟩
  · exact L.lines.trans (congrArg _ hlines)
  · rw [List.length_append, L.seen, hp]
    rfl
  · rw [List.map_append, L.given, List.map_append]
    rfl
  · have hanswers := L.answers
    unfold Conn.answers at hanswers ⊢
    rw [List.filter_append, hanswers, List.map_append]
    rfl
  · cases ho
  · intro l' hl'
    exact L.reqs l' (hlines ▸ hl')
  · exact absurd halive (by rw [h]; exact Bool.false_ne_true)

/-- A move of the client's own, with what it wrote on the connection. -/
theorem Linked.client {m : TalkMove} (L : Linked t c done) (h : Talk.Moved t m t')
    (hm : ∀ i r, m ≠ .answer i r) :
    Linked t' { c with input := c.input ++ (t'.link.lines.drop t.link.lines.length).map Line.api }
      done := by
  obtain ⟨hgiven, hlines⟩ := h.lines hm
  obtain ⟨new, hmade⟩ := h.made
  have hreqs : ∀ {i : ℕ} {req : Request}, (t.made[i]?).map Prod.fst = some req →
      (t'.made[i]?).map Prod.fst = some req := by
    intro i req hi
    obtain ⟨x, hx, rfl⟩ := Option.map_eq_some_iff.1 hi
    rw [← hmade, List.getElem?_append_left (List.getElem?_eq_some_iff.1 hx).1, hx]
    rfl
  have hold : t'.link.lines = t.link.lines ++ t'.link.lines.drop t.link.lines.length := by
    rcases hlines with hl | ⟨l, d, hl, -⟩ <;> simp [hl]
  refine ⟨?_, L.seen, by rw [hgiven, L.given], by rw [hgiven]; exact L.answers, ?_, ?_, L.closed⟩
  · rw [← List.append_assoc, L.lines, ← List.map_append, List.append_assoc, ← hold]
  · intro routine hr
    obtain ⟨l, rest, hl, hreturns⟩ := L.pending routine hr
    rw [hold, hl]
    exact ⟨l, _, rfl, hreturns⟩
  · intro l hl
    rcases hlines with heq | ⟨l', d, heq, hd, hreq⟩
    · rw [heq] at hl
      exact hreqs (L.reqs l hl)
    · rw [heq, ← List.append_assoc, List.mem_append, List.mem_singleton] at hl
      rcases hl with hl | rfl
      · exact hreqs (L.reqs l hl)
      · refine hreqs ?_
        rw [Talk.made, List.getElem?_map, hd, hreq]
        rfl

/-! ### Runs -/

/-- What holds of a session in every state. -/
structure Inv (k : ℕ) (s : ApiSession) : Prop where
  talk : s.talk.Inv
  own : s.talk.Own
  linked : ∃ c done, s.server.conns[k]? = some c ∧ Linked s.talk c done

theorem foldl_line (lines : List Line) : ∀ {srv : ApiServer} {c : Conn}, srv.conns[k]? = some c →
    (lines.foldl (fun srv l => srv.line k l.api) srv).conns[k]?
      = some { c with input := c.input ++ lines.map Line.api } := by
  induction lines with
  | nil =>
    intro srv c hc
    rw [List.map_nil, List.append_nil]
    exact hc
  | cons l lines ih =>
    intro srv c hc
    have hline : (srv.line k l.api).conns[k]? = some { c with input := c.input ++ [l.api] } := by
      simp only [ApiServer.line, ApiServer.withConn, hc]
      exact List.getElem?_set_self (List.getElem?_eq_some_iff.1 hc).1
    refine (ih hline).trans ?_
    rw [List.map_cons, List.append_assoc]
    rfl

theorem foldl_line_sound {record : List Moment} (lines : List Line) :
    ∀ {srv : ApiServer}, srv.Sound C record →
      (lines.foldl (fun srv l => srv.line k l.api) srv).Sound C record := by
  induction lines with
  | nil => exact fun h => h
  | cons l lines ih => exact fun h => ih (h.line k l.api)

theorem Inv.clientStep {s : ApiSession} (I : Inv k s) {m : TalkMove} (hm : ∀ i r, m ≠ .answer i r) :
    Inv k (s.step C k (.client m)) := by
  have hstep : s.step C k (.client m) =
      { server := ((s.talk.step m).link.lines.drop s.talk.link.lines.length).foldl
          (fun server l => server.line k l.api) s.server
        talk := s.talk.step m } := by
    cases m with
    | answer i r => exact absurd rfl (hm i r)
    | _ => rfl
  obtain ⟨c, done, hc, L⟩ := I.linked
  have hmove := Talk.moved I.talk.reading m
  rw [hstep]
  exact ⟨I.talk.step hmove, I.own.step I.talk hmove, _, done, foldl_line _ hc, L.client hmove hm⟩

theorem Inv.serverStep {s : ApiSession} (I : Inv k s) (m : ServerMove) :
    Inv k (s.step C k (.server m)) := by
  by_cases hm : isClients k m
  · have hstay : s.step C k (.server m) = s := if_pos hm
    rw [hstay]
    exact I
  obtain ⟨c, done, hc, L⟩ := I.linked
  obtain ⟨c', hc', hmoved⟩ := conn_step (C := C) hc (by simpa using hm)
  have hstep : s.step C k (.server m) = _ := if_neg hm
  rw [hstep]
  generalize writes k s.server m = w at hmoved
  cases hmoved with
  | same h => exact ⟨I.talk, I.own, _, done, hc', L.alike h⟩
  | read hrun hnone hin => exact ⟨I.talk, I.own, _, done, hc', L.read hrun hnone hin⟩
  | executed hp o srv => exact ⟨I.talk, I.own, _, done, hc', L.executed hp o srv⟩
  | wrote hp =>
    obtain ⟨l, r, hw, hid, hlinked⟩ := L.wrote hp
    rw [hw]
    dsimp only
    rw [hid]
    have hmove := Talk.moved I.talk.reading (.answer l.id r)
    exact ⟨I.talk.step hmove, I.own.step I.talk hmove, _, _, hc', hlinked⟩

theorem Inv.step {s : ApiSession} (I : Inv k s) (m : SessionMove) : Inv k (s.step C k m) := by
  cases m with
  | server m => exact I.serverStep m
  | client m =>
    by_cases hm : ∃ i r, m = .answer i r
    · obtain ⟨i, r, rfl⟩ := hm
      exact I
    · exact I.clientStep fun i r h => hm ⟨i, r, h⟩

theorem sound_step {s : ApiSession} {record : List Moment} (h : s.server.Sound C record)
    (m : SessionMove) :
    ∃ record', record <+: record' ∧ (s.step C k m).server.Sound C record' := by
  cases m with
  | client m =>
    refine ⟨record, List.prefix_rfl, ?_⟩
    cases m with
    | answer => exact h
    | _ => exact foldl_line_sound _ h
  | server m =>
    simp only [step]
    split
    · exact ⟨record, List.prefix_rfl, h⟩
    · exact h.step m

/-- On connection `k` the request with this id was executed, and came to `r`. -/
def CameTo (C : Config) (k : ℕ) (record : List Moment) (id : Text) (req : Request) (r : Reply) :
    Prop :=
  ∃ j ∈ handled record k, j.task = .request id req
    ∧ j.Left (ApiLine.routine C) (.done (.reply id r))

/-- What happened at the server, against the calls of the client on connection `k`. -/
structure Linear (C : Config) (k : ℕ) (s : ApiSession) (record : List Moment) : Prop where
  serves : s.server.Serves C record
  ofCall : ∀ j ∈ handled record k, ∃ i c, s.talk.link.calls[i]? = some c
    ∧ j.task = .request (callId i) c.req
  once : (handled record k).Pairwise fun j j' => j.task ≠ j'.task
  took : ∀ i a, (i, a) ∈ s.talk.took → ∃ c, s.talk.link.calls[a.id]? = some c
    ∧ CameTo C k record (callId a.id) c.req a.reply
  returned : ∀ i c r, s.talk.link.calls[i]? = some c → c.multiplex = true → c.phase = .returned r →
    CameTo C k record (callId i) c.req r
  raised : ∀ i c, s.talk.link.calls[i]? = some c → c.multiplex = true → c.phase = .raised →
    i ∈ s.talk.timedOut ∨ ∃ e, CameTo C k record (callId i) c.req (.error e)

theorem Linked.call (L : Linked t c done) {l : Line} (hl : l ∈ done ++ t.link.lines) :
    ∃ d, t.link.calls[l.id]? = some d ∧ l.req = d.req := by
  have hreq := L.reqs l hl
  rw [Talk.made, List.getElem?_map, Option.map_map] at hreq
  obtain ⟨d, hd, heq⟩ := Option.map_eq_some_iff.1 hreq
  exact ⟨d, hd, heq.symm⟩

/-- The jobs of the handler are the lines that were read, in order. -/
theorem Linked.jobs {record : List Moment} {announced : List Event} (L : Linked t c done)
    (S : c.Served C (handled record k) announced) :
    (handled record k).map (·.task) <+: (done ++ t.link.lines).map Line.api := by
  have hseen : c.seen <+: (done ++ t.link.lines).map Line.api := ⟨_, L.lines⟩
  have hall : c.seen.filter (fun l => !l.isBlank) = c.seen := by
    refine List.filter_eq_self.2 fun l hl => ?_
    obtain ⟨line, -, rfl⟩ := List.mem_map.1 (hseen.subset hl)
    rfl
  rw [S.lines, hall]
  exact hseen

theorem Inv.nodup {s : ApiSession} (I : Inv k s) (L : Linked s.talk c done) :
    ((done ++ s.talk.link.lines).map Line.api).Nodup := by
  have hids : ((done ++ s.talk.link.lines).map Line.id).Nodup := by
    rw [List.map_append, ← L.given]
    exact List.nodup_append_comm.1 I.talk.sent
  refine hids.of_map.map_on fun x hx y hy h => ?_
  exact List.inj_on_of_nodup_map hids hx hy (callId_injective (ApiLine.request.inj h).1)

/-- Each reply that was given has its job. -/
theorem Inv.cameTo_of_given {s : ApiSession} (I : Inv k s) {record : List Moment}
    (h : s.server.Sound C record) {a : Answer} (ha : a ∈ s.talk.given) :
    ∃ d, s.talk.link.calls[a.id]? = some d ∧ CameTo C k record (callId a.id) d.req a.reply := by
  obtain ⟨c, done, hc, L⟩ := I.linked
  have S := h.conns k c hc
  obtain ⟨n, hn⟩ := List.mem_iff_getElem?.1 ha
  -- its line is the `n`th
  have hid : (done[n]?).map Line.id = some a.id := by
    rw [← List.getElem?_map, ← L.given, List.getElem?_map, hn]
    rfl
  obtain ⟨l, hl, hla⟩ := Option.map_eq_some_iff.1 hid
  -- and so is its job
  obtain ⟨lost, hleft, -⟩ := S.answers
  have hout : ((c.answers.map Thread.done ++ lost ++ c.pending.toList)[n]?)
      = some (Thread.done a.api : Routine ApiOut) := by
    rw [L.answers, List.append_assoc, List.map_map,
      List.getElem?_append_left (by simpa using (List.getElem?_eq_some_iff.1 hn).1),
      List.getElem?_map, hn]
    rfl
  obtain ⟨hlt, hget⟩ := List.getElem?_eq_some_iff.1 hout
  have hjob : n < (handled record k).length := hleft.length_eq ▸ hlt
  have hj := hleft.get hjob hlt
  simp only [List.get_eq_getElem, hget] at hj
  obtain ⟨rest, hrest⟩ := L.jobs S
  have htask : (handled record k)[n].task = l.api := by
    have hread := congrArg (·[n]?) hrest
    simp only [List.map_append] at hread
    rw [List.getElem?_append_left (by simpa using hjob),
      List.getElem?_append_left (by simpa using (List.getElem?_eq_some_iff.1 hl).1),
      List.getElem?_map, List.getElem?_map, List.getElem?_eq_getElem hjob, hl] at hread
    exact Option.some.inj hread
  obtain ⟨d, hd, hreq⟩ := L.call (List.mem_append_left _ (List.mem_of_getElem? hl))
  refine ⟨d, hla ▸ hd, _, List.getElem_mem hjob, ?_, hj⟩
  rw [htask, Line.api, hla, hreq]

theorem Inv.linear {s : ApiSession} (I : Inv k s) {record : List Moment}
    (h : s.server.Sound C record) : Linear C k s record := by
  obtain ⟨c, done, hc, L⟩ := I.linked
  have hjobs := L.jobs (h.conns k c hc)
  have hended : ∀ i c, s.talk.link.calls[i]? = some c → c.multiplex = true →
      Talk.isEnd c.phase = true → i ∈ s.talk.timedOut ∧ c.phase = .raised
        ∨ ∃ r, c.phase = Talk.endWith ⟨i, r⟩ ∧ CameTo C k record (callId i) c.req r := by
    intro i c hc hmult hend
    rcases I.talk.ended i c hc hend with hout | ⟨a, ha⟩
    · exact .inl hout
    obtain ⟨hgiven, d, hd, hphase⟩ := I.talk.took i a ha
    obtain rfl : c = d := Option.some.inj (hc.symm.trans hd)
    obtain rfl := I.own i a ha c hc hmult
    obtain ⟨d, hd, hcame⟩ := I.cameTo_of_given h hgiven
    obtain rfl : c = d := Option.some.inj (hc.symm.trans hd)
    exact .inr ⟨a.reply, hphase, hcame⟩
  refine ⟨h.serves, fun j hj => ?_, ?_, fun i a ha => ?_, fun i c r hc hmult hp => ?_,
    fun i c hc hmult hp => ?_⟩
  · obtain ⟨l, hl, heq⟩ := List.mem_map.1 (hjobs.subset (List.mem_map_of_mem hj))
    obtain ⟨d, hd, hreq⟩ := L.call hl
    exact ⟨l.id, d, hd, heq.symm.trans (by rw [Line.api, hreq])⟩
  · exact List.pairwise_map.1 ((I.nodup L).sublist hjobs.sublist)
  · exact I.cameTo_of_given h (I.talk.took i a ha).1
  · rcases hended i c hc hmult (by rw [hp]; rfl) with ⟨-, h⟩ | ⟨r', hr, hcame⟩
    · rw [hp] at h
      cases h
    · rw [hp, Talk.endWith] at hr
      split_ifs at hr
      cases hr
      exact hcame
  · rcases hended i c hc hmult (by rw [hp]; rfl) with ⟨hout, -⟩ | ⟨r', hr, hcame⟩
    · exact .inl hout
    · rw [hp, Talk.endWith] at hr
      split_ifs at hr with herr
      cases r' with
      | error e => exact .inr ⟨e, hcame⟩
      | _ => simp [Reply.op] at herr

theorem Inv.start (before : List ServerMove) :
    Inv (ApiServer.run C before).conns.length (ApiSession.start C before) := by
  refine ⟨Talk.Inv.init, nofun, _, [], List.getElem?_concat_length, ?_⟩
  split
  · exact ⟨rfl, rfl, rfl, rfl, nofun, nofun, fun _ => ⟨rfl, rfl⟩⟩
  · exact ⟨rfl, rfl, rfl, rfl, nofun, nofun, nofun⟩

theorem exists_sound (C : Config) (before : List ServerMove) :
    ∃ record, (ApiServer.run C before).Sound C record := by
  induction before using List.reverseRecOn with
  | nil => exact ⟨[], ApiServer.Sound.empty⟩
  | append_singleton before m ih =>
    obtain ⟨record, h⟩ := ih
    obtain ⟨record', -, h'⟩ := h.step m
    refine ⟨record', ?_⟩
    rw [ApiServer.run, List.foldl_append]
    exact h'

/-- In every run of a client at a server, with the calls, the server's other connections and the
packets interleaved in any way: in each state there is one order of everything that happened to the
daemon, which only grows, with at most one job in it for each call, and what a multiplexed call
returned or raised, its own deadline apart, is what the job of its own request came to. -/
theorem calls_executed_once (C : Config) (before : List ServerMove) (moves : List SessionMove) :
    ∃ record : ℕ → List Moment, ∀ n,
      Linear C (ApiServer.run C before).conns.length (run C before (moves.take n)) (record n)
        ∧ record n <+: record (n + 1) := by
  set k := (ApiServer.run C before).conns.length
  obtain ⟨record, hsound⟩ := exists_sound C before
  have hstep : ∀ (s : ApiSession) (r : List Moment) (m : SessionMove),
      Inv k s ∧ s.server.Sound C r →
      ∃ r', (Inv k (s.step C k m) ∧ (s.step C k m).server.Sound C r') ∧ r <+: r' := by
    rintro s r m ⟨I, h⟩
    obtain ⟨r', hpre, h'⟩ := sound_step (k := k) h m
    exact ⟨r', ⟨I.step m, h'⟩, hpre⟩
  obtain ⟨f, hf⟩ := Runs.exists_records (step C k) (start C before)
    (fun _ => List.prefix_rfl) ⟨Inv.start before, hsound.accept⟩ hstep moves
  exact ⟨f, fun n => ⟨(hf n).1.1.linear (hf n).1.2, (hf n).2⟩⟩

end ApiSession

end Aimless
