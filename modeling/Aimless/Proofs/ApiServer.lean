import Aimless.ApiServer
import Aimless.Lib.Runs
import Aimless.Proofs.Routines

/-!
# What the clients of a server see

The handlers of a server run section by section, and anything that has to do with the daemon may
come between two sections.  A `record` is all that happened to the daemon, in one order, with the
lines and packets where they were read.  In every run each section in it starts from the state that
the one before it left, the sections of a connection are those of the requests it sent, one request
after the other, and what is written for a request is what the handler returned after its sections
(`ApiServer.Serves`).  Between its replies a connection is shown the events of the packets, in their
order and without a gap, from when it was registered on.
-/

namespace Aimless

/-- A line or a packet is read, or a section run: by the handler of a connection, by the read loop,
or by another goroutine. -/
inductive Moment where
  | read (i : ℕ) (l : ApiLine)
  | executed (i : ℕ) (c : Section Shared Outside)
  | packet (sender : PublicKey) (data : Bytes)
  | received (c : Section Shared Outside)
  | other (before after : Shared)

namespace Moment

def change? : Moment → Option (Shared × Shared)
  | .executed _ c => some c.change
  | .received c => some c.change
  | .other before after => some (before, after)
  | _ => none

/-- The part that the handler of connection `i` has in it. -/
def ofConn (i : ℕ) : Moment → Option (ApiLine ⊕ Section Shared Outside)
  | .read j l => if j = i then some (.inl l) else none
  | .executed j c => if j = i then some (.inr c) else none
  | _ => none

/-- The part that the read loop has in it. -/
def ofReader : Moment → Option ((PublicKey × Bytes) ⊕ Section Shared Outside)
  | .packet sender data => some (.inl (sender, data))
  | .received c => some (.inr c)
  | _ => none

end Moment

/-- What the handler of connection `i` did. -/
def handled (record : List Moment) (i : ℕ) : List (Job ApiLine Shared Outside) :=
  Job.jobs (record.filterMap (Moment.ofConn i))

/-- What the read loop did. -/
def taken (record : List Moment) : List (Job (PublicKey × Bytes) Shared Outside) :=
  Job.jobs (record.filterMap Moment.ofReader)

def packetRoutine (C : Config) (p : PublicKey × Bytes) : Option (Routine (List Event)) :=
  some (Routine.handlePacket C p.1 p.2)

/-- An answer carries the id of its line; that to a request has the `op` of its success or is an
error. -/
inductive ApiLine.Answer : ApiLine → ApiOut → Prop
  | badJson (id : Text) : Answer (.badJson id) (.badJson id)
  | request (id : Text) {req : Request} {r : Reply} (h : r.op = req.successOp ∨ r.op = "error") :
      Answer (.request id req) (.reply id r)

def ApiOut.event? : ApiOut → Option Event
  | .event e => some e
  | _ => none

namespace Conn

/-- What a connection is to be shown of the events: those broadcast while it was registered. -/
def due (c : Conn) (announced : List Event) : List Event :=
  (announced.take (c.till.getD announced.length)).drop c.since

def events (c : Conn) : List Event := c.output.filterMap ApiOut.event?

def answers (c : Conn) : List ApiOut := c.output.filter fun o => o.event?.isNone

/-- A connection against the jobs of its handler: every line that is not empty is one, in order, and
what the jobs came to is what was answered, up to the one in hand; every event that is due is shown.
At a connection that is closed the writing breaks off. -/
structure Served (C : Config) (c : Conn) (jobs : List (Job ApiLine Shared Outside))
    (announced : List Event) : Prop where
  lines : jobs.map (·.task) = c.seen.filter fun l => !l.isBlank
  answers : ∃ lost, jobs.Forall₂ (Job.Left (ApiLine.routine C))
      (c.answers.map .done ++ lost ++ c.pending.toList) ∧ (c.alive → lost = [])
  events : c.events <+: c.due announced
  allEvents : c.alive → c.events = c.due announced

/-- The records of when a connection was registered. -/
structure Timed (c : Conn) (n : ℕ) (closed : Bool) : Prop where
  since_le : c.since ≤ c.till.getD n
  till_le : c.till.getD n ≤ n
  till_eq : c.till = none ↔ c.registered
  closed : closed → c.registered = false

end Conn

/-- `record` is what happened at the server, in one order.  A job of it that nothing came between is
a request that `dispatch` answers, or a packet that `handlePacket` handles; and where one section
settles a request, `dispatch` answers it in the state that this section found. -/
structure ApiServer.Serves (C : Config) (s : ApiServer) (record : List Moment) : Prop where
  order : Thread.Follows {} (record.filterMap Moment.change?) s.shared
  conns : ∀ (i : ℕ) (c : Conn), s.conns[i]? = some c → c.Served C (handled record i) s.announced
  packets : ∃ events : List (List Event),
    (taken record).Forall₂ (Job.Left (packetRoutine C)) (events.map .done ++ s.reader.toList)
      ∧ events.flatten = s.announced ++ s.announcing
  fits : ∀ i, ∀ j ∈ handled record i, ∀ out, j.Left (ApiLine.routine C) (.done out) →
    j.task.Answer out
  alone : ∀ i, ∀ j ∈ handled record i, ∀ id req r o before after, j.task = .request id req →
    j.Left (ApiLine.routine C) (.done (.reply id r)) → (∀ c ∈ j.sections, c.outside = o) →
    Thread.Follows before (j.sections.map Section.change) after →
    before.daemon.dispatch C o.now o.persisted req = (r, after.daemon)
  settled : ∀ i, ∀ j ∈ handled record i, ∀ id req r, j.task = .request id req → req.settled →
    j.Left (ApiLine.routine C) (.done (.reply id r)) →
    ∃ c ∈ j.sections, Routine.AnsweredIn C req c.outside c.before r
  packetAlone : ∀ j ∈ taken record, ∀ events o before after,
    j.Left (packetRoutine C) (.done events) → (∀ c ∈ j.sections, c.outside = o) →
    Thread.Follows before (j.sections.map Section.change) after →
    before.daemon.handlePacket C o.now j.task.1 j.task.2 = (after.daemon, events)

variable {C : Config}

/-! ### One job -/

theorem ApiLine.routine_returns {l : ApiLine} {t : Routine ApiOut} (h : l.routine C = some t) :
    t.Returns l.Answer := by
  cases l with
  | blank => cases h
  | badJson id =>
    cases h
    exact .badJson id
  | request id req =>
    cases h
    exact (Routine.dispatch_answers C req).bind fun r hr => .request id hr

theorem ApiLine.Answer.event? {l : ApiLine} {out : ApiOut} (h : l.Answer out) :
    out.event? = none := by
  cases h <;> rfl

theorem answer_of_left {j : Job ApiLine Shared Outside} {out : ApiOut}
    (h : j.Left (ApiLine.routine C) (.done out)) : j.task.Answer out := by
  obtain ⟨t, ht, hran⟩ := h
  exact hran.returns (ApiLine.routine_returns ht)

theorem alone_of_left {j : Job ApiLine Shared Outside} {id : Text} {req : Request} {r : Reply}
    {o : Outside} {before after : Shared} (htask : j.task = .request id req)
    (h : j.Left (ApiLine.routine C) (.done (.reply id r))) (ho : ∀ c ∈ j.sections, c.outside = o)
    (hfollows : Thread.Follows before (j.sections.map Section.change) after) :
    before.daemon.dispatch C o.now o.persisted req = (r, after.daemon) := by
  obtain ⟨t, ht, hran⟩ := h
  rw [htask] at ht
  cases ht
  have hrun := hran.run_eq rfl hfollows ho
  rw [Thread.run_bind, Thread.run_pure, Prod.mk.injEq, ApiOut.reply.injEq] at hrun
  have hdoes := Routine.does_dispatch (C := C) req o before
  rw [hrun.1.2, hrun.2] at hdoes
  exact hdoes.symm

theorem ApiLine.routine_decided {id : Text} {req : Request} {t : Routine ApiOut}
    (hreq : req.settled) (h : (ApiLine.request id req).routine C = some t) :
    t.Decided fun o s out => ∀ r, out = .reply id r → Routine.AnsweredIn C req o s r := by
  cases h
  refine (Routine.dispatch_decided C hreq).bind fun o s r hr => Thread.returns_pure fun r' heq => ?_
  cases heq
  exact hr

theorem settled_of_left {j : Job ApiLine Shared Outside} {id : Text} {req : Request} {r : Reply}
    (htask : j.task = .request id req) (hreq : req.settled)
    (h : j.Left (ApiLine.routine C) (.done (.reply id r))) :
    ∃ c ∈ j.sections, Routine.AnsweredIn C req c.outside c.before r := by
  obtain ⟨t, ht, hran⟩ := h
  rw [htask] at ht
  obtain ⟨c, hc, hanswer⟩ := hran.decided rfl (ApiLine.routine_decided hreq ht)
  exact ⟨c, hc, hanswer r rfl⟩

theorem packetAlone_of_left {j : Job (PublicKey × Bytes) Shared Outside} {events : List Event}
    {o : Outside} {before after : Shared} (h : j.Left (packetRoutine C) (.done events))
    (ho : ∀ c ∈ j.sections, c.outside = o)
    (hfollows : Thread.Follows before (j.sections.map Section.change) after) :
    before.daemon.handlePacket C o.now j.task.1 j.task.2 = (after.daemon, events) := by
  obtain ⟨t, ht, hran⟩ := h
  cases ht
  have hdoes := Routine.does_handlePacket (C := C) j.task.1 j.task.2 o before
  rw [hran.run_eq rfl hfollows ho] at hdoes
  exact (congrArg Prod.swap hdoes).symm

/-! ### One connection -/

namespace Conn

variable {c : Conn} {record : List (ApiLine ⊕ Section Shared Outside)}
  {jobs : List (Job ApiLine Shared Outside)} {announced : List Event} {closed : Bool}

theorem due_registered (ht : c.till = none) (hs : c.since ≤ announced.length) (e : Event) :
    c.due (announced ++ [e]) = c.due announced ++ [e] := by
  simp only [due, ht, Option.getD_none, List.take_length]
  exact List.drop_append_of_le_length hs

theorem due_unregistered {n : ℕ} (ht : c.till = some n) (hn : n ≤ announced.length) (e : Event) :
    c.due (announced ++ [e]) = c.due announced := by
  simp only [due, ht, Option.getD_some]
  rw [List.take_append_of_le_length hn]

/-- Being taken out of the set does not change what is due. -/
theorem due_unregister (h : c.Timed announced.length closed) :
    (c.unregister announced.length).due announced = c.due announced := by
  by_cases hr : c.registered
  · simp [due, unregister, hr, h.till_eq.mpr hr]
  · simp [due, unregister, hr]

/-- Only these fields count. -/
theorem Timed.same {n : ℕ} {c' : Conn} (h : c.Timed n closed) (hsince : c'.since = c.since)
    (htill : c'.till = c.till) (hregistered : c'.registered = c.registered) :
    c'.Timed n closed := by
  obtain ⟨since_le, till_le, till_eq, hclosed⟩ := h
  rw [← htill, ← hsince] at since_le
  rw [← htill] at till_le
  rw [← htill, ← hregistered] at till_eq
  rw [← hregistered] at hclosed
  exact ⟨since_le, till_le, till_eq, hclosed⟩

theorem Timed.unregister (h : c.Timed announced.length closed) (closed' : Bool) :
    (c.unregister announced.length).Timed announced.length closed' := by
  by_cases hr : c.registered
  · have hsince : c.since ≤ announced.length := h.since_le.trans h.till_le
    exact ⟨by simpa [Conn.unregister, hr], by simp [Conn.unregister, hr],
      by simp [Conn.unregister, hr], fun _ => rfl⟩
  · have htill : c.till ≠ none := fun ht => hr (h.till_eq.mp ht)
    exact ⟨by simpa [Conn.unregister, hr] using h.since_le,
      by simpa [Conn.unregister, hr] using h.till_le,
      by simpa [Conn.unregister, hr] using htill, fun _ => rfl⟩

theorem Served.unregister (h : c.Served C jobs announced) (ht : c.Timed announced.length closed) :
    (c.unregister announced.length).Served C jobs announced where
  lines := h.lines
  answers := h.answers
  events := by
    rw [due_unregister ht]
    exact h.events
  allEvents hal := by
    rw [due_unregister ht]
    exact h.allEvents hal

/-- What is written to a closed connection is lost. -/
theorem Served.write {o : ApiOut} (h : c.Served C jobs announced) (hp : c.pending = some (.done o))
    (ho : o.event? = none) :
    (({ c with pending := none } : Conn).put o).Served C jobs announced := by
  obtain ⟨lost, hlost, hnone⟩ := h.answers
  rw [hp] at hlost
  by_cases hal : c.alive
  · have hput : ({ c with pending := none } : Conn).put o
        = { c with pending := none, output := c.output ++ [o] } := by simp [put, hal]
    have hevents : ({ c with pending := none, output := c.output ++ [o] } : Conn).events
        = c.events := by simp [Conn.events, ho]
    have hall := h.allEvents hal
    rw [← hevents] at hall
    rw [hput]
    refine ⟨h.lines, ⟨[], ?_, fun _ => rfl⟩, hall ▸ List.prefix_rfl, fun _ => hall⟩
    rw [hnone hal] at hlost
    simpa [Conn.answers, ho] using hlost
  · have hput : ({ c with pending := none } : Conn).put o = { c with pending := none } := by
      simp [put, hal]
    rw [hput]
    refine ⟨h.lines, ⟨lost ++ [.done o], ?_, fun hal' => absurd hal' hal⟩, h.events,
      fun hal' => absurd hal' hal⟩
    simpa [Conn.answers] using hlost

theorem Served.blank (h : c.Served C jobs announced) (input : List ApiLine) :
    ({ c with input, seen := c.seen ++ [.blank], pending := c.pending } : Conn).Served C jobs
      announced := by
  refine ⟨?_, h.answers, h.events, h.allEvents⟩
  rw [h.lines, List.filter_append]
  simp [ApiLine.isBlank]

/-- The handler has read `l`, and has `t` to execute for it. -/
theorem Served.read {l : ApiLine} {t : Routine ApiOut} (h : c.Served C (Job.jobs record) announced)
    (hp : c.pending = none) (hl : l.isBlank = false) (ht : l.routine C = some t)
    (input : List ApiLine) :
    ({ c with input, seen := c.seen ++ [l], pending := some t } : Conn).Served C
      (Job.jobs (record ++ [.inl l])) announced := by
  obtain ⟨lost, hlost, hnone⟩ := h.answers
  rw [hp] at hlost
  refine ⟨?_, ⟨lost, ?_, hnone⟩, h.events, h.allEvents⟩
  · rw [Job.jobs_task, List.map_append, h.lines, List.filter_append]
    simp [hl]
  · simpa [Conn.answers] using Job.left_task hlost ht

/-- The handler runs a section. -/
theorem Served.execute {f : Outside → Shared → Shared} {next : Outside → Shared → Routine ApiOut}
    (h : c.Served C (Job.jobs record) announced) (hp : c.pending = some (.step f next))
    (o : Outside) (s : Shared) :
    ({ c with pending := some (next o s) } : Conn).Served C
      (Job.jobs (record ++ [.inr ⟨o, s, f o s⟩])) announced := by
  obtain ⟨lost, hlost, hnone⟩ := h.answers
  rw [hp] at hlost
  obtain ⟨hleft, htasks⟩ := Job.left_section hlost o s
  exact ⟨htasks.trans h.lines, ⟨lost, hleft, hnone⟩, h.events, h.allEvents⟩

theorem Served.close (h : c.Served C jobs announced) :
    ({ c with alive := false } : Conn).Served C jobs announced := by
  obtain ⟨lost, hlost, -⟩ := h.answers
  exact ⟨h.lines, ⟨lost, hlost, fun hal => absurd hal (by simp)⟩, h.events,
    fun hal => absurd hal (by simp)⟩

/-- What the handler has in hand when it ends is lost. -/
theorem Served.finish (h : c.Served C jobs announced) :
    ({ c with running := false, alive := false, pending := none } : Conn).Served C jobs
      announced := by
  obtain ⟨lost, hlost, -⟩ := h.answers
  refine ⟨h.lines, ⟨lost ++ c.pending.toList, ?_, fun hal => absurd hal (by simp)⟩, h.events,
    fun hal => absurd hal (by simp)⟩
  simpa [Conn.answers] using hlost

/-- A registered connection is shown the event that is broadcast, and to others it is not due. -/
theorem Served.broadcast (h : c.Served C jobs announced) (ht : c.Timed announced.length closed)
    (e : Event) :
    (if c.registered then c.put (.event e) else c).Served C jobs (announced ++ [e]) := by
  have hsince : c.since ≤ announced.length := ht.since_le.trans ht.till_le
  by_cases hr : c.registered
  · have hdue := due_registered (ht.till_eq.mpr hr) hsince e
    rw [if_pos hr]
    by_cases hal : c.alive
    · have hput : c.put (.event e) = { c with output := c.output ++ [.event e] } := by
        simp [put, hal]
      have hdue' : ({ c with output := c.output ++ [.event e] } : Conn).due (announced ++ [e])
          = c.due announced ++ [e] := hdue
      have hevents : ({ c with output := c.output ++ [.event e] } : Conn).events
          = c.events ++ [e] := by simp [Conn.events, ApiOut.event?]
      have hanswers : ({ c with output := c.output ++ [.event e] } : Conn).answers = c.answers := by
        simp [Conn.answers, ApiOut.event?]
      have hall := h.allEvents hal
      rw [hput]
      refine ⟨h.lines, ?_, ?_, fun _ => ?_⟩
      · rw [hanswers]
        exact h.answers
      · rw [hdue', hevents, hall]
      · rw [hdue', hevents, hall]
    · have hput : c.put (.event e) = c := by simp [put, hal]
      rw [hput]
      refine ⟨h.lines, h.answers, ?_, fun hal' => absurd hal' hal⟩
      rw [hdue]
      exact h.events.trans (List.prefix_append _ _)
  · obtain ⟨n, hn⟩ := Option.ne_none_iff_exists'.mp fun hnone => hr (ht.till_eq.mp hnone)
    have hle : n ≤ announced.length := by simpa [hn] using ht.till_le
    have hdue := due_unregistered hn hle e
    rw [if_neg hr]
    refine ⟨h.lines, h.answers, ?_, ?_⟩
    · rw [hdue]
      exact h.events
    · rw [hdue]
      exact h.allEvents

theorem Timed.broadcast (h : c.Timed announced.length closed) (e : Event) :
    c.Timed (announced ++ [e]).length closed := by
  have hsince := h.since_le
  have htill := h.till_le
  refine ⟨?_, ?_, h.till_eq, h.closed⟩
  · cases ht : c.till with
    | none =>
      rw [ht] at hsince
      simp only [Option.getD_none, List.length_append, List.length_singleton] at hsince ⊢
      omega
    | some n => simpa [ht] using hsince
  · cases ht : c.till with
    | none => simp
    | some n =>
      rw [ht] at htill
      simp only [Option.getD_some, List.length_append, List.length_singleton] at htill ⊢
      omega

end Conn

/-! ### The server -/

namespace ApiServer

/-- What a run keeps. -/
structure Sound (C : Config) (s : ApiServer) (record : List Moment) : Prop where
  order : Thread.Follows {} (record.filterMap Moment.change?) s.shared
  conns : ∀ (i : ℕ) (c : Conn), s.conns[i]? = some c → c.Served C (handled record i) s.announced
  packets : ∃ events : List (List Event),
    (taken record).Forall₂ (Job.Left (packetRoutine C)) (events.map .done ++ s.reader.toList)
      ∧ events.flatten = s.announced ++ s.announcing
  idle : s.reader ≠ none → s.announcing = []
  known : ∀ i, s.conns.length ≤ i → record.filterMap (Moment.ofConn i) = []
  timed : ∀ (i : ℕ) (c : Conn), s.conns[i]? = some c → c.Timed s.announced.length s.closed

variable {s : ApiServer} {record : List Moment} {i : ℕ} {c : Conn}

theorem Sound.serves (h : s.Sound C record) : s.Serves C record where
  order := h.order
  conns := h.conns
  packets := h.packets
  fits _ _ _ _ hleft := answer_of_left hleft
  alone _ _ _ _ _ _ _ _ _ htask hleft ho hfollows := alone_of_left htask hleft ho hfollows
  settled _ _ _ _ _ _ htask hreq hleft := settled_of_left htask hreq hleft
  packetAlone _ _ _ _ _ _ hleft ho hfollows := packetAlone_of_left hleft ho hfollows

theorem filterMap_snoc {α β : Type} (f : α → Option β) (l : List α) (a : α) :
    (l ++ [a]).filterMap f = l.filterMap f ++ (f a).toList := by
  rw [List.filterMap_append]
  cases h : f a <;> simp [h]

theorem handled_of_none {m : Moment} (h : m.ofConn i = none) :
    handled (record ++ [m]) i = handled record i := by
  rw [handled, filterMap_snoc, h, Option.toList_none, List.append_nil]
  rfl

theorem handled_of_some {m : Moment} {e : ApiLine ⊕ Section Shared Outside}
    (h : m.ofConn i = some e) :
    handled (record ++ [m]) i = Job.jobs (record.filterMap (Moment.ofConn i) ++ [e]) := by
  rw [handled, filterMap_snoc, h]
  rfl

theorem taken_of_none {m : Moment} (h : m.ofReader = none) :
    taken (record ++ [m]) = taken record := by
  rw [taken, filterMap_snoc, h, Option.toList_none, List.append_nil]
  rfl

theorem taken_of_some {m : Moment} {e : (PublicKey × Bytes) ⊕ Section Shared Outside}
    (h : m.ofReader = some e) :
    taken (record ++ [m]) = Job.jobs (record.filterMap Moment.ofReader ++ [e]) := by
  rw [taken, filterMap_snoc, h]
  rfl

/-- Connection `i` becomes `c'`, and the jobs of the others stay. -/
theorem conns_set {record' : List Moment} {c' : Conn}
    (h : ∀ (j : ℕ) (c : Conn), s.conns[j]? = some c → c.Served C (handled record j) s.announced)
    (hc : c'.Served C (handled record' i) s.announced)
    (hothers : ∀ j, j ≠ i → handled record' j = handled record j) :
    ∀ (j : ℕ) (c : Conn), (s.conns.set i c')[j]? = some c →
      c.Served C (handled record' j) s.announced := by
  intro j c hj
  by_cases hji : j = i
  · subst hji
    rw [List.getElem?_set_self'] at hj
    cases hold : s.conns[j]? with
    | none => simp [hold] at hj
    | some old =>
      rw [hold] at hj
      obtain rfl : c' = c := Option.some.inj hj
      exact hc
  · rw [List.getElem?_set_ne fun hij => hji hij.symm] at hj
    rw [hothers j hji]
    exact h j c hj

theorem timed_set {c' : Conn}
    (h : ∀ (j : ℕ) (c : Conn), s.conns[j]? = some c → c.Timed s.announced.length s.closed)
    (hc : c'.Timed s.announced.length s.closed) :
    ∀ (j : ℕ) (c : Conn), (s.conns.set i c')[j]? = some c →
      c.Timed s.announced.length s.closed := by
  intro j c hj
  rcases List.mem_or_eq_of_mem_set (List.mem_of_getElem? hj) with hmem | rfl
  · obtain ⟨k, hk⟩ := List.mem_iff_getElem?.mp hmem
    exact h k c hk
  · exact hc

/-- A move that concerns one connection and is no part of the record. -/
theorem Sound.setConn {c' : Conn} (h : s.Sound C record)
    (hc : c'.Served C (handled record i) s.announced)
    (ht : c'.Timed s.announced.length s.closed) : (s.setConn i c').Sound C record where
  order := h.order
  conns := conns_set h.conns hc fun _ _ => rfl
  packets := h.packets
  idle := h.idle
  known j hj := h.known j (by simpa [ApiServer.setConn] using hj)
  timed := timed_set h.timed ht

/-- A moment of the handler of connection `i`. -/
theorem Sound.moment {m : Moment} {c' : Conn} {shared : Shared} (h : s.Sound C record)
    (hi : s.conns[i]? = some c) (hothers : ∀ j, j ≠ i → m.ofConn j = none)
    (hreader : m.ofReader = none)
    (horder : Thread.Follows {} ((record ++ [m]).filterMap Moment.change?) shared)
    (hc : c'.Served C (handled (record ++ [m]) i) s.announced)
    (ht : c'.Timed s.announced.length s.closed) :
    ({ s.setConn i c' with shared } : ApiServer).Sound C (record ++ [m]) where
  order := horder
  conns := conns_set h.conns hc fun j hj => handled_of_none (hothers j hj)
  packets := by
    rw [taken_of_none hreader]
    exact h.packets
  idle := h.idle
  known j hj := by
    have hlen : s.conns.length ≤ j := by simpa [ApiServer.setConn] using hj
    have hij : j ≠ i := by
      rintro rfl
      exact absurd (List.getElem?_eq_some_iff.mp hi).1 (by omega)
    rw [filterMap_snoc, hothers j hij, h.known j hlen]
    rfl
  timed := timed_set h.timed ht

/-- A moment of the read loop or of another goroutine. -/
theorem Sound.apart {m : Moment} (h : s.Sound C record) (hm : ∀ j, m.ofConn j = none)
    {shared : Shared} {reader : Option (Routine (List Event))}
    (horder : Thread.Follows {} ((record ++ [m]).filterMap Moment.change?) shared)
    (hpackets : ∃ events : List (List Event),
      (taken (record ++ [m])).Forall₂ (Job.Left (packetRoutine C))
        (events.map .done ++ reader.toList) ∧ events.flatten = s.announced ++ s.announcing)
    (hidle : reader ≠ none → s.announcing = []) :
    ({ s with shared, reader } : ApiServer).Sound C (record ++ [m]) where
  order := horder
  conns j c hj := by
    rw [handled_of_none (hm j)]
    exact h.conns j c hj
  packets := hpackets
  idle := hidle
  known j hj := by
    rw [filterMap_snoc, hm j, h.known j hj]
    rfl
  timed := h.timed

theorem order_of_none {m : Moment} (h : s.Sound C record) (hm : m.change? = none) :
    Thread.Follows {} ((record ++ [m]).filterMap Moment.change?) s.shared := by
  rw [filterMap_snoc, hm, Option.toList_none, List.append_nil]
  exact h.order

theorem order_of_some {m : Moment} {shared : Shared} (h : s.Sound C record)
    (hm : m.change? = some (s.shared, shared)) :
    Thread.Follows {} ((record ++ [m]).filterMap Moment.change?) shared := by
  rw [filterMap_snoc, hm]
  exact h.order.snoc

/-- A connection that is accepted has had no job and is due nothing. -/
theorem served_accepted {n : ℕ} (h : s.Sound C record) (hn : n = s.conns.length) {c : Conn}
    (hseen : c.seen = []) (houtput : c.output = []) (hpending : c.pending = none)
    (hsince : c.since = s.announced.length) : c.Served C (handled record n) s.announced := by
  have hnone : handled record n = [] := by
    rw [handled, h.known n hn.ge]
    rfl
  have hdue : c.due s.announced = [] := by
    rw [Conn.due, hsince, List.drop_eq_nil_iff]
    exact List.length_take_le' _ _
  rw [hnone]
  exact ⟨by simp [hseen], ⟨[], by simp [Conn.answers, houtput, hpending], fun _ => rfl⟩,
    by simp [hdue, Conn.events, houtput], fun _ => by simp [hdue, Conn.events, houtput]⟩

theorem Sound.accept (h : s.Sound C record) : s.accept.Sound C record := by
  let c : Conn := if s.closed then
      ⟨false, false, false, [], none, [], [], s.announced.length, some s.announced.length⟩
    else { since := s.announced.length }
  have hserved : c.Served C (handled record s.conns.length) s.announced := by
    apply served_accepted h rfl <;> simp only [c] <;> split <;> rfl
  have htimed : c.Timed s.announced.length s.closed := by
    by_cases hclosed : s.closed
    · simp only [c, hclosed, if_true]
      exact ⟨le_rfl, le_rfl, by simp, fun _ => rfl⟩
    · simp only [c, hclosed, if_false, Bool.false_eq_true]
      exact ⟨le_rfl, le_rfl, by simp, fun hc => absurd hc (by simp)⟩
  have haccept : s.accept = { s with conns := s.conns ++ [c] } := rfl
  have hcases : ∀ (j : ℕ) (d : Conn), (s.conns ++ [c])[j]? = some d →
      s.conns[j]? = some d ∨ j = s.conns.length ∧ d = c := by
    intro j d hj
    rcases lt_trichotomy j s.conns.length with hlt | heq | hgt
    · rw [List.getElem?_append_left hlt] at hj
      exact .inl hj
    · subst heq
      rw [List.getElem?_concat_length] at hj
      exact .inr ⟨rfl, (Option.some.inj hj).symm⟩
    · rw [List.getElem?_eq_none (by simp; omega)] at hj
      exact absurd hj (by simp)
  rw [haccept]
  refine ⟨h.order, fun j d hj => ?_, h.packets, h.idle, fun j hj => h.known j ?_,
    fun j d hj => ?_⟩
  · rcases hcases j d hj with hold | ⟨rfl, rfl⟩
    · exact h.conns j d hold
    · exact hserved
  · simp only [List.length_append, List.length_singleton] at hj
    omega
  · rcases hcases j d hj with hold | ⟨rfl, rfl⟩
    · exact h.timed j d hold
    · exact htimed

theorem Sound.withConn {f : Conn → ApiServer} (h : s.Sound C record)
    (hf : ∀ c, s.conns[i]? = some c → (f c).Sound C record) :
    (s.withConn i f).Sound C record := by
  unfold ApiServer.withConn
  split
  · exact h
  · exact hf _ ‹_›

theorem ofConn_read_self (i : ℕ) (l : ApiLine) : (Moment.read i l).ofConn i = some (.inl l) :=
  if_pos rfl

theorem ofConn_executed_self (i : ℕ) (c : Section Shared Outside) :
    (Moment.executed i c).ofConn i = some (.inr c) := if_pos rfl

theorem Sound.read (h : s.Sound C record) (i : ℕ) :
    ∃ record', record <+: record' ∧ (s.read C i).Sound C record' := by
  unfold ApiServer.read ApiServer.withConn
  cases hi : s.conns[i]? with
  | none => exact ⟨record, List.prefix_rfl, h⟩
  | some c =>
    dsimp only
    split_ifs with hready
    swap
    · exact ⟨record, List.prefix_rfl, h⟩
    have hnone : c.pending = none := Option.isNone_iff_eq_none.mp hready.2
    have htimed := h.timed i c hi
    have hserved := h.conns i c hi
    rcases c.input with _ | ⟨l, input⟩
    · exact ⟨record, List.prefix_rfl, h⟩
    dsimp only
    by_cases hl : l.isBlank
    · cases l with
      | blank =>
        refine ⟨record, List.prefix_rfl, h.setConn ?_ (htimed.same rfl rfl rfl)⟩
        have hblank := hserved.blank input
        rw [hnone] at hblank
        exact hblank
      | badJson | request => cases hl
    · obtain ⟨t, ht⟩ : ∃ t, l.routine C = some t := by
        cases l with
        | blank => exact absurd rfl hl
        | badJson | request => exact ⟨_, rfl⟩
      refine ⟨record ++ [.read i l], List.prefix_append _ _, ?_⟩
      rw [ht]
      refine h.moment hi (fun j hj => if_neg hj.symm) rfl (order_of_none h rfl) ?_
        (htimed.same rfl rfl rfl)
      rw [handled_of_some (ofConn_read_self i l)]
      exact hserved.read hnone (by simpa using hl) ht input

theorem Sound.execute (h : s.Sound C record) (i : ℕ) (o : Outside) :
    ∃ record', record <+: record' ∧ (s.execute i o).Sound C record' := by
  unfold ApiServer.execute ApiServer.withConn
  cases hi : s.conns[i]? with
  | none => exact ⟨record, List.prefix_rfl, h⟩
  | some c =>
    dsimp only
    have htimed := h.timed i c hi
    split
    · rename_i f next hp
      refine ⟨record ++ [.executed i ⟨o, s.shared, f o s.shared⟩], List.prefix_append _ _, ?_⟩
      refine h.moment hi (fun j hj => if_neg hj.symm) rfl (order_of_some h rfl) ?_
        (htimed.same rfl rfl rfl)
      rw [handled_of_some (ofConn_executed_self i _)]
      exact (h.conns i c hi).execute hp o s.shared
    · exact ⟨record, List.prefix_rfl, h⟩

/-- What is left of a job is no event. -/
theorem pending_event (h : s.Sound C record) (hi : s.conns[i]? = some c) {o : ApiOut}
    (hp : c.pending = some (.done o)) : o.event? = none := by
  obtain ⟨lost, hlost, -⟩ := (h.conns i c hi).answers
  rw [hp] at hlost
  obtain ⟨-, j, -, -, hleft⟩ := Job.left_concat hlost
  exact (answer_of_left hleft).event?

theorem Sound.write (h : s.Sound C record) (i : ℕ) : (s.write i).Sound C record := by
  refine h.withConn fun c hi => ?_
  split
  · exact h
  · rename_i o hp
    obtain ⟨t, ht, hdone⟩ := Option.bind_eq_some_iff.mp hp
    obtain rfl := Thread.value?_eq_some.mp hdone
    have htimed := h.timed i c hi
    refine h.setConn ((h.conns i c hi).write ht (pending_event h hi ht)) ?_
    unfold Conn.put
    split <;> exact htimed.same rfl rfl rfl

theorem Sound.finish (h : s.Sound C record) (i : ℕ) : (s.finish i).Sound C record := by
  refine h.withConn fun c hi => h.setConn ?_ ?_
  · exact ((h.conns i c hi).unregister (h.timed i c hi)).finish
  · have htimed := (h.timed i c hi).unregister s.closed
    exact htimed.same rfl rfl rfl

theorem Sound.hangUp (h : s.Sound C record) (i : ℕ) : (s.hangUp i).Sound C record := by
  refine h.withConn fun c hi => h.setConn (h.conns i c hi).close ?_
  have htimed := h.timed i c hi
  exact htimed.same rfl rfl rfl

theorem Sound.line (h : s.Sound C record) (i : ℕ) (l : ApiLine) :
    (s.line i l).Sound C record := by
  refine h.withConn fun c hi => h.setConn ?_ ?_
  · have hserved := h.conns i c hi
    exact ⟨hserved.lines, hserved.answers, hserved.events, hserved.allEvents⟩
  · have htimed := h.timed i c hi
    exact htimed.same rfl rfl rfl

theorem Sound.packet (h : s.Sound C record) (sender : PublicKey) (data : Bytes) :
    ∃ record', record <+: record' ∧ (s.packet C sender data).Sound C record' := by
  unfold ApiServer.packet
  split_ifs with hready
  swap
  · exact ⟨record, List.prefix_rfl, h⟩
  refine ⟨record ++ [.packet sender data], List.prefix_append _ _, ?_⟩
  refine h.apart (fun _ => rfl) (order_of_none h rfl) ?_ fun _ => hready.2
  obtain ⟨events, hleft, hevents⟩ := h.packets
  rw [Option.isNone_iff_eq_none.mp hready.1, Option.toList_none, List.append_nil] at hleft
  refine ⟨events, ?_, hevents⟩
  rw [taken_of_some (e := .inl (sender, data)) rfl]
  exact Job.left_task hleft rfl

/-- The read loop comes to the events of its packet. -/
theorem Sound.announce {events : List Event} (h : s.Sound C record)
    (hr : s.reader = some (.done events)) :
    ({ s with reader := none, announcing := events } : ApiServer).Sound C record := by
  obtain ⟨before, hleft, hevents⟩ := h.packets
  refine ⟨h.order, h.conns, ⟨before ++ [events], ?_, ?_⟩, nofun, h.known, h.timed⟩
  · rw [hr] at hleft
    simpa using hleft
  · rw [List.flatten_append, hevents, h.idle (by rw [hr]; exact Option.some_ne_none _)]
    simp

theorem Sound.receive (h : s.Sound C record) (o : Outside) :
    ∃ record', record <+: record' ∧ (s.receive o).Sound C record' := by
  unfold ApiServer.receive
  split
  · exact ⟨record, List.prefix_rfl, h⟩
  · rename_i events hr
    exact ⟨record, List.prefix_rfl, h.announce hr⟩
  · rename_i f next hr
    obtain ⟨events, hleft, hevents⟩ := h.packets
    refine ⟨record ++ [.received ⟨o, s.shared, f o s.shared⟩], List.prefix_append _ _, ?_⟩
    refine h.apart (fun _ => rfl) (order_of_some h rfl) ⟨events, ?_, hevents⟩
      fun _ => h.idle (by rw [hr]; exact Option.some_ne_none _)
    rw [hr] at hleft
    rw [taken_of_some (e := .inr ⟨o, s.shared, f o s.shared⟩) rfl]
    exact (Job.left_section hleft o s.shared).1

theorem Sound.other (h : s.Sound C record) (f : Shared → Shared) :
    ({ s with shared := f s.shared } : ApiServer).Sound C
      (record ++ [.other s.shared (f s.shared)]) := by
  refine h.apart (fun _ => rfl) (order_of_some h rfl) ?_ h.idle
  rw [taken_of_none rfl]
  exact h.packets

theorem Sound.broadcast (h : s.Sound C record) : s.broadcast.Sound C record := by
  unfold ApiServer.broadcast
  cases hann : s.announcing with
  | nil => exact h
  | cons e rest =>
    have hcases : ∀ (j : ℕ) (c' : Conn), (if s.closed then s.conns
        else s.conns.map fun c => if c.registered then c.put (.event e) else c)[j]? = some c' →
        ∃ c, s.conns[j]? = some c ∧ c' = if c.registered then c.put (.event e) else c := by
      intro j c' hj
      by_cases hclosed : s.closed
      · rw [if_pos hclosed] at hj
        have hreg := (h.timed j c' hj).closed hclosed
        exact ⟨c', hj, by simp [hreg]⟩
      · rw [if_neg hclosed, List.getElem?_map, Option.map_eq_some_iff] at hj
        obtain ⟨c, hc, rfl⟩ := hj
        exact ⟨c, hc, rfl⟩
    obtain ⟨events, hleft, hevents⟩ := h.packets
    refine ⟨h.order, fun j c' hj => ?_, ⟨events, hleft, ?_⟩, fun hr => ?_, fun j hj => h.known j ?_,
      fun j c' hj => ?_⟩
    · obtain ⟨c, hc, rfl⟩ := hcases j c' hj
      exact (h.conns j c hc).broadcast (h.timed j c hc) e
    · rw [hevents, hann, List.append_assoc]
      rfl
    · exact absurd (hann ▸ h.idle hr) (List.cons_ne_nil _ _)
    · refine le_of_eq_of_le ?_ hj
      show s.conns.length = (if s.closed then s.conns else _).length
      split
      · rfl
      · rw [List.length_map]
    · obtain ⟨c, hc, rfl⟩ := hcases j c' hj
      have htimed := (h.timed j c hc).broadcast e
      simp only [Conn.put]
      split_ifs
      · exact htimed.same rfl rfl rfl
      · exact htimed
      · exact htimed

theorem Sound.close (h : s.Sound C record) : s.close.Sound C record := by
  unfold ApiServer.close
  split_ifs with hclosed
  · exact h
  have hcases : ∀ (j : ℕ) (c' : Conn),
      (s.conns.map (·.unregister s.announced.length))[j]? = some c' →
      ∃ c, s.conns[j]? = some c ∧ c' = c.unregister s.announced.length := by
    intro j c' hj
    rw [List.getElem?_map, Option.map_eq_some_iff] at hj
    obtain ⟨c, hc, rfl⟩ := hj
    exact ⟨c, hc, rfl⟩
  refine ⟨h.order, fun j c' hj => ?_, h.packets, h.idle, fun j hj => h.known j ?_,
    fun j c' hj => ?_⟩
  · obtain ⟨c, hc, rfl⟩ := hcases j c' hj
    exact (h.conns j c hc).unregister (h.timed j c hc)
  · simpa using hj
  · obtain ⟨c, hc, rfl⟩ := hcases j c' hj
    exact (h.timed j c hc).unregister true

/-- A move puts at most one moment behind the others. -/
theorem Sound.step (h : s.Sound C record) (m : ServerMove) :
    ∃ record', record <+: record' ∧ (s.step C m).Sound C record' := by
  have hstays : ∀ {s' : ApiServer}, s'.Sound C record →
      ∃ record', record <+: record' ∧ s'.Sound C record' :=
    fun h' => ⟨record, List.prefix_rfl, h'⟩
  cases m with
  | accept => exact hstays h.accept
  | line i l => exact hstays (h.line i l)
  | read i => exact h.read i
  | execute i o => exact h.execute i o
  | write i => exact hstays (h.write i)
  | finish i => exact hstays (h.finish i)
  | hangUp i => exact hstays (h.hangUp i)
  | packet sender data => exact h.packet sender data
  | receive o => exact h.receive o
  | broadcast => exact hstays h.broadcast
  | other f => exact ⟨_, List.prefix_append _ _, h.other f⟩
  | close => exact hstays h.close

theorem Sound.empty : ({} : ApiServer).Sound C [] :=
  ⟨rfl, nofun, ⟨[], .nil, rfl⟩, nofun, fun _ _ => rfl, nofun⟩

/-- Whatever the interleaving, there is in every state one order of all that happened to the daemon,
and the order only grows: the sections of each connection stand in it as those of its requests, one
request after the other, and each request is answered once, with what its handler came to after its
sections.  A connection is shown the events of the packets from when it was registered on. -/
theorem server_serves (C : Config) (moves : List ServerMove) :
    ∃ record : ℕ → List Moment, ∀ n,
      (ApiServer.run C (moves.take n)).Serves C (record n) ∧ record n <+: record (n + 1) := by
  have hstep : ∀ (s : ApiServer) (r : List Moment) (m : ServerMove), s.Sound C r →
      ∃ r', (s.step C m).Sound C r' ∧ r <+: r' := by
    intro s r m h
    obtain ⟨r', hpre, h'⟩ := h.step m
    exact ⟨r', h', hpre⟩
  obtain ⟨record, hrecord⟩ := Runs.exists_records (ApiServer.step C) {}
    (fun _ => List.prefix_rfl) Sound.empty hstep moves
  exact ⟨record, fun n => ⟨(hrecord n).1.serves, (hrecord n).2⟩⟩

end ApiServer

end Aimless
