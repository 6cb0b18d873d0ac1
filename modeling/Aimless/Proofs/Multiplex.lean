import Aimless.Multiplex
import Aimless.Proofs.DaemonClient

/-!
# When every call gets its own reply

A multiplexed call reads a mailbox that only its own reply is put into.  A legacy call reads a queue
that has the replies of all legacy calls, and those of multiplexed calls that gave up, and takes the
first one with the `op` it expects.  So replies go to their calls exactly as long as, whenever a
legacy call looks at a reply, the expected `op` tells its own reply from the others.
-/

namespace Aimless

namespace Talk

/-- How a call ends that takes a reply. -/
def endWith (a : Answer) : Phase := if a.reply.op = "error" then .raised else .returned a.reply

/-- What a step of an unbroken link does, with what it needs. -/
inductive Moved (t : Talk) : TalkMove → Talk → Prop
  | idle (m : TalkMove) (horderly : t.Orderly m) : Moved t m t
  | requested (req : Request) (c : Call) (hfresh : c.phase.fresh)
      (hloop : c.multiplex = false → c.phase.looping = false) :
      Moved t (.request req) { t with link := { t.link with calls := t.link.calls ++ [c] } }
  | acquired (i : ℕ) (c : Call) (hc : t.link.calls[i]? = some c) (hp : c.phase = .queueing)
      (hlock : t.link.roundtripLock = none) :
      Moved t (.acquire i) { t with link := { t.link with
        calls := t.link.calls.set i { c with phase := .unsent, sentGen := t.link.generation }
        roundtripLock := some i } }
  | wrote (i : ℕ) (c : Call) (hc : t.link.calls[i]? = some c) (hp : c.phase = .unsent) :
      Moved t (.sendall i) { t with link := { t.link with
        calls := t.link.calls.set i { c with phase := .written }
        lines := t.link.lines ++ [⟨t.link.generation, i, c.req⟩] } }
  | stamped (i : ℕ) (c : Call) (hc : t.link.calls[i]? = some c) (hp : c.phase = .written) :
      Moved t (.stamp i) { t with link := { t.link with
        calls := t.link.calls.set i { c with phase := .waiting, sentGen := t.link.generation } } }
  | expired (i : ℕ) (hloop : t.link.looping i) :
      Moved t (.expire i) { t with expired := t.expired ++ [i] }
  | gaveUp (i : ℕ) (c : Call) (hc : t.link.calls[i]? = some c) (hp : c.phase = .waiting)
      (hexp : i ∈ t.expired) :
      Moved t (.timeout i) { t with
        link := t.link.finish i c .raised, timedOut := t.timedOut ++ [i] }
  | tookMail (i : ℕ) (c : Call) (a : Answer) (hc : t.link.calls[i]? = some c)
      (hp : c.phase = .waiting) (hm : c.multiplex = true) (ha : a ∈ t.link.mail) (hid : a.id = i) :
      Moved t (.get i) { t with
        link := t.link.finish i c (endWith a), took := t.took ++ [(i, a)] }
  | tookRaw (i : ℕ) (c : Call) (a : Answer) (rest : List Answer) (hc : t.link.calls[i]? = some c)
      (hp : c.phase = .waiting) (hm : c.multiplex = false) (hraw : t.link.raw = a :: rest)
      (hop : a.reply.op = responseMap c.req.op) :
      Moved t (.get i) { t with
        link := ({ t.link with raw := rest, multiplex := true } : Link).finish i c (endWith a)
        took := t.took ++ [(i, a)] }
  | putAside (i : ℕ) (c : Call) (a : Answer) (rest : List Answer) (hc : t.link.calls[i]? = some c)
      (hp : c.phase = .waiting) (hm : c.multiplex = false) (hraw : t.link.raw = a :: rest)
      (hop : a.reply.op ≠ responseMap c.req.op) :
      Moved t (.get i) { t with
        link := { t.link with raw := rest, stash := t.link.stash ++ [a] } }
  | read (a : Answer) (rest : List Answer) (hans : t.link.answers = a :: rest) :
      Moved t .readline { t with
        link := if t.link.pending a.id then
            { t.link with answers := rest, mail := t.link.mail ++ [a] }
          else { t.link with answers := rest, raw := t.link.raw ++ [a] }
        arrived := if t.link.looping a.id ∧ t.expired.contains a.id = false then t.arrived ++ [a]
          else t.arrived }
  | discarded (a : Answer) (rest : List Answer) (hans : t.link.answers = a :: rest) :
      Moved t .discard { t with link := { t.link with answers := rest } }
  | answered (l : Line) (r : Reply) (hl : l ∈ t.link.lines) :
      Moved t (.answer l.id r) { t with
        link := { t.link with
          lines := t.link.lines.erase l, answers := t.link.answers ++ [⟨l.id, r⟩] }
        given := t.given ++ [⟨l.id, r⟩] }

variable {t : Talk} {i : ℕ} {c : Call}

/-- The link is in phase `p` of call `i`, or the step of that phase does nothing. -/
theorem inPhase_cases (s : Link) (i : ℕ) (p : Phase) (f : Call → Link) :
    s.inPhase i p f = s ∨ ∃ c, s.calls[i]? = some c ∧ c.phase = p ∧ s.inPhase i p f = f c := by
  unfold Link.inPhase
  split
  · exact .inl rfl
  · rename_i c hc
    split_ifs with hp
    · exact .inr ⟨c, hc, hp, rfl⟩
    · exact .inl rfl

theorem moved_get (t : Talk) (i : ℕ) : Moved t (.get i) (t.get i) := by
  unfold Talk.get Link.get Link.inPhase Link.takes
  cases hc : t.link.calls[i]? with
  | none =>
    simp only [Option.toList_none, List.map_nil, List.append_nil]
    exact .idle _ fun c a h => by rw [hc] at h; cases h
  | some c =>
    by_cases hp : c.phase = .waiting
    · simp only [hp, if_true]
      cases hm : c.multiplex with
      | true =>
        simp only [if_true, Link.getMail]
        cases hf : t.link.mail.find? fun a => a.id = i with
        | none =>
          simp only [Option.toList_none, List.map_nil, List.append_nil]
          refine .idle _ fun c' a h _ hm' => ?_
          rw [hc] at h
          cases h
          rw [hm] at hm'
          cases hm'
        | some a =>
          have hid : a.id = i := by simpa using List.find?_some hf
          have := Moved.tookMail i c a hc hp hm (List.mem_of_find?_eq_some hf) hid
          unfold endWith at this
          simp only [Option.toList_some, List.map_cons, List.map_nil]
          split_ifs at this ⊢ <;> exact this
      | false =>
        simp only [Bool.false_eq_true, if_false, Link.getRaw]
        cases hraw : t.link.raw with
        | nil =>
          simp only [List.head?_nil, Option.filter_none, Option.toList_none, List.map_nil,
            List.append_nil]
          exact .idle _ fun c' a _ _ _ h => by rw [hraw] at h; cases h
        | cons a rest =>
          by_cases hop : a.reply.op = responseMap c.req.op
          · have := Moved.tookRaw i c a rest hc hp hm hraw hop
            simp only [List.head?_cons, Option.filter_some, hop, ne_eq, not_true_eq_false, if_false,
              decide_true, if_true]
            unfold endWith at this
            rw [hop] at this
            split_ifs at this ⊢ <;> exact this
          · have := Moved.putAside i c a rest hc hp hm hraw hop
            simpa [hop, Option.filter] using this
    · simp only [hp, if_false, Option.toList_none, List.map_nil, List.append_nil]
      refine .idle _ fun c' a h hp' => ?_
      rw [hc] at h
      cases h
      exact absurd hp' hp

/-- Every step of an unbroken link is one of these. -/
theorem moved (hread : t.link.reader = .reading) (m : TalkMove) : Moved t m (t.step m) := by
  cases m with
  | request req =>
    unfold Talk.step
    dsimp only
    split_ifs
    · refine .requested req ⟨req, t.link.multiplex, if t.link.multiplex then .unsent else .queueing,
        t.link.generation⟩ ?_ fun hm => ?_
      · dsimp only
        split_ifs <;> rfl
      · dsimp only at hm ⊢
        rw [hm]
        rfl
    · exact .idle _ trivial
  | acquire i =>
    unfold Talk.step
    dsimp only
    rcases inPhase_cases t.link i .queueing fun c => if t.link.roundtripLock = none then
      { t.link.setCall i { c with phase := .unsent, sentGen := t.link.generation } with
        roundtripLock := some i } else t.link with h | ⟨c, hc, hp, h⟩
    · unfold Link.acquire
      rw [h]
      exact .idle _ trivial
    · unfold Link.acquire
      rw [h]
      split_ifs with hlock
      · exact .acquired i c hc hp hlock
      · exact .idle _ trivial
  | sendall i =>
    unfold Talk.step Link.sendall
    dsimp only
    rw [if_neg (by rw [hread]; decide)]
    rcases inPhase_cases t.link i .unsent fun c =>
      { t.link.setCall i { c with phase := .written } with
        lines := t.link.lines ++ [⟨t.link.generation, i, c.req⟩] } with h | ⟨c, hc, hp, h⟩
    · rw [h]
      exact .idle _ trivial
    · rw [h]
      exact .wrote i c hc hp
  | stamp i =>
    unfold Talk.step Link.stamp
    dsimp only
    rcases inPhase_cases t.link i .written fun c =>
      t.link.setCall i { c with phase := .waiting, sentGen := t.link.generation } with
      h | ⟨c, hc, hp, h⟩
    · rw [h]
      exact .idle _ trivial
    · rw [h]
      exact .stamped i c hc hp
  | expire i =>
    unfold Talk.step Talk.expire
    dsimp only
    split_ifs with h
    · exact .expired i h
    · exact .idle _ trivial
  | timeout i =>
    unfold Talk.step Talk.timeout
    dsimp only
    cases hc : t.link.calls[i]? with
    | none => exact .idle _ fun c h => by rw [hc] at h; cases h
    | some c =>
      dsimp only
      split_ifs with h
      · have hlink : t.link.timeout i = t.link.finish i c .raised := by
          simp [Link.timeout, Link.inPhase, hc, h.1]
        rw [hlink]
        exact .gaveUp i c hc h.1 (by simpa using h.2)
      · refine .idle _ fun c' hc' hp hexp => absurd ⟨?_, by simpa using hexp⟩ h
        rw [hc] at hc'
        cases hc'
        exact hp
  | get i => exact moved_get t i
  | readline =>
    unfold Talk.step Talk.readline
    dsimp only
    cases hans : t.link.answers with
    | nil => exact .idle _ trivial
    | cons a rest =>
      have := Moved.read a rest hans
      have hlink : t.link.readline = if t.link.pending a.id then
          { t.link with answers := rest, mail := t.link.mail ++ [a] }
          else { t.link with answers := rest, raw := t.link.raw ++ [a] } := by
        simp only [Link.readline, hread, if_true, hans]
        rfl
      rw [hlink]
      exact this
  | discard =>
    unfold Talk.step Talk.discard
    dsimp only
    cases hans : t.link.answers with
    | nil => exact .idle _ trivial
    | cons a rest =>
      dsimp only
      split_ifs
      · exact .discarded a rest hans
      · exact .idle _ trivial
  | answer i r =>
    unfold Talk.step Talk.answer
    dsimp only
    cases hf : t.link.lines.find? fun l => l.id = i with
    | none => exact .idle _ trivial
    | some l =>
      dsimp only
      split_ifs
      · have hid : l.id = i := by simpa using List.find?_some hf
        subst hid
        exact .answered l r (List.mem_of_find?_eq_some hf)
      · exact .idle _ trivial

/-! ### What every step keeps -/

section Finish

variable (s : Link) (i : ℕ) (c : Call) (p : Phase)

theorem finish_calls : (s.finish i c p).calls = s.calls.set i { c with phase := p } := by
  unfold Link.finish
  dsimp only
  split_ifs <;> rfl

theorem finish_same : (s.finish i c p).reader = s.reader ∧ (s.finish i c p).lines = s.lines
    ∧ (s.finish i c p).raw = s.raw := by
  unfold Link.finish
  dsimp only
  split_ifs <;> exact ⟨rfl, rfl, rfl⟩

end Finish

/-- The call has ended. -/
def isEnd : Phase → Bool
  | .returned _ => true
  | .raised => true
  | _ => false

theorem isEnd_endWith (a : Answer) : isEnd (endWith a) = true := by
  unfold endWith
  split_ifs <;> rfl

theorem looping_of_isEnd {p : Phase} (h : isEnd p = true) :
    p.looping = false ∧ p.fresh = false := by
  cases p <;> first | exact ⟨rfl, rfl⟩ | cases h

/-- What a call may have become: it keeps its path, what it wrote it has written, and once it has
ended it does not change. -/
structure Later (c d : Call) : Prop where
  multiplex : d.multiplex = c.multiplex
  fresh : c.phase.fresh = false → d.phase.fresh = false
  done : isEnd c.phase = true → d = c

theorem Later.refl (c : Call) : Later c c := ⟨rfl, id, fun _ => rfl⟩

theorem later_set {calls : List Call} {e : Call} (hc : calls[i]? = some c) (h : Later c e) {j : ℕ}
    {d : Call} (hd : calls[j]? = some d) : ∃ d', (calls.set i e)[j]? = some d' ∧ Later d d' := by
  by_cases hji : i = j
  · subst hji
    rw [hc] at hd
    cases hd
    exact ⟨e, List.getElem?_set_self (List.getElem?_eq_some_iff.1 hc).1, h⟩
  · exact ⟨d, by rw [List.getElem?_set_ne hji, hd], Later.refl d⟩

/-- A call of the list is the one that was set, or was there before. -/
theorem getElem?_set_cases {calls : List Call} {e : Call} {j : ℕ} {d : Call}
    (hd : (calls.set i e)[j]? = some d) : j = i ∧ d = e ∨ j ≠ i ∧ calls[j]? = some d := by
  by_cases hji : i = j
  · subst hji
    obtain ⟨hlt, rfl⟩ := List.getElem?_eq_some_iff.1 hd
    exact .inl ⟨rfl, by simp⟩
  · rw [List.getElem?_set_ne hji] at hd
    exact .inr ⟨Ne.symm hji, hd⟩

theorem getElem?_append_cases {calls : List Call} {e : Call} {j : ℕ} {d : Call}
    (hd : (calls ++ [e])[j]? = some d) : calls[j]? = some d ∨ d = e := by
  rcases Nat.lt_or_ge j calls.length with hj | hj
  · rw [List.getElem?_append_left hj] at hd
    exact .inl hd
  · rw [List.getElem?_append_right hj] at hd
    exact .inr (List.mem_singleton.1 (List.mem_of_getElem? hd))

variable {t' : Talk} {m : TalkMove}

theorem Moved.later (h : Moved t m t') {j : ℕ} {d : Call} (hd : t.link.calls[j]? = some d) :
    ∃ d', t'.link.calls[j]? = some d' ∧ Later d d' := by
  cases h with
  | idle => exact ⟨d, hd, Later.refl d⟩
  | requested =>
    refine ⟨d, ?_, Later.refl d⟩
    rw [List.getElem?_append_left (List.getElem?_eq_some_iff.1 hd).1]
    exact hd
  | acquired i c hc hp =>
    refine later_set hc ?_ hd
    refine ⟨rfl, fun h => ?_, fun h => ?_⟩ <;> rw [hp] at h <;> cases h
  | wrote i c hc hp | stamped i c hc hp =>
    refine later_set hc ?_ hd
    refine ⟨rfl, fun _ => rfl, fun h => ?_⟩
    rw [hp] at h
    cases h
  | gaveUp i c hc hp =>
    rw [finish_calls]
    refine later_set hc ?_ hd
    refine ⟨rfl, fun _ => rfl, fun h => ?_⟩
    rw [hp] at h
    cases h
  | tookMail i c a hc hp | tookRaw i c a _ hc hp =>
    rw [finish_calls]
    refine later_set hc ?_ hd
    refine ⟨rfl, fun _ => (looping_of_isEnd (isEnd_endWith a)).2, fun h => ?_⟩
    rw [hp] at h
    cases h
  | read =>
    refine ⟨d, ?_, Later.refl d⟩
    dsimp only
    split_ifs <;> exact hd
  | expired | putAside | discarded | answered => exact ⟨d, hd, Later.refl d⟩

/-- What holds in every state of an unbroken link: no id is on two lines or replies, every reply is
in one place, only a call that is under way has a mailbox, and a call that ended did so by a reply
or by its deadline. -/
structure Inv (t : Talk) : Prop where
  reading : t.link.reader = .reading
  lock : ∀ i c, t.link.calls[i]? = some c → c.multiplex = false → c.phase.looping →
    t.link.roundtripLock = some i
  sent : (t.link.lines.map Line.id ++ t.given.map Answer.id).Nodup
  written : ∀ i ∈ t.link.lines.map Line.id ++ t.given.map Answer.id,
    ∃ c, t.link.calls[i]? = some c ∧ c.phase.fresh = false
  unread : (t.link.unread.map Answer.id).Nodup
  given : ∀ a ∈ t.link.unread, a ∈ t.given
  mail : ∀ a ∈ t.link.mail, ∃ c, t.link.calls[a.id]? = some c ∧ c.multiplex = true
    ∧ c.phase.looping
  arrived : ∀ a ∈ t.arrived, a ∈ t.given
  took : ∀ i a, (i, a) ∈ t.took → a ∈ t.given
    ∧ ∃ c, t.link.calls[i]? = some c ∧ c.phase = endWith a
  ended : ∀ i c, t.link.calls[i]? = some c → isEnd c.phase = true →
    i ∈ t.timedOut ∧ c.phase = .raised ∨ ∃ a, (i, a) ∈ t.took
  timedOut : ∀ i ∈ t.timedOut, ∃ c, t.link.calls[i]? = some c ∧ isEnd c.phase = true

namespace Inv

theorem init : Inv {} where
  reading := rfl
  lock _ _ h := by cases h
  sent := List.nodup_nil
  written _ h := by cases h
  unread := List.nodup_nil
  given _ h := by cases h
  mail _ h := by cases h
  arrived _ h := by cases h
  took _ _ h := by cases h
  ended _ _ h := by cases h
  timedOut _ h := by cases h

theorem step_reading (I : Inv t) (h : Moved t m t') : t'.link.reader = .reading := by
  cases h with
  | gaveUp | tookMail | tookRaw => exact (finish_same _ _ _ _).1.trans I.reading
  | read =>
    dsimp only
    split_ifs <;> exact I.reading
  | _ => exact I.reading

/-- A call that ends gives its lock back, and no other legacy call was in its loop. -/
theorem finish_lock (I : Inv t) (hc : t.link.calls[i]? = some c) (hloop : c.phase.looping)
    {s : Link} (hs : s.roundtripLock = t.link.roundtripLock) {p : Phase} {j : ℕ} (hji : j ≠ i)
    (hj : t.link.roundtripLock = some j) : (s.finish i c p).roundtripLock = some j := by
  unfold Link.finish
  dsimp only
  split_ifs with hm
  · exact hs.trans hj
  · have := I.lock i c hc (by simpa using hm) hloop
    rw [hj] at this
    exact absurd (Option.some.inj this) hji

theorem step_lock (I : Inv t) (h : Moved t m t') : ∀ j d, t'.link.calls[j]? = some d →
    d.multiplex = false → d.phase.looping → t'.link.roundtripLock = some j := by
  intro j d hd hm hl
  cases h with
  | idle => exact I.lock j d hd hm hl
  | requested req c hfresh hloop =>
    rcases getElem?_append_cases hd with hd | rfl
    · exact I.lock j d hd hm hl
    · rw [hloop hm] at hl
      cases hl
  | acquired i c hc hp hlock =>
    rcases getElem?_set_cases hd with ⟨rfl, rfl⟩ | ⟨hji, hd⟩
    · rfl
    · have := I.lock j d hd hm hl
      rw [hlock] at this
      cases this
  | wrote i c hc hp | stamped i c hc hp =>
    rcases getElem?_set_cases hd with ⟨rfl, rfl⟩ | ⟨hji, hd⟩
    · exact I.lock j c hc hm (by rw [hp]; rfl)
    · exact I.lock j d hd hm hl
  | gaveUp i c hc hp | tookMail i c a hc hp | tookRaw i c a _ hc hp =>
    rw [finish_calls] at hd
    rcases getElem?_set_cases hd with ⟨rfl, rfl⟩ | ⟨hji, hd⟩
    · rw [(looping_of_isEnd ?_).1] at hl
      · cases hl
      · first | rfl | exact isEnd_endWith a
    · refine I.finish_lock hc (by rw [hp]; rfl) ?_ hji (I.lock j d hd hm hl)
      rfl
  | read =>
    dsimp only at hd ⊢
    split_ifs at hd ⊢ <;> exact I.lock j d hd hm hl
  | expired | putAside | discarded | answered => exact I.lock j d hd hm hl

/-- A step brings no new id on a line or a reply, or that of a call that had written nothing. -/
theorem step_ids (I : Inv t) (h : Moved t m t') :
    (t'.link.lines.map Line.id ++ t'.given.map Answer.id).Perm
        (t.link.lines.map Line.id ++ t.given.map Answer.id) ∨
      ∃ i d, i ∉ t.link.lines.map Line.id ++ t.given.map Answer.id
        ∧ t'.link.calls[i]? = some d ∧ d.phase.fresh = false
        ∧ (t'.link.lines.map Line.id ++ t'.given.map Answer.id).Perm
          (i :: (t.link.lines.map Line.id ++ t.given.map Answer.id)) := by
  cases h with
  | wrote i c hc hp =>
    refine .inr ⟨i, { c with phase := .written }, fun hi => ?_,
      List.getElem?_set_self (List.getElem?_eq_some_iff.1 hc).1, rfl, ?_⟩
    · obtain ⟨d, hd, hfresh⟩ := I.written i hi
      rw [hc] at hd
      cases hd
      rw [hp] at hfresh
      cases hfresh
    · simp only [List.map_append, List.map_cons, List.map_nil, List.append_assoc,
        List.singleton_append]
      exact List.perm_middle
  | answered l r hl =>
    left
    have hperm : (l.id :: (t.link.lines.erase l).map Line.id).Perm (t.link.lines.map Line.id) :=
      ((List.perm_cons_erase hl).map Line.id).symm
    simp only [List.map_append, List.map_cons, List.map_nil]
    rw [← List.append_assoc]
    refine (List.perm_append_singleton _ _).trans ?_
    exact hperm.append_right (t.given.map Answer.id)
  | gaveUp | tookMail | tookRaw =>
    left
    rw [(finish_same _ _ _ _).2.1]
  | read =>
    left
    dsimp only
    split_ifs <;> exact List.Perm.refl _
  | _ => exact .inl (List.Perm.refl _)

theorem step_sent (I : Inv t) (h : Moved t m t') :
    (t'.link.lines.map Line.id ++ t'.given.map Answer.id).Nodup := by
  rcases I.step_ids h with hperm | ⟨i, d, hi, -, -, hperm⟩
  · exact hperm.nodup_iff.2 I.sent
  · exact hperm.nodup_iff.2 (List.nodup_cons.2 ⟨hi, I.sent⟩)

theorem step_written (I : Inv t) (h : Moved t m t') :
    ∀ i ∈ t'.link.lines.map Line.id ++ t'.given.map Answer.id,
      ∃ c, t'.link.calls[i]? = some c ∧ c.phase.fresh = false := by
  intro j hj
  have hold : j ∈ t.link.lines.map Line.id ++ t.given.map Answer.id →
      ∃ c, t'.link.calls[j]? = some c ∧ c.phase.fresh = false := by
    intro hj
    obtain ⟨c, hc, hfresh⟩ := I.written j hj
    obtain ⟨d, hd, hlater⟩ := h.later hc
    exact ⟨d, hd, hlater.fresh hfresh⟩
  rcases I.step_ids h with hperm | ⟨i, d, -, hd, hfresh, hperm⟩
  · exact hold (hperm.mem_iff.1 hj)
  · rcases List.mem_cons.1 (hperm.mem_iff.1 hj) with rfl | hj
    · exact ⟨d, hd, hfresh⟩
    · exact hold hj

/-- A step moves or drops what is unread, or brings the reply to a line. -/
theorem step_unread (I : Inv t) (h : Moved t m t') :
    t'.link.unread.Subperm t.link.unread ∧ t'.given = t.given ∨
      ∃ a, a.id ∉ t.given.map Answer.id ∧ t'.given = t.given ++ [a]
        ∧ t'.link.unread.Perm (a :: t.link.unread) := by
  cases h with
  | answered l r hl =>
    refine .inr ⟨⟨l.id, r⟩, fun hi => ?_, rfl, ?_⟩
    · exact (List.nodup_append.1 I.sent).2.2 l.id (List.mem_map_of_mem hl) l.id hi rfl
    · simp only [Link.unread, List.append_assoc, List.singleton_append]
      exact List.perm_middle
  | gaveUp i c | tookMail i c =>
    exact .inl ⟨(Link.Inv.finish_unread _ _ _ _).subperm, rfl⟩
  | tookRaw i c a rest hc hp hm hraw =>
    refine .inl ⟨(Link.Inv.finish_unread _ _ _ _).subperm.trans ?_, rfl⟩
    simp only [Link.unread, hraw]
    exact (((List.sublist_cons_self a rest).append_left _).append_right _).subperm
  | putAside i c a rest hc hp hm hraw =>
    refine .inl ⟨?_, rfl⟩
    simp only [Link.unread, hraw]
    exact (((List.sublist_cons_self a rest).append_left _).append_right _).subperm
  | read a rest hans =>
    refine .inl ⟨List.Perm.subperm ?_, rfl⟩
    dsimp only
    split_ifs
    · simp only [Link.unread, hans, List.cons_append]
      rw [← List.append_assoc]
      exact List.perm_append_singleton a _
    · simp only [Link.unread, hans, List.cons_append, List.append_assoc, List.nil_append]
      rw [← List.append_assoc, ← List.append_assoc]
      exact List.perm_middle
  | discarded a rest hans =>
    refine .inl ⟨?_, rfl⟩
    simp only [Link.unread, hans]
    exact (((List.sublist_cons_self a rest).append_right _).append_right _).subperm
  | _ => exact .inl ⟨List.Subperm.refl _, rfl⟩

theorem step_unique (I : Inv t) (h : Moved t m t') : (t'.link.unread.map Answer.id).Nodup := by
  rcases I.step_unread h with ⟨⟨l, hperm, hsub⟩, -⟩ | ⟨a, ha, -, hperm⟩
  · exact (hperm.map _).nodup_iff.1 (I.unread.sublist (hsub.map _))
  · rw [(hperm.map _).nodup_iff, List.map_cons, List.nodup_cons]
    refine ⟨fun hi => ha ?_, I.unread⟩
    obtain ⟨b, hb, hid⟩ := List.mem_map.1 hi
    exact List.mem_map.2 ⟨b, I.given b hb, hid⟩

/-- Nothing that was given is forgotten. -/
theorem step_given_subset (I : Inv t) (h : Moved t m t') {a : Answer} (ha : a ∈ t.given) :
    a ∈ t'.given := by
  rcases I.step_unread h with ⟨-, hgiven⟩ | ⟨b, -, hgiven, -⟩ <;> rw [hgiven]
  · exact ha
  · exact List.mem_append_left _ ha

theorem step_given (I : Inv t) (h : Moved t m t') : ∀ a ∈ t'.link.unread, a ∈ t'.given := by
  intro a ha
  rcases I.step_unread h with ⟨hsub, hgiven⟩ | ⟨b, -, hgiven, hperm⟩
  · rw [hgiven]
    exact I.given a (hsub.subset ha)
  · rw [hgiven]
    rcases List.mem_cons.1 (hperm.mem_iff.1 ha) with rfl | ha
    · exact List.mem_append_right _ (List.mem_singleton_self _)
    · exact List.mem_append_left _ (I.given a ha)

/-- The owner of a mailbox is not the call that ends. -/
theorem finish_mail (I : Inv t) (hc : t.link.calls[i]? = some c) {s : Link}
    (hs : s.mail = t.link.mail) {p : Phase} {a : Answer} (ha : a ∈ (s.finish i c p).mail) :
    a ∈ t.link.mail ∧ a.id ≠ i := by
  unfold Link.finish at ha
  dsimp only at ha
  split_ifs at ha with hm
  · obtain ⟨ha, hid⟩ := List.mem_filter.1 ha
    exact ⟨hs ▸ ha, by simpa using hid⟩
  · have ha' : a ∈ t.link.mail := hs ▸ ha
    refine ⟨ha', fun hid => ?_⟩
    obtain ⟨d, hd, hmul, -⟩ := I.mail a ha'
    rw [hid, hc] at hd
    cases hd
    exact hm hmul

theorem step_mail (I : Inv t) (h : Moved t m t') : ∀ a ∈ t'.link.mail,
    ∃ c, t'.link.calls[a.id]? = some c ∧ c.multiplex = true ∧ c.phase.looping := by
  intro a ha
  -- a call that moves on within its loop keeps its mailbox
  have hset : ∀ {i : ℕ} {c e : Call}, t.link.calls[i]? = some c → e.multiplex = c.multiplex →
      (c.phase.looping → e.phase.looping) → a ∈ t.link.mail →
      ∃ d, (t.link.calls.set i e)[a.id]? = some d ∧ d.multiplex = true ∧ d.phase.looping := by
    intro i c e hc hmul hloop ha
    obtain ⟨d, hd, hm, hl⟩ := I.mail a ha
    by_cases hid : i = a.id
    · subst hid
      rw [hc] at hd
      cases hd
      exact ⟨e, List.getElem?_set_self (List.getElem?_eq_some_iff.1 hc).1, hmul.trans hm, hloop hl⟩
    · exact ⟨d, by rw [List.getElem?_set_ne hid, hd], hm, hl⟩
  cases h with
  | requested =>
    obtain ⟨d, hd, hm, hl⟩ := I.mail a ha
    refine ⟨d, ?_, hm, hl⟩
    rw [List.getElem?_append_left (List.getElem?_eq_some_iff.1 hd).1]
    exact hd
  | acquired i c hc hp | wrote i c hc hp | stamped i c hc hp =>
    refine hset hc ?_ (fun _ => ?_) ha <;> rfl
  | gaveUp i c hc hp | tookMail i c b hc hp | tookRaw i c b rest hc hp =>
    obtain ⟨ha', hid⟩ := I.finish_mail hc (by rfl) ha
    obtain ⟨d, hd, hm, hl⟩ := I.mail a ha'
    refine ⟨d, ?_, hm, hl⟩
    rw [finish_calls]
    exact (List.getElem?_set_ne (Ne.symm hid)).trans hd
  | read b rest hans =>
    dsimp only at ha ⊢
    split_ifs at ha ⊢ with hpend
    · rcases List.mem_append.1 ha with ha | ha
      · exact I.mail a ha
      · cases List.mem_singleton.1 ha
        unfold Link.pending at hpend
        split at hpend
        · cases hpend
        · rename_i c hc
          rw [Bool.and_eq_true] at hpend
          exact ⟨c, hc, hpend⟩
    · exact I.mail a ha
  | idle | expired | putAside | discarded | answered => exact I.mail a ha

theorem step_arrived (I : Inv t) (h : Moved t m t') : ∀ a ∈ t'.arrived, a ∈ t'.given := by
  have hold : ∀ a ∈ t.arrived, a ∈ t'.given := fun a ha => I.step_given_subset h (I.arrived a ha)
  cases h with
  | read b rest hans =>
    intro a ha
    dsimp only at ha
    split_ifs at ha
    · rcases List.mem_append.1 ha with ha | ha
      · exact hold a ha
      · cases List.mem_singleton.1 ha
        refine I.given _ ?_
        simp [Link.unread, hans]
    · exact hold a ha
  | _ => exact hold

theorem step_took (I : Inv t) (h : Moved t m t') : ∀ i a, (i, a) ∈ t'.took →
    a ∈ t'.given ∧ ∃ c, t'.link.calls[i]? = some c ∧ c.phase = endWith a := by
  have hold : ∀ i a, (i, a) ∈ t.took →
      a ∈ t'.given ∧ ∃ c, t'.link.calls[i]? = some c ∧ c.phase = endWith a := by
    intro i a ha
    obtain ⟨hgiven, c, hc, hp⟩ := I.took i a ha
    obtain ⟨d, hd, hlater⟩ := h.later hc
    cases hlater.done (hp ▸ isEnd_endWith a)
    exact ⟨I.step_given_subset h hgiven, c, hd, hp⟩
  have hnew : ∀ {s : Link} {j : ℕ} {c : Call} {b : Answer}, s.calls = t.link.calls →
      t.link.calls[j]? = some c → ∃ d, (s.finish j c (endWith b)).calls[j]? = some d
        ∧ d.phase = endWith b := by
    intro s j c b hs hc
    rw [finish_calls, hs]
    exact ⟨_, List.getElem?_set_self (List.getElem?_eq_some_iff.1 hc).1, rfl⟩
  intro i a ha
  cases h with
  | tookMail j c b hc hp hm hb =>
    rcases List.mem_append.1 ha with ha | ha
    · exact hold i a ha
    · cases List.mem_singleton.1 ha
      exact ⟨I.given a (Link.mem_unread_of_mail hb), hnew rfl hc⟩
  | tookRaw j c b rest hc hp hm hraw =>
    rcases List.mem_append.1 ha with ha | ha
    · exact hold i a ha
    · cases List.mem_singleton.1 ha
      refine ⟨I.given a (Link.mem_unread_of_raw ?_), hnew rfl hc⟩
      rw [hraw]
      exact List.mem_cons_self
  | _ => exact hold i a ha

theorem step_ended (I : Inv t) (h : Moved t m t') : ∀ i c, t'.link.calls[i]? = some c →
    isEnd c.phase = true → i ∈ t'.timedOut ∧ c.phase = .raised ∨ ∃ a, (i, a) ∈ t'.took := by
  intro j d hd hend
  cases h with
  | requested req c hfresh =>
    rcases getElem?_append_cases hd with hd | rfl
    · exact I.ended j d hd hend
    · rw [(looping_of_isEnd hend).2] at hfresh
      cases hfresh
  | acquired i c hc hp | wrote i c hc hp | stamped i c hc hp =>
    rcases getElem?_set_cases hd with ⟨rfl, rfl⟩ | ⟨-, hd⟩
    · cases hend
    · exact I.ended j d hd hend
  | gaveUp i c hc hp =>
    rw [finish_calls] at hd
    rcases getElem?_set_cases hd with ⟨rfl, rfl⟩ | ⟨-, hd⟩
    · exact .inl ⟨List.mem_append_right _ (List.mem_singleton_self _), rfl⟩
    · exact (I.ended j d hd hend).imp (And.imp_left (List.mem_append_left _)) id
  | tookMail i c a hc hp | tookRaw i c a rest hc hp =>
    rw [finish_calls] at hd
    rcases getElem?_set_cases hd with ⟨rfl, rfl⟩ | ⟨-, hd⟩
    · exact .inr ⟨a, List.mem_append_right _ (List.mem_singleton_self _)⟩
    · exact (I.ended j d hd hend).imp id fun ⟨b, hb⟩ => ⟨b, List.mem_append_left _ hb⟩
  | read =>
    dsimp only at hd ⊢
    split_ifs at hd <;> exact I.ended j d hd hend
  | idle | expired | putAside | discarded | answered => exact I.ended j d hd hend

theorem step_timedOut (I : Inv t) (h : Moved t m t') : ∀ i ∈ t'.timedOut,
    ∃ c, t'.link.calls[i]? = some c ∧ isEnd c.phase = true := by
  have hold : ∀ i ∈ t.timedOut, ∃ c, t'.link.calls[i]? = some c ∧ isEnd c.phase = true := by
    intro i hi
    obtain ⟨c, hc, hend⟩ := I.timedOut i hi
    obtain ⟨d, hd, hlater⟩ := h.later hc
    cases hlater.done hend
    exact ⟨c, hd, hend⟩
  intro i hi
  cases h with
  | gaveUp j c hc hp =>
    rcases List.mem_append.1 hi with hi | hi
    · exact hold i hi
    · cases List.mem_singleton.1 hi
      rw [finish_calls]
      exact ⟨_, List.getElem?_set_self (List.getElem?_eq_some_iff.1 hc).1, rfl⟩
  | _ => exact hold i hi

theorem step (I : Inv t) (h : Moved t m t') : Inv t' where
  reading := I.step_reading h
  lock := I.step_lock h
  sent := I.step_sent h
  written := I.step_written h
  unread := I.step_unique h
  given := I.step_given h
  mail := I.step_mail h
  arrived := I.step_arrived h
  took := I.step_took h
  ended := I.step_ended h
  timedOut := I.step_timedOut h

/-- The daemon gives one reply for an id. -/
theorem unique (I : Inv t) {a b : Answer} (ha : a ∈ t.given) (hb : b ∈ t.given)
    (h : a.id = b.id) : a = b :=
  List.inj_on_of_nodup_map (List.nodup_append.1 I.sent).2.1 ha hb h

/-- The call that a reply answers has written its request. -/
theorem call_of_given (I : Inv t) {a : Answer} (ha : a ∈ t.given) :
    ∃ c, t.link.calls[a.id]? = some c ∧ c.phase.fresh = false :=
  I.written a.id (List.mem_append_right _ (List.mem_map_of_mem ha))

end Inv

/-! ### Every call gets its own reply -/

/-- How a call ended is in the records, so it is enough to look at these. -/
theorem OwnReplies.of_inv (I : Inv t) (own : ∀ i a, (i, a) ∈ t.took → a.id = i)
    (inTime : ∀ a ∈ t.arrived, a.id ∉ t.timedOut)
    (kept : ∀ a ∈ t.arrived, ∀ c, t.link.calls[a.id]? = some c → c.phase.looping →
      a ∈ t.link.queueOf c)
    (ended : ∀ a ∈ t.arrived, ∀ c, t.link.calls[a.id]? = some c → c.phase.looping = false →
      (a.id, a) ∈ t.took) : OwnReplies t where
  returned i c r hc hp := by
    rcases I.ended i c hc (by rw [hp]; rfl) with ⟨-, h⟩ | ⟨a, ha⟩
    · rw [hp] at h
      cases h
    · obtain ⟨-, d, hd, hend⟩ := I.took i a ha
      rw [hc] at hd
      cases hd
      rw [hp, endWith] at hend
      split_ifs at hend
      cases hend
      have hid := own i a ha
      subst hid
      exact ha
  raised i c hc hp := by
    rcases I.ended i c hc (by rw [hp]; rfl) with ⟨h, -⟩ | ⟨a, ha⟩
    · exact .inl h
    · obtain ⟨-, d, hd, hend⟩ := I.took i a ha
      rw [hc] at hd
      cases hd
      rw [hp, endWith] at hend
      split_ifs at hend with herr
      have hid := own i a ha
      subst hid
      obtain ⟨id, reply⟩ := a
      cases reply with
      | error e => exact .inr ⟨e, ha⟩
      | _ => simp [Reply.op] at herr
  own := own
  inTime := inTime
  kept := kept
  ended a ha c hc hl := by
    have htook := ended a ha c hc hl
    obtain ⟨-, d, hd, hend⟩ := I.took a.id a htook
    rw [hc] at hd
    cases hd
    exact ⟨htook, hend⟩

theorem own_step (G : OwnReplies t) (ho : t.Orderly m) (h : Moved t m t') :
    ∀ i a, (i, a) ∈ t'.took → a.id = i := by
  intro i a ha
  cases h with
  | tookMail j c b hc hp hm hb hid =>
    rcases List.mem_append.1 ha with ha | ha
    · exact G.own i a ha
    · cases List.mem_singleton.1 ha
      exact hid
  | tookRaw j c b rest hc hp hm hraw hop =>
    rcases List.mem_append.1 ha with ha | ha
    · exact G.own i a ha
    · cases List.mem_singleton.1 ha
      by_contra hne
      exact (ho c a hc hp hm (by rw [hraw]; rfl)).1 hne hop
  | _ => exact G.own i a ha

/-- A call that finds its deadline passed has no reply that came in time. -/
theorem not_arrived_of_gaveUp (G : OwnReplies t) (ho : t.Orderly (.timeout i))
    (hc : t.link.calls[i]? = some c) (hp : c.phase = .waiting) (hexp : i ∈ t.expired) {a : Answer}
    (ha : a ∈ t.arrived) : a.id ≠ i := by
  rintro rfl
  exact ho c hc hp hexp a ha rfl (G.kept a ha c hc (by rw [hp]; rfl))

theorem inTime_step (I : Inv t) (G : OwnReplies t) (ho : t.Orderly m) (h : Moved t m t') :
    ∀ a ∈ t'.arrived, a.id ∉ t'.timedOut := by
  intro a ha
  cases h with
  | gaveUp i c hc hp hexp =>
    intro hi
    rcases List.mem_append.1 hi with hi | hi
    · exact G.inTime a ha hi
    · exact not_arrived_of_gaveUp G ho hc hp hexp ha (List.mem_singleton.1 hi)
  | read b rest hans =>
    dsimp only at ha ⊢
    split_ifs at ha with hloop
    · rcases List.mem_append.1 ha with ha | ha
      · exact G.inTime a ha
      · cases List.mem_singleton.1 ha
        intro hi
        obtain ⟨c, hc, hend⟩ := I.timedOut _ hi
        have := hloop.1
        simp [Link.looping, hc, (looping_of_isEnd hend).1] at this
    · exact G.inTime a ha
  | _ => exact G.inTime a ha

/-- When a call ends, what arrived for the others stays where it is: a legacy call takes from
`_raw` only while no other legacy call is under way. -/
theorem kept_finish (I : Inv t) (G : OwnReplies t) (hc : t.link.calls[i]? = some c)
    (hp : c.phase = .waiting) {s : Link} (hcalls : s.calls = t.link.calls)
    (hmail : s.mail = t.link.mail) (hraw : c.multiplex = false ∨ s.raw = t.link.raw) {p : Phase}
    (hend : isEnd p = true) {a : Answer} (ha : a ∈ t.arrived) {d : Call}
    (hd : (s.finish i c p).calls[a.id]? = some d) (hl : d.phase.looping) :
    a ∈ (s.finish i c p).queueOf d := by
  rw [finish_calls, hcalls] at hd
  rcases getElem?_set_cases hd with ⟨-, rfl⟩ | ⟨hne, hd⟩
  · rw [(looping_of_isEnd hend).1] at hl
    cases hl
  · have hkept := G.kept a ha d hd hl
    unfold Link.queueOf at hkept ⊢
    cases hm : d.multiplex with
    | true =>
      rw [hm, if_pos rfl] at hkept
      rw [if_pos rfl]
      unfold Link.finish
      dsimp only
      split_ifs
      · exact List.mem_filter.2 ⟨hmail ▸ hkept, by simpa using hne⟩
      · exact hmail ▸ hkept
    | false =>
      rw [hm, if_neg Bool.false_ne_true] at hkept
      rw [if_neg Bool.false_ne_true, (finish_same s i c p).2.2]
      rcases hraw with hleg | hraw
      · -- both calls hold the lock
        have h1 := I.lock i c hc hleg (by rw [hp]; rfl)
        have h2 := I.lock a.id d hd hm hl
        rw [h1] at h2
        exact absurd (Option.some.inj h2).symm hne
      · exact hraw ▸ hkept

theorem kept_step (I : Inv t) (G : OwnReplies t) (ho : t.Orderly m) (h : Moved t m t') :
    ∀ a ∈ t'.arrived, ∀ c, t'.link.calls[a.id]? = some c → c.phase.looping →
      a ∈ t'.link.queueOf c := by
  intro a ha d hd hl
  cases h with
  | idle | expired | discarded | answered => exact G.kept a ha d hd hl
  | requested req c =>
    obtain ⟨c', hc', -⟩ := I.call_of_given (I.arrived a ha)
    refine G.kept a ha d ?_ hl
    rw [List.getElem?_append_left (List.getElem?_eq_some_iff.1 hc').1] at hd
    exact hd
  | acquired i c hc hp | wrote i c hc hp =>
    -- a call that has written nothing has no reply
    rcases getElem?_set_cases hd with ⟨hid, rfl⟩ | ⟨-, hd⟩
    · obtain ⟨c', hc', hfresh⟩ := I.call_of_given (I.arrived a ha)
      rw [hid, hc] at hc'
      cases hc'
      rw [hp] at hfresh
      cases hfresh
    · exact G.kept a ha d hd hl
  | stamped i c hc hp =>
    rcases getElem?_set_cases hd with ⟨hid, rfl⟩ | ⟨-, hd⟩
    · exact G.kept a ha c (hid ▸ hc) (by rw [hp]; rfl)
    · exact G.kept a ha d hd hl
  | gaveUp i c hc hp => exact kept_finish I G hc hp rfl rfl (.inr rfl) rfl ha hd hl
  | tookMail i c b hc hp =>
    exact kept_finish I G hc hp rfl rfl (.inr rfl) (isEnd_endWith b) ha hd hl
  | tookRaw i c b rest hc hp hm =>
    refine kept_finish I G hc hp ?_ ?_ (.inl hm) (isEnd_endWith b) ha hd hl <;> rfl
  | putAside i c b rest hc hp hm hraw hop =>
    have hkept := G.kept a ha d hd hl
    unfold Link.queueOf at hkept ⊢
    split_ifs at hkept ⊢ with hmul
    · exact hkept
    · rw [hraw] at hkept
      rcases List.mem_cons.1 hkept with rfl | hkept
      · have h1 := I.lock i c hc hm (by rw [hp]; rfl)
        have h2 := I.lock a.id d hd (by simpa using hmul) hl
        rw [h1] at h2
        exact absurd ((ho c a hc hp hm (by rw [hraw]; rfl)).2 (Option.some.inj h2).symm ha) hop
      · exact hkept
  | read b rest hans =>
    have hd' : t.link.calls[a.id]? = some d := by
      dsimp only at hd
      split_ifs at hd <;> exact hd
    have hcase : a ∈ t.arrived ∨ a = b := by
      dsimp only at ha
      split_ifs at ha
      · exact (List.mem_append.1 ha).imp id List.mem_singleton.1
      · exact .inl ha
    rcases hcase with ha | rfl
    · have hkept := G.kept a ha d hd' hl
      unfold Link.queueOf at hkept ⊢
      dsimp only
      split_ifs at hkept ⊢
      · exact List.mem_append_left _ hkept
      · exact hkept
      · exact hkept
      · exact List.mem_append_left _ hkept
    · have hpend : t.link.pending a.id = d.multiplex := by
        simp [Link.pending, hd', hl]
      unfold Link.queueOf
      dsimp only
      rw [hpend]
      cases hm : d.multiplex <;> simp

theorem ended_step (I : Inv t) (G : OwnReplies t) (ho : t.Orderly m) (h : Moved t m t') :
    ∀ a ∈ t'.arrived, ∀ c, t'.link.calls[a.id]? = some c → c.phase.looping = false →
      (a.id, a) ∈ t'.took := by
  intro a ha d hd hl
  -- a reply that had arrived for a call that had ended
  have hold : a ∈ t.arrived → t.link.calls[a.id]? = some d → (a.id, a) ∈ t.took :=
    fun ha hd => (G.ended a ha d hd hl).1
  cases h with
  | idle | expired | putAside | discarded | answered => exact hold ha hd
  | requested req c =>
    obtain ⟨c', hc', -⟩ := I.call_of_given (I.arrived a ha)
    rw [List.getElem?_append_left (List.getElem?_eq_some_iff.1 hc').1] at hd
    exact hold ha hd
  | acquired i c hc hp | wrote i c hc hp | stamped i c hc hp =>
    rcases getElem?_set_cases hd with ⟨-, rfl⟩ | ⟨-, hd⟩
    · cases hl
    · exact hold ha hd
  | gaveUp i c hc hp hexp =>
    rw [finish_calls] at hd
    rcases getElem?_set_cases hd with ⟨hid, rfl⟩ | ⟨-, hd⟩
    · exact absurd hid (not_arrived_of_gaveUp G ho hc hp hexp ha)
    · exact hold ha hd
  | tookMail i c b hc hp hm hb hid =>
    rw [finish_calls] at hd
    rcases getElem?_set_cases hd with ⟨hai, rfl⟩ | ⟨-, hd⟩
    · obtain rfl : a = b := I.unique (I.arrived a ha) (I.given b (Link.mem_unread_of_mail hb))
        (hai.trans hid.symm)
      subst hid
      exact List.mem_append_right _ (List.mem_singleton_self _)
    · exact List.mem_append_left _ (hold ha hd)
  | tookRaw i c b rest hc hp hm hraw hop =>
    rw [finish_calls] at hd
    rcases getElem?_set_cases hd with ⟨hai, rfl⟩ | ⟨-, hd⟩
    · have hid : b.id = i := by
        by_contra hne
        exact (ho c b hc hp hm (by rw [hraw]; rfl)).1 hne hop
      have hb : b ∈ t.link.raw := hraw ▸ List.mem_cons_self
      obtain rfl : a = b := I.unique (I.arrived a ha) (I.given b (Link.mem_unread_of_raw hb))
        (hai.trans hid.symm)
      subst hid
      exact List.mem_append_right _ (List.mem_singleton_self _)
    · exact List.mem_append_left _ (hold ha hd)
  | read b rest hans =>
    dsimp only at ha hd ⊢
    have hd' : t.link.calls[a.id]? = some d := by
      split_ifs at hd <;> exact hd
    split_ifs at ha with hloop
    · rcases List.mem_append.1 ha with ha | ha
      · exact hold ha hd'
      · cases List.mem_singleton.1 ha
        have := hloop.1
        simp [Link.looping, hd', hl] at this
    · exact hold ha hd'

/-- An orderly step keeps every call's reply for it. -/
theorem OwnReplies.step (I : Inv t) (G : OwnReplies t) (ho : t.Orderly m) (h : Moved t m t') :
    OwnReplies t' :=
  .of_inv (I.step h) (own_step G ho h) (inTime_step I G ho h) (kept_step I G ho h)
    (ended_step I G ho h)

/-- A step that is not orderly mixes a reply up. -/
theorem orderly_of_step (I : Inv t) (h : Moved t m t') (G : OwnReplies t') : t.Orderly m := by
  cases h with
  | idle _ ho => exact ho
  | gaveUp i c hc hp hexp =>
    intro c' hc' _ _ a ha hid _
    exact G.inTime a ha (hid ▸ List.mem_append_right _ (List.mem_singleton_self _))
  | tookMail i c a hc hp hm =>
    intro c' b hc' _ hm'
    rw [hc] at hc'
    cases hc'
    rw [hm] at hm'
    cases hm'
  | tookRaw i c a rest hc hp hm hraw hop =>
    intro c' b hc' _ _ hb
    rw [hc] at hc'
    cases hc'
    rw [hraw] at hb
    cases hb
    refine ⟨fun hne => absurd (G.own i a ?_) hne, fun _ _ => hop⟩
    exact List.mem_append_right _ (List.mem_singleton_self _)
  | putAside i c a rest hc hp hm hraw hop =>
    intro c' b hc' _ _ hb
    rw [hc] at hc'
    cases hc'
    rw [hraw] at hb
    cases hb
    refine ⟨fun _ => hop, fun hid ha => ?_⟩
    have hkept := G.kept a ha c (hid ▸ hc) (by rw [hp]; rfl)
    unfold Link.queueOf at hkept
    rw [hm, if_neg Bool.false_ne_true] at hkept
    -- no second reply has the id
    have hnd : ((a :: rest).map Answer.id).Nodup := by
      have hsub : t.link.raw.Sublist t.link.unread :=
        (List.sublist_append_right _ _).trans (List.sublist_append_left _ _)
      exact hraw ▸ I.unread.sublist (hsub.map _)
    rw [List.map_cons, List.nodup_cons] at hnd
    exact absurd (List.mem_map_of_mem hkept) hnd.1
  | _ => trivial

/-- In every run of an unbroken link, with any calls, any order of the steps of calls, reader, clock
and daemon, and replies as late as may be: every call gets its own reply in every state that is
reached exactly when every step is orderly. -/
theorem own_replies_iff (moves : List TalkMove) :
    (∀ n, OwnReplies (run (moves.take n))) ↔
      ∀ n m, moves[n]? = some m → (run (moves.take n)).Orderly m := by
  have hinv : ∀ n, Inv (run (moves.take n)) :=
    Runs.invariant step _ moves Inv.init fun n m _ I => I.step (moved I.reading m)
  constructor
  · intro h n m hm
    have hnext := h (n + 1)
    unfold run at hnext
    rw [Runs.foldl_take_succ step _ hm] at hnext
    exact orderly_of_step (hinv n) (moved (hinv n).reading m) hnext
  · intro h n
    have hstart : OwnReplies {} := .of_inv Inv.init (fun _ _ h => by cases h) (fun _ h => by cases h)
      (fun _ h => by cases h) (fun _ h => by cases h)
    exact Runs.invariant step _ moves hstart
      (fun n m hm G => G.step (hinv n) (h n m hm) (moved (hinv n).reading m)) n

/-- A first call that blocks a peer: the reply says `blocked`, the call waits for `block`, and times
out although its reply had come. -/
theorem block_reply_put_aside :
    ¬OwnReplies (run [.request (.block ['0']), .acquire 0, .sendall 0, .stamp 0,
      .answer 0 (.blocked ['0']), .readline, .get 0, .expire 0, .timeout 0]) := by
  intro h
  refine h.inTime ⟨0, .blocked ['0']⟩ ?_ ?_ <;> decide +kernel

end Talk

end Aimless
