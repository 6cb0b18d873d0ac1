import Aimless.Writer
import Aimless.Proofs.Mail
import Aimless.Lib.Runs

/-!
# The outbound writer loses nothing and lets control traffic pass

`Fired` lists what one move can do.  On each channel what has been written, what is being written
and what is queued are together what was accepted (`Conserved`).  A control packet that waits is
passed by a bulk packet only if the writer is already at its second `select` when it is accepted:
from the first `select` the writer gets no further while the control channel holds something
(`Waiting`).
-/

namespace Aimless

namespace Happened

variable (ch : Channel) (log : List Happened)

@[simp] theorem acceptedOn_concat (e : Happened) :
    acceptedOn ch (log ++ [e]) = acceptedOn ch log ++ acceptedOn ch [e] :=
  List.filterMap_append

@[simp] theorem writtenOn_concat (e : Happened) :
    writtenOn ch (log ++ [e]) = writtenOn ch log ++ writtenOn ch [e] :=
  List.filterMap_append

@[simp] theorem acceptedOn_accepted (ch' : Channel) (p : QueuedPacket) :
    acceptedOn ch [.accepted ch' p] = if ch' = ch then [p] else [] := by
  unfold acceptedOn
  split_ifs with h <;> simp [h]

@[simp] theorem writtenOn_finished (ch' : Channel) (p : QueuedPacket) :
    writtenOn ch [.finished ch' p] = if ch' = ch then [p] else [] := by
  unfold writtenOn
  split_ifs with h <;> simp [h]

/-- The packets of a channel whose writes have started, in order. -/
def startedOn (ch : Channel) (log : List Happened) : List QueuedPacket :=
  log.filterMap fun
    | .started ch' p => if ch' = ch then some p else none
    | _ => none

@[simp] theorem startedOn_concat (e : Happened) :
    startedOn ch (log ++ [e]) = startedOn ch log ++ startedOn ch [e] :=
  List.filterMap_append

@[simp] theorem startedOn_started (ch' : Channel) (p : QueuedPacket) :
    startedOn ch [.started ch' p] = if ch' = ch then [p] else [] := by
  unfold startedOn
  split_ifs with h <;> simp [h]

theorem bulkStarts_append (log log' : List Happened) :
    bulkStarts (log ++ log') = bulkStarts log + bulkStarts log' :=
  List.countP_append

variable {ch log}

theorem accepted_of_mem {p : QueuedPacket} (h : p ∈ acceptedOn ch log) : .accepted ch p ∈ log := by
  obtain ⟨e, he, hp⟩ := List.mem_filterMap.1 h
  cases e <;> simp at hp
  obtain ⟨rfl, rfl⟩ := hp
  exact he

theorem mem_startedOn {p : QueuedPacket} (h : .started ch p ∈ log) : p ∈ startedOn ch log :=
  List.mem_filterMap.2 ⟨_, h, if_pos rfl⟩

end Happened

open Happened

namespace Uplink

variable {mtu : ℕ} {s s' : Uplink}

/-- What one move can do. -/
inductive Fired (mtu : ℕ) (s : Uplink) : Uplink → Prop
  | idle : Fired mtu s s
  | accepted {ch p n} (hcall : p.call = s.calls)
      (h : sendOn mtu s.node p.out.pub p.out.data ch = .ok n) :
      Fired mtu s { s with
        queue := Function.update s.queue ch (s.queue ch ++ [p])
        calls := s.calls + 1
        log := s.log ++ [.accepted ch p] }
  | refused {ch p e} (hcall : p.call = s.calls)
      (h : sendOn mtu s.node p.out.pub p.out.data ch = .error e) :
      Fired mtu s { s with calls := s.calls + 1, log := s.log ++ [.refused ch p e] }
  | started {ch p rest} (hq : s.queue ch = p :: rest)
      (hp : s.point = .second ∨ s.point = .first ∧ ch = .control) :
      Fired mtu s (s.receive ch p rest)
  | passed (hq : s.queue .control = []) (hp : s.point = .first) :
      Fired mtu s { s with point := .second }
  | finished {ch p} (hp : s.point = .writing ch p) :
      Fired mtu s { s with point := .first, log := s.log ++ [.finished ch p] }

theorem step_fired (mtu : ℕ) (s : Uplink) (m : Move) : Fired mtu s (s.step mtu m) := by
  cases m with
  | send ch pub payload =>
    show Fired mtu s (s.send mtu ch pub payload)
    unfold send
    dsimp only
    split
    · rename_i n hn
      exact .accepted (p := ⟨s.calls, ⟨pub, payload⟩⟩) rfl hn
    · rename_i e he
      exact .refused (p := ⟨s.calls, ⟨pub, payload⟩⟩) rfl he
  | drain =>
    show Fired mtu s s.drain
    unfold drain
    split
    · rename_i p rest hp hq
      exact .started hq (.inr ⟨hp, rfl⟩)
    · rename_i hp hq
      exact .passed hq hp
    · exact .idle
  | select ch =>
    show Fired mtu s (s.select ch)
    unfold select
    split
    · rename_i p rest hp hq
      exact .started hq (.inl hp)
    · exact .idle
  | written =>
    show Fired mtu s s.written
    unfold written
    split
    · rename_i ch p hp
      exact .finished hp
    · exact .idle

/-- A call does to the channels what `Send` and `SendBulk` do. -/
theorem node_send (mtu : ℕ) (s : Uplink) (ch : Channel) (pub : PublicKey) (payload : Bytes) :
    (s.send mtu ch pub payload).node = (sendOn mtu s.node pub payload ch).toOption.getD s.node := by
  unfold send
  dsimp only
  split
  · rename_i n hn
    rw [hn]
    cases ch with
    | control =>
      obtain ⟨-, -, -, rfl⟩ := Node.send_ok.1 hn
      simp [node, Except.toOption]
    | bulk =>
      obtain ⟨-, -, -, rfl⟩ := Node.sendBulk_ok.1 hn
      simp [node, Except.toOption]
  · rename_i e he
    rw [he]
    rfl

theorem run_append (mtu : ℕ) (moves : List Move) (m : Move) :
    run mtu (moves ++ [m]) = (run mtu moves).step mtu m := by
  simp [run]

/-- What every move keeps holds in every run. -/
theorem run_invariant {I : Uplink → Prop} (init : I {})
    (hstep : ∀ s s', Fired mtu s s' → I s → I s') (moves : List Move) : I (run mtu moves) :=
  Runs.invariant_end (step mtu) {} moves init fun m _ t ht => hstep _ _ (step_fired mtu t m) ht

/-! ### Nothing lost, nothing out of order -/

/-- On each channel, what was written, what is in `writeFn` and what is queued, is what was
accepted. -/
def Conserved (s : Uplink) : Prop :=
  ∀ ch, writtenOn ch s.log ++ s.inWrite ch ++ s.queue ch = acceptedOn ch s.log

theorem inWrite_of_not_writing (h : s.point = .second ∨ s.point = .first) (ch : Channel) :
    s.inWrite ch = [] := by
  unfold inWrite
  rcases h with h | h <;> rw [h]

theorem Conserved.fired (h : Fired mtu s s') (hs : Conserved s) : Conserved s' := by
  intro ch
  have hch := hs ch
  cases h with
  | idle => exact hch
  | @accepted ch' p n hcall hok =>
    have hw : ∀ q c l, inWrite { s with queue := q, calls := c, log := l } ch = s.inWrite ch :=
      fun _ _ _ => rfl
    by_cases hc : ch' = ch
    · subst hc
      simp [hw, ← hch, writtenOn]
    · simp [hw, ← hch, writtenOn, hc, Function.update_of_ne (Ne.symm hc)]
  | @refused ch' p e hcall he => simpa [acceptedOn, writtenOn, inWrite] using hch
  | @started ch' p rest hq hp =>
    have hnot := inWrite_of_not_writing (hp.imp_right And.left) ch
    rw [hnot, List.append_nil] at hch
    by_cases hc : ch' = ch
    · subst hc
      simpa [receive, inWrite, acceptedOn, writtenOn, hq] using hch
    · simpa [receive, inWrite, acceptedOn, writtenOn, hc, Function.update_of_ne (Ne.symm hc)]
        using hch
  | passed hq hp =>
    rw [inWrite_of_not_writing (.inr hp)] at hch
    exact hch
  | @finished ch' p hp =>
    by_cases hc : ch' = ch
    · subst hc
      simpa [inWrite, hp, acceptedOn] using hch
    · simpa [inWrite, hp, hc, acceptedOn] using hch

theorem run_conserved (mtu : ℕ) (moves : List Move) : Conserved (run mtu moves) :=
  run_invariant (fun _ => rfl) (fun _ _ => Conserved.fired) moves

/-! ### Refused packets -/

/-- A write that has started has finished or is under way. -/
def Underway (s : Uplink) : Prop :=
  ∀ ch, startedOn ch s.log = writtenOn ch s.log ++ s.inWrite ch

theorem Underway.fired (h : Fired mtu s s') (hs : Underway s) : Underway s' := by
  intro ch
  have hch := hs ch
  cases h with
  | idle => exact hch
  | @accepted ch' p n hcall hok => simpa [startedOn, writtenOn, inWrite] using hch
  | @refused ch' p e hcall he => simpa [startedOn, writtenOn, inWrite] using hch
  | @started ch' p rest hq hp =>
    rw [inWrite_of_not_writing (hp.imp_right And.left) ch, List.append_nil] at hch
    simp [receive, inWrite, writtenOn, hch]
  | passed hq hp =>
    rw [inWrite_of_not_writing (.inr hp)] at hch
    exact hch
  | @finished ch' p hp => simpa [inWrite, hp, startedOn] using hch

/-- A started write is of a packet its channel accepted. -/
theorem started_accepted (hc : Conserved s) (hu : Underway s) {ch : Channel} {p : QueuedPacket}
    (h : .started ch p ∈ s.log) : .accepted ch p ∈ s.log := by
  refine accepted_of_mem ?_
  rw [← hc ch, ← hu ch]
  exact List.mem_append_left _ (mem_startedOn h)

/-- No call has been both accepted and refused, and every call so far has a number below `calls`. -/
structure OneOutcome (s : Uplink) : Prop where
  accepted_lt : ∀ ch p, .accepted ch p ∈ s.log → p.call < s.calls
  refused_lt : ∀ ch p e, .refused ch p e ∈ s.log → p.call < s.calls
  disjoint : ∀ ch p ch' e, .accepted ch p ∈ s.log → .refused ch' p e ∉ s.log

theorem OneOutcome.fired (h : Fired mtu s s') (hs : OneOutcome s) : OneOutcome s' := by
  cases h with
  | idle => exact hs
  | @accepted ch' q n hcall hok =>
    refine ⟨fun ch p hp => ?_, fun ch p e hp => ?_, fun ch p ch' e hp hr => ?_⟩
    all_goals simp at hp
    · rcases hp with hp | ⟨rfl, rfl⟩
      · exact (hs.accepted_lt ch p hp).trans (Nat.lt_succ_self _)
      · exact hcall ▸ Nat.lt_succ_self _
    · exact (hs.refused_lt ch p e hp).trans (Nat.lt_succ_self _)
    · simp at hr
      rcases hp with hp | ⟨rfl, rfl⟩
      · exact hs.disjoint ch p ch' e hp hr
      · exact absurd (hs.refused_lt _ _ _ hr) (by omega)
  | @refused ch' q e' hcall he =>
    refine ⟨fun ch p hp => ?_, fun ch p e hp => ?_, fun ch p ch' e hp hr => ?_⟩
    all_goals simp at hp
    · exact (hs.accepted_lt ch p hp).trans (Nat.lt_succ_self _)
    · rcases hp with hp | ⟨rfl, rfl, rfl⟩
      · exact (hs.refused_lt ch p e hp).trans (Nat.lt_succ_self _)
      · exact hcall ▸ Nat.lt_succ_self _
    · simp at hr
      rcases hr with hr | ⟨rfl, rfl, rfl⟩
      · exact hs.disjoint ch p ch' e hp hr
      · exact absurd (hs.accepted_lt _ _ hp) (by omega)
  | started hq hp =>
    exact ⟨by simpa [receive] using hs.1, by simpa [receive] using hs.2,
      by simpa [receive] using hs.3⟩
  | passed hq hp => exact ⟨hs.1, hs.2, hs.3⟩
  | finished hp => exact ⟨by simpa using hs.1, by simpa using hs.2, by simpa using hs.3⟩

/-! ### Priority -/

/-- A control packet that was accepted and whose write has not started is queued, and at most one
bulk write has started since; none has, if the writer is at its second `select`. -/
def Waiting (s : Uplink) : Prop :=
  ∀ before p since, s.log = before ++ .accepted .control p :: since →
    .started .control p ∉ since → p ∈ s.queue .control
      ∧ bulkStarts since + (if s.point = .second then 1 else 0) ≤ 1

/-- An event after the acceptance of a waiting packet. -/
theorem Waiting.event {e : Happened} {before since : List Happened} {p : QueuedPacket} (hs : Waiting s)
    (hlog : s.log ++ [e] = before ++ .accepted .control p :: since)
    (hlater : since = [] → e ≠ .accepted .control p) (hno : .started .control p ∉ since) :
    e ≠ .started .control p ∧ p ∈ s.queue .control
      ∧ bulkStarts since + (if s.point = .second then 1 else 0) ≤ 1 + bulkStarts [e] := by
  rcases since.eq_nil_or_concat with rfl | ⟨since, e', rfl⟩
  · exact absurd (List.head_eq_of_cons_eq (List.append_inj_right' hlog rfl)) (hlater rfl)
  · rw [List.concat_eq_append] at hlog hno ⊢
    rw [← List.cons_append, ← List.append_assoc] at hlog
    obtain ⟨hprev, he⟩ := List.append_inj' hlog rfl
    obtain rfl := List.head_eq_of_cons_eq he
    simp only [List.mem_append, List.mem_singleton, not_or] at hno
    obtain ⟨hqueue, hone⟩ := hs before p since hprev hno.1
    refine ⟨fun h => hno.2 h.symm, hqueue, ?_⟩
    rw [bulkStarts_append]
    omega

theorem Waiting.fired (h : Fired mtu s s') (hs : Waiting s) : Waiting s' := by
  intro before p since hlog hno
  cases h with
  | idle => exact hs before p since hlog hno
  | @accepted ch q n hcall hok =>
    rcases eq_or_ne since [] with rfl | hsince
    · obtain ⟨rfl, rfl⟩ : ch = .control ∧ q = p := by
        simpa using List.head_eq_of_cons_eq (List.append_inj_right' hlog rfl)
      refine ⟨by simp, ?_⟩
      rw [bulkStarts, List.countP_nil]
      split_ifs <;> omega
    · obtain ⟨-, hqueue, hone⟩ := hs.event hlog (fun h => absurd h hsince) hno
      refine ⟨?_, hone⟩
      cases ch with
      | control => simp [hqueue]
      | bulk => simpa using hqueue
  | refused hcall he =>
    obtain ⟨-, hqueue, hone⟩ := hs.event hlog (fun _ => by simp) hno
    exact ⟨hqueue, hone⟩
  | @started ch q rest hq hp =>
    obtain ⟨hne, hqueue, hone⟩ := hs.event hlog (fun _ => by simp) hno
    cases ch with
    | control =>
      have hpq : p ≠ q := fun h => hne (h ▸ rfl)
      rw [hq, List.mem_cons] at hqueue
      refine ⟨?_, ?_⟩
      · simpa [receive] using hqueue.resolve_left hpq
      · simp only [receive, reduceCtorEq, if_false]
        exact (Nat.le_add_right _ _).trans hone
    | bulk =>
      -- a bulk write starts from the second select only, which it leaves
      have hsecond : s.point = .second := by simpa using hp
      rw [if_pos hsecond] at hone
      refine ⟨by simpa [receive] using hqueue, ?_⟩
      simp only [receive, reduceCtorEq, if_false]
      have hstart : bulkStarts [.started .bulk q] = 1 := rfl
      omega
  | passed hq hp =>
    -- the first select does not pass by a waiting packet
    have hqueue := (hs before p since hlog hno).1
    rw [hq] at hqueue
    cases hqueue
  | finished hp =>
    obtain ⟨-, hqueue, hone⟩ := hs.event hlog (fun _ => by simp) hno
    refine ⟨hqueue, ?_⟩
    simp only [reduceCtorEq, if_false]
    exact (Nat.le_add_right _ _).trans hone

theorem Fired.log (h : Fired mtu s s') : s'.log = s.log ∨ ∃ e, s'.log = s.log ++ [e] := by
  cases h with
  | idle => exact .inl rfl
  | accepted => exact .inr ⟨_, rfl⟩
  | refused => exact .inr ⟨_, rfl⟩
  | started => exact .inr ⟨_, rfl⟩
  | passed => exact .inl rfl
  | finished => exact .inr ⟨_, rfl⟩

/-- Every prefix of the history is the history of an earlier state of the run. -/
theorem exists_run_log {moves : List Move} {log : List Happened}
    (h : log <+: (run mtu moves).log) : ∃ earlier, (run mtu earlier).log = log := by
  induction moves using List.reverseRecOn with
  | nil => exact ⟨[], (List.prefix_nil.1 h).symm⟩
  | append_singleton moves m ih =>
    rw [run_append] at h
    rcases (step_fired mtu (run mtu moves) m).log with hsame | ⟨e, hgrow⟩
    · exact ih (hsame ▸ h)
    · rw [hgrow, List.prefix_concat_iff] at h
      rcases h with h | h
      · exact ⟨moves ++ [m], by rw [run_append, hgrow, h]⟩
      · exact ih h

/-- For every order of the calls of `Send` and `SendBulk` and the steps of `writeLoop`: on each
channel what has been written, then what is being written, then what is queued, is what `enqueue`
accepted, in that order; the write of a refused packet never starts; and between the acceptance of
a control packet and the start of its write at most one bulk write starts. -/
theorem writeLoop_lossless (mtu : ℕ) (moves : List Move) :
    (∀ ch, writtenOn ch (run mtu moves).log ++ (run mtu moves).inWrite ch
        ++ (run mtu moves).queue ch = acceptedOn ch (run mtu moves).log)
      ∧ (∀ ch p e ch', .refused ch p e ∈ (run mtu moves).log →
        .started ch' p ∉ (run mtu moves).log)
      ∧ ∀ before p since after,
        (run mtu moves).log = before ++ .accepted .control p :: since ++ after →
        .started .control p ∉ since → bulkStarts since ≤ 1 := by
  have hconserved := run_conserved mtu moves
  have hunderway : Underway (run mtu moves) :=
    run_invariant (fun _ => rfl) (fun _ _ => Underway.fired) moves
  have houtcome : OneOutcome (run mtu moves) :=
    run_invariant ⟨by simp, by simp, by simp⟩ (fun _ _ => OneOutcome.fired) moves
  refine ⟨hconserved, fun ch p e ch' hrefused hstarted => ?_,
    fun before p since after hlog hno => ?_⟩
  · exact houtcome.disjoint ch' p ch e (started_accepted hconserved hunderway hstarted) hrefused
  · -- the invariant speaks of the end of a history, so go back to where `since` ends
    have hpart : before ++ .accepted .control p :: since <+: (run mtu moves).log :=
      ⟨after, hlog.symm⟩
    obtain ⟨earlier, hearlier⟩ := exists_run_log hpart
    have hwaiting : Waiting (run mtu earlier) :=
      run_invariant (by simp [Waiting]) (fun _ _ => Waiting.fired) earlier
    exact (Nat.le_add_right _ _).trans (hwaiting before p since hearlier hno).2

end Uplink

end Aimless
