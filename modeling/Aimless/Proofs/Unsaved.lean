import Aimless.Lib.Runs
import Aimless.Proofs.Isolation

/-!
# The block list when its file cannot be written

`Block` and `Unblock` one call after another, where each write of `blocked.json` may fail.  A call
changes the list in memory before it writes, and a call that finds nothing to change does not write.
So the file lacks a change whose write failed until another call writes the list, and until then a
call that repeats the change is told that all is well.  `unsaved` are the peers about which the file
is wrong.
-/

namespace Aimless

/-- A call of `Block` or `Unblock`; `persisted` says whether the file can be written during it. -/
structure BlockCall where
  block : Bool
  pub : PublicKey
  persisted : Bool
  deriving DecidableEq, Repr

namespace Daemon

def callBlock (d : Daemon) (c : BlockCall) : Except MailError Unit × Daemon :=
  if c.block then d.block c.persisted c.pub else d.unblock c.persisted c.pub

/-- The daemon after the calls. -/
def afterCalls (d : Daemon) (calls : List BlockCall) : Daemon :=
  calls.foldl (fun d c => (d.callBlock c).2) d

/-- The call has nothing to change. -/
def Idle (d : Daemon) (c : BlockCall) : Prop := c.pub ∈ d.blocked ↔ c.block = true

instance (d : Daemon) (c : BlockCall) : Decidable (d.Idle c) :=
  inferInstanceAs (Decidable (c.pub ∈ d.blocked ↔ c.block = true))

/-- The list in memory and the file agree about a peer. -/
def Agrees (d : Daemon) (p : PublicKey) : Prop := p ∈ d.blockedFile ↔ p ∈ d.blocked

/-- The peers about which the file is wrong, after a call in which it was wrong about `u`. -/
def unsavedAfter (d : Daemon) (u : Finset PublicKey) (c : BlockCall) : Finset PublicKey :=
  if d.Idle c then u else if c.persisted then ∅ else symmDiff u {c.pub}

/-- The peers with an odd number of changes since the last write. -/
def unsaved (d : Daemon) (u : Finset PublicKey) : List BlockCall → Finset PublicKey
  | [] => u
  | c :: calls => unsaved (d.callBlock c).2 (d.unsavedAfter u c) calls

variable {d : Daemon} {c : BlockCall}

/-- What a call can do. -/
theorem callBlock_cases (d : Daemon) (c : BlockCall) :
    (d.Idle c ∧ d.callBlock c = (.ok (), d))
    ∨ (¬ d.Idle c ∧ ∃ keys, (∀ k, k ∈ keys ↔ if k = c.pub then c.block = true else k ∈ d.blocked)
      ∧ d.callBlock c = if c.persisted then (.ok (), { d with blocked := keys, blockedFile := keys })
        else (.error .persist, { d with blocked := keys })) := by
  obtain ⟨block, pub, persisted⟩ := c
  unfold callBlock Idle Daemon.block Daemon.unblock persistBlocked
  cases block with
  | true =>
    by_cases h : pub ∈ d.blocked
    · exact .inl ⟨by simp [h], by simp [h]⟩
    · refine .inr ⟨by simp [h], d.blocked ++ [pub], fun k => ?_, by simp [h]⟩
      by_cases hk : k = pub
      · simp [hk]
      · simp [hk]
  | false =>
    by_cases h : pub ∈ d.blocked
    · refine .inr ⟨by simp [h], d.blocked.filter fun k => k ≠ pub, fun k => ?_, by simp [h]⟩
      by_cases hk : k = pub
      · simp [hk]
      · simp [hk]
    · exact .inl ⟨by simp [h], by simp [h]⟩

/-- A call that returns without an error leaves file and memory agreeing about its peer, unless it
had nothing to change and they disagreed before. -/
theorem ok_agrees_iff (d : Daemon) (c : BlockCall) :
    ((d.callBlock c).1 = .ok () → (d.callBlock c).2.Agrees c.pub)
      ↔ (d.Idle c → d.Agrees c.pub) := by
  rcases d.callBlock_cases c with ⟨hidle, heq⟩ | ⟨hidle, keys, -, heq⟩
  · simp [heq, hidle]
  · rw [heq]
    by_cases hp : c.persisted = true
    · simp [hp, hidle, Agrees]
    · simp [hp, hidle]

/-- A call that returns an error has changed the list in memory. -/
theorem error_kept_iff (d : Daemon) (c : BlockCall) :
    ((d.callBlock c).1 ≠ .ok () → ∀ k, k ∈ (d.callBlock c).2.blocked ↔ k ∈ d.blocked)
      ↔ d.Idle c ∨ c.persisted = true := by
  rcases d.callBlock_cases c with ⟨hidle, heq⟩ | ⟨hidle, keys, hkeys, heq⟩
  · simp [heq, hidle]
  · rw [heq]
    by_cases hp : c.persisted = true
    · simp [hp]
    · simp only [hp, Bool.false_eq_true, if_false, hidle, or_false, iff_false]
      intro h
      have hpub := (h (by simp) c.pub).symm.trans (hkeys c.pub)
      rw [if_pos rfl] at hpub
      exact hidle hpub

theorem mem_unsavedAfter {u : Finset PublicKey} (h : ∀ k, k ∈ u ↔ ¬ d.Agrees k) (k : PublicKey) :
    k ∈ d.unsavedAfter u c ↔ ¬ (d.callBlock c).2.Agrees k := by
  unfold unsavedAfter
  rcases d.callBlock_cases c with ⟨hidle, heq⟩ | ⟨hidle, keys, hkeys, heq⟩
  · rw [heq, if_pos hidle]
    exact h k
  · rw [heq, if_neg hidle]
    by_cases hp : c.persisted = true
    · simp [hp, Agrees]
    · simp only [hp, Bool.false_eq_true, if_false, Finset.mem_symmDiff, Finset.mem_singleton, h,
        Agrees, hkeys]
      unfold Idle at hidle
      by_cases hk : k = c.pub
      · subst hk
        simp only [if_true]
        tauto
      · simp [hk]

theorem mem_unsaved : ∀ (calls : List BlockCall) {d : Daemon} {u : Finset PublicKey},
    (∀ k, k ∈ u ↔ ¬ d.Agrees k) → ∀ k, k ∈ d.unsaved u calls ↔ ¬ (d.afterCalls calls).Agrees k
  | [], _, _, h, k => h k
  | _ :: calls, _, _, h, k => mem_unsaved calls (mem_unsavedAfter h) k

/-- Where every call writes what it changes, nothing is unsaved. -/
theorem agrees_afterCalls (hd : ∀ k, d.Agrees k) (calls : List BlockCall) (n : ℕ)
    (h : ∀ n c, calls[n]? = some c → (d.afterCalls (calls.take n)).Idle c ∨ c.persisted = true) :
    ∀ k, (d.afterCalls (calls.take n)).Agrees k := by
  refine Runs.invariant (I := fun d => ∀ k, d.Agrees k) (fun d c => (callBlock d c).2) d calls hd
    (fun n c hc ih => ?_) n
  rcases (d.afterCalls (calls.take n)).callBlock_cases c with ⟨-, heq⟩ | ⟨hidle, keys, -, heq⟩
  · show ∀ k, ((d.afterCalls (calls.take n)).callBlock c).2.Agrees k
    rw [heq]
    exact ih
  · show ∀ k, ((d.afterCalls (calls.take n)).callBlock c).2.Agrees k
    rw [heq, if_pos ((h n c hc).resolve_left hidle)]
    exact fun k => Iff.rfl

/-- What a call that returns without an error promises: a restart finds its peer in the list as it
is now. -/
def Confirmed (d : Daemon) (c : BlockCall) : Prop :=
  (d.callBlock c).1 = .ok () → (d.callBlock c).2.Agrees c.pub

/-- What a call that returns an error promises: the list in memory is as it was. -/
def Refused (d : Daemon) (c : BlockCall) : Prop :=
  (d.callBlock c).1 ≠ .ok () → ∀ k, k ∈ (d.callBlock c).2.blocked ↔ k ∈ d.blocked

end Daemon

/-- In every run of calls of a daemon that has started: every call keeps its promise, whether it
returns an error or not, exactly if no call that has to write fails to; and those that return
without an error keep theirs exactly if no call that has nothing to change is about an unsaved
peer. -/
theorem confirmed_iff (db : DB) (blockedFile contactsFile : List PublicKey)
    (calls : List BlockCall) :
    let d := Daemon.newMail db blockedFile contactsFile
    ((∀ n c, calls[n]? = some c → (d.afterCalls (calls.take n)).Confirmed c
        ∧ (d.afterCalls (calls.take n)).Refused c)
      ↔ ∀ n c, calls[n]? = some c → (d.afterCalls (calls.take n)).Idle c ∨ c.persisted = true)
    ∧ ((∀ n c, calls[n]? = some c → (d.afterCalls (calls.take n)).Confirmed c)
      ↔ ∀ n c, calls[n]? = some c → (d.afterCalls (calls.take n)).Idle c →
        c.pub ∉ d.unsaved ∅ (calls.take n)) := by
  intro d
  have hd : ∀ k, d.Agrees k := by
    intro k
    obtain ⟨hmem, hfile⟩ := Daemon.newMail_blocked db blockedFile contactsFile
    unfold Daemon.Agrees
    rw [hmem, hfile]
  constructor
  · constructor
    · exact fun h n c hc => (Daemon.error_kept_iff _ c).1 (h n c hc).2
    · intro h n c hc
      have hagrees := Daemon.agrees_afterCalls hd calls n h c.pub
      exact ⟨(Daemon.ok_agrees_iff _ c).2 fun _ => hagrees,
        (Daemon.error_kept_iff _ c).2 (h n c hc)⟩
  · refine forall₃_congr fun n c _ => (Daemon.ok_agrees_iff _ c).trans ?_
    refine imp_congr_right fun _ => ?_
    rw [Daemon.mem_unsaved _ (fun k => by simp [hd k]), not_not]

/-- A block that could not be written is repeated and confirmed, and is gone after a restart. -/
theorem repeated_block_forgotten :
    let d := (Daemon.newMail {} [] []).afterCalls [⟨true, [1], false⟩]
    ((Daemon.newMail {} [] []).callBlock ⟨true, [1], false⟩).1 = .error .persist
      ∧ d.blocked = [[1]] ∧ (d.callBlock ⟨true, [1], true⟩).1 = .ok ()
      ∧ [1] ∈ (d.callBlock ⟨true, [1], true⟩).2.blocked
      ∧ [1] ∉ (d.callBlock ⟨true, [1], true⟩).2.restart.blocked := by
  decide

end Aimless
