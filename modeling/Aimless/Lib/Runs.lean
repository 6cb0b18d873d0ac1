import Mathlib

/-!
# Runs of a state machine

A run folds the step function over the moves.  What holds at the start and is kept by each move,
made in the state that the moves before it lead to, holds all along the run; and records that each
move extends go with the run (`exists_records`).

A state is reached from another by moves of a kind (`Reaches`); while moves of the kind can lower a
measure, a state where it is zero can be reached (`Reaches.of_measure`).
-/

namespace Runs

variable {σ μ : Type*} (step : σ → μ → σ) (s : σ)

theorem foldl_take_succ {moves : List μ} {n : ℕ} {m : μ} (h : moves[n]? = some m) :
    (moves.take (n + 1)).foldl step s = step ((moves.take n).foldl step s) m := by
  rw [List.take_add_one, h, Option.toList_some, List.foldl_append]
  rfl

theorem invariant {I : σ → Prop} (moves : List μ) (init : I s)
    (hstep : ∀ n m, moves[n]? = some m → I ((moves.take n).foldl step s) →
      I (step ((moves.take n).foldl step s) m)) (n : ℕ) : I ((moves.take n).foldl step s) := by
  induction n with
  | zero => exact init
  | succ n ih =>
    rcases hm : moves[n]? with _ | m
    · rw [List.take_add_one, hm, Option.toList_none, List.append_nil]
      exact ih
    · rw [foldl_take_succ step s hm]
      exact hstep n m hm ih

/-- The state at the end of a run. -/
theorem invariant_end {I : σ → Prop} (moves : List μ) (init : I s)
    (hstep : ∀ m ∈ moves, ∀ t, I t → I (step t m)) : I (moves.foldl step s) := by
  have h := invariant step s moves init (fun n m hm => hstep m (List.mem_of_getElem? hm) _)
    moves.length
  rwa [List.take_length] at h

/-- If every move extends a record that goes with the state, there are records for all states of a
run, each extended by the next. -/
theorem exists_records {α : Type*} {P : σ → α → Prop} {R : α → α → Prop} (refl : ∀ a, R a a)
    {a : α} (init : P s a) (hstep : ∀ t a m, P t a → ∃ b, P (step t m) b ∧ R a b)
    (moves : List μ) : ∃ f : ℕ → α,
      ∀ n, P ((moves.take n).foldl step s) (f n) ∧ R (f n) (f (n + 1)) := by
  have hnext : ∀ n a, P ((moves.take n).foldl step s) a →
      ∃ b, P ((moves.take (n + 1)).foldl step s) b ∧ R a b := by
    intro n a ha
    rcases hm : moves[n]? with _ | m
    · refine ⟨a, ?_, refl a⟩
      rw [List.take_add_one, hm, Option.toList_none, List.append_nil]
      exact ha
    · rw [foldl_take_succ step s hm]
      exact hstep _ a m ha
  choose next hP hR using hnext
  let f : (n : ℕ) → {a // P ((moves.take n).foldl step s) a} :=
    Nat.rec ⟨a, init⟩ fun n a => ⟨next n a.1 a.2, hP n a.1 a.2⟩
  exact ⟨fun n => (f n).1, fun n => ⟨(f n).2, hR n (f n).1 (f n).2⟩⟩

/-- A fact about each move of a run, from one about each position. -/
theorem forall_moves {P : ℕ → μ → Prop} {moves : List μ}
    (h : ∀ n : Fin moves.length, P n moves[n]) : ∀ n m, moves[n]? = some m → P n m := by
  intro n m hm
  obtain ⟨hlt, rfl⟩ := List.getElem?_eq_some_iff.1 hm
  exact h ⟨n, hlt⟩

/-- Moves of a kind lead from `s` to `t`. -/
def Reaches (ok : μ → Prop) (s t : σ) : Prop :=
  ∃ moves : List μ, (∀ m ∈ moves, ok m) ∧ moves.foldl step s = t

namespace Reaches

variable {step} {ok : μ → Prop} {s t u : σ}

theorem refl (s : σ) : Reaches step ok s s := ⟨[], by simp, rfl⟩

theorem trans (h : Reaches step ok s t) (h' : Reaches step ok t u) : Reaches step ok s u := by
  obtain ⟨ms, hms, rfl⟩ := h
  obtain ⟨ms', hms', rfl⟩ := h'
  refine ⟨ms ++ ms', fun m hm => ?_, List.foldl_append⟩
  exact (List.mem_append.1 hm).elim (hms m) (hms' m)

theorem one {m : μ} (h : ok m) : Reaches step ok s (step s m) := ⟨[m], by simpa using h, rfl⟩

theorem of_measure {I : σ → Prop} (f : σ → ℕ)
    (h : ∀ s, I s → f s ≠ 0 → ∃ t, Reaches step ok s t ∧ I t ∧ f t < f s) {s : σ} (hs : I s) :
    ∃ t, Reaches step ok s t ∧ I t ∧ f t = 0 := by
  induction hf : f s using Nat.strong_induction_on generalizing s with
  | _ n ih =>
    by_cases hz : f s = 0
    · exact ⟨s, refl s, hs, hz⟩
    · obtain ⟨t, hst, ht, hlt⟩ := h s hs hz
      obtain ⟨u, htu, hu, hzero⟩ := ih (f t) (hf ▸ hlt) ht rfl
      exact ⟨u, hst.trans htu, hu, hzero⟩

end Reaches

end Runs
