import Mathlib

/-!
# Machines with an output, and unwinding

A machine takes moves and puts something out at each.  An invariant may tie the state to the moves
made and to all that has been put out so far (`run_invariant`).

Some of the moves concern an observer.  A relation between states which a move that does not concern
the observer keeps on one side, and which a move that does keeps on both with the same output, is
kept by a whole run against the run of the concerning moves alone; so the observer cannot tell the
two apart (`run_purge`).
-/

namespace Unwinding

variable {σ μ ω : Type*} (step : σ → μ → σ × List ω)

/-- A run: the state after the moves and what they put out, in order. -/
def run : σ → List μ → σ × List ω
  | s, [] => (s, [])
  | s, m :: ms => ((run (step s m).1 ms).1, (step s m).2 ++ (run (step s m).1 ms).2)

theorem run_fst : ∀ (s : σ) (ms : List μ),
    (run step s ms).1 = ms.foldl (fun s m => (step s m).1) s
  | _, [] => rfl
  | s, m :: ms => run_fst (step s m).1 ms

/-- `pre` are the moves that led to `s`, and `out` is what they put out. -/
theorem run_invariant_from {I : List μ → σ → List ω → Prop}
    (hstep : ∀ pre s out m, I pre s out → I (pre ++ [m]) (step s m).1 (out ++ (step s m).2)) :
    ∀ (ms : List μ) {pre : List μ} {s : σ} {out : List ω}, I pre s out →
      I (pre ++ ms) (run step s ms).1 (out ++ (run step s ms).2)
  | [], pre, _, out, h => by
    rw [run, List.append_nil, List.append_nil]
    exact h
  | m :: ms, pre, s, out, h => by
    have ih := run_invariant_from hstep ms (hstep pre s out m h)
    rw [List.append_assoc, List.append_assoc] at ih
    exact ih

theorem run_invariant {I : List μ → σ → List ω → Prop} {s : σ} (init : I [] s [])
    (hstep : ∀ pre s out m, I pre s out → I (pre ++ [m]) (step s m).1 (out ++ (step s m).2))
    (ms : List μ) : I ms (run step s ms).1 (run step s ms).2 :=
  run_invariant_from step hstep ms init

variable (concerns : μ → Bool)

/-- What the moves that concern the observer put out in a run of all. -/
def shown : σ → List μ → List ω
  | _, [] => []
  | s, m :: ms =>
    if concerns m then (step s m).2 ++ shown (step s m).1 ms else shown (step s m).1 ms

/-- The two conditions on a single move. -/
structure Hides (ok : μ → Prop) (R : σ → σ → Prop) : Prop where
  other : ∀ s t m, R s t → ok m → ¬ concerns m → R (step s m).1 t
  own : ∀ s t m, R s t → ok m → concerns m →
    R (step s m).1 (step t m).1 ∧ (step s m).2 = (step t m).2

theorem run_purge {ok : μ → Prop} {R : σ → σ → Prop} (h : Hides step concerns ok R) :
    ∀ (ms : List μ) {s t : σ}, R s t → (∀ m ∈ ms, ok m) →
      R (run step s ms).1 (run step t (ms.filter concerns)).1
        ∧ shown step concerns s ms = (run step t (ms.filter concerns)).2
  | [], _, _, hR, _ => ⟨hR, rfl⟩
  | m :: ms, s, t, hR, hok => by
    have hm := hok m List.mem_cons_self
    have hms := fun m' hm' => hok m' (List.mem_cons_of_mem m hm')
    by_cases hc : concerns m
    · obtain ⟨hstep, hout⟩ := h.own s t m hR hm hc
      obtain ⟨hrun, hshown⟩ := run_purge h ms hstep hms
      rw [List.filter_cons_of_pos hc, shown, if_pos hc]
      exact ⟨hrun, by rw [hshown, hout]; rfl⟩
    · obtain ⟨hrun, hshown⟩ := run_purge h ms (h.other s t m hR hm hc) hms
      rw [List.filter_cons_of_neg hc, shown, if_neg hc]
      exact ⟨hrun, hshown⟩

end Unwinding
