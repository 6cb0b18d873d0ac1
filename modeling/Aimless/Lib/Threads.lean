import Mathlib

/-!
# Threads of atomic sections

A thread works on a state that it shares: it runs one section after another, each under a lock or
in a transaction, and between two of them anything may happen to the state.  A section sees the
state and what comes from outside (a clock, whether a write succeeds).

`Ran` is the account of a thread: which sections it has run, what each found and left, and what
there is left to do.  A thread that nothing came between is the function `run` (`Ran.run_eq`), a
property of every possible result holds of the result (`Ran.returns`), and a result that one section
settles is explained by what that section saw (`Ran.decided`).  A worker that takes one
task after another has one `Job` for each, read off its record (`jobs`).
-/

universe u

/-- `step f next` runs the section `f` and goes on as `next` says, by what the section saw. -/
inductive Thread (σ ι α : Type u) : Type u where
  | done (a : α)
  | step (f : ι → σ → σ) (next : ι → σ → Thread σ ι α)

/-- A section that was run. -/
structure Section (σ ι : Type u) where
  outside : ι
  before : σ
  after : σ

namespace Thread

variable {σ ι α β τ : Type u}

def bind : Thread σ ι α → (α → Thread σ ι β) → Thread σ ι β
  | .done a, k => k a
  | .step f next, k => .step f fun i s => (next i s).bind k

instance : Monad (Thread σ ι) where
  pure := .done
  bind := bind

theorem bind_assoc {γ : Type u} (t : Thread σ ι α) (k : α → Thread σ ι β)
    (k' : β → Thread σ ι γ) : (t >>= k) >>= k' = t >>= fun a => k a >>= k' := by
  induction t with
  | done a => rfl
  | step f next ih => exact congrArg (Thread.step f) (funext fun i => funext fun s => ih i s)

/-- A thread of one section. -/
def atomic (f : ι → σ → α × σ) : Thread σ ι α :=
  .step (fun i s => (f i s).2) fun i s => .done (f i s).1

/-- What a thread that is done returns. -/
def value? : Thread σ ι α → Option α
  | .done a => some a
  | .step _ _ => none

theorem value?_eq_some {t : Thread σ ι α} {a : α} : t.value? = some a ↔ t = .done a := by
  cases t <;> simp [value?]

/-! ### Without interruption -/

/-- The thread with nothing between its sections, all of which see the same from outside. -/
def run (i : ι) : Thread σ ι α → σ → α × σ
  | .done a, s => (a, s)
  | .step f next, s => (next i s).run i (f i s)

@[simp] theorem run_pure (i : ι) (a : α) (s : σ) : (pure a : Thread σ ι α).run i s = (a, s) := rfl

@[simp] theorem run_atomic (i : ι) (f : ι → σ → α × σ) (s : σ) : (atomic f).run i s = f i s := rfl

@[simp] theorem run_bind (i : ι) (t : Thread σ ι α) (k : α → Thread σ ι β) (s : σ) :
    (t >>= k).run i s = (k (t.run i s).1).run i (t.run i s).2 := by
  induction t generalizing s with
  | done a => rfl
  | step f next ih => exact ih i s (f i s)

/-! ### What a thread can return -/

/-- Whatever happens between the sections, the result satisfies `Q`. -/
def Returns (Q : α → Prop) : Thread σ ι α → Prop
  | .done a => Q a
  | .step _ next => ∀ i s, (next i s).Returns Q

variable {Q : α → Prop} {R : β → Prop}

theorem returns_of_forall (h : ∀ a, Q a) : ∀ t : Thread σ ι α, t.Returns Q
  | .done a => h a
  | .step _ next => fun i s => returns_of_forall h (next i s)

theorem returns_pure {a : α} (h : Q a) : (pure a : Thread σ ι α).Returns Q := h

theorem Returns.mono {Q' : α → Prop} {t : Thread σ ι α} (h : t.Returns Q) (hQ : ∀ a, Q a → Q' a) :
    t.Returns Q' := by
  induction t with
  | done a => exact hQ a h
  | step f next ih => exact fun i s => ih i s (h i s)

theorem Returns.bind {t : Thread σ ι α} {k : α → Thread σ ι β} (h : t.Returns Q)
    (hk : ∀ a, Q a → (k a).Returns R) : (t >>= k).Returns R := by
  induction t with
  | done a => exact hk a h
  | step f next ih => exact fun i s => ih i s (h i s)

/-- Where nothing need be known of the first thread. -/
theorem returns_bind {t : Thread σ ι α} {k : α → Thread σ ι β} (hk : ∀ a, (k a).Returns R) :
    (t >>= k).Returns R :=
  (returns_of_forall (fun _ => trivial) t : t.Returns fun _ => True).bind fun a _ => hk a

theorem Returns.run {t : Thread σ ι α} (h : t.Returns Q) (i : ι) (s : σ) : Q (t.run i s).1 := by
  induction t generalizing s with
  | done a => exact h
  | step f next ih => exact ih i s (h i s) (f i s)

/-! ### With interruptions -/

/-- `t` has run the sections `l`, and `t'` is left of it. -/
inductive Ran : Thread σ ι α → List (Section σ ι) → Thread σ ι α → Prop
  | nil (t : Thread σ ι α) : Ran t [] t
  | cons {f : ι → σ → σ} {next : ι → σ → Thread σ ι α} {i : ι} {s : σ} {l : List (Section σ ι)}
      {t' : Thread σ ι α} (h : Ran (next i s) l t') : Ran (.step f next) (⟨i, s, f i s⟩ :: l) t'

variable {t t' : Thread σ ι α} {l : List (Section σ ι)}

theorem Ran.snoc {f : ι → σ → σ} {next : ι → σ → Thread σ ι α} (h : Ran t l (.step f next))
    (i : ι) (s : σ) : Ran t (l ++ [⟨i, s, f i s⟩]) (next i s) := by
  generalize hrest : Thread.step f next = rest at h
  induction h with
  | nil t =>
    subst hrest
    exact .cons (.nil _)
  | cons h ih => exact .cons (ih hrest)

theorem Ran.returns (h : Ran t l t') (hQ : t.Returns Q) : t'.Returns Q := by
  induction h with
  | nil => exact hQ
  | cons h ih => exact ih (hQ _ _)

/-- There is a section by which the result is settled: `Q` relates it to what that section saw,
whatever happens before and after. -/
def Decided (Q : ι → σ → α → Prop) : Thread σ ι α → Prop
  | .done _ => False
  | .step _ next => ∀ i s, (next i s).Returns (Q i s) ∨ (next i s).Decided Q

theorem decided_here {Q : ι → σ → β → Prop} {f : ι → σ → α × σ} {k : α → Thread σ ι β}
    (h : ∀ i s, (k (f i s).1).Returns (Q i s)) : (atomic f >>= k).Decided Q :=
  fun i s => .inl (h i s)

theorem decided_later {Q : ι → σ → β → Prop} {t : Thread σ ι α} {k : α → Thread σ ι β}
    (h : ∀ a, (k a).Decided Q) : (t >>= k).Decided Q := by
  induction t with
  | done a => exact h a
  | step f next ih => exact fun i s => .inr (ih i s)

theorem Decided.mono {Q Q' : ι → σ → α → Prop} {t : Thread σ ι α} (h : t.Decided Q)
    (hQ : ∀ i s a, Q i s a → Q' i s a) : t.Decided Q' := by
  induction t with
  | done a => exact h.elim
  | step f next ih => exact fun i s => (h i s).imp (·.mono (hQ i s)) (ih i s)

theorem Decided.bind {Q : ι → σ → α → Prop} {Q' : ι → σ → β → Prop} {t : Thread σ ι α}
    {k : α → Thread σ ι β} (h : t.Decided Q)
    (hk : ∀ i s a, Q i s a → (k a).Returns (Q' i s)) : (t >>= k).Decided Q' := by
  induction t with
  | done a => exact h.elim
  | step f next ih => exact fun i s => (h i s).imp (·.bind (hk i s)) (ih i s)

theorem Ran.decided {Q : ι → σ → α → Prop} {a : α} (h : Ran t l t') (hdone : t' = .done a)
    (hQ : t.Decided Q) : ∃ c ∈ l, Q c.outside c.before a := by
  induction h with
  | nil t =>
    subst hdone
    exact hQ.elim
  | cons h ih =>
    rcases hQ _ _ with hret | hdec
    · subst hdone
      exact ⟨_, List.mem_cons_self, h.returns hret⟩
    · obtain ⟨c, hc, hQc⟩ := ih hdone hdec
      exact ⟨c, List.mem_cons_of_mem _ hc, hQc⟩

/-- The changes lead from the first state to the last, each from where the one before it led. -/
def Follows : σ → List (σ × σ) → σ → Prop
  | s, [], s' => s = s'
  | s, (before, after) :: l, s' => before = s ∧ Follows after l s'

theorem Follows.snoc {s s' : σ} : ∀ {l : List (σ × σ)} {s₀ : σ}, Follows s₀ l s →
    Follows s₀ (l ++ [(s, s')]) s'
  | [], _, rfl => ⟨rfl, rfl⟩
  | (_, _) :: _, _, ⟨hbefore, h⟩ => ⟨hbefore, h.snoc⟩

end Thread

namespace Section

variable {σ ι : Type u}

def change (c : Section σ ι) : σ × σ := (c.before, c.after)

end Section

namespace Thread

variable {σ ι α τ : Type u}

/-- A thread that nothing came between is a function of the state it started in. -/
theorem Ran.run_eq {t t' : Thread σ ι α} {l : List (Section σ ι)} {a : α} {i : ι} {s s' : σ}
    (h : Ran t l t') (hdone : t' = .done a) (hl : Follows s (l.map Section.change) s')
    (hi : ∀ c ∈ l, c.outside = i) : t.run i s = (a, s') := by
  induction h generalizing s with
  | nil t =>
    obtain rfl : s = s' := hl
    rw [hdone]
    rfl
  | cons h ih =>
    obtain ⟨hbefore, hrest⟩ := hl
    obtain ⟨houtside, hothers⟩ := List.forall_mem_cons.1 hi
    dsimp only [Section.change] at hbefore houtside
    subst hbefore houtside
    exact ih hdone hrest hothers

end Thread

/-! ### Workers -/

/-- A task that a worker took, with the sections it ran for it. -/
structure Job (τ σ ι : Type u) where
  task : τ
  sections : List (Section σ ι)

namespace Job

variable {τ σ ι α : Type u}

/-- Taking a task begins a job; a section belongs to the last. -/
def add (jobs : List (Job τ σ ι)) : τ ⊕ Section σ ι → List (Job τ σ ι)
  | .inl task => jobs ++ [⟨task, []⟩]
  | .inr c => jobs.dropLast ++ (jobs.getLast?.map fun j => { j with
      sections := j.sections ++ [c] }).toList

/-- The jobs of a worker, by its record. -/
def jobs (record : List (τ ⊕ Section σ ι)) : List (Job τ σ ι) := record.foldl add []

/-- `t` is left of the job; a task for which `start` has no thread is none. -/
def Left (start : τ → Option (Thread σ ι α)) (j : Job τ σ ι) (t : Thread σ ι α) : Prop :=
  ∃ t₀, start j.task = some t₀ ∧ t₀.Ran j.sections t

variable {start : τ → Option (Thread σ ι α)} {record : List (τ ⊕ Section σ ι)}
  {ts : List (Thread σ ι α)}

theorem jobs_task (record : List (τ ⊕ Section σ ι)) (task : τ) :
    jobs (record ++ [.inl task]) = jobs record ++ [⟨task, []⟩] := by
  rw [jobs, List.foldl_append]
  rfl

theorem jobs_section {js : List (Job τ σ ι)} {j : Job τ σ ι} (h : jobs record = js ++ [j])
    (c : Section σ ι) : jobs (record ++ [.inr c])
      = js ++ [{ j with sections := j.sections ++ [c] }] := by
  rw [jobs, List.foldl_append]
  change add (jobs record) (.inr c) = _
  rw [h, add, List.dropLast_concat, List.getLast?_concat]
  rfl

/-- The worker takes a task. -/
theorem left_task {task : τ} {t : Thread σ ι α} (h : (jobs record).Forall₂ (Left start) ts)
    (ht : start task = some t) :
    (jobs (record ++ [.inl task])).Forall₂ (Left start) (ts ++ [t]) := by
  rw [jobs_task]
  exact List.rel_append h (.cons ⟨t, ht, .nil t⟩ .nil)

/-- The last job, and what is left of it. -/
theorem left_concat {js : List (Job τ σ ι)} {t : Thread σ ι α}
    (h : js.Forall₂ (Left start) (ts ++ [t])) : ∃ js' j, js = js' ++ [j]
      ∧ js'.Forall₂ (Left start) ts ∧ j.Left start t := by
  have hfirst := List.forall₂_take_append js ts [t] h
  have hlast := List.forall₂_drop_append js ts [t] h
  obtain ⟨j, rest, hj, hrest, hdrop⟩ := List.forall₂_cons_right_iff.1 hlast
  obtain rfl := List.forall₂_nil_right_iff.1 hrest
  exact ⟨_, j, by rw [← hdrop, List.take_append_drop], hfirst, hj⟩

/-- The worker runs a section, and has the same tasks. -/
theorem left_section {f : ι → σ → σ} {next : ι → σ → Thread σ ι α}
    (h : (jobs record).Forall₂ (Left start) (ts ++ [.step f next])) (i : ι) (s : σ) :
    (jobs (record ++ [.inr ⟨i, s, f i s⟩])).Forall₂ (Left start) (ts ++ [next i s])
      ∧ (jobs (record ++ [.inr ⟨i, s, f i s⟩])).map task = (jobs record).map task := by
  obtain ⟨js, j, hjs, hold, t₀, ht₀, hran⟩ := left_concat h
  rw [jobs_section hjs]
  refine ⟨List.rel_append hold (.cons ⟨t₀, ht₀, hran.snoc i s⟩ .nil), ?_⟩
  rw [hjs, List.map_append, List.map_append]
  rfl

end Job
