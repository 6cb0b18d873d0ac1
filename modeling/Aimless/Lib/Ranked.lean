import Mathlib

/-!
# Lists ranked by a key

`ranked key l` is `l` in ascending order of `key`.  Where no two elements share a key it depends on
the elements only (`ranked_congr`), and leaving elements out does not change the order of the others
(`ranked_filter`).
-/

namespace Ranked

variable {α κ : Type*} [LinearOrder κ] (key : α → κ)

def ranked (l : List α) : List α := l.insertionSort fun a b => key a ≤ key b

/-- No two elements share a key. -/
def Keyed (l : List α) : Prop := ∀ a ∈ l, ∀ b ∈ l, key a = key b → a = b

variable {key} {l l' : List α}

variable (key) in
theorem ranked_perm (l : List α) : (ranked key l).Perm l := List.perm_insertionSort _ l

variable (key) in
theorem pairwise_ranked (l : List α) : (ranked key l).Pairwise fun a b => key a ≤ key b := by
  have : Std.Total fun a b : α => key a ≤ key b := ⟨fun a b => le_total (key a) (key b)⟩
  have : IsTrans α fun a b => key a ≤ key b := ⟨fun _ _ _ => le_trans⟩
  exact List.pairwise_insertionSort _ l

/-- Only one list of these elements is in order. -/
theorem eq_ranked (hk : Keyed key l) (hp : l'.Perm l) (hs : l'.Pairwise fun a b => key a ≤ key b) :
    l' = ranked key l := by
  have hperm : l'.Perm (ranked key l) := hp.trans (ranked_perm key l).symm
  refine hperm.eq_of_pairwise (fun a b ha hb hab hba => ?_) hs (pairwise_ranked key l)
  exact hk a (hp.mem_iff.1 ha) b ((ranked_perm key l).mem_iff.1 hb) (le_antisymm hab hba)

theorem ranked_congr (hk : Keyed key l) (hp : l'.Perm l) : ranked key l' = ranked key l :=
  eq_ranked hk ((ranked_perm key l').trans hp) (pairwise_ranked key l')

theorem ranked_filter (hk : Keyed key l) (p : α → Bool) :
    ranked key (l.filter p) = (ranked key l).filter p := by
  refine (eq_ranked (fun a ha b hb => ?_) ((ranked_perm key l).filter p) ?_).symm
  · exact hk a (List.mem_of_mem_filter ha) b (List.mem_of_mem_filter hb)
  · exact (pairwise_ranked key l).filter p

theorem head?_ranked (hk : Keyed key l) {a : α} (ha : a ∈ l) (hmin : ∀ b ∈ l, key a ≤ key b) :
    (ranked key l).head? = some a := by
  rcases hr : ranked key l with _ | ⟨b, rest⟩
  · have := (ranked_perm key l).mem_iff.2 ha
    rw [hr] at this
    cases this
  · have hb : b ∈ l := (ranked_perm key l).mem_iff.1 (hr ▸ List.mem_cons_self)
    have hle : key b ≤ key a := by
      have hsorted := pairwise_ranked key l
      rw [hr, List.pairwise_cons] at hsorted
      have hmem : a ∈ b :: rest := hr ▸ (ranked_perm key l).mem_iff.2 ha
      rcases List.mem_cons.1 hmem with rfl | hmem
      · exact le_rfl
      · exact hsorted.1 a hmem
    rw [List.head?_cons, hk b hb a ha (le_antisymm hle (hmin b hb))]

end Ranked
