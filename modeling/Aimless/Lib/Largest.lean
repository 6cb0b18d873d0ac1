import Mathlib

/-!
# The `k` largest elements of a finite set

`largest k S` keeps the elements of `S` with fewer than `k` elements of `S` above them.  It is the
one subset of `S` of its size that lies above the rest (`IsLargest.eq`).

A window of the `k` largest can be kept without the rest of the set: adding an element to the
window and cutting back to `k` is the window of the enlarged set (`largest_insert_largest`), and
cutting back may drop the smallest element one at a time (`largest_erase_min`).
-/

namespace Window

variable {α : Type*} [LinearOrder α]

/-- The `k` largest elements of `S`, or all of `S` where it has fewer. -/
def largest (k : ℕ) (S : Finset α) : Finset α :=
  S.filter fun x => (S.filter (x < ·)).card < k

/-- `T` has `min k |S|` elements of `S` and lies above the rest of `S`. -/
structure IsLargest (k : ℕ) (S T : Finset α) : Prop where
  subset : T ⊆ S
  card_eq : T.card = min k S.card
  above : ∀ x ∈ T, ∀ y ∈ S, y ∉ T → y < x

theorem largest_subset (k : ℕ) (S : Finset α) : largest k S ⊆ S :=
  Finset.filter_subset _ _

theorem largest_eq_self {k : ℕ} {S : Finset α} (h : S.card ≤ k) : largest k S = S := by
  refine Finset.filter_eq_self.2 fun x hx => ?_
  have hlt : (S.filter (x < ·)).card < S.card :=
    Finset.card_lt_card (Finset.filter_ssubset.2 ⟨x, hx, lt_irrefl x⟩)
  omega

theorem lt_of_mem_largest {k : ℕ} {S : Finset α} {x y : α} (hx : x ∈ largest k S) (hy : y ∈ S)
    (hny : y ∉ largest k S) : y < x := by
  by_contra hle
  rw [not_lt] at hle
  obtain ⟨-, hxk⟩ := Finset.mem_filter.1 hx
  have hsub : S.filter (y < ·) ⊆ S.filter (x < ·) :=
    Finset.monotone_filter_right _ fun z _ hz => lt_of_le_of_lt hle hz
  exact hny (Finset.mem_filter.2 ⟨hy, (Finset.card_le_card hsub).trans_lt hxk⟩)

/-- Below a set of `k` elements a new minimum is not among the `k` largest; below a smaller one it
is. -/
theorem largest_insert_min {k : ℕ} {S : Finset α} {a : α} (h : ∀ x ∈ S, a < x) :
    largest k (insert a S) = if S.card < k then insert a (largest k S) else largest k S := by
  have ha : a ∉ S := fun hm => lt_irrefl a (h a hm)
  have hself : (insert a S).filter (a < ·) = S := by
    rw [Finset.filter_insert, if_neg (lt_irrefl a), Finset.filter_eq_self.2 h]
  have hother : ∀ x ∈ S, (insert a S).filter (x < ·) = S.filter (x < ·) := fun x hx => by
    rw [Finset.filter_insert, if_neg (h x hx).not_gt]
  have hS : S.filter (fun x => ((insert a S).filter (x < ·)).card < k) = largest k S :=
    Finset.filter_congr fun x hx => by rw [hother x hx]
  unfold largest at hS ⊢
  rw [Finset.filter_insert, hself, hS]

theorem card_largest (k : ℕ) (S : Finset α) : (largest k S).card = min k S.card := by
  induction S using Finset.induction_on_min with
  | empty => simp [largest]
  | insert a S h ih =>
    have ha : a ∉ S := fun hm => lt_irrefl a (h a hm)
    rw [largest_insert_min h, Finset.card_insert_of_notMem ha]
    split_ifs with hk
    · rw [Finset.card_insert_of_notMem fun hm => ha (largest_subset k S hm), ih]
      omega
    · rw [ih]
      omega

theorem isLargest_largest (k : ℕ) (S : Finset α) : IsLargest k S (largest k S) :=
  ⟨largest_subset k S, card_largest k S, fun _ hx _ hy hny => lt_of_mem_largest hx hy hny⟩

/-- Only one subset of that size lies above the rest. -/
theorem IsLargest.eq {k : ℕ} {S T : Finset α} (h : IsLargest k S T) : T = largest k S := by
  have hcard : T.card = (largest k S).card := by rw [h.card_eq, card_largest]
  refine Finset.eq_of_subset_of_card_le (fun x hx => ?_) hcard.ge
  by_contra hxL
  have hnot : ¬ largest k S ⊆ T := fun hsub =>
    hxL (Finset.eq_of_subset_of_card_le hsub hcard.le ▸ hx)
  obtain ⟨y, hyL, hyT⟩ := Finset.not_subset.1 hnot
  have hyx : y < x := h.above x hx y (largest_subset k S hyL) hyT
  have hxy : x < y := lt_of_mem_largest hyL (h.subset hx) hxL
  exact lt_asymm hyx hxy

/-- A map that keeps the order of the set keeps its window. -/
theorem largest_image {β : Type*} [LinearOrder β] {S : Finset α} {f : α → β}
    (hf : ∀ x ∈ S, ∀ y ∈ S, x < y → f x < f y) (k : ℕ) :
    largest k (S.image f) = (largest k S).image f := by
  have hinj : Set.InjOn f S := by
    intro x hx y hy hxy
    by_contra hne
    rcases lt_or_gt_of_ne hne with h | h
    · exact absurd hxy (hf x hx y hy h).ne
    · exact absurd hxy (hf y hy x hx h).ne'
  have hsub := largest_subset k S
  refine (IsLargest.eq ⟨Finset.image_subset_image hsub, ?_, ?_⟩).symm
  · rw [Finset.card_image_of_injOn (hinj.mono hsub), Finset.card_image_of_injOn hinj, card_largest]
  · intro x hx y hy hny
    obtain ⟨x', hx', rfl⟩ := Finset.mem_image.1 hx
    obtain ⟨y', hy', rfl⟩ := Finset.mem_image.1 hy
    have hnot : y' ∉ largest k S := fun h => hny (Finset.mem_image_of_mem f h)
    exact hf y' hy' x' (hsub hx') (lt_of_mem_largest hx' hy' hnot)

/-- Dropping the minimum of a set with more than `k` elements keeps its `k` largest. -/
theorem largest_erase_min {k : ℕ} {S : Finset α} {m : α} (hk : k < S.card) (hm : m ∈ S)
    (hmin : ∀ x ∈ S, m ≤ x) : largest k (S.erase m) = largest k S := by
  have hlt : ∀ x ∈ S.erase m, m < x := fun x hx =>
    lt_of_le_of_ne (hmin x (Finset.mem_of_mem_erase hx)) (Finset.ne_of_mem_erase hx).symm
  have hcard : (S.erase m).card = S.card - 1 := Finset.card_erase_of_mem hm
  conv_rhs => rw [← Finset.insert_erase hm]
  rw [largest_insert_min hlt, if_neg (by omega)]

/-- The window of an enlarged set needs only the window of the set. -/
theorem largest_insert_largest (k : ℕ) (a : α) (S : Finset α) :
    largest k (insert a (largest k S)) = largest k (insert a S) := by
  set L := largest k S
  have hLS : insert a L ⊆ insert a S := Finset.insert_subset_insert a (largest_subset k S)
  have hL : L.card = min k S.card := card_largest k S
  refine IsLargest.eq ⟨(largest_subset _ _).trans hLS, ?_, fun x hx y hy hny => ?_⟩
  · rw [card_largest]
    rcases le_or_gt S.card k with hk | hk
    · rw [show L = S from largest_eq_self hk]
    · have h1 := Finset.card_le_card (Finset.subset_insert a L)
      have h2 := Finset.card_le_card hLS
      omega
  · by_cases hyL : y ∈ insert a L
    · exact lt_of_mem_largest hx hyL hny
    have hyS : y ∈ S := (Finset.mem_insert.1 hy).resolve_left fun h =>
      hyL (h ▸ Finset.mem_insert_self a L)
    have hynL : y ∉ L := fun h => hyL (Finset.mem_insert_of_mem h)
    by_cases hxL : x ∈ L
    · exact lt_of_mem_largest hxL hyS hynL
    -- `x` is the new element: something of the old window was cut for it, and `y` was below that
    have hxa : x = a := (Finset.mem_insert.1 (largest_subset _ _ hx)).resolve_right hxL
    subst hxa
    have hSk : ¬ S.card ≤ k := fun h =>
      hynL (by rw [show L = S from largest_eq_self h]; exact hyS)
    have hcut : ¬ insert x L ⊆ largest k (insert x L) := fun hsub => by
      have := Finset.card_le_card hsub
      rw [card_largest, Finset.card_insert_of_notMem hxL] at this
      omega
    obtain ⟨z, hz, hzn⟩ := Finset.not_subset.1 hcut
    have hzL : z ∈ L := (Finset.mem_insert.1 hz).resolve_left fun h => hzn (h ▸ hx)
    exact (lt_of_mem_largest hzL hyS hynL).trans (lt_of_mem_largest hx hz hzn)

theorem largest_union_largest (k : ℕ) (S E : Finset α) :
    largest k (largest k S ∪ E) = largest k (S ∪ E) := by
  induction E using Finset.induction_on with
  | empty =>
    rw [Finset.union_empty, Finset.union_empty]
    exact largest_eq_self (by rw [card_largest]; exact min_le_left _ _)
  | insert a E _ ih =>
    rw [Finset.union_insert, Finset.union_insert, ← largest_insert_largest, ih,
      largest_insert_largest]

/-- The first `k` of a list sorted downwards are its `k` largest. -/
theorem toFinset_take_insertionSort (k : ℕ) {l : List α} (hl : l.Nodup) :
    ((l.insertionSort (· ≥ ·)).take k).toFinset = largest k l.toFinset := by
  set s := l.insertionSort (· ≥ ·)
  have hperm : s.Perm l := List.perm_insertionSort _ l
  have hnd : s.Nodup := hperm.nodup_iff.2 hl
  have hsort : s.Pairwise (· ≥ ·) := List.pairwise_insertionSort _ l
  have hset : l.toFinset = s.toFinset := (List.toFinset_eq_of_perm _ _ hperm).symm
  rw [hset]
  refine IsLargest.eq ⟨?_, ?_, fun x hx y hy hny => ?_⟩
  · exact fun x hx => List.mem_toFinset.2 (List.mem_of_mem_take (List.mem_toFinset.1 hx))
  · rw [List.toFinset_card_of_nodup (hnd.sublist (List.take_sublist k s)),
      List.toFinset_card_of_nodup hnd, List.length_take]
  · rw [List.mem_toFinset] at hx hy hny
    have hyd : y ∈ s.drop k := by
      rw [← List.take_append_drop k s, List.mem_append] at hy
      exact hy.resolve_left hny
    rw [← List.take_append_drop k s, List.pairwise_append] at hsort
    exact lt_of_le_of_ne (hsort.2.2 x hx y hyd) fun h => hny (h ▸ hx)

/-- A window of `c + g` is a window of `c` and the window of `g` of what is left. -/
theorem largest_add (c g : ℕ) (S : Finset α) :
    largest (c + g) S = largest c S ∪ largest g (S \ largest c S) := by
  symm
  have hsub : largest g (S \ largest c S) ⊆ S \ largest c S := largest_subset _ _
  have hdisj : Disjoint (largest c S) (largest g (S \ largest c S)) :=
    Finset.disjoint_of_subset_right hsub Finset.disjoint_sdiff
  refine IsLargest.eq ⟨?_, ?_, fun x hx y hy hny => ?_⟩
  · exact Finset.union_subset (largest_subset c S) (hsub.trans Finset.sdiff_subset)
  · rw [Finset.card_union_of_disjoint hdisj, card_largest, card_largest,
      Finset.card_sdiff_of_subset (largest_subset c S), card_largest]
    omega
  · rw [Finset.mem_union, not_or] at hny
    have hyd : y ∈ S \ largest c S := Finset.mem_sdiff.2 ⟨hy, hny.1⟩
    rcases Finset.mem_union.1 hx with hx | hx
    · exact lt_of_mem_largest hx hy hny.1
    · exact lt_of_mem_largest hx hyd hny.2

end Window
