import Mathlib

/-!
# Tables whose rows belong to a key

A table is a list of rows, each with a key.  `rowsOf key l k` are the rows of `k`.  A statement
that filters on one key leaves the rows of every other key as they were.  `insertAll` takes rows in
one by one where their key is new; rows with keys of their own all come in, unless the key is taken
already (`insertAll_eq`).
-/

namespace Table

variable {ρ κ : Type*} [DecidableEq κ] (key : ρ → κ)

/-- The rows of a key. -/
def rowsOf (l : List ρ) (k : κ) : List ρ := l.filter fun r => key r = k

theorem mem_rowsOf {l : List ρ} {k : κ} {r : ρ} : r ∈ rowsOf key l k ↔ r ∈ l ∧ key r = k := by
  simp [rowsOf]

variable {k q : κ}

/-- `DELETE … WHERE key = k AND P`. -/
theorem rowsOf_delete (hq : q ≠ k) (P : ρ → Prop) [DecidablePred P] (l : List ρ) :
    rowsOf key (l.filter fun r => ¬ (key r = k ∧ P r)) q = rowsOf key l q := by
  unfold rowsOf
  rw [List.filter_filter]
  refine List.filter_congr fun r _ => ?_
  by_cases hr : key r = q
  · simp [hr, hq]
  · simp [hr]

/-- `INSERT` of a row of `k`. -/
theorem rowsOf_append {r : ρ} (hr : key r = k) (hq : q ≠ k) (l : List ρ) :
    rowsOf key (l ++ [r]) q = rowsOf key l q := by
  have hne : key r ≠ q := fun h => hq (h.symm.trans hr)
  simp [rowsOf, hne]

/-- `UPDATE … WHERE key = k`. -/
theorem rowsOf_update {f : ρ → ρ} (hf : ∀ r, key (f r) = key r) (hq : q ≠ k) (l : List ρ) :
    rowsOf key (l.map fun r => if key r = k then f r else r) q = rowsOf key l q := by
  induction l with
  | nil => rfl
  | cons r l ih =>
    unfold rowsOf at ih ⊢
    by_cases hk : key r = k
    · have hne : key r ≠ q := fun h => hq (h.symm.trans hk)
      simp only [List.map_cons, hk, if_true]
      rw [List.filter_cons_of_neg (by simp [hf, hne]), List.filter_cons_of_neg (by simp [hne]), ih]
    · simp only [List.map_cons, hk, if_false]
      by_cases hkq : key r = q
      · rw [List.filter_cons_of_pos (by simp [hkq]), List.filter_cons_of_pos (by simp [hkq]), ih]
      · rw [List.filter_cons_of_neg (by simp [hkq]), List.filter_cons_of_neg (by simp [hkq]), ih]

/-! What a statement makes of the rows of a key depends on these rows only. -/

theorem rowsOf_filter (p : ρ → Bool) (l : List ρ) :
    rowsOf key (l.filter p) k = (rowsOf key l k).filter p := by
  unfold rowsOf
  rw [List.filter_filter, List.filter_filter]
  exact List.filter_congr fun r _ => Bool.and_comm _ _

theorem rowsOf_add (l l' : List ρ) : rowsOf key (l ++ l') k = rowsOf key l k ++ rowsOf key l' k :=
  List.filter_append _ _

theorem rowsOf_map {f : ρ → ρ} (hf : ∀ r, key (f r) = key r) (l : List ρ) :
    rowsOf key (l.map f) k = (rowsOf key l k).map f := by
  unfold rowsOf
  rw [List.filter_map]
  congr 1
  exact List.filter_congr fun r _ => by simp [hf]

theorem any_rowsOf (P : ρ → Prop) [DecidablePred P] (l : List ρ) :
    (l.any fun r => key r = k ∧ P r) = (rowsOf key l k).any fun r => P r := by
  unfold rowsOf
  rw [List.any_filter]
  congr 1
  funext r
  simp

/-- `GROUP BY key`: the groups, each with its key. -/
def groups (l : List ρ) : List (κ × List ρ) := (l.map key).dedup.map fun k => (k, rowsOf key l k)

theorem mem_groups {l : List ρ} {g : κ × List ρ} :
    g ∈ groups key l ↔ g.1 ∈ l.map key ∧ g.2 = rowsOf key l g.1 := by
  simp only [groups, List.mem_map, List.mem_dedup]
  constructor
  · rintro ⟨k, hk, rfl⟩
    exact ⟨hk, rfl⟩
  · rintro ⟨hk, hrows⟩
    exact ⟨g.1, hk, Prod.ext rfl hrows.symm⟩

/-- What holds in every group of some keys holds of every row of these keys. -/
theorem forall_groups {l : List ρ} {Q : κ → Prop} {P : ρ → Prop} :
    (∀ g ∈ groups key l, Q g.1 → ∀ r ∈ g.2, P r) ↔ ∀ r ∈ l, Q (key r) → P r := by
  constructor
  · intro h r hr hQ
    exact h (key r, rowsOf key l (key r)) ((mem_groups key).2 ⟨List.mem_map_of_mem hr, rfl⟩) hQ r
      ((mem_rowsOf key).2 ⟨hr, rfl⟩)
  · intro h g hg hQ r hr
    rw [((mem_groups key).1 hg).2] at hr
    obtain ⟨hr, hkey⟩ := (mem_rowsOf key).1 hr
    exact h r hr (hkey ▸ hQ)

/-- There is a group of some keys if there is a row of these keys. -/
theorem exists_groups {l : List ρ} {Q : κ → Prop} :
    (∃ g ∈ groups key l, Q g.1) ↔ ∃ r ∈ l, Q (key r) := by
  constructor
  · rintro ⟨g, hg, hQ⟩
    obtain ⟨r, hr, hkey⟩ := List.mem_map.1 ((mem_groups key).1 hg).1
    exact ⟨r, hr, hkey ▸ hQ⟩
  · rintro ⟨r, hr, hQ⟩
    exact ⟨(key r, rowsOf key l (key r)),
      (mem_groups key).2 ⟨List.mem_map_of_mem hr, rfl⟩, hQ⟩

/-- With unique keys a row is the only one of its key. -/
theorem rowsOf_eq_singleton {l : List ρ} (hn : (l.map key).Nodup) {r : ρ} (hr : r ∈ l) :
    rowsOf key l (key r) = [r] := by
  have hrows : (rowsOf key l (key r)).Nodup := (List.Nodup.of_map key hn).filter _
  refine List.perm_singleton.1 ((List.perm_ext_iff_of_nodup hrows (List.nodup_singleton r)).2 ?_)
  intro x
  rw [mem_rowsOf, List.mem_singleton]
  constructor
  · exact fun h => List.inj_on_of_nodup_map hn h.1 hr h.2
  · rintro rfl
    exact ⟨hr, rfl⟩

/-- A table in which no other key has a row holds rows of `k` only. -/
theorem key_eq_of_rowsOf {l : List ρ} (h : ∀ q, q ≠ k → rowsOf key l q = []) {r : ρ} (hr : r ∈ l) :
    key r = k := by
  by_contra hne
  have : r ∈ rowsOf key l (key r) := (mem_rowsOf key).2 ⟨hr, rfl⟩
  rw [h _ hne] at this
  exact List.not_mem_nil this

/-! ### Rows with a unique key -/

/-- `INSERT OR IGNORE`. -/
def insertOrIgnore (l : List ρ) (r : ρ) : List ρ :=
  if l.any fun x => key x = key r then l else l ++ [r]

def insertAll (l rows : List ρ) : List ρ := rows.foldl (insertOrIgnore key) l

theorem insertAll_append (l rows rows' : List ρ) :
    insertAll key l (rows ++ rows') = insertAll key (insertAll key l rows) rows' :=
  List.foldl_append

theorem mem_insertAll : ∀ {rows l : List ρ} {r : ρ}, r ∈ insertAll key l rows → r ∈ l ∨ r ∈ rows
  | [], _, _, h => .inl h
  | x :: rows, l, r, h => by
    have h : r ∈ insertAll key (insertOrIgnore key l x) rows := h
    rcases mem_insertAll h with hr | hr
    · unfold insertOrIgnore at hr
      split at hr
      · exact .inl hr
      · rcases List.mem_append.1 hr with hr | hr
        · exact .inl hr
        · exact .inr (List.mem_cons.2 (.inl (List.mem_singleton.1 hr)))
    · exact .inr (List.mem_cons_of_mem _ hr)

theorem insertAll_eq : ∀ {rows : List ρ} (l : List ρ), (rows.map key).Nodup →
    insertAll key l rows = l ++ rows.filter fun r => key r ∉ l.map key
  | [], l, _ => by simp [insertAll]
  | r :: rows, l, h => by
    obtain ⟨hr, hrows⟩ := List.nodup_cons.1 h
    show insertAll key (insertOrIgnore key l r) rows = _
    rw [insertAll_eq _ hrows]
    by_cases htaken : key r ∈ l.map key
    · have hl : insertOrIgnore key l r = l := if_pos (by simpa using htaken)
      rw [hl, List.filter_cons_of_neg (by simpa using htaken)]
    · have hl : insertOrIgnore key l r = l ++ [r] := if_neg (by simpa using htaken)
      rw [hl, List.filter_cons_of_pos (by simpa using htaken), List.append_assoc,
        List.singleton_append]
      congr 2
      -- No later row has the key of `r`.
      refine List.filter_congr fun x hx => ?_
      have hne : key x ≠ key r := fun heq => hr (heq ▸ List.mem_map_of_mem hx)
      simp [hne]

/-- The keys of the table afterwards. -/
theorem mem_keys_insertAll {k : κ} : ∀ {rows l : List ρ},
    k ∈ (insertAll key l rows).map key ↔ k ∈ l.map key ∨ k ∈ rows.map key
  | [], l => by simp [insertAll]
  | r :: rows, l => by
    show k ∈ (insertAll key (insertOrIgnore key l r) rows).map key ↔ _
    rw [mem_keys_insertAll, List.map_cons, List.mem_cons]
    unfold insertOrIgnore
    split
    · rename_i htaken
      have hr : key r ∈ l.map key := by simpa using htaken
      constructor
      · exact fun h => h.imp id .inr
      · rintro (h | rfl | h)
        · exact .inl h
        · exact .inl hr
        · exact .inr h
    · rw [List.map_append, List.map_singleton, List.mem_append, List.mem_singleton, or_assoc]

/-- What comes in stands at the end, and nothing comes in where all keys are taken. -/
theorem insertAll_added : ∀ (rows l : List ρ), ∃ added, insertAll key l rows = l ++ added
    ∧ (∀ r ∈ added, r ∈ rows) ∧ (added = [] ↔ ∀ r ∈ rows, key r ∈ l.map key)
  | [], l => ⟨[], by simp [insertAll], by simp, by simp⟩
  | r :: rows, l => by
    by_cases htaken : key r ∈ l.map key
    · have hl : insertOrIgnore key l r = l := if_pos (by simpa using htaken)
      obtain ⟨added, heq, hsub, hnil⟩ := insertAll_added rows l
      refine ⟨added, ?_, fun x hx => List.mem_cons_of_mem r (hsub x hx), ?_⟩
      · show insertAll key (insertOrIgnore key l r) rows = _
        rw [hl, heq]
      · rw [hnil, List.forall_mem_cons]
        exact ⟨fun h => ⟨htaken, h⟩, fun h => h.2⟩
    · have hl : insertOrIgnore key l r = l ++ [r] := if_neg (by simpa using htaken)
      obtain ⟨added, heq, hsub, -⟩ := insertAll_added rows (l ++ [r])
      refine ⟨r :: added, ?_, ?_, ?_⟩
      · show insertAll key (insertOrIgnore key l r) rows = _
        rw [hl, heq, List.append_assoc, List.singleton_append]
      · rw [List.forall_mem_cons]
        exact ⟨List.mem_cons_self, fun x hx => List.mem_cons_of_mem r (hsub x hx)⟩
      · simp only [reduceCtorEq, false_iff]
        exact fun h => htaken (h r List.mem_cons_self)

theorem nodup_insertAll : ∀ {rows l : List ρ}, (l.map key).Nodup →
    ((insertAll key l rows).map key).Nodup
  | [], _, h => h
  | r :: rows, l, h => by
    show ((insertAll key (insertOrIgnore key l r) rows).map key).Nodup
    refine nodup_insertAll ?_
    unfold insertOrIgnore
    split
    · exact h
    · rename_i hnew
      rw [List.map_append, List.map_singleton]
      refine h.append (List.nodup_singleton _) fun k hk hk' => ?_
      rw [List.mem_singleton] at hk'
      subst hk'
      exact hnew (by simpa using hk)

/-- Rows that agree where they have the same key come in unless their key was taken at the start. -/
theorem mem_insertAll_iff {r : ρ} : ∀ {rows l : List ρ},
    (∀ x ∈ rows, ∀ y ∈ rows, key x = key y → x = y) →
      (r ∈ insertAll key l rows ↔ r ∈ l ∨ r ∈ rows ∧ key r ∉ l.map key)
  | [], l, _ => by simp [insertAll]
  | x :: rows, l, hagree => by
    have hrest : ∀ y ∈ rows, ∀ z ∈ rows, key y = key z → y = z := fun y hy z hz =>
      hagree y (List.mem_cons_of_mem x hy) z (List.mem_cons_of_mem x hz)
    show r ∈ insertAll key (insertOrIgnore key l x) rows ↔ _
    rw [mem_insertAll_iff hrest]
    by_cases htaken : key x ∈ l.map key
    · rw [show insertOrIgnore key l x = l from if_pos (by simpa using htaken), List.mem_cons]
      refine or_congr_right ⟨fun h => ⟨.inr h.1, h.2⟩, fun h => ⟨?_, h.2⟩⟩
      rcases h.1 with rfl | hr
      · exact absurd htaken h.2
      · exact hr
    · rw [show insertOrIgnore key l x = l ++ [x] from if_neg (by simpa using htaken),
        List.mem_append, List.mem_singleton, List.map_append, List.mem_append, List.map_singleton,
        List.mem_singleton, List.mem_cons]
      constructor
      · rintro ((h | rfl) | ⟨h, hnew⟩)
        · exact .inl h
        · exact .inr ⟨.inl rfl, htaken⟩
        · exact .inr ⟨.inr h, fun h' => hnew (.inl h')⟩
      · rintro (h | ⟨rfl | h, hnew⟩)
        · exact .inl (.inl h)
        · exact .inl (.inr rfl)
        · by_cases hkey : key r = key x
          · exact .inl (.inr (hagree r (List.mem_cons_of_mem x h) x List.mem_cons_self hkey))
          · exact .inr ⟨h, fun h' => h'.elim hnew hkey⟩

/-- The order in which such rows come, and how often, does not matter. -/
theorem insertAll_perm {rows rows' l : List ρ} (hl : (l.map key).Nodup)
    (hagree : ∀ x ∈ rows, ∀ y ∈ rows, key x = key y → x = y) (hsame : ∀ r, r ∈ rows ↔ r ∈ rows') :
    (insertAll key l rows).Perm (insertAll key l rows') := by
  have hagree' : ∀ x ∈ rows', ∀ y ∈ rows', key x = key y → x = y := fun x hx y hy =>
    hagree x ((hsame x).2 hx) y ((hsame y).2 hy)
  rw [List.perm_ext_iff_of_nodup (nodup_insertAll key hl).of_map (nodup_insertAll key hl).of_map]
  intro r
  rw [mem_insertAll_iff key hagree, mem_insertAll_iff key hagree', hsame r]

section Owner

variable {ω : Type*} [DecidableEq ω] (owner : ρ → ω) {o : ω}

/-- Rows of others leave the rows of `o` as they are. -/
theorem rowsOf_insertAll_ne {rows : List ρ} (h : ∀ r ∈ rows, owner r ≠ o) (l : List ρ) :
    rowsOf owner (insertAll key l rows) o = rowsOf owner l o := by
  obtain ⟨added, heq, hsub, -⟩ := insertAll_added key rows l
  have hnone : added.filter (fun r => owner r = o) = [] :=
    List.filter_eq_nil_iff.2 fun r hr => by simpa using h r (hsub r hr)
  rw [heq, rowsOf, List.filter_append, hnone, List.append_nil, rowsOf]

/-- Rows of `o` change the rows of `o`, unless their keys are taken. -/
theorem rowsOf_insertAll_eq_iff {rows : List ρ} (h : ∀ r ∈ rows, owner r = o) (l : List ρ) :
    rowsOf owner (insertAll key l rows) o = rowsOf owner l o ↔ ∀ r ∈ rows, key r ∈ l.map key := by
  obtain ⟨added, heq, hsub, hnil⟩ := insertAll_added key rows l
  have hall : added.filter (fun r => owner r = o) = added :=
    List.filter_eq_self.2 fun r hr => by simpa using h r (hsub r hr)
  rw [heq, rowsOf, List.filter_append, hall, rowsOf, List.append_right_eq_self, hnil]

/-- What comes in for `o` depends on the rows of `o` and on the keys that are taken. -/
theorem rowsOf_insertAll_congr : ∀ {rows l l' : List ρ}, rowsOf owner l o = rowsOf owner l' o →
    (∀ r ∈ rows, key r ∈ l.map key ↔ key r ∈ l'.map key) →
      rowsOf owner (insertAll key l rows) o = rowsOf owner (insertAll key l' rows) o
  | [], _, _, hrows, _ => hrows
  | r :: rows, l, l', hrows, hkeys => by
    show rowsOf owner (insertAll key (insertOrIgnore key l r) rows) o
      = rowsOf owner (insertAll key (insertOrIgnore key l' r) rows) o
    obtain ⟨hr, hkeys⟩ := List.forall_mem_cons.1 hkeys
    by_cases htaken : key r ∈ l.map key
    · have htaken' := hr.1 htaken
      rw [show insertOrIgnore key l r = l from if_pos (by simpa using htaken),
        show insertOrIgnore key l' r = l' from if_pos (by simpa using htaken')]
      exact rowsOf_insertAll_congr hrows hkeys
    · have htaken' := fun h => htaken (hr.2 h)
      rw [show insertOrIgnore key l r = l ++ [r] from if_neg (by simpa using htaken),
        show insertOrIgnore key l' r = l' ++ [r] from if_neg (by simpa using htaken')]
      refine rowsOf_insertAll_congr ?_ fun x hx => ?_
      · unfold rowsOf at hrows ⊢
        rw [List.filter_append, List.filter_append, hrows]
      · simp only [List.map_append, List.mem_append, hkeys x hx]

end Owner

end Table
