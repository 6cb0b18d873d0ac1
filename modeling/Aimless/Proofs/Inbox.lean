import Aimless.Proofs.Separate
import Aimless.Lib.Largest

/-!
# The inbox window

Whatever was offered to a peer's inbox, in whatever order and however often, the inbox holds the
`capacity` largest seqs, each as it was first offered, and the guard the `seenCap` largest of the
rest (`InboxInv`).  An offer is refused exactly when its seq is in one of the two.
-/

namespace Aimless

open Window

theorem sqlMin_spec {l : List Int64} {m : Int64} (h : sqlMin l = some m) :
    m ∈ l ∧ ∀ x ∈ l, m ≤ x :=
  ⟨List.argmin_mem h, fun _ hx => List.le_of_mem_argmin hx h⟩

theorem sqlMin_isSome {l : List Int64} (h : l ≠ []) : ∃ m, sqlMin l = some m := by
  rcases hm : sqlMin l with _ | m
  · exact absurd (List.argmin_eq_none.1 hm) h
  · exact ⟨m, rfl⟩

theorem sqlMin_congr {l l' : List Int64} (h : l.toFinset = l'.toFinset) : sqlMin l = sqlMin l' := by
  have hmem : ∀ x, x ∈ l ↔ x ∈ l' := fun x => by
    rw [← List.mem_toFinset, h, List.mem_toFinset]
  rcases hl : sqlMin l with _ | m
  · have hnil : l = [] := List.argmin_eq_none.1 hl
    have hnil' : l' = [] := List.eq_nil_iff_forall_not_mem.2 fun x hx => by
      simpa [hnil] using (hmem x).2 hx
    rw [hnil']
    rfl
  · obtain ⟨hm, hmin⟩ := sqlMin_spec hl
    obtain ⟨m', hm'⟩ := sqlMin_isSome (List.ne_nil_of_mem ((hmem m).1 hm))
    obtain ⟨hmem', hmin'⟩ := sqlMin_spec hm'
    rw [hm', le_antisymm (hmin m' ((hmem m').2 hmem')) (hmin' m ((hmem m).1 hm))]

namespace DB

variable {db : DB} {peer : PublicKey} {s : Int64}

theorem mem_inboxSeqs : s ∈ db.inboxSeqs peer ↔ ∃ r ∈ db.inbox, r.peer = peer ∧ r.seq = s := by
  simp only [inboxSeqs, List.mem_map, List.mem_filter, decide_eq_true_eq, and_assoc]

theorem mem_seenSeqs : s ∈ db.seenSeqs peer ↔ ⟨peer, s⟩ ∈ db.inboxSeen := by
  simp only [seenSeqs, List.mem_map, List.mem_filter, decide_eq_true_eq]
  constructor
  · rintro ⟨⟨_, _⟩, ⟨hr, rfl⟩, rfl⟩
    exact hr
  · exact fun h => ⟨_, ⟨h, rfl⟩, rfl⟩

theorem any_inbox : (db.inbox.any fun r => decide (r.peer = peer ∧ r.seq = s))
    ↔ s ∈ db.inboxSeqs peer := by
  simp only [List.any_eq_true, decide_eq_true_eq, mem_inboxSeqs]

theorem any_inboxSeen : (db.inboxSeen.any fun r => decide (r.peer = peer ∧ r.seq = s))
    ↔ s ∈ db.seenSeqs peer := by
  simp only [List.any_eq_true, decide_eq_true_eq, mem_seenSeqs]
  constructor
  · rintro ⟨⟨_, _⟩, hr, rfl, rfl⟩
    exact hr
  · exact fun h => ⟨_, h, rfl, rfl⟩

/-- Deleting by seq within a peer deletes those seqs. -/
theorem inboxSeqs_filter (db : DB) (peer : PublicKey) (P : Int64 → Prop) [DecidablePred P] :
    ({ db with inbox := db.inbox.filter fun r => ¬ (r.peer = peer ∧ P r.seq) } : DB).inboxSeqs peer
      = (db.inboxSeqs peer).filter fun s => ¬ P s := by
  simp only [inboxSeqs, List.filter_map, List.filter_filter]
  congr 1
  refine List.filter_congr fun r _ => ?_
  by_cases hp : r.peer = peer <;> simp [hp]

theorem seenSeqs_filter (db : DB) (peer : PublicKey) (P : Int64 → Prop) [DecidablePred P] :
    ({ db with inboxSeen := db.inboxSeen.filter fun r => ¬ (r.peer = peer ∧ P r.seq) } : DB).seenSeqs
      peer = (db.seenSeqs peer).filter fun s => ¬ P s := by
  simp only [seenSeqs, List.filter_map, List.filter_filter]
  congr 1
  refine List.filter_congr fun r _ => ?_
  by_cases hp : r.peer = peer <;> simp [hp]

end DB

namespace InboxStore

variable (box : InboxStore)

section Evict

variable {db : DB} {m : Int64}

theorem evictOldest_eq (h : sqlMin (db.inboxSeqs box.peer) = some m) :
    box.evictOldest db = { db with
      inboxSeen := if db.inboxSeen.any fun r => r.peer = box.peer ∧ r.seq = m then db.inboxSeen
        else db.inboxSeen ++ [⟨box.peer, m⟩]
      inbox := db.inbox.filter fun r => ¬ (r.peer = box.peer ∧ r.seq = m) } := by
  simp only [evictOldest, h]

theorem evictOldest_inboxSeqs (h : sqlMin (db.inboxSeqs box.peer) = some m) :
    (box.evictOldest db).inboxSeqs box.peer = (db.inboxSeqs box.peer).filter fun s => ¬ s = m := by
  rw [evictOldest_eq box h]
  exact DB.inboxSeqs_filter db box.peer (· = m)

theorem evictOldest_seenSeqs (h : sqlMin (db.inboxSeqs box.peer) = some m) :
    (box.evictOldest db).seenSeqs box.peer
      = if m ∈ db.seenSeqs box.peer then db.seenSeqs box.peer
        else db.seenSeqs box.peer ++ [m] := by
  rw [evictOldest_eq box h]
  by_cases hm : m ∈ db.seenSeqs box.peer
  · simp only [DB.any_inboxSeen.2 hm, hm, if_true]
    rfl
  · have hno : (db.inboxSeen.any fun r => decide (r.peer = box.peer ∧ r.seq = m)) ≠ true :=
      fun h' => hm (DB.any_inboxSeen.1 h')
    rw [if_neg hm]
    simp only [if_neg hno, DB.seenSeqs, List.filter_append, List.map_append]
    simp

/-- One eviction takes the smallest seq out of the inbox. -/
theorem evictOldest_inbox (h : sqlMin (db.inboxSeqs box.peer) = some m)
    (hn : (db.inboxSeqs box.peer).Nodup) :
    ((box.evictOldest db).inboxSeqs box.peer).Nodup
      ∧ ((box.evictOldest db).inboxSeqs box.peer).toFinset
        = (db.inboxSeqs box.peer).toFinset.erase m := by
  rw [evictOldest_inboxSeqs box h]
  refine ⟨hn.filter _, ?_⟩
  ext s
  simp [and_comm]

/-- One eviction puts the smallest seq into the guard. -/
theorem evictOldest_seen (h : sqlMin (db.inboxSeqs box.peer) = some m)
    (hn : (db.seenSeqs box.peer).Nodup) :
    ((box.evictOldest db).seenSeqs box.peer).Nodup
      ∧ ((box.evictOldest db).seenSeqs box.peer).toFinset
        = insert m (db.seenSeqs box.peer).toFinset := by
  rw [evictOldest_seenSeqs box h]
  split_ifs with hm
  · exact ⟨hn, (Finset.insert_eq_self.2 (List.mem_toFinset.2 hm)).symm⟩
  · refine ⟨hn.append (List.nodup_singleton m) (by simpa using hm), ?_⟩
    ext s
    simp

/-- A full inbox loses its smallest seq, which is not among the `capacity` largest. -/
theorem evictOldest_full (h : sqlMin (db.inboxSeqs box.peer) = some m)
    (hn : (db.inboxSeqs box.peer).Nodup) (hc : box.capacity < (db.inboxSeqs box.peer).length) :
    m ∉ largest box.capacity (db.inboxSeqs box.peer).toFinset
      ∧ largest box.capacity ((box.evictOldest db).inboxSeqs box.peer).toFinset
        = largest box.capacity (db.inboxSeqs box.peer).toFinset
      ∧ ((box.evictOldest db).inboxSeqs box.peer).length + 1 = (db.inboxSeqs box.peer).length := by
  obtain ⟨hmem, hmin⟩ := sqlMin_spec h
  obtain ⟨hn', herase⟩ := evictOldest_inbox box h hn
  have hcard := List.toFinset_card_of_nodup hn
  have hm : m ∈ (db.inboxSeqs box.peer).toFinset := List.mem_toFinset.2 hmem
  have hlarge : largest box.capacity ((db.inboxSeqs box.peer).toFinset.erase m)
      = largest box.capacity (db.inboxSeqs box.peer).toFinset :=
    largest_erase_min (by omega) hm fun x hx => hmin x (List.mem_toFinset.1 hx)
  refine ⟨fun hin => ?_, by rw [herase, hlarge], ?_⟩
  · rw [← hlarge] at hin
    exact Finset.notMem_erase m _ (largest_subset _ _ hin)
  · rw [← List.toFinset_card_of_nodup hn', herase, Finset.card_erase_of_mem hm, hcard]
    have : 0 < (db.inboxSeqs box.peer).length := List.length_pos_of_mem hmem
    omega

/-- The loop leaves the `capacity` largest seqs in the inbox. -/
theorem evictLoop_inbox : ∀ (count : ℕ) (db : DB), (db.inboxSeqs box.peer).Nodup →
    (db.inboxSeqs box.peer).length = count →
    (box.evictLoop count db).inbox = (db.inbox.filter fun r => ¬ (r.peer = box.peer
        ∧ r.seq ∉ largest box.capacity (db.inboxSeqs box.peer).toFinset))
  | 0, db, _, hlen => by
    have hnil : db.inboxSeqs box.peer = [] := List.length_eq_zero_iff.1 hlen
    refine (List.filter_eq_self.2 fun r hr => ?_).symm
    have hrow : ¬ r.peer = box.peer := fun hp => by
      have : r.seq ∈ db.inboxSeqs box.peer := DB.mem_inboxSeqs.2 ⟨r, hr, hp, rfl⟩
      rw [hnil] at this
      exact List.not_mem_nil this
    simp [hrow]
  | count + 1, db, hn, hlen => by
    unfold evictLoop
    split_ifs with hc
    · obtain ⟨m, hm⟩ := sqlMin_isSome (l := db.inboxSeqs box.peer) (fun h => by simp [h] at hlen)
      obtain ⟨hmL, hlarge, hlen'⟩ := evictOldest_full box hm hn (by omega)
      rw [evictLoop_inbox count _ (evictOldest_inbox box hm hn).1 (by omega), hlarge,
        evictOldest_eq box hm, List.filter_filter]
      refine List.filter_congr fun r _ => ?_
      by_cases hp : r.peer = box.peer
      · by_cases hs : r.seq = m
        · simp [hp, hs, hmL]
        · simp [hp, hs]
      · simp [hp]
    · have hall : largest box.capacity (db.inboxSeqs box.peer).toFinset
          = (db.inboxSeqs box.peer).toFinset :=
        largest_eq_self (by rw [List.toFinset_card_of_nodup hn]; omega)
      refine (List.filter_eq_self.2 fun r hr => ?_).symm
      rw [hall]
      by_cases hp : r.peer = box.peer
      · simp [hp, DB.mem_inboxSeqs.2 ⟨r, hr, hp, rfl⟩]
      · simp [hp]

/-- The loop moves what it takes out of the inbox to the guard. -/
theorem evictLoop_seen : ∀ (count : ℕ) (db : DB), (db.inboxSeqs box.peer).Nodup →
    (db.seenSeqs box.peer).Nodup → (db.inboxSeqs box.peer).length = count →
    ((box.evictLoop count db).seenSeqs box.peer).Nodup
      ∧ ((box.evictLoop count db).seenSeqs box.peer).toFinset
        = (db.seenSeqs box.peer).toFinset ∪ ((db.inboxSeqs box.peer).toFinset
          \ largest box.capacity (db.inboxSeqs box.peer).toFinset)
  | 0, db, _, hns, hlen => by
    have hnil : db.inboxSeqs box.peer = [] := List.length_eq_zero_iff.1 hlen
    exact ⟨hns, by simp [evictLoop, hnil]⟩
  | count + 1, db, hni, hns, hlen => by
    unfold evictLoop
    split_ifs with hc
    · obtain ⟨m, hm⟩ := sqlMin_isSome (l := db.inboxSeqs box.peer) (fun h => by simp [h] at hlen)
      obtain ⟨hmL, hlarge, hlen'⟩ := evictOldest_full box hm hni (by omega)
      obtain ⟨hni', herase⟩ := evictOldest_inbox box hm hni
      obtain ⟨hns', hinsert⟩ := evictOldest_seen box hm hns
      obtain ⟨hnd, hset⟩ := evictLoop_seen count _ hni' hns' (by omega)
      refine ⟨hnd, ?_⟩
      rw [hset, hlarge, herase, hinsert]
      have hmem : m ∈ db.inboxSeqs box.peer := (sqlMin_spec hm).1
      ext s
      simp only [Finset.mem_union, Finset.mem_insert, Finset.mem_sdiff, Finset.mem_erase]
      by_cases hs : s = m
      · subst hs
        simp [hmL, hmem]
      · simp [hs]
    · have hall : largest box.capacity (db.inboxSeqs box.peer).toFinset
          = (db.inboxSeqs box.peer).toFinset :=
        largest_eq_self (by rw [List.toFinset_card_of_nodup hni]; omega)
      exact ⟨hns, by rw [hall]; simp⟩

end Evict

section Trim

variable {db : DB}

theorem boundGuard_seenSeqs (h : (db.seenSeqs box.peer).Nodup) :
    ((box.boundGuard db).seenSeqs box.peer).Nodup
      ∧ ((box.boundGuard db).seenSeqs box.peer).toFinset
        = largest box.seenCap (db.seenSeqs box.peer).toFinset := by
  have hf := DB.seenSeqs_filter db box.peer
    (· ∉ ((db.seenSeqs box.peer).insertionSort (· ≥ ·)).take box.seenCap)
  have hkeep := toFinset_take_insertionSort box.seenCap h
  unfold boundGuard
  rw [hf, ← hkeep]
  refine ⟨h.filter _, ?_⟩
  ext s
  simp only [List.mem_toFinset, List.mem_filter, decide_eq_true_eq, not_not]
  refine ⟨fun hs => hs.2, fun hs => ⟨?_, hs⟩⟩
  exact (List.mem_insertionSort _).1 (List.mem_of_mem_take hs)

/-- The `retained_min` column of the peer's row, if it has one. -/
def retainedMin (db : DB) : Option Int64 :=
  (db.peerState.find? fun r => r.peer = box.peer).map (·.retainedMin)

theorem retainedMin_setRetainedMin :
    box.retainedMin (box.setRetainedMin db) = some ((sqlMin (db.inboxSeqs box.peer)).getD 0) := by
  unfold retainedMin setRetainedMin
  by_cases h : db.peerState.any fun r => decide (r.peer = box.peer)
  · obtain ⟨r, hr, hp⟩ := List.any_eq_true.1 h
    simp only [h, if_true, List.find?_map]
    rcases hf : db.peerState.find? fun r => decide (r.peer = box.peer) with _ | r'
    · exact absurd hp (by simpa using List.find?_eq_none.1 hf r hr)
    · have hp' : r'.peer = box.peer := by simpa using List.find?_some hf
      have hcomp : ((fun r : PeerStateRow => decide (r.peer = box.peer)) ∘ fun r =>
          if r.peer = box.peer
            then { r with retainedMin := (sqlMin (db.inboxSeqs box.peer)).getD 0 } else r)
          = fun r => decide (r.peer = box.peer) := by
        funext r
        by_cases hr : r.peer = box.peer <;> simp [hr]
      rw [hcomp, hf]
      simp [hp']
  · have hnone : db.peerState.find? (fun r => decide (r.peer = box.peer)) = none :=
      List.find?_eq_none.2 fun r hr hp => h (List.any_eq_true.2 ⟨r, hr, hp⟩)
    simp only [h, Bool.false_eq_true, if_false, List.find?_append, hnone]
    simp

end Trim

end InboxStore

/-- One call of `InboxStore.Add`. -/
structure Offer where
  seq : UInt64
  ts : Int64
  payload : Bytes
  deriving DecidableEq, Repr

/-- The seqs offered, as the store keeps them. -/
def offered (h : List Offer) : Finset Int64 := (h.map (·.seq.toInt64)).toFinset

/-- The first offer under a seq. -/
def firstOffer (h : List Offer) (s : Int64) : Option (Int64 × Bytes) :=
  (h.find? fun o => o.seq.toInt64 = s).map fun o => (o.ts, o.payload)

theorem mem_offered {h : List Offer} {s : Int64} :
    s ∈ offered h ↔ ∃ o ∈ h, o.seq.toInt64 = s := by
  simp [offered]

theorem offered_append (h : List Offer) (o : Offer) :
    offered (h ++ [o]) = insert o.seq.toInt64 (offered h) := by
  ext s
  simp only [mem_offered, List.mem_append, List.mem_singleton, Finset.mem_insert]
  constructor
  · rintro ⟨o', ho | rfl, rfl⟩
    · exact .inr ⟨o', ho, rfl⟩
    · exact .inl rfl
  · rintro (rfl | ⟨o', ho, rfl⟩)
    · exact ⟨o, .inr rfl, rfl⟩
    · exact ⟨o', .inl ho, rfl⟩

theorem firstOffer_append (h : List Offer) (o : Offer) (s : Int64) :
    firstOffer (h ++ [o]) s = (firstOffer h s).or
      (if o.seq.toInt64 = s then some (o.ts, o.payload) else none) := by
  unfold firstOffer
  rw [List.find?_append, Option.map_or]
  by_cases ho : o.seq.toInt64 = s <;> simp [ho]

theorem firstOffer_isSome {h : List Offer} {s : Int64} :
    (firstOffer h s).isSome ↔ s ∈ offered h := by
  simp [firstOffer, mem_offered, List.find?_isSome]

/-- What the tables hold of a peer after the offers `h`. -/
structure InboxInv (box : InboxStore) (h : List Offer) (db : DB) : Prop where
  nodup : (db.inboxSeqs box.peer).Nodup
  nodupSeen : (db.seenSeqs box.peer).Nodup
  window : (db.inboxSeqs box.peer).toFinset = largest box.capacity (offered h)
  guard : (db.seenSeqs box.peer).toFinset
    = largest box.seenCap (offered h \ largest box.capacity (offered h))
  first : ∀ r ∈ db.inbox, r.peer = box.peer → firstOffer h r.seq = some (r.ts, r.payload)
  retained : box.retainedMin db = sqlMin (db.inboxSeqs box.peer)

namespace InboxInv

variable {box : InboxStore} {h : List Offer} {db : DB}

theorem nil (hi : db.inboxSeqs box.peer = []) (hs : db.seenSeqs box.peer = [])
    (hp : box.retainedMin db = none) : InboxInv box [] db where
  nodup := by simp [hi]
  nodupSeen := by simp [hs]
  window := by simp [hi, offered, largest]
  guard := by simp [hs, offered, largest]
  first r hr hpeer := by
    have := DB.mem_inboxSeqs.2 ⟨r, hr, hpeer, rfl⟩
    rw [hi] at this
    exact absurd this List.not_mem_nil
  retained := by rw [hp, hi]; rfl

/-- The seqs a peer's tables remember are the `capacity + seenCap` largest offered. -/
theorem mem_remembered (I : InboxInv box h db) {s : Int64} :
    s ∈ db.inboxSeqs box.peer ∨ s ∈ db.seenSeqs box.peer
      ↔ s ∈ largest (box.capacity + box.seenCap) (offered h) := by
  rw [largest_add, Finset.mem_union, ← I.guard, ← I.window, List.mem_toFinset, List.mem_toFinset]

theorem add_fst (I : InboxInv box h db) (o : Offer) :
    (box.add db o.seq o.ts o.payload).1 = false
      ↔ o.seq.toInt64 ∈ largest (box.capacity + box.seenCap) (offered h) := by
  rw [← I.mem_remembered]
  unfold InboxStore.add
  by_cases h1 : o.seq.toInt64 ∈ db.inboxSeqs box.peer
  · rw [if_pos (DB.any_inbox.2 h1)]
    exact ⟨fun _ => .inl h1, fun _ => rfl⟩
  rw [if_neg fun h' => h1 (DB.any_inbox.1 h')]
  by_cases h2 : o.seq.toInt64 ∈ db.seenSeqs box.peer
  · rw [if_pos (DB.any_inboxSeen.2 h2)]
    exact ⟨fun _ => .inr h2, fun _ => rfl⟩
  rw [if_neg fun h' => h2 (DB.any_inboxSeen.1 h')]
  simp [h1, h2]

theorem add_of_false {o : Offer} (h' : (box.add db o.seq o.ts o.payload).1 = false) :
    (box.add db o.seq o.ts o.payload).2 = db := by
  unfold InboxStore.add at h' ⊢
  split_ifs at h' ⊢ <;> rfl

theorem add_of_true {o : Offer} (h' : (box.add db o.seq o.ts o.payload).1 = true) :
    o.seq.toInt64 ∉ db.inboxSeqs box.peer ∧ (box.add db o.seq o.ts o.payload).2
      = box.trimTx
          { db with inbox := db.inbox ++ [⟨box.peer, o.seq.toInt64, o.ts, o.payload⟩] } := by
  unfold InboxStore.add at h' ⊢
  split_ifs at h' ⊢ with h1 h2
  exact ⟨fun hm => h1 (DB.any_inbox.2 hm), rfl⟩

/-- A seq offered before and not among the remembered ones does not enter the window again. -/
theorem notMem_largest_insert {S : Finset Int64} {c : ℕ} {s : Int64} (hs : s ∈ S)
    (hn : s ∉ largest c S) : s ∉ largest c (insert s S) := by
  rwa [Finset.insert_eq_self.2 hs]

/-- What leaves the window and what was never in it make up the rest of the enlarged set. -/
theorem rest_insert (S : Finset Int64) (c : ℕ) (s : Int64) :
    (S \ largest c S) ∪ (insert s (largest c S) \ largest c (insert s S))
      = insert s S \ largest c (insert s S) := by
  ext x
  simp only [Finset.mem_union, Finset.mem_sdiff, Finset.mem_insert]
  constructor
  · rintro (⟨hxS, hxL⟩ | ⟨rfl | hxL, hxT⟩)
    · refine ⟨.inr hxS, fun hxT => ?_⟩
      rw [← largest_insert_largest] at hxT
      rcases Finset.mem_insert.1 (largest_subset _ _ hxT) with rfl | hx
      · rw [largest_insert_largest] at hxT
        exact notMem_largest_insert hxS hxL hxT
      · exact hxL hx
    · exact ⟨.inl rfl, hxT⟩
    · exact ⟨.inr (largest_subset _ _ hxL), hxT⟩
  · rintro ⟨rfl | hxS, hxT⟩
    · exact .inr ⟨.inl rfl, hxT⟩
    · by_cases hxL : x ∈ largest c S
      · exact .inr ⟨.inr hxL, hxT⟩
      · exact .inl ⟨hxS, hxL⟩

theorem add_true (hc : 1 ≤ box.capacity) (I : InboxInv box h db) {o : Offer}
    (hnew : (box.add db o.seq o.ts o.payload).1 = true) :
    InboxInv box (h ++ [o]) (box.add db o.seq o.ts o.payload).2 := by
  obtain ⟨hs, hadd⟩ := add_of_true hnew
  have hout : o.seq.toInt64 ∉ largest (box.capacity + box.seenCap) (offered h) := fun hm => by
    rw [(I.add_fst o).2 hm] at hnew
    cases hnew
  rw [hadd]
  set s := o.seq.toInt64
  set db₁ : DB := { db with inbox := db.inbox ++ [⟨box.peer, s, o.ts, o.payload⟩] }
  set T := largest box.capacity (insert s (offered h))
  have hseqs : db₁.inboxSeqs box.peer = db.inboxSeqs box.peer ++ [s] := by
    simp [db₁, DB.inboxSeqs]
  have hnd : (db₁.inboxSeqs box.peer).Nodup := by
    rw [hseqs]
    exact I.nodup.append (List.nodup_singleton s) (by simpa using hs)
  have hset : (db₁.inboxSeqs box.peer).toFinset = insert s (largest box.capacity (offered h)) := by
    rw [hseqs, ← I.window]
    ext x
    simp
  have hT : largest box.capacity (db₁.inboxSeqs box.peer).toFinset = T := by
    rw [hset, largest_insert_largest]
  have hin := box.evictLoop_inbox _ db₁ hnd rfl
  obtain ⟨hsn, hsf⟩ := box.evictLoop_seen _ db₁ hnd I.nodupSeen rfl
  rw [hT] at hin hsf
  set db₂ := box.evictLoop (db₁.inboxSeqs box.peer).length db₁
  have hseqs₂ : db₂.inboxSeqs box.peer = (db₁.inboxSeqs box.peer).filter fun x => ¬ x ∉ T := by
    rw [← DB.inboxSeqs_filter db₁ box.peer (· ∉ T)]
    simp only [DB.inboxSeqs, hin]
  have hwin : (db₂.inboxSeqs box.peer).toFinset = T := by
    ext x
    rw [List.mem_toFinset, hseqs₂, List.mem_filter, ← List.mem_toFinset, decide_eq_true_eq, not_not]
    exact ⟨fun hx => hx.2, fun hx => ⟨largest_subset _ _ (hT ▸ hx), hx⟩⟩
  obtain ⟨hgn, hgf⟩ := box.boundGuard_seenSeqs hsn
  have hseen₁ : db₁.seenSeqs box.peer = db.seenSeqs box.peer := rfl
  have hoff : offered (h ++ [o]) = insert s (offered h) := offered_append h o
  have hnonempty : db₂.inboxSeqs box.peer ≠ [] := fun hnil => by
    have hcard : T.card = min box.capacity (insert s (offered h)).card := card_largest _ _
    have hpos : 0 < (insert s (offered h)).card :=
      Finset.card_pos.2 ⟨s, Finset.mem_insert_self _ _⟩
    rw [← hwin, hnil, List.toFinset_nil, Finset.card_empty] at hcard
    omega
  refine ⟨?_, hgn, ?_, ?_, fun r hr hp => ?_, ?_⟩
  · exact hseqs₂ ▸ hnd.filter _
  · rw [hoff]
    exact hwin
  · rw [hoff]
    calc ((box.boundGuard db₂).seenSeqs box.peer).toFinset
        = largest box.seenCap (largest box.seenCap (offered h \ largest box.capacity (offered h))
            ∪ (insert s (largest box.capacity (offered h)) \ T)) := by
          rw [hgf, hsf, hset, hseen₁, I.guard]
      _ = largest box.seenCap (insert s (offered h) \ T) := by
          rw [largest_union_largest, rest_insert]
  · -- the row added is in the window only if its seq was never offered before
    have hr₂ : r ∈ db₂.inbox := hr
    rw [hin, List.mem_filter, decide_eq_true_eq] at hr₂
    have hrT : r.seq ∈ T := by
      by_contra hn
      exact hr₂.2 ⟨hp, hn⟩
    rw [firstOffer_append]
    rcases List.mem_append.1 hr₂.1 with hold | hrow
    · rw [I.first r hold hp]
      rfl
    · rw [List.mem_singleton] at hrow
      subst hrow
      have hnS : s ∉ offered h := fun hS => by
        have hnL : s ∉ largest box.capacity (offered h) := fun hL => by
          rw [largest_add] at hout
          exact hout (Finset.mem_union_left _ hL)
        exact notMem_largest_insert hS hnL hrT
      have hnone : firstOffer h s = none := by
        rw [← Option.not_isSome_iff_eq_none, firstOffer_isSome]
        exact hnS
      rw [hnone, if_pos rfl]
      rfl
  · obtain ⟨m, hm⟩ := sqlMin_isSome hnonempty
    rw [InboxStore.trimTx, InboxStore.retainedMin_setRetainedMin]
    have hseqs₃ : (box.boundGuard db₂).inboxSeqs box.peer = db₂.inboxSeqs box.peer := rfl
    have hseqs₄ : (box.setRetainedMin (box.boundGuard db₂)).inboxSeqs box.peer
        = db₂.inboxSeqs box.peer := rfl
    rw [hseqs₃, hseqs₄, hm]
    rfl

theorem add_false (I : InboxInv box h db) {o : Offer}
    (hdup : (box.add db o.seq o.ts o.payload).1 = false) : InboxInv box (h ++ [o]) db := by
  have hmem : o.seq.toInt64 ∈ offered h := largest_subset _ _ ((I.add_fst o).1 hdup)
  have hoff : offered (h ++ [o]) = offered h := by
    rw [offered_append, Finset.insert_eq_self.2 hmem]
  refine ⟨I.nodup, I.nodupSeen, hoff ▸ I.window, hoff ▸ I.guard, fun r hr hp => ?_, I.retained⟩
  rw [firstOffer_append, I.first r hr hp]
  rfl

/-- One offer keeps the invariant. -/
theorem add (hc : 1 ≤ box.capacity) (I : InboxInv box h db) (o : Offer) :
    InboxInv box (h ++ [o]) (box.add db o.seq o.ts o.payload).2 := by
  rcases hb : (box.add db o.seq o.ts o.payload).1 with _ | _
  · rw [add_of_false hb]
    exact I.add_false hb
  · exact I.add_true hc hb

/-- With the first offers given, the rows of the peer are determined. -/
theorem mem_inbox (I : InboxInv box h db) {r : InboxRow} (hp : r.peer = box.peer) :
    r ∈ db.inbox ↔ r.seq ∈ largest box.capacity (offered h)
      ∧ firstOffer h r.seq = some (r.ts, r.payload) := by
  rw [← I.window, List.mem_toFinset]
  constructor
  · exact fun hr => ⟨DB.mem_inboxSeqs.2 ⟨r, hr, hp, rfl⟩, I.first r hr hp⟩
  · rintro ⟨hseq, hfirst⟩
    obtain ⟨r', hr', hp', hs'⟩ := DB.mem_inboxSeqs.1 hseq
    have h' := I.first r' hr' hp'
    rw [hs', hfirst, Option.some.injEq, Prod.mk.injEq] at h'
    obtain ⟨hts, hpl⟩ := h'
    cases r
    cases r'
    simp only at *
    subst hs' hts hpl hp hp'
    exact hr'

theorem mem_inboxSeen (I : InboxInv box h db) {r : InboxSeenRow} (hp : r.peer = box.peer) :
    r ∈ db.inboxSeen
      ↔ r.seq ∈ largest box.seenCap (offered h \ largest box.capacity (offered h)) := by
  obtain ⟨peer, seq⟩ := r
  dsimp only at hp
  subst hp
  rw [← I.guard, List.mem_toFinset, DB.mem_seenSeqs]

/-- The tables depend on the offers only through the first offer under each seq. -/
theorem congr {h' : List Offer} {db' : DB} (I : InboxInv box h db) (I' : InboxInv box h' db')
    (hf : firstOffer h' = firstOffer h) :
    (∀ r : InboxRow, r.peer = box.peer → (r ∈ db'.inbox ↔ r ∈ db.inbox))
      ∧ (∀ r : InboxSeenRow, r.peer = box.peer → (r ∈ db'.inboxSeen ↔ r ∈ db.inboxSeen))
      ∧ box.retainedMin db' = box.retainedMin db := by
  have hoff : offered h' = offered h := by
    ext s
    rw [← firstOffer_isSome, ← firstOffer_isSome, hf]
  refine ⟨fun r hp => ?_, fun r hp => ?_, ?_⟩
  · rw [I'.mem_inbox hp, I.mem_inbox hp, hoff, hf]
  · rw [I'.mem_inboxSeen hp, I.mem_inboxSeen hp, hoff]
  · rw [I'.retained, I.retained]
    exact sqlMin_congr (by rw [I'.window, I.window, hoff])

end InboxInv

section Run

variable (peer : PublicKey) (capacity : ℤ)

inductive InboxOp where
  | add (o : Offer)
  | restart
  deriving DecidableEq, Repr

/-- The store object and the database.  A restart builds the object anew over the database it
finds. -/
def inboxStep : InboxStore × DB → InboxOp → InboxStore × DB
  | (box, db), .add o => (box, (box.add db o.seq o.ts o.payload).2)
  | (_, db), .restart => (newInboxStore peer capacity, db)

def inboxRun (ops : List InboxOp) : InboxStore × DB :=
  ops.foldl (inboxStep peer capacity) (newInboxStore peer capacity, {})

def offers (ops : List InboxOp) : List Offer :=
  ops.filterMap fun
    | .add o => some o
    | .restart => none

theorem one_le_capacity : 1 ≤ (newInboxStore peer capacity).capacity := by
  unfold newInboxStore
  dsimp only
  split_ifs
  · exact le_rfl
  · omega

/-- Over any run the object stays the one the capacity gives, the invariant holds of the offers
made, and no other peer has a row. -/
theorem inboxRun_inv (ops : List InboxOp) :
    (inboxRun peer capacity ops).1 = newInboxStore peer capacity
      ∧ InboxInv (newInboxStore peer capacity) (offers ops) (inboxRun peer capacity ops).2
      ∧ ∀ q, q ≠ peer → DB.SameFor q {} (inboxRun peer capacity ops).2 := by
  induction ops using List.reverseRecOn with
  | nil => exact ⟨rfl, InboxInv.nil rfl rfl rfl, fun q _ => DB.SameFor.refl q {}⟩
  | append_singleton ops op ih =>
    obtain ⟨hbox, hinv, hsame⟩ := ih
    have hstep : inboxRun peer capacity (ops ++ [op])
        = inboxStep peer capacity (inboxRun peer capacity ops) op := by
      simp [inboxRun, List.foldl_append]
    rw [hstep]
    rcases hrun : inboxRun peer capacity ops with ⟨box, db⟩
    rw [hrun] at hbox hinv hsame
    dsimp only at hbox hinv hsame
    subst hbox
    cases op with
    | add o =>
      refine ⟨rfl, ?_, fun q hq => (hsame q hq).trans (InboxStore.add_sameFor _ hq _ _ _ _)⟩
      have := hinv.add (one_le_capacity peer capacity) o
      simpa [offers, inboxStep] using this
    | restart => exact ⟨rfl, by simpa [offers, inboxStep] using hinv, hsame⟩

/-- After any offers, with restarts in between, the inbox is the `c` largest seqs offered, each as
first offered, the guard the `4 c` largest of the rest, `retained_min` the least of the inbox, and
an offer is refused exactly when its seq is among the `5 c` largest.  What the tables hold depends
on the offers only through the first offer under each seq. -/
theorem inbox_is_newest_window (ops : List InboxOp) :
    let box := (inboxRun peer capacity ops).1
    let db := (inboxRun peer capacity ops).2
    let S := offered (offers ops)
    let c := if capacity < 1 then 1 else capacity.toNat
    box.capacity = c
    ∧ (db.inboxSeqs peer).Nodup ∧ IsLargest c S (db.inboxSeqs peer).toFinset
    ∧ (∀ r ∈ db.inbox, r.peer = peer
      ∧ firstOffer (offers ops) r.seq = some (r.ts, r.payload))
    ∧ (db.seenSeqs peer).Nodup
    ∧ IsLargest (4 * c) (S \ (db.inboxSeqs peer).toFinset) (db.seenSeqs peer).toFinset
    ∧ (S.Nonempty → ∃ m, box.retainedMin db = some m ∧ m ∈ db.inboxSeqs peer
      ∧ ∀ s ∈ db.inboxSeqs peer, m ≤ s)
    ∧ (∀ o : Offer, (box.add db o.seq o.ts o.payload).1 = false
      ↔ o.seq.toInt64 ∈ largest (5 * c) S)
    ∧ ∀ ops' : List InboxOp, firstOffer (offers ops') = firstOffer (offers ops) →
      (∀ r, r ∈ (inboxRun peer capacity ops').2.inbox ↔ r ∈ db.inbox)
      ∧ (∀ r, r ∈ (inboxRun peer capacity ops').2.inboxSeen ↔ r ∈ db.inboxSeen)
      ∧ (inboxRun peer capacity ops').1.retainedMin (inboxRun peer capacity ops').2
        = box.retainedMin db := by
  intro box db S c
  obtain ⟨hbox, I, hsame⟩ := inboxRun_inv peer capacity ops
  have hrow : ∀ ops' r, r ∈ (inboxRun peer capacity ops').2.inbox → r.peer = peer :=
    fun ops' r hr => Table.key_eq_of_rowsOf InboxRow.peer
      (fun q hq => ((inboxRun_inv peer capacity ops').2.2 q hq).inbox) hr
  have hseen : ∀ ops' r, r ∈ (inboxRun peer capacity ops').2.inboxSeen → r.peer = peer :=
    fun ops' r hr => Table.key_eq_of_rowsOf InboxSeenRow.peer
      (fun q hq => ((inboxRun_inv peer capacity ops').2.2 q hq).inboxSeen) hr
  have hfive : (newInboxStore peer capacity).capacity + (newInboxStore peer capacity).seenCap
      = 5 * c := by
    show c + 4 * c = 5 * c
    ring
  refine ⟨by rw [show box = _ from hbox]; rfl, I.nodup, ?_, fun r hr => ?_, I.nodupSeen, ?_,
    fun hne => ?_, fun o => ?_, fun ops' hf => ?_⟩
  · rw [show (db.inboxSeqs peer).toFinset = _ from I.window]
    exact isLargest_largest _ _
  · exact ⟨hrow ops r hr, I.first r hr (hrow ops r hr)⟩
  · rw [show (db.inboxSeqs peer).toFinset = _ from I.window,
      show (db.seenSeqs peer).toFinset = _ from I.guard]
    exact isLargest_largest _ _
  · have hnil : db.inboxSeqs peer ≠ [] := fun hnil => by
      have hcard := card_largest (newInboxStore peer capacity).capacity S
      rw [← show (db.inboxSeqs peer).toFinset = _ from I.window, hnil] at hcard
      have := one_le_capacity peer capacity
      have := Finset.card_pos.2 hne
      simp at hcard
      omega
    obtain ⟨m, hm⟩ := sqlMin_isSome hnil
    refine ⟨m, ?_, sqlMin_spec hm⟩
    rw [show box = _ from hbox, ← hm]
    exact I.retained
  · rw [show box = _ from hbox, ← hfive]
    exact I.add_fst o
  · obtain ⟨hbox', I', -⟩ := inboxRun_inv peer capacity ops'
    obtain ⟨h1, h2, h3⟩ := I.congr I' hf
    refine ⟨fun r => ?_, fun r => ?_, ?_⟩
    · exact ⟨fun hr => (h1 r (hrow ops' r hr)).1 hr, fun hr => (h1 r (hrow ops r hr)).2 hr⟩
    · exact ⟨fun hr => (h2 r (hseen ops' r hr)).1 hr, fun hr => (h2 r (hseen ops r hr)).2 hr⟩
    · rw [hbox', show box = _ from hbox]
      exact h3

end Run

end Aimless
