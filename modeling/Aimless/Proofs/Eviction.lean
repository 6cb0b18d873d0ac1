import Aimless.Lib.Ranked
import Aimless.Proofs.Chunks

/-!
# Which transfers are evicted

`evictionOrder` lists the transfers other than the one being written: the incomplete ones by age,
then the complete ones.  Each round of the eviction loop searches all transfers for its victim and
finds the first of that list (`pickEviction_eq`); the rest of the list is the list of the next round
(`evictionOrder_ackTid`).  So the loop deletes the shortest prefix of it that makes room.
-/

namespace Aimless

open Ranked

/-- By timestamp, then by tid. -/
def AttachTransferRow.age (t : AttachTransferRow) : Int64 ×ₗ Text := toLex (t.ts, t.tid)

/-- The transfers of one kind other than `exclude`, by age. -/
def byAge (transfers : List AttachTransferRow) (exclude : Text) (incomplete : Bool) :
    List AttachTransferRow :=
  ranked AttachTransferRow.age
    (transfers.filter fun t => t.tid ≠ exclude ∧ decide (t.cnt < t.tot) = incomplete)

def evictionOrder (transfers : List AttachTransferRow) (exclude : Text) : List AttachTransferRow :=
  byAge transfers exclude true ++ byAge transfers exclude false

/-- One row for each transfer, each with a tid and a chunk. -/
structure Grouped (transfers : List AttachTransferRow) : Prop where
  nodup : (transfers.map (·.tid)).Nodup
  tid : ∀ t ∈ transfers, t.tid ≠ []
  cnt : ∀ t ∈ transfers, t.cnt ≠ 0

namespace Grouped

variable {transfers : List AttachTransferRow} {s t : AttachTransferRow}

theorem eq_of_tid (h : Grouped transfers) (hs : s ∈ transfers) (ht : t ∈ transfers)
    (heq : s.tid = t.tid) : s = t :=
  List.inj_on_of_nodup_map h.nodup hs ht heq

theorem keyed (h : Grouped transfers) : Keyed AttachTransferRow.age transfers := by
  intro s hs t ht heq
  exact h.eq_of_tid hs ht (congrArg (fun p => (ofLex p).2) heq)

theorem filter (h : Grouped transfers) (p : AttachTransferRow → Bool) :
    Grouped (transfers.filter p) where
  nodup := h.nodup.sublist (List.filter_sublist.map _)
  tid t ht := h.tid t (List.mem_of_mem_filter ht)
  cnt t ht := h.cnt t (List.mem_of_mem_filter ht)

theorem bestTs_eq (h : Grouped transfers) (ht : t ∈ transfers) : bestTs transfers t.tid = t.ts := by
  unfold bestTs
  rcases hf : transfers.find? fun s => s.tid = t.tid with _ | s
  · have := List.find?_eq_none.1 hf t ht
    simp at this
  · have htid : s.tid = t.tid := by simpa using List.find?_some hf
    rw [hf, h.eq_of_tid (List.mem_of_find?_eq_some hf) ht htid]
    rfl

end Grouped

/-! ### The victim of a round -/

section Pick

variable {transfers : List AttachTransferRow} {exclude : Text} {incomplete : Bool}

/-- The state of the search once it has gone through `seen`: nothing found yet, or the oldest of
what it may take. -/
def Searched (exclude : Text) (incomplete : Bool) (seen : List AttachTransferRow) (best : Text) :
    Prop :=
  (best = [] ∧ ∀ s ∈ seen, ¬ (s.tid ≠ exclude ∧ decide (s.cnt < s.tot) = incomplete))
  ∨ ∃ t ∈ seen, best = t.tid ∧ t.tid ≠ exclude ∧ decide (t.cnt < t.tot) = incomplete
    ∧ ∀ s ∈ seen, s.tid ≠ exclude → decide (s.cnt < s.tot) = incomplete → t.age ≤ s.age

/-- A transfer that the search may not take. -/
theorem Searched.skip {seen : List AttachTransferRow} {best : Text} {t : AttachTransferRow}
    (h : Searched exclude incomplete seen best)
    (ht : ¬ (t.tid ≠ exclude ∧ decide (t.cnt < t.tot) = incomplete)) :
    Searched exclude incomplete (seen ++ [t]) best := by
  rcases h with ⟨hbest, hnone⟩ | ⟨u, hu, hbest, hex, hkind, hmin⟩
  · refine .inl ⟨hbest, fun s hs => ?_⟩
    rcases List.mem_append.1 hs with hs | hs
    · exact hnone s hs
    · rw [List.mem_singleton.1 hs]
      exact ht
  · refine .inr ⟨u, List.mem_append_left _ hu, hbest, hex, hkind, fun s hs hse hsk => ?_⟩
    rcases List.mem_append.1 hs with hs | hs
    · exact hmin s hs hse hsk
    · rw [List.mem_singleton.1 hs] at hse hsk
      exact absurd ⟨hse, hsk⟩ ht

theorem AttachTransferRow.age_lt_iff {s t : AttachTransferRow} :
    s.age < t.age ↔ s.ts < t.ts ∨ s.ts = t.ts ∧ s.tid < t.tid := Prod.Lex.toLex_lt_toLex

/-- A transfer that the search may take, and takes if it is the oldest so far. -/
theorem Searched.take {seen : List AttachTransferRow} {best : Text} {t : AttachTransferRow}
    (hg : Grouped transfers) (hseen : ∀ s ∈ seen, s ∈ transfers)
    (h : Searched exclude incomplete seen best) (hex : t.tid ≠ exclude)
    (hkind : decide (t.cnt < t.tot) = incomplete) :
    Searched exclude incomplete (seen ++ [t])
      (if best = [] ∨ t.ts < bestTs transfers best ∨ (t.ts = bestTs transfers best ∧ t.tid < best)
        then t.tid else best) := by
  rcases h with ⟨hbest, hnone⟩ | ⟨u, hu, hbest, huex, hukind, hmin⟩
  · rw [if_pos (.inl hbest)]
    refine .inr ⟨t, by simp, rfl, hex, hkind, fun s hs hse hsk => ?_⟩
    rcases List.mem_append.1 hs with hs | hs
    · exact absurd ⟨hse, hsk⟩ (hnone s hs)
    · rw [List.mem_singleton.1 hs]
  · have hne : best ≠ [] := hbest ▸ hg.tid u (hseen u hu)
    have hcond : (best = [] ∨ t.ts < bestTs transfers best
        ∨ (t.ts = bestTs transfers best ∧ t.tid < best)) ↔ t.age < u.age := by
      rw [hbest, hg.bestTs_eq (hseen u hu), ← hbest, AttachTransferRow.age_lt_iff, hbest]
      simp [hg.tid u (hseen u hu)]
    by_cases hlt : t.age < u.age
    · rw [if_pos (hcond.2 hlt)]
      refine .inr ⟨t, by simp, rfl, hex, hkind, fun s hs hse hsk => ?_⟩
      rcases List.mem_append.1 hs with hs | hs
      · exact hlt.le.trans (hmin s hs hse hsk)
      · rw [List.mem_singleton.1 hs]
    · rw [if_neg fun h => hlt (hcond.1 h)]
      refine .inr ⟨u, List.mem_append_left _ hu, hbest, huex, hukind, fun s hs hse hsk => ?_⟩
      rcases List.mem_append.1 hs with hs | hs
      · exact hmin s hs hse hsk
      · rw [List.mem_singleton.1 hs]
        exact not_lt.1 hlt

variable (exclude incomplete) in
theorem searched_pickOldest (hg : Grouped transfers) :
    Searched exclude incomplete transfers (pickOldest transfers exclude incomplete) := by
  have hfold : ∀ (rest seen : List AttachTransferRow) (best : Text), seen ++ rest = transfers →
      Searched exclude incomplete seen best →
      Searched exclude incomplete transfers (rest.foldl (fun best t =>
        if t.tid = exclude ∨ t.cnt = 0 then best
        else if decide (t.cnt < t.tot) ≠ incomplete then best
        else if best = [] ∨ t.ts < bestTs transfers best
            ∨ (t.ts = bestTs transfers best ∧ t.tid < best) then t.tid
        else best) best) := by
    intro rest
    induction rest with
    | nil =>
      intro seen best hall h
      rw [List.append_nil] at hall
      rwa [hall] at h
    | cons t rest ih =>
      intro seen best hall h
      have hmem : ∀ s ∈ seen ++ [t], s ∈ transfers := fun s hs => by
        rw [← hall]
        rcases List.mem_append.1 hs with hs | hs
        · exact List.mem_append_left _ hs
        · rw [List.mem_singleton.1 hs]
          simp
      have hcnt : t.cnt ≠ 0 := hg.cnt t (hmem t (by simp))
      refine ih (seen ++ [t]) _ (by simpa using hall) ?_
      dsimp only
      split_ifs with hskip hkind hbetter
      · refine h.skip fun hok => hok.1 (hskip.resolve_right hcnt)
      · exact h.skip fun hok => hkind hok.2
      all_goals
        have := Searched.take hg (fun s hs => hmem s (List.mem_append_left _ hs)) h
          (fun hex => hskip (.inl hex)) (not_not.1 hkind)
        first
          | rwa [if_pos hbetter] at this
          | rwa [if_neg hbetter] at this
  exact hfold transfers [] [] rfl (.inl ⟨rfl, by simp⟩)

theorem pickOldest_eq (hg : Grouped transfers) : pickOldest transfers exclude incomplete
    = ((byAge transfers exclude incomplete).head?.map (·.tid)).getD [] := by
  unfold byAge
  rcases searched_pickOldest exclude incomplete hg with
    ⟨hbest, hnone⟩ | ⟨t, ht, hbest, hex, hkind, hmin⟩
  · have hnil : (transfers.filter fun t => t.tid ≠ exclude ∧ decide (t.cnt < t.tot) = incomplete)
        = [] := List.filter_eq_nil_iff.2 fun s hs => by simpa using hnone s hs
    rw [hbest, hnil]
    rfl
  · rw [head?_ranked (hg.filter _).keyed (a := t), hbest]
    · rfl
    · simp [ht, hex, hkind]
    · intro s hs
      simp only [List.mem_filter, decide_eq_true_eq] at hs
      exact hmin s hs.1 hs.2.1 hs.2.2

/-- A round takes the first transfer of the list. -/
theorem pickEviction_eq (hg : Grouped transfers) :
    pickEviction transfers exclude = ((evictionOrder transfers exclude).head?.map (·.tid)).getD [] := by
  unfold pickEviction evictionOrder
  rw [pickOldest_eq hg, pickOldest_eq hg]
  rcases hl : byAge transfers exclude true with _ | ⟨t, rest⟩
  · simp
  · have ht : t ∈ transfers := by
      have : t ∈ byAge transfers exclude true := hl ▸ List.mem_cons_self
      exact List.mem_of_mem_filter ((ranked_perm _ _).mem_iff.1 this)
    simp [hg.tid t ht]

theorem evictionOrder_filter (hg : Grouped transfers) (p : AttachTransferRow → Bool) :
    evictionOrder (transfers.filter p) exclude = (evictionOrder transfers exclude).filter p := by
  have hkind : ∀ incomplete, byAge (transfers.filter p) exclude incomplete
      = (byAge transfers exclude incomplete).filter p := by
    intro incomplete
    unfold byAge
    rw [← ranked_filter (hg.filter _).keyed, List.filter_filter, List.filter_filter]
    simp only [Bool.and_comm]
  unfold evictionOrder
  rw [hkind, hkind, List.filter_append]

theorem evictionOrder_perm {transfers' : List AttachTransferRow} (hg : Grouped transfers)
    (hp : transfers'.Perm transfers) :
    evictionOrder transfers' exclude = evictionOrder transfers exclude := by
  unfold evictionOrder byAge
  rw [ranked_congr (hg.filter _).keyed (hp.filter _), ranked_congr (hg.filter _).keyed (hp.filter _)]

theorem evictionOrder_perm_others : (evictionOrder transfers exclude).Perm
    (transfers.filter fun t => t.tid ≠ exclude) := by
  have hkind : ∀ incomplete, (byAge transfers exclude incomplete).Perm
      ((transfers.filter fun t => t.tid ≠ exclude).filter
        fun t => decide (t.cnt < t.tot) = incomplete) := by
    intro incomplete
    refine (ranked_perm _ _).trans (.of_eq ?_)
    rw [List.filter_filter]
    refine List.filter_congr fun t _ => ?_
    simp [Bool.and_comm]
  refine ((hkind true).append (hkind false)).trans ?_
  refine List.Perm.trans (.of_eq ?_)
    (List.filter_append_perm (fun t => decide (t.cnt < t.tot)) _)
  congr 1
  · exact List.filter_congr fun t _ => by simp
  · exact List.filter_congr fun t _ => by simp [← decide_not]

variable (exclude) in
theorem evictionOrder_nodup (hg : Grouped transfers) :
    ((evictionOrder transfers exclude).map (·.tid)).Nodup :=
  (evictionOrder_perm_others.map _).nodup_iff.2 (hg.filter _).nodup

end Pick

namespace AttachmentStore

variable (as : AttachmentStore)

/-! ### The transfers of a store -/

/-- The row of a transfer. -/
def groupOf (db : DB) (tid : Text) : AttachTransferRow :=
  { tid, ts := (sqlMin ((as.transferOf db tid).map (·.ts))).getD 0
    cnt := (as.transferOf db tid).length
    tot := ((as.transferOf db tid).map (·.total.toNat)).foldl max 0 }

theorem transfersTx_eq (db : DB) :
    as.transfersTx db = ((db.attachOf as.peer).map (·.tid)).dedup.map (as.groupOf db) := rfl

/-- The store without some of its transfers. -/
def without (db : DB) (tids : List Text) : DB :=
  { db with attach := db.attach.filter fun r => ¬ (r.peer = as.peer ∧ tids.contains r.tid) }

variable {as} {db : DB}

theorem transfersTx_tids (db : DB) :
    (as.transfersTx db).map (·.tid) = ((db.attachOf as.peer).map (·.tid)).dedup := by
  rw [transfersTx_eq, List.map_map]
  exact List.map_id _

theorem transfersTx_grouped (htid : ∀ r ∈ db.attachOf as.peer, r.tid ≠ []) :
    Grouped (as.transfersTx db) where
  nodup := by
    rw [transfersTx_tids]
    exact List.nodup_dedup _
  tid t ht := by
    have hmem := as.mem_transfersTx.1 (List.mem_map_of_mem ht)
    obtain ⟨r, hr, hrt⟩ := List.mem_map.1 hmem
    exact hrt ▸ htid r hr
  cnt t ht := by
    rw [transfersTx_eq] at ht
    obtain ⟨tid, hmem, rfl⟩ := List.mem_map.1 ht
    obtain ⟨r, hr, rfl⟩ := List.mem_map.1 (List.mem_dedup.1 hmem)
    have hrow : r ∈ as.transferOf db r.tid := List.mem_filter.2 ⟨hr, by simp⟩
    exact (List.length_pos_of_mem hrow).ne'

theorem groupOf_ackTid {tid victim : Text} (h : tid ≠ victim) :
    as.groupOf (as.ackTid db victim) tid = as.groupOf db tid := by
  unfold groupOf
  rw [as.transferOf_ackTid db h]

/-- The other transfers are as they were. -/
theorem transfersTx_ackTid (db : DB) (victim : Text) : (as.transfersTx (as.ackTid db victim)).Perm
    ((as.transfersTx db).filter fun t => t.tid ≠ victim) := by
  have hnd : ∀ db, (as.transfersTx db).Nodup := fun db => by
    refine List.Nodup.of_map (·.tid) ?_
    rw [transfersTx_tids]
    exact List.nodup_dedup _
  refine (List.perm_ext_iff_of_nodup (hnd _) ((hnd db).filter _)).2 fun t => ?_
  simp only [transfersTx_eq, List.mem_filter, List.mem_map, List.mem_dedup, attachOf_ackTid,
    decide_eq_true_eq]
  constructor
  · rintro ⟨tid, ⟨r, ⟨hr, hrv⟩, rfl⟩, rfl⟩
    rw [groupOf_ackTid hrv]
    exact ⟨⟨_, ⟨r, hr, rfl⟩, rfl⟩, hrv⟩
  · rintro ⟨⟨tid, ⟨r, hr, rfl⟩, rfl⟩, hne⟩
    exact ⟨_, ⟨r, ⟨hr, hne⟩, rfl⟩, groupOf_ackTid hne⟩

theorem without_ackTid (db : DB) (victim : Text) (tids : List Text) :
    as.without (as.ackTid db victim) tids = as.without db (victim :: tids) := by
  unfold without ackTid
  simp only [List.filter_filter]
  congr 1
  refine List.filter_congr fun r _ => ?_
  by_cases hp : r.peer = as.peer
  · by_cases hv : r.tid = victim <;> simp [hp, hv]
  · simp [hp]

theorem without_nil (db : DB) : as.without db [] = db := by
  simp [without]

theorem bytes_without_le {tids tids' : List Text} (h : ∀ t ∈ tids, t ∈ tids') :
    as.bytes (as.without db tids') ≤ as.bytes (as.without db tids) := by
  unfold bytes DB.attachOf without
  refine (List.Sublist.map _ (List.Sublist.filter _ ?_)).sum_le_sum fun _ _ => Nat.zero_le _
  refine List.monotone_filter_right _ fun r hr => ?_
  simp only [decide_eq_true_eq] at hr ⊢
  rw [List.contains_iff_mem] at hr ⊢
  exact fun hin => hr ⟨hin.1, h _ hin.2⟩

/-! ### The loop -/

/-- The tids of the other transfers, in the order in which they are evicted. -/
def victims (as : AttachmentStore) (db : DB) (exclude : Text) : List Text :=
  (evictionOrder (as.transfersTx db) exclude).map (·.tid)

/-- Without the first `k` of them there is room. -/
def Room (as : AttachmentStore) (db : DB) (need : ℕ) (exclude : Text) (k : ℕ) : Prop :=
  (as.bytes (as.without db ((as.victims db exclude).take k)) + need : ℤ) ≤ as.capBytes

variable {need : ℕ} {exclude : Text}

theorem victims_ackTid (htid : ∀ r ∈ db.attachOf as.peer, r.tid ≠ []) {v : Text} {rest : List Text}
    (h : as.victims db exclude = v :: rest) : as.victims (as.ackTid db v) exclude = rest := by
  have hg := transfersTx_grouped htid
  unfold victims at h ⊢
  rw [evictionOrder_perm (hg.filter _) (transfersTx_ackTid db v), evictionOrder_filter hg]
  have hnd := evictionOrder_nodup exclude hg
  rcases ho : evictionOrder (as.transfersTx db) exclude with _ | ⟨t, tail⟩
  · rw [ho] at h
    cases h
  · rw [ho, List.map_cons, List.cons.injEq] at h
    rw [ho, List.map_cons, List.nodup_cons] at hnd
    obtain ⟨rfl, rfl⟩ := h
    rw [List.filter_cons_of_neg (by simp), List.filter_eq_self.2]
    intro s hs
    simp only [decide_eq_true_eq]
    exact fun heq => hnd.1 (heq ▸ List.mem_map_of_mem hs)

theorem pickEviction_victims (htid : ∀ r ∈ db.attachOf as.peer, r.tid ≠ []) :
    pickEviction (as.transfersTx db) exclude = (as.victims db exclude).headD [] := by
  rw [pickEviction_eq (transfersTx_grouped htid), victims]
  rcases evictionOrder (as.transfersTx db) exclude with _ | ⟨t, tail⟩
  · rfl
  · rfl

theorem ne_nil_of_mem_victims (htid : ∀ r ∈ db.attachOf as.peer, r.tid ≠ []) {v : Text}
    (h : v ∈ as.victims db exclude) : v ≠ [] := by
  obtain ⟨t, ht, rfl⟩ := List.mem_map.1 h
  have hmem : t ∈ as.transfersTx db := List.mem_of_mem_filter (evictionOrder_perm_others.mem_iff.1 ht)
  exact (transfersTx_grouped htid).tid t hmem

/-- The loop deletes the first victims, as many as it takes and no more. -/
theorem MakeRoom.shortest {n : ℕ} {r : Bool × DB} (h : as.MakeRoom need exclude db n r)
    (htid : ∀ r ∈ db.attachOf as.peer, r.tid ≠ []) :
    n ≤ (as.victims db exclude).length ∧ r.2 = as.without db ((as.victims db exclude).take n)
      ∧ (∀ j < n, ¬ as.Room db need exclude j)
      ∧ (r.1 = true → as.Room db need exclude n)
      ∧ (r.1 = false → n = (as.victims db exclude).length ∧ ¬ as.Room db need exclude n) := by
  induction h with
  | fits h =>
    refine ⟨Nat.zero_le _, by simp [without_nil], by simp, fun _ => ?_, by simp⟩
    simpa [Room, without_nil] using h
  | stuck h hv =>
    rename_i db
    have hnil : as.victims db exclude = [] := by
      rw [pickEviction_victims htid] at hv
      rcases ho : as.victims db exclude with _ | ⟨v, rest⟩
      · rfl
      · rw [ho] at hv
        exact absurd hv (ne_nil_of_mem_victims htid (ho ▸ List.mem_cons_self))
    refine ⟨Nat.zero_le _, by simp [without_nil], by simp, by simp, fun _ => ⟨by simp [hnil], ?_⟩⟩
    simpa [Room, without_nil] using h
  | evict h hv hnext ih =>
    rename_i db n r
    rcases ho : as.victims db exclude with _ | ⟨v, rest⟩
    · rw [pickEviction_victims htid, ho] at hv
      exact absurd rfl hv
    have hpick : pickEviction (as.transfersTx db) exclude = v := by
      rw [pickEviction_victims htid, ho, List.headD_cons]
    rw [hpick] at ih
    have htid' : ∀ r ∈ (as.ackTid db v).attachOf as.peer, r.tid ≠ [] := by
      intro r hr
      rw [attachOf_ackTid] at hr
      exact htid r (List.mem_of_mem_filter hr)
    obtain ⟨hn, hdb, hbefore, htrue, hfalse⟩ := ih htid'
    have hrest := victims_ackTid htid ho
    -- one round on, the victims are the rest of the list
    have hroom : ∀ k, as.Room (as.ackTid db v) need exclude k ↔ as.Room db need exclude (k + 1) := by
      intro k
      unfold Room
      rw [hrest, ho, without_ackTid, List.take_succ_cons]
    rw [hrest] at hn hdb hfalse
    refine ⟨by simpa using hn, ?_, ?_, fun hr => (hroom n).1 (htrue hr), fun hr => ?_⟩
    · rw [hdb, without_ackTid, List.take_succ_cons]
    · intro j hj
      cases j with
      | zero => simpa [Room, without_nil] using h
      | succ j => exact fun hr => hbefore j (by omega) ((hroom j).2 hr)
    · obtain ⟨hlen, hno⟩ := hfalse hr
      exact ⟨by simpa using hlen, fun hroom' => hno ((hroom n).2 hroom')⟩

theorem room_mono {j k : ℕ} (h : j ≤ k) (hj : as.Room db need exclude j) :
    as.Room db need exclude k := by
  unfold Room at hj ⊢
  have hle : as.bytes (as.without db ((as.victims db exclude).take k))
      ≤ as.bytes (as.without db ((as.victims db exclude).take j)) :=
    bytes_without_le fun t ht => (List.take_subset_take_left _ h) ht
  omega

/-- A chunk that is not stored yet comes in, unless there is no room for it. -/
theorem addTx_new {tid : Text} {index : UInt16} (total : UInt16) (seq : UInt64) (ts : Int64)
    (payload : Bytes) (hnew : ∀ r ∈ db.attach, ¬ (r.peer = as.peer ∧ r.tid = tid ∧ r.idx = index)) :
    (as.addTx db tid index total seq ts payload).1 = .budget
        ∧ ((payload.length : ℤ) > as.capBytes
          ∨ (as.makeRoomWork payload.length tid (db.attachOf as.peer).length db).1 = false)
      ∨ (as.addTx db tid index total seq ts payload).1 = .isNew
        ∧ (as.makeRoomWork payload.length tid (db.attachOf as.peer).length db).1 = true := by
  have hany : ¬ (db.attach.any fun r => r.peer = as.peer ∧ r.tid = tid ∧ r.idx = index) = true := by
    simpa using hnew
  unfold addTx addWork
  rw [if_neg hany]
  by_cases hcap : (payload.length : ℤ) > as.capBytes
  · simp [hcap]
  · rcases as.makeRoomWork payload.length tid (db.attachOf as.peer).length db with ⟨_ | _, work⟩
    · simp [hcap]
    · simp [hcap]

/-- What a daemon stores has a tid: it comes from the header of a packet. -/
theorem stored_tid_ne_nil (C : Config) (ops : List Op) (peer : PublicKey) :
    ∀ r ∈ (Daemon.run C {} ops).1.db.attachOf peer, r.tid ≠ [] := by
  intro r hr
  have hchunks : Daemon.Chunks (Daemon.run C {} ops).1.db :=
    Daemon.Chunks.run ops ⟨by simp, List.nodup_nil⟩
  have hhead := hchunks.headed r (List.mem_of_mem_filter hr)
  unfold AttachRow.Headed parseFileHeader attachHeaderSize at hhead
  dsimp only at hhead
  split_ifs at hhead with hlen
  simp only [Option.some.injEq, Prod.mk.injEq] at hhead
  intro hnil
  have := congrArg List.length (hhead.1.trans hnil)
  rw [Hex.length_encode, List.length_take, List.length_nil] at this
  omega

/-- A new chunk of `tid`, for any content of the store whose tids are not empty: the budget error
comes exactly if there is no room without all the other transfers; else the chunk comes in, and the
transfers deleted for it are the first of the list, as many as it takes and no more. -/
theorem evicts_shortest_initial (as : AttachmentStore) (db : DB)
    (htid : ∀ r ∈ db.attachOf as.peer, r.tid ≠ []) (tid : Text) (index total : UInt16)
    (seq : UInt64) (ts : Int64) (payload : Bytes)
    (hnew : ∀ r ∈ db.attach, ¬ (r.peer = as.peer ∧ r.tid = tid ∧ r.idx = index)) :
    let r := as.addTx db tid index total seq ts payload
    let order := as.victims db tid
    (r.1 = .budget ↔ ¬ as.Room db payload.length tid order.length)
    ∧ (r.1 ≠ .budget → ∃ k ≤ order.length, as.Room db payload.length tid k
      ∧ (∀ j < k, ¬ as.Room db payload.length tid j)
      ∧ r = (.isNew, { as.without db (order.take k) with
        attach := (as.without db (order.take k)).attach
          ++ [⟨as.peer, tid, index, total, seq.toInt64, ts, payload⟩] })) := by
  intro r order
  obtain ⟨n, -, hrun⟩ := as.makeRoom_ends db payload.length tid
  obtain ⟨hn, hdb, hbefore, htrue, hfalse⟩ := hrun.shortest htid
  rcases addTx_new total seq ts payload hnew with ⟨hres, hno⟩ | ⟨hres, hroom⟩
  · have hnone : ¬ as.Room db payload.length tid order.length := by
      intro hroom
      rcases hno with hbig | hwork
      · unfold Room at hroom
        omega
      · obtain ⟨hlen, hno⟩ := hfalse hwork
        exact hno (hlen ▸ hroom)
    exact ⟨⟨fun _ => hnone, fun _ => hres⟩, fun hr => absurd hres hr⟩
  · have hall : as.Room db payload.length tid order.length := room_mono hn (htrue hroom)
    have hne : r.1 ≠ .budget := by
      rw [show r.1 = .isNew from hres]
      simp
    refine ⟨⟨fun h => absurd h hne, fun h => absurd hall h⟩, fun _ => ?_⟩
    obtain ⟨work, hwork, hadd⟩ := addTx_isNew hres
    rw [hwork] at hdb htrue
    refine ⟨n, hn, htrue rfl, hbefore, Prod.ext hres ?_⟩
    rw [show r.2 = _ from hadd, show work = _ from hdb]

/-- A chunk of `d` for which the incomplete transfer goes, and then the older complete one. -/
theorem evicts_shortest_initial_two :
    let as : AttachmentStore := ⟨[1], 9⟩
    let db := as.calls {} [.add ['a'] 0 1 1 9 [1, 1, 1], .add ['b'] 0 2 2 7 [2, 2, 2],
      .add ['c'] 0 1 3 5 [3, 3, 3]]
    as.victims db ['d'] = [['b'], ['c'], ['a']]
      ∧ ∃ k ≤ 3, ((as.addTx db ['d'] 0 2 4 6 [4, 4, 4, 4, 4]).2.attachOf [1]).map (·.tid)
        = [['a'], ['d']] ∧ as.Room db 5 ['d'] k := by
  intro as db
  have hvictims : as.victims db ['d'] = [['b'], ['c'], ['a']] := by decide
  refine ⟨hvictims, ?_⟩
  obtain ⟨k, hk, hroom, -, -⟩ := (evicts_shortest_initial as db (by decide) ['d'] 0 2 4 6
    [4, 4, 4, 4, 4] (by decide)).2 (by decide)
  rw [hvictims] at hk
  exact ⟨k, hk, by decide, hroom⟩

end AttachmentStore

end Aimless
