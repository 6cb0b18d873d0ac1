import Aimless.Proofs.Budget

/-!
# The stored chunks of a run

What one operation of a daemon does to the chunks it stores (`step_chunks`): some of them go, or one
comes in, from a packet whose header names it, and is reported.  So every stored chunk is the one
its header names, stored once (`run_chunks`).

A transfer is complete when as many chunks are stored as the largest total says
(`pending_iff_complete`): their indices differ and are below that total.
-/

namespace Aimless

variable {C : Config}

/-- The header of a chunk that is stored. -/
def AttachRow.Headed (r : AttachRow) : Prop :=
  parseFileHeader r.payload = some (r.tid, r.idx, r.total)

theorem AttachRow.Headed.idx_lt {r : AttachRow} (h : r.Headed) : r.idx < r.total := by
  unfold AttachRow.Headed parseFileHeader at h
  dsimp only at h
  split_ifs at h with _ htotal
  simp only [Option.some.injEq, Prod.mk.injEq] at h
  obtain ⟨-, hidx, htot⟩ := h
  rw [← hidx, ← htot]
  exact UInt16.not_le.1 fun hle => htotal (.inr hle)

namespace AttachmentStore

variable {as : AttachmentStore}

theorem MakeRoom.sublist {need n : ℕ} {exclude : Text} {db : DB} {r : Bool × DB}
    (h : as.MakeRoom need exclude db n r) : r.2.attach.Sublist db.attach := by
  induction h with
  | fits => exact List.Sublist.refl _
  | stuck => exact List.Sublist.refl _
  | evict _ _ _ ih => exact ih.trans List.filter_sublist

/-- What `Add` does where it raises no error. -/
theorem add_cases {db db' : DB} {tid : Text} {index total : UInt16} {seq : UInt64} {ts : Int64}
    {payload : Bytes} {isNew : Bool}
    (h : as.add db tid index total seq ts payload = some (isNew, db')) :
    isNew = false ∧ db' = db
      ∨ isNew = true ∧ (∀ r ∈ db.attach, ¬ (r.peer = as.peer ∧ r.tid = tid ∧ r.idx = index))
        ∧ ∃ rows, rows.Sublist db.attach ∧ db' = { db with
          attach := rows ++ [⟨as.peer, tid, index, total, seq.toInt64, ts, payload⟩] } := by
  by_cases hdup : db.attach.any fun r => r.peer = as.peer ∧ r.tid = tid ∧ r.idx = index
  · unfold add at h
    rw [if_pos hdup] at h
    cases h
    exact .inl ⟨rfl, rfl⟩
  have hnone : ∀ r ∈ db.attach, ¬ (r.peer = as.peer ∧ r.tid = tid ∧ r.idx = index) := by
    simpa using hdup
  obtain ⟨rows, hrows⟩ := as.add_attach h
  rw [add_eq_addTx] at h
  split at h
  · rename_i work heq
    cases h
    have hres : (as.addTx db tid index total seq ts payload).1 = .isNew := by rw [heq]
    obtain ⟨w, hw, hdb⟩ := addTx_isNew hres
    obtain ⟨n, -, hrun⟩ := as.makeRoom_ends db payload.length tid
    rw [hw] at hrun
    rw [heq] at hdb
    refine .inr ⟨rfl, hnone, w.attach, hrun.sublist, ?_⟩
    have hattach : rows = w.attach ++ [⟨as.peer, tid, index, total, seq.toInt64, ts, payload⟩] := by
      have := congrArg DB.attach (hrows.symm.trans hdb)
      exact this
    rw [hrows, hattach]
  · rename_i db₁ heq
    cases h
    refine .inl ⟨rfl, ?_⟩
    have hres : (as.addTx db tid index total seq ts payload).1 ≠ .isNew := by rw [heq]; simp
    have := addTx_eq_of_ne hres
    rwa [heq] at this
  · cases h

end AttachmentStore

namespace Daemon

/-- The file chunks that an operation reports. -/
def fileEvents (out : List Output) : List (PublicKey × UInt64 × Bytes) :=
  out.filterMap fun
    | .event (.recvFile sender seq _ payload) => some (sender, seq, payload)
    | _ => none

/-! ### Requests -/

theorem sendStatus_db (now : ℤ) (d : Daemon) (dest : PublicKey) (seq : UInt64) (payload : Bytes) :
    (d.sendStatus C now dest seq payload).2.db = d.db := by
  unfold sendStatus
  rcases d.sendControl_cases (C := C) dest _ with h | ⟨data, -, h⟩ <;> rw [h]
  rfl

theorem watch_db (persisted : Bool) (d : Daemon) (k : PublicKey) :
    (d.watch persisted k).2.db = d.db := by
  have hdb := d.boxFor_db k
  unfold watch
  split
  · rfl
  dsimp only
  split
  · exact hdb
  split <;> exact hdb

theorem block_db (persisted : Bool) (d : Daemon) (k : PublicKey) :
    (d.block persisted k).2.db = d.db := by
  unfold block persistBlocked
  split
  · rfl
  split <;> rfl

theorem unblock_db (persisted : Bool) (d : Daemon) (k : PublicKey) :
    (d.unblock persisted k).2.db = d.db := by
  unfold unblock persistBlocked
  split
  · rfl
  split <;> rfl

/-- A request deletes the chunks of a transfer or none. -/
theorem dispatch_attach (now : ℤ) (persisted : Bool) (d : Daemon) (req : Request) :
    (d.dispatch C now persisted req).2.db.attach = d.db.attach
      ∨ ∃ sender tid key, req = .ackfile sender tid ∧ decodeFromKey sender = .ok key
        ∧ (d.dispatch C now persisted req).2.db.attach
          = ((attachStore C key).ackTid d.db tid).attach := by
  have h := d.dispatch_dispatched (C := C) now persisted req
  generalize (d.dispatch C now persisted req).2 = d' at h ⊢
  have hsend : ∀ typ key bytes,
      ((d.touchClient now).sendAs typ now key bytes).2.db.attach = d.db.attach := by
    intro typ key bytes
    obtain ⟨seqs, rows, hdb⟩ := (d.touchClient now).sendAs_db typ now key bytes
    rw [hdb]
    rfl
  cases h with
  | reads => exact .inl rfl
  | opens key => exact .inl (congrArg DB.attach (boxFor_db _ _))
  | send key bytes => exact .inl (hsend typeMsg key bytes)
  | sendfile key bytes => exact .inl (hsend typeFile key bytes)
  | ackfile hkey => exact .inr ⟨_, _, _, rfl, hkey, rfl⟩
  | watch key => exact .inl (congrArg DB.attach (watch_db persisted _ key))
  | setstatus hb bytes => exact .inl (congrArg DB.attach (sendStatus_db now _ _ _ _))
  | block key => exact .inl (congrArg DB.attach (block_db persisted _ key))
  | unblock key => exact .inl (congrArg DB.attach (unblock_db persisted _ key))

/-! ### One operation -/

theorem probeOne_db (now : ℤ) (d : Daemon) (k : PublicKey) : (d.probeOne C now k).db = d.db := by
  have hprobe : ∀ d : Daemon, (d.sendProbe C now k).2.db = d.db := by
    intro d
    unfold sendProbe
    rcases ({ d with probeSeq := d.probeSeq + 1 } : Daemon).sendControl_cases (C := C) k _ with
      h | ⟨data, -, h⟩ <;> rw [h]
    rfl
  unfold probeOne
  split
  · rfl
  dsimp only
  split
  · rw [sendStatus_db, hprobe]
  split
  · rw [sendStatus_db, hprobe]
  · exact hprobe d

theorem tick_db (now : ℤ) (order : List PublicKey) (d : Daemon) :
    (d.tick C now order).db = d.db := by
  have hfold : ∀ (keys : List PublicKey) (d : Daemon),
      (keys.foldl (probeOne C now) d).db = d.db := by
    intro keys
    induction keys with
    | nil => exact fun _ => rfl
    | cons k keys ih => exact fun d => (ih _).trans (probeOne_db now d k)
  exact hfold _ d

/-- A chunk from a packet: the packet is not from a blocked peer, and its header names the chunk. -/
structure FileOf (d : Daemon) (op : Op) (row : AttachRow) (seq : UInt64) : Prop where
  packet : ∃ now data env, op = .packet now row.peer data ∧ decodeEnvelope data = .ok env
    ∧ env.type = typeFile ∧ env.payload = row.payload ∧ env.seq = seq ∧ env.ts = row.ts
  unblocked : ¬ d.isBlocked row.peer
  headed : row.Headed
  seq_eq : row.seq = seq.toInt64

/-- Chunks go and nothing is reported, or one comes in that was not there and is reported. -/
theorem step_chunks (d : Daemon) (op : Op) :
    (d.step C op).1.db.attach.Sublist d.db.attach ∧ fileEvents (d.step C op).2 = []
      ∨ ∃ row seq rows, FileOf d op row seq ∧ rows.Sublist d.db.attach
        ∧ (d.step C op).1.db.attach = rows ++ [row]
        ∧ (∀ r ∈ d.db.attach, ¬ (r.peer = row.peer ∧ r.tid = row.tid ∧ r.idx = row.idx))
        ∧ fileEvents (d.step C op).2 = [(row.peer, seq, row.payload)] := by
  have hsame : ∀ {d' : Daemon}, d'.db = d.db → d'.db.attach.Sublist d.db.attach := fun h => by rw [h]
  cases op with
  | api now persisted req =>
    refine .inl ⟨?_, rfl⟩
    rcases d.dispatch_attach (C := C) now persisted req with h | ⟨sender, tid, key, -, -, h⟩
    · exact (show (d.dispatch C now persisted req).2.db.attach.Sublist d.db.attach by rw [h])
    · refine (show (d.dispatch C now persisted req).2.db.attach.Sublist d.db.attach from ?_)
      rw [h]
      exact List.filter_sublist
  | packet now sender data =>
    have hh := handlePacket_handled (C := C) now d sender data
    unfold Daemon.step
    dsimp only
    generalize d.handlePacket C now sender data = r at hh ⊢
    have hbox := d.boxFor_db sender
    cases hh with
    | drop => exact .inl ⟨List.Sublist.refl _, rfl⟩
    | ignored => exact .inl ⟨hsame hbox, rfl⟩
    | @file env tid index total isNew db hb he ht hhead hadd =>
      dsimp only
      rw [sendAck_db]
      rcases AttachmentStore.add_cases hadd with ⟨rfl, rfl⟩ | ⟨rfl, hnone, rows, hrows, rfl⟩
      · exact .inl ⟨List.Sublist.refl _, rfl⟩
      · exact .inr ⟨⟨sender, tid, index, total, env.seq.toInt64, env.ts, env.payload⟩, env.seq, rows,
          ⟨⟨now, data, env, rfl, he, ht, rfl, rfl, rfl⟩, hb, hhead, rfl⟩, hrows, rfl, hnone, rfl⟩
    | msg hb he ht =>
      dsimp only
      rw [sendAck_db]
      refine .inl ⟨?_, ?_⟩
      · obtain ⟨i, s, p, h⟩ := (inboxOf C sender).add_tables d.db _ _ _
        rw [h]
      · split <;> rfl
    | ack hb he ht =>
      refine .inl ⟨List.Sublist.refl _, ?_⟩
      dsimp only
      split <;> rfl
    | probe => exact .inl ⟨hsame hbox, rfl⟩
    | status => exact .inl ⟨hsame hbox, rfl⟩
  | flush now stamp peer => exact .inl ⟨hsame (d.flushPeer_db now stamp peer), rfl⟩
  | retry now stamp order => exact .inl ⟨hsame (d.retryRound_db now stamp order), rfl⟩
  | pathUp now stamp key =>
    exact .inl ⟨hsame ((probeOne_db now _ key).trans (d.flushPeer_db now stamp key)), rfl⟩
  | tick now order => exact .inl ⟨hsame (tick_db now order d), rfl⟩
  | writeControl =>
    unfold Daemon.step
    dsimp only
    split <;> exact .inl ⟨List.Sublist.refl _, rfl⟩
  | writeBulk =>
    unfold Daemon.step
    dsimp only
    split <;> exact .inl ⟨List.Sublist.refl _, rfl⟩
  | restart => exact .inl ⟨hsame (d.restart_spec []).2.1, rfl⟩

/-! ### Whole runs -/

/-- Every stored chunk is the one its header names, and none is stored twice. -/
structure Chunks (db : DB) : Prop where
  headed : ∀ r ∈ db.attach, r.Headed
  nodup : (db.attach.map fun r => (r.peer, r.tid, r.idx)).Nodup

theorem Chunks.step {d : Daemon} (h : Chunks d.db) (op : Op) : Chunks (d.step C op).1.db := by
  rcases d.step_chunks (C := C) op with ⟨hsub, -⟩ | ⟨row, seq, rows, hfile, hsub, heq, hnew, -⟩
  · exact ⟨fun r hr => h.headed r (hsub.subset hr), h.nodup.sublist (hsub.map _)⟩
  · refine ⟨fun r hr => ?_, ?_⟩
    · rw [heq] at hr
      rcases List.mem_append.1 hr with hr | hr
      · exact h.headed r (hsub.subset hr)
      · rw [List.mem_singleton.1 hr]
        exact hfile.headed
    · rw [heq, List.map_append, List.map_singleton, List.nodup_append]
      refine ⟨h.nodup.sublist (hsub.map _), List.nodup_singleton _, ?_⟩
      rintro a ha b hb rfl
      obtain ⟨r, hr, rfl⟩ := List.mem_map.1 ha
      rw [List.mem_singleton, Prod.mk.injEq, Prod.mk.injEq] at hb
      exact hnew r (hsub.subset hr) ⟨hb.1, hb.2.1, hb.2.2⟩

theorem Chunks.run : ∀ (ops : List Op) {d : Daemon}, Chunks d.db → Chunks (d.run C ops).1.db
  | [], _, h => h
  | op :: ops, _, h => Chunks.run ops (h.step op)

end Daemon

namespace AttachmentStore

variable {as : AttachmentStore} {db : DB} {tid : Text}

theorem mem_transferOf {r : AttachRow} :
    r ∈ as.transferOf db tid ↔ r ∈ db.attach ∧ r.peer = as.peer ∧ r.tid = tid := by
  simp [transferOf, DB.attachOf, and_comm]

/-- The chunks `FetchTid` reads. -/
def fetched (as : AttachmentStore) (db : DB) (tid : Text) : List AttachRow :=
  (as.transferOf db tid).insertionSort fun r s => r.idx ≤ s.idx

theorem fetchTid_eq : as.fetchTid db tid = (as.fetched db tid).map fun r =>
    { tid, seq := r.seq.toUInt64, index := r.idx, total := r.total, ts := r.ts,
      payload := Base64.encode r.payload } := by
  unfold fetchTid fetched transferOf DB.attachOf
  rw [List.filter_filter]
  simp only [Bool.decide_and, Bool.and_comm]

/-- The indices of a transfer differ. -/
theorem idx_nodup (h : Daemon.Chunks db) : ((as.transferOf db tid).map (·.idx)).Nodup := by
  have hkeys : ((as.transferOf db tid).map fun r => (r.peer, r.tid, r.idx)).Nodup :=
    h.nodup.sublist ((List.filter_sublist.trans List.filter_sublist).map _)
  have hmap : (as.transferOf db tid).map (fun r => (r.peer, r.tid, r.idx))
      = ((as.transferOf db tid).map (·.idx)).map fun i => (as.peer, tid, i) := by
    rw [List.map_map]
    refine List.map_congr_left fun r hr => ?_
    obtain ⟨-, hp, ht⟩ := mem_transferOf.1 hr
    simp [hp, ht]
  rw [hmap] at hkeys
  exact hkeys.of_map _

/-- In the order of their indices, which differ. -/
theorem fetched_sorted (h : Daemon.Chunks db) :
    (as.fetched db tid).Pairwise fun r s => r.idx < s.idx := by
  have hle : (as.fetched db tid).Pairwise fun r s => r.idx ≤ s.idx :=
    List.pairwise_insertionSort _ _
  have hne : (as.fetched db tid).Pairwise fun r s => r.idx ≠ s.idx := by
    have hperm : ((as.fetched db tid).map (·.idx)).Perm ((as.transferOf db tid).map (·.idx)) :=
      (List.perm_insertionSort _ _).map _
    exact List.pairwise_map.1 (hperm.nodup_iff.2 (idx_nodup h))
  exact (hle.and hne).imp fun ⟨h1, h2⟩ => UInt16.lt_of_le_of_ne h1 h2

/-- The largest total among the stored chunks of a transfer. -/
def LargestTotal (as : AttachmentStore) (db : DB) (tid : Text) (t : ℕ) : Prop :=
  IsGreatest {n | ∃ r ∈ as.transferOf db tid, r.total.toNat = n} t

theorem tot_eq {t : ℕ} (ht : as.LargestTotal db tid t) :
    ((as.transferOf db tid).map (·.total.toNat)).foldl max 0 = t := by
  have hmax : ((as.transferOf db tid).map (·.total.toNat)).max? = some t := by
    obtain ⟨⟨r, hr, htot⟩, hub⟩ := ht
    refine List.max?_eq_some_iff.2 ⟨List.mem_map.2 ⟨r, hr, htot⟩, fun n hn => ?_⟩
    obtain ⟨r, hr, rfl⟩ := List.mem_map.1 hn
    exact hub ⟨r, hr, rfl⟩
  rw [List.foldl_max, hmax]
  simp

/-- The indices of a transfer, in order, are below its largest total. -/
theorem idx_lt_total {t : ℕ} (h : Daemon.Chunks db) (ht : as.LargestTotal db tid t) :
    ∀ i ∈ (as.fetched db tid).map (·.idx.toNat), i < t := by
  intro i hi
  obtain ⟨r, hr, rfl⟩ := List.mem_map.1 hi
  have hr' : r ∈ as.transferOf db tid := (List.mem_insertionSort _).1 hr
  have hlt : r.idx.toNat < r.total.toNat :=
    UInt16.lt_iff_toNat_lt.1 (h.headed r (mem_transferOf.1 hr').1).idx_lt
  exact hlt.trans_le (ht.2 ⟨r, hr', rfl⟩)

theorem idx_sorted (h : Daemon.Chunks db) :
    ((as.fetched db tid).map (·.idx.toNat)).Pairwise (· < ·) :=
  List.pairwise_map.2 ((fetched_sorted h).imp UInt16.lt_iff_toNat_lt.1)

theorem idx_subperm {t : ℕ} (h : Daemon.Chunks db) (ht : as.LargestTotal db tid t) :
    List.Subperm ((as.fetched db tid).map (·.idx.toNat)) (List.range t) := by
  have hnodup : ((as.fetched db tid).map (·.idx.toNat)).Nodup :=
    (idx_sorted h).imp fun h => Nat.ne_of_lt h
  exact hnodup.subperm fun i hi => List.mem_range.2 (idx_lt_total h ht i hi)

/-- As many chunks as the total means all of them. -/
theorem idx_eq_range_iff {t : ℕ} (h : Daemon.Chunks db) (ht : as.LargestTotal db tid t) :
    (as.fetched db tid).map (·.idx.toNat) = List.range t ↔ (as.transferOf db tid).length = t := by
  have hlen : ((as.fetched db tid).map (·.idx.toNat)).length = (as.transferOf db tid).length := by
    rw [List.length_map, fetched, List.length_insertionSort]
  constructor
  · intro heq
    rw [← hlen, heq, List.length_range]
  · intro heq
    have hperm : ((as.fetched db tid).map (·.idx.toNat)).Perm (List.range t) :=
      (idx_subperm h ht).perm_of_length_le (by rw [hlen, heq, List.length_range])
    exact hperm.eq_of_pairwise (fun a b _ _ hab hba => absurd hab (Nat.lt_asymm hba))
      (idx_sorted h) List.pairwise_lt_range

/-- A transfer is listed when as many chunks are stored as its largest total. -/
theorem mem_pending_iff {t : ℕ} (ht : as.LargestTotal db tid t) (p : AttachPending) :
    p ∈ as.pending db ∧ p.tid = tid ↔ (as.transferOf db tid).length = t
      ∧ p = ⟨tid, UInt16.ofNat t, (sqlMin ((as.transferOf db tid).map (·.ts))).getD 0⟩ := by
  have htid : tid ∈ (db.attachOf as.peer).map (·.tid) := by
    obtain ⟨⟨r, hr, -⟩, -⟩ := ht
    obtain ⟨hmem, hp, rfl⟩ := mem_transferOf.1 hr
    exact List.mem_map_of_mem (List.mem_filter.2 ⟨hmem, by simpa using hp⟩)
  have htot := tot_eq ht
  unfold pending
  simp only [List.mem_map, List.mem_insertionSort, List.mem_filter, decide_eq_true_eq, transfersTx,
    List.mem_dedup]
  constructor
  · rintro ⟨⟨row, ⟨⟨tid', htid', rfl⟩, hcnt⟩, rfl⟩, rfl⟩
    refine ⟨hcnt.trans htot, ?_⟩
    dsimp only
    rw [← htot]
    rfl
  · rintro ⟨hlen, rfl⟩
    refine ⟨⟨_, ⟨⟨tid, List.mem_map.1 htid, rfl⟩, hlen.trans htot.symm⟩, ?_⟩, rfl⟩
    dsimp only
    rw [← htot]
    rfl

/-- A transfer some of whose chunks are stored, after any operations of the daemon: there are no
more chunks than the largest total says; it is listed, with that total, if and only if there is one
for each index; and the chunks come in the order of their indices, each as its header says. -/
theorem pending_iff_complete (C : Config) (ops : List Op) (peer : PublicKey) (tid : Text) (t : ℕ)
    (ht : (Daemon.attachStore C peer).LargestTotal (Daemon.run C {} ops).1.db tid t) :
    let as := Daemon.attachStore C peer
    let db := (Daemon.run C {} ops).1.db
    (as.transferOf db tid).length ≤ t
      ∧ ((∃ p ∈ as.pending db, p.tid = tid)
        ↔ (as.fetchTid db tid).map (·.index.toNat) = List.range t)
      ∧ (∀ p ∈ as.pending db, p.tid = tid → p.total.toNat = t)
      ∧ (as.fetchTid db tid).Pairwise (fun e f => e.index < f.index)
      ∧ ∀ e : AttachEntry, e ∈ as.fetchTid db tid ↔ ∃ r ∈ as.transferOf db tid,
        Base64.decode e.payload = some r.payload
          ∧ parseFileHeader r.payload = some (tid, e.index, e.total)
          ∧ e = ⟨tid, r.seq.toUInt64, r.idx, r.total, r.ts, Base64.encode r.payload⟩ := by
  intro as db
  have h : Daemon.Chunks db := Daemon.Chunks.run ops ⟨by simp, by simp⟩
  have hidx : (as.fetchTid db tid).map (·.index.toNat) = (as.fetched db tid).map (·.idx.toNat) := by
    rw [fetchTid_eq, List.map_map]
    rfl
  refine ⟨?_, ?_, ?_, ?_, ?_⟩
  · have := (idx_subperm h ht).length_le
    rwa [List.length_map, fetched, List.length_insertionSort, List.length_range] at this
  · rw [hidx, idx_eq_range_iff h ht]
    constructor
    · rintro ⟨p, hp, hpt⟩
      exact ((mem_pending_iff ht p).1 ⟨hp, hpt⟩).1
    · intro hlen
      obtain ⟨hp, hpt⟩ := (mem_pending_iff ht _).2 ⟨hlen, rfl⟩
      exact ⟨_, hp, hpt⟩
  · intro p hp hpt
    obtain ⟨-, rfl⟩ := (mem_pending_iff ht p).1 ⟨hp, hpt⟩
    obtain ⟨⟨r, -, rfl⟩, -⟩ := ht
    simp
  · rw [fetchTid_eq]
    exact List.pairwise_map.2 (fetched_sorted h)
  · intro e
    rw [fetchTid_eq, List.mem_map]
    constructor
    · rintro ⟨r, hr, rfl⟩
      have hr' : r ∈ as.transferOf db tid := (List.mem_insertionSort _).1 hr
      obtain ⟨hmem, -, rfl⟩ := mem_transferOf.1 hr'
      exact ⟨r, hr', Base64.decode_encode r.payload, h.headed r hmem, rfl⟩
    · rintro ⟨r, hr, -, -, rfl⟩
      exact ⟨r, (List.mem_insertionSort _).2 hr, rfl⟩

/-- Three chunks out of order, the first of which gives a smaller total: with two the transfer is not
listed, with the third it is. -/
theorem pending_iff_complete_three :
    let C : Config := ⟨10, 100, 0, 0, 1000⟩
    let as := Daemon.attachStore C [3]
    let tid : Bytes := List.replicate 16 7
    let chunk (seq index total : UInt8) : Op := .packet 0 [3]
      ([1, 5, seq, 0, 0, 0, 0, 0, 0, 0, 9, 0, 0, 0, 0, 0, 0, 0, 21, 0]
        ++ tid ++ [index, 0, total, 0, 42])
    let half := (Daemon.run C {} [chunk 1 0 2, chunk 2 2 3]).1.db
    let full := (Daemon.run C {} [chunk 1 0 2, chunk 2 2 3, chunk 3 1 3]).1.db
    (as.pending half = [] ∧ (as.fetchTid half (Hex.encode tid)).map (·.index.toNat) ≠ List.range 3)
      ∧ as.pending full = [⟨Hex.encode tid, 3, 9⟩]
      ∧ (as.fetchTid full (Hex.encode tid)).map (·.index.toNat) = List.range 3 := by
  intro C as tid chunk half full
  have hhalf : as.pending half = [] := by decide +kernel
  have hfull : as.pending full = [⟨Hex.encode tid, 3, 9⟩] := by decide +kernel
  have hhalfTotals : (as.transferOf half (Hex.encode tid)).map (·.total.toNat) = [2, 3] := by
    decide +kernel
  have hfullTotals : (as.transferOf full (Hex.encode tid)).map (·.total.toNat) = [2, 3, 3] := by
    decide +kernel
  have hlargest : ∀ db totals, (as.transferOf db (Hex.encode tid)).map (·.total.toNat) = totals →
      3 ∈ totals → (∀ n ∈ totals, n ≤ 3) → as.LargestTotal db (Hex.encode tid) 3 := by
    rintro db _ rfl hmem hle
    exact ⟨List.mem_map.1 hmem, fun n hn => hle n (List.mem_map.2 hn)⟩
  refine ⟨⟨hhalf, fun h => ?_⟩, hfull, ?_⟩
  · obtain ⟨p, hp, -⟩ := (pending_iff_complete C [chunk 1 0 2, chunk 2 2 3] [3] (Hex.encode tid) 3
      (hlargest _ _ hhalfTotals (by decide) (by decide))).2.1.2 h
    change p ∈ as.pending half at hp
    rw [hhalf] at hp
    exact List.not_mem_nil hp
  · refine (pending_iff_complete C [chunk 1 0 2, chunk 2 2 3, chunk 3 1 3] [3] (Hex.encode tid) 3
      (hlargest _ _ hfullTotals (by decide) (by decide))).2.1.1 ⟨⟨Hex.encode tid, 3, 9⟩, ?_, rfl⟩
    change _ ∈ as.pending full
    rw [hfull]
    exact List.mem_singleton_self _

end AttachmentStore

end Aimless
