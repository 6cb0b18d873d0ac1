import Aimless.Proofs.Chunks
import Aimless.Proofs.Receive

/-!
# Chunks reported to the client

A chunk is reported when its row goes in, and a copy of it is passed over as long as the row is
there.  The store remembers nothing of a row that was acknowledged or evicted, so a copy that comes
after that is reported again (`late_copy_reported_twice`).  In a run without such late copies every
chunk is reported once, and a consumed transfer takes up no room (`reported_once`).
-/

namespace Aimless

variable {C : Config}

/-- A file packet with a header. -/
structure FilePacket where
  sender : PublicKey
  env : Envelope
  tid : Text
  index : UInt16
  total : UInt16

/-- What tells one chunk packet from another. -/
structure ChunkKey where
  peer : PublicKey
  seq : UInt64
  tid : Text
  index : UInt16
  deriving DecidableEq, Repr

def FilePacket.key (f : FilePacket) : ChunkKey := ⟨f.sender, f.env.seq, f.tid, f.index⟩

def Op.filePacket : Op → Option FilePacket
  | .packet _ sender data =>
    match decodeEnvelope data with
    | .error _ => none
    | .ok env =>
      if env.type = typeFile then
        (parseFileHeader env.payload).map fun h => ⟨sender, env, h.1, h.2.1, h.2.2⟩
      else none
  | _ => none

namespace Daemon

/-- The chunk that a report is about. -/
def reportKey (r : PublicKey × UInt64 × Bytes) : Option ChunkKey :=
  (parseFileHeader r.2.2).map fun h => ⟨r.1, r.2.1, h.1, h.2.1⟩

/-- The chunks reported in a run, in order. -/
def reports (out : List Output) : List (Option ChunkKey) := (fileEvents out).map reportKey

/-- The row of a chunk is there. -/
def Stored (db : DB) (k : ChunkKey) : Prop :=
  ∃ r ∈ db.attach, r.peer = k.peer ∧ r.tid = k.tid ∧ r.idx = k.index ∧ r.seq = k.seq.toInt64

/-- A row with the peer, transfer and index of a chunk is there. -/
def Occupied (db : DB) (k : ChunkKey) : Prop :=
  ∃ r ∈ db.attach, r.peer = k.peer ∧ r.tid = k.tid ∧ r.idx = k.index

instance (db : DB) (k : ChunkKey) : Decidable (Stored db k) :=
  inferInstanceAs (Decidable (∃ r ∈ db.attach, _))

instance (db : DB) (k : ChunkKey) : Decidable (Occupied db k) :=
  inferInstanceAs (Decidable (∃ r ∈ db.attach, _))

/-- The daemon before operation `n` of a run. -/
def before (C : Config) (ops : List Op) (n : ℕ) : Daemon := (run C {} (ops.take n)).1

/-- A packet of a chunk that was stored before, and is not from a blocked peer, finds its place
still taken: the chunk was neither acknowledged nor evicted. -/
def NoLateCopy (C : Config) (ops : List Op) : Prop :=
  ∀ n < ops.length, ∀ f ∈ ops[n]?.bind Op.filePacket, (before C ops n).isBlocked f.sender = false →
    (∃ m ≤ n, Stored (before C ops m).db f.key) → Occupied (before C ops n).db f.key

/-- What an honest sender does with a transfer: its chunks all have one total, and a chunk that is
sent again keeps its seq. -/
structure Honest (ops : List Op) (p : PublicKey) (tid : Text) (total : UInt16) : Prop where
  total_eq : ∀ op ∈ ops, ∀ f ∈ op.filePacket, f.sender = p → f.tid = tid → f.total = total
  seq_eq : ∀ op ∈ ops, ∀ f ∈ op.filePacket, ∀ op' ∈ ops, ∀ g ∈ op'.filePacket,
    f.sender = p → f.tid = tid → g.sender = p → g.tid = tid → f.index = g.index →
      f.env.seq = g.env.seq

/-! ### One operation -/

theorem FileOf.filePacket {d : Daemon} {op : Op} {row : AttachRow} {seq : UInt64}
    (h : FileOf d op row seq) :
    ∃ f, op.filePacket = some f ∧ f.key = ⟨row.peer, seq, row.tid, row.idx⟩
      ∧ f.total = row.total ∧ f.env.payload = row.payload := by
  obtain ⟨now, data, env, rfl, henv, htype, hpay, rfl, -⟩ := h.packet
  have hhead : parseFileHeader env.payload = some (row.tid, row.idx, row.total) := by
    rw [hpay]
    exact h.headed
  refine ⟨⟨row.peer, env, row.tid, row.idx, row.total⟩, ?_, rfl, rfl, hpay⟩
  simp [Op.filePacket, henv, htype, hhead]

theorem FileOf.reportKey {d : Daemon} {op : Op} {row : AttachRow} {seq : UInt64}
    (h : FileOf d op row seq) :
    Daemon.reportKey (row.peer, seq, row.payload) = some ⟨row.peer, seq, row.tid, row.idx⟩ := by
  have hhead : parseFileHeader row.payload = some (row.tid, row.idx, row.total) := h.headed
  simp [Daemon.reportKey, hhead]

theorem run_append_out (op : Op) : ∀ (ops : List Op) (d : Daemon),
    (d.run C (ops ++ [op])).2 = (d.run C ops).2 ++ ((d.run C ops).1.step C op).2
  | [], d => by simp [run]
  | o :: ops, d => by
    show _ ++ ((d.step C o).1.run C (ops ++ [op])).2 = _
    rw [run_append_out op ops, ← List.append_assoc]
    rfl

theorem reports_append (op : Op) (ops : List Op) (d : Daemon) :
    reports (d.run C (ops ++ [op])).2
      = reports (d.run C ops).2 ++ reports ((d.run C ops).1.step C op).2 := by
  rw [run_append_out, reports, reports, reports, fileEvents, List.filterMap_append, List.map_append]
  rfl

/-! ### Whole runs -/

theorem before_append {ops : List Op} {n : ℕ} (hn : n ≤ ops.length) (more : List Op) :
    before C (ops ++ more) n = before C ops n := by
  unfold before
  rw [List.take_append_of_le_length hn]

theorem before_length (ops : List Op) : before C ops ops.length = (run C {} ops).1 := by
  rw [before, List.take_length]

theorem before_succ {ops : List Op} {n : ℕ} {op : Op} (h : ops[n]? = some op) :
    before C ops (n + 1) = ((before C ops n).step C op).1 := by
  unfold before
  rw [List.take_add_one, h, Option.toList_some, run_append]

theorem NoLateCopy.init {ops : List Op} {op : Op} (h : NoLateCopy C (ops ++ [op])) :
    NoLateCopy C ops := by
  intro n hn f hf hb hm
  have hget : (ops ++ [op])[n]? = ops[n]? := List.getElem?_append_left hn
  rw [← hget] at hf
  rw [← before_append hn.le [op]] at hb ⊢
  obtain ⟨m, hmn, hm⟩ := hm
  rw [← before_append (hmn.trans hn.le) [op]] at hm
  exact h n (by simp; omega) f hf hb ⟨m, hmn, hm⟩

/-- A chunk that was reported was stored. -/
theorem stored_of_reported (ops : List Op) : ∀ k ∈ reports (run C {} ops).2,
    ∃ key, k = some key ∧ ∃ m ≤ ops.length, Stored (before C ops m).db key := by
  induction ops using List.reverseRecOn with
  | nil => simp [reports, run, fileEvents]
  | append_singleton ops op ih =>
    intro k hk
    rw [reports_append, List.mem_append] at hk
    rcases hk with hk | hk
    · obtain ⟨key, rfl, m, hm, hs⟩ := ih k hk
      exact ⟨key, rfl, m, by simp; omega, by rwa [before_append hm]⟩
    · rcases (run C {} ops).1.step_chunks (C := C) op with
        ⟨-, hev⟩ | ⟨row, seq, rows, hfile, -, heq, -, hev⟩
      · simp [reports, hev] at hk
      · rw [reports, hev, List.map_singleton, List.mem_singleton, hfile.reportKey] at hk
        refine ⟨_, hk, (ops ++ [op]).length, le_rfl, row, ?_, rfl, rfl, rfl, hfile.seq_eq⟩
        rw [before_length, run_append, heq]
        simp

/-- At most one report of each chunk. -/
theorem reports_nodup {ops : List Op} (h : NoLateCopy C ops) : (reports (run C {} ops).2).Nodup := by
  induction ops using List.reverseRecOn with
  | nil => simp [reports, run, fileEvents]
  | append_singleton ops op ih =>
    rw [reports_append]
    rcases (run C {} ops).1.step_chunks (C := C) op with
      ⟨-, hev⟩ | ⟨row, seq, rows, hfile, -, -, hnew, hev⟩
    · simpa [reports, hev] using ih h.init
    rw [List.nodup_append]
    refine ⟨ih h.init, by simp [reports, hev], ?_⟩
    rintro k hk _ hk' rfl
    rw [reports, hev, List.map_singleton, List.mem_singleton, hfile.reportKey] at hk'
    subst hk'
    obtain ⟨key, hkey, m, hm, hs⟩ := stored_of_reported ops _ hk
    cases hkey
    -- The packet of `op` is a copy, so its place was taken, and the row could not go in.
    obtain ⟨f, hf, hfkey, -⟩ := hfile.filePacket
    have hn : ops.length < (ops ++ [op]).length := by simp
    have hd : before C (ops ++ [op]) ops.length = (run C {} ops).1 := by
      rw [before_append le_rfl, before_length]
    have hsender : f.sender = row.peer := congrArg ChunkKey.peer hfkey
    obtain ⟨r, hr, hp, ht, hi⟩ := h ops.length hn f (by simp [hf])
      (by rw [hd, hsender]; simpa using hfile.unblocked)
      ⟨m, hm, by rwa [hfkey, before_append hm]⟩
    rw [hd] at hr
    rw [hfkey] at hp ht hi
    exact hnew r hr ⟨hp, ht, hi⟩

/-- The row that a packet is stored as. -/
def StoredAs (f : FilePacket) (r : AttachRow) : Prop :=
  f.sender = r.peer ∧ f.tid = r.tid ∧ f.index = r.idx ∧ f.total = r.total
    ∧ r.seq = f.env.seq.toInt64 ∧ f.env.payload = r.payload

/-- A stored chunk came in a packet of the run. -/
theorem packet_of_stored (ops : List Op) : ∀ r ∈ (run C {} ops).1.db.attach,
    ∃ op ∈ ops, ∃ f ∈ op.filePacket, StoredAs f r := by
  induction ops using List.reverseRecOn with
  | nil => simp [run]
  | append_singleton ops op ih =>
    intro r hr
    have hold : r ∈ (run C {} ops).1.db.attach →
        ∃ op' ∈ ops ++ [op], ∃ f ∈ op'.filePacket, StoredAs f r := by
      intro hr
      obtain ⟨op', hop', hf⟩ := ih r hr
      exact ⟨op', List.mem_append_left _ hop', hf⟩
    rw [run_append] at hr
    rcases (run C {} ops).1.step_chunks (C := C) op with
      ⟨hsub, -⟩ | ⟨row, seq, rows, hfile, hsub, heq, -, -⟩
    · exact hold (hsub.subset hr)
    rw [heq] at hr
    rcases List.mem_append.1 hr with hr | hr
    · exact hold (hsub.subset hr)
    · rw [List.mem_singleton.1 hr]
      obtain ⟨f, hf, hkey, htotal, hpayload⟩ := hfile.filePacket
      rw [FilePacket.key, ChunkKey.mk.injEq] at hkey
      obtain ⟨hpeer, hseq, htid, hidx⟩ := hkey
      exact ⟨op, by simp, f, hf, hpeer, htid, hidx, htotal, by rw [hseq]; exact hfile.seq_eq,
        hpayload⟩

/-! ### A consumed transfer -/

theorem packet_of_before {ops : List Op} {n : ℕ} {r : AttachRow}
    (hr : r ∈ (before C ops n).db.attach) : ∃ op ∈ ops, ∃ f ∈ op.filePacket, StoredAs f r := by
  obtain ⟨op, hop, hf⟩ := packet_of_stored (ops.take n) r hr
  exact ⟨op, List.mem_of_mem_take hop, hf⟩

theorem chunks_before (ops : List Op) (n : ℕ) : Chunks (before C ops n).db :=
  Chunks.run (ops.take n) ⟨by simp, by simp⟩

theorem tid_ne_nil {r : AttachRow} (h : r.Headed) : r.tid ≠ [] := by
  unfold AttachRow.Headed parseFileHeader at h
  dsimp only at h
  split_ifs at h with hlen
  simp only [Option.some.injEq, Prod.mk.injEq] at h
  obtain ⟨htid, -, -⟩ := h
  intro hnil
  rw [hnil] at htid
  have hzero := congrArg List.length htid
  rw [Hex.length_encode, List.length_take, List.length_nil] at hzero
  unfold attachHeaderSize at hlen
  omega

/-- A listed transfer of an honest sender is stored chunk by chunk. -/
theorem Honest.stored_of_pending {ops : List Op} {p : PublicKey} {tid : Text} {total : UInt16}
    (h : Honest ops p tid total) {n : ℕ} {q : AttachPending}
    (hq : q ∈ (attachStore C p).pending (before C ops n).db) (hqt : q.tid = tid)
    {op : Op} (hop : op ∈ ops) {f : FilePacket} (hf : f ∈ op.filePacket) (hfs : f.sender = p)
    (hft : f.tid = tid) (hlt : f.index < f.total) : Stored (before C ops n).db f.key := by
  set as := attachStore C p
  set db := (before C ops n).db
  have hch : Chunks db := chunks_before ops n
  have htotal : ∀ r ∈ as.transferOf db tid, r.total = total := by
    intro r hr
    obtain ⟨hr, hp, ht⟩ := AttachmentStore.mem_transferOf.1 hr
    obtain ⟨op, hop, g, hg, hgs, hgt, -, htot, -⟩ := packet_of_before hr
    rw [← htot]
    exact h.total_eq op hop g hg (hgs.trans hp) (hgt.trans ht)
  have hne : ∃ r, r ∈ as.transferOf db tid := by
    subst hqt
    simp only [AttachmentStore.pending, List.mem_map, List.mem_insertionSort, List.mem_filter,
      AttachmentStore.transfersTx, List.mem_dedup] at hq
    obtain ⟨row, ⟨⟨tid, ⟨r, hr, rfl⟩, rfl⟩, -⟩, rfl⟩ := hq
    exact ⟨r, List.mem_filter.2 ⟨hr, by simp⟩⟩
  obtain ⟨r₀, hr₀⟩ := hne
  have hlargest : as.LargestTotal db tid total.toNat :=
    ⟨⟨r₀, hr₀, by rw [htotal r₀ hr₀]⟩, by rintro _ ⟨r, hr, rfl⟩; rw [htotal r hr]⟩
  have hrange := (AttachmentStore.idx_eq_range_iff hch hlargest).2
    ((AttachmentStore.mem_pending_iff hlargest q).1 ⟨hq, hqt⟩).1
  have hidx : f.index.toNat ∈ List.range total.toNat := by
    rw [List.mem_range, ← h.total_eq op hop f hf hfs hft]
    exact UInt16.lt_iff_toNat_lt.1 hlt
  rw [← hrange, List.mem_map] at hidx
  obtain ⟨r, hr, hri⟩ := hidx
  obtain ⟨hr, hp, ht⟩ := AttachmentStore.mem_transferOf.1 ((List.mem_insertionSort _).1 hr)
  have hri : r.idx = f.index := UInt16.toNat.inj hri
  obtain ⟨op', hop', g, hg, hgs, hgt, hgi, -, hseq, -⟩ := packet_of_before hr
  refine ⟨r, hr, hp.trans hfs.symm, ht.trans hft.symm, hri, ?_⟩
  have hgf : g.env.seq = f.env.seq := h.seq_eq op' hop' g hg op hop f hf (hgs.trans hp)
    (hgt.trans ht) hfs hft (hgi.trans hri)
  rw [hseq, hgf]
  rfl

/-- An `ackfile` empties a transfer. -/
theorem transferOf_ackfile {d : Daemon} {now : ℤ} {persisted : Bool} {sender tid : Text}
    {p : PublicKey} (hp : decodeFromKey sender = .ok p) (htid : tid ≠ []) :
    (attachStore C p).transferOf (d.step C (.api now persisted (.ackfile sender tid))).1.db tid
      = [] := by
  have hdb : (d.step C (.api now persisted (.ackfile sender tid))).1.db
      = (attachStore C p).ackTid d.db tid := by
    simp [step, dispatch, handleAckFile, hp, htid, ackAttachment, touchClient]
  rw [hdb]
  refine List.eq_nil_iff_forall_not_mem.2 fun r hr => ?_
  obtain ⟨hr, hpeer, ht⟩ := AttachmentStore.mem_transferOf.1 hr
  have := (List.mem_filter.1 hr).2
  simp [hpeer, ht] at this

/-- Where no copy is late, a transfer stays empty once it was consumed. -/
theorem Honest.empty_after {ops : List Op} (hlate : NoLateCopy C ops) {p : PublicKey} {tid : Text}
    {total : UInt16} (h : Honest ops p tid total) {n : ℕ} {now : ℤ} {persisted : Bool}
    {sender : Text} (hop : ops[n]? = some (.api now persisted (.ackfile sender tid)))
    (hp : decodeFromKey sender = .ok p) {q : AttachPending}
    (hq : q ∈ (attachStore C p).pending (before C ops n).db) (hqt : q.tid = tid) {m : ℕ}
    (hnm : n < m) (hm : m ≤ ops.length) :
    (attachStore C p).transferOf (before C ops m).db tid = [] := by
  induction m, hnm using Nat.le_induction with
  | base =>
    have htid : tid ≠ [] := by
      subst hqt
      simp only [AttachmentStore.pending, List.mem_map, List.mem_insertionSort, List.mem_filter,
        AttachmentStore.transfersTx, List.mem_dedup] at hq
      obtain ⟨row, ⟨⟨tid, ⟨r, hr, rfl⟩, rfl⟩, -⟩, rfl⟩ := hq
      exact tid_ne_nil ((chunks_before ops n).headed r (List.mem_filter.1 hr).1)
    rw [Nat.succ_eq_add_one, before_succ hop]
    exact transferOf_ackfile hp htid
  | succ m hnm ih =>
    have hlt : m < ops.length := hm
    obtain ⟨op, hget⟩ : ∃ op, ops[m]? = some op := ⟨_, List.getElem?_eq_getElem hlt⟩
    have ih := ih hlt.le
    rw [before_succ hget]
    refine List.eq_nil_iff_forall_not_mem.2 fun r hr => ?_
    obtain ⟨hr, hrp, hrt⟩ := AttachmentStore.mem_transferOf.1 hr
    have hold : r ∉ (before C ops m).db.attach := by
      intro hr
      have hmem : r ∈ (attachStore C p).transferOf (before C ops m).db tid :=
        AttachmentStore.mem_transferOf.2 ⟨hr, hrp, hrt⟩
      rw [ih] at hmem
      exact List.not_mem_nil hmem
    rcases (before C ops m).step_chunks (C := C) op with
      ⟨hsub, -⟩ | ⟨row, seq, rows, hfile, hsub, heq, -, -⟩
    · exact hold (hsub.subset hr)
    rw [heq] at hr
    rcases List.mem_append.1 hr with hr | hr
    · exact hold (hsub.subset hr)
    -- The chunk that came in was stored when the transfer was consumed.
    rw [List.mem_singleton.1 hr] at hrp hrt
    obtain ⟨f, hf, hkey, htot, -⟩ := hfile.filePacket
    rw [FilePacket.key, ChunkKey.mk.injEq] at hkey
    obtain ⟨hpeer, hseq, htid, hidx⟩ := hkey
    have hmem : op ∈ ops := List.mem_of_getElem? hget
    have hstored := h.stored_of_pending hq hqt hmem hf (hpeer.trans hrp) (htid.trans hrt)
      (by rw [hidx, htot]; exact hfile.headed.idx_lt)
    obtain ⟨r', hr', hp', ht', -⟩ := hlate m hlt f (by rw [hget]; exact hf)
      (by rw [hpeer]; simpa using hfile.unblocked) ⟨n, (Nat.lt_of_succ_le hnm).le, hstored⟩
    have htaken : r' ∈ (attachStore C p).transferOf (before C ops m).db tid :=
      AttachmentStore.mem_transferOf.2 ⟨hr', hp'.trans (hpeer.trans hrp), ht'.trans (htid.trans hrt)⟩
    rw [ih] at htaken
    exact List.not_mem_nil htaken

/-- In every run without late copies each chunk packet is reported at most once, and from the
`ackfile` of a complete transfer on no chunk of it is stored. -/
theorem reported_once (C : Config) (ops : List Op) (h : NoLateCopy C ops) :
    (reports (run C {} ops).2).Nodup
      ∧ ∀ (p : PublicKey) (tid : Text) (total : UInt16), Honest ops p tid total →
        ∀ (n : ℕ) (now : ℤ) (persisted : Bool) (sender : Text),
          ops[n]? = some (.api now persisted (.ackfile sender tid)) → decodeFromKey sender = .ok p →
          (∃ q ∈ (attachStore C p).pending (before C ops n).db, q.tid = tid) →
          ∀ m, n < m → m ≤ ops.length →
            (attachStore C p).transferOf (before C ops m).db tid = [] := by
  refine ⟨reports_nodup h, ?_⟩
  intro p tid total hhonest n now persisted sender hop hp hq m hnm hm
  obtain ⟨q, hq, hqt⟩ := hq
  exact hhonest.empty_after h hop hp hq hqt hnm hm

/-- A transfer of one chunk, which a peer sends with seq 1. -/
def exampleChunk : Bytes :=
  [1, 5, 1, 0, 0, 0, 0, 0, 0, 0, 9, 0, 0, 0, 0, 0, 0, 0, 21, 0] ++ List.replicate 16 7
    ++ [0, 0, 1, 0, 42]

def exampleTid : Text := Hex.encode (List.replicate 16 7)

def examplePeer : PublicKey := List.replicate 32 3

def exampleAck : Op := .api 0 true (.ackfile (Hex.encode examplePeer) exampleTid)

theorem exampleChunk_honest {ops : List Op}
    (h : ∀ op ∈ ops, ∀ f ∈ op.filePacket, f.total = 1 ∧ f.env.seq = 1) :
    Honest ops examplePeer exampleTid 1 :=
  ⟨fun op hop f hf _ _ => (h op hop f hf).1,
    fun op hop f hf op' hop' g hg _ _ _ _ _ => (h op hop f hf).2.trans (h op' hop' g hg).2.symm⟩

/-- A copy while the chunk is stored, and then the acknowledgement. -/
theorem reported_once_copy :
    let C : Config := ⟨10, 100, 0, 0, 1000⟩
    let ops : List Op := [.packet 0 examplePeer exampleChunk, .packet 0 examplePeer exampleChunk,
      exampleAck]
    NoLateCopy C ops ∧ (reports (run C {} ops).2).Nodup
      ∧ (attachStore C examplePeer).transferOf (before C ops 3).db exampleTid = [] := by
  intro C ops
  have hlate : NoLateCopy C ops := by
    unfold NoLateCopy
    decide +kernel
  have hhonest : Honest ops examplePeer exampleTid 1 := exampleChunk_honest (by decide +kernel)
  obtain ⟨hnodup, hempty⟩ := reported_once C ops hlate
  exact ⟨hlate, hnodup, hempty _ _ _ hhonest 2 0 true _ rfl (by decide +kernel) (by decide +kernel) 3
    (by decide) le_rfl⟩

/-- A copy after the acknowledgement is reported again, and stored. -/
theorem late_copy_reported_twice :
    let C : Config := ⟨10, 100, 0, 0, 1000⟩
    let ops : List Op := [.packet 0 examplePeer exampleChunk, exampleAck,
      .packet 0 examplePeer exampleChunk]
    Honest ops examplePeer exampleTid 1
      ∧ (∃ q ∈ (attachStore C examplePeer).pending (before C ops 1).db, q.tid = exampleTid)
      ∧ ¬ (reports (run C {} ops).2).Nodup
      ∧ (attachStore C examplePeer).transferOf (run C {} ops).1.db exampleTid ≠ []
      ∧ 0 < (attachStore C examplePeer).bytes (run C {} ops).1.db := by
  intro C ops
  exact ⟨exampleChunk_honest (by decide +kernel), by decide +kernel, by decide +kernel,
    by decide +kernel, by decide +kernel⟩

end Daemon

end Aimless
