import Aimless.Proofs.Inbox

/-!
# The order of the history

A seq is an unsigned word on the wire and in the API, and a signed one in the tables, where it is
compared and sorted.  The two orders agree on words that are on one side of `2 ^ 63`, and on no
other two.  So what `After`, `Oldest`, `Latest` and the trimming give is right for the unsigned order
exactly where the seqs they compare are on one side.
-/

namespace Aimless

open Window Words

/-- Both below `2 ^ 63` or both not. -/
def SameSide (a b : UInt64) : Prop := a < signBit ↔ b < signBit

namespace SameSide

variable {a b c : UInt64}

theorem symm (h : SameSide a b) : SameSide b a := Iff.symm h

theorem trans (h : SameSide a b) (h' : SameSide b c) : SameSide a c := Iff.trans h h'

theorem lt_iff (h : SameSide a b) : a.toInt64 < b.toInt64 ↔ a < b := by
  rw [toInt64_lt_iff]
  constructor
  · rintro (⟨-, hlt⟩ | ⟨ha, hb⟩)
    · exact hlt
    · exact absurd (h.2 hb) ha
  · exact fun hlt => .inl ⟨h, hlt⟩

/-- The orders agree on no two words of different sides. -/
theorem of_lt (hs : a.toInt64 < b.toInt64) (hu : a < b) : SameSide a b := by
  rcases (toInt64_lt_iff a b).1 hs with ⟨h, -⟩ | ⟨ha, hb⟩
  · exact h
  · exact absurd (hu.trans hb) ha

theorem of_le (hs : a.toInt64 ≤ b.toInt64) (hu : a ≤ b) : SameSide a b := by
  rcases hu.lt_or_eq with hlt | rfl
  · refine of_lt (lt_of_le_of_ne hs fun h => ?_) hlt
    rw [toInt64_inj] at h
    exact hlt.ne h
  · exact Iff.rfl

theorem le_iff (h : SameSide a b) : a.toInt64 ≤ b.toInt64 ↔ a ≤ b := by
  rw [← not_lt, ← not_lt, h.symm.lt_iff]

end SameSide

namespace InboxStore

variable (box : InboxStore)

/-- The seqs of the retained entries. -/
def seqs (db : DB) : List UInt64 := (db.inboxSeqs box.peer).map (·.toUInt64)

/-- The entry that is returned for a row. -/
def entryOf (r : InboxRow) : JournalEntry :=
  { seq := r.seq.toUInt64, ts := r.ts, payload := Base64.encode r.payload, type := 0, sentAt := 0 }

/-- The retained entries with seq above `a`, ascending, in the unsigned order. -/
def unsignedAfter (db : DB) (a : UInt64) : List JournalEntry :=
  ((db.inbox.filter fun r => r.peer = box.peer ∧ a < r.seq.toUInt64).insertionSort
    fun r s => r.seq.toUInt64 ≤ s.seq.toUInt64).map entryOf

/-- The least of the words, `0` if there are none. -/
def IsOldest (l : List UInt64) (m : UInt64) : Prop :=
  (∀ s ∈ l, m ≤ s) ∧ (m ∈ l ∨ l = [] ∧ m = 0)

/-- The largest of the words, `0` if there are none. -/
def IsLatest (l : List UInt64) (m : UInt64) : Prop :=
  (∀ s ∈ l, s ≤ m) ∧ (m ∈ l ∨ l = [] ∧ m = 0)

/-- Trimming keeps the `capacity` largest seqs in the unsigned order. -/
def TrimsSmallest (db : DB) : Prop :=
  (box.seqs (box.trimTx db)).toFinset = largest box.capacity (box.seqs db).toFinset

/-- All retained seqs are on one side of `2 ^ 63`. -/
def OneSided (db : DB) : Prop := ∀ s ∈ box.seqs db, ∀ t ∈ box.seqs db, SameSide s t

variable {box} {db : DB}

theorem mem_seqs {s : UInt64} : s ∈ box.seqs db ↔ s.toInt64 ∈ db.inboxSeqs box.peer := by
  unfold seqs
  rw [List.mem_map]
  constructor
  · rintro ⟨x, hx, rfl⟩
    rwa [Int64.toInt64_toUInt64]
  · exact fun h => ⟨_, h, UInt64.toUInt64_toInt64 s⟩

theorem toUInt64_mem_seqs {s : Int64} : s.toUInt64 ∈ box.seqs db ↔ s ∈ db.inboxSeqs box.peer := by
  rw [mem_seqs, Int64.toInt64_toUInt64]

theorem row_mem_seqs {r : InboxRow} (hr : r ∈ db.inbox) (hp : r.peer = box.peer) :
    r.seq.toUInt64 ∈ box.seqs db :=
  toUInt64_mem_seqs.2 (DB.mem_inboxSeqs.2 ⟨r, hr, hp, rfl⟩)

/-! ### `After` -/

theorem after_eq_map (a : UInt64) : box.after db a
    = ((db.inbox.filter fun r => r.peer = box.peer ∧ r.seq > a.toInt64).insertionSort
      fun r s => r.seq ≤ s.seq).map entryOf := rfl

theorem seq_lt_iff {a : UInt64} {r : InboxRow} (h : SameSide a r.seq.toUInt64) :
    a.toInt64 < r.seq ↔ a < r.seq.toUInt64 := by
  have := h.lt_iff
  rwa [Int64.toInt64_toUInt64] at this

theorem seq_le_iff {r s : InboxRow} (h : SameSide r.seq.toUInt64 s.seq.toUInt64) :
    r.seq ≤ s.seq ↔ r.seq.toUInt64 ≤ s.seq.toUInt64 := by
  have := h.le_iff
  rwa [Int64.toInt64_toUInt64, Int64.toInt64_toUInt64] at this

theorem after_eq_of_sameSide {a : UInt64} (h : ∀ s ∈ box.seqs db, SameSide s a) :
    box.after db a = box.unsignedAfter db a := by
  have hfilter : (db.inbox.filter fun r => r.peer = box.peer ∧ r.seq > a.toInt64)
      = db.inbox.filter fun r => r.peer = box.peer ∧ a < r.seq.toUInt64 := by
    refine List.filter_congr fun r hr => ?_
    by_cases hp : r.peer = box.peer
    · simp only [hp, true_and, gt_iff_lt, seq_lt_iff (h _ (row_mem_seqs hr hp)).symm]
    · simp [hp]
  rw [after_eq_map, unsignedAfter, hfilter]
  congr 1
  have hsort := List.map_insertionSort (r := fun r s : InboxRow => r.seq ≤ s.seq)
    (s := fun r s : InboxRow => r.seq.toUInt64 ≤ s.seq.toUInt64) id
    (db.inbox.filter fun r => r.peer = box.peer ∧ a < r.seq.toUInt64) ?_
  · simpa using hsort
  · intro r hr s hs
    rw [List.mem_filter, decide_eq_true_eq] at hr hs
    exact seq_le_iff ((h _ (row_mem_seqs hr.1 hr.2.1)).trans (h _ (row_mem_seqs hs.1 hs.2.1)).symm)

theorem mem_after {a : UInt64} {e : JournalEntry} : e ∈ box.after db a
    ↔ ∃ r ∈ db.inbox, r.peer = box.peer ∧ a.toInt64 < r.seq ∧ entryOf r = e := by
  simp only [after_eq_map, List.mem_map, List.mem_insertionSort, List.mem_filter,
    decide_eq_true_eq, gt_iff_lt, and_assoc]

theorem mem_unsignedAfter {a : UInt64} {e : JournalEntry} : e ∈ box.unsignedAfter db a
    ↔ ∃ r ∈ db.inbox, r.peer = box.peer ∧ a < r.seq.toUInt64 ∧ entryOf r = e := by
  simp only [unsignedAfter, List.mem_map, List.mem_insertionSort, List.mem_filter,
    decide_eq_true_eq, and_assoc]

theorem after_right_iff (a : UInt64) :
    box.after db a = box.unsignedAfter db a ↔ ∀ s ∈ box.seqs db, SameSide s a := by
  refine ⟨fun heq s hs => ?_, after_eq_of_sameSide⟩
  obtain ⟨r, hr, hp, hrs⟩ := DB.mem_inboxSeqs.1 (mem_seqs.1 hs)
  have hseq : r.seq.toUInt64 = s := by rw [hrs, UInt64.toUInt64_toInt64]
  -- an entry that one of the two lists has is in the other, where its seq is compared too
  have hboth : a.toInt64 < r.seq ↔ a < s := by
    constructor
    · intro hlt
      have hmem := mem_after.2 ⟨r, hr, hp, hlt, rfl⟩
      rw [heq] at hmem
      obtain ⟨r', -, -, hlt', he⟩ := mem_unsignedAfter.1 hmem
      rw [← hseq, ← show r'.seq.toUInt64 = r.seq.toUInt64 from congrArg JournalEntry.seq he]
      exact hlt'
    · intro hlt
      have hmem := mem_unsignedAfter.2 ⟨r, hr, hp, hseq ▸ hlt, rfl⟩
      rw [← heq] at hmem
      obtain ⟨r', -, -, hlt', he⟩ := mem_after.1 hmem
      have hsame : r'.seq = r.seq := by
        have := congrArg (fun e => e.seq.toInt64) he
        simpa [entryOf] using this
      rwa [hsame] at hlt'
  rw [hrs] at hboth
  by_cases hlt : a < s
  · exact (SameSide.of_lt (hboth.2 hlt) hlt).symm
  · exact SameSide.of_le (not_lt.1 fun h => hlt (hboth.1 h)) (not_lt.1 hlt)

/-! ### `Oldest` and `Latest` -/

variable (box db) in
theorem oldest_spec : (box.seqs db = [] ∧ box.oldest db = 0)
    ∨ box.oldest db ∈ box.seqs db ∧ ∀ s ∈ box.seqs db, (box.oldest db).toInt64 ≤ s.toInt64 := by
  unfold oldest
  rcases hm : sqlMin (db.inboxSeqs box.peer) with _ | m
  · exact .inl ⟨by rw [seqs, List.argmin_eq_none.1 hm, List.map_nil], rfl⟩
  · obtain ⟨hmem, hmin⟩ := sqlMin_spec hm
    refine .inr ⟨toUInt64_mem_seqs.2 hmem, fun s hs => ?_⟩
    simpa using hmin _ (mem_seqs.1 hs)

variable (box db) in
theorem latest_spec : (box.seqs db = [] ∧ box.latest db = 0)
    ∨ box.latest db ∈ box.seqs db ∧ ∀ s ∈ box.seqs db, s.toInt64 ≤ (box.latest db).toInt64 := by
  unfold latest
  rcases hm : sqlMax (db.inboxSeqs box.peer) with _ | m
  · exact .inl ⟨by rw [seqs, List.argmax_eq_none.1 hm, List.map_nil], rfl⟩
  · refine .inr ⟨toUInt64_mem_seqs.2 (List.argmax_mem hm), fun s hs => ?_⟩
    simpa using List.le_of_mem_argmax (mem_seqs.1 hs) hm

theorem oneSided_of_forall {m : UInt64} (h : ∀ s ∈ box.seqs db, SameSide m s) : box.OneSided db :=
  fun s hs t ht => (h s hs).symm.trans (h t ht)

theorem oldest_right_iff : IsOldest (box.seqs db) (box.oldest db) ↔ box.OneSided db := by
  rcases oldest_spec box db with ⟨hnil, hzero⟩ | ⟨hmem, hmin⟩
  · simp [IsOldest, OneSided, hnil, hzero]
  · constructor
    · exact fun h => oneSided_of_forall fun s hs => SameSide.of_le (hmin s hs) (h.1 s hs)
    · exact fun h => ⟨fun s hs => ((h _ hmem s hs).le_iff).1 (hmin s hs), .inl hmem⟩

theorem latest_right_iff : IsLatest (box.seqs db) (box.latest db) ↔ box.OneSided db := by
  rcases latest_spec box db with ⟨hnil, hzero⟩ | ⟨hmem, hmax⟩
  · simp [IsLatest, OneSided, hnil, hzero]
  · constructor
    · intro h
      exact oneSided_of_forall fun s hs => (SameSide.of_le (hmax s hs) (h.1 s hs)).symm
    · exact fun h => ⟨fun s hs => ((h s hs _ hmem).le_iff).1 (hmax s hs), .inl hmem⟩

/-! ### Trimming -/

theorem toFinset_seqs : (box.seqs db).toFinset
    = (db.inboxSeqs box.peer).toFinset.image (·.toUInt64) := by
  ext s
  simp [seqs]

/-- Trimming keeps the `capacity` largest seqs in the signed order. -/
theorem trimTx_seqs (hn : (db.inboxSeqs box.peer).Nodup) : (box.seqs (box.trimTx db)).toFinset
    = (largest box.capacity (db.inboxSeqs box.peer).toFinset).image (·.toUInt64) := by
  have hin := box.evictLoop_inbox _ db hn rfl
  have htrim : (box.trimTx db).inbox = (box.evictLoop (db.inboxSeqs box.peer).length db).inbox := rfl
  rw [toFinset_seqs]
  congr 1
  ext s
  rw [List.mem_toFinset, DB.mem_inboxSeqs, htrim, hin]
  simp only [List.mem_filter, decide_eq_true_eq, not_and, not_not, and_assoc]
  constructor
  · rintro ⟨r, -, hkeep, hp, rfl⟩
    exact hkeep hp
  · intro hs
    obtain ⟨r, hr, hp, rfl⟩ := DB.mem_inboxSeqs.1 (List.mem_toFinset.1 (largest_subset _ _ hs))
    exact ⟨r, hr, fun _ => hs, hp, rfl⟩

theorem trims_right_iff (hc : 1 ≤ box.capacity) (hn : (db.inboxSeqs box.peer).Nodup) :
    box.TrimsSmallest db ↔ box.OneSided db ∨ (box.seqs db).length ≤ box.capacity := by
  set S := (db.inboxSeqs box.peer).toFinset with hS
  have hlen : (box.seqs db).length = S.card := by
    rw [hS, List.toFinset_card_of_nodup hn, seqs, List.length_map]
  have hmem : ∀ x : Int64, x ∈ S ↔ x.toUInt64 ∈ box.seqs db := fun x => by
    rw [hS, List.mem_toFinset, toUInt64_mem_seqs]
  unfold TrimsSmallest
  rw [trimTx_seqs hn, toFinset_seqs, hlen]
  constructor
  · intro heq
    by_contra hnot
    push Not at hnot
    obtain ⟨hmixed, hfull⟩ := hnot
    refine hmixed ?_
    -- something is kept and something goes, and both orders put the one above the other
    have hcard := card_largest box.capacity S
    obtain ⟨x, hx⟩ : (largest box.capacity S).Nonempty := Finset.card_pos.1 (by omega)
    have hcut : ¬ S ⊆ largest box.capacity S := fun hsub => by
      have := Finset.card_le_card hsub
      omega
    obtain ⟨y, hy, hyL⟩ := Finset.not_subset.1 hcut
    have hinj : ∀ z : Int64, z.toUInt64 ∈ (largest box.capacity S).image (·.toUInt64) →
        z ∈ largest box.capacity S := by
      intro z hz
      obtain ⟨w, hw, hwz⟩ := Finset.mem_image.1 hz
      have : w = z := by simpa using congrArg UInt64.toInt64 hwz
      rwa [← this]
    have hside : ∀ u ∈ largest box.capacity S, ∀ v ∈ S, v ∉ largest box.capacity S →
        SameSide v.toUInt64 u.toUInt64 := by
      intro u hu v hv hvL
      refine SameSide.of_lt (by simpa using lt_of_mem_largest hu hv hvL) ?_
      refine lt_of_mem_largest (k := box.capacity) (S := S.image (·.toUInt64)) ?_
        (Finset.mem_image_of_mem _ hv) fun h => hvL (hinj v (heq ▸ h))
      exact heq ▸ Finset.mem_image_of_mem _ hu
    refine oneSided_of_forall (m := y.toUInt64) fun s hs => ?_
    have hsS : s.toInt64 ∈ S := (hmem _).2 (by simpa using hs)
    by_cases hsL : s.toInt64 ∈ largest box.capacity S
    · simpa using hside _ hsL y hy hyL
    · have := (hside x hx y hy hyL).trans (hside x hx _ hsS hsL).symm
      simpa using this
  · rintro (hone | hfew)
    · refine (largest_image (fun x hx y hy hlt => ?_) _).symm
      exact ((hone _ ((hmem x).1 hx) _ ((hmem y).1 hy)).lt_iff).1 (by simpa using hlt)
    · rw [largest_eq_self hfew, largest_eq_self (Finset.card_image_le.trans hfew)]

end InboxStore

/-- For any content of a peer's inbox, where a seq stands for one row: `After(a)` is right for the
unsigned order exactly when every retained seq is on the side of `a`, `Oldest` and `Latest` when
they are on one side, and the trimming when they are on one side or there is nothing to trim. -/
theorem history_unsigned_iff (peer : PublicKey) (capacity : ℤ) (db : DB)
    (hn : (db.inboxSeqs peer).Nodup) (a : UInt64) :
    let box := newInboxStore peer capacity
    (box.after db a = box.unsignedAfter db a ↔ ∀ s ∈ box.seqs db, SameSide s a)
    ∧ (InboxStore.IsOldest (box.seqs db) (box.oldest db) ↔ box.OneSided db)
    ∧ (InboxStore.IsLatest (box.seqs db) (box.latest db) ↔ box.OneSided db)
    ∧ (box.TrimsSmallest db ↔ box.OneSided db ∨ (box.seqs db).length ≤ box.capacity) :=
  ⟨InboxStore.after_right_iff a, InboxStore.oldest_right_iff, InboxStore.latest_right_iff,
    InboxStore.trims_right_iff (one_le_capacity peer capacity) hn⟩

/-- Two messages of a peer with small seqs. -/
def lowInbox : DB := { inbox := [⟨[1], 4, 40, [7]⟩, ⟨[1], 2, 20, [8]⟩] }

theorem history_unsigned_low : (lowInbox.inboxSeqs [1]).Nodup
    ∧ (newInboxStore [1] 5).after lowInbox 3 = (newInboxStore [1] 5).unsignedAfter lowInbox 3 := by
  have hn : (lowInbox.inboxSeqs [1]).Nodup := by decide
  refine ⟨hn, (history_unsigned_iff [1] 5 lowInbox hn 3).1.2 ?_⟩
  have hseqs : (newInboxStore [1] 5).seqs lowInbox = [4, 2] := by decide
  simp [hseqs, SameSide, signBit]

/-- A message with seq `2 ^ 63` is retained, and `After(0)` leaves it out. -/
theorem high_seq_left_out :
    let box := newInboxStore [1] 5
    let db := (box.add {} 0x8000000000000000 40 [7]).2
    box.seqs db = [0x8000000000000000] ∧ box.after db 0 = []
      ∧ box.after db 0 ≠ box.unsignedAfter db 0 := by
  decide

end Aimless
