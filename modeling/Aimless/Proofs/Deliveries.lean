import Aimless.Deliveries

/-!
# Acknowledgements and the messages they belong to

An acknowledgement marks the row of its key.  If the message is recorded only later there is no row
to mark, and the row that then comes in stays unmarked (`early_ack_lost`).  Where every message is
recorded before its acknowledgements come in, none of them is lost (`acks_counted`): from the record
on, the rows of the message are its keys, and those acknowledged since are marked (`Awaits`), and
what is outstanding of a file are keys not acknowledged since (`FileAwaits`).
-/

namespace Aimless

open Python (Str Exc Json Dict)

/-- The seqs and the delivery keys of the message a move records. -/
def TrackerMove.message : TrackerMove → Option (List DeliveryKey × List DeliveryKey)
  | .text _ seqs _ _ => some (seqs, Tracker.trackedKeys seqs none)
  | .file _ seqs _ _ _ expected => some (seqs, Tracker.trackedKeys seqs (some expected))
  | .acked _ => none

def TrackerMove.isFile : TrackerMove → Bool
  | .file .. => true
  | _ => false

/-- The line below a file says that it is delivered when nothing is outstanding of it. -/
theorem FileRec.text_eq_delivered_iff (file : FileRec) :
    file.text = .delivered file.filename ↔ file.keys = ∅ ∧ file.membersTotal ≠ 0 := by
  unfold FileRec.text
  dsimp only
  split_ifs with htotal hleft hone
  · simp [htotal]
  · simpa [htotal] using hleft
  · simp only [false_iff]
    rintro ⟨hkeys, -⟩
    simp [hkeys] at hleft
  · simp only [false_iff]
    rintro ⟨hkeys, -⟩
    simp [hkeys] at hleft

namespace Tracker

variable {L : Libs}

/-- `add_sent` returns. -/
def Records (L : Libs) (t : Tracker) : TrackerMove → Prop
  | .text conv seqs ts text => ∃ b, (t.addSent L conv seqs ts text none none).1 = .ok b
  | .file conv seqs ts filename attachment expected =>
    ∃ b, (t.addSent L conv seqs ts filename (some attachment) (some expected)).1 = .ok b
  | .acked _ => False

/-- The key of an `acked` event. -/
def ackedKeys : TrackerMove → List DeliveryKey
  | .acked k => [k]
  | _ => []

/-- The window before move `n`. -/
def before (L : Libs) (moves : List TrackerMove) (n : ℕ) : Tracker := run L (moves.take n)

/-- No acknowledgement is lost: a message that was recorded, and for each of whose keys an `acked`
event came in, is delivered, and nothing is outstanding of it if it is a file. -/
def AcksCounted (L : Libs) (moves : List TrackerMove) : Prop :=
  ∀ n m seqs keys, moves[n]? = some m → m.message = some (seqs, keys) →
    Records L (before L moves n) m → (∀ k ∈ keys, .acked k ∈ moves) →
    isDelivered (run L moves) (outId seqs) = some true
      ∧ (m.isFile → ∃ file, (run L moves).files[(before L moves n).files.length]? = some file
        ∧ file.keys = ∅)

/-- Every message is followed by some keys, none of them with seq zero, and is recorded before an
acknowledgement of one of them comes in; no two messages share a key or an id. -/
structure Timely (moves : List TrackerMove) : Prop where
  keys : ∀ m ∈ moves, ∀ p ∈ m.message, p.2 ≠ [] ∧ ∀ k ∈ p.2, k.2 ≠ 0
  recorded : ∀ n < moves.length, ∀ m ∈ moves[n]?, ∀ p ∈ m.message, ∀ k ∈ p.2,
    k ∉ (moves.take n).flatMap ackedKeys
  apart : moves.Pairwise fun m m' => ∀ p ∈ m.message, ∀ p' ∈ m'.message,
    outId p.1 ≠ outId p'.1 ∧ ∀ k ∈ p.2, k ∉ p'.2

/-! ### Recording -/

/-- What is inserted: unmarked rows of a message for some of its keys, and for all of them a row is
then there. -/
structure Inserted (mid : Str) (keys : List DeliveryKey) (ok : Prop)
    (old new : List DeliveryRow) : Prop where
  rows : ∀ r ∈ new, r.key ∈ keys ∧ r.msgId = mid ∧ r.acked = false
  taken : ok → ∀ k ∈ keys, k.2 < 2 ^ 63 ∧ ∃ r ∈ old ++ new, r.key = k
  nodup : (old.map (·.key)).Nodup → ((old ++ new).map (·.key)).Nodup

theorem insertDelivery_cases (t : Tracker) (mid : Str) (k : DeliveryKey) :
    t.insertDelivery mid k = (.error .overflowError, t)
      ∨ k.2 < 2 ^ 63 ∧ (∃ r ∈ t.deliveries, r.key = k) ∧ t.insertDelivery mid k = (.ok (), t)
      ∨ k.2 < 2 ^ 63 ∧ (∀ r ∈ t.deliveries, r.key ≠ k) ∧ t.insertDelivery mid k
        = (.ok (), { t with deliveries := t.deliveries ++ [⟨k, mid, false⟩] }) := by
  unfold insertDelivery
  split
  · rename_i hk
    split
    · rename_i h
      exact .inr (.inl ⟨hk, by simpa using h, rfl⟩)
    · rename_i h
      refine .inr (.inr ⟨hk, ?_, rfl⟩)
      intro r hr hrk
      exact h (List.any_eq_true.2 ⟨r, hr, by simpa using hrk⟩)
  · exact .inl rfl

theorem insertDeliveries_spec (mid : Str) : ∀ (keys : List DeliveryKey) (t : Tracker),
    ∃ new, (insertDeliveries mid t keys).2 = { t with deliveries := t.deliveries ++ new }
      ∧ Inserted mid keys ((insertDeliveries mid t keys).1 = .ok ()) t.deliveries new
  | [], t => ⟨[], by simp [insertDeliveries], by simp, by simp, by simp⟩
  | k :: ks, t => by
    unfold insertDeliveries
    rcases t.insertDelivery_cases mid k with h | ⟨hk, htaken, h⟩ | ⟨hk, hfree, h⟩
    · rw [h]
      exact ⟨[], by simp, by simp, by simp, by simp⟩
    · rw [h]
      obtain ⟨new, heq, hins⟩ := insertDeliveries_spec mid ks t
      refine ⟨new, heq, fun r hr => ?_, fun hok k' hk' => ?_, hins.nodup⟩
      · exact ⟨List.mem_cons_of_mem _ (hins.rows r hr).1, (hins.rows r hr).2⟩
      · rcases List.mem_cons.1 hk' with rfl | hk'
        · obtain ⟨r, hr, hrk⟩ := htaken
          exact ⟨hk, r, List.mem_append_left _ hr, hrk⟩
        · exact hins.taken hok k' hk'
    · rw [h]
      obtain ⟨new, heq, hins⟩ :=
        insertDeliveries_spec mid ks { t with deliveries := t.deliveries ++ [⟨k, mid, false⟩] }
      dsimp only at heq hins ⊢
      refine ⟨⟨k, mid, false⟩ :: new, by rw [heq]; simp, fun r hr => ?_, fun hok k' hk' => ?_,
        fun hn => ?_⟩
      · rcases List.mem_cons.1 hr with rfl | hr
        · exact ⟨List.mem_cons_self, rfl, rfl⟩
        · exact ⟨List.mem_cons_of_mem _ (hins.rows r hr).1, (hins.rows r hr).2⟩
      · rw [List.append_cons]
        rcases List.mem_cons.1 hk' with rfl | hk'
        · exact ⟨hk, ⟨k', mid, false⟩, by simp, rfl⟩
        · exact hins.taken hok k' hk'
      · rw [List.append_cons]
        refine hins.nodup ?_
        rw [List.map_append, List.map_singleton, List.nodup_append]
        refine ⟨hn, List.nodup_singleton _, ?_⟩
        rintro _ ha _ hb rfl
        obtain ⟨r, hr, hrk⟩ := List.mem_map.1 ha
        exact hfree r hr (hrk.trans (List.mem_singleton.1 hb))

theorem outgoingRow_id {conv : Str} {seqs : List DeliveryKey} {ts : ℤ} {text : Str}
    {attachment : Option Dict} {m : Message}
    (h : outgoingRow L conv seqs ts text attachment = .ok m) : m.id = outId seqs := by
  unfold outgoingRow at h
  simp only [bind, Except.bind] at h
  split at h
  · cases h
  split at h
  · cases h
  split at h
  · cases h
  cases h
  rfl

/-- `add_sent` touches the store and the rows of the message's keys. -/
theorem addSent_spec (t : Tracker) (conv : Str) (seqs : List DeliveryKey) (ts : ℤ) (text : Str)
    (attachment : Option Dict) (keys : Option (List DeliveryKey)) :
    ∃ store new, (t.addSent L conv seqs ts text attachment keys).2
        = { t with store, deliveries := t.deliveries ++ new }
      ∧ Inserted (outId seqs) (trackedKeys seqs keys)
        (∃ b, (t.addSent L conv seqs ts text attachment keys).1 = .ok b) t.deliveries new := by
  unfold addSent
  split
  · exact ⟨_, [], by simp; rfl, by simp, by simp, by simp⟩
  split
  · exact ⟨_, [], by simp; rfl, by simp, by simp, by simp⟩
  rename_i store _ _ m hm
  rw [outgoingRow_id hm]
  dsimp only
  obtain ⟨new, heq, hins⟩ := insertDeliveries_spec (outId seqs) (trackedKeys seqs keys)
    { t with store := if (!store.hasMessage (outId seqs)) = true then
      { store with messages := store.messages ++ [m] } else store }
  split <;> rename_i h <;> rw [h] at heq hins
  · exact ⟨_, new, heq, hins.rows, by simp, hins.nodup⟩
  · exact ⟨_, new, heq, hins.rows, fun _ => hins.taken rfl, hins.nodup⟩

/-! ### Acknowledging -/

/-- The rows after an acknowledgement: those of the key are marked. -/
def markRow (k : DeliveryKey) (r : DeliveryRow) : DeliveryRow :=
  if r.key = k then { r with acked := true } else r

@[simp] theorem markRow_key (k : DeliveryKey) (r : DeliveryRow) : (markRow k r).key = r.key := by
  unfold markRow
  split <;> rfl

@[simp] theorem markRow_msgId (k : DeliveryKey) (r : DeliveryRow) :
    (markRow k r).msgId = r.msgId := by
  unfold markRow
  split <;> rfl

theorem markRow_acked {k : DeliveryKey} {r : DeliveryRow} (h : r.key = k ∨ r.acked) :
    (markRow k r).acked := by
  unfold markRow
  split
  · rfl
  · rename_i hne
    exact h.resolve_left hne

/-- Rows that are marked already. -/
theorem map_markRow_eq {k : DeliveryKey} {rows : List DeliveryRow}
    (h : ∀ r ∈ rows, r.key = k → r.acked) : rows.map (markRow k) = rows := by
  refine (List.map_congr_left fun r hr => ?_).trans (List.map_id rows)
  unfold markRow
  split
  · rename_i hk
    have hacked : r.acked = true := h r hr hk
    rw [← hacked]
    rfl
  · rfl

theorem map_markRow_of_acked {rows : List DeliveryRow} (hn : (rows.map (·.key)).Nodup)
    {row : DeliveryRow} (hrow : row ∈ rows) (hacked : row.acked) :
    rows.map (markRow row.key) = rows := by
  refine map_markRow_eq fun r hr hk => ?_
  rw [List.inj_on_of_nodup_map hn hr hrow hk]
  exact hacked

/-- `mark_delivered` marks the row of the key; the keys of the rows differ. -/
theorem markDelivered_spec {t : Tracker} (hn : (t.deliveries.map (·.key)).Nodup) (k : DeliveryKey) :
    (∃ e, t.markDelivered k = (.error e, t)) ∧ (k.2 = 0 ∨ 2 ^ 63 ≤ k.2)
      ∨ ∃ mid, t.markDelivered k
        = (.ok mid, { t with deliveries := t.deliveries.map (markRow k) }) := by
  unfold markDelivered
  split
  · rename_i hk
    exact .inl ⟨⟨_, rfl⟩, .inl hk⟩
  split
  · rename_i hk
    exact .inl ⟨⟨_, rfl⟩, .inr hk⟩
  right
  split
  · rename_i hnone
    refine ⟨none, ?_⟩
    rw [map_markRow_eq]
    intro r hr hk
    have := List.find?_eq_none.1 hnone r hr
    simp [hk] at this
  · rename_i r hsome
    refine ⟨some r.msgId, ?_⟩
    obtain rfl : r.key = k := by simpa using List.find?_some hsome
    split
    · rename_i hacked
      rw [map_markRow_of_acked hn (List.mem_of_find?_eq_some hsome) hacked]
    · rfl

/-- The window after an acknowledgement: the rows are marked, and the key is no longer outstanding
of the file it was entered for. -/
structure Acked (k : DeliveryKey) (t t' : Tracker) : Prop where
  deliveries : t'.deliveries = t.deliveries.map (markRow k)
  pending : ∀ k' ≠ k, t'.pendingFiles.lookup k' = t.pendingFiles.lookup k'
  files : t.pendingFiles.lookup k = none ∧ t'.files = t.files
    ∨ ∃ i, t.pendingFiles.lookup k = some i
      ∧ t'.files = t.files.modify i fun file => { file with keys := file.keys.erase k }

theorem noteAcked_spec {t : Tracker} (hn : (t.deliveries.map (·.key)).Nodup) (k : DeliveryKey) :
    (t.noteAcked k).2 = t.see k ∧ (k.2 = 0 ∨ 2 ^ 63 ≤ k.2) ∨ Acked k t (t.noteAcked k).2 := by
  unfold noteAcked
  rcases markDelivered_spec (t := t.see k) hn k with ⟨⟨e, h⟩, hk⟩ | ⟨mid, h⟩
  · rw [h]
    exact .inl ⟨rfl, hk⟩
  right
  rw [h]
  dsimp only
  split
  · rename_i hnone
    exact ⟨rfl, fun _ _ => rfl, .inl ⟨hnone, rfl⟩⟩
  · rename_i i hi
    exact ⟨rfl, fun k' hk' => AList.lookup_erase_ne hk', .inr ⟨i, hi, rfl⟩⟩

/-! ### A file that is followed -/

theorem lookup_insertAll (v : ℕ) (k : DeliveryKey) : ∀ (ks : List DeliveryKey)
    (d : AList fun _ : DeliveryKey => ℕ), (ks.foldl (fun d k => d.insert k v) d).lookup k
      = if k ∈ ks then some v else d.lookup k
  | [], d => by simp
  | k' :: ks, d => by
    rw [List.foldl_cons, lookup_insertAll v k ks]
    by_cases hk : k ∈ ks
    · simp [hk]
    by_cases hkk : k = k'
    · subst hkk
      simp [hk]
    · simp [hk, hkk, AList.lookup_insert_ne hkk]

/-- The rows of a message are its keys, and those acknowledged since are marked. -/
structure Awaits (mid : Str) (keys since : List DeliveryKey) (t : Tracker) : Prop where
  nodup : (t.deliveries.map (·.key)).Nodup
  followed : ∃ r ∈ t.deliveries, r.msgId = mid
  rows : ∀ r ∈ t.deliveries, r.msgId = mid → r.key ∈ keys ∧ (r.key ∈ since → r.acked)

/-- What is outstanding of a file are keys not acknowledged since, each entered for the file. -/
def FileAwaits (i : ℕ) (keys since : List DeliveryKey) (t : Tracker) : Prop :=
  ∃ file, t.files[i]? = some file ∧ ∀ k ∈ file.keys, k ∈ keys ∧ k ∉ since
    ∧ t.pendingFiles.lookup k = some i

theorem Awaits.isDelivered {mid : Str} {keys since : List DeliveryKey} {t : Tracker}
    (h : Awaits mid keys since t) (hall : ∀ k ∈ keys, k ∈ since) :
    t.isDelivered mid = some true := by
  obtain ⟨r, hr, hmid⟩ := h.followed
  have hne : t.deliveries.filter (fun r => r.msgId = mid) ≠ [] :=
    List.ne_nil_of_mem (List.mem_filter.2 ⟨hr, by simpa using hmid⟩)
  unfold Tracker.isDelivered
  rw [if_neg hne, Option.some.injEq, List.all_eq_true]
  intro r' hr'
  obtain ⟨hr', hmid'⟩ := List.mem_filter.1 hr'
  obtain ⟨hkey, hacked⟩ := h.rows r' hr' (by simpa using hmid')
  exact hacked (hall _ hkey)

theorem FileAwaits.keys_eq_empty {i : ℕ} {keys since : List DeliveryKey} {t : Tracker}
    (h : FileAwaits i keys since t) (hall : ∀ k ∈ keys, k ∈ since) :
    ∃ file, t.files[i]? = some file ∧ file.keys = ∅ := by
  obtain ⟨file, hfile, hkeys⟩ := h
  refine ⟨file, hfile, Finset.eq_empty_of_forall_notMem fun k hk => ?_⟩
  obtain ⟨hmem, hnot, -⟩ := hkeys k hk
  exact hnot (hall k hmem)

/-! ### What a move does to a message recorded before -/

section
variable {mid : Str} {keys since : List DeliveryKey} {t : Tracker} {i : ℕ}

/-- Rows of another message came in. -/
theorem Awaits.append (h : Awaits mid keys since t) {mid' : Str} {keys' : List DeliveryKey}
    {ok : Prop} {new : List DeliveryRow} (hins : Inserted mid' keys' ok t.deliveries new)
    (hmid : mid' ≠ mid) {t' : Tracker} (ht : t'.deliveries = t.deliveries ++ new) :
    Awaits mid keys since t' := by
  refine ⟨by rw [ht]; exact hins.nodup h.nodup, ?_, ?_⟩
  · obtain ⟨r, hr, hrm⟩ := h.followed
    exact ⟨r, by rw [ht]; exact List.mem_append_left _ hr, hrm⟩
  · intro r hr hrm
    rw [ht] at hr
    rcases List.mem_append.1 hr with hr | hr
    · exact h.rows r hr hrm
    · exact absurd ((hins.rows r hr).2.1.symm.trans hrm) hmid

theorem Awaits.acked (h : Awaits mid keys since t) (hgood : ∀ k ∈ keys, k.2 ≠ 0 ∧ k.2 < 2 ^ 63)
    (k : DeliveryKey) : Awaits mid keys (k :: since) (t.noteAcked k).2 := by
  rcases noteAcked_spec h.nodup k with ⟨heq, hbad⟩ | hacked
  · -- An event that raises has no key of the message.
    rw [heq]
    refine ⟨h.nodup, h.followed, fun r hr hrm => ⟨(h.rows r hr hrm).1, fun hk => ?_⟩⟩
    rcases List.mem_cons.1 hk with hk | hk
    · have := hgood _ (h.rows r hr hrm).1
      rw [hk] at this
      omega
    · exact (h.rows r hr hrm).2 hk
  · refine ⟨?_, ?_, ?_⟩
    · rw [hacked.deliveries, List.map_map]
      exact (List.map_congr_left fun r _ => markRow_key k r).symm ▸ h.nodup
    · obtain ⟨r, hr, hrm⟩ := h.followed
      exact ⟨markRow k r, by rw [hacked.deliveries]; exact List.mem_map_of_mem hr,
        by simpa using hrm⟩
    · intro r' hr' hrm
      rw [hacked.deliveries, List.mem_map] at hr'
      obtain ⟨r, hr, rfl⟩ := hr'
      rw [markRow_msgId] at hrm
      obtain ⟨hkey, hold⟩ := h.rows r hr hrm
      refine ⟨by simpa using hkey, fun hk => markRow_acked ?_⟩
      rw [markRow_key] at hk
      exact (List.mem_cons.1 hk).imp_right hold

theorem FileAwaits.acked (h : FileAwaits i keys since t)
    (hn : (t.deliveries.map (·.key)).Nodup) (hgood : ∀ k ∈ keys, k.2 ≠ 0 ∧ k.2 < 2 ^ 63)
    (k : DeliveryKey) : FileAwaits i keys (k :: since) (t.noteAcked k).2 := by
  obtain ⟨file, hfile, hkeys⟩ := h
  -- What stays outstanding is not `k`.
  have hkeep : ∀ k' ∈ file.keys, k' ≠ k → k' ∈ keys ∧ k' ∉ k :: since := by
    intro k' hk' hne
    obtain ⟨hmem, hnot, -⟩ := hkeys k' hk'
    exact ⟨hmem, by simp [hne, hnot]⟩
  rcases noteAcked_spec hn k with ⟨heq, hbad⟩ | hacked
  · rw [heq]
    refine ⟨file, hfile, fun k' hk' => ?_⟩
    have hne : k' ≠ k := by
      rintro rfl
      have := hgood _ (hkeys k' hk').1
      omega
    exact ⟨(hkeep k' hk' hne).1, (hkeep k' hk' hne).2, (hkeys k' hk').2.2⟩
  · rcases hacked.files with ⟨hnone, hfiles⟩ | ⟨j, hj, hfiles⟩
    · refine ⟨file, by rw [hfiles]; exact hfile, fun k' hk' => ?_⟩
      have hne : k' ≠ k := by
        rintro rfl
        rw [(hkeys k' hk').2.2] at hnone
        cases hnone
      exact ⟨(hkeep k' hk' hne).1, (hkeep k' hk' hne).2,
        (hacked.pending k' hne).trans (hkeys k' hk').2.2⟩
    · by_cases hij : j = i
      · subst hij
        refine ⟨{ file with keys := file.keys.erase k }, by rw [hfiles]; simp [hfile],
          fun k' hk' => ?_⟩
        obtain ⟨hne, hk'⟩ := Finset.mem_erase.1 hk'
        exact ⟨(hkeep k' hk' hne).1, (hkeep k' hk' hne).2,
          (hacked.pending k' hne).trans (hkeys k' hk').2.2⟩
      · refine ⟨file, by rw [hfiles]; simp [hij, hfile], fun k' hk' => ?_⟩
        have hne : k' ≠ k := by
          rintro rfl
          rw [(hkeys k' hk').2.2] at hj
          exact hij (Option.some.inj hj).symm
        exact ⟨(hkeep k' hk' hne).1, (hkeep k' hk' hne).2,
          (hacked.pending k' hne).trans (hkeys k' hk').2.2⟩

/-- Another file is entered. -/
theorem FileAwaits.register (h : FileAwaits i keys since t) (filename : Str)
    {expected : List DeliveryKey} (happart : ∀ k ∈ keys, k ∉ expected.filter fun k => k.2 ≠ 0) :
    FileAwaits i keys since (t.registerFileDelivery filename expected) := by
  obtain ⟨file, hfile, hkeys⟩ := h
  have hlt : i < t.files.length := (List.getElem?_eq_some_iff.1 hfile).1
  refine ⟨file, ?_, fun k hk => ?_⟩
  · exact (List.getElem?_append_left hlt).trans hfile
  · obtain ⟨hmem, hnot, hlook⟩ := hkeys k hk
    refine ⟨hmem, hnot, ?_⟩
    unfold registerFileDelivery
    dsimp only
    rw [lookup_insertAll, if_neg fun hin => happart k hmem (List.mem_filter.1 hin).1]
    exact hlook

end

/-! ### Whole runs -/

/-- A row after a move was there before it, marked or not, or is of the message the move records. -/
theorem step_rows (t : Tracker) (hn : (t.deliveries.map (·.key)).Nodup) (m : TrackerMove) :
    ((t.step L m).deliveries.map (·.key)).Nodup
      ∧ ∀ r ∈ (t.step L m).deliveries, (∃ r' ∈ t.deliveries, r'.key = r.key ∧ r'.msgId = r.msgId)
        ∨ ∃ seqs keys, m.message = some (seqs, keys) ∧ r.key ∈ keys ∧ r.msgId = outId seqs := by
  have hsent : ∀ {seqs keys : List DeliveryKey} {ok : Prop} {new : List DeliveryRow} {t' : Tracker},
      Inserted (outId seqs) keys ok t.deliveries new → t'.deliveries = t.deliveries ++ new →
      m.message = some (seqs, keys) → (t'.deliveries.map (·.key)).Nodup
        ∧ ∀ r ∈ t'.deliveries, (∃ r' ∈ t.deliveries, r'.key = r.key ∧ r'.msgId = r.msgId)
          ∨ ∃ seqs keys, m.message = some (seqs, keys) ∧ r.key ∈ keys ∧ r.msgId = outId seqs := by
    intro seqs keys ok new t' hins heq hm
    rw [heq]
    refine ⟨hins.nodup hn, fun r hr => ?_⟩
    rcases List.mem_append.1 hr with hr | hr
    · exact .inl ⟨r, hr, rfl, rfl⟩
    · exact .inr ⟨seqs, keys, hm, (hins.rows r hr).1, (hins.rows r hr).2.1⟩
  cases m with
  | text conv seqs ts text =>
    obtain ⟨store, new, heq, hins⟩ := t.addSent_spec (L := L) conv seqs ts text none none
    exact hsent hins (by simp only [step, heq]) rfl
  | file conv seqs ts filename attachment expected =>
    obtain ⟨store, new, heq, hins⟩ :=
      t.addSent_spec (L := L) conv seqs ts filename (some attachment) (some expected)
    refine hsent hins ?_ rfl
    unfold step
    dsimp only
    split <;> rename_i h <;> rw [h] at heq <;> cases heq <;> rfl
  | acked k =>
    show ((t.noteAcked k).2.deliveries.map (·.key)).Nodup ∧ _
    rcases noteAcked_spec hn k with ⟨heq, -⟩ | hacked
    · simp only [step, heq]
      exact ⟨hn, fun r hr => .inl ⟨r, hr, rfl, rfl⟩⟩
    · have hdel : (t.step L (.acked k)).deliveries = t.deliveries.map (markRow k) :=
        hacked.deliveries
      rw [hdel, hacked.deliveries]
      refine ⟨?_, fun r hr => ?_⟩
      · rw [List.map_map]
        exact (List.map_congr_left fun r _ => markRow_key k r).symm ▸ hn
      · obtain ⟨r', hr', rfl⟩ := List.mem_map.1 hr
        exact .inl ⟨r', hr', by simp, by simp⟩

theorem run_rows (moves : List TrackerMove) :
    ((run L moves).deliveries.map (·.key)).Nodup
      ∧ ∀ r ∈ (run L moves).deliveries, ∃ m ∈ moves, ∃ seqs keys, m.message = some (seqs, keys)
        ∧ r.key ∈ keys ∧ r.msgId = outId seqs := by
  induction moves using List.reverseRecOn with
  | nil => simp [run]
  | append_singleton moves m ih =>
    have hrun : run L (moves ++ [m]) = (run L moves).step L m := by simp [run]
    obtain ⟨hn, hrows⟩ := step_rows (L := L) (run L moves) ih.1 m
    rw [hrun]
    refine ⟨hn, fun r hr => ?_⟩
    rcases hrows r hr with ⟨r', hr', hkey, hmid⟩ | hm
    · obtain ⟨m', hm', seqs, keys, hmsg, hk, hid⟩ := ih.2 r' hr'
      exact ⟨m', List.mem_append_left _ hm', seqs, keys, hmsg, hkey ▸ hk, hmid ▸ hid⟩
    · exact ⟨m, by simp, hm⟩

section
variable {mid : Str} {keys since : List DeliveryKey} {t : Tracker} {i : ℕ} {m : TrackerMove}

theorem Awaits.step (h : Awaits mid keys since t) (hgood : ∀ k ∈ keys, k.2 ≠ 0 ∧ k.2 < 2 ^ 63)
    (hm : ∀ seqs' keys', m.message = some (seqs', keys') → outId seqs' ≠ mid) :
    Awaits mid keys (ackedKeys m ++ since) (t.step L m) := by
  cases m with
  | text conv seqs ts text =>
    obtain ⟨store, new, heq, hins⟩ := t.addSent_spec (L := L) conv seqs ts text none none
    exact h.append hins (hm _ _ rfl) (by simp only [Tracker.step, heq])
  | file conv seqs ts filename attachment expected =>
    obtain ⟨store, new, heq, hins⟩ :=
      t.addSent_spec (L := L) conv seqs ts filename (some attachment) (some expected)
    refine h.append hins (hm _ _ rfl) ?_
    unfold Tracker.step
    dsimp only
    split <;> rename_i hsent <;> rw [hsent] at heq <;> cases heq <;> rfl
  | acked k => exact h.acked hgood k

theorem FileAwaits.step (h : FileAwaits i keys since t) (hn : (t.deliveries.map (·.key)).Nodup)
    (hgood : ∀ k ∈ keys, k.2 ≠ 0 ∧ k.2 < 2 ^ 63)
    (hm : ∀ seqs' keys', m.message = some (seqs', keys') → ∀ k ∈ keys, k ∉ keys') :
    FileAwaits i keys (ackedKeys m ++ since) (t.step L m) := by
  cases m with
  | text conv seqs ts text =>
    obtain ⟨store, new, heq, -⟩ := t.addSent_spec (L := L) conv seqs ts text none none
    simp only [Tracker.step, heq]
    exact h
  | file conv seqs ts filename attachment expected =>
    obtain ⟨store, new, heq, -⟩ :=
      t.addSent_spec (L := L) conv seqs ts filename (some attachment) (some expected)
    unfold Tracker.step
    dsimp only
    split <;> rename_i hsent <;> rw [hsent] at heq <;> cases heq
    · exact h
    · exact FileAwaits.register (show FileAwaits i keys since _ from h) filename (hm _ _ rfl)
  | acked k => exact h.acked hn hgood k

/-- The moves after the record. -/
theorem Awaits.foldl (hgood : ∀ k ∈ keys, k.2 ≠ 0 ∧ k.2 < 2 ^ 63) {file : Bool} :
    ∀ (moves : List TrackerMove) {since : List DeliveryKey} {t : Tracker}, Awaits mid keys since t →
      (file → FileAwaits i keys since t) →
      (∀ m ∈ moves, ∀ seqs' keys', m.message = some (seqs', keys') →
        outId seqs' ≠ mid ∧ ∀ k ∈ keys, k ∉ keys') →
      (∀ k ∈ keys, .acked k ∈ moves ∨ k ∈ since) →
      (moves.foldl (Tracker.step L) t).isDelivered mid = some true
        ∧ (file → ∃ sent, (moves.foldl (Tracker.step L) t).files[i]? = some sent ∧ sent.keys = ∅)
  | [], since, t, h, hf, _, hall => by
    have hall : ∀ k ∈ keys, k ∈ since := by simpa using hall
    exact ⟨h.isDelivered hall, fun hfile => (hf hfile).keys_eq_empty hall⟩
  | m :: moves, since, t, h, hf, happart, hall => by
    have hm := happart m List.mem_cons_self
    refine Awaits.foldl hgood moves (h.step hgood fun s k hs => (hm s k hs).1)
      (fun hfile => (hf hfile).step h.nodup hgood fun s k hs => (hm s k hs).2)
      (fun m' hm' => happart m' (List.mem_cons_of_mem _ hm')) fun k hk => ?_
    rcases hall k hk with hin | hin
    · rcases List.mem_cons.1 hin with rfl | hin
      · exact .inr (by simp [ackedKeys])
      · exact .inl hin
    · exact .inr (List.mem_append_right _ hin)

end

/-- What a record leaves, where no row has its id or one of its keys. -/
theorem Records.awaits {t : Tracker} {m : TrackerMove} {seqs keys : List DeliveryKey}
    (hrec : Records L t m) (hm : m.message = some (seqs, keys)) (hne : keys ≠ [])
    (hn : (t.deliveries.map (·.key)).Nodup) (hmid : ∀ r ∈ t.deliveries, r.msgId ≠ outId seqs)
    (hkey : ∀ r ∈ t.deliveries, r.key ∉ keys) :
    (∀ k ∈ keys, k.2 < 2 ^ 63) ∧ Awaits (outId seqs) keys [] (t.step L m)
      ∧ (m.isFile → FileAwaits t.files.length keys [] (t.step L m)) := by
  have hsent : ∀ (t' : Tracker) {new : List DeliveryRow} {ok : Prop},
      Inserted (outId seqs) keys ok t.deliveries new → ok → t'.deliveries = t.deliveries ++ new →
      (∀ k ∈ keys, k.2 < 2 ^ 63) ∧ Awaits (outId seqs) keys [] t' := by
    intro t' new ok hins hok heq
    refine ⟨fun k hk => (hins.taken hok k hk).1, by rw [heq]; exact hins.nodup hn, ?_, ?_⟩
    · obtain ⟨k, hk⟩ := List.exists_mem_of_ne_nil keys hne
      obtain ⟨-, r, hr, rfl⟩ := hins.taken hok k hk
      rcases List.mem_append.1 hr with hr | hr
      · exact absurd hk (hkey r hr)
      · exact ⟨r, by rw [heq]; exact List.mem_append_right _ hr, (hins.rows r hr).2.1⟩
    · intro r hr hrm
      rw [heq] at hr
      rcases List.mem_append.1 hr with hr | hr
      · exact absurd hrm (hmid r hr)
      · exact ⟨(hins.rows r hr).1, by simp⟩
  cases m with
  | acked k => exact hrec.elim
  | text conv seqs' ts text =>
    cases hm
    obtain ⟨store, new, heq, hins⟩ := t.addSent_spec (L := L) conv seqs ts text none none
    obtain ⟨hlt, haw⟩ := hsent (t.addSent L conv seqs ts text none none).2 hins hrec (by rw [heq])
    exact ⟨hlt, haw, by simp [TrackerMove.isFile]⟩
  | file conv seqs' ts filename attachment expected =>
    cases hm
    obtain ⟨store, new, heq, hins⟩ :=
      t.addSent_spec (L := L) conv seqs ts filename (some attachment) (some expected)
    obtain ⟨b, hb⟩ := hrec
    have hstep : t.step L (.file conv seqs ts filename attachment expected)
        = ({ t with store, deliveries := t.deliveries ++ new } : Tracker).registerFileDelivery
          filename expected := by
      unfold Tracker.step
      dsimp only
      split <;> rename_i h
      · rw [h] at hb
        cases hb
      · rw [h] at heq
        cases heq
        rfl
    rw [hstep]
    obtain ⟨hlt, haw⟩ := hsent (({ t with store, deliveries := t.deliveries ++ new } :
      Tracker).registerFileDelivery filename expected) hins ⟨b, hb⟩ rfl
    refine ⟨hlt, haw, fun _ => ?_⟩
    unfold registerFileDelivery
    dsimp only
    refine ⟨_, List.getElem?_concat_length, fun k hk => ?_⟩
    have hk := List.mem_toFinset.1 hk
    refine ⟨(List.mem_filter.1 hk).1, by simp, ?_⟩
    rw [lookup_insertAll, if_pos hk]

/-- In every run in which each message is recorded before its acknowledgements come in, none of them
is lost. -/
theorem acks_counted (L : Libs) (moves : List TrackerMove) (h : Timely moves) :
    AcksCounted L moves := by
  intro n m seqs keys hget hm hrec hacks
  obtain ⟨hlt, hgetn⟩ := List.getElem?_eq_some_iff.1 hget
  have hsplit : moves = moves.take n ++ m :: moves.drop (n + 1) := by
    rw [← hgetn, List.cons_getElem_drop_succ, List.take_append_drop]
  obtain ⟨hne, hzero⟩ := h.keys m (List.mem_of_getElem? hget) (seqs, keys) hm
  obtain ⟨hn, hrows⟩ := run_rows (L := L) (moves.take n)
  have hpair := h.apart
  rw [hsplit, List.pairwise_append] at hpair
  obtain ⟨-, hafter, hbefore⟩ := hpair
  have hafter := (List.pairwise_cons.1 hafter).1
  have hold : ∀ r ∈ (before L moves n).deliveries, r.msgId ≠ outId seqs ∧ r.key ∉ keys := by
    intro r hr
    obtain ⟨m', hm', seqs', keys', hmsg, hk, hid⟩ := hrows r hr
    obtain ⟨hids, hkeys⟩ := hbefore m' hm' m List.mem_cons_self (seqs', keys') hmsg (seqs, keys) hm
    exact ⟨hid ▸ hids, fun hin => hkeys _ hk hin⟩
  obtain ⟨hbound, haw, hfile⟩ := hrec.awaits hm hne hn (fun r hr => (hold r hr).1)
    fun r hr => (hold r hr).2
  have hrun : run L moves = (moves.drop (n + 1)).foldl (step L) ((before L moves n).step L m) := by
    conv_lhs => rw [hsplit]
    simp [run, before]
  rw [hrun]
  refine Awaits.foldl (fun k hk => ⟨hzero k hk, hbound k hk⟩) _ haw hfile ?_ ?_
  · intro m' hm' seqs' keys' hmsg
    obtain ⟨hids, hkeys⟩ := hafter m' hm' (seqs, keys) hm (seqs', keys') hmsg
    exact ⟨hids.symm, hkeys⟩
  · intro k hk
    left
    have hin := hacks k hk
    rw [hsplit] at hin
    rcases List.mem_append.1 hin with hin | hin
    · exact absurd (List.mem_flatMap.2 ⟨_, hin, by simp [ackedKeys]⟩)
        (h.recorded n hlt m hget (seqs, keys) hm k hk)
    · rcases List.mem_cons.1 hin with hin | hin
      · rw [← hin] at hm
        cases hm
      · exact hin

/-- The attachment of a file of three bytes, and its JSON text. -/
def exampleLibs : Libs where
  sealOpen _ := none
  verifies _ _ _ := false
  loads _ := .error .valueError
  loadsBytes _ := .error .valueError
  dumps _ := .ok (Python.str ['\x7b', '"', 's', 'i', 'z', 'e', '"', ':', ' ', '3', '\x7d'])
  sha256 _ := []
  realText _ := []

def exampleAttachment : Dict := [(.str (Python.str ['s', 'i', 'z', 'e']), .int 3)]

/-- A text to `a`, a file of two chunks to `a` and `b`, and then their acknowledgements. -/
def exampleMoves : List TrackerMove :=
  [.text (Python.str ['a']) [(['a'], 1)] 5 (Python.str ['h', 'i']),
    .file (Python.str ['r']) [(['a'], 3), (['b'], 2)] 6 (Python.str ['f']) exampleAttachment
      [(['a'], 2), (['b'], 1), (['a'], 3), (['b'], 2)],
    .acked (['a'], 3), .acked (['b'], 1), .acked (['a'], 1), .acked (['b'], 2), .acked (['a'], 2)]

theorem acks_counted_two : Timely exampleMoves
    ∧ isDelivered (run exampleLibs exampleMoves) (outId [(['a'], 1)]) = some true
    ∧ isDelivered (run exampleLibs exampleMoves) (outId [(['a'], 3), (['b'], 2)]) = some true
    ∧ ∃ file, (run exampleLibs exampleMoves).files[0]? = some file ∧ file.keys = ∅ := by
  have h : Timely exampleMoves := ⟨by decide +kernel, by decide +kernel, by decide +kernel⟩
  have hcount := acks_counted exampleLibs exampleMoves h
  refine ⟨h, ?_, ?_⟩
  · refine (hcount 0 _ _ _ rfl rfl ⟨true, by decide +kernel⟩ fun k hk => ?_).1
    rw [List.mem_singleton.1 hk]
    simp [exampleMoves]
  · have hfile := hcount 1 _ _ _ rfl rfl ⟨true, by decide +kernel⟩ (by
      simp [exampleMoves, trackedKeys])
    exact ⟨hfile.1, hfile.2 rfl⟩

/-- The acknowledgement comes in first: the message is never delivered. -/
theorem early_ack_lost : ¬ AcksCounted exampleLibs
    [.acked (['a'], 1), .text (Python.str ['a']) [(['a'], 1)] 5 (Python.str ['h', 'i'])] := by
  intro h
  have hdel := (h 1 _ _ _ rfl rfl ⟨true, by decide +kernel⟩ fun k hk => by
    rw [List.mem_singleton.1 hk]
    simp).1
  revert hdel
  decide +kernel

end Tracker

end Aimless
