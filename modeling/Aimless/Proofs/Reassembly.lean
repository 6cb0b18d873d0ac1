import Aimless.Lib.JsonText
import Aimless.Proofs.ChunkSize
import Aimless.Proofs.Transfers

/-!
# A file arrives as it was sent

A file is cut into pieces, and each piece is sealed in a chunk that carries its index, the number of
pieces and the digest of the whole.  The window that receives the chunks keeps a buffer for the
transfer; what it knows of it is said by `Buffered`: a piece for each index that has arrived and for
no other.  So the number of pieces it holds is that of the file exactly when none is missing, and
then what it writes is the file.
-/

namespace Aimless

open Python (Str Exc Json Dict)

/-! ### Putting together -/

theorem eqInt_int (m n : ℤ) : (Json.int m).eqInt n = true ↔ m = n := by
  simp [Json.eqInt, Json.number]

theorem mapM_eq_some {α β : Type} {f : α → Option β} {y : α → β} : ∀ {l : List α},
    (∀ x ∈ l, f x = some (y x)) → l.mapM f = some (l.map y)
  | [], _ => rfl
  | a :: l, h => by
    obtain ⟨ha, hl⟩ := List.forall_mem_cons.1 h
    rw [List.mapM_cons, ha, mapM_eq_some hl]
    rfl

theorem lookup_isSome {chunks : List (ℕ × Bytes)} {i : ℕ} :
    (∃ b, chunks.lookup i = some b) ↔ i ∈ chunks.map Prod.fst := by
  rw [← not_iff_not, not_exists, List.mem_map, not_exists]
  have hnone : (∀ b, ¬ chunks.lookup i = some b) ↔ chunks.lookup i = none := by
    cases chunks.lookup i <;> simp
  rw [hnone, List.lookup_eq_none_iff]
  refine ⟨fun h e he => ?_, fun h e he => ?_⟩
  · have := h e he.1
    simp [he.2] at this
  · have : ¬ e.1 = i := fun hi => h e ⟨he, hi⟩
    simpa using Ne.symm this

/-- Where every number below the length is a key, there is no other key. -/
theorem mem_keys_iff_lt {chunks : List (ℕ × Bytes)}
    (h : ∀ i < chunks.length, i ∈ chunks.map Prod.fst) (k : ℕ) :
    k ∈ chunks.map Prod.fst ↔ k < chunks.length := by
  have hsub : List.range chunks.length ⊆ chunks.map Prod.fst := fun i hi => h i (List.mem_range.1 hi)
  have hperm : (List.range chunks.length).Perm (chunks.map Prod.fst) :=
    (List.nodup_range.subperm hsub).perm_of_length_le (by simp)
  rw [← hperm.mem_iff, List.mem_range]

/-- The pieces in index order. -/
def inOrder (chunks : List (ℕ × Bytes)) (n : ℕ) : Bytes :=
  ((List.range n).map fun i => (chunks.lookup i).getD []).flatten

theorem reassembleFile_of_complete {chunks : List (ℕ × Bytes)} (hnd : (chunks.map Prod.fst).Nodup)
    {n : ℕ} (h : ∀ k, k ∈ chunks.map Prod.fst ↔ k < n) :
    reassembleFile chunks (.int n) = .ok (some (inOrder chunks n)) := by
  have hlen : chunks.length = n := by
    have hperm : (chunks.map Prod.fst).Perm (List.range n) :=
      (List.perm_ext_iff_of_nodup hnd List.nodup_range).2 fun k => by rw [h, List.mem_range]
    simpa using hperm.length_eq
  have hlookup : ∀ i ∈ List.range n, chunks.lookup i = some ((chunks.lookup i).getD []) := by
    intro i hi
    obtain ⟨b, hb⟩ := lookup_isSome.2 ((h i).2 (List.mem_range.1 hi))
    rw [hb]
    rfl
  have htotal : (Json.int n).eqInt chunks.length = true := (eqInt_int _ _).2 (by rw [hlen])
  unfold reassembleFile inOrder
  rw [htotal, hlen]
  simp only [Bool.true_eq_false, if_false, mapM_eq_some hlookup]
  rfl

/-- `reassemble_file` returns bytes exactly when the keys are those from 0 to the total, and then
the pieces in index order. -/
theorem reassembleFile_iff {chunks : List (ℕ × Bytes)} (hnd : (chunks.map Prod.fst).Nodup)
    (total : ℤ) (bytes : Bytes) : reassembleFile chunks (.int total) = .ok (some bytes)
      ↔ (∃ n : ℕ, total = n ∧ ∀ k, k ∈ chunks.map Prod.fst ↔ k < n)
        ∧ bytes = inOrder chunks total.toNat := by
  constructor
  · intro h
    obtain ⟨htotal, hmem⟩ := Gui.reassembled h
    have hall : ∃ n : ℕ, total = n ∧ ∀ k, k ∈ chunks.map Prod.fst ↔ k < n :=
      ⟨chunks.length, (eqInt_int _ _).1 htotal,
        mem_keys_iff_lt fun i hi => List.mem_map.2 (hmem i hi)⟩
    refine ⟨hall, ?_⟩
    obtain ⟨n, rfl, hkeys⟩ := hall
    rw [reassembleFile_of_complete hnd hkeys] at h
    exact (Option.some.inj (Except.ok.inj h)).symm
  · rintro ⟨⟨n, rfl, hkeys⟩, rfl⟩
    exact reassembleFile_of_complete hnd hkeys

/-! ### What a chunk opens to -/

/-- The chunk as the recipient opens it. -/
def openedChunk (S : Sealer) (chunk : List (Str × Json)) : List (Str × Json) :=
  (Field.sender, senderKey S) :: (Json.sorted chunk).filter fun e => e.1 ≠ Field.sender

section Opened

variable {K : Str → Bool} {S : Sealer} {L : Libs} {buddy : Str} {file : Outgoing}
  {conv : Option Str}

/-- The chunk of the piece with an index. -/
def Outgoing.chunkAt (file : Outgoing) (L : Libs) (conv : Option Str) (i : ℕ) : List (Str × Json) :=
  file.chunk (L.sha256 file.data) conv ((pieces file.data).getD i [], i)

theorem get?_openedChunk {chunk : List (Str × Json)} (hp : (Json.obj chunk).Proper) {k : Str}
    (hk : k ≠ Field.sender) :
    Python.get? (openedChunk S chunk) k = (Python.get? chunk k).map Json.sortKeys := by
  rw [openedChunk, get?_chunk, if_neg hk, get?_opened hp]

/-- The fields that the window reads of a chunk. -/
structure Reads (file : Outgoing) (L : Libs) (conv : Option Str) (i : ℕ)
    (fields : List (Str × Json)) : Prop where
  tid : Python.get? fields Field.transferId = some (.str (Python.str (Hex.encode file.tid)))
  index : Python.get? fields Field.index = some (.int i)
  total : Python.get? fields Field.total = some (.int (pieces file.data).length)
  filename : Python.get? fields Field.filename = some (.str file.filename)
  mimeHint : Python.get? fields Field.mimeHint = some (.str (mimeHintOf file.filename))
  sha256 : Python.get? fields Field.sha256
    = some (.str (Python.str (Hex.encode (L.sha256 file.data))))
  data : Python.get? fields Field.data
    = some (.str (Python.str (Base64.encode ((pieces file.data).getD i []))))
  conv : Python.get? fields Field.conv = (conv.filter (· ≠ [])).map Json.str

theorem reads_openedChunk (S : Sealer) (file : Outgoing) (L : Libs) (conv : Option Str) (i : ℕ) :
    Reads file L conv i (openedChunk S (file.chunkAt L conv i)) := by
  have hp : (Json.obj (file.chunkAt L conv i)).Proper := makeChunk_proper _ _ _ _ _ _ _ _ _
  have hget : ∀ k v, k ≠ Field.sender → Python.get? (file.chunkAt L conv i) k = some v →
      v.sortKeys = v → Python.get? (openedChunk S (file.chunkAt L conv i)) k = some v := by
    intro k v hk hv hleaf
    rw [get?_openedChunk hp hk, hv, Option.map_some, hleaf]
  have hconv : Python.get? (file.chunkAt L conv i) Field.conv
      = (conv.filter (· ≠ [])).map Json.str := by
    unfold Outgoing.chunkAt Outgoing.chunk makeChunk
    cases conv.filter (· ≠ []) <;> rfl
  constructor
  case conv =>
    rw [get?_openedChunk hp (by decide), hconv]
    cases conv.filter (· ≠ []) <;> simp [Json.sortKeys]
  all_goals exact hget _ _ (by decide) rfl (by rw [Json.sortKeys])

theorem getElem?_pieces {i : ℕ} (hi : i < (pieces file.data).length) :
    (pieces file.data)[i]? = some ((pieces file.data).getD i []) := by
  rw [List.getD_eq_getElem?_getD, List.getElem?_eq_getElem hi]
  rfl

theorem chunkData_openedChunk (S : Sealer) (file : Outgoing) (L : Libs) (conv : Option Str) (i : ℕ) :
    chunkData (openedChunk S (file.chunkAt L conv i)) = .ok ((pieces file.data).getD i []) := by
  unfold chunkData
  rw [(reads_openedChunk S file L conv i).data]
  exact Python.b64decode_encode _

/-- The header of a chunk that was built is read back. -/
theorem parse_built (htid : file.tid.length = 16) (hmax : file.data.length ≤ maxSendBytes) {i : ℕ}
    (hi : i < (pieces file.data).length) {ephemeral raw : Bytes}
    (hbuild : buildFilePayload S ephemeral buddy (file.chunkAt L conv i)
      = .ok (Python.str (Base64.encode raw))) :
    ∃ box, parseFilePayload (Python.str (Base64.encode raw))
        = .ok ⟨file.tid, i, (pieces file.data).length, box⟩
      ∧ sealFileChunk S ephemeral buddy (file.chunkAt L conv i) = .ok box := by
  have htotal := length_pieces_le hmax
  have hheader := roomHeader_makeChunk htid hi (by omega) file.filename (mimeHintOf file.filename)
    (Python.str (Hex.encode (L.sha256 file.data))) file.size ((pieces file.data).getD i []) conv
  obtain ⟨box, hbox, hraw⟩ := (buildFilePayload_eq_ok hheader).1 hbuild
  have hparsed : parseFilePayload (Python.str (Base64.encode (file.tid
      ++ Words.putLE 2 (i : ℤ).toNat ++ Words.putLE 2 ((pieces file.data).length : ℤ).toNat ++ box)))
        = .ok ⟨file.tid, (i : ℤ).toNat, ((pieces file.data).length : ℤ).toNat, box⟩ :=
    parse_fileHeader htid (by omega) (by exact_mod_cast hi) (by omega) box
  refine ⟨box, ?_, hbox⟩
  rw [hraw]
  exact hparsed

/-- The strings of a chunk are kept if its file name and its conversation are. -/
theorem allStr_chunkAt (H : Ideal K S L buddy) (hname : K file.filename = true)
    (hconv : ∀ c ∈ conv, K c = true) (i : ℕ) :
    (Json.obj (file.chunkAt L conv i)).allStr K = true := by
  have hhint : K (mimeHintOf file.filename) = true := by
    unfold mimeHintOf
    split
    · exact H.str _
    · exact H.str _
  rw [Json.allStr, Json.each_obj]
  intro e he
  unfold Outgoing.chunkAt Outgoing.chunk makeChunk at he
  simp only [List.mem_append, List.mem_cons, List.not_mem_nil, or_false, Option.mem_toList,
    Option.map_eq_some_iff, Option.filter_eq_some_iff] at he
  rcases he with (rfl | rfl | rfl | rfl | rfl | rfl | rfl | rfl) | ⟨c, ⟨hc, -⟩, rfl⟩
  · exact ⟨H.str _, H.str _⟩
  · exact ⟨H.str _, rfl⟩
  · exact ⟨H.str _, rfl⟩
  · exact ⟨H.str _, hname⟩
  · exact ⟨H.str _, hhint⟩
  · exact ⟨H.str _, H.str _⟩
  · exact ⟨H.str _, rfl⟩
  · exact ⟨H.str _, H.str _⟩
  · exact ⟨H.str _, hconv c hc⟩

/-- A string, or an integer of 64 bits. -/
def Small (v : Json) : Prop := (∃ s, v = .str s) ∨ ∃ n : ℤ, v = .int n ∧ n.natAbs < 2 ^ 64

/-- `json.dumps` writes every dict of such values. -/
def Sealer.Writes (S : Sealer) : Prop :=
  ∀ fields : List (Str × Json), (∀ e ∈ fields, Small e.2) → ∃ s, S.dumps (.obj fields) = .ok s

theorem small_chunkAt (hsize : file.size < 2 ^ 64) (hcount : (pieces file.data).length < 2 ^ 64)
    {i : ℕ} (hi : i < (pieces file.data).length) :
    ∀ e ∈ file.chunkAt L conv i, Small e.2 := by
  intro e he
  unfold Outgoing.chunkAt Outgoing.chunk makeChunk at he
  simp only [List.mem_append, List.mem_cons, List.not_mem_nil, or_false, Option.mem_toList,
    Option.map_eq_some_iff] at he
  rcases he with (rfl | rfl | rfl | rfl | rfl | rfl | rfl | rfl) | ⟨c, -, rfl⟩
  · exact .inl ⟨_, rfl⟩
  · exact .inr ⟨_, rfl, by rw [Int.natAbs_natCast]; omega⟩
  · exact .inr ⟨_, rfl, by rwa [Int.natAbs_natCast]⟩
  · exact .inl ⟨_, rfl⟩
  · exact .inl ⟨_, rfl⟩
  · exact .inl ⟨_, rfl⟩
  · exact .inr ⟨_, rfl, by rwa [Int.natAbs_natCast]⟩
  · exact .inl ⟨_, rfl⟩
  · exact .inl ⟨_, rfl⟩

theorem Small.sortKeys {v : Json} (h : Small v) : v.sortKeys = v := by
  rcases h with ⟨s, rfl⟩ | ⟨n, rfl, -⟩ <;> rw [Json.sortKeys]

/-- The chunk of a piece is built. -/
theorem build_chunkAt (H : Ideal K S L buddy) (hS : S.Writes) (htid : file.tid.length = 16)
    (hsize : file.size < 2 ^ 64) (hmax : file.data.length ≤ maxSendBytes) {i : ℕ}
    (hi : i < (pieces file.data).length) (LS : Libs) (ephemeral : Bytes) :
    ∃ raw, buildFilePayload S ephemeral buddy (file.chunkAt LS conv i)
      = .ok (Python.str (Base64.encode raw)) := by
  have htotal := length_pieces_le hmax
  have hsmall : ∀ e ∈ file.chunkAt LS conv i, Small e.2 := small_chunkAt hsize (by omega) hi
  obtain ⟨box, hbox⟩ : ∃ box, sealFileChunk S ephemeral buddy (file.chunkAt LS conv i) = .ok box := by
    refine sealBody_ok H ?_ (fun body sig => hS _ ?_) ephemeral
    · rw [Json.sortKeys_obj]
      refine hS _ fun e he => ?_
      obtain ⟨e', he', rfl⟩ := List.mem_map.1 ((Json.sorted_perm _).mem_iff.1 he)
      dsimp only
      rw [(hsmall e' he').sortKeys]
      exact hsmall e' he'
    · simp only [List.forall_mem_cons, List.not_mem_nil, false_implies, implies_true, and_true]
      exact ⟨.inr ⟨1, rfl, by decide⟩, .inl ⟨_, rfl⟩, .inl ⟨_, rfl⟩, .inl ⟨_, rfl⟩, .inl ⟨_, rfl⟩⟩
  exact ⟨_, (buildFilePayload_eq_ok (roomHeader_makeChunk htid hi (by omega) ..)).2 ⟨box, hbox, rfl⟩⟩

/-- A chunk that was built is accepted. -/
theorem checkedChunk_built (H : Ideal K S L buddy) (hname : K file.filename = true)
    (hconv : ∀ c ∈ conv, K c = true) (htid : file.tid.length = 16)
    (hmax : file.data.length ≤ maxSendBytes) {i : ℕ} (hi : i < (pieces file.data).length)
    {ephemeral raw : Bytes} (hbuild : buildFilePayload S ephemeral buddy (file.chunkAt L conv i)
      = .ok (Python.str (Base64.encode raw))) :
    raw ≠ [] ∧ ∃ box, checkedChunk L (Python.str (Base64.encode raw))
      = some (⟨file.tid, i, (pieces file.data).length, box⟩,
        openedChunk S (file.chunkAt L conv i)) := by
  obtain ⟨box, hparse, hbox⟩ := parse_built htid hmax hi hbuild
  have hopen : openFileChunk L box = .ok (openedChunk S (file.chunkAt L conv i)) :=
    openFileChunk_eq_ok.2 ⟨_, _, openSealed_sealBody H (makeChunk_proper _ _ _ _ _ _ _ _ _)
      (allStr_chunkAt H hname hconv i) hbox, rfl⟩
  have hr := reads_openedChunk S file L conv i
  refine ⟨?_, box, ?_⟩
  · rintro rfl
    cases hparse
  · unfold checkedChunk
    simp only [hparse, hopen, hr.tid, hr.index, hr.total]
    rw [if_pos ⟨by simp [Json.eqStr], by simp [Json.eqInt, Json.number],
      by simp [Json.eqInt, Json.number]⟩]

end Opened

/-! ### The buffer of a transfer -/

theorem lookup_setChunk (chunks : List (ℕ × Bytes)) (i : ℕ) (data : Bytes) (j : ℕ) :
    (setChunk chunks i data).lookup j = if j = i then some data else chunks.lookup j := by
  unfold setChunk
  by_cases hany : (chunks.any fun e => e.1 = i) = true
  · rw [if_pos hany]
    by_cases hj : j = i
    · rw [if_pos hj, hj]
      exact Python.lookup_map_set_self (by simpa [List.any_eq_true] using hany)
    · rw [if_neg hj, Python.lookup_map_set hj]
  · rw [if_neg hany, List.lookup_append]
    by_cases hj : j = i
    · have hnone : chunks.lookup i = none := by
        rw [List.lookup_eq_none_iff]
        intro e he
        have : ¬ e.1 = i := fun hi => hany (List.any_eq_true.2 ⟨e, he, by simpa using hi⟩)
        simpa using Ne.symm this
      rw [if_pos hj, hj, hnone, List.lookup_cons_self]
      rfl
    · rw [if_neg hj, List.lookup_cons, beq_false_of_ne hj]
      simp

theorem nodup_setChunk {chunks : List (ℕ × Bytes)} (h : (chunks.map Prod.fst).Nodup) (i : ℕ)
    (data : Bytes) : ((setChunk chunks i data).map Prod.fst).Nodup := by
  unfold setChunk
  split
  · have hkeys : (chunks.map fun e => if e.1 = i then (i, data) else e).map Prod.fst
        = chunks.map Prod.fst := by
      rw [List.map_map]
      refine List.map_congr_left fun e _ => ?_
      by_cases he : e.1 = i <;> simp [he]
    rwa [hkeys]
  · rename_i hany
    rw [List.map_append, List.nodup_append]
    refine ⟨h, by simp, fun a ha b hb hab => hany ?_⟩
    obtain ⟨e, he, rfl⟩ := List.mem_map.1 ha
    rw [List.map_singleton, List.mem_singleton] at hb
    exact List.any_eq_true.2 ⟨e, he, by simpa using hab.trans hb⟩

/-- A buffer of the file that holds the pieces of the given indices. -/
structure Buffered (file : Outgoing) (L : Libs) (A : ℕ → Prop) (buf : FileBuf) : Prop where
  total : buf.total = .int (pieces file.data).length
  failed : buf.failed = false
  info : ∃ conv i, Reads file L conv i buf.info
  nodup : (buf.chunks.map Prod.fst).Nodup
  pieces : ∀ i data, buf.chunks.lookup i = some data ↔ A i ∧ (pieces file.data)[i]? = some data

/-- No index of the file is missing. -/
def Complete (file : Outgoing) (A : ℕ → Prop) : Prop := ∀ i < (pieces file.data).length, A i

section Buffer

variable {file : Outgoing} {L : Libs} {A : ℕ → Prop} {buf : FileBuf}

theorem Complete.mono {B : ℕ → Prop} (hA : Complete file A) (h : ∀ i, A i → B i) :
    Complete file B := fun i hi => h i (hA i hi)

theorem Buffered.mem_keys (h : Buffered file L A buf) (i : ℕ) :
    i ∈ buf.chunks.map Prod.fst ↔ A i ∧ i < (Aimless.pieces file.data).length := by
  rw [← lookup_isSome]
  constructor
  · rintro ⟨data, hdata⟩
    obtain ⟨hA, hget⟩ := (h.pieces i data).1 hdata
    exact ⟨hA, (List.getElem?_eq_some_iff.1 hget).1⟩
  · rintro ⟨hA, hi⟩
    exact ⟨_, (h.pieces i _).2 ⟨hA, List.getElem?_eq_getElem hi⟩⟩

/-- The buffer holds as many pieces as the file has exactly when none is missing. -/
theorem Buffered.full_iff (h : Buffered file L A buf) :
    buf.total.eqInt buf.chunks.length = true ↔ Complete file A := by
  have hsub : buf.chunks.map Prod.fst ⊆ List.range (Aimless.pieces file.data).length := fun i hi =>
    List.mem_range.2 ((h.mem_keys i).1 hi).2
  rw [h.total, eqInt_int, Nat.cast_inj]
  constructor
  · intro hlen i hi
    have hperm : (buf.chunks.map Prod.fst).Perm (List.range (Aimless.pieces file.data).length) :=
      (h.nodup.subperm hsub).perm_of_length_le (by simp [hlen])
    exact ((h.mem_keys i).1 (hperm.mem_iff.2 (List.mem_range.2 hi))).1
  · intro hall
    have hperm : (buf.chunks.map Prod.fst).Perm (List.range (Aimless.pieces file.data).length) :=
      (List.perm_ext_iff_of_nodup h.nodup List.nodup_range).2 fun i => by
        rw [h.mem_keys, List.mem_range]
        exact ⟨And.right, fun hi => ⟨hall i hi, hi⟩⟩
    simpa using hperm.length_eq.symm

theorem Buffered.reassemble (h : Buffered file L A buf) (hall : Complete file A) :
    reassembleFile buf.chunks buf.total = .ok (some file.data) := by
  rw [h.total, reassembleFile_of_complete h.nodup fun i => by
    rw [h.mem_keys]
    exact ⟨And.right, fun hi => ⟨hall i hi, hi⟩⟩]
  congr 2
  have hpieces : ((List.range (Aimless.pieces file.data).length).map fun i =>
      (buf.chunks.lookup i).getD []) = Aimless.pieces file.data := by
    refine List.ext_getElem (by simp) fun i hi hi' => ?_
    rw [List.getElem_map, List.getElem_range,
      (h.pieces i _).2 ⟨hall i hi', List.getElem?_eq_getElem hi'⟩]
    rfl
  unfold inOrder
  rw [hpieces, flatten_pieces]

theorem Buffered.setChunk (h : Buffered file L A buf) {i : ℕ} {piece : Bytes}
    (hpiece : (Aimless.pieces file.data)[i]? = some piece) :
    Buffered file L (fun j => A j ∨ j = i)
      { buf with chunks := Aimless.setChunk buf.chunks i piece } where
  total := h.total
  failed := h.failed
  info := h.info
  nodup := nodup_setChunk h.nodup i piece
  pieces j data := by
    rw [lookup_setChunk]
    by_cases hj : j = i
    · rw [if_pos hj, hj, hpiece]
      simp
    · rw [if_neg hj, h.pieces]
      simp [hj]

end Buffer

namespace Gui

variable {L : Libs} {root : AttachmentsDir} {g : Gui} {file : Outgoing} {A : ℕ → Prop}

/-- The buffer that the window has for a transfer. -/
def bufAt (g : Gui) (key : Json × Str) : Option FileBuf :=
  (g.bufs.find? fun e => sameKey e.1 key).map Prod.snd

theorem sameKey_str {k : Json × Str} {c t : Str} :
    sameKey k (.str c, t) = true ↔ k = (.str c, t) := by
  obtain ⟨v, u⟩ := k
  cases v <;> simp [sameKey, Json.keyEq, Json.number]

theorem str_sameKey {k : Json × Str} {c t : Str} :
    sameKey (.str c, t) k = true ↔ k = (.str c, t) := by
  obtain ⟨v, u⟩ := k
  cases v with
  | str s =>
    simp only [sameKey, Json.keyEq, Bool.and_eq_true, decide_eq_true_eq, Prod.mk.injEq,
      Json.str.injEq]
    exact and_congr eq_comm eq_comm
  | _ => simp [sameKey, Json.keyEq, Json.number]

/-- An update under another key leaves the buffer. -/
theorem find?_update_ne {bufs : List ((Json × Str) × FileBuf)} {key key' : Json × Str}
    (h : ∀ k, sameKey k key = true → sameKey k key' = false) (buf : FileBuf) :
    (bufs.map fun e => if sameKey e.1 key' then (e.1, buf) else e).find? (fun e => sameKey e.1 key)
      = bufs.find? fun e => sameKey e.1 key := by
  induction bufs with
  | nil => rfl
  | cons e bufs ih =>
    cases hk : sameKey e.1 key with
    | true => simp [h _ hk, hk]
    | false =>
      rw [List.map_cons, List.find?_cons, List.find?_cons, hk, ih]
      cases hk' : sameKey e.1 key' <;> simp [hk]

theorem find?_update_self {bufs : List ((Json × Str) × FileBuf)} {key : Json × Str}
    {e : (Json × Str) × FileBuf} (h : bufs.find? (fun e => sameKey e.1 key) = some e) (buf : FileBuf) :
    (bufs.map fun e => if sameKey e.1 key then (e.1, buf) else e).find? (fun e => sameKey e.1 key)
      = some (e.1, buf) := by
  induction bufs with
  | nil => cases h
  | cons x bufs ih =>
    rw [List.find?_cons] at h
    cases hk : sameKey x.1 key with
    | true =>
      rw [hk] at h
      cases Option.some.inj h
      simp [hk]
    | false =>
      rw [hk] at h
      simp [hk, ih h]

/-- The window holds of the file the pieces of the given indices, and nothing if there are none. -/
def Holds (file : Outgoing) (L : Libs) (key : Json × Str) (A : ℕ → Prop) (g : Gui) : Prop :=
  (g.bufAt key = none ∧ ∀ i, ¬ A i) ∨ ∃ buf, g.bufAt key = some buf ∧ Buffered file L A buf

/-- What a chunk event does not touch of the window. -/
def SameFiles (g g' : Gui) : Prop := g'.fs = g.fs ∧ g'.store = g.store ∧ g'.acks = g.acks

theorem bufFor_same (g : Gui) (key : Json × Str) (chunk : List (Str × Json)) :
    SameFiles g (g.bufFor key chunk).2 := by
  unfold bufFor
  split <;> exact ⟨rfl, rfl, rfl⟩

theorem bufAt_bufFor_self (g : Gui) {key : Json × Str} (hkey : sameKey key key = true)
    (chunk : List (Str × Json)) :
    (g.bufFor key chunk).2.bufAt key = some (g.bufFor key chunk).1 := by
  unfold bufFor bufAt
  split
  · rename_i e he
    simp only [he, Option.map_some]
  · rename_i hnone
    simp [List.find?_append, hnone, hkey]

theorem bufAt_bufFor_ne (g : Gui) {key key' : Json × Str} (h : sameKey key' key = false)
    (chunk : List (Str × Json)) : (g.bufFor key' chunk).2.bufAt key = g.bufAt key := by
  unfold bufFor bufAt
  split
  · rfl
  · simp [List.find?_append, h]

/-- The first chunk of a transfer opens a buffer that holds nothing yet. -/
theorem Holds.bufFor {key : Json × Str} (h : Holds file L key A g) {conv : Option Str} {i : ℕ}
    {chunk : List (Str × Json)} (hr : Reads file L conv i chunk) :
    Buffered file L A (g.bufFor key chunk).1 := by
  unfold Gui.bufFor
  rcases h with ⟨hnone, hA⟩ | ⟨buf, hbuf, hB⟩
  · unfold bufAt at hnone
    rw [Option.map_eq_none_iff] at hnone
    simp only [hnone]
    refine ⟨by rw [hr.total]; rfl, rfl, ⟨conv, i, hr⟩, List.nodup_nil, fun j data => ?_⟩
    simp [hA j]
  · unfold bufAt at hbuf
    obtain ⟨e, he, rfl⟩ := Option.map_eq_some_iff.1 hbuf
    simp only [he]
    exact hB

/-- A chunk under another key leaves the buffer. -/
theorem addChunk_bufAt_ne (g : Gui) (node : Text) (ev : RecvEvent) {key key' : Json × Str}
    (h : ∀ k, sameKey k key = true → sameKey k key' = false) (buf : FileBuf) (index : ℕ)
    (data : Bytes) : (g.addChunk L root node ev key' buf index data).2.bufAt key = g.bufAt key := by
  unfold addChunk bufAt
  dsimp only
  split
  · split
    · rename_i e g' heq
      have hbufs := congrArg (Gui.bufs ∘ Prod.snd) heq
      simp only [Function.comp_apply, finalizeAttachment_bufs] at hbufs
      rw [← hbufs, find?_update_ne h]
    · rename_i b g' heq
      have hbufs := congrArg (Gui.bufs ∘ Prod.snd) heq
      simp only [Function.comp_apply, finalizeAttachment_bufs] at hbufs
      have hfilter : ∀ e : (Json × Str) × FileBuf, (!sameKey e.1 key' && sameKey e.1 key)
          = sameKey e.1 key := by
        intro e
        cases hk : sameKey e.1 key with
        | false => simp
        | true => simp [h _ hk]
      rw [← hbufs, List.find?_filter]
      simp only [Bool.decide_and, Bool.decide_eq_true, hfilter, find?_update_ne h]
  · rw [find?_update_ne h]

/-! ### Storing it -/

/-- The name under which the file is stored and shown. -/
def receivedName (file : Outgoing) : Str :=
  if file.filename = [] then Python.str ['f', 'i', 'l', 'e'] else file.filename

/-- The attachment column of the received file. -/
def receivedAttachment (file : Outgoing) (path : Str) : Dict := [
  (.str (Python.str ['p', 'a', 't', 'h']), .str path),
  (.str Field.filename, .str (receivedName file)),
  (.str Field.mimeHint, .str (mimeHintOf file.filename)),
  (.str (Python.str ['s', 'i', 'z', 'e']), .int file.data.length)]

/-- `_store_attachment` for the file with some bytes. -/
def writesFile (root : AttachmentsDir) (fs : FileSystem) (conv : Str) (file : Outgoing)
    (bytes : Bytes) : Except Exc Str × FileSystem :=
  storeAttachment root fs (.str conv) (Python.str (Hex.encode file.tid)) (.str (receivedName file))
    bytes

/-- The file is written, whole and as it was sent, and its row is handed to the store. -/
def StoresFile (L : Libs) (root : AttachmentsDir) (conv : Str) (sender : PublicKey) (seq : UInt64)
    (ts : Int64) (file : Outgoing) (g g' : Gui) : Prop :=
  ∃ path, writesFile root g.fs conv file file.data = (.ok path, g'.fs)
    ∧ g'.fs.read (Posix.resolve slash period root.cwd path) = some file.data
    ∧ g'.store = (g.store.ingest L (.str conv) (Hex.encode sender) seq.toNat (.int ts.toInt)
      (.str (receivedName file)) (some (receivedAttachment file path))).2

theorem filenameOf_reads {conv : Option Str} {i : ℕ} {info : List (Str × Json)}
    (hr : Reads file L conv i info) : filenameOf info = .str (receivedName file) := by
  unfold filenameOf getOr receivedName
  simp only [hr.filename, Json.truthy]
  by_cases hnil : file.filename = [] <;> simp [hnil]

theorem attachmentOf_reads {conv : Option Str} {i : ℕ} {info : List (Str × Json)}
    (hr : Reads file L conv i info) (path : Str) :
    attachmentOf path info file.data.length = receivedAttachment file path := by
  unfold attachmentOf receivedAttachment
  rw [filenameOf_reads hr, hr.mimeHint]
  rfl

/-- A complete buffer is stored as the file. -/
theorem finalize_buffered {buf : FileBuf} (h : Buffered file L A buf) (hall : Complete file A)
    {conv : Str} {fs' : FileSystem} {path : Str}
    (hwrites : writesFile root g.fs conv file file.data = (.ok path, fs')) (node : Text) (seq : ℕ)
    (ts : ℤ) :
    (g.finalizeAttachment L root (.str conv) node buf seq ts).2.fs = fs'
      ∧ (g.finalizeAttachment L root (.str conv) node buf seq ts).2.store
        = (g.store.ingest L (.str conv) node seq (.int ts) (.str (receivedName file))
          (some (receivedAttachment file path))).2 := by
  obtain ⟨conv', i, hr⟩ := h.info
  have hname : getOr buf.info Field.filename (.str (Python.str ['f', 'i', 'l', 'e']))
      = .str (receivedName file) := filenameOf_reads hr
  unfold writesFile at hwrites
  have hcolumn := attachmentOf_reads hr path
  unfold attachmentOf at hcolumn
  rw [filenameOf_reads hr] at hcolumn
  unfold finalizeAttachment
  simp only [h.reassemble hall, hr.sha256, hr.tid, hname, hwrites, hcolumn, Option.getD_some,
    Json.eqStr, decide_true, Bool.true_eq_false, if_false]
  rcases g.store.ingest L (.str conv) node seq (.int ts) (.str (receivedName file))
    (some (receivedAttachment file path)) with ⟨_ | _, store⟩ <;> exact ⟨rfl, rfl⟩

/-! ### The events -/

/-- The conversation that the chunks of a transfer are filed under. -/
def transferConv (conv : Option Str) (sender : PublicKey) : Str :=
  (conv.filter (· ≠ [])).getD (Python.str (Hex.encode sender))

def transferKey (file : Outgoing) (conv : Option Str) (sender : PublicKey) : Json × Str :=
  (.str (transferConv conv sender), Python.str (Hex.encode file.tid))

/-- A live event that brings the chunk with an index, sealed for the recipient. -/
def Brings (S : Sealer) (L : Libs) (buddy : Str) (file : Outgoing) (conv : Option Str)
    (sender : PublicKey) (i : ℕ) (m : FileMove) : Prop :=
  i < (pieces file.data).length ∧ ∃ ephemeral seq ts raw,
    buildFilePayload S ephemeral buddy (file.chunkAt L conv i)
      = .ok (Python.str (Base64.encode raw)) ∧ m = .live sender seq ts raw

/-- A live event that is not filed under the key, or a transfer that was fetched. -/
def Elsewhere (L : Libs) (key : Json × Str) (m : FileMove) : Prop :=
  ∀ sender seq ts raw, m = .live sender seq ts raw →
    ∀ parsed chunk, checkedChunk L (Python.str (Base64.encode raw)) = some (parsed, chunk) →
      (chunkConv (Hex.encode sender) chunk, Python.str (Hex.encode parsed.tid)) ≠ key

variable {K : Str → Bool} {S : Sealer} {buddy : Str} {conv : Option Str} {sender : PublicKey}
  {seq : UInt64}
  {ts : Int64} {raw : Bytes}

variable (g root sender seq ts) in
/-- A live event whose chunk was checked. -/
theorem step_live {parsed : FilePayload} {chunk : List (Str × Json)} (hraw : raw ≠ [])
    (hc : checkedChunk L (Python.str (Base64.encode raw)) = some (parsed, chunk)) :
    g.step L root (.live sender seq ts raw)
      = (g.incomingFile L root (Hex.encode sender)
        (Event.toRecv.recvEvent true sender seq ts raw)).2
    ∧ (g.incomingFile L root (Hex.encode sender) (Event.toRecv.recvEvent true sender seq ts raw))
      = if (chunkConv (Hex.encode sender) chunk).hashable = false then (.error .typeError, g)
        else
          let key := (chunkConv (Hex.encode sender) chunk, Python.str (Hex.encode parsed.tid))
          if (g.bufFor key chunk).1.failed then (.ok (), (g.bufFor key chunk).2)
          else
            match chunkData chunk with
            | .error e => (.error e, (g.bufFor key chunk).2)
            | .ok data => (g.bufFor key chunk).2.addChunk L root (Hex.encode sender)
              (Event.toRecv.recvEvent true sender seq ts raw) key (g.bufFor key chunk).1 parsed.index
              data := by
  refine ⟨rfl, ?_⟩
  have hpayload : (Event.toRecv.recvEvent true sender seq ts raw).payload
      = some (Base64.encode raw) := if_neg hraw
  unfold incomingFile
  simp only [hpayload, Option.bind_some, hc]
  rfl

theorem chunkConv_reads {i : ℕ} {chunk : List (Str × Json)} (hr : Reads file L conv i chunk) :
    chunkConv (Hex.encode sender) chunk = .str (transferConv conv sender) := by
  unfold chunkConv getOr transferConv
  rw [hr.conv]
  cases h : conv.filter (· ≠ []) with
  | none => rfl
  | some c =>
    have hne : c ≠ [] := by simpa using (Option.filter_eq_some_iff.1 h).2
    simp [Json.truthy, hne]

theorem ts_recvEvent (file : Bool) (sender : PublicKey) (seq : UInt64) (ts : Int64)
    (payload : Bytes) :
    ((Event.toRecv.recvEvent file sender seq ts payload).ts.getD 0).toInt = ts.toInt := by
  simp only [Event.toRecv.recvEvent]
  split
  · rename_i hzero
    rw [hzero]
    rfl
  · rfl

/-- The chunk that fills its buffer has it finalized. -/
theorem addChunk_full (g : Gui) (root : AttachmentsDir) (node : Text) (ev : RecvEvent)
    (key : Json × Str) (buf : FileBuf) (i : ℕ) (data : Bytes)
    (h : buf.total.eqInt (setChunk buf.chunks i data).length = true) :
    let buf' := { buf with chunks := setChunk buf.chunks i data }
    ∃ g₁, SameFiles g g₁
      ∧ (g.addChunk L root node ev key buf i data).2.fs
        = (g₁.finalizeAttachment L root key.1 node buf' ev.seqOrZero (ev.ts.getD 0).toInt).2.fs
      ∧ (g.addChunk L root node ev key buf i data).2.store
        = (g₁.finalizeAttachment L root key.1 node buf' ev.seqOrZero
          (ev.ts.getD 0).toInt).2.store := by
  intro buf'
  refine ⟨{ g with bufs := g.bufs.map fun e => if sameKey e.1 key then (e.1, buf') else e },
    ⟨rfl, rfl, rfl⟩, ?_⟩
  unfold addChunk
  dsimp only
  rw [if_pos h]
  split <;> rename_i heq <;> exact ⟨congrArg (Gui.fs ∘ Prod.snd) heq.symm,
    congrArg (Gui.store ∘ Prod.snd) heq.symm⟩

/-- What one chunk does: while another is missing nothing is stored, and the last one stores the
file. -/
theorem step_brings (H : Ideal K S L buddy) (hname : K file.filename = true)
    (hconv : ∀ c ∈ conv, K c = true) (htid : file.tid.length = 16)
    (hmax : file.data.length ≤ maxSendBytes) {i : ℕ} (hi : i < (pieces file.data).length)
    {ephemeral : Bytes} (hbuild : buildFilePayload S ephemeral buddy (file.chunkAt L conv i)
      = .ok (Python.str (Base64.encode raw)))
    (hh : Holds file L (transferKey file conv sender) A g) :
    (¬ Complete file (fun j => A j ∨ j = i) →
      SameFiles g (g.step L root (.live sender seq ts raw))
        ∧ Holds file L (transferKey file conv sender) (fun j => A j ∨ j = i)
          (g.step L root (.live sender seq ts raw)))
    ∧ (Complete file (fun j => A j ∨ j = i) → ∀ path fs',
      writesFile root g.fs (transferConv conv sender) file file.data = (.ok path, fs') →
        StoresFile L root (transferConv conv sender) sender seq ts file g
          (g.step L root (.live sender seq ts raw))) := by
  obtain ⟨hraw, box, hc⟩ := checkedChunk_built H hname hconv htid hmax hi hbuild
  have hr := reads_openedChunk S file L conv i
  have hpiece := getElem?_pieces hi
  have hdata := chunkData_openedChunk S file L conv i
  have hB := hh.bufFor hr
  set key := transferKey file conv sender with hkey
  set chunk := openedChunk S (file.chunkAt L conv i)
  obtain ⟨hfs, hstore, hacks⟩ := bufFor_same g key chunk
  have hself : sameKey key key = true := sameKey_str.2 rfl
  have hB' := hB.setChunk hpiece
  obtain ⟨hstep, hin⟩ := step_live root g sender seq ts hraw hc
  have hadd : g.step L root (.live sender seq ts raw)
      = ((g.bufFor key chunk).2.addChunk L root (Hex.encode sender)
        (Event.toRecv.recvEvent true sender seq ts raw) key (g.bufFor key chunk).1 i
        ((pieces file.data).getD i [])).2 := by
    rw [hstep, hin, chunkConv_reads hr]
    simp only [Json.hashable, Bool.true_eq_false, if_false, hdata]
    change (if (g.bufFor key chunk).1.failed then _ else _ : Except Exc Unit × Gui).2 = _
    rw [hB.failed]
    rfl
  rw [hadd]
  constructor
  · intro hnot
    unfold addChunk
    dsimp only
    rw [if_neg fun h => hnot (hB'.full_iff.1 h)]
    refine ⟨⟨hfs, hstore, hacks⟩, .inr ⟨_, ?_, hB'⟩⟩
    have hat := bufAt_bufFor_self g hself chunk
    unfold bufAt at hat ⊢
    obtain ⟨e, he, -⟩ := Option.map_eq_some_iff.1 hat
    rw [find?_update_self he]
    rfl
  · intro hall path fs' hwrites
    obtain ⟨g₁, ⟨hfs₁, hstore₁, -⟩, hfs', hstore'⟩ := (g.bufFor key chunk).2.addChunk_full root
      (Hex.encode sender) (Event.toRecv.recvEvent true sender seq ts raw) key (g.bufFor key chunk).1 i
      ((pieces file.data).getD i []) (hB'.full_iff.2 hall)
    rw [seqOrZero_recvEvent, ts_recvEvent] at hfs' hstore'
    have hwrites₁ : writesFile root g₁.fs (transferConv conv sender) file file.data
        = (.ok path, fs') := by rw [hfs₁, hfs, hwrites]
    obtain ⟨hfinal, hrow⟩ := finalize_buffered hB' hall hwrites₁ (Hex.encode sender) seq.toNat
      ts.toInt
    refine ⟨path, ?_, ?_, ?_⟩
    · rw [hwrites, hfs', ← hfinal]
      rfl
    · rw [hfs']
      exact (congrArg (fun fs => Posix.Fs.read fs _) hfinal).trans (storeAttachment_read hwrites)
    · rw [hstore', ← hstore, ← hstore₁]
      exact hrow

/-- An event that is filed elsewhere leaves the buffer. -/
theorem bufAt_elsewhere {c t : Str} {m : FileMove} (h : Elsewhere L (.str c, t) m) :
    (g.step L root m).bufAt (.str c, t) = g.bufAt (.str c, t) := by
  cases m with
  | live sender seq ts raw =>
    by_cases hraw : raw = []
    · have hpayload : (Event.toRecv.recvEvent true sender seq ts raw).payload = none := if_pos hraw
      change (g.incomingFile L root (Hex.encode sender)
        (Event.toRecv.recvEvent true sender seq ts raw)).2.bufAt _ = _
      unfold incomingFile
      rw [hpayload]
      rfl
    cases hc : checkedChunk L (Python.str (Base64.encode raw)) with
    | none =>
      have hpayload : (Event.toRecv.recvEvent true sender seq ts raw).payload
          = some (Base64.encode raw) := if_neg hraw
      change (g.incomingFile L root (Hex.encode sender)
        (Event.toRecv.recvEvent true sender seq ts raw)).2.bufAt _ = _
      unfold incomingFile
      rw [hpayload, Option.bind_some, hc]
    | some r =>
      obtain ⟨parsed, chunk⟩ := r
      have hne := h sender seq ts raw rfl parsed chunk hc
      obtain ⟨hstep, hin⟩ := step_live root g sender seq ts hraw hc
      set key' := (chunkConv (Hex.encode sender) chunk, Python.str (Hex.encode parsed.tid))
      have hother : sameKey key' (.str c, t) = false := by
        rw [← Bool.not_eq_true, sameKey_str]
        exact hne
      have hothers : ∀ k, sameKey k (.str c, t) = true → sameKey k key' = false := by
        intro k hk
        rw [sameKey_str.1 hk, ← Bool.not_eq_true, str_sameKey]
        exact hne
      rw [hstep, hin]
      split
      · rfl
      dsimp only
      split
      · exact bufAt_bufFor_ne g hother chunk
      split
      · exact bufAt_bufFor_ne g hother chunk
      · rw [addChunk_bufAt_ne _ _ _ hothers, bufAt_bufFor_ne g hother chunk]
  | fetched node tid entries =>
    unfold step
    dsimp only
    split
    · rfl
    unfold bufAt
    rw [(processFetchedTransfer_spec (fun _ => True) root g node tid fun _ _ => trivial).1]

/-- A chunk of the transfer is filed under its key, and brings one index. -/
theorem Brings.checked (H : Ideal K S L buddy) (hname : K file.filename = true)
    (hconv : ∀ c ∈ conv, K c = true) (htid : file.tid.length = 16)
    (hmax : file.data.length ≤ maxSendBytes) {i : ℕ} {m : FileMove}
    (h : Brings S L buddy file conv sender i m) :
    ∃ seq ts raw parsed chunk, m = .live sender seq ts raw
      ∧ checkedChunk L (Python.str (Base64.encode raw)) = some (parsed, chunk) ∧ parsed.index = i
      ∧ (chunkConv (Hex.encode sender) chunk, Python.str (Hex.encode parsed.tid))
        = transferKey file conv sender := by
  obtain ⟨hi, ephemeral, seq, ts, raw, hbuild, rfl⟩ := h
  obtain ⟨-, box, hc⟩ := checkedChunk_built H hname hconv htid hmax hi hbuild
  refine ⟨seq, ts, raw, _, _, rfl, hc, rfl, ?_⟩
  rw [chunkConv_reads (reads_openedChunk S file L conv i)]
  rfl

/-- An event brings one index at most. -/
theorem Brings.unique (H : Ideal K S L buddy) (hname : K file.filename = true)
    (hconv : ∀ c ∈ conv, K c = true) (htid : file.tid.length = 16)
    (hmax : file.data.length ≤ maxSendBytes) {i j : ℕ} {m : FileMove}
    (hi : Brings S L buddy file conv sender i m) (hj : Brings S L buddy file conv sender j m) :
    i = j := by
  obtain ⟨seq, ts, raw, parsed, chunk, rfl, hc, hindex, -⟩ := hi.checked H hname hconv htid hmax
  obtain ⟨seq', ts', raw', parsed', chunk', heq, hc', hindex', -⟩ :=
    hj.checked H hname hconv htid hmax
  cases heq
  rw [hc] at hc'
  cases hc'
  exact hindex.symm.trans hindex'

/-! ### A run -/

/-- The indices that some events have brought. -/
def Arrived (S : Sealer) (L : Libs) (buddy : Str) (file : Outgoing) (conv : Option Str)
    (sender : PublicKey) (moves : List FileMove) (i : ℕ) : Prop :=
  ∃ m ∈ moves, Brings S L buddy file conv sender i m

theorem Arrived.append {moves rest : List FileMove} {i : ℕ}
    (h : Arrived S L buddy file conv sender moves i) :
    Arrived S L buddy file conv sender (moves ++ rest) i :=
  h.imp fun _ hm => ⟨List.mem_append_left _ hm.1, hm.2⟩

/-- Events of the transfer, and others that are filed elsewhere. -/
def OfTransfer (S : Sealer) (L : Libs) (buddy : Str) (file : Outgoing) (conv : Option Str)
    (sender : PublicKey) (moves : List FileMove) : Prop :=
  ∀ m ∈ moves, (∃ i, Brings S L buddy file conv sender i m)
    ∨ Elsewhere L (transferKey file conv sender) m

/-- Where a property of lists begins to hold. -/
theorem exists_turn {α : Type} {P : List α → Prop} (h0 : ¬ P []) {l : List α} (h : P l) :
    ∃ pre m post, l = pre ++ m :: post ∧ ¬ P pre ∧ P (pre ++ [m]) := by
  induction l using List.reverseRecOn with
  | nil => exact absurd h h0
  | append_singleton l a ih =>
    by_cases hl : P l
    · obtain ⟨pre, m, post, rfl, hpre, hm⟩ := ih hl
      exact ⟨pre, m, post ++ [a], by simp, hpre, hm⟩
    · exact ⟨l, a, [], rfl, hl, h⟩

section Run

variable (H : Ideal K S L buddy) (hname : K file.filename = true) (hconv : ∀ c ∈ conv, K c = true)
  (htid : file.tid.length = 16)
  (hmax : file.data.length ≤ maxSendBytes)

include H hname hconv htid hmax

theorem arrived_brings {moves : List FileMove} {m : FileMove} {i : ℕ}
    (hm : Brings S L buddy file conv sender i m) :
    Arrived S L buddy file conv sender (moves ++ [m])
      = fun j => Arrived S L buddy file conv sender moves j ∨ j = i := by
  funext j
  apply propext
  constructor
  · rintro ⟨m', hm', hb⟩
    rcases List.mem_append.1 hm' with hm' | hm'
    · exact .inl ⟨m', hm', hb⟩
    · rw [List.mem_singleton.1 hm'] at hb
      exact .inr (hb.unique H hname hconv htid hmax hm)
  · rintro (h | rfl)
    · exact h.append
    · exact ⟨m, by simp, hm⟩

theorem arrived_elsewhere {moves : List FileMove} {m : FileMove}
    (hm : Elsewhere L (transferKey file conv sender) m) :
    Arrived S L buddy file conv sender (moves ++ [m])
      = Arrived S L buddy file conv sender moves := by
  funext j
  refine propext ⟨?_, Arrived.append⟩
  rintro ⟨m', hm', hb⟩
  rcases List.mem_append.1 hm' with hm' | hm'
  · exact ⟨m', hm', hb⟩
  · rw [List.mem_singleton.1 hm'] at hb
    obtain ⟨seq, ts, raw, parsed, chunk, rfl, hc, -, hkey⟩ := hb.checked H hname hconv htid hmax
    exact absurd hkey (hm _ _ _ _ rfl _ _ hc)

/-- Until the last chunk has come, the buffer holds those that have. -/
theorem run_holds (root : AttachmentsDir)
    (hfresh : g.bufAt (transferKey file conv sender) = none) (moves : List FileMove) :
    OfTransfer S L buddy file conv sender moves →
    ¬ Complete file (Arrived S L buddy file conv sender moves) →
    Holds file L (transferKey file conv sender) (Arrived S L buddy file conv sender moves)
      (g.run L root moves) := by
  induction moves using List.reverseRecOn with
  | nil => exact fun _ _ => .inl ⟨hfresh, fun i ⟨m, hm, _⟩ => List.not_mem_nil hm⟩
  | append_singleton moves m ih =>
    intro hof hnot
    have ih := ih (fun x hx => hof x (List.mem_append_left _ hx))
      fun h => hnot (Complete.mono h fun i => Arrived.append)
    have hrun : g.run L root (moves ++ [m]) = (g.run L root moves).step L root m := by
      simp [run]
    rw [hrun]
    rcases hof m (by simp) with ⟨i, hb⟩ | hm
    · rw [arrived_brings H hname hconv htid hmax hb] at hnot ⊢
      obtain ⟨hi, ephemeral, seq, ts, raw, hbuild, rfl⟩ := hb
      exact ((step_brings H hname hconv htid hmax hi hbuild ih).1 hnot).2
    · rw [arrived_elsewhere H hname hconv htid hmax hm]
      unfold Holds at ih ⊢
      rwa [show transferKey file conv sender = (.str (transferConv conv sender), _) from rfl,
        bufAt_elsewhere hm]

/-- A chunk before the last one stores nothing. -/
theorem run_quiet (hfresh : g.bufAt (transferKey file conv sender) = none) {pre : List FileMove}
    {m : FileMove} {i : ℕ} (hof : OfTransfer S L buddy file conv sender pre)
    (hm : Brings S L buddy file conv sender i m)
    (hnot : ¬ Complete file (Arrived S L buddy file conv sender (pre ++ [m]))) :
    SameFiles (g.run L root pre) (g.run L root (pre ++ [m])) := by
  have hh := run_holds H hname hconv htid hmax root hfresh pre hof fun h =>
    hnot (Complete.mono h fun i => Arrived.append)
  have hrun : g.run L root (pre ++ [m]) = (g.run L root pre).step L root m := by simp [run]
  rw [arrived_brings H hname hconv htid hmax hm] at hnot
  obtain ⟨hi, ephemeral, seq, ts, raw, hbuild, rfl⟩ := hm
  rw [hrun]
  exact ((step_brings H hname hconv htid hmax hi hbuild hh).1 hnot).1

/-- The chunk that was missing stores the file. -/
theorem run_stores (hfresh : g.bufAt (transferKey file conv sender) = none) {pre : List FileMove}
    {i : ℕ} (hof : OfTransfer S L buddy file conv sender pre)
    (hm : Brings S L buddy file conv sender i (.live sender seq ts raw))
    (hnot : ¬ Complete file (Arrived S L buddy file conv sender pre))
    (hall : Complete file (Arrived S L buddy file conv sender (pre ++ [.live sender seq ts raw])))
    {path : Str} {fs' : FileSystem}
    (hwrites : writesFile root (g.run L root pre).fs (transferConv conv sender) file file.data
      = (.ok path, fs')) :
    StoresFile L root (transferConv conv sender) sender seq ts file (g.run L root pre)
      (g.run L root (pre ++ [.live sender seq ts raw])) := by
  have hh := run_holds H hname hconv htid hmax root hfresh pre hof hnot
  have hrun : g.run L root (pre ++ [.live sender seq ts raw])
      = (g.run L root pre).step L root (.live sender seq ts raw) := by simp [run]
  rw [arrived_brings H hname hconv htid hmax hm] at hall
  obtain ⟨hi, ephemeral, seq', ts', raw', hbuild, heq⟩ := hm
  cases heq
  rw [hrun]
  exact (step_brings H hname hconv htid hmax hi hbuild hh).2 hall path fs' hwrites

/-- Of events that bring every chunk of a file that is not empty, there is one after which none is
missing any more. -/
theorem exists_last (hne : file.data ≠ []) {moves : List FileMove}
    (hof : OfTransfer S L buddy file conv sender moves)
    (hall : Complete file (Arrived S L buddy file conv sender moves)) :
    ∃ pre seq ts raw post, moves = pre ++ .live sender seq ts raw :: post
      ∧ ¬ Complete file (Arrived S L buddy file conv sender pre)
      ∧ Complete file (Arrived S L buddy file conv sender (pre ++ [.live sender seq ts raw]))
      ∧ OfTransfer S L buddy file conv sender pre
      ∧ ∃ i, Brings S L buddy file conv sender i (.live sender seq ts raw) := by
  have hempty : ¬ Complete file (Arrived S L buddy file conv sender []) := fun h => by
    obtain ⟨m, hm, -⟩ := h 0 (length_pieces_pos hne)
    exact List.not_mem_nil hm
  obtain ⟨pre, m, post, rfl, hnot, hall'⟩ :=
    exists_turn (P := fun l => Complete file (Arrived S L buddy file conv sender l)) hempty hall
  -- an event that is filed elsewhere brings nothing
  obtain ⟨i, hm⟩ : ∃ i, Brings S L buddy file conv sender i m := by
    refine (hof m (by simp)).resolve_right fun helse => hnot ?_
    rwa [arrived_elsewhere H hname hconv htid hmax helse] at hall'
  obtain ⟨hi, ephemeral, seq, ts, raw, hbuild, rfl⟩ := hm
  exact ⟨pre, seq, ts, raw, post, rfl, hnot, hall', fun x hx => hof x (List.mem_append_left _ hx),
    i, hi, ephemeral, seq, ts, raw, hbuild, rfl⟩

end Run

/-- A file arrives as it was sent: for every file that is not empty and may be sent, and every
sequence of events that brings each of its chunks, there is an event before which its chunks store
nothing and which stores the file, if the disk takes it.  And `reassemble_file` returns bytes exactly
for the keys from 0 to the total.  The name is one that JSON keeps, as all are that `os.fsdecode`
gives (`Python.joined_fsdecode`). -/
theorem file_reassembled (K : Str → Bool) (S : Sealer) (L : Libs) (buddy : Str)
    (H : Ideal K S L buddy) (root : AttachmentsDir) (file : Outgoing) (conv : Option Str)
    (sender : PublicKey) (g : Gui) (hname : K file.filename = true)
    (hconv : ∀ c ∈ conv, K c = true)
    (hne : file.data ≠ []) (hmax : file.data.length ≤ maxSendBytes) (htid : file.tid.length = 16)
    (hfresh : g.bufAt (transferKey file conv sender) = none) :
    (∀ moves, OfTransfer S L buddy file conv sender moves →
      Complete file (Arrived S L buddy file conv sender moves) →
      ∃ pre seq ts raw post, moves = pre ++ .live sender seq ts raw :: post
        ∧ ¬ Complete file (Arrived S L buddy file conv sender pre)
        ∧ Complete file (Arrived S L buddy file conv sender (pre ++ [.live sender seq ts raw]))
        ∧ (∀ before m after, pre = before ++ m :: after →
          (∃ i, Brings S L buddy file conv sender i m) →
            SameFiles (g.run L root before) (g.run L root (before ++ [m])))
        ∧ ∀ path fs', writesFile root (g.run L root pre).fs (transferConv conv sender) file file.data
            = (.ok path, fs') →
          StoresFile L root (transferConv conv sender) sender seq ts file (g.run L root pre)
            (g.run L root (pre ++ [.live sender seq ts raw])))
    ∧ ∀ (chunks : List (ℕ × Bytes)) (total : ℤ) (bytes : Bytes), (chunks.map Prod.fst).Nodup →
      (reassembleFile chunks (.int total) = .ok (some bytes)
        ↔ (∃ n : ℕ, total = n ∧ ∀ k, k ∈ chunks.map Prod.fst ↔ k < n)
          ∧ bytes = inOrder chunks total.toNat) := by
  refine ⟨fun moves hof hall => ?_, fun chunks total bytes hnd => reassembleFile_iff hnd total bytes⟩
  obtain ⟨pre, seq, ts, raw, post, rfl, hnot, hall', hofPre, hm⟩ :=
    exists_last H hname hconv htid hmax hne hof hall
  refine ⟨pre, seq, ts, raw, post, rfl, hnot, hall', ?_, ?_⟩
  · rintro before m after rfl ⟨j, hj⟩
    refine run_quiet H hname hconv htid hmax hfresh
      (fun x hx => hofPre x (List.mem_append_left _ hx)) hj
      fun h => hnot (Complete.mono h fun k hk => ?_)
    rw [List.append_cons]
    exact hk.append
  · intro path fs' hwrites
    obtain ⟨i, hi⟩ := hm
    exact run_stores H hname hconv htid hmax hfresh hofPre hi hnot hall' hwrites

section Note

/-- The SHA-256 digest of what is in the note. -/
def noteDigest : Bytes := [
  0x54, 0x01, 0x2c, 0x03, 0xc3, 0x4f, 0x71, 0x05, 0x20, 0x78, 0x2b, 0x21, 0x0e, 0xf0, 0x37, 0xa3,
  0x5f, 0x2c, 0x8a, 0x6e, 0x12, 0xdb, 0xa0, 0xb1, 0xa1, 0xbf, 0x42, 0xa9, 0x12, 0xcd, 0xfa, 0xef]

/-- A file of one byte more than fills a piece. -/
def note : Outgoing where
  path := Python.fsdecode [47, 110]
  filename := Python.fsdecode [110]
  size := fileChunkSize + 1
  data := List.replicate fileChunkSize 104 ++ [105]
  tid := List.replicate 16 1

def noteLibs : Libs := plainLibs fun _ => noteDigest

theorem plain_writes : plainSealer.Writes := by
  intro fields hsmall
  refine ⟨_, plainDumps_eq_ok.2 ⟨Json.each_obj.2 fun e he => ⟨rfl, ?_⟩, rfl⟩⟩
  rcases hsmall e he with ⟨s, hs⟩ | ⟨n, hn, -⟩
  · rw [hs]
    rfl
  · rw [hn]
    rfl

theorem length_note : note.data.length = fileChunkSize + 1 := by simp [note]

theorem length_pieces_note : (pieces note.data).length = 2 := by
  rw [length_pieces, length_note]
  decide

theorem note_writes : ∃ path fs, writesFile homeDir {} (transferConv none nines) note note.data
    = (.ok path, fs) := by
  have hok : ∃ path, (writesFile homeDir {} (transferConv none nines) note note.data).1
      = .ok path := ⟨homeDir.path ++ Python.str ['/'] ++ Python.str (Hex.encode nines)
        ++ Python.str ['/'] ++ Python.str (Hex.encode note.tid) ++ Python.str ['-', 'n'],
      by decide +kernel⟩
  obtain ⟨path, hpath⟩ := hok
  exact ⟨path, _, Prod.ext hpath rfl⟩

/-- The note arrives, its second piece first and twice. -/
theorem file_reassembled_note :
    let buddy := Python.str (Hex.encode nines)
    ∃ first second path,
      buildFilePayload plainSealer [] buddy (note.chunkAt noteLibs none 0)
          = .ok (Python.str (Base64.encode first))
        ∧ buildFilePayload plainSealer [] buddy (note.chunkAt noteLibs none 1)
          = .ok (Python.str (Base64.encode second))
        ∧ (({} : Gui).run noteLibs homeDir [.live nines 2 5 second, .live nines 3 6 second,
          .live nines 1 4 first]).fs.read (Posix.resolve slash period homeDir.cwd path)
          = some note.data := by
  intro buddy
  have H : Ideal Python.joined plainSealer noteLibs buddy := plain_ideal _ nines
  have hname : Python.joined note.filename = true := Python.joined_fsdecode _
  have hconv : ∀ c ∈ (none : Option Str), Python.joined c = true := fun c hc =>
    (Option.not_mem_none c hc).elim
  have hmax : note.data.length ≤ maxSendBytes := by
    rw [length_note]
    decide
  have hbuild : ∀ i < 2, ∃ raw, buildFilePayload plainSealer [] buddy (note.chunkAt noteLibs none i)
      = .ok (Python.str (Base64.encode raw)) := fun i hi =>
    build_chunkAt H plain_writes rfl (by decide) hmax (by rwa [length_pieces_note]) noteLibs []
  obtain ⟨first, hfirst⟩ := hbuild 0 (by decide)
  obtain ⟨second, hsecond⟩ := hbuild 1 (by decide)
  have hbrings₀ : ∀ seq ts, Brings plainSealer noteLibs buddy note none nines 0
      (.live nines seq ts first) := fun seq ts =>
    ⟨by rw [length_pieces_note]; decide, [], seq, ts, first, hfirst, rfl⟩
  have hbrings₁ : ∀ seq ts, Brings plainSealer noteLibs buddy note none nines 1
      (.live nines seq ts second) := fun seq ts =>
    ⟨by rw [length_pieces_note]; decide, [], seq, ts, second, hsecond, rfl⟩
  -- the second piece alone does not complete it
  have hlacks : ∀ moves : List FileMove, (∀ m ∈ moves, ∃ seq ts, m = .live nines seq ts second) →
      ¬ Complete note (Arrived plainSealer noteLibs buddy note none nines moves) := by
    intro moves hall hcomplete
    obtain ⟨m, hm, hb⟩ := hcomplete 0 (by rw [length_pieces_note]; decide)
    obtain ⟨seq, ts, rfl⟩ := hall m hm
    exact absurd (hb.unique H hname hconv rfl hmax (hbrings₁ seq ts)) (by decide)
  have hof : OfTransfer plainSealer noteLibs buddy note none nines [.live nines 2 5 second,
      .live nines 3 6 second, .live nines 1 4 first] := by
    simp only [OfTransfer, List.forall_mem_cons, List.not_mem_nil, false_implies, implies_true,
      and_true]
    exact ⟨.inl ⟨1, hbrings₁ 2 5⟩, .inl ⟨1, hbrings₁ 3 6⟩, .inl ⟨0, hbrings₀ 1 4⟩⟩
  have hall : Complete note (Arrived plainSealer noteLibs buddy note none nines
      [.live nines 2 5 second, .live nines 3 6 second, .live nines 1 4 first]) := by
    intro i hi
    rw [length_pieces_note] at hi
    interval_cases i
    · exact ⟨_, by simp, hbrings₀ 1 4⟩
    · exact ⟨_, by simp, hbrings₁ 2 5⟩
  obtain ⟨pre, seq, ts, raw, post, hsplit, -, hlast, hquiet, hstores⟩ :=
    (file_reassembled Python.joined plainSealer noteLibs buddy H homeDir note none nines {} hname
      hconv (by simp [note]) hmax rfl rfl).1 _ hof hall
  obtain ⟨path, fs, hwrites⟩ := note_writes
  -- the event that completes it is the last
  rcases pre with _ | ⟨m₁, _ | ⟨m₂, _ | ⟨m₃, pre⟩⟩⟩
  · simp only [List.nil_append, List.cons.injEq] at hsplit
    refine absurd hlast (hlacks _ fun m hm => ⟨2, 5, ?_⟩)
    rw [List.mem_singleton.1 hm, hsplit.1]
  · simp only [List.cons_append, List.nil_append, List.cons.injEq] at hsplit
    obtain ⟨rfl, hm, -⟩ := hsplit
    rw [← hm] at hlast
    exact absurd hlast (hlacks _ (by simp))
  · simp only [List.cons_append, List.nil_append, List.cons.injEq] at hsplit
    obtain ⟨rfl, rfl, hm, -⟩ := hsplit
    cases hm
    have hfs₁ := (hquiet [] _ [_] rfl ⟨1, hbrings₁ 2 5⟩).1
    have hfs₂ := (hquiet [_] _ [] rfl ⟨1, hbrings₁ 3 6⟩).1
    obtain ⟨path', -, hread, -⟩ := hstores path fs (by
      rw [← hwrites]
      exact congrArg (fun fs => writesFile homeDir fs _ note note.data) (hfs₂.trans hfs₁))
    exact ⟨first, second, path', hfirst, hsecond, hread⟩
  · have hlen := congrArg List.length hsplit
    simp only [List.length_append, List.length_cons, List.length_nil] at hlen
    omega

end Note

end Gui

end Aimless
