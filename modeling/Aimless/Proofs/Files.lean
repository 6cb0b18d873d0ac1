import Aimless.Files

/-!
# Where received files go

A transfer is written to a path made of three strings the sender chose: the conversation, the
transfer id and the file name.  The transfer id is checked to be hex and the file name is
sanitised; the conversation is used as it is.  So the files stay below the attachment directory
as long as every conversation named in a chunk does (`Confined`).
-/

namespace Aimless

open Python (Str Exc Json Dict CodePoint)
open Posix (Inside OnLine Stays)

/-- A conversation whose components, walked from the attachment directory, or from the root for an
absolute one, only pass directories above that directory, it, or below it, and end in it or below.
-/
def AttachmentsDir.Confined (root : AttachmentsDir) (conv : Str) : Prop :=
  Stays period validName root.pos (if Posix.isAbs slash conv then [] else root.pos)
    (conv.splitOn slash)

theorem AttachmentsDir.Confined.stays {root : AttachmentsDir} {conv : Str} (h : root.Confined conv) :
    let d := Posix.join slash root.path conv
    Stays period validName root.pos (Posix.origin slash root.cwd d) (d.splitOn slash) := by
  intro d
  unfold Confined at h
  by_cases habs : Posix.isAbs slash conv = true
  · have hd : d = conv := by simp [d, Posix.join, habs]
    rw [hd]
    simpa [Posix.origin, habs] using h
  · have habs : Posix.isAbs slash conv = false := by simpa using habs
    rw [habs] at h
    obtain ⟨cs, hsplit, hsub, hwalk⟩ :=
      Posix.exists_splitOn_join slash period (a := root.path) habs
    have horigin : Posix.origin slash root.cwd d = Posix.origin slash root.cwd root.path := by
      unfold Posix.origin
      rw [Posix.isAbs_join slash habs root.path_ne_nil]
    rw [hsplit, horigin]
    refine Posix.stays_append period (by simpa using h) (fun hmem => root.noParent (hsub hmem)) _ ?_
    rw [hwalk]
    rfl

/-- A name with neither a slash nor a period is a directory of its own. -/
theorem AttachmentsDir.confined_of_plain (root : AttachmentsDir) {conv : Str}
    (h : ∀ c ∈ conv, c ≠ slash ∧ c ≠ period) : root.Confined conv := by
  have hsep : slash ∉ conv := fun hmem => (h _ hmem).1 rfl
  have hdot : period ∉ conv := fun hmem => (h _ hmem).2 rfl
  have habs : Posix.isAbs slash conv = false := by
    cases conv with
    | nil => rfl
    | cons x xs =>
      simp only [List.mem_cons, not_or] at hsep
      simpa [Posix.isAbs] using Ne.symm hsep.1
  unfold Confined
  rw [habs, List.splitOn_eq_singleton hsep]
  intro _
  have henter : root.pos <+: Posix.enter period root.pos conv := by
    unfold Posix.enter
    split
    · exact List.prefix_refl _
    · have hne : conv ≠ [period, period] := by
        rintro rfl
        simp at hdot
      rw [if_neg hne]
      exact List.prefix_append _ _
  exact ⟨Or.inr henter, henter⟩

/-! ### Hex text -/

theorem plain_of_decode {t : Text} {b : Bytes} (h : Hex.decode t = .ok b) :
    ∀ c ∈ Python.str t, c ≠ slash ∧ c ≠ period := by
  intro c hc
  obtain ⟨x, hx, rfl⟩ := List.mem_map.1 hc
  have hsome := Hex.value_isSome_of_decode h x hx
  constructor
  · intro he
    have hx : x = '/' := Python.codePoint_injective he
    rw [hx] at hsome
    exact absurd hsome (by decide)
  · intro he
    have hx : x = '.' := Python.codePoint_injective he
    rw [hx] at hsome
    exact absurd hsome (by decide)

theorem decode_of_decodeFromKey {t : Text} {key : PublicKey} (h : decodeFromKey t = .ok key) :
    Hex.decode t = .ok key := by
  unfold decodeFromKey decodeKey at h
  rcases hd : Hex.decode t with e | b
  · rw [hd] at h
    cases h
  · rw [hd] at h
    simp only [] at h
    split at h
    · cases h
    · rename_i heq
      split at heq
      · cases heq
      · cases heq
        cases h
        rfl

/-! ### One transfer -/

theorem mem_sanitizeFilename {name : Str} {c : CodePoint} (h : c ∈ sanitizeFilename name) :
    c ≠ slash := by
  have hc := List.mem_of_mem_take h
  split at hc
  · rintro rfl
    revert hc
    decide
  · rintro rfl
    unfold stripDots at hc
    have h1 := (List.dropWhile_suffix _).subset (List.mem_reverse.1 hc)
    have h2 := (List.dropWhile_suffix _).subset (List.mem_reverse.1 h1)
    exact absurd (List.mem_filter.1 h2).2 (by decide)

/-- The last component of a stored file, with or without `.tmp`: no slash in it, and no dots alone.
-/
theorem fileName_plain (b : Bytes) (filename t : Str) (ht : slash ∉ t) :
    let name := Python.str (Hex.encode b) ++ Python.str ['-'] ++ sanitizeFilename filename ++ t
    slash ∉ name ∧ name ≠ [] ∧ name ≠ [period] ∧ name ≠ [period, period] := by
  intro name
  have hdash : (45 : CodePoint) ∈ name := by simp [name, Python.str, Python.codePoint]
  refine ⟨?_, ?_, ?_, ?_⟩
  · simp only [name, List.mem_append, not_or]
    refine ⟨⟨⟨fun hmem => ?_, by decide⟩, fun hmem => mem_sanitizeFilename hmem rfl⟩, ht⟩
    exact (plain_of_decode (Hex.decode_encode b) _ hmem).1 rfl
  · intro hnil
    rw [hnil] at hdash
    cases hdash
  · intro hdot
    rw [hdot] at hdash
    exact absurd hdash (by decide)
  · intro hdot
    rw [hdot] at hdash
    exact absurd hdash (by decide)

namespace Gui

variable {L : Libs} {root : AttachmentsDir}

/-- The conversation of a transfer, where it can be a path at all, is confined. -/
def ConvOk (root : AttachmentsDir) (conv : Json) : Prop :=
  ∀ s, conv = .str s → root.Confined s

theorem storeAttachment_contained (fs : FileSystem) {conv : Json} (hconv : ConvOk root conv)
    (b : Bytes) (filename : Json) (data : Bytes) :
    Posix.Fs.Contained root.pos fs
      (storeAttachment root fs conv (Python.str (Hex.encode b)) filename data).2 := by
  unfold storeAttachment
  split
  · rename_i conv
    have hstays := (hconv conv rfl).stays
    have hne := Posix.join_ne_nil slash root.path_ne_nil conv
    generalize Posix.join slash root.path conv = d at hstays hne ⊢
    obtain ⟨r, fs₁, hrun, hcont, hend⟩ :=
      Posix.Fs.makedirs_created (d.splitOn slash) fs _ hstays
    simp only [hrun]
    rcases r with e | _
    · exact hcont
    simp only []
    split
    · rename_i filename
      -- both file names are components of their own below the directory
      have hbelow : root.pos <+: Posix.resolve slash period root.cwd d := hend rfl
      have hin : ∀ t : Str, slash ∉ t → Inside root.pos (Posix.resolve slash period root.cwd
          (Posix.join slash d (Python.str (Hex.encode b) ++ Python.str ['-']
            ++ sanitizeFilename filename ++ t))) := by
        intro t ht
        obtain ⟨hslash, hnil, hdot, hdots⟩ := fileName_plain b filename t ht
        rw [Posix.resolve_join_name slash period root.cwd hne hslash hnil hdot hdots]
        exact Posix.inside_append hbelow _
      have hpath := hin [] (by decide)
      rw [List.append_nil] at hpath
      have htmp := hin (Python.str ['.', 't', 'm', 'p']) (by decide)
      rw [← Posix.join_append slash (by simp [Python.str])] at htmp
      have hw := Posix.Fs.contained_write htmp fs₁ data
      rcases hwrite : fs₁.write _ data with ⟨e | _, fs₂⟩
      · rw [hwrite] at hw
        exact hcont.trans hw
      · rw [hwrite] at hw
        have hr := Posix.Fs.contained_replace hpath fs₂
          (Posix.resolve slash period root.cwd (Posix.join slash d (Python.str (Hex.encode b)
            ++ Python.str ['-'] ++ sanitizeFilename filename) ++ Python.str ['.', 't', 'm', 'p']))
        simp only []
        rcases hrep : fs₂.replace _ _ with ⟨e | _, fs₃⟩
        · rw [hrep] at hr
          exact (hcont.trans hw).trans hr
        · rw [hrep] at hr
          exact (hcont.trans hw).trans hr
    · exact hcont
  · exact Posix.Fs.Contained.refl _ fs

/-- A chunk whose transfer id is the hex form of some bytes. -/
def HexTid (info : List (Str × Json)) : Prop :=
  ∃ b : Bytes, Python.get? info Field.transferId = some (.str (Python.str (Hex.encode b)))

theorem hexTid_of_checked {payload : Str} {parsed : FilePayload} {chunk : List (Str × Json)}
    (h : checkedChunk L payload = some (parsed, chunk)) : HexTid chunk := by
  unfold checkedChunk at h
  split at h
  · cases h
  split at h
  · cases h
  split at h
  · rename_i hcheck
    cases h
    obtain ⟨v, hv, heq⟩ := (Option.any_eq_true _ _).1 hcheck.1
    cases v with
    | str s => exact ⟨parsed.tid, by rw [hv, of_decide_eq_true heq]⟩
    | _ => cases heq
  · cases h

theorem finalizeAttachment_contained (g : Gui) {conv : Json} (hconv : ConvOk root conv) (node : Text)
    {buf : FileBuf} (htid : HexTid buf.info) (seq : ℕ) (ts : ℤ) :
    Posix.Fs.Contained root.pos g.fs (g.finalizeAttachment L root conv node buf seq ts).2.fs
      ∧ (g.finalizeAttachment L root conv node buf seq ts).2.bufs = g.bufs := by
  have hrefl := Posix.Fs.Contained.refl root.pos g.fs
  obtain ⟨b, hb⟩ := htid
  unfold finalizeAttachment
  split
  · exact ⟨hrefl, rfl⟩
  · exact ⟨hrefl, rfl⟩
  rename_i rebuilt _
  simp only []
  split
  · exact ⟨hrefl, rfl⟩
  rw [hb]
  simp only []
  have hstore := storeAttachment_contained g.fs hconv b
    (getOr buf.info Field.filename (.str (Python.str ['f', 'i', 'l', 'e']))) rebuilt
  rcases hrun : storeAttachment root g.fs conv (Python.str (Hex.encode b)) _ rebuilt
    with ⟨e | path, fs⟩
  · rw [hrun] at hstore
    exact ⟨hstore, rfl⟩
  · rw [hrun] at hstore
    simp only []
    split <;> exact ⟨hstore, rfl⟩

theorem convOk_getOr {chunk : List (Str × Json)} {node : Text} {key : Bytes}
    (hnode : Hex.decode node = .ok key)
    (h : ∀ s, Python.get? chunk Field.conv = some (.str s) → s ≠ [] → root.Confined s) :
    ConvOk root (getOr chunk Field.conv (.str (Python.str node))) := by
  intro s hs
  have hplain : root.Confined (Python.str node) := root.confined_of_plain (plain_of_decode hnode)
  unfold getOr at hs
  split at hs
  · rename_i v hv
    split at hs
    · rename_i ht
      subst hs
      refine h s hv ?_
      rintro rfl
      cases ht
    · cases hs
      exact hplain
  · cases hs
    exact hplain

/-- The conversations a payload can name are confined. -/
def PayloadConfined (L : Libs) (root : AttachmentsDir) (payload : Text) : Prop :=
  ∀ parsed chunk s, checkedChunk L (Python.str payload) = some (parsed, chunk) →
    Python.get? chunk Field.conv = some (.str s) → s ≠ [] → root.Confined s

/-- The tree has only grown inside, and what is being collected has hex ids. -/
structure Kept (root : AttachmentsDir) (fs : FileSystem) (g : Gui) : Prop where
  fs : Posix.Fs.Contained root.pos fs g.fs
  bufs : ∀ e ∈ g.bufs, HexTid e.2.info

variable {fs : FileSystem} {g : Gui}

theorem Kept.bufFor (I : Kept root fs g) (key : Json × Str) {chunk : List (Str × Json)}
    (htid : HexTid chunk) : Kept root fs (g.bufFor key chunk).2
      ∧ HexTid (g.bufFor key chunk).1.info := by
  unfold Gui.bufFor
  split
  · rename_i e hfind
    exact ⟨I, I.bufs e (List.mem_of_find?_eq_some hfind)⟩
  · refine ⟨⟨I.fs, ?_⟩, htid⟩
    intro e he
    rcases List.mem_append.1 he with he | he
    · exact I.bufs e he
    · rw [List.mem_singleton.1 he]
      exact htid

theorem Kept.addChunk (I : Kept root fs g) (node : Text) (ev : RecvEvent) {key : Json × Str}
    (hconv : ConvOk root key.1) {buf : FileBuf} (htid : HexTid buf.info) (index : ℕ) (data : Bytes) :
    Kept root fs (g.addChunk L root node ev key buf index data).2 := by
  unfold Gui.addChunk
  simp only []
  have hmap : ∀ e ∈ g.bufs.map (fun e => if sameKey e.1 key = true
      then (e.1, { buf with chunks := setChunk buf.chunks index data }) else e),
      HexTid e.2.info := by
    intro e he
    obtain ⟨e', he', rfl⟩ := List.mem_map.1 he
    split
    · exact htid
    · exact I.bufs e' he'
  generalize g.bufs.map _ = bufs at hmap ⊢
  split
  · have htid' : HexTid { buf with chunks := setChunk buf.chunks index data }.info := htid
    have hfin := finalizeAttachment_contained (L := L) { g with bufs } hconv node htid' ev.seqOrZero
      (ev.ts.getD 0).toInt
    rcases hrun : finalizeAttachment L root { g with bufs } key.1 node _ _ _ with ⟨e | _, g'⟩
    · rw [hrun] at hfin
      exact ⟨I.fs.trans hfin.1, by rw [hfin.2]; exact hmap⟩
    · rw [hrun] at hfin
      refine ⟨I.fs.trans hfin.1, fun e he => ?_⟩
      have he := (List.mem_filter.1 he).1
      rw [hfin.2] at he
      exact hmap e he
  · exact ⟨I.fs, hmap⟩

theorem Kept.incomingFile (I : Kept root fs g) {node : Text} {key : Bytes}
    (hnode : Hex.decode node = .ok key) {ev : RecvEvent}
    (hev : ∀ payload, ev.payload = some payload → PayloadConfined L root payload) :
    Kept root fs (g.incomingFile L root node ev).2 := by
  unfold Gui.incomingFile
  split
  · exact I
  rename_i parsed chunk hchunk
  obtain ⟨payload, hpayload, hchecked⟩ := Option.bind_eq_some_iff.1 hchunk
  have hconv := convOk_getOr hnode fun s => hev payload hpayload parsed chunk s hchecked
  have htid := hexTid_of_checked hchecked
  generalize getOr chunk Field.conv (.str (Python.str node)) = conv at hconv ⊢
  simp only []
  split
  · exact I
  obtain ⟨I', htid'⟩ := I.bufFor (conv, Python.str (Hex.encode parsed.tid)) htid
  split
  · exact I'
  split
  · exact I'
  · exact I'.addChunk node ev hconv htid' _ _

/-- What the loop has collected once it has a chunk: the last chunk that was checked gives the
conversation and the transfer id. -/
theorem collectChunks_info {node : Text} {key : Bytes} (hnode : Hex.decode node = .ok key)
    {entries : List AttachEntry} (hall : ∀ e ∈ entries, PayloadConfined L root e.payload) :
    ∀ {buf buf' : FileBuf} {seq seq' : ℕ} {ts ts' : ℤ},
      collectChunks L entries buf seq ts = .ok (buf', seq', ts') →
      (buf.chunks ≠ [] → HexTid buf.info
        ∧ ConvOk root (getOr buf.info Field.conv (.str (Python.str node)))) →
      buf'.chunks ≠ [] → HexTid buf'.info
        ∧ ConvOk root (getOr buf'.info Field.conv (.str (Python.str node))) := by
  induction entries with
  | nil =>
    intro buf buf' seq seq' ts ts' h hbuf
    cases h
    exact hbuf
  | cons entry entries ih =>
    intro buf buf' seq seq' ts ts' h hbuf
    have hrest := fun e he => hall e (List.mem_cons_of_mem entry he)
    rw [collectChunks] at h
    split at h
    · exact ih hrest h hbuf
    · rename_i parsed chunk hchecked
      split at h
      · cases h
      · refine ih hrest h fun _ => ⟨hexTid_of_checked hchecked, convOk_getOr hnode fun s => ?_⟩
        exact hall entry List.mem_cons_self parsed chunk s hchecked

theorem Kept.processFetchedTransfer (I : Kept root fs g) {node : Text} {key : Bytes}
    (hnode : Hex.decode node = .ok key) (tid : Text) {entries : List AttachEntry}
    (hall : ∀ e ∈ entries, PayloadConfined L root e.payload) :
    Kept root fs (g.processFetchedTransfer L root node tid entries).2 := by
  unfold Gui.processFetchedTransfer
  split
  · exact I
  rename_i buf seq ts hcollect
  split
  · exact I
  rename_i hne
  obtain ⟨htid, hconv⟩ := collectChunks_info hnode hall hcollect (fun h => absurd rfl h) hne
  have hfin := finalizeAttachment_contained (L := L) g hconv node htid seq ts
  simp only []
  rcases hrun : finalizeAttachment L root g _ node buf seq ts with ⟨e | _, g'⟩
  · rw [hrun] at hfin
    exact ⟨I.fs.trans hfin.1, by rw [hfin.2]; exact I.bufs⟩
  · rw [hrun] at hfin
    exact ⟨I.fs.trans hfin.1, by rw [hfin.2]; exact I.bufs⟩

end Gui

/-- Every conversation that a chunk of the move names is confined. -/
def FileMove.Confined (L : Libs) (root : AttachmentsDir) : FileMove → Prop
  | .live _ _ _ payload => Gui.PayloadConfined L root (Base64.encode payload)
  | .fetched _ _ entries => ∀ e ∈ entries, Gui.PayloadConfined L root e.payload

namespace Gui

variable {L : Libs} {root : AttachmentsDir} {fs : FileSystem} {g : Gui}

/-- What `_store_attachment` wrote is there. -/
theorem storeAttachment_read {fs fs' : FileSystem} {conv filename : Json} {tid path : Str}
    {data : Bytes} (h : storeAttachment root fs conv tid filename data = (.ok path, fs')) :
    fs'.read (Posix.resolve slash period root.cwd path) = some data := by
  unfold storeAttachment at h
  cases conv with
  | str conv =>
    dsimp only at h
    split at h
    · cases h
    cases filename with
    | str filename =>
      dsimp only at h
      split at h
      · cases h
      rename_i fs₁ hwrite
      split at h
      · cases h
      rename_i fs₂ hreplace
      cases h
      exact Posix.Fs.read_replace hwrite hreplace
    | _ => cases h
  | _ => cases h

theorem Kept.step (I : Kept root fs g) {m : FileMove} (hm : m.Confined L root) :
    Kept root fs (g.step L root m) := by
  cases m with
  | live sender seq ts payload =>
    simp only [Gui.step, Event.toRecv]
    refine I.incomingFile (Hex.decode_encode sender) fun t ht => ?_
    simp only [Event.toRecv.recvEvent] at ht
    split at ht
    · cases ht
    · cases ht
      exact hm
  | fetched node tid entries =>
    simp only [Gui.step]
    split
    · exact I
    · rename_i key hkey
      exact I.processFetchedTransfer (decode_of_decodeFromKey hkey) tid hm

theorem Kept.run (moves : List FileMove) :
    ∀ {g : Gui}, Kept root fs g → (∀ m ∈ moves, m.Confined L root) →
      Kept root fs (g.run L root moves) := by
  induction moves with
  | nil => exact fun I _ => I
  | cons m moves ih =>
    intro g I hall
    have hm := hall m List.mem_cons_self
    exact ih (I.step hm) fun m' hm' => hall m' (List.mem_cons_of_mem m hm')

/-- In every run of file events whose chunks name confined conversations only, every file written
is strictly below the attachment directory, and so is every directory made, apart from the
attachment directory and those above it, where they were missing. -/
theorem attachments_stay_inside (L : Libs) (root : AttachmentsDir) (fs : FileSystem) (st : Store)
    (hcreated : fs.created = []) (hwritten : fs.written = []) (moves : List FileMove)
    (hmet : ∀ m ∈ moves, m.Confined L root) :
    ∀ pre, pre <+: moves →
      (∀ x ∈ (run L root { fs, store := st } pre).fs.written, Inside root.pos x)
      ∧ ∀ x ∈ (run L root { fs, store := st } pre).fs.created,
        Inside root.pos x ∨ x <+: root.pos ∧ x ∉ fs.dirs := by
  intro pre hpre
  have hstart : Kept root fs ({ fs, store := st } : Gui) :=
    ⟨Posix.Fs.Contained.refl _ _, fun e he => nomatch he⟩
  have I := hstart.run (L := L) pre fun m hm => hmet m (hpre.subset hm)
  refine ⟨fun x hx => ?_, fun x hx => ?_⟩
  · rcases I.fs.written x hx with h | h
    · rw [hwritten] at h
      cases h
    · exact h
  · rcases I.fs.created x hx with h | ⟨hnot, hline⟩
    · rw [hcreated] at h
      cases h
    · exact hline.inside_or.imp_right fun h => ⟨h, hnot⟩

/-- An identity to which every sealed payload is the one, empty chunk of a file named `f`, for the
given conversation. -/
def chunkLibs (conv : Text) : Libs where
  sealOpen sealed := some (sealed.drop 48)
  verifies _ _ _ := true
  loads _ := .ok (.obj [(Field.transferId, .str (Python.str (Hex.encode (List.replicate 16 0)))),
    (Field.index, .int 0), (Field.total, .int 1), (Field.filename, .str (Python.str ['f'])),
    (Field.sha256, .str (Python.str (Hex.encode emptyDigest))), (Field.data, .str []),
    (Field.conv, .str (Python.str conv))])
  loadsBytes _ := .ok (.obj [(Field.kind, .str Kind.file.name),
    (Field.sender, .str (Python.str (Hex.encode (List.replicate 32 9)))),
    (Field.body, .str (Python.str ['b'])),
    (Field.sig, .str (Python.str (Base64.encode (List.replicate 64 0))))])
  dumps _ := .ok []
  sha256 _ := emptyDigest
  realText _ := []
where
  /-- SHA-256 of the empty string. -/
  emptyDigest : Bytes :=
    [0xe3, 0xb0, 0xc4, 0x42, 0x98, 0xfc, 0x1c, 0x14, 0x9a, 0xfb, 0xf4, 0xc8, 0x99, 0x6f, 0xb9, 0x24,
      0x27, 0xae, 0x41, 0xe4, 0x64, 0x9b, 0x93, 0x4c, 0xa4, 0x95, 0x99, 0x1b, 0x78, 0x52, 0xb8, 0x55]

/-- `/h/client/attachments`. -/
def homeDir : AttachmentsDir where
  path := Python.str ['/', 'h', '/', 'c', 'l', 'i', 'e', 'n', 't', '/', 'a', 't', 't', 'a', 'c', 'h',
    'm', 'e', 'n', 't', 's']
  cwd := []
  path_ne_nil := by decide
  noParent := by decide +kernel

/-- A live event with the one chunk of `chunkLibs`. -/
def chunkMove : FileMove :=
  .live (List.replicate 32 7) 1 5 (List.replicate 16 0 ++ [0, 0, 1, 0] ++ List.replicate 48 0)

/-- A file for a room, whose id is hex. -/
theorem attachments_stay_inside_room :
    let L := chunkLibs ['c', 'a', 'f', 'e']
    chunkMove.Confined L homeDir
      ∧ (run L homeDir {} [chunkMove]).fs.written.length = 2
      ∧ ∀ x ∈ (run L homeDir {} [chunkMove]).fs.written, Inside homeDir.pos x := by
  intro L
  have hmet : chunkMove.Confined L homeDir := by
    have hplain : homeDir.Confined (Python.str ['c', 'a', 'f', 'e']) :=
      homeDir.confined_of_plain (plain_of_decode (b := [0xca, 0xfe]) rfl)
    intro parsed chunk s hchecked hconv _
    cases hchecked
    cases hconv
    exact hplain
  refine ⟨hmet, by decide +kernel, ?_⟩
  exact (attachments_stay_inside L homeDir {} {} rfl rfl [chunkMove]
    (by simpa using hmet) [chunkMove] (List.prefix_refl _)).1

/-- A file for the conversation `../../x` is written to `/h/x`, and one for `/etc` to `/etc`. -/
theorem attachments_escape :
    (¬ ∀ x ∈ (run (chunkLibs ['.', '.', '/', '.', '.', '/', 'x']) homeDir {} [chunkMove]).fs.written,
        Inside homeDir.pos x)
      ∧ ¬ ∀ x ∈ (run (chunkLibs ['/', 'e', 't', 'c']) homeDir {} [chunkMove]).fs.written,
        Inside homeDir.pos x := by
  constructor
  · decide +kernel
  · decide +kernel

end Gui

end Aimless
