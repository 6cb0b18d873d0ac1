import Aimless.Proofs.Seal
import Aimless.Proofs.Transfers

/-!
# Who sent the parts of a file

Chunks that come in live are collected by the conversation and the transfer id they name, and a
complete file is stored as from the node whose chunk completed it.  Two nodes that name the same
conversation and transfer id fill one buffer (`file_of_two_nodes`).  In a run in which every chunk
that goes into a buffer under way is from the node and the client key of the chunks before it, each
file that is stored is from one node and one key (`files_of_one_source`).
-/

namespace Python.Json

/-- Keys are equal as `None`, as strings, or as numbers. -/
theorem keyEq_iff {a b : Json} : a.keyEq b = true ↔ (a = .null ∧ b = .null)
    ∨ (∃ s, a = .str s ∧ b = .str s)
    ∨ ∃ x, x ≠ .nan ∧ a.number = some x ∧ b.number = some x := by
  unfold keyEq
  split
  · simp [number]
  · rename_i s t
    simp [number, eq_comm]
  · rename_i a b hnull hstr
    constructor
    · intro h
      simp only [Bool.and_eq_true, decide_eq_true_eq, Option.isSome_iff_exists] at h
      obtain ⟨⟨⟨x, hx⟩, hnan⟩, heq⟩ := h
      exact .inr (.inr ⟨x, fun hn => hnan (hn ▸ hx), hx, heq ▸ hx⟩)
    · rintro (⟨rfl, rfl⟩ | ⟨s, rfl, rfl⟩ | ⟨x, hx, ha, hb⟩)
      · exact (hnull rfl rfl).elim
      · exact (hstr s s rfl rfl).elim
      · simp [ha, hb, hx]

theorem keyEq_symm {a b : Json} (h : a.keyEq b = true) : b.keyEq a = true := by
  rw [keyEq_iff] at h ⊢
  rcases h with ⟨ha, hb⟩ | ⟨s, ha, hb⟩ | ⟨x, hx, ha, hb⟩
  · exact .inl ⟨hb, ha⟩
  · exact .inr (.inl ⟨s, hb, ha⟩)
  · exact .inr (.inr ⟨x, hx, hb, ha⟩)

theorem keyEq_trans {a b c : Json} (h : a.keyEq b = true) (h' : b.keyEq c = true) :
    a.keyEq c = true := by
  rw [keyEq_iff] at h h' ⊢
  rcases h with ⟨ha, rfl⟩ | ⟨s, ha, rfl⟩ | ⟨x, hx, ha, hb⟩
  · rcases h' with ⟨-, hc⟩ | ⟨s, hs, -⟩ | ⟨x, -, hx, -⟩
    · exact .inl ⟨ha, hc⟩
    · cases hs
    · cases hx
  · rcases h' with ⟨hs, -⟩ | ⟨t, ht, hc⟩ | ⟨x, -, hx, -⟩
    · cases hs
    · cases ht
      exact .inr (.inl ⟨s, ha, hc⟩)
    · cases hx
  · rcases h' with ⟨rfl, -⟩ | ⟨s, rfl, -⟩ | ⟨y, -, hy, hc⟩
    · cases hb
    · cases hb
    · rw [hb] at hy
      cases hy
      exact .inr (.inr ⟨x, hx, ha, hc⟩)

end Python.Json

namespace Aimless

open Python (Str Exc Json Dict)

theorem sameKey_symm {a b : Json × Str} (h : sameKey a b = true) : sameKey b a = true := by
  simp only [sameKey, Bool.and_eq_true, decide_eq_true_eq] at h ⊢
  exact ⟨Json.keyEq_symm h.1, h.2.symm⟩

theorem sameKey_trans {a b c : Json × Str} (h : sameKey a b = true) (h' : sameKey b c = true) :
    sameKey a c = true := by
  simp only [sameKey, Bool.and_eq_true, decide_eq_true_eq] at h h' ⊢
  exact ⟨Json.keyEq_trans h.1 h'.1, h.2.trans h'.2⟩

/-! ### The key that signed a chunk -/

/-- The client key that the chunk names. -/
def chunkKey (chunk : List (Str × Json)) : Option Bytes :=
  match Python.get? chunk Field.sender with
  | some (.str s) => (Python.fromHex s).toOption
  | _ => none

/-- The signature of a file payload verifies under the key. -/
def Signed (L : Libs) (key : Bytes) (payload : Str) : Prop :=
  ∃ parsed s body obj, parseFilePayload payload = .ok parsed
    ∧ OpensAs L .file parsed.sealed (.str s) body obj ∧ Python.fromHex s = .ok key

theorem verify_key {L : Libs} {sender sig : Json} {bytes : Bytes}
    (h : verify L sender bytes sig = .ok true) :
    ∃ s key, sender = .str s ∧ Python.fromHex s = .ok key := by
  unfold verify at h
  cases sender with
  | str s =>
    dsimp only at h
    rcases hkey : Python.fromHex s with e | key
    · rw [hkey] at h
      cases h
    · exact ⟨s, key, rfl, hkey⟩
  | _ => cases h

/-- A chunk that was checked is signed by the key that it names. -/
theorem checkedChunk_signed {L : Libs} {payload : Str} {parsed : FilePayload}
    {chunk : List (Str × Json)} (h : checkedChunk L payload = some (parsed, chunk)) :
    ∃ key, chunkKey chunk = some key ∧ Signed L key payload := by
  unfold checkedChunk at h
  split at h
  · cases h
  rename_i parsed' hparsed
  split at h
  · cases h
  rename_i chunk' hopen
  split at h
  on_goal 2 => cases h
  cases h
  obtain ⟨sender, fields, hsealed, rfl⟩ := openFileChunk_eq_ok.1 hopen
  obtain ⟨body, hopens⟩ := openSealed_eq_ok.1 hsealed
  obtain ⟨inner, msg, -, -, -, -, -, sig, bytes, -, -, hverify⟩ := hopens.wrapped
  obtain ⟨s, key, rfl, hkey⟩ := verify_key hverify
  refine ⟨key, ?_, parsed, s, body, _, hparsed, hopens, hkey⟩
  simp [chunkKey, Python.get?, hkey, Except.toOption]

/-- A live file event. -/
structure LiveFile where
  sender : PublicKey
  seq : UInt64
  ts : Int64
  payload : Bytes

namespace LiveFile

/-- The sender as the window knows it. -/
def node (e : LiveFile) : Text := Hex.encode e.sender

def move (e : LiveFile) : FileMove := .live e.sender e.seq e.ts e.payload

/-- The event as it comes over the socket. -/
def recv (e : LiveFile) : RecvEvent := Event.toRecv.recvEvent true e.sender e.seq e.ts e.payload

/-- The chunk that the event carries. -/
def chunk (L : Libs) (e : LiveFile) : Option (FilePayload × List (Str × Json)) :=
  checkedChunk L (Python.str (Base64.encode e.payload))

/-- The buffer that a chunk of the event goes to. -/
def key (e : LiveFile) (parsed : FilePayload) (chunk : List (Str × Json)) : Json × Str :=
  (Gui.chunkConv e.node chunk, Python.str (Hex.encode parsed.tid))

theorem payload_bind (L : Libs) (e : LiveFile) :
    (e.recv.payload.bind fun payload => checkedChunk L (Python.str payload)) = e.chunk L := by
  unfold recv Event.toRecv.recvEvent chunk
  by_cases hnil : e.payload = []
  · simp only [hnil, if_true, Option.bind_none]
    rfl
  · simp only [hnil, if_false, Option.bind_some]

end LiveFile

namespace Gui

variable {L : Libs} {root : AttachmentsDir} {g : Gui}

/-- The window after live file events. -/
def runLive (L : Libs) (root : AttachmentsDir) (g : Gui) (events : List LiveFile) : Gui :=
  events.foldl (fun g e => g.step L root e.move) g

/-- The buffer that the event completes, with its key. -/
def completed (L : Libs) (g : Gui) (e : LiveFile) : Option ((Json × Str) × FileBuf) :=
  match e.chunk L with
  | none => none
  | some (parsed, chunk) =>
    let key := e.key parsed chunk
    let buf := (g.bufFor key chunk).1
    if key.1.hashable = false ∨ buf.failed then none
    else
      match chunkData chunk with
      | .error _ => none
      | .ok data =>
        let buf := { buf with chunks := setChunk buf.chunks parsed.index data }
        if buf.total.eqInt buf.chunks.length then some (key, buf) else none

/-- A part of a buffer that the event's chunk goes to: it was in a buffer of the same key, or is the
chunk's own data. -/
def PartOf (g : Gui) (key : Json × Str) (parsed : FilePayload) (chunk : List (Str × Json))
    (part : ℕ × Bytes) : Prop :=
  (∃ y ∈ g.bufs, sameKey y.1 key = true ∧ part ∈ y.2.chunks)
    ∨ parsed.index = part.1 ∧ chunkData chunk = .ok part.2

theorem bufFor_parts (key : Json × Str) (chunk : List (Str × Json)) :
    (∀ part ∈ (g.bufFor key chunk).1.chunks, ∃ y ∈ g.bufs, sameKey y.1 key = true ∧ part ∈ y.2.chunks)
      ∧ ∀ x ∈ (g.bufFor key chunk).2.bufs, x ∈ g.bufs ∨ x.2.chunks = [] := by
  unfold bufFor
  split
  · rename_i y hy
    refine ⟨fun part hpart => ⟨y, List.mem_of_find?_eq_some hy, ?_, hpart⟩, fun x hx => .inl hx⟩
    simpa using List.find?_some hy
  · refine ⟨fun part hpart => absurd hpart List.not_mem_nil, fun x hx => ?_⟩
    rcases List.mem_append.1 hx with hx | hx
    · exact .inl hx
    · rw [List.mem_singleton.1 hx]
      exact .inr rfl

theorem addChunk_bufs {node : Text} {ev : RecvEvent} {key : Json × Str} {buf : FileBuf}
    {index : ℕ} {data : Bytes} {x : (Json × Str) × FileBuf}
    (hx : x ∈ (g.addChunk L root node ev key buf index data).2.bufs) : ∃ y ∈ g.bufs,
      x = if sameKey y.1 key then (y.1, { buf with chunks := setChunk buf.chunks index data })
        else y := by
  unfold addChunk at hx
  dsimp only at hx
  set buf' : FileBuf := { buf with chunks := setChunk buf.chunks index data }
  set g' : Gui := { g with
    bufs := g.bufs.map fun e => if sameKey e.1 key then (e.1, buf') else e }
  have hmem : x ∈ g'.bufs := by
    split at hx
    · have hbufs := finalizeAttachment_bufs L root g' key.1 node buf' ev.seqOrZero
        (ev.ts.getD 0).toInt
      split at hx <;> rename_i heq <;> rw [heq] at hbufs
      · exact hbufs ▸ hx
      · exact hbufs ▸ (List.mem_filter.1 hx).1
    · exact hx
  obtain ⟨y, hy, rfl⟩ := List.mem_map.1 hmem
  exact ⟨y, hy, rfl⟩

/-- What the event does to the buffers: none comes to hold parts other than from buffers of the key
and from the chunk. -/
theorem step_bufs (root : AttachmentsDir) (g : Gui) (e : LiveFile) {x : (Json × Str) × FileBuf}
    (hx : x ∈ (g.step L root e.move).bufs) : x ∈ g.bufs ∨ ∀ part ∈ x.2.chunks,
      ∃ parsed chunk, e.chunk L = some (parsed, chunk) ∧ sameKey x.1 (e.key parsed chunk) = true
        ∧ PartOf g (e.key parsed chunk) parsed chunk part := by
  change x ∈ (g.incomingFile L root e.node e.recv).2.bufs at hx
  unfold incomingFile at hx
  rw [e.payload_bind L] at hx
  rcases hchunk : e.chunk L with _ | ⟨parsed, chunk⟩
  · rw [hchunk] at hx
    exact .inl hx
  rw [hchunk] at hx
  dsimp only at hx
  split at hx
  · exact .inl hx
  change x ∈ (if (g.bufFor (e.key parsed chunk) chunk).1.failed then _ else _ : _ × Gui).2.bufs at hx
  set key := e.key parsed chunk
  obtain ⟨hparts, hbufs⟩ := g.bufFor_parts key chunk
  -- a buffer that was opened just now is empty
  have hopened : ∀ y ∈ (g.bufFor key chunk).2.bufs, y ∈ g.bufs ∨ ∀ part ∈ y.2.chunks,
      ∃ parsed' chunk', some (parsed, chunk) = some (parsed', chunk')
        ∧ sameKey y.1 (e.key parsed' chunk') = true
        ∧ PartOf g (e.key parsed' chunk') parsed' chunk' part := by
    intro y hy
    refine (hbufs y hy).imp_right fun hnil part hpart => ?_
    rw [hnil] at hpart
    exact absurd hpart List.not_mem_nil
  split at hx
  · exact hopened x hx
  rcases hdata : chunkData chunk with err | data
  · rw [hdata] at hx
    exact hopened x hx
  rw [hdata] at hx
  obtain ⟨y, hy, rfl⟩ := addChunk_bufs hx
  split
  · rename_i hsame
    refine .inr fun part hpart => ⟨parsed, chunk, rfl, hsame, ?_⟩
    rcases mem_setChunk hpart with hpart | rfl
    · exact .inl (hparts part hpart)
    · exact .inr ⟨rfl, hdata⟩
  · exact hopened y hy

/-- The parts of a buffer that is complete. -/
theorem completed_parts {e : LiveFile} {key : Json × Str} {buf : FileBuf}
    (h : completed L g e = some (key, buf)) : ∃ parsed chunk, e.chunk L = some (parsed, chunk)
      ∧ key = e.key parsed chunk ∧ ∀ part ∈ buf.chunks, PartOf g key parsed chunk part := by
  unfold completed at h
  rcases hchunk : e.chunk L with _ | ⟨parsed, chunk⟩
  · rw [hchunk] at h
    cases h
  rw [hchunk] at h
  dsimp only at h
  split at h
  · cases h
  rcases hdata : chunkData chunk with err | data
  · rw [hdata] at h
    cases h
  rw [hdata] at h
  dsimp only at h
  split at h
  · cases h
    refine ⟨parsed, chunk, rfl, rfl, fun part hpart => ?_⟩
    rcases mem_setChunk hpart with hpart | rfl
    · exact .inl ((g.bufFor_parts _ chunk).1 part hpart)
    · exact .inr ⟨rfl, hdata⟩
  · cases h

/-- From the one state of the window to the other, a file was written with the given bytes, and
handed to the store as from the node: a row that came in is the node's. -/
def StoredFrom (L : Libs) (root : AttachmentsDir) (g g' : Gui) (node : Text) (rebuilt : Bytes) :
    Prop :=
  ∃ path conv seq ts filename rest isNew,
    g'.fs.read (Posix.resolve slash period root.cwd path) = some rebuilt
      ∧ g.store.ingest L conv node seq (.int ts) filename
          (some ((.str (Python.str ['p', 'a', 't', 'h']), .str path) :: rest))
        = (.ok isNew, g'.store)
      ∧ ∀ row ∈ g'.store.messages, row ∈ g.store.messages ∨ row.sender = Python.str node

theorem finalizeAttachment_acks {conv : Json} {node : Text} {buf : FileBuf} {seq : ℕ} {ts : ℤ}
    (h : (g.finalizeAttachment L root conv node buf seq ts).2.acks ≠ g.acks) :
    ∃ rebuilt, reassembleFile buf.chunks buf.total = .ok (some rebuilt)
      ∧ StoredFrom L root g (g.finalizeAttachment L root conv node buf seq ts).2 node rebuilt := by
  obtain ⟨r, hr⟩ : ∃ r, g.finalizeAttachment L root conv node buf seq ts = r := ⟨_, rfl⟩
  rw [hr] at h ⊢
  unfold finalizeAttachment at hr
  split at hr
  · subst hr
    exact absurd rfl h
  · subst hr
    exact absurd rfl h
  rename_i rebuilt hrebuilt
  refine ⟨rebuilt, hrebuilt, ?_⟩
  dsimp only at hr
  split at hr
  · subst hr
    exact absurd rfl h
  split at hr
  on_goal 2 =>
    subst hr
    exact absurd rfl h
  split at hr
  · subst hr
    exact absurd rfl h
  rename_i path fs hwrite
  split at hr
  · subst hr
    exact absurd rfl h
  rename_i isNew store hingest
  subst hr
  exact ⟨path, conv, seq, ts, _, _, isNew, storeAttachment_read hwrite, hingest,
    Store.sender_of_ingest hingest⟩

variable (L root) in
theorem addChunk_acks {node : Text} {ev : RecvEvent} (key : Json × Str) {buf : FileBuf}
    {index : ℕ} {data : Bytes}
    (h : (g.addChunk L root node ev key buf index data).2.acks ≠ g.acks) :
    buf.total.eqInt (setChunk buf.chunks index data).length = true
      ∧ ∃ rebuilt, reassembleFile (setChunk buf.chunks index data) buf.total = .ok (some rebuilt)
        ∧ StoredFrom L root g (g.addChunk L root node ev key buf index data).2 node rebuilt := by
  unfold addChunk at h ⊢
  dsimp only at h ⊢
  split at h
  on_goal 2 => exact absurd rfl h
  rename_i htotal
  refine ⟨htotal, ?_⟩
  rw [if_pos htotal]
  set buf' : FileBuf := { buf with chunks := setChunk buf.chunks index data }
  set g' : Gui := { g with
    bufs := g.bufs.map fun e => if sameKey e.1 key then (e.1, buf') else e }
  have hacks : (g'.finalizeAttachment L root key.1 node buf' ev.seqOrZero
      (ev.ts.getD 0).toInt).2.acks ≠ g'.acks := by
    split at h <;> rename_i heq <;> rw [heq]
    · exact h
    · exact h
  obtain ⟨rebuilt, hrebuilt', hstored⟩ := finalizeAttachment_acks hacks
  refine ⟨rebuilt, hrebuilt', ?_⟩
  split <;> rename_i heq <;> rw [heq] at hstored <;> exact hstored

/-- A file is stored, and an `ackfile` request made for it, only when an event completes a buffer;
it is the buffer's parts joined, stored as from the event's node. -/
theorem completed_of_acks {e : LiveFile} (h : (g.step L root e.move).acks ≠ g.acks) :
    ∃ key buf rebuilt, completed L g e = some (key, buf)
      ∧ reassembleFile buf.chunks buf.total = .ok (some rebuilt)
      ∧ StoredFrom L root g (g.step L root e.move) e.node rebuilt := by
  change (g.incomingFile L root e.node e.recv).2.acks ≠ g.acks at h
  change ∃ key buf rebuilt, _ ∧ _ ∧ StoredFrom L root g (g.incomingFile L root e.node e.recv).2 _ _
  unfold incomingFile at h ⊢
  rw [e.payload_bind L] at h ⊢
  unfold completed
  rcases hchunk : e.chunk L with _ | ⟨parsed, chunk⟩ <;> rw [hchunk] at h
  · exact absurd rfl h
  dsimp only at h ⊢
  split at h
  · exact absurd rfl h
  rename_i hhash
  rw [if_neg hhash]
  change (if (g.bufFor (e.key parsed chunk) chunk).1.failed then _ else _ : _ × Gui).2.acks ≠ _ at h
  change ∃ key buf rebuilt, _ ∧ _ ∧ StoredFrom L root g
    (if (g.bufFor (e.key parsed chunk) chunk).1.failed then _ else _ : _ × Gui).2 _ _
  set key := e.key parsed chunk
  obtain ⟨hstore, hsame⟩ : (g.bufFor key chunk).2.store = g.store
      ∧ (g.bufFor key chunk).2.acks = g.acks := by
    unfold bufFor
    split
    · exact ⟨rfl, rfl⟩
    · exact ⟨rfl, rfl⟩
  split at h
  · exact absurd hsame h
  rename_i hfailed
  rw [if_neg hfailed]
  rcases hdata : chunkData chunk with err | data <;> rw [hdata] at h
  · exact absurd hsame h
  rw [if_neg (by rintro (hno | hno); exacts [hhash hno, hfailed hno])]
  dsimp only
  obtain ⟨htotal, rebuilt, hrebuilt, hstored⟩ := addChunk_acks L root
    (g := (g.bufFor key chunk).2) key fun heq => h (heq.trans hsame)
  refine ⟨key, _, rebuilt, if_pos htotal, hrebuilt, ?_⟩
  unfold StoredFrom at hstored ⊢
  rw [hstore] at hstored
  exact hstored

/-! ### Whole runs -/

section Run

variable (L root) (g : Gui) (events : List LiveFile)

/-- A buffer of the key is there before every event from `j + 1` to `k`. -/
def UnderWay (key : Json × Str) (j k : ℕ) : Prop :=
  ∀ i, j < i → i ≤ k →
    ((runLive L root g (events.take i)).bufs.any fun y => sameKey y.1 key) = true

/-- A chunk that goes into a buffer under way is from the node and the client key of every chunk that
went into it. -/
def Unmixed : Prop :=
  ∀ j k e e' parsed chunk parsed' chunk', j < k → events[j]? = some e → events[k]? = some e' →
    e.chunk L = some (parsed, chunk) → e'.chunk L = some (parsed', chunk') →
      sameKey (e.key parsed chunk) (e'.key parsed' chunk') = true →
        UnderWay L root g events (e'.key parsed' chunk') j k →
          e.sender = e'.sender ∧ chunkKey chunk = chunkKey chunk'

/-- The part is the data of a chunk that came in before `i`, and since then the buffer has been
there. -/
def CameIn (i : ℕ) (key : Json × Str) (part : ℕ × Bytes) : Prop :=
  ∃ j e parsed chunk, j < i ∧ events[j]? = some e ∧ e.chunk L = some (parsed, chunk)
    ∧ sameKey key (e.key parsed chunk) = true ∧ parsed.index = part.1
    ∧ chunkData chunk = .ok part.2 ∧ UnderWay L root g events key j i

/-- The part is the data of a chunk of the node, signed by the key, that has come in by `k`. -/
def SentBy (k : ℕ) (sender : PublicKey) (key : Bytes) (part : ℕ × Bytes) : Prop :=
  ∃ j e parsed chunk, j ≤ k ∧ events[j]? = some e ∧ e.sender = sender
    ∧ e.chunk L = some (parsed, chunk) ∧ parsed.index = part.1 ∧ chunkData chunk = .ok part.2
    ∧ Signed L key (Python.str (Base64.encode e.payload))

variable {L root g events}

theorem any_sameKey {bufs : List ((Json × Str) × FileBuf)} {key key' : Json × Str}
    (h : sameKey key key' = true) (hany : (bufs.any fun y => sameKey y.1 key) = true) :
    (bufs.any fun y => sameKey y.1 key') = true := by
  obtain ⟨y, hy, hsame⟩ := List.any_eq_true.1 hany
  exact List.any_eq_true.2 ⟨y, hy, sameKey_trans hsame h⟩

theorem UnderWay.congr {key key' : Json × Str} {j k : ℕ} (h : UnderWay L root g events key j k)
    (hsame : sameKey key key' = true) : UnderWay L root g events key' j k :=
  fun i hj hk => any_sameKey hsame (h i hj hk)

/-- The parts of a buffer that is there came in while it was there. -/
theorem parts_cameIn (hstart : g.bufs = []) (i : ℕ) :
    ∀ x ∈ (runLive L root g (events.take i)).bufs, ∀ part ∈ x.2.chunks,
      CameIn L root g events i x.1 part := by
  induction i with
  | zero =>
    intro x hx
    simp [runLive, hstart] at hx
  | succ i ih =>
    intro x hx part hpart
    -- before the next event the buffer is there still, if it has a key that is equal to itself
    have hextend : ∀ {j : ℕ} {key : Json × Str}, sameKey x.1 key = true →
        UnderWay L root g events x.1 j i → UnderWay L root g events x.1 j (i + 1) := by
      intro j key hkey hway i' hj hi'
      rcases Nat.lt_or_eq_of_le hi' with hlt | rfl
      · exact hway i' hj (Nat.lt_succ_iff.1 hlt)
      · exact List.any_eq_true.2 ⟨x, hx, sameKey_trans hkey (sameKey_symm hkey)⟩
    have hlift : ∀ {part : ℕ × Bytes}, CameIn L root g events i x.1 part →
        CameIn L root g events (i + 1) x.1 part := by
      rintro part ⟨j, e, parsed, chunk, hj, he, hchunk, hkey, hindex, hdata, hway⟩
      exact ⟨j, e, parsed, chunk, by omega, he, hchunk, hkey, hindex, hdata, hextend hkey hway⟩
    rcases he : events[i]? with _ | e
    · rw [List.take_add_one, he, Option.toList_none, List.append_nil] at hx
      exact hlift (ih x hx part hpart)
    have hstep : runLive L root g (events.take (i + 1))
        = (runLive L root g (events.take i)).step L root e.move :=
      Runs.foldl_take_succ _ _ he
    have hx' := hx
    rw [hstep] at hx'
    rcases step_bufs root _ e hx' with hold | hnew
    · exact hlift (ih x hold part hpart)
    obtain ⟨parsed, chunk, hchunk, hkey, ⟨y, hy, hykey, hypart⟩ | ⟨hindex, hdata⟩⟩ := hnew part hpart
    · obtain ⟨j, e', parsed', chunk', hj, he', hchunk', hkey', hindex', hdata', hway⟩ :=
        ih y hy part hypart
      have hxy : sameKey y.1 x.1 = true := sameKey_trans hykey (sameKey_symm hkey)
      exact hlift ⟨j, e', parsed', chunk', hj, he', hchunk',
        sameKey_trans (sameKey_symm hxy) hkey', hindex', hdata', hway.congr hxy⟩
    · refine ⟨i, e, parsed, chunk, Nat.lt_succ_self i, he, hchunk, hkey, hindex, hdata, ?_⟩
      exact hextend hkey fun i' hj hi' => absurd hj (Nat.not_lt.2 hi')

end Run

/-- In a run in which no buffer is filled from several nodes or keys, every file that is stored is
its parts joined, is stored as from the node of the event that completed it, and all of its parts
are from that node and signed by one key. -/
theorem files_of_one_source (L : Libs) (root : AttachmentsDir) (g : Gui) (hstart : g.bufs = [])
    (events : List LiveFile) (hmet : Unmixed L root g events) (k : ℕ) (e : LiveFile)
    (he : events[k]? = some e)
    (hstored : (runLive L root g (events.take (k + 1))).acks
      ≠ (runLive L root g (events.take k)).acks) :
    ∃ key buf rebuilt, completed L (runLive L root g (events.take k)) e = some (key, buf)
      ∧ reassembleFile buf.chunks buf.total = .ok (some rebuilt)
      ∧ StoredFrom L root (runLive L root g (events.take k))
        (runLive L root g (events.take (k + 1))) e.node rebuilt
      ∧ ∃ signer, ∀ part ∈ buf.chunks, SentBy L events k e.sender signer part := by
  have hstep : runLive L root g (events.take (k + 1))
      = (runLive L root g (events.take k)).step L root e.move := Runs.foldl_take_succ _ _ he
  rw [hstep] at hstored ⊢
  obtain ⟨key, buf, rebuilt, hcompleted, hrebuilt, hfrom⟩ := completed_of_acks hstored
  obtain ⟨parsed, chunk, hchunk, rfl, hparts⟩ := completed_parts hcompleted
  obtain ⟨signer, hsigner, hsigned⟩ := checkedChunk_signed hchunk
  refine ⟨_, buf, rebuilt, hcompleted, hrebuilt, hfrom, signer, fun part hpart => ?_⟩
  rcases hparts part hpart with ⟨y, hy, hykey, hypart⟩ | ⟨hindex, hdata⟩
  · obtain ⟨j, e', parsed', chunk', hj, he', hchunk', hkey', hindex', hdata', hway⟩ :=
      parts_cameIn hstart k y hy part hypart
    obtain ⟨hsender, hkeys⟩ := hmet j k e' e parsed' chunk' parsed chunk hj he' he hchunk' hchunk
      (sameKey_trans (sameKey_symm hkey') hykey) (hway.congr hykey)
    obtain ⟨signer', hsigner', hsigned'⟩ := checkedChunk_signed hchunk'
    rw [hkeys, hsigner] at hsigner'
    cases hsigner'
    exact ⟨j, e', parsed', chunk', hj.le, he', hsender, hchunk', hindex', hdata', hsigned'⟩
  · exact ⟨k, e, parsed, chunk, le_refl k, he, rfl, hchunk, hindex, hdata, hsigned⟩

/-! ### A file in two halves -/

/-- Each half of the file names the conversation `c`. -/
def roomHalfLibs : Libs := { Receiver.halfLibs with
  loads := fun s => .ok (.obj [(Field.transferId, .str (Python.str Daemon.exampleTid)),
    (Field.index, .int (match s with | [] => 0 | c :: _ => c.val)), (Field.total, .int 2),
    (Field.filename, .str (Python.str ['f'])), (Field.conv, .str (Python.str ['c'])),
    (Field.sha256, .str (Python.str (Hex.encode chunkLibs.emptyDigest))), (Field.data, .str [])]) }

/-- A half from the node whose key is the given byte. -/
def halfFrom (sender index : UInt8) : LiveFile :=
  ⟨List.replicate 32 sender, 1, 5,
    List.replicate 16 7 ++ [index, 0, 2, 0] ++ List.replicate 48 0 ++ [index]⟩

/-- Both halves from one node. -/
theorem files_of_one_source_halves :
    let events := [halfFrom 1 0, halfFrom 1 1]
    (runLive roomHalfLibs homeDir {} events).acks.length = 1
      ∧ ∃ key buf rebuilt, completed roomHalfLibs (runLive roomHalfLibs homeDir {} (events.take 1))
          (halfFrom 1 1) = some (key, buf)
        ∧ reassembleFile buf.chunks buf.total = .ok (some rebuilt)
        ∧ StoredFrom roomHalfLibs homeDir (runLive roomHalfLibs homeDir {} (events.take 1))
          (runLive roomHalfLibs homeDir {} (events.take 2)) (halfFrom 1 1).node rebuilt
        ∧ ∃ signer, ∀ part ∈ buf.chunks,
          SentBy roomHalfLibs events 1 (List.replicate 32 1) signer part := by
  intro events
  refine ⟨by decide +kernel, ?_⟩
  have hkeys : ∀ e ∈ events, e.sender = List.replicate 32 1
      ∧ (e.chunk roomHalfLibs).map (fun c => chunkKey c.2) = some (some (List.replicate 32 9)) := by
    decide +kernel
  refine files_of_one_source roomHalfLibs homeDir {} rfl events ?_ 1 (halfFrom 1 1) rfl
    (by decide +kernel)
  intro j k e e' parsed chunk parsed' chunk' _ he he' hchunk hchunk' _ _
  obtain ⟨hsender, hkey⟩ := hkeys e (List.mem_of_getElem? he)
  obtain ⟨hsender', hkey'⟩ := hkeys e' (List.mem_of_getElem? he')
  rw [hchunk] at hkey
  rw [hchunk'] at hkey'
  exact ⟨hsender.trans hsender'.symm,
    (Option.some.inj hkey).trans (Option.some.inj hkey').symm⟩

/-- The halves are from two nodes, and the file is stored as from the second. -/
theorem file_of_two_nodes :
    let events := [halfFrom 1 0, halfFrom 2 1]
    (runLive roomHalfLibs homeDir {} events).acks
        = [(Hex.encode (List.replicate 32 2), Python.str Daemon.exampleTid)]
      ∧ ¬ ∃ key buf rebuilt, completed roomHalfLibs
          (runLive roomHalfLibs homeDir {} (events.take 1)) (halfFrom 2 1) = some (key, buf)
        ∧ reassembleFile buf.chunks buf.total = .ok (some rebuilt)
        ∧ ∃ signer, ∀ part ∈ buf.chunks,
          SentBy roomHalfLibs events 1 (List.replicate 32 2) signer part := by
  intro events
  refine ⟨by decide +kernel, ?_⟩
  rintro ⟨key, buf, rebuilt, hcompleted, -, signer, hsent⟩
  have hchunks : (completed roomHalfLibs (runLive roomHalfLibs homeDir {} (events.take 1))
      (halfFrom 2 1)).map (fun r => r.2.chunks) = some [(0, []), (1, [])] := by decide +kernel
  rw [hcompleted] at hchunks
  have hchunks : buf.chunks = [(0, []), (1, [])] := Option.some.inj hchunks
  have hfirst : (0, []) ∈ buf.chunks := by
    rw [hchunks]
    exact List.mem_cons_self
  obtain ⟨j, e, parsed, chunk, -, he, hsender, hchunk, hindex, -⟩ := hsent _ hfirst
  have hsecond : ∀ e ∈ events, e.sender = List.replicate 32 2 →
      (e.chunk roomHalfLibs).map (fun c => c.1.index) = some 1 := by decide +kernel
  have hone := hsecond e (List.mem_of_getElem? he) hsender
  rw [hchunk] at hone
  have hone : parsed.index = 1 := Option.some.inj hone
  rw [hindex] at hone
  cases hone

end Gui

end Aimless
