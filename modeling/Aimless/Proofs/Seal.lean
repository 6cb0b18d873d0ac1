import Aimless.Seal
import Aimless.Files
import Aimless.Lib.JsonRead
import Aimless.Proofs.Envelope

/-!
# Sealed payloads

The daemon and the client read the same routing header (`headers_agree`).  What is sealed for an
identity opens to what went in (`openSealed_sealBody`), and a body that was signed under one kind is
not accepted under another: the signature does not cover the kind, but each opener reads a field
that the bodies of the other kinds do not have (`kinds_apart`).
-/

namespace Aimless

open Python (Str Exc Json Dict)
open Words

/-! ### The routing header -/

/-- What is cut off a chunk: the same on both sides. -/
theorem parseFilePayload_encode (raw : Bytes) :
    parseFilePayload (Python.str (Base64.encode raw))
      = if raw.length < 20 then .error .valueError
        else if getLE (slice raw 18 20) = 0 ∨ getLE (slice raw 18 20) ≤ getLE (slice raw 16 18)
        then .error .valueError
        else .ok ⟨raw.take 16, getLE (slice raw 16 18), getLE (slice raw 18 20), raw.drop 20⟩ := by
  unfold parseFilePayload
  rw [Python.b64decode_encode]
  rfl

theorem toNat_word (raw : Bytes) {i j : ℕ} (h : i + 2 = j) :
    (UInt16.ofNat (getLE (slice raw i j))).toNat = getLE (slice raw i j) :=
  UInt16.toNat_ofNat_of_lt' (Envelope.getLE_slice_lt h)

theorem parseFileHeader_eq (raw : Bytes) :
    parseFileHeader raw
      = if raw.length < 20 then none
        else if getLE (slice raw 18 20) = 0 ∨ getLE (slice raw 18 20) ≤ getLE (slice raw 16 18)
        then none
        else some (Hex.encode (raw.take 16), UInt16.ofNat (getLE (slice raw 16 18)),
          UInt16.ofNat (getLE (slice raw 18 20))) := by
  have hzero : UInt16.ofNat (getLE (slice raw 18 20)) = 0 ↔ getLE (slice raw 18 20) = 0 := by
    rw [← UInt16.toNat_inj, toNat_word raw rfl, UInt16.toNat_zero]
  have hge : UInt16.ofNat (getLE (slice raw 16 18)) ≥ UInt16.ofNat (getLE (slice raw 18 20))
      ↔ getLE (slice raw 18 20) ≤ getLE (slice raw 16 18) := by
    rw [ge_iff_le, UInt16.le_iff_toNat_le, toNat_word raw rfl, toNat_word raw rfl]
  unfold parseFileHeader
  simp only [hzero, hge]
  rfl

/-- What the client reads of a chunk, against what the daemon reads. -/
def SameHeader (parsed : FilePayload) (header : Text × UInt16 × UInt16) : Prop :=
  header.1 = Hex.encode parsed.tid ∧ header.2.1.toNat = parsed.index
    ∧ header.2.2.toNat = parsed.total

theorem fileHeader_ok {tid : Bytes} {index total : ℤ} (htid : tid.length = 16) (h0 : 0 ≤ index)
    (hlt : index < total) (hmax : total ≤ 65535) :
    fileHeader tid index total = .ok (tid ++ putLE 2 index.toNat ++ putLE 2 total.toNat) := by
  unfold fileHeader
  rw [if_neg (by simp [htid]), if_neg (by simp [h0, hlt]), if_neg (by omega)]

/-- A header in front of a sealed chunk is read back by the client. -/
theorem parse_fileHeader {tid : Bytes} {index total : ℤ} (htid : tid.length = 16) (h0 : 0 ≤ index)
    (hlt : index < total) (hmax : total ≤ 65535) (sealed : Bytes) :
    parseFilePayload (Python.str (Base64.encode
        (tid ++ putLE 2 index.toNat ++ putLE 2 total.toNat ++ sealed)))
      = .ok ⟨tid, index.toNat, total.toNat, sealed⟩ := by
  set raw := tid ++ putLE 2 index.toNat ++ putLE 2 total.toNat ++ sealed with hraw
  have hindex : slice raw 16 18 = putLE 2 index.toNat := by
    rw [hraw, List.append_assoc _ (putLE 2 total.toNat)]
    exact slice_append htid (by simp)
  have htotal : slice raw 18 20 = putLE 2 total.toNat :=
    slice_append (by simp [htid]) (by simp)
  have hlen : 20 ≤ raw.length := by
    simp only [hraw, List.length_append, htid, length_putLE]
    omega
  have htake : raw.take 16 = tid := by
    rw [hraw, List.append_assoc, List.append_assoc, List.take_left' htid]
  have hdrop : raw.drop 20 = sealed := by
    rw [hraw, List.drop_left' (by simp [htid])]
  rw [parseFilePayload_encode, if_neg (by omega), hindex, htotal,
    getLE_putLE 2 _ (by norm_num; omega), getLE_putLE 2 _ (by norm_num; omega), if_neg (by omega),
    htake, hdrop]

/-- What the daemon reads of a chunk that the client can read. -/
theorem parseFileHeader_of_parse {raw : Bytes} {parsed : FilePayload}
    (h : parseFilePayload (Python.str (Base64.encode raw)) = .ok parsed) :
    parseFileHeader raw
      = some (Hex.encode parsed.tid, UInt16.ofNat parsed.index, UInt16.ofNat parsed.total) := by
  rw [parseFilePayload_encode] at h
  rw [parseFileHeader_eq]
  split_ifs at h ⊢
  cases h
  rfl

/-- The daemon and the client accept the same chunks and read the same header, which is the one
`file_header` writes. -/
theorem headers_agree :
    (∀ raw : Bytes,
      ((∃ header, parseFileHeader raw = some header)
        ↔ ∃ parsed, parseFilePayload (Python.str (Base64.encode raw)) = .ok parsed)
      ∧ ∀ header parsed, parseFileHeader raw = some header →
        parseFilePayload (Python.str (Base64.encode raw)) = .ok parsed → SameHeader parsed header)
    ∧ (∀ (tid : Bytes) (index total : ℤ) (sealed : Bytes), tid.length = 16 → 0 ≤ index →
      index < total → total ≤ 65535 → ∃ header, fileHeader tid index total = .ok header
        ∧ (∃ read, parseFileHeader (header ++ sealed) = some read)
        ∧ parseFilePayload (Python.str (Base64.encode (header ++ sealed)))
          = .ok ⟨tid, index.toNat, total.toNat, sealed⟩)
    ∧ ∀ (raw : Bytes) (parsed : FilePayload),
      parseFilePayload (Python.str (Base64.encode raw)) = .ok parsed →
        ∃ header, fileHeader parsed.tid parsed.index parsed.total = .ok header
          ∧ header ++ parsed.sealed = raw := by
  have hsame : ∀ raw : Bytes, (∃ header, parseFileHeader raw = some header)
      ↔ ∃ parsed, parseFilePayload (Python.str (Base64.encode raw)) = .ok parsed := by
    intro raw
    rw [parseFileHeader_eq, parseFilePayload_encode]
    split_ifs <;> simp
  refine ⟨fun raw => ⟨hsame raw, fun header parsed hh hp => ?_⟩, ?_, ?_⟩
  · rw [parseFileHeader_eq] at hh
    rw [parseFilePayload_encode] at hp
    split_ifs at hh hp
    cases hh
    cases hp
    exact ⟨rfl, toNat_word raw rfl, toNat_word raw rfl⟩
  · intro tid index total sealed htid h0 hlt hmax
    have hparse := parse_fileHeader htid h0 hlt hmax sealed
    exact ⟨_, fileHeader_ok htid h0 hlt hmax, (hsame _).2 ⟨_, hparse⟩, hparse⟩
  · intro raw parsed hp
    rw [parseFilePayload_encode] at hp
    split_ifs at hp with hlen hbad
    cases hp
    have hword : getLE (slice raw 18 20) < 256 ^ 2 := Envelope.getLE_slice_lt rfl
    refine ⟨_, fileHeader_ok ?_ (by omega) (by dsimp only; omega) (by dsimp only; omega), ?_⟩
    · rw [List.length_take]
      omega
    · dsimp only
      rw [Int.toNat_natCast, Int.toNat_natCast, Envelope.putLE_slice rfl (by omega),
        Envelope.putLE_slice rfl (by omega), Envelope.take_slice raw (by omega),
        Envelope.take_slice raw (by omega), List.take_append_drop]

/-! ### What opens -/

/-- A sealed payload of the given kind, by the value of `from` and its body, written and parsed. -/
structure OpensAs (L : Libs) (k : Kind) (sealed : Bytes) (sender : Json) (body : Str) (obj : Json) :
    Prop where
  wrapped : ∃ inner msg, sealedBoxDecrypt L sealed = .ok inner ∧ L.loadsBytes inner = .ok (.obj msg)
    ∧ (∃ kind, Python.get? msg Field.kind = some kind ∧ kind.eqStr k.name = true)
    ∧ Python.get? msg Field.sender = some sender ∧ Python.get? msg Field.body = some (.str body)
    ∧ ∃ sig bytes, Python.get? msg Field.sig = some sig ∧ Python.utf8 body = .ok bytes
      ∧ verify L sender bytes sig = .ok true
  parsed : L.loads body = .ok obj

theorem openSealed_eq_ok {L : Libs} {k : Kind} {sealed : Bytes} {sender obj : Json} :
    openSealed L k sealed = .ok (sender, obj) ↔ ∃ body, OpensAs L k sealed sender body obj := by
  unfold openSealed
  rw [Python.bind_eq_ok]
  constructor
  · rintro ⟨inner, hinner, h⟩
    rw [Python.bind_eq_ok] at h
    obtain ⟨v, hv, h⟩ := h
    split at h
    on_goal 2 => cases h
    rename_i msg
    split at h
    on_goal 2 => cases h
    rename_i kind sender' body sig hkind hsender hbody hsig
    by_cases hk : kind.eqStr k.name = true
    on_goal 2 => simp [hk] at h; cases h
    simp only [hk, Bool.true_eq_false, if_false] at h
    cases body with
    | str body =>
      simp only [Python.bind_eq_ok] at h
      obtain ⟨obj', hobj, bytes, hbytes, ok, hok, h⟩ := h
      cases ok with
      | false => cases h
      | true =>
        cases h
        exact ⟨body, ⟨inner, msg, hinner, hv, ⟨kind, hkind, hk⟩, hsender, hbody, sig, bytes, hsig,
          hbytes, hok⟩, hobj⟩
    | _ => cases h
  · rintro ⟨body, ⟨inner, msg, hinner, hmsg, ⟨kind, hkind, heq⟩, hsender, hbody, sig, bytes, hsig,
      hbytes, hverify⟩, hparsed⟩
    refine ⟨inner, hinner, ?_⟩
    simp only [hmsg, hkind, hsender, hbody, hsig, heq, hparsed, hbytes, hverify, bind, Except.bind]
    rfl

theorem getItem_eq_ok {fields : List (Str × Json)} {k : Str} {v : Json} :
    Python.getItem fields k = .ok v ↔ Python.get? fields k = some v := by
  unfold Python.getItem
  cases Python.get? fields k <;> simp

theorem openMessage_eq_ok {L : Libs} {payload : Str} {o : Opened} :
    openMessage L payload = .ok o ↔ ∃ sealed fields, Python.b64decode payload = .ok sealed
      ∧ openSealed L .msg sealed = .ok (o.sender, .obj fields)
      ∧ Python.get? fields Field.text = some o.text ∧ Python.get? fields Field.ts = some o.ts
      ∧ o.screen = Python.get? fields Field.screen ∧ o.conv = Python.get? fields Field.conv
      ∧ o.members = Python.get? fields Field.members := by
  unfold openMessage
  simp only [Python.bind_eq_ok]
  constructor
  · rintro ⟨sealed, hsealed, ⟨sender, body⟩, hopen, h⟩
    cases body with
    | obj fields =>
      simp only [Python.bind_eq_ok, getItem_eq_ok] at h
      obtain ⟨text, htext, ts, hts, h⟩ := h
      cases h
      exact ⟨sealed, fields, hsealed, hopen, htext, hts, rfl, rfl, rfl⟩
    | _ => cases h
  · rintro ⟨sealed, fields, hsealed, hopen, htext, hts, hscreen, hconv, hmembers⟩
    refine ⟨sealed, hsealed, _, hopen, ?_⟩
    simp only [Python.bind_eq_ok, getItem_eq_ok]
    refine ⟨o.text, htext, o.ts, hts, ?_⟩
    rw [← hscreen, ← hconv, ← hmembers]
    rfl

theorem openStatus_eq_ok {L : Libs} {payload : Str} {st : OpenedStatus} :
    openStatus L payload = .ok st ↔ ∃ sealed fields, Python.b64decode payload = .ok sealed
      ∧ openSealed L .status sealed = .ok (st.sender, .obj fields)
      ∧ Python.get? fields Field.screen = some st.screen
      ∧ Python.get? fields Field.away = some st.away ∧ Python.get? fields Field.ts = some st.ts := by
  unfold openStatus
  simp only [Python.bind_eq_ok]
  constructor
  · rintro ⟨sealed, hsealed, ⟨sender, body⟩, hopen, h⟩
    cases body with
    | obj fields =>
      simp only [Python.bind_eq_ok, getItem_eq_ok] at h
      obtain ⟨screen, hscreen, away, haway, ts, hts, h⟩ := h
      cases h
      exact ⟨sealed, fields, hsealed, hopen, hscreen, haway, hts⟩
    | _ => cases h
  · rintro ⟨sealed, fields, hsealed, hopen, hscreen, haway, hts⟩
    refine ⟨sealed, hsealed, _, hopen, ?_⟩
    simp only [Python.bind_eq_ok, getItem_eq_ok]
    exact ⟨st.screen, hscreen, st.away, haway, st.ts, hts, rfl⟩

theorem openFileChunk_eq_ok {L : Libs} {sealed : Bytes} {chunk : List (Str × Json)} :
    openFileChunk L sealed = .ok chunk
      ↔ ∃ sender fields, openSealed L .file sealed = .ok (sender, .obj fields)
        ∧ chunk = (Field.sender, sender) :: fields.filter fun e => e.1 ≠ Field.sender := by
  unfold openFileChunk
  simp only [Python.bind_eq_ok]
  constructor
  · rintro ⟨⟨sender, body⟩, hopen, h⟩
    cases body with
    | obj fields =>
      cases h
      exact ⟨sender, fields, hopen, rfl⟩
    | _ => cases h
  · rintro ⟨sender, fields, hopen, rfl⟩
    exact ⟨_, hopen, rfl⟩

/-- The chunk dict has the fields that were signed, but for `from`. -/
theorem get?_chunk (sender : Json) (fields : List (Str × Json)) (k : Str) :
    Python.get? ((Field.sender, sender) :: fields.filter fun e => e.1 ≠ Field.sender) k
      = if k = Field.sender then some sender else Python.get? fields k := by
  unfold Python.get?
  rw [List.lookup_cons]
  split_ifs with hk
  · subst hk
    simp
  · rw [beq_false_of_ne hk]
    dsimp only
    induction fields with
    | nil => rfl
    | cons e fields ih =>
      by_cases he : e.1 = Field.sender
      · have hne : (k == e.1) = false := beq_false_of_ne (he ▸ hk)
        rw [List.filter_cons_of_neg (by simp [he]), ih, List.lookup_cons, hne]
      · rw [List.filter_cons_of_pos (by simp [he]), List.lookup_cons, List.lookup_cons, ih]

/-! ### What is sealed opens -/

/-- The libraries as they are meant to be, from one identity to another: `json.loads` undoes
`json.dumps`, which writes ASCII, on the values whose strings are of `K`; a signature verifies with
the key of who signed; a box for the recipient opens.  `K` is every string if JSON is lossless, and
those that are `joined` in Python. -/
structure Ideal (K : Str → Bool) (S : Sealer) (L : Libs) (buddy : Str) : Prop where
  encodable : ∀ v s, S.dumps v = .ok s → Python.encodable s = true
  plain : ∀ s, Python.encodable s = true → K s = true
  loads : ∀ v s, v.Proper → v.allStr K = true → S.dumps v = .ok s → L.loads s = .ok v
  loadsBytes : ∀ v s b, v.Proper → v.allStr K = true → S.dumps v = .ok s → Python.utf8 s = .ok b →
    L.loadsBytes b = .ok v
  keyLength : S.verifyKey.length = 32
  sigLength : ∀ m, (S.sign m).length = 64
  verifies : ∀ m, L.verifies S.verifyKey m (S.sign m) = true
  buddyKey : ∃ key curve, Python.fromHex buddy = .ok key ∧ S.curveKey key = .ok curve
    ∧ ∀ ephemeral inner, 48 ≤ (S.encrypt ephemeral curve inner).length
      ∧ L.sealOpen (S.encrypt ephemeral curve inner) = some inner

section RoundTrip

variable {K : Str → Bool} {S : Sealer} {L : Libs} {buddy : Str} {k : Kind}
  {fields : List (Str × Json)}

/-- The key a payload names as its sender. -/
def senderKey (S : Sealer) : Json := .str (Python.str (Hex.encode S.verifyKey))

theorem wrapper_proper (S : Sealer) (k : Kind) (body : Str) (sig : Text) :
    (wrapper S k body sig).Proper := by
  unfold wrapper
  rw [Json.proper_obj]
  exact ⟨by simp only [List.map_cons, List.map_nil]; decide, by simp [Json.Proper]⟩

theorem Ideal.str (H : Ideal K S L buddy) (t : Text) : K (Python.str t) = true :=
  H.plain _ (Python.encodable_str t)

theorem wrapper_allStr (H : Ideal K S L buddy) (k : Kind) {body : Str} (hbody : K body = true)
    (sig : Text) : (wrapper S k body sig).allStr K = true := by
  have hfield : ∀ t : Text, K (t.map Python.codePoint) = true := H.str
  have hkind : K k.name = true := by cases k <;> exact H.str _
  unfold wrapper
  rw [Json.allStr, Json.each_obj]
  simp only [List.forall_mem_cons, List.not_mem_nil, false_implies, implies_true, and_true,
    Json.each]
  exact ⟨H.str _, ⟨H.str _, hkind⟩, ⟨H.str _, H.str _⟩, ⟨H.str _, hbody⟩, H.str _,
    H.str _⟩

theorem verify_signBody (H : Ideal K S L buddy) (body : Bytes) :
    verify L (senderKey S) body (.str (Python.str (signBody S body))) = .ok true := by
  unfold verify senderKey
  simp only [Python.fromHex_encode, H.keyLength, signBody, Python.b64decode_encode, H.sigLength,
    H.verifies]
  rfl

theorem openSealed_sealBody (H : Ideal K S L buddy) (hp : (Json.obj fields).Proper)
    (hk : (Json.obj fields).allStr K = true) {ephemeral box : Bytes}
    (h : sealBody S ephemeral k buddy fields = .ok box) :
    openSealed L k box = .ok (senderKey S, .obj (Json.sorted fields)) := by
  unfold sealBody at h
  simp only [Python.bind_eq_ok] at h
  obtain ⟨body, hbody, bytes, hbytes, text, htext, inner, hinner, key, hkey, curve, hcurve, h⟩ := h
  obtain ⟨key', curve', hkey', hcurve', hopen⟩ := H.buddyKey
  cases hkey.symm.trans hkey'
  cases hcurve.symm.trans hcurve'
  cases h
  obtain ⟨hlen, hopen⟩ := hopen ephemeral inner
  have hdecrypt : sealedBoxDecrypt L (S.encrypt ephemeral curve inner) = .ok inner := by
    unfold sealedBoxDecrypt
    rw [if_neg (not_lt.2 hlen), hopen]
  have hwrapped : L.loadsBytes inner = .ok (wrapper S k body (signBody S bytes)) :=
    H.loadsBytes _ _ _ (wrapper_proper S k body _)
      (wrapper_allStr H k (H.plain _ (H.encodable _ _ hbody)) _) htext hinner
  have hloads : L.loads body = .ok (.obj (Json.sorted fields)) := by
    rw [← Json.sortKeys_obj]
    exact H.loads _ _ (Json.sortKeys_proper hp) (Json.each_sortKeys hk) hbody
  refine openSealed_eq_ok.2 ⟨body, ⟨inner, _, hdecrypt, hwrapped, ⟨_, rfl, ?_⟩, rfl, rfl, _, bytes,
    rfl, hbytes, verify_signBody H bytes⟩, hloads⟩
  simp [Json.eqStr]

/-- Sealing succeeds where `json.dumps` does. -/
theorem sealBody_ok (H : Ideal K S L buddy)
    (hbody : ∃ s, S.dumps (Json.obj fields).sortKeys = .ok s)
    (hwrapper : ∀ body sig, ∃ s, S.dumps (wrapper S k body sig) = .ok s) (ephemeral : Bytes) :
    ∃ box, sealBody S ephemeral k buddy fields = .ok box := by
  have hutf8 : ∀ v s, S.dumps v = .ok s → ∃ b, Python.utf8 s = .ok b := fun v s hs =>
    ⟨_, if_pos (H.encodable v s hs)⟩
  obtain ⟨body, hbody⟩ := hbody
  obtain ⟨bytes, hbytes⟩ := hutf8 _ _ hbody
  obtain ⟨text, htext⟩ := hwrapper body (signBody S bytes)
  obtain ⟨inner, hinner⟩ := hutf8 _ _ htext
  obtain ⟨key, curve, hkey, hcurve, -⟩ := H.buddyKey
  refine ⟨S.encrypt ephemeral curve inner, ?_⟩
  simp only [sealBody, hbody, hbytes, htext, hinner, hkey, hcurve, bind, Except.bind]
  rfl

/-- What a body without repeated keys opens to, field by field. -/
theorem get?_opened (hp : (Json.obj fields).Proper) (key : Str) :
    Python.get? (Json.sorted fields) key = (Python.get? fields key).map Json.sortKeys :=
  Python.get?_sorted (Json.proper_obj.1 hp).1 key

end RoundTrip

/-! ### The bodies -/

theorem messageBody_proper (text : Str) (ts : ℤ) (screen conv : Option Str) {members : Option Json}
    (hm : ∀ v ∈ members, v.Proper) :
    (Json.obj (messageBody text ts screen conv members)).Proper := by
  rw [Json.proper_obj]
  unfold messageBody
  constructor
  · cases screen.filter (· ≠ []) <;> cases conv <;> cases members <;>
      simp only [Option.map_none, Option.map_some, Option.toList_none, Option.toList_some,
        List.append_nil, List.cons_append, List.nil_append, List.map_cons, List.map_nil] <;> decide
  · intro e he
    simp only [List.mem_append, List.mem_cons, List.not_mem_nil, or_false, Option.mem_toList,
      Option.map_eq_some_iff] at he
    rcases he with (((rfl | rfl) | ⟨s, -, rfl⟩) | ⟨s, -, rfl⟩) | ⟨v, hv, rfl⟩
    · simp [Json.Proper]
    · simp [Json.Proper]
    · simp [Json.Proper]
    · simp [Json.Proper]
    · exact hm v hv

theorem statusBody_proper (screen : Str) {away : Json} (ha : away.Proper) (ts : ℤ) :
    (Json.obj (statusBody screen away ts)).Proper := by
  rw [Json.proper_obj]
  unfold statusBody
  exact ⟨by simp only [List.map_cons, List.map_nil]; decide, by simp [Json.Proper, ha]⟩

theorem get?_messageBody (text : Str) (ts : ℤ) (screen conv : Option Str) (members : Option Json) :
    Python.get? (messageBody text ts screen conv members) Field.text = some (.str text)
    ∧ Python.get? (messageBody text ts screen conv members) Field.ts = some (.int ts)
    ∧ Python.get? (messageBody text ts screen conv members) Field.screen
      = (screen.filter (· ≠ [])).map Json.str
    ∧ Python.get? (messageBody text ts screen conv members) Field.conv = conv.map Json.str
    ∧ Python.get? (messageBody text ts screen conv members) Field.members = members
    ∧ Python.get? (messageBody text ts screen conv members) Field.away = none := by
  unfold messageBody
  cases screen.filter (· ≠ []) <;> cases conv <;> cases members <;>
    exact ⟨rfl, rfl, rfl, rfl, rfl, rfl⟩

/-- The bodies that a client signs, by kind. -/
inductive SignedBody : Kind → List (Str × Json) → Prop
  | msg (text : Str) (ts : ℤ) (screen conv : Option Str) {members : Option Json}
      (hm : ∀ v ∈ members, v.Proper) : SignedBody .msg (messageBody text ts screen conv members)
  | status (screen : Str) {away : Json} (ha : away.Proper) (ts : ℤ) :
      SignedBody .status (statusBody screen away ts)
  | file (tid : Str) (index total : ℤ) (filename mimeHint sha256 : Str) (size : ℤ) (data : Bytes)
      (conv : Option Str) :
      SignedBody .file (makeChunk tid index total filename mimeHint sha256 size data conv)
  | roomFile (tid : Str) (index total : ℤ) (filename mimeHint sha256 : Str) (size : ℤ)
      (data : Bytes) (conv : Option Str) (room : Str) :
      SignedBody .file
        (roomChunk (makeChunk tid index total filename mimeHint sha256 size data conv) room)

theorem makeChunk_proper (tid : Str) (index total : ℤ) (filename mimeHint sha256 : Str) (size : ℤ)
    (data : Bytes) (conv : Option Str) :
    (Json.obj (makeChunk tid index total filename mimeHint sha256 size data conv)).Proper := by
  rw [Json.proper_obj]
  unfold makeChunk
  cases conv.filter (· ≠ []) <;>
    exact ⟨by
      simp only [Option.map_none, Option.map_some, Option.toList_none, Option.toList_some,
        List.append_nil, List.cons_append, List.nil_append, List.map_cons, List.map_nil]
      decide, by simp [Json.Proper]⟩

theorem roomChunk_proper {chunk : List (Str × Json)} (h : (Json.obj chunk).Proper) (room : Str) :
    (Json.obj (roomChunk chunk room)).Proper := by
  rw [Json.proper_obj] at h ⊢
  unfold roomChunk
  constructor
  · rw [List.map_append, List.nodup_append]
    refine ⟨h.1.sublist (List.filter_sublist.map _), by simp, ?_⟩
    intro k hk k' hk'
    obtain ⟨e, he, rfl⟩ := List.mem_map.1 hk
    rw [List.map_singleton, List.mem_singleton] at hk'
    rw [hk']
    exact of_decide_eq_true (List.mem_filter.1 he).2
  · intro e he
    rcases List.mem_append.1 he with he | he
    · exact h.2 e (List.mem_filter.1 he).1
    · rw [List.mem_singleton.1 he]
      simp [Json.Proper]

theorem SignedBody.proper {k : Kind} {fields : List (Str × Json)} (h : SignedBody k fields) :
    (Json.obj fields).Proper := by
  cases h with
  | msg text ts screen conv hm => exact messageBody_proper text ts screen conv hm
  | status screen ha ts => exact statusBody_proper screen ha ts
  | file => exact makeChunk_proper ..
  | roomFile => exact roomChunk_proper (makeChunk_proper ..) _

/-- The fields that a body of a kind may have. -/
def bodyKeys : Kind → List Str
  | .msg => [Field.text, Field.ts, Field.screen, Field.conv, Field.members]
  | .status => [Field.screen, Field.away, Field.ts]
  | .file => [Field.transferId, Field.index, Field.total, Field.filename, Field.mimeHint,
    Field.sha256, Field.size, Field.data, Field.conv]

theorem makeChunk_keys (tid : Str) (index total : ℤ) (filename mimeHint sha256 : Str) (size : ℤ)
    (data : Bytes) (conv : Option Str) :
    (makeChunk tid index total filename mimeHint sha256 size data conv).map Prod.fst
      ⊆ bodyKeys .file := by
  unfold makeChunk bodyKeys
  cases conv.filter (· ≠ []) <;> simp

theorem SignedBody.keys {k : Kind} {fields : List (Str × Json)} (h : SignedBody k fields) :
    fields.map Prod.fst ⊆ bodyKeys k := by
  cases h with
  | @msg text ts screen conv members hm =>
    unfold messageBody bodyKeys
    cases screen.filter (· ≠ []) <;> cases conv <;> cases members <;> simp
  | status screen ha ts => simp [statusBody, bodyKeys]
  | file => exact makeChunk_keys ..
  | roomFile tid index total filename mimeHint sha256 size data conv room =>
    intro key hkey
    rw [roomChunk, List.map_append, List.mem_append] at hkey
    rcases hkey with hkey | hkey
    · exact makeChunk_keys tid index total filename mimeHint sha256 size data conv
        ((List.filter_sublist.map _).subset hkey)
    · rw [List.map_singleton, List.mem_singleton] at hkey
      simp [hkey, bodyKeys]

/-- A field that the opener of a kind reads, and that bodies of the other kinds do not have. -/
def markOf : Kind → Str
  | .msg => Field.text
  | .status => Field.away
  | .file => Field.transferId

theorem SignedBody.mark {k k' : Kind} {fields : List (Str × Json)} (h : SignedBody k fields)
    (hk : k' ≠ k) : Python.get? fields (markOf k') = none := by
  have hmark : ∀ k k' : Kind, k' ≠ k → markOf k' ∉ bodyKeys k := by
    intro k k'
    cases k <;> cases k' <;> decide
  exact Python.get?_eq_none_iff.2 fun hmem => hmark k k' hk (h.keys hmem)

/-! ### Kinds -/

/-- Whether a payload is accepted as one of a kind; for a chunk, by the check against its routing
header. -/
def Accepted (L : Libs) (payload : Str) : Kind → Prop
  | .msg => ∃ o, openMessage L payload = .ok o
  | .status => ∃ st, openStatus L payload = .ok st
  | .file => ∃ r, checkedChunk L payload = some r

/-- The sealed part of a payload of a kind. -/
def SealedPart (payload : Str) (sealed : Bytes) : Kind → Prop
  | .file => ∃ parsed, parseFilePayload payload = .ok parsed ∧ parsed.sealed = sealed
  | _ => Python.b64decode payload = .ok sealed

/-- A payload that wraps a body as one of the given kind, with whatever else beside it. -/
def Wraps (L : Libs) (k : Kind) (payload body : Str) : Prop :=
  ∃ sealed inner msg, SealedPart payload sealed k ∧ sealedBoxDecrypt L sealed = .ok inner
    ∧ L.loadsBytes inner = .ok (.obj msg) ∧ Python.get? msg Field.body = some (.str body)

variable {K : Str → Bool} {L : Libs}

/-- What is accepted as of a kind has the field that the opener reads. -/
theorem Accepted.mark {payload : Str} {k : Kind} (h : Accepted L payload k) :
    ∃ sealed sender body fields, SealedPart payload sealed k
      ∧ OpensAs L k sealed sender body (.obj fields)
      ∧ ∃ v, Python.get? fields (markOf k) = some v := by
  cases k with
  | msg =>
    obtain ⟨o, ho⟩ := h
    obtain ⟨sealed, fields, hsealed, hopen, htext, -⟩ := openMessage_eq_ok.1 ho
    obtain ⟨body, hbody⟩ := openSealed_eq_ok.1 hopen
    exact ⟨sealed, o.sender, body, fields, hsealed, hbody, _, htext⟩
  | status =>
    obtain ⟨st, hst⟩ := h
    obtain ⟨sealed, fields, hsealed, hopen, -, haway, -⟩ := openStatus_eq_ok.1 hst
    obtain ⟨body, hbody⟩ := openSealed_eq_ok.1 hopen
    exact ⟨sealed, st.sender, body, fields, hsealed, hbody, _, haway⟩
  | file =>
    obtain ⟨r, hr⟩ := h
    unfold checkedChunk at hr
    split at hr
    · cases hr
    rename_i parsed hparsed
    split at hr
    · cases hr
    rename_i chunk hchunk
    split at hr
    on_goal 2 => cases hr
    rename_i hchecks
    obtain ⟨sender, fields, hopen, rfl⟩ := openFileChunk_eq_ok.1 hchunk
    obtain ⟨body, hbody⟩ := openSealed_eq_ok.1 hopen
    obtain ⟨v, hv, -⟩ := (Option.any_eq_true _ _).1 hchecks.1
    rw [get?_chunk, if_neg (by decide)] at hv
    exact ⟨parsed.sealed, sender, body, fields, ⟨parsed, hparsed, rfl⟩, hbody, v, hv⟩

theorem SealedPart.unique {payload : Str} {a b : Bytes} {k : Kind} (ha : SealedPart payload a k)
    (hb : SealedPart payload b k) : a = b := by
  cases k with
  | file =>
    obtain ⟨parsed, hparsed, rfl⟩ := ha
    obtain ⟨parsed', hparsed', rfl⟩ := hb
    cases hparsed.symm.trans hparsed'
    rfl
  | _ => exact Except.ok.inj (ha.symm.trans hb)

/-- A body that was signed under one kind is accepted under no other. -/
theorem not_accepted {S : Sealer} {buddy : Str} (H : Ideal K S L buddy) {k k' : Kind} (hk : k' ≠ k)
    {fields : List (Str × Json)} (hsigned : SignedBody k fields)
    (hkept : (Json.obj fields).allStr K = true) {body payload : Str}
    (hbody : S.dumps (Json.obj fields).sortKeys = .ok body) (hwraps : Wraps L k' payload body) :
    ¬ Accepted L payload k' := by
  intro haccepted
  obtain ⟨sealed, sender, body', fields', hsealed, hopens, v, hv⟩ := haccepted.mark
  obtain ⟨sealed₁, inner₁, msg₁, hsealed₁, hinner₁, hmsg₁, hbody₁⟩ := hwraps
  obtain ⟨⟨inner, msg, hinner, hmsg, -, -, hbody', -⟩, hparsed⟩ := hopens
  -- Both describe the one wrapper that the payload holds.
  cases hsealed.unique hsealed₁
  cases hinner.symm.trans hinner₁
  cases hmsg.symm.trans hmsg₁
  cases hbody'.symm.trans hbody₁
  have hloads := H.loads _ _ (Json.sortKeys_proper hsigned.proper) (Json.each_sortKeys hkept) hbody
  rw [hparsed, Json.sortKeys_obj] at hloads
  cases hloads
  rw [get?_opened hsigned.proper, hsigned.mark hk] at hv
  cases hv

/-- What is sealed from one identity to another, of values whose strings are of `K`.  A dict that
comes back has the entries of the one that went in, in the order of their keys. -/
structure SealedPayloads (K : Str → Bool) (S : Sealer) (L : Libs) (buddy : Str) : Prop where
  messages : ∀ (ephemeral : Bytes) (text : Str) (ts : ℤ) (screen conv : Option Str)
    (members : Option Json) (payload : Str), (∀ v ∈ members, v.Proper) →
      (Json.obj (messageBody text ts screen conv members)).allStr K = true →
      sealMessage S ephemeral buddy text ts screen conv members = .ok payload →
        openMessage L payload = .ok ⟨senderKey S, .str text, .int ts,
          (screen.filter (· ≠ [])).map Json.str, conv.map Json.str, members.map Json.sortKeys⟩
  statuses : ∀ (ephemeral : Bytes) (screen : Str) (away : Json) (ts : ℤ) (payload : Str),
    away.Proper → (Json.obj (statusBody screen away ts)).allStr K = true →
      sealStatus S ephemeral buddy screen away ts = .ok payload →
      openStatus L payload = .ok ⟨senderKey S, .str screen, away.sortKeys, .int ts⟩
  chunks : ∀ (ephemeral : Bytes) (chunk : List (Str × Json)) (box : Bytes),
    (Json.obj chunk).Proper → (Json.obj chunk).allStr K = true →
      sealFileChunk S ephemeral buddy chunk = .ok box →
      ∃ opened, openFileChunk L box = .ok opened
        ∧ Python.get? opened Field.sender = some (senderKey S)
        ∧ ∀ key ≠ Field.sender,
          Python.get? opened key = (Python.get? chunk key).map Json.sortKeys
  /-- Sealing returns where `json.dumps` writes every value down. -/
  returns : (∀ v : Json, v.Proper → ∃ s, S.dumps v = .ok s) → ∀ ephemeral : Bytes,
    (∀ text ts screen conv members, (∀ v ∈ members, v.Proper) →
      ∃ payload, sealMessage S ephemeral buddy text ts screen conv members = .ok payload)
    ∧ (∀ screen away ts, away.Proper →
      ∃ payload, sealStatus S ephemeral buddy screen away ts = .ok payload)
    ∧ ∀ chunk, (Json.obj chunk).Proper → ∃ box, sealFileChunk S ephemeral buddy chunk = .ok box
  /-- A body signed under a kind, in any wrapper. -/
  kinds : ∀ (k k' : Kind) (fields : List (Str × Json)) (body payload : Str), k' ≠ k →
    SignedBody k fields → (Json.obj fields).allStr K = true →
      S.dumps (Json.obj fields).sortKeys = .ok body →
      Wraps L k' payload body → ¬ Accepted L payload k'

/-- What is sealed opens to what went in, and as no other kind.  Where JSON is lossless, this holds of
all values (`Json.allStr_true`). -/
theorem sealed_payloads (K : Str → Bool) (S : Sealer) (L : Libs) (buddy : Str)
    (H : Ideal K S L buddy) : SealedPayloads K S L buddy where
  messages ephemeral text ts screen conv members payload hm hk h := by
    have hp := messageBody_proper text ts screen conv hm
    unfold sealMessage at h
    obtain ⟨box, hbox, h⟩ := Python.bind_eq_ok.1 h
    cases h
    obtain ⟨htext, hts, hscreen, hconv, hmembers, -⟩ :=
      get?_messageBody text ts screen conv members
    refine openMessage_eq_ok.2 ⟨box, _, Python.b64decode_encode box,
      openSealed_sealBody H hp hk hbox, ?_⟩
    simp only [get?_opened hp, htext, hts, hscreen, hconv, hmembers, Option.map_some,
      Option.map_map, Json.sortKeys, Function.comp_def, and_self]
  statuses ephemeral screen away ts payload ha hk h := by
    have hp := statusBody_proper screen ha ts
    unfold sealStatus at h
    obtain ⟨box, hbox, h⟩ := Python.bind_eq_ok.1 h
    cases h
    have hscreen : Python.get? (statusBody screen away ts) Field.screen = some (.str screen) := rfl
    have haway : Python.get? (statusBody screen away ts) Field.away = some away := rfl
    have hts : Python.get? (statusBody screen away ts) Field.ts = some (.int ts) := rfl
    refine openStatus_eq_ok.2 ⟨box, _, Python.b64decode_encode box,
      openSealed_sealBody H hp hk hbox, ?_⟩
    simp only [get?_opened hp, hscreen, haway, hts, Option.map_some, Json.sortKeys, and_self]
  chunks ephemeral chunk box hp hk h := by
    refine ⟨_, openFileChunk_eq_ok.2 ⟨_, _, openSealed_sealBody H hp hk h, rfl⟩, ?_,
      fun key hkey => ?_⟩
    · rw [get?_chunk, if_pos rfl]
    · rw [get?_chunk, if_neg hkey, get?_opened hp]
  returns hdumps ephemeral := by
    have hseal : ∀ (k : Kind) (fields : List (Str × Json)), (Json.obj fields).Proper →
        ∃ box, sealBody S ephemeral k buddy fields = .ok box := fun k fields hp =>
      sealBody_ok H (hdumps _ (Json.sortKeys_proper hp))
        (fun body sig => hdumps _ (wrapper_proper S k body sig)) ephemeral
    refine ⟨fun text ts screen conv members hm => ?_, fun screen away ts ha => ?_,
      fun chunk hp => hseal .file chunk hp⟩
    · obtain ⟨box, hbox⟩ := hseal .msg _ (messageBody_proper text ts screen conv hm)
      exact ⟨_, Python.bind_eq_ok.2 ⟨box, hbox, rfl⟩⟩
    · obtain ⟨box, hbox⟩ := hseal .status _ (statusBody_proper screen ha ts)
      exact ⟨_, Python.bind_eq_ok.2 ⟨box, hbox, rfl⟩⟩
  kinds _ _ _ _ _ hk hsigned hkept hbody hwraps := not_accepted H hk hsigned hkept hbody hwraps

/-! ### In the clear -/

section Plain

/-- Right for `0.0` only. -/
def zeroFloats : Python.FloatRepr where
  text _ := ['0', '.', '0']
  ascii _ := rfl

/-- `json.dumps`, of what has no finite float in it. -/
def plainDumps (v : Json) : Except Exc Str :=
  if v.noFloat then .ok (v.dumps zeroFloats) else .error .valueError

/-- `json.loads`, of what has no float literal in it. -/
def plainLoads (s : Str) : Except Exc Json := Json.loads (fun _ => .nan) s

def nines : Bytes := List.replicate 32 9

/-- A client whose key is all nines, whose signatures are all zeros and whose boxes have zeros in
front of what is in them. -/
def plainSealer : Sealer where
  verifyKey := nines
  sign _ := List.replicate 64 0
  dumps := plainDumps
  curveKey key := .ok key
  encrypt _ _ inner := List.replicate 48 0 ++ inner

/-- The entries of a dict whose keys are strings. -/
def strFields (d : Dict) : Option (List (Str × Json)) :=
  d.mapM fun e =>
    match e.1 with
    | .str k => some (k, e.2)
    | _ => none

/-- A client that opens such boxes. -/
def plainLibs (sha256 : Bytes → Bytes) : Libs where
  sealOpen sealed := some (sealed.drop 48)
  verifies _ _ _ := true
  loads := plainLoads
  loadsBytes b := plainLoads (Python.fsdecode b)
  dumps d :=
    match strFields d with
    | some fields => plainDumps (.obj fields)
    | none => .error .typeError
  sha256 := sha256
  realText _ := []

theorem plainLibs_loads (sha256 : Bytes → Bytes) (s : Str) :
    (plainLibs sha256).loads s = plainLoads s := rfl

theorem plainLibs_dumps {sha256 : Bytes → Bytes} {d : Dict} {fields : List (Str × Json)}
    (h : strFields d = some fields) : (plainLibs sha256).dumps d = plainDumps (.obj fields) := by
  simp only [plainLibs, h]

theorem plainDumps_eq_ok {v : Json} {s : Str} :
    plainDumps v = .ok s ↔ v.noFloat = true ∧ s = v.dumps zeroFloats := by
  unfold plainDumps
  split_ifs with h <;> simp [h, eq_comm]

theorem plainLoads_dumps {v : Json} {s : Str} (hp : v.Proper) (hk : v.allStr Python.joined = true)
    (h : plainDumps v = .ok s) : plainLoads s = .ok v := by
  obtain ⟨hf, rfl⟩ := plainDumps_eq_ok.1 h
  exact Json.loads_dumps hp hk hf

/-- What the libraries are meant to be is met by the JSON text of Python. -/
theorem plain_ideal (sha256 : Bytes → Bytes) (key : Bytes) :
    Ideal Python.joined plainSealer (plainLibs sha256) (Python.str (Hex.encode key)) where
  encodable v s h := by
    obtain ⟨-, rfl⟩ := plainDumps_eq_ok.1 h
    refine List.all_eq_true.2 fun c hc => decide_eq_true (.inl ?_)
    have := Json.ascii_dumps zeroFloats v c hc
    omega
  plain s h := Python.joined_of_encodable h
  loads v s hp hk h := plainLoads_dumps hp hk h
  loadsBytes v s b hp hk h hb := by
    obtain ⟨-, rfl⟩ := plainDumps_eq_ok.1 h
    have hascii := Json.ascii_dumps zeroFloats v
    rw [Python.utf8_of_ascii hascii] at hb
    cases hb
    show plainLoads (Python.fsdecode _) = _
    rw [Python.fsdecode_of_ascii hascii]
    exact plainLoads_dumps hp hk h
  keyLength := by decide
  sigLength _ := List.length_replicate
  verifies _ := rfl
  buddyKey := by
    refine ⟨key, key, Python.fromHex_encode key, rfl, fun _ inner => ⟨?_, ?_⟩⟩
    · simp [plainSealer]
    · simp [plainSealer, plainLibs]

end Plain

/-! ### A greeting -/

section Greeting

/-- A greeting to oneself. -/
def greeting : List (Str × Json) := messageBody (Python.str ['h', 'i']) 5 none none none

def greetingText : Str := (Json.obj greeting).sortKeys.dumps zeroFloats

/-- What is sealed of it. -/
def greetingInner : Str :=
  (wrapper plainSealer .msg greetingText (Base64.encode (List.replicate 64 0))).dumps zeroFloats

def greetingBox : Bytes := List.replicate 48 0 ++ (Python.utf8 greetingInner).toOption.getD []

/-- A greeting to oneself is read as what it is, and not as a status. -/
theorem sealed_payloads_greeting :
    let buddy := Python.str (Hex.encode nines)
    let L := plainLibs fun _ => []
    let payload := Python.str (Base64.encode greetingBox)
    sealMessage plainSealer [] buddy (Python.str ['h', 'i']) 5 none none none = .ok payload
      ∧ openMessage L payload
        = .ok ⟨senderKey plainSealer, .str (Python.str ['h', 'i']), .int 5, none, none, none⟩
      ∧ ¬ Accepted L payload .status := by
  intro buddy L payload
  have hideal := plain_ideal (fun _ => []) nines
  have H := sealed_payloads Python.joined plainSealer L buddy hideal
  have hseal : sealMessage plainSealer [] buddy (Python.str ['h', 'i']) 5 none none none
      = .ok payload := by decide +kernel
  have hnone : ∀ v ∈ (none : Option Json), v.Proper := fun v hv => (Option.not_mem_none v hv).elim
  have hkept : (Json.obj greeting).allStr Python.joined = true := by decide +kernel
  have hbody : plainDumps (Json.obj greeting).sortKeys = .ok greetingText :=
    plainDumps_eq_ok.2 ⟨by decide +kernel, rfl⟩
  refine ⟨hseal, H.messages _ _ _ _ _ _ _ hnone hkept hseal, ?_⟩
  have hfloat : (wrapper plainSealer .msg greetingText
      (Base64.encode (List.replicate 64 0))).noFloat = true := by decide +kernel
  have hwrapper := plainDumps_eq_ok.2 ⟨hfloat, rfl⟩
  have hinner : Python.utf8 greetingInner = .ok (greetingBox.drop 48) := by decide +kernel
  refine H.kinds .msg .status _ greetingText payload (by decide) (.msg _ 5 none none hnone) hkept
    hbody ⟨greetingBox, greetingBox.drop 48, _, Python.b64decode_encode greetingBox,
      by decide +kernel, hideal.loadsBytes _ _ _ (wrapper_proper ..)
        (wrapper_allStr hideal .msg (by decide +kernel) _) hwrapper hinner, rfl⟩

end Greeting

end Aimless
