import Aimless.Envelope

/-!
# The envelope codec

An envelope is encoded exactly when its payload fits the 16-bit length field, and what was encoded
decodes to the envelope it came from.  What decodes is the encoding of what it decodes to, with any
bytes after it (`encode_of_decode`).
-/

namespace Aimless

open Words

theorem slice_append {a b c : Bytes} {i j : ℕ} (ha : a.length = i) (hb : i + b.length = j) :
    slice (a ++ b ++ c) i j = b := by
  rw [slice, List.append_assoc, List.drop_left' ha, List.take_left' (by omega)]

theorem getLE_uint64 (v : UInt64) : UInt64.ofNat (getLE (putLE 8 v.toNat)) = v := by
  rw [getLE_putLE 8 _ v.toNat_lt, UInt64.ofNat_toNat]

namespace Envelope

variable {e : Envelope}

theorem encode_error_iff : (∃ err, e.encode = .error err) ↔ maxPayloadSize < e.payload.length := by
  unfold encode
  split_ifs with h
  · exact ⟨fun _ => h, fun _ => ⟨_, rfl⟩⟩
  · exact ⟨fun ⟨_, he⟩ => (by cases he), fun h' => absurd h' h⟩

theorem encode_ok (h : e.payload.length ≤ maxPayloadSize) :
    e.encode = .ok ([e.version, e.type] ++ putLE 8 e.seq.toNat ++ putLE 8 e.ts.toUInt64.toNat
      ++ putLE 2 e.payload.length ++ e.payload) := by
  rw [encode, if_neg (not_lt.2 h)]

theorem length_of_encode {data : Bytes} (h : e.encode = .ok data) :
    data.length = envelopeHeaderSize + e.payload.length := by
  unfold encode at h
  split_ifs at h
  cases h
  simp only [List.length_append, List.length_cons, List.length_nil, length_putLE,
    envelopeHeaderSize]

theorem length_le_of_encode {data : Bytes} (h : e.encode = .ok data) :
    e.payload.length ≤ maxPayloadSize := by
  by_contra hlt
  obtain ⟨err, herr⟩ := encode_error_iff.2 (not_le.1 hlt)
  rw [herr] at h
  cases h

/-- What was encoded decodes to the envelope it came from. -/
theorem decode_of_encode {data : Bytes} (hv : e.version = envelopeVersion)
    (h : e.encode = .ok data) : decodeEnvelope data = .ok e := by
  have hlen := length_of_encode h
  have hmax := length_le_of_encode h
  rw [encode_ok hmax] at h
  cases h
  set S := putLE 8 e.seq.toNat
  set T := putLE 8 e.ts.toUInt64.toNat
  set L := putLE 2 e.payload.length
  have hS : S.length = 8 := length_putLE 8 _
  have hT : T.length = 8 := length_putLE 8 _
  have hL : L.length = 2 := length_putLE 2 _
  have hsize : e.payload.length < 256 ^ 2 := lt_of_le_of_lt hmax (by decide)
  have hseq : slice ([e.version, e.type] ++ S ++ T ++ L ++ e.payload) 2 10 = S := by
    rw [List.append_assoc _ T, List.append_assoc _ (T ++ L)]
    exact slice_append rfl (by omega)
  have hts : slice ([e.version, e.type] ++ S ++ T ++ L ++ e.payload) 10 18 = T := by
    rw [List.append_assoc _ L]
    exact slice_append (by simp [hS]) (by omega)
  have hlf : slice ([e.version, e.type] ++ S ++ T ++ L ++ e.payload) 18 20 = L :=
    slice_append (by simp [hS, hT]) (by omega)
  have hpl : slice ([e.version, e.type] ++ S ++ T ++ L ++ e.payload) envelopeHeaderSize
      (envelopeHeaderSize + e.payload.length) = e.payload := by
    have := slice_append (a := [e.version, e.type] ++ S ++ T ++ L) (b := e.payload) (c := [])
      (i := envelopeHeaderSize) (by simp [hS, hT, hL, envelopeHeaderSize]) rfl
    rwa [List.append_nil] at this
  have hv0 : ([e.version, e.type] ++ S ++ T ++ L ++ e.payload).getD 0 0 = e.version := rfl
  have ht1 : ([e.version, e.type] ++ S ++ T ++ L ++ e.payload).getD 1 0 = e.type := rfl
  have hn : getLE L = e.payload.length := getLE_putLE 2 _ hsize
  unfold decodeEnvelope
  rw [if_neg (by omega), hv0, if_neg (by simp [hv])]
  simp only [hlf, hn, hseq, hts, hpl, ht1]
  rw [if_neg (by omega), getLE_uint64, getLE_uint64]
  simp

/-- The length field of an encoded envelope. -/
def lengthField (d : Bytes) : ℕ := getLE (slice d 18 20)

theorem decode_ok_iff (d : Bytes) : (∃ e, decodeEnvelope d = .ok e)
    ↔ 20 ≤ d.length ∧ d[0]? = some 1 ∧ 20 + lengthField d ≤ d.length := by
  have hhead : 20 ≤ d.length → (d[0]? = some 1 ↔ d.getD 0 0 = envelopeVersion) := by
    intro hlen
    rw [List.getD_eq_getElem?_getD, List.getElem?_eq_getElem (by omega), Option.getD_some,
      Option.some.injEq]
    rfl
  unfold decodeEnvelope lengthField envelopeHeaderSize
  dsimp only
  split_ifs with hlen hversion hfit
  · simp only [exists_false, false_iff, not_and]
    omega
  · simp only [exists_false, false_iff, not_and]
    intro h20 h1
    exact absurd ((hhead h20).1 h1) hversion
  · simp only [exists_false, false_iff, not_and]
    omega
  · refine iff_of_true ⟨_, rfl⟩ ⟨by omega, ?_, by omega⟩
    exact (hhead (by omega)).2 (not_not.1 hversion)

theorem take_slice (d : Bytes) {i j : ℕ} (h : i ≤ j) : d.take i ++ slice d i j = d.take j := by
  obtain ⟨k, rfl⟩ := Nat.exists_eq_add_of_le h
  rw [slice, Nat.add_sub_cancel_left, List.take_add]

theorem putLE_slice {d : Bytes} {i j n : ℕ} (hn : i + n = j) (hj : j ≤ d.length) :
    putLE n (getLE (slice d i j)) = slice d i j := by
  have hlen : (slice d i j).length = n := by
    rw [slice, List.length_take, List.length_drop]
    omega
  rw [← hlen, putLE_getLE]

theorem getLE_slice_lt {d : Bytes} {i j n : ℕ} (hn : i + n = j) :
    getLE (slice d i j) < 256 ^ n := by
  refine lt_of_lt_of_le (getLE_lt _) (Nat.pow_le_pow_right (by norm_num) ?_)
  rw [slice, List.length_take]
  omega

theorem putLE_uint64 {d : Bytes} {i j : ℕ} (hn : i + 8 = j) (hj : j ≤ d.length) :
    putLE 8 (UInt64.ofNat (getLE (slice d i j))).toNat = slice d i j := by
  have hval : (UInt64.ofNat (getLE (slice d i j))).toNat = getLE (slice d i j) :=
    UInt64.toNat_ofNat_of_lt' (getLE_slice_lt hn)
  rw [hval, putLE_slice hn hj]

/-- What decodes starts with the encoding of what it decodes to. -/
theorem encode_of_decode {d : Bytes} (h : decodeEnvelope d = .ok e) :
    e.encode = .ok (d.take (20 + lengthField d)) := by
  obtain ⟨h20, -, hfit⟩ := (decode_ok_iff d).1 ⟨e, h⟩
  unfold decodeEnvelope at h
  dsimp only at h
  split_ifs at h with hlen hversion hshort
  have h := Except.ok.inj h
  have hbody : e.payload = slice d 20 (20 + lengthField d) := by rw [← h]; rfl
  have hpayload : e.payload.length = lengthField d := by
    rw [hbody, slice, List.length_take, List.length_drop]
    omega
  have hfield : lengthField d < 256 ^ 2 := getLE_slice_lt rfl
  have hseq : putLE 8 e.seq.toNat = slice d 2 10 := by
    rw [← h]
    exact putLE_uint64 rfl (by omega)
  have hts : putLE 8 e.ts.toUInt64.toNat = slice d 10 18 := by
    rw [← h, UInt64.toUInt64_toInt64]
    exact putLE_uint64 rfl (by omega)
  have hlf : putLE 2 e.payload.length = slice d 18 20 := by
    rw [hpayload]
    exact putLE_slice rfl h20
  have hfirst : [e.version, e.type] = d.take 2 := by
    rw [← h]
    match d, h20 with
    | a :: b :: rest, _ => rfl
  rw [encode_ok (by rw [hpayload, maxPayloadSize]; omega), hseq, hts, hlf, hfirst, hbody]
  rw [take_slice d (by omega), take_slice d (by omega), take_slice d (by omega),
    take_slice d (by omega)]

theorem copyBytes_slice {d : Bytes} {i n : ℕ} (h : i + n ≤ d.length) :
    copyBytes (List.replicate n 0) (slice d i d.length) = slice d i (i + n) := by
  have hrest : slice d i d.length = d.drop i := by
    rw [slice]
    exact List.take_of_length_le (List.length_drop ▸ le_rfl)
  rw [copyBytes, hrest, List.length_replicate, List.drop_replicate, List.length_drop, slice,
    Nat.add_sub_cancel_left, Nat.sub_eq_zero_of_le (by omega), List.replicate_zero,
    List.append_nil]

/-- No read goes outside the bytes that are decoded. -/
theorem decodeChecked_eq (d : Bytes) : decodeEnvelopeChecked d = some (decodeEnvelope d) := by
  by_cases hlen : d.length < envelopeHeaderSize
  · simp only [decodeEnvelopeChecked, decodeEnvelope, hlen, if_true]
  have h20 : 20 ≤ d.length := not_lt.1 hlen
  have hget : ∀ i < 20, indexChecked d i = some (d.getD i 0) := by
    intro i hi
    rw [indexChecked, List.getD_eq_getElem?_getD, List.getElem?_eq_getElem (by omega),
      Option.getD_some]
  have hslice : ∀ i j, i ≤ j → j ≤ d.length → sliceChecked d i j = some (slice d i j) :=
    fun i j hi hj => if_pos ⟨hi, hj⟩
  simp only [decodeEnvelopeChecked, decodeEnvelope, hlen, if_false, hget 0 (by norm_num),
    hget 1 (by norm_num), hslice 18 20 (by norm_num) h20, hslice 2 10 (by norm_num) (by omega),
    hslice 10 18 (by norm_num) (by omega), hslice envelopeHeaderSize d.length h20 le_rfl,
    Option.bind_eq_bind, Option.bind_some]
  split_ifs with hversion hfit
  · rfl
  · rfl
  · rw [copyBytes_slice (not_lt.1 hfit)]
    rfl

end Envelope

/-- The envelope codec, in both directions, over all envelopes and all byte strings. -/
theorem envelope_codec :
    (∀ e : Envelope, e.version = 1 →
      ((∃ err, e.encode = .error err) ↔ 65535 < e.payload.length)
      ∧ ∀ data, e.encode = .ok data → decodeEnvelope data = .ok e)
    ∧ ∀ d : Bytes,
      ((∃ e, decodeEnvelope d = .ok e)
        ↔ 20 ≤ d.length ∧ d[0]? = some 1 ∧ 20 + getLE (slice d 18 20) ≤ d.length)
      ∧ decodeEnvelopeChecked d = some (decodeEnvelope d)
      ∧ ∀ e, decodeEnvelope d = .ok e → e.encode = .ok (d.take (20 + getLE (slice d 18 20))) := by
  constructor
  · intro e hv
    exact ⟨Envelope.encode_error_iff, fun data h => Envelope.decode_of_encode hv h⟩
  · intro d
    exact ⟨Envelope.decode_ok_iff d, Envelope.decodeChecked_eq d,
      fun e h => Envelope.encode_of_decode h⟩

theorem encodeAck_ok (seq : UInt64) : ∃ data, encodeAck seq = .ok data ∧ decodeEnvelope data
    = .ok { version := envelopeVersion, type := typeAck, seq, ts := 0, payload := [] } := by
  have h := Envelope.encode_ok (e := ⟨envelopeVersion, typeAck, seq, 0, []⟩) (Nat.zero_le _)
  exact ⟨_, h, Envelope.decode_of_encode rfl h⟩

end Aimless
