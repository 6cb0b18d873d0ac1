import Mathlib.Data.List.TakeWhile
import Aimless.Keys
import Aimless.Lib.Radix

/-!
# The bits of an address

The loop of `yggdrasil_address` goes over 256 bits with a switch, an accumulator of 8 bits and two
counters.  After the switch its state is told by the bits read since (`packed`): the accumulator is
their value modulo 256, and a byte has been put out for every eight of them.
-/

namespace Aimless

open Python (Str Exc)

/-- The bit of a key with an index, the most significant first. -/
def keyBit (key : Bytes) (j : ℕ) : ℕ := (key.getD (j / 8) 0).toNat / 2 ^ (7 - j % 8) % 2

/-- How many zero bits a key starts with. -/
def leadingZeros (key : Bytes) : ℕ := ((List.range 256).takeWhile fun j => keyBit key j = 0).length

/-- The complement of the eight bits of a key from an index on, as a byte. -/
def complementByte (key : Bytes) (start : ℕ) : ℕ :=
  Radix.value 2 ((List.range 8).map fun j => 1 - keyBit key (start + j))

/-- The byte of the address with an index, after the first two: zero where its bits are not all
there. -/
def addressByte (key : Bytes) (i : ℕ) : ℕ :=
  if leadingZeros key + 8 + 8 * i < 256 then complementByte key (leadingZeros key + 1 + 8 * i) else 0

/-- How far a property goes on from zero. -/
theorem takeWhile_range_spec (p : ℕ → Bool) (n : ℕ) {k : ℕ}
    (hk : k = ((List.range n).takeWhile p).length) :
    k ≤ n ∧ (∀ j < k, p j = true) ∧ (k < n → p k = false) := by
  have hle : k ≤ n := by
    have := (List.takeWhile_sublist (l := List.range n) p).length_le
    rwa [← hk, List.length_range] at this
  have htake : (List.range n).takeWhile p = List.range k := by
    have := List.prefix_iff_eq_take.1 (List.takeWhile_prefix (l := List.range n) p)
    rw [this, ← hk, List.take_range, min_eq_left hle]
  have hdrop : (List.range n).dropWhile p = (List.range n).drop k := by
    have hsplit : (List.range n).takeWhile p ++ (List.range n).dropWhile p = List.range n :=
      List.takeWhile_append_dropWhile
    conv_rhs => rw [← hsplit]
    rw [List.drop_left' hk.symm]
  refine ⟨hle, fun j hj => ?_, fun hlt => ?_⟩
  · have hmem : j ∈ (List.range n).takeWhile p := by
      rw [htake]
      exact List.mem_range.2 hj
    exact List.mem_takeWhile_imp hmem
  · have hne : (List.range n).dropWhile p ≠ [] := by
      rw [hdrop]
      simp [hlt]
    have hhead := List.head_dropWhile_not p hne
    simp only [hdrop, List.head_drop, List.getElem_range] at hhead
    simpa using hhead

theorem keyBit_lt (key : Bytes) (j : ℕ) : keyBit key j < 2 := Nat.mod_lt _ (by norm_num)

/-- The loop reads the bits of the key inverted. -/
theorem bitAt_inverted {key : Bytes} {idx : ℕ} (h : idx < 8 * key.length) :
    bitAt (key.map (· ^^^ 0xFF)) idx = 1 - keyBit key idx := by
  have hall : ∀ b : Fin 256, ∀ r : Fin 8,
      (((UInt8.ofNat b.val) ^^^ 0xFF).toNat &&& (0x80 >>> r.val)) >>> (7 - r.val)
        = 1 - b.val / 2 ^ (7 - r.val) % 2 := by decide +kernel
  have hlt : idx / 8 < key.length := by omega
  unfold bitAt keyBit
  rw [List.getD_eq_getElem _ _ (by rwa [List.length_map]), List.getElem_map,
    List.getD_eq_getElem _ _ hlt]
  have := hall ⟨(key[idx / 8]).toNat, (key[idx / 8]).toNat_lt⟩ ⟨idx % 8, Nat.mod_lt _ (by norm_num)⟩
  rwa [UInt8.ofNat_toNat] at this

/-! ### The loop -/

namespace AddressLoop

theorem and_255 (n : ℕ) : n &&& 0xFF = n % 256 := Nat.and_two_pow_sub_one_eq_mod n 8

/-- Before the switch ones are counted. -/
theorem foldl_ones (n : ℕ) :
    (List.replicate n 1).foldl next {} = { ones := n % 256 } := by
  induction n with
  | zero => rfl
  | succ n ih =>
    rw [List.replicate_succ', List.foldl_append, ih]
    simp [next, and_255]

/-- What the loop has after the switch and some bits. -/
def packed (ones : ℕ) (l : List ℕ) : AddressLoop where
  done := true
  ones := ones
  bits := Radix.value 2 l % 256
  nbits := l.length % 8
  temp := (List.range (l.length / 8)).map fun i => Radix.value 2 (l.take (8 * (i + 1))) % 256

theorem next_packed (ones : ℕ) (l : List ℕ) {b : ℕ} (hb : b < 2) :
    (packed ones l).next b = packed ones (l ++ [b]) := by
  have hbits : ((Radix.value 2 l % 256) <<< 1 ||| b) &&& 0xFF = Radix.value 2 (l ++ [b]) % 256 := by
    rw [← Nat.shiftLeft_add_eq_or_of_lt hb, and_255, Nat.shiftLeft_eq, Radix.value_append]
    simp only [List.length_singleton, Radix.value, List.foldl_cons, List.foldl_nil]
    omega
  have hold : ∀ i ∈ List.range (l.length / 8), (l ++ [b]).take (8 * (i + 1)) = l.take (8 * (i + 1)) := by
    intro i hi
    have := List.mem_range.1 hi
    exact List.take_append_of_le_length (by omega)
  have hlen : (l ++ [b]).length = l.length + 1 := by simp
  unfold next
  simp only [packed, Bool.true_eq_false, false_and, if_false, hbits, hlen]
  split
  · -- the eighth bit of a byte
    rename_i hfull
    have hdiv : (l.length + 1) / 8 = l.length / 8 + 1 := by omega
    have hmod : (l.length + 1) % 8 = 0 := by omega
    have htake : (l ++ [b]).take (8 * (l.length / 8 + 1)) = l ++ [b] :=
      List.take_of_length_le (by rw [hlen]; omega)
    rw [hdiv, hmod, List.range_succ, List.map_append, List.map_singleton, htake]
    congr 2
    exact List.map_congr_left fun i hi => by rw [hold i hi]
  · have hdiv : (l.length + 1) / 8 = l.length / 8 := by omega
    have hmod : (l.length + 1) % 8 = l.length % 8 + 1 := by omega
    rw [hdiv, hmod]
    congr 1
    exact List.map_congr_left fun i hi => by rw [hold i hi]

theorem foldl_packed (ones : ℕ) {l : List ℕ} (h : ∀ b ∈ l, b < 2) :
    l.foldl next (packed ones []) = packed ones l := by
  induction l using List.reverseRecOn with
  | nil => rfl
  | append_singleton l b ih =>
    rw [List.foldl_append, ih fun b hb => h b (List.mem_append_left _ hb)]
    exact next_packed ones l (h b (by simp))

end AddressLoop

/-! ### The bytes -/

/-- Writing bytes one after the other, as far as the address goes. -/
theorem getElem?_writeBytes : ∀ (temp : List ℕ) (n : ℕ) (addr : Bytes) (j : ℕ),
    ((temp.zipIdx n).foldl (fun addr e =>
      if 2 + e.2 < 16 then addr.set (2 + e.2) (UInt8.ofNat e.1) else addr) addr)[j]?
        = if 2 + n ≤ j ∧ j < 2 + n + temp.length ∧ j < 16 ∧ j < addr.length
          then some (UInt8.ofNat (temp.getD (j - (2 + n)) 0)) else addr[j]?
  | [], n, addr, j => by
    rw [if_neg (by simp; omega)]
    rfl
  | b :: temp, n, addr, j => by
    rw [List.zipIdx_cons, List.foldl_cons, getElem?_writeBytes temp (n + 1)]
    have hlen : (if 2 + n < 16 then addr.set (2 + n) (UInt8.ofNat b) else addr).length
        = addr.length := by
      split <;> simp
    rw [hlen]
    by_cases hj : j = 2 + n
    · subst hj
      rw [if_neg (by omega)]
      by_cases h16 : 2 + n < 16
      · rw [if_pos h16, List.getElem?_set_self']
        by_cases hin : 2 + n < addr.length
        · rw [if_pos (by simp; omega), List.getElem?_eq_getElem hin]
          simp
        · rw [if_neg (by omega), List.getElem?_eq_none (by omega)]
          rfl
      · rw [if_neg h16, if_neg (by omega)]
    · have hget : (if 2 + n < 16 then addr.set (2 + n) (UInt8.ofNat b) else addr)[j]? = addr[j]? := by
        split
        · exact List.getElem?_set_ne (Ne.symm hj)
        · rfl
      rw [hget]
      by_cases hin : 2 + (n + 1) ≤ j ∧ j < 2 + (n + 1) + temp.length ∧ j < 16 ∧ j < addr.length
      · rw [if_pos hin, if_pos (by simp only [List.length_cons]; omega)]
        have hsub : j - (2 + n) = j - (2 + (n + 1)) + 1 := by omega
        rw [hsub, List.getD_cons_succ]
      · rw [if_neg hin, if_neg (by simp only [List.length_cons]; omega)]

/-- The address that the loop's result makes. -/
theorem writeBytes_eq (ones : ℕ) (temp : List ℕ) :
    temp.zipIdx.foldl (fun addr e =>
        if 2 + e.2 < 16 then addr.set (2 + e.2) (UInt8.ofNat e.1) else addr)
      (((List.replicate 16 0).set 0 2).set 1 (UInt8.ofNat ones))
      = 2 :: UInt8.ofNat ones :: (List.range 14).map fun i => UInt8.ofNat (temp.getD i 0) := by
  refine List.ext_getElem? fun j => ?_
  rw [getElem?_writeBytes]
  match j with
  | 0 => simp
  | 1 => simp
  | j + 2 =>
    have hzero : (((List.replicate 16 (0 : UInt8)).set 0 2).set 1 (UInt8.ofNat ones))[j + 2]?
        = if j < 14 then some 0 else none := by
      rw [List.getElem?_set_ne (by omega), List.getElem?_set_ne (by omega), List.getElem?_replicate]
      exact if_congr (by omega) rfl rfl
    rw [hzero, List.getElem?_cons_succ, List.getElem?_cons_succ, List.getElem?_map]
    simp only [List.length_set, List.length_replicate, Nat.add_zero, Nat.add_sub_cancel]
    by_cases hj : j < 14
    · rw [List.getElem?_range hj]
      by_cases ht : j < temp.length
      · rw [if_pos (by omega)]
        rfl
      · rw [if_neg (by omega), if_pos hj, Option.map_some, List.getD_eq_default _ _ (by omega)]
        rfl
    · rw [if_neg (by omega), if_neg hj, List.getElem?_eq_none (by rw [List.length_range]; omega)]
      rfl

/-! ### The address of a key -/

/-- The bits of a key inverted. -/
def invertedBits (key : Bytes) : List ℕ := (List.range 256).map fun j => 1 - keyBit key j

theorem invertedBits_getElem {key : Bytes} {j : ℕ} (h : j < (invertedBits key).length) :
    (invertedBits key)[j] = 1 - keyBit key j := by
  simp [invertedBits]

theorem length_invertedBits (key : Bytes) : (invertedBits key).length = 256 := by
  simp [invertedBits]

/-- The inverted bits start with as many ones as the key does with zeros. -/
theorem take_invertedBits (key : Bytes) :
    (invertedBits key).take (leadingZeros key) = List.replicate (leadingZeros key) 1 := by
  obtain ⟨hle, hzero, -⟩ := takeWhile_range_spec (fun j => keyBit key j = 0) 256
    (k := leadingZeros key) rfl
  refine List.ext_getElem (by simp [length_invertedBits, hle]) fun j hj hj' => ?_
  have hlt : j < leadingZeros key := by simpa using hj'
  have hbit : keyBit key j = 0 := by simpa using hzero j hlt
  rw [List.getElem_take, invertedBits_getElem, hbit, List.getElem_replicate]

/-- The state of the loop at its end. -/
theorem loop_eq {key : Bytes} (h : key.length = 32) :
    (List.range (8 * (key.map (· ^^^ 0xFF)).length)).foldl
      (fun s idx => AddressLoop.next s (bitAt (key.map (· ^^^ 0xFF)) idx)) {}
    = (invertedBits key).foldl AddressLoop.next {} := by
  have hbits : (List.range 256).map (bitAt (key.map (· ^^^ 0xFF))) = invertedBits key :=
    List.map_congr_left fun idx hidx => bitAt_inverted (by
      have := List.mem_range.1 hidx
      omega)
  rw [← hbits, List.foldl_map, List.length_map, h]

/-- The bits after the first one of the key. -/
def tailBits (key : Bytes) : List ℕ := (invertedBits key).drop (leadingZeros key + 1)

theorem loop_packed {key : Bytes} (h : leadingZeros key < 256) :
    (invertedBits key).foldl AddressLoop.next {}
      = AddressLoop.packed (leadingZeros key % 256) (tailBits key) := by
  obtain ⟨-, -, hone⟩ := takeWhile_range_spec (fun j => keyBit key j = 0) 256
    (k := leadingZeros key) rfl
  have hbit : keyBit key (leadingZeros key) ≠ 0 := by simpa using hone h
  have hlt := keyBit_lt key (leadingZeros key)
  have hin : leadingZeros key < (invertedBits key).length := by rwa [length_invertedBits]
  have hsplit : invertedBits key = List.replicate (leadingZeros key) 1 ++ 0 :: tailBits key := by
    have hcons : (invertedBits key).drop (leadingZeros key) = 0 :: tailBits key := by
      rw [List.drop_eq_getElem_cons hin, invertedBits_getElem]
      exact congrArg (· :: _) (by omega)
    rw [← take_invertedBits, ← hcons, List.take_append_drop]
  have htail : ∀ b ∈ tailBits key, b < 2 := by
    intro b hb
    obtain ⟨j, -, rfl⟩ := List.mem_map.1 (List.mem_of_mem_drop hb)
    omega
  rw [hsplit, List.foldl_append, AddressLoop.foldl_ones, List.foldl_cons]
  exact AddressLoop.foldl_packed _ htail

theorem complementByte_lt (key : Bytes) (start : ℕ) : complementByte key start < 256 := by
  have hlt := Radix.value_lt (b := 2) (by norm_num)
    (l := (List.range 8).map fun j => 1 - keyBit key (start + j)) (by
      intro d hd
      obtain ⟨j, -, rfl⟩ := List.mem_map.1 hd
      omega)
  rwa [List.length_map, List.length_range] at hlt

theorem addressByte_lt (key : Bytes) (i : ℕ) : addressByte key i < 256 := by
  unfold addressByte
  split
  · exact complementByte_lt key _
  · norm_num

theorem length_tailBits (key : Bytes) : (tailBits key).length = 255 - leadingZeros key := by
  rw [tailBits, List.length_drop, length_invertedBits]
  omega

/-- The byte that is put out for eight bits is the complement of those of the key. -/
theorem packed_byte {key : Bytes} {i : ℕ} (h : leadingZeros key + 8 + 8 * i < 256) :
    Radix.value 2 ((tailBits key).take (8 * (i + 1))) % 256
      = complementByte key (leadingZeros key + 1 + 8 * i) := by
  have hlen := length_tailBits key
  set last := ((tailBits key).drop (8 * i)).take 8
  have hsplit : (tailBits key).take (8 * (i + 1)) = (tailBits key).take (8 * i) ++ last := by
    rw [Nat.mul_succ, List.take_add]
  have hlast : last = (List.range 8).map fun j => 1 - keyBit key (leadingZeros key + 1 + 8 * i + j) := by
    refine List.ext_getElem (by simp [last, hlen]; omega) fun j hj hj' => ?_
    have hj8 : j < 8 := by simpa using hj'
    simp only [last, tailBits, List.getElem_take, List.getElem_drop, List.getElem_map,
      List.getElem_range, invertedBits_getElem]
    congr 2
    omega
  have hsmall := complementByte_lt key (leadingZeros key + 1 + 8 * i)
  have hlast8 : last.length = 8 := by rw [hlast, List.length_map, List.length_range]
  rw [hsplit, Radix.value_append, hlast8, hlast]
  unfold complementByte at hsmall ⊢
  omega

/-- The address of a key: two, the number of the leading zero bits of the key, and the complement of
the bits after the first one, in whole bytes. -/
theorem address_bits (key : Bytes) (h : key.length = 32) :
    yggdrasilAddress key = .ok (IPv6.compressed (addressBytes key))
      ∧ (addressBytes key).map UInt8.toNat
        = 2 :: leadingZeros key % 256 :: (List.range 14).map (addressByte key) := by
  refine ⟨if_neg (by simp [h]), ?_⟩
  obtain ⟨hle, -, -⟩ := takeWhile_range_spec (fun j => keyBit key j = 0) 256
    (k := leadingZeros key) rfl
  unfold addressBytes
  dsimp only
  rw [loop_eq h, writeBytes_eq]
  obtain ⟨hones, htemp⟩ : ((invertedBits key).foldl AddressLoop.next {}).ones = leadingZeros key % 256
      ∧ ∀ i, ((invertedBits key).foldl AddressLoop.next {}).temp.getD i 0 = addressByte key i := by
    rcases hle.lt_or_eq with hlt | heq
    · rw [loop_packed hlt]
      refine ⟨rfl, fun i => ?_⟩
      have hlen := length_tailBits key
      unfold addressByte
      by_cases hi : leadingZeros key + 8 + 8 * i < 256
      · rw [if_pos hi, ← packed_byte hi, AddressLoop.packed, List.getD_eq_getElem _ _ (by
          rw [List.length_map, List.length_range, hlen]
          omega), List.getElem_map, List.getElem_range]
      · rw [if_neg hi, AddressLoop.packed, List.getD_eq_default _ _ (by
          rw [List.length_map, List.length_range, hlen]
          omega)]
    · -- a key of zeros
      have hall : invertedBits key = List.replicate 256 1 := by
        have := take_invertedBits key
        rwa [heq, List.take_of_length_le (length_invertedBits key).le] at this
      rw [hall, AddressLoop.foldl_ones, heq]
      refine ⟨rfl, fun i => ?_⟩
      rw [addressByte, if_neg (by omega)]
      rfl
  simp only [hones, htemp, List.map_cons, List.map_map]
  refine congrArg₂ _ rfl (congrArg₂ _ ?_ (List.map_congr_left fun i _ => ?_))
  · exact UInt8.toNat_ofNat_of_lt (Nat.mod_lt _ (by norm_num))
  · exact UInt8.toNat_ofNat_of_lt (addressByte_lt key i)

/-- The key of yggdrasil's own test. -/
def vectorKey : Bytes := [
  189, 186, 207, 216, 34, 64, 222, 61, 205, 18, 57, 36, 203, 181, 82, 86, 251, 141, 171, 8, 170, 152,
  227, 5, 82, 138, 184, 79, 65, 158, 110, 251]

theorem address_bits_vector :
    yggdrasilAddress vectorKey = .ok (Python.str "200:848a:604f:bb7e:4384:65db:8db6:6895".toList)
      ∧ (addressBytes vectorKey).map UInt8.toNat
        = 2 :: leadingZeros vectorKey % 256 :: (List.range 14).map (addressByte vectorKey) :=
  ⟨by decide +kernel, (address_bits vectorKey rfl).2⟩

end Aimless
