import Mathlib

/-!
# Bytes and machine words

Byte strings, the little-endian layout of an unsigned integer in a fixed number of bytes, and the
signed order of `Int64`.
-/

abbrev Bytes := List UInt8

namespace Words

/-- The `n` low-order bytes of `v`, least significant first. -/
def putLE : ℕ → ℕ → Bytes
  | 0, _ => []
  | n + 1, v => UInt8.ofNat (v % 256) :: putLE n (v / 256)

/-- The unsigned integer whose bytes are `b`, least significant first. -/
def getLE : Bytes → ℕ
  | [] => 0
  | b :: bs => b.toNat + 256 * getLE bs

@[simp] theorem length_putLE : ∀ n v : ℕ, (putLE n v).length = n
  | 0, _ => rfl
  | n + 1, v => by rw [putLE, List.length_cons, length_putLE n]

theorem getLE_putLE : ∀ (n v : ℕ), v < 256 ^ n → getLE (putLE n v) = v
  | 0, v, h => by simp at h; simp [putLE, getLE, h]
  | n + 1, v, h => by
    have hdiv : v / 256 < 256 ^ n := by
      rw [Nat.div_lt_iff_lt_mul (by norm_num)]
      rwa [pow_succ] at h
    have hbyte : (UInt8.ofNat (v % 256)).toNat = v % 256 := by
      rw [UInt8.toNat_ofNat', Nat.mod_eq_of_lt]
      exact Nat.mod_lt _ (by norm_num)
    rw [putLE, getLE, hbyte, getLE_putLE n _ hdiv]
    omega

theorem getLE_lt : ∀ b : Bytes, getLE b < 256 ^ b.length
  | [] => by simp [getLE]
  | b :: bs => by
    have ih := getLE_lt bs
    have hb : b.toNat < 256 := b.toNat_lt
    rw [getLE, List.length_cons, pow_succ]
    omega

theorem putLE_getLE : ∀ b : Bytes, putLE b.length (getLE b) = b
  | [] => rfl
  | b :: bs => by
    have hb : b.toNat < 256 := b.toNat_lt
    have hlow : (b.toNat + 256 * getLE bs) % 256 = b.toNat := by omega
    have hhigh : (b.toNat + 256 * getLE bs) / 256 = getLE bs := by omega
    rw [List.length_cons, getLE, putLE, hlow, hhigh, putLE_getLE bs, UInt8.ofNat_toNat]

instance int64LinearOrder : LinearOrder Int64 where
  le_refl a := Int64.le_refl a
  le_trans a b c := Int64.le_trans
  le_antisymm a b := Int64.le_antisymm
  le_total a b := Int64.le_total a b
  lt_iff_le_not_ge a b := by rw [Int64.lt_iff_le_and_ne]; grind
  toDecidableLE := inferInstance
  toDecidableEq := inferInstance
  toDecidableLT := inferInstance

instance uint64LinearOrder : LinearOrder UInt64 where
  le_refl a := UInt64.le_refl a
  le_trans a b c := UInt64.le_trans
  le_antisymm a b := UInt64.le_antisymm
  le_total a b := UInt64.le_total a b
  lt_iff_le_not_ge a b := by rw [UInt64.lt_iff_le_and_ne]; grind
  toDecidableLE := inferInstance
  toDecidableEq := inferInstance
  toDecidableLT := inferInstance

theorem toInt64_inj {a b : UInt64} : a.toInt64 = b.toInt64 ↔ a = b :=
  ⟨fun h => by simpa using congrArg Int64.toUInt64 h, fun h => h ▸ rfl⟩

/-- `2 ^ 63`: the least word that is negative as a signed one. -/
def signBit : UInt64 := 0x8000000000000000

/-- A word with its sign bit set comes before those without it. -/
theorem toInt64_lt_iff (a b : UInt64) : a.toInt64 < b.toInt64 ↔
    (a < signBit ↔ b < signBit) ∧ a < b ∨ ¬ a < signBit ∧ b < signBit := by
  have hval : ∀ x : UInt64, x.toInt64.toInt
      = if x.toNat < 2 ^ 63 then (x.toNat : ℤ) else x.toNat - 2 ^ 64 := by
    intro x
    rw [show x.toInt64.toInt = x.toBitVec.toInt from rfl, BitVec.toInt_eq_toNat_cond,
      show x.toBitVec.toNat = x.toNat from rfl]
    split_ifs <;> omega
  have hbit : signBit.toNat = 2 ^ 63 := rfl
  have ha := a.toNat_lt
  have hb := b.toNat_lt
  simp only [Int64.lt_iff_toInt_lt, UInt64.lt_iff_toNat_lt, hval, hbit]
  split_ifs <;> omega

end Words
