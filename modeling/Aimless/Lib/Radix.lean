import Mathlib.Data.List.TakeWhile
import Mathlib.Data.Nat.Digits.Lemmas

/-!
# Numerals with their leading zeros

A list of digits, the most significant first, is told by the number it spells and the number of its
leading zeros, and any two numbers tell one (`spell_value`, `value_spell`, `zeros_spell`).  So the
numerals in two bases are in one-to-one correspondence, leading zeros and all.
-/

namespace Radix

variable {b : ℕ}

/-- The number that digits spell. -/
def value (b : ℕ) (l : List ℕ) : ℕ := l.foldl (fun n d => n * b + d) 0

def zeros (l : List ℕ) : ℕ := (l.takeWhile (· = 0)).length

/-- The digits of a number behind some zeros. -/
def spell (b z n : ℕ) : List ℕ := List.replicate z 0 ++ (Nat.digits b n).reverse

theorem value_eq (b : ℕ) (l : List ℕ) : value b l = Nat.ofDigits b l.reverse := by
  induction l using List.reverseRecOn with
  | nil => rfl
  | append_singleton l d ih =>
    unfold value at ih ⊢
    rw [List.foldl_append, ih, List.reverse_append, List.reverse_singleton, List.singleton_append,
      Nat.ofDigits_cons]
    simp [Nat.mul_comm, Nat.add_comm]

theorem value_append (b : ℕ) (l m : List ℕ) :
    value b (l ++ m) = value b l * b ^ m.length + value b m := by
  rw [value_eq, value_eq, value_eq, List.reverse_append, Nat.ofDigits_append, List.length_reverse]
  ring

theorem value_lt (hb : 1 < b) {l : List ℕ} (h : ∀ d ∈ l, d < b) : value b l < b ^ l.length := by
  rw [value_eq, ← List.length_reverse]
  exact Nat.ofDigits_lt_base_pow_length hb fun d hd => h d (List.mem_reverse.1 hd)

theorem value_spell (b z n : ℕ) : value b (spell b z n) = n := by
  rw [value_eq, spell, List.reverse_append, List.reverse_reverse, List.reverse_replicate,
    Nat.ofDigits_append_replicate_zero, Nat.ofDigits_digits]

theorem zeros_replicate_append {z : ℕ} {l : List ℕ} (h : ∀ d ∈ l.head?, d ≠ 0) :
    zeros (List.replicate z 0 ++ l) = z := by
  unfold zeros
  rw [List.takeWhile_append_of_pos fun d hd => by simp [List.eq_of_mem_replicate hd]]
  have hnil : l.takeWhile (· = 0) = [] := by
    cases l with
    | nil => rfl
    | cons d l => exact List.takeWhile_cons_of_neg (by simpa using h d rfl)
  rw [hnil, List.append_nil, List.length_replicate]

theorem zeros_spell (b z n : ℕ) : zeros (spell b z n) = z := by
  refine zeros_replicate_append fun d hd => ?_
  have hne : n ≠ 0 := by
    rintro rfl
    rw [Nat.digits_zero] at hd
    cases hd
  rw [List.head?_reverse, List.getLast?_eq_some_getLast (Nat.digits_ne_nil_iff_ne_zero.2 hne)] at hd
  rw [← Option.some.inj hd]
  exact Nat.getLast_digit_ne_zero b hne

theorem digit_lt (hb : 1 < b) {z n d : ℕ} (h : d ∈ spell b z n) : d < b := by
  rcases List.mem_append.1 h with h | h
  · rw [List.eq_of_mem_replicate h]
    omega
  · exact Nat.digits_lt_base hb (List.mem_reverse.1 h)

theorem replicate_zeros (l : List ℕ) :
    List.replicate (zeros l) 0 ++ l.dropWhile (· = 0) = l := by
  have hzeros : l.takeWhile (· = 0) = List.replicate (zeros l) 0 :=
    List.eq_replicate_of_mem fun d hd => by simpa using List.mem_takeWhile_imp hd
  rw [← hzeros, List.takeWhile_append_dropWhile]

theorem zeros_le (l : List ℕ) : zeros l ≤ l.length := (List.takeWhile_sublist _).length_le

theorem value_eq_dropWhile (b : ℕ) (l : List ℕ) :
    value b l = Nat.ofDigits b (l.dropWhile (· = 0)).reverse := by
  conv_lhs => rw [← replicate_zeros l]
  rw [value_eq, List.reverse_append, List.reverse_replicate, Nat.ofDigits_append_replicate_zero]

/-- Leading zeros add nothing. -/
theorem value_lt_of_zeros (hb : 1 < b) {l : List ℕ} (h : ∀ d ∈ l, d < b) :
    value b l < b ^ (l.length - zeros l) := by
  have hlen : (l.dropWhile (· = 0)).reverse.length = l.length - zeros l := by
    have := congrArg List.length (replicate_zeros l)
    rw [List.length_append, List.length_replicate] at this
    rw [List.length_reverse]
    omega
  rw [value_eq_dropWhile, ← hlen, List.length_reverse, ← value_eq]
  exact value_lt hb fun d hd => h d (List.dropWhile_subset _ hd)

/-- Digits are spelled by the number of their zeros and their value. -/
theorem spell_value (hb : 1 < b) {l : List ℕ} (h : ∀ d ∈ l, d < b) :
    spell b (zeros l) (value b l) = l := by
  set r := l.dropWhile (· = 0)
  have hsplit : List.replicate (zeros l) 0 ++ r = l := replicate_zeros l
  have hvalue : value b l = Nat.ofDigits b r.reverse := value_eq_dropWhile b l
  have hdigits : Nat.digits b (Nat.ofDigits b r.reverse) = r.reverse := by
    refine Nat.digits_ofDigits b hb _ (fun d hd => ?_) fun hne => ?_
    · exact h d (List.dropWhile_subset _ (List.mem_reverse.1 hd))
    · have hr : r ≠ [] := fun hnil => hne (by rw [hnil, List.reverse_nil])
      rw [List.getLast_reverse]
      simpa using List.head_dropWhile_not (fun d => decide (d = 0)) hr
  rw [spell, hvalue, hdigits, List.reverse_reverse, hsplit]

end Radix
