import Aimless.Lib.Words

/-!
# Hexadecimal and base64 text

The text forms of a byte string: lower-case hex, read back in either case, and the standard padded
base64 alphabet, read back with line breaks ignored.  Reading back what was written gives the
bytes (`Hex.decode_encode`, `Base64.decode_encode`).
-/

abbrev Text := List Char

namespace Hex

def digit (n : ℕ) : Char :=
  if n < 10 then Char.ofNat (48 + n) else Char.ofNat (87 + n)

def value (c : Char) : Option ℕ :=
  if '0' ≤ c ∧ c ≤ '9' then some (c.toNat - 48)
  else if 'a' ≤ c ∧ c ≤ 'f' then some (c.toNat - 87)
  else if 'A' ≤ c ∧ c ≤ 'F' then some (c.toNat - 55)
  else none

def encode : Bytes → Text
  | [] => []
  | b :: bs => digit (b.toNat / 16) :: digit (b.toNat % 16) :: encode bs

inductive DecodeError where
  | invalidByte (c : Char)
  | oddLength
  deriving DecidableEq, Repr

/-- A character that is no digit is reported before an odd length is. -/
def decode : Text → Except DecodeError Bytes
  | [] => .ok []
  | [p] => if (value p).isSome then .error .oddLength else .error (.invalidByte p)
  | p :: q :: rest =>
    match value p, value q with
    | none, _ => .error (.invalidByte p)
    | some _, none => .error (.invalidByte q)
    | some a, some b => (decode rest).map (UInt8.ofNat (16 * a + b) :: ·)

theorem value_digit {n : ℕ} (h : n < 16) : value (digit n) = some n := by
  interval_cases n <;> decide

theorem decode_encode : ∀ b : Bytes, decode (encode b) = .ok b
  | [] => rfl
  | b :: bs => by
    have hb : b.toNat < 256 := b.toNat_lt
    have hhi : value (digit (b.toNat / 16)) = some (b.toNat / 16) := value_digit (by omega)
    have hlo : value (digit (b.toNat % 16)) = some (b.toNat % 16) := value_digit (by omega)
    have hsum : 16 * (b.toNat / 16) + b.toNat % 16 = b.toNat := by omega
    simp only [encode, decode, hhi, hlo, hsum, decode_encode bs, UInt8.ofNat_toNat]
    rfl

theorem encode_injective : Function.Injective encode := by
  intro a b h
  have hdecode := decode_encode a
  rw [h, decode_encode] at hdecode
  exact (Except.ok.inj hdecode).symm

theorem length_encode : ∀ b : Bytes, (encode b).length = 2 * b.length
  | [] => rfl
  | b :: bs => by
    simp only [encode, List.length_cons, length_encode bs]
    omega

theorem value_isSome_of_decode : ∀ {t : Text} {b : Bytes}, decode t = .ok b →
    ∀ c ∈ t, (value c).isSome
  | [], _, _, c, hc => by cases hc
  | [p], b, h, c, hc => by
    simp only [decode] at h
    split at h <;> cases h
  | p :: q :: rest, b, h, c, hc => by
    simp only [decode] at h
    split at h
    · cases h
    · cases h
    · rename_i x y hx hy
      cases hrest : decode rest with
      | error e =>
        rw [hrest] at h
        cases h
      | ok bs =>
        rcases List.mem_cons.1 hc with rfl | hc
        · simp [hx]
        rcases List.mem_cons.1 hc with rfl | hc
        · simp [hy]
        · exact value_isSome_of_decode hrest c hc

end Hex

namespace Base64

def digit (n : ℕ) : Char :=
  if n < 26 then Char.ofNat (65 + n)
  else if n < 52 then Char.ofNat (71 + n)
  else if n < 62 then Char.ofNat (n - 4)
  else if n = 62 then '+'
  else '/'

def value (c : Char) : Option ℕ :=
  if 'A' ≤ c ∧ c ≤ 'Z' then some (c.toNat - 65)
  else if 'a' ≤ c ∧ c ≤ 'z' then some (c.toNat - 71)
  else if '0' ≤ c ∧ c ≤ '9' then some (c.toNat + 4)
  else if c = '+' then some 62
  else if c = '/' then some 63
  else none

def encode : Bytes → Text
  | [] => []
  | [a] => [digit (a.toNat / 4), digit (a.toNat % 4 * 16), '=', '=']
  | [a, b] =>
    [digit (a.toNat / 4), digit (a.toNat % 4 * 16 + b.toNat / 16), digit (b.toNat % 16 * 4), '=']
  | a :: b :: c :: rest =>
    digit (a.toNat / 4) :: digit (a.toNat % 4 * 16 + b.toNat / 16)
      :: digit (b.toNat % 16 * 4 + c.toNat / 64) :: digit (c.toNat % 64) :: encode rest

/-- Four characters at a time; only the last four may be padded. -/
def decodeQuanta : Text → Option Bytes
  | [] => some []
  | a :: b :: c :: d :: rest => do
    let x ← value a
    let y ← value b
    if c = '=' ∧ d = '=' ∧ rest = [] then
      return [UInt8.ofNat (4 * x + y / 16)]
    let z ← value c
    if d = '=' ∧ rest = [] then
      return [UInt8.ofNat (4 * x + y / 16), UInt8.ofNat (y % 16 * 16 + z / 4)]
    let w ← value d
    let bs ← decodeQuanta rest
    return UInt8.ofNat (4 * x + y / 16) :: UInt8.ofNat (y % 16 * 16 + z / 4)
      :: UInt8.ofNat (z % 4 * 64 + w) :: bs
  | _ => none

def decode (t : Text) : Option Bytes :=
  decodeQuanta (t.filter fun c => c ≠ '\r' ∧ c ≠ '\n')

theorem value_digit {n : ℕ} (h : n < 64) : value (digit n) = some n := by
  interval_cases n <;> decide

theorem digit_ne {n : ℕ} (h : n < 64) : digit n ≠ '=' ∧ digit n ≠ '\r' ∧ digit n ≠ '\n' := by
  interval_cases n <;> decide

/-- The characters of an encoded text are digits and padding. -/
theorem mem_encode : ∀ {b : Bytes} {c : Char}, c ∈ encode b → c = '=' ∨ ∃ n < 64, c = digit n
  | [], c, h => by simp [encode] at h
  | [a], c, h => by
    have ha : a.toNat < 256 := a.toNat_lt
    simp only [encode, List.mem_cons, List.not_mem_nil, or_false] at h
    rcases h with rfl | rfl | rfl | rfl
    · exact .inr ⟨_, by omega, rfl⟩
    · exact .inr ⟨_, by omega, rfl⟩
    · exact .inl rfl
    · exact .inl rfl
  | [a, b], c, h => by
    have ha : a.toNat < 256 := a.toNat_lt
    have hb : b.toNat < 256 := b.toNat_lt
    simp only [encode, List.mem_cons, List.not_mem_nil, or_false] at h
    rcases h with rfl | rfl | rfl | rfl
    · exact .inr ⟨_, by omega, rfl⟩
    · exact .inr ⟨_, by omega, rfl⟩
    · exact .inr ⟨_, by omega, rfl⟩
    · exact .inl rfl
  | a :: b :: d :: rest, c, h => by
    have ha : a.toNat < 256 := a.toNat_lt
    have hb : b.toNat < 256 := b.toNat_lt
    have hd : d.toNat < 256 := d.toNat_lt
    simp only [encode, List.mem_cons] at h
    rcases h with rfl | rfl | rfl | rfl | h
    · exact .inr ⟨_, by omega, rfl⟩
    · exact .inr ⟨_, by omega, rfl⟩
    · exact .inr ⟨_, by omega, rfl⟩
    · exact .inr ⟨_, by omega, rfl⟩
    · exact mem_encode h

theorem length_encode : ∀ b : Bytes, (encode b).length = 4 * ((b.length + 2) / 3)
  | [] => rfl
  | [_] => by simp [encode]
  | [_, _] => by simp [encode]
  | _ :: _ :: _ :: rest => by
    have ih := length_encode rest
    simp only [encode, List.length_cons, ih]
    omega

theorem encode_no_break (b : Bytes) : ∀ c ∈ encode b, c ≠ '\r' ∧ c ≠ '\n' := by
  intro c hc
  rcases mem_encode hc with rfl | ⟨n, hn, rfl⟩
  · decide
  · exact (digit_ne hn).2

theorem decodeQuanta_encode : ∀ b : Bytes, decodeQuanta (encode b) = some b
  | [] => rfl
  | [a] => by
    have ha : a.toNat < 256 := a.toNat_lt
    have h1 : 4 * (a.toNat / 4) + a.toNat % 4 * 16 / 16 = a.toNat := by omega
    simp only [encode, decodeQuanta, value_digit (n := a.toNat / 4) (by omega),
      value_digit (n := a.toNat % 4 * 16) (by omega), h1, and_self, if_true,
      Option.bind_eq_bind, Option.bind_some, UInt8.ofNat_toNat, pure]
  | [a, b] => by
    have ha : a.toNat < 256 := a.toNat_lt
    have hb : b.toNat < 256 := b.toNat_lt
    have hz : digit (b.toNat % 16 * 4) ≠ '=' := (digit_ne (by omega)).1
    have h1 : 4 * (a.toNat / 4) + (a.toNat % 4 * 16 + b.toNat / 16) / 16 = a.toNat := by omega
    have h2 : (a.toNat % 4 * 16 + b.toNat / 16) % 16 * 16 + b.toNat % 16 * 4 / 4 = b.toNat := by
      omega
    simp only [encode, decodeQuanta, value_digit (n := a.toNat / 4) (by omega),
      value_digit (n := a.toNat % 4 * 16 + b.toNat / 16) (by omega),
      value_digit (n := b.toNat % 16 * 4) (by omega), hz, h1, h2, false_and, and_self, if_false,
      if_true, Option.bind_eq_bind, Option.bind_some, UInt8.ofNat_toNat, pure]
  | a :: b :: c :: rest => by
    have ha : a.toNat < 256 := a.toNat_lt
    have hb : b.toNat < 256 := b.toNat_lt
    have hc : c.toNat < 256 := c.toNat_lt
    have hz : digit (b.toNat % 16 * 4 + c.toNat / 64) ≠ '=' := (digit_ne (by omega)).1
    have hw : digit (c.toNat % 64) ≠ '=' := (digit_ne (by omega)).1
    have h1 : 4 * (a.toNat / 4) + (a.toNat % 4 * 16 + b.toNat / 16) / 16 = a.toNat := by omega
    have h2 : (a.toNat % 4 * 16 + b.toNat / 16) % 16 * 16 + (b.toNat % 16 * 4 + c.toNat / 64) / 4
        = b.toNat := by omega
    have h3 : (b.toNat % 16 * 4 + c.toNat / 64) % 4 * 64 + c.toNat % 64 = c.toNat := by omega
    simp only [encode, decodeQuanta, value_digit (n := a.toNat / 4) (by omega),
      value_digit (n := a.toNat % 4 * 16 + b.toNat / 16) (by omega),
      value_digit (n := b.toNat % 16 * 4 + c.toNat / 64) (by omega),
      value_digit (n := c.toNat % 64) (by omega), hz, hw, h1, h2, h3, false_and, if_false,
      decodeQuanta_encode rest, Option.bind_eq_bind, Option.bind_some, UInt8.ofNat_toNat, pure]

theorem decode_encode (b : Bytes) : decode (encode b) = some b := by
  have hkeep : (encode b).filter (fun c => decide (c ≠ '\r' ∧ c ≠ '\n')) = encode b :=
    List.filter_eq_self.2 fun c hc => decide_eq_true (encode_no_break b c hc)
  rw [decode, hkeep, decodeQuanta_encode]

end Base64
