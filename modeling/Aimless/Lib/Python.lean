import Mathlib.Data.List.DropRight
import Aimless.Lib.TextCodec

/-!
# Python values

The values `json.loads` gives, and what Python's operators and a few library calls do with them:
truth, equality, dict lookup, `str.encode`, `bytes.fromhex`, `base64.b64decode`, and the exceptions
these raise.  A string is a list of code points; lone surrogates are code points too, which is
where `str.encode` fails.
-/

namespace Python

abbrev CodePoint := Fin 0x110000

abbrev Str := List CodePoint

/-- The exceptions that are told apart.  A subclass counts as its base class: `JSONDecodeError`,
`UnicodeError`, `binascii.Error` and `nacl.exceptions.ValueError` are `ValueError`s, and
`nacl.exceptions.TypeError` is a `TypeError`. -/
inductive Exc where
  | valueError
  | keyError
  | typeError
  | attributeError
  | overflowError
  | recursionError
  | cryptoError
  | sqliteError
  | osError
  deriving DecidableEq, Repr

theorem bind_eq_ok {α β : Type} {x : Except Exc α} {f : α → Except Exc β} {r : β} :
    (x >>= f) = .ok r ↔ ∃ a, x = .ok a ∧ f a = .ok r := by
  cases x with
  | error e => simp [bind, Except.bind]
  | ok a => simp [bind, Except.bind]

def codePoint (c : Char) : CodePoint :=
  ⟨c.toNat, by
    rcases c.valid with h | h
    · exact lt_trans h (by decide)
    · exact h.2⟩

theorem codePoint_injective : Function.Injective codePoint := fun a b h => by
  have hval : (codePoint a).val = (codePoint b).val := by rw [h]
  exact Char.ext (UInt32.toNat_inj.1 hval)

def str (t : Text) : Str := t.map codePoint

/-- A `float`; a finite one is a rational. -/
inductive Float where
  | nan
  | inf (negative : Bool)
  | fin (q : ℚ)
  deriving DecidableEq

/-- What `json.loads` can give; a dict is its entries, of which a lookup finds the first. -/
inductive Json where
  | null
  | bool (b : Bool)
  | int (n : ℤ)
  | float (x : Float)
  | str (s : Str)
  | arr (l : List Json)
  | obj (fields : List (Str × Json))

namespace Json

/-- `bool(v)`. -/
def truthy : Json → Bool
  | .null => false
  | .bool b => b
  | .int n => n ≠ 0
  | .float x => x ≠ .fin 0
  | .str s => s ≠ []
  | .arr l => !l.isEmpty
  | .obj fields => !fields.isEmpty

/-- The number a value is equal to: `True == 1 == 1.0`. -/
def number : Json → Option Float
  | .bool b => some (.fin (if b then 1 else 0))
  | .int n => some (.fin n)
  | .float x => some x
  | _ => none

/-- `v == n`. -/
def eqInt (v : Json) (n : ℤ) : Bool := v.number = some (.fin n)

/-- `v == s`. -/
def eqStr : Json → Str → Bool
  | .str t, s => t = s
  | _, _ => false

/-- A list or a dict cannot be a dict key. -/
def hashable : Json → Bool
  | .arr _ => false
  | .obj _ => false
  | _ => true

/-- Equality of two values that are dict keys; a NaN is no other key. -/
def keyEq : Json → Json → Bool
  | .null, .null => true
  | .str s, .str t => s = t
  | a, b => a.number.isSome && a.number ≠ some .nan && a.number = b.number

end Json

/-- A dict whose keys need not be strings, in insertion order. -/
abbrev Dict := List (Json × Json)

/-- `d[k] = v`: a key that is present keeps its place and its spelling. -/
def Dict.set (d : Dict) (k v : Json) : Dict :=
  if d.any fun e => e.1.keyEq k then d.map fun e => if e.1.keyEq k then (e.1, v) else e
  else d ++ [(k, v)]

/-- `fields.get(k)`. -/
def get? (fields : List (Str × Json)) (k : Str) : Option Json := fields.lookup k

/-- `fields[k]`. -/
def getItem (fields : List (Str × Json)) (k : Str) : Except Exc Json :=
  match get? fields k with
  | some v => .ok v
  | none => .error .keyError

/-- `d[k] = v`: a key that is present keeps its place. -/
def setItem (fields : List (Str × Json)) (k : Str) (v : Json) : List (Str × Json) :=
  if fields.any fun e => e.1 = k then fields.map fun e => if e.1 = k then (k, v) else e
  else fields ++ [(k, v)]

theorem keys_setItem (fields : List (Str × Json)) (k : Str) (v : Json) :
    (setItem fields k v).map Prod.fst =
      if k ∈ fields.map Prod.fst then fields.map Prod.fst else fields.map Prod.fst ++ [k] := by
  have hany : (fields.any fun e => e.1 = k) = true ↔ k ∈ fields.map Prod.fst := by
    simp [List.any_eq_true]
  unfold setItem
  by_cases hk : k ∈ fields.map Prod.fst
  · rw [if_pos (hany.2 hk), if_pos hk, List.map_map]
    apply List.map_congr_left
    intro e _
    by_cases he : e.1 = k <;> simp [he]
  · rw [if_neg (fun h => hk (hany.1 h)), if_neg hk, List.map_append]
    rfl

theorem mem_keys_setItem {fields : List (Str × Json)} {k q : Str} {v : Json} :
    q ∈ (setItem fields k v).map Prod.fst ↔ q ∈ fields.map Prod.fst ∨ q = k := by
  rw [keys_setItem]
  split
  · rename_i hk
    exact ⟨.inl, fun h => h.elim id fun hq => hq ▸ hk⟩
  · rw [List.mem_append, List.mem_singleton]

theorem nodup_setItem {fields : List (Str × Json)} (h : (fields.map Prod.fst).Nodup) (k : Str)
    (v : Json) : ((setItem fields k v).map Prod.fst).Nodup := by
  rw [keys_setItem]
  split
  · exact h
  · rename_i hk
    refine List.nodup_append.2 ⟨h, List.nodup_singleton k, fun a ha b hb => ?_⟩
    rw [List.mem_singleton.1 hb]
    exact fun hak => hk (hak ▸ ha)

section Update

variable {α β : Type} [BEq α] [LawfulBEq α] [DecidableEq α]

theorem lookup_map_set {k q : α} {v : β} (hq : q ≠ k) : ∀ fields : List (α × β),
    (fields.map fun e => if e.1 = k then (k, v) else e).lookup q = fields.lookup q
  | [] => rfl
  | e :: rest => by
    have ih := lookup_map_set (v := v) hq rest
    by_cases he : e.1 = k
    · rw [List.map_cons, if_pos he, List.lookup_cons, beq_false_of_ne hq, List.lookup_cons, he,
        beq_false_of_ne hq]
      exact ih
    · rw [List.map_cons, if_neg he, List.lookup_cons, List.lookup_cons, ih]

theorem lookup_map_set_self {k : α} {v : β} : ∀ {fields : List (α × β)},
    (∃ e ∈ fields, e.1 = k) →
    (fields.map fun e => if e.1 = k then (k, v) else e).lookup k = some v
  | [], h => by simp at h
  | e :: rest, h => by
    by_cases he : e.1 = k
    · rw [List.map_cons, if_pos he, List.lookup_cons_self]
    · rw [List.map_cons, if_neg he, List.lookup_cons, beq_false_of_ne (Ne.symm he)]
      obtain ⟨x, hx, hk⟩ := h
      rcases List.mem_cons.1 hx with rfl | hx
      · exact absurd hk he
      · exact lookup_map_set_self ⟨x, hx, hk⟩

end Update

theorem get?_setItem_self (fields : List (Str × Json)) (k : Str) (v : Json) :
    get? (setItem fields k v) k = some v := by
  unfold get? setItem
  split
  · rename_i h
    exact lookup_map_set_self (by simpa [List.any_eq_true] using h)
  · rename_i h
    have hnone : fields.lookup k = none := by
      rw [List.lookup_eq_none_iff]
      intro e he
      have hne : ¬e.1 = k := fun hk => h (List.any_eq_true.2 ⟨e, he, by simpa using hk⟩)
      simpa using Ne.symm hne
    rw [List.lookup_append, hnone]
    simp

theorem get?_setItem_of_ne {k q : Str} (hq : q ≠ k) (fields : List (Str × Json)) (v : Json) :
    get? (setItem fields k v) q = get? fields q := by
  unfold get? setItem
  split
  · exact lookup_map_set hq fields
  · have hnone : [(k, v)].lookup q = none := by
      rw [List.lookup_cons, beq_false_of_ne hq]
      rfl
    rw [List.lookup_append, hnone, Option.or_none]

/-- In a dict whose keys are distinct a lookup finds every entry. -/
theorem get?_of_mem {k : Str} {v : Json} : ∀ {fields : List (Str × Json)},
    (fields.map Prod.fst).Nodup → (k, v) ∈ fields → get? fields k = some v
  | [], _, h => by cases h
  | e :: rest, hnd, h => by
    rw [List.map_cons, List.nodup_cons] at hnd
    unfold get?
    rcases List.mem_cons.1 h with rfl | h
    · exact List.lookup_cons_self
    · have hne : k ≠ e.1 := fun hk => hnd.1 (hk ▸ List.mem_map.2 ⟨(k, v), h, rfl⟩)
      rw [List.lookup_cons, beq_false_of_ne hne]
      exact get?_of_mem hnd.2 h

/-- A surrogate has no UTF-8 form. -/
def encodable (s : Str) : Bool := s.all fun c => c.val < 0xD800 ∨ 0xDFFF < c.val

/-- The text that a string without surrogates spells. -/
def text? (s : Str) : Option Text :=
  if encodable s then some (s.map fun c => Char.ofNat c.val) else none

theorem str_injective : Function.Injective str := List.map_injective_iff.2 codePoint_injective

theorem encodable_str (t : Text) : encodable (str t) = true := by
  simp only [encodable, str, List.all_map, List.all_eq_true, Function.comp_apply,
    decide_eq_true_eq]
  intro c _
  rcases c.valid with h | h
  · exact .inl h
  · exact .inr h.1

theorem text?_str (t : Text) : text? (str t) = some t := by
  rw [text?, if_pos (encodable_str t), str, List.map_map]
  refine congrArg some ((List.map_congr_left fun c _ => ?_).trans (List.map_id t))
  exact Char.ofNat_toNat c

theorem text?_eq_some {s : Str} {t : Text} (h : text? s = some t) : str t = s := by
  unfold text? at h
  split at h
  · rename_i henc
    cases h
    rw [str, List.map_map]
    refine (List.map_congr_left fun c hc => ?_).trans (List.map_id s)
    -- no surrogate: the code point is that of a character
    have hvalid : c.val.isValidChar := by
      have := List.all_eq_true.1 henc c hc
      have hlt := c.isLt
      simp only [decide_eq_true_eq] at this
      exact this.imp id fun h => ⟨h, hlt⟩
    apply Fin.ext
    simp [codePoint, Char.ofNat, hvalid, Char.toNat, Char.ofNatAux]
  · cases h

/-- `s.encode("utf-8")`. -/
def utf8 (s : Str) : Except Exc Bytes :=
  if encodable s then .ok (s.flatMap fun c => String.utf8EncodeChar (Char.ofNat c.val))
  else .error .valueError

/-- `str(n)`. -/
def decimal (n : ℕ) : Str :=
  if n = 0 then [48] else ((Nat.digits 10 n).map fun d => (48 + Fin.ofNat 0x110000 d)).reverse

/-- Reading the digits back gives the number. -/
theorem ofDigits_decimal (n : ℕ) :
    Nat.ofDigits 10 ((decimal n).reverse.map fun c => c.val - 48) = n := by
  by_cases hn : n = 0
  · subst hn
    rfl
  · have hback : ∀ d ∈ Nat.digits 10 n,
        ((48 + Fin.ofNat 0x110000 d : CodePoint).val - 48 : ℕ) = d := by
      intro d hd
      have hlt : d < 10 := Nat.digits_lt_base (by norm_num) hd
      simp only [Fin.val_add, Fin.val_ofNat]
      change (48 + d % 0x110000) % 0x110000 - 48 = d
      omega
    have hmap : (Nat.digits 10 n).map (fun d => ((48 + Fin.ofNat 0x110000 d : CodePoint).val - 48))
        = Nat.digits 10 n := (List.map_congr_left hback).trans (List.map_id _)
    rw [decimal, if_neg hn, List.reverse_reverse, List.map_map]
    exact (congrArg (Nat.ofDigits 10) hmap).trans (Nat.ofDigits_digits 10 n)

theorem decimal_injective : Function.Injective decimal := fun a b h => by
  rw [← ofDigits_decimal a, h, ofDigits_decimal b]

/-- No digit is a colon. -/
theorem colon_notMem_decimal (n : ℕ) : (58 : CodePoint) ∉ decimal n := by
  unfold decimal
  split
  · decide
  · intro h
    obtain ⟨d, hd, heq⟩ := List.mem_map.1 (List.mem_reverse.1 h)
    have hlt : d < 10 := Nat.digits_lt_base (by norm_num) hd
    have hval := congrArg Fin.val heq
    simp only [Fin.val_add, Fin.val_ofNat] at hval
    change (48 + d % 0x110000) % 0x110000 = 58 at hval
    omega

def decimalInt : ℤ → Str
  | .ofNat n => decimal n
  | .negSucc n => 45 :: decimal (n + 1)

/-- `c.isspace()`. -/
def isWhite (c : CodePoint) : Bool :=
  (9 ≤ c.val ∧ c.val ≤ 13) ∨ (28 ≤ c.val ∧ c.val ≤ 32) ∨ c.val = 0x85 ∨ c.val = 0xA0 ∨
    c.val = 0x1680 ∨ (0x2000 ≤ c.val ∧ c.val ≤ 0x200A) ∨ c.val = 0x2028 ∨ c.val = 0x2029 ∨
    c.val = 0x202F ∨ c.val = 0x205F ∨ c.val = 0x3000

/-- `s.strip()`. -/
def strip (s : Str) : Str := (s.dropWhile isWhite).rdropWhile isWhite

def isSpace (c : CodePoint) : Bool := c.val = 32 ∨ (9 ≤ c.val ∧ c.val ≤ 13)

/-- A code point as a character, where it is in the ASCII range. -/
def ascii (c : CodePoint) : Option Char := if c.val < 128 then some (Char.ofNat c.val) else none

def hexDigit (c : CodePoint) : Option ℕ := (ascii c).bind Hex.value

/-- `bytes.fromhex(s)`: white space may stand between two bytes, not inside one. -/
def fromHex : Str → Except Exc Bytes
  | [] => .ok []
  | [p] => if isSpace p then .ok [] else .error .valueError
  | p :: q :: rest =>
    if isSpace p then fromHex (q :: rest)
    else
      match hexDigit p, hexDigit q with
      | some a, some b => (fromHex rest).map (UInt8.ofNat (16 * a + b) :: ·)
      | _, _ => .error .valueError

theorem hexDigit_digit {n : ℕ} (h : n < 16) :
    hexDigit (codePoint (Hex.digit n)) = some n ∧ isSpace (codePoint (Hex.digit n)) = false := by
  interval_cases n <;> decide

theorem fromHex_encode : ∀ b : Bytes, fromHex (str (Hex.encode b)) = .ok b
  | [] => rfl
  | b :: bs => by
    have hb : b.toNat < 256 := b.toNat_lt
    have hhi := hexDigit_digit (n := b.toNat / 16) (by omega)
    have hlo := hexDigit_digit (n := b.toNat % 16) (by omega)
    have hsum : 16 * (b.toNat / 16) + b.toNat % 16 = b.toNat := by omega
    have ih := fromHex_encode bs
    unfold str at ih ⊢
    simp only [Hex.encode, List.map_cons, fromHex, hhi.1, hhi.2, hlo.1, ih, hsum,
      UInt8.ofNat_toNat]
    rfl

/-- The state of `binascii.a2b_base64`: the position in the group of four, the bits left over from
the last character, and the padding seen. -/
structure Quad where
  pos : ℕ := 0
  left : ℕ := 0
  pads : ℕ := 0
  deriving DecidableEq, Repr

/-- `binascii.a2b_base64`, not strict: characters outside the alphabet are skipped and what follows
a complete padding is not read. -/
def a2bBase64 : Quad → Text → Except Exc Bytes
  | s, [] => if s.pos = 0 then .ok [] else .error .valueError
  | s, c :: rest =>
    if c = '=' then
      if 2 ≤ s.pos then
        if 4 ≤ s.pos + s.pads + 1 then .ok []
        else a2bBase64 { s with pads := s.pads + 1 } rest
      else a2bBase64 s rest
    else
      match Base64.value c with
      | none => a2bBase64 s rest
      | some v =>
        match s.pos with
        | 0 => a2bBase64 ⟨1, v, 0⟩ rest
        | 1 => (a2bBase64 ⟨2, v % 16, 0⟩ rest).map (UInt8.ofNat (s.left * 4 + v / 16) :: ·)
        | 2 => (a2bBase64 ⟨3, v % 4, 0⟩ rest).map (UInt8.ofNat (s.left * 16 + v / 4) :: ·)
        | _ => (a2bBase64 ⟨0, 0, 0⟩ rest).map (UInt8.ofNat (s.left * 64 + v) :: ·)

/-- `base64.b64decode(s)`. -/
def b64decode (s : Str) : Except Exc Bytes :=
  match s.mapM ascii with
  | none => .error .valueError
  | some t => a2bBase64 {} t

theorem a2bBase64_digit {n : ℕ} (hn : n < 64) (s : Quad) (rest : Text) :
    a2bBase64 s (Base64.digit n :: rest) =
      match s.pos with
      | 0 => a2bBase64 ⟨1, n, 0⟩ rest
      | 1 => (a2bBase64 ⟨2, n % 16, 0⟩ rest).map (UInt8.ofNat (s.left * 4 + n / 16) :: ·)
      | 2 => (a2bBase64 ⟨3, n % 4, 0⟩ rest).map (UInt8.ofNat (s.left * 16 + n / 4) :: ·)
      | _ => (a2bBase64 ⟨0, 0, 0⟩ rest).map (UInt8.ofNat (s.left * 64 + n) :: ·) := by
  rw [a2bBase64, if_neg (Base64.digit_ne hn).1, Base64.value_digit hn]

theorem a2bBase64_encode : ∀ b : Bytes, a2bBase64 {} (Base64.encode b) = .ok b
  | [] => rfl
  | [a] => by
    have ha : a.toNat < 256 := a.toNat_lt
    have h1 : a.toNat / 4 * 4 + a.toNat % 4 * 16 / 16 = a.toNat := by omega
    simp only [Base64.encode, a2bBase64_digit (n := a.toNat / 4) (by omega),
      a2bBase64_digit (n := a.toNat % 4 * 16) (by omega), h1, UInt8.ofNat_toNat]
    rfl
  | [a, b] => by
    have ha : a.toNat < 256 := a.toNat_lt
    have hb : b.toNat < 256 := b.toNat_lt
    have h1 : a.toNat / 4 * 4 + (a.toNat % 4 * 16 + b.toNat / 16) / 16 = a.toNat := by omega
    have h2 : (a.toNat % 4 * 16 + b.toNat / 16) % 16 * 16 + b.toNat % 16 * 4 / 4 = b.toNat := by
      omega
    simp only [Base64.encode, a2bBase64_digit (n := a.toNat / 4) (by omega),
      a2bBase64_digit (n := a.toNat % 4 * 16 + b.toNat / 16) (by omega),
      a2bBase64_digit (n := b.toNat % 16 * 4) (by omega), h1, h2, UInt8.ofNat_toNat]
    rfl
  | a :: b :: c :: rest => by
    have ha : a.toNat < 256 := a.toNat_lt
    have hb : b.toNat < 256 := b.toNat_lt
    have hc : c.toNat < 256 := c.toNat_lt
    have h1 : a.toNat / 4 * 4 + (a.toNat % 4 * 16 + b.toNat / 16) / 16 = a.toNat := by omega
    have h2 : (a.toNat % 4 * 16 + b.toNat / 16) % 16 * 16 + (b.toNat % 16 * 4 + c.toNat / 64) / 4
        = b.toNat := by omega
    have h3 : (b.toNat % 16 * 4 + c.toNat / 64) % 4 * 64 + c.toNat % 64 = c.toNat := by omega
    simp only [Base64.encode, a2bBase64_digit (n := a.toNat / 4) (by omega),
      a2bBase64_digit (n := a.toNat % 4 * 16 + b.toNat / 16) (by omega),
      a2bBase64_digit (n := b.toNat % 16 * 4 + c.toNat / 64) (by omega),
      a2bBase64_digit (n := c.toNat % 64) (by omega), h1, h2, h3, UInt8.ofNat_toNat]
    rw [a2bBase64_encode rest]
    rfl

theorem ascii_digit {n : ℕ} (h : n < 64) :
    ascii (codePoint (Base64.digit n)) = some (Base64.digit n) := by
  interval_cases n <;> decide

theorem ascii_encode (b : Bytes) : ∀ c ∈ Base64.encode b, ascii (codePoint c) = some c := by
  intro c hc
  rcases Base64.mem_encode hc with rfl | ⟨n, hn, rfl⟩
  · decide
  · exact ascii_digit hn

theorem mapM_ascii : ∀ {t : Text}, (∀ c ∈ t, ascii (codePoint c) = some c) →
    (str t).mapM ascii = some t
  | [], _ => rfl
  | c :: t, h => by
    have ih := mapM_ascii fun x hx => h x (List.mem_cons_of_mem c hx)
    rw [str, List.map_cons, List.mapM_cons, h c List.mem_cons_self]
    rw [str] at ih
    simp [ih]

/-- Base64 is read back. -/
theorem b64decode_encode (b : Bytes) : b64decode (str (Base64.encode b)) = .ok b := by
  unfold b64decode
  rw [mapM_ascii (ascii_encode b)]
  exact a2bBase64_encode b

end Python
