import Aimless.Lib.SortKeys

/-!
# JSON text

What `json.dumps` writes with its defaults: everything outside the printable ASCII characters is
escaped, so the text is ASCII (`ascii_dumps`) and takes a byte for each character
(`length_utf8_of_ascii`).  A text that is written into a string once more grows again; `weight`
counts the characters of a text in either way, and `weight_dumps_obj_le` bounds a dict by its
entries.  A file name is read from its bytes by `os.fsdecode`, which is where lone surrogates come
from.
-/

namespace Python

/-- `float.__repr__` of a finite float. -/
structure FloatRepr where
  text : ℚ → Text
  ascii : ∀ q, (text q).all (·.toNat < 128) = true

/-! ### What is written -/

/-- `\uXXXX`, of 16 bits. -/
def unicodeEscape (n : ℕ) : Str :=
  str ['\\', 'u', Hex.digit (n / 4096 % 16), Hex.digit (n / 256 % 16), Hex.digit (n / 16 % 16),
    Hex.digit (n % 16)]

/-- `ESCAPE_DCT`, with a pair of surrogates above the first plane. -/
def escapeChar (c : CodePoint) : Str :=
  if c.val = 34 then str ['\\', Char.ofNat 34]
  else if c.val = 92 then str ['\\', '\\']
  else if c.val = 10 then str ['\\', 'n']
  else if c.val = 13 then str ['\\', 'r']
  else if c.val = 9 then str ['\\', 't']
  else if c.val = 12 then str ['\\', 'f']
  else if c.val = 8 then str ['\\', 'b']
  else if 32 ≤ c.val ∧ c.val ≤ 126 then [c]
  else if c.val < 0x10000 then unicodeEscape c.val
  else unicodeEscape (0xD800 + (c.val - 0x10000) / 0x400)
    ++ unicodeEscape (0xDC00 + (c.val - 0x10000) % 0x400)

def escape (s : Str) : Str := s.flatMap escapeChar

def quote (s : Str) : Str := str [Char.ofNat 34] ++ escape s ++ str [Char.ofNat 34]

namespace Json

mutual

/-- `json.dumps(v)`. -/
def dumps (F : FloatRepr) : Json → Str
  | .null => Python.str ['n', 'u', 'l', 'l']
  | .bool true => Python.str ['t', 'r', 'u', 'e']
  | .bool false => Python.str ['f', 'a', 'l', 's', 'e']
  | .int n => decimalInt n
  | .float .nan => Python.str ['N', 'a', 'N']
  | .float (.inf false) => Python.str ['I', 'n', 'f', 'i', 'n', 'i', 't', 'y']
  | .float (.inf true) => Python.str ['-', 'I', 'n', 'f', 'i', 'n', 'i', 't', 'y']
  | .float (.fin q) => Python.str (F.text q)
  | .str s => quote s
  | .arr l => Python.str ['['] ++ (Python.str [',', ' ']).intercalate (dumpsItems F l) ++ Python.str [']']
  | .obj fields =>
    Python.str [Char.ofNat 123] ++ (Python.str [',', ' ']).intercalate (dumpsFields F fields)
      ++ Python.str [Char.ofNat 125]

def dumpsItems (F : FloatRepr) : List Json → List Str
  | [] => []
  | v :: l => v.dumps F :: dumpsItems F l

def dumpsFields (F : FloatRepr) : List (Str × Json) → List Str
  | [] => []
  | (k, v) :: l => (quote k ++ Python.str [':', ' '] ++ v.dumps F) :: dumpsFields F l

end

variable (F : FloatRepr)

/-- An entry of a dict. -/
def entryText (e : Str × Json) : Str := quote e.1 ++ Python.str [':', ' '] ++ e.2.dumps F

theorem dumpsItems_eq : ∀ l : List Json, dumpsItems F l = l.map (dumps F)
  | [] => by rw [dumpsItems, List.map_nil]
  | v :: l => by rw [dumpsItems, dumpsItems_eq l, List.map_cons]

theorem dumpsFields_eq : ∀ fields : List (Str × Json),
    dumpsFields F fields = fields.map (entryText F)
  | [] => by rw [dumpsFields, List.map_nil]
  | (k, v) :: l => by rw [dumpsFields, dumpsFields_eq l, List.map_cons, entryText]

end Json

/-! ### It is ASCII -/

def Ascii (s : Str) : Prop := ∀ c ∈ s, c.val < 128

theorem Ascii.append {s t : Str} (hs : Ascii s) (ht : Ascii t) : Ascii (s ++ t) := fun c hc =>
  (List.mem_append.1 hc).elim (hs c) (ht c)

theorem ascii_str {t : Text} (h : t.all (·.toNat < 128) = true) : Ascii (str t) := by
  intro c hc
  obtain ⟨a, ha, rfl⟩ := List.mem_map.1 hc
  exact of_decide_eq_true (List.all_eq_true.1 h a ha)

theorem digit_toNat_lt {n : ℕ} (h : n < 16) : (Hex.digit n).toNat < 128 := by
  interval_cases n <;> decide

theorem ascii_unicodeEscape (n : ℕ) : Ascii (unicodeEscape n) := by
  refine ascii_str ?_
  have hdigit : ∀ m, (Hex.digit (m % 16)).toNat < 128 := fun m =>
    digit_toNat_lt (Nat.mod_lt m (by norm_num))
  simp [hdigit]

theorem ascii_escapeChar (c : CodePoint) : Ascii (escapeChar c) := by
  unfold escapeChar
  iterate 7
    split
    · exact ascii_str rfl
  split
  · intro a ha
    rw [List.mem_singleton.1 ha]
    omega
  split
  · exact ascii_unicodeEscape _
  · exact (ascii_unicodeEscape _).append (ascii_unicodeEscape _)

theorem ascii_escape (s : Str) : Ascii (escape s) := by
  intro a ha
  obtain ⟨c, -, hc⟩ := List.mem_flatMap.1 ha
  exact ascii_escapeChar c a hc

theorem ascii_quote (s : Str) : Ascii (quote s) :=
  ((ascii_str rfl).append (ascii_escape s)).append (ascii_str rfl)

theorem ascii_intercalate {sep : Str} (hsep : Ascii sep) : ∀ {l : List Str}, (∀ s ∈ l, Ascii s) →
    Ascii (sep.intercalate l)
  | [], _ => by simp [Ascii]
  | [s], h => by simpa using h s List.mem_cons_self
  | s :: t :: l, h => by
    rw [List.intercalate_cons_cons]
    obtain ⟨hs, hrest⟩ := List.forall_mem_cons.1 h
    exact (hs.append hsep).append (ascii_intercalate hsep hrest)

theorem ascii_decimal (n : ℕ) : Ascii (decimal n) := by
  unfold decimal
  split_ifs
  · intro c hc
    rw [List.mem_singleton.1 hc]
    decide
  · intro c hc
    obtain ⟨d, hd, rfl⟩ := List.mem_map.1 (List.mem_reverse.1 hc)
    have hlt : d < 10 := Nat.digits_lt_base (by norm_num) hd
    interval_cases d <;> decide

theorem ascii_decimalInt : ∀ n : ℤ, Ascii (decimalInt n)
  | .ofNat n => ascii_decimal n
  | .negSucc n => by
    have hminus : Ascii [(45 : CodePoint)] := fun c hc => by
      rw [List.mem_singleton.1 hc]
      decide
    exact hminus.append (ascii_decimal (n + 1))

theorem Json.ascii_dumps (F : FloatRepr) (v : Json) : Ascii (v.dumps F) := by
  induction v using Json.induct with
  | leaf v harr hobj =>
    match v with
    | .null => exact ascii_str rfl
    | .bool true => exact ascii_str rfl
    | .bool false => exact ascii_str rfl
    | .int n => exact ascii_decimalInt n
    | .float .nan => exact ascii_str rfl
    | .float (.inf false) => exact ascii_str rfl
    | .float (.inf true) => exact ascii_str rfl
    | .float (.fin q) => exact ascii_str (F.ascii q)
    | .str s => exact ascii_quote s
    | .arr l => exact absurd rfl (harr l)
    | .obj fields => exact absurd rfl (hobj fields)
  | arr l ih =>
    rw [dumps, dumpsItems_eq]
    refine ((ascii_str rfl).append (ascii_intercalate (ascii_str rfl) ?_)).append
      (ascii_str rfl)
    intro s hs
    obtain ⟨v, hv, rfl⟩ := List.mem_map.1 hs
    exact ih v hv
  | obj fields ih =>
    rw [dumps, dumpsFields_eq]
    refine ((ascii_str rfl).append (ascii_intercalate (ascii_str rfl) ?_)).append
      (ascii_str rfl)
    intro s hs
    obtain ⟨e, he, rfl⟩ := List.mem_map.1 hs
    exact ((ascii_quote e.1).append (ascii_str rfl)).append (ih e he)

/-- ASCII text takes a byte for each character. -/
theorem utf8_of_ascii {s : Str} (h : Ascii s) : utf8 s = .ok (s.map fun c => UInt8.ofNat c.val) := by
  have henc : encodable s = true := by
    refine List.all_eq_true.2 fun c hc => decide_eq_true (.inl ?_)
    have := h c hc
    omega
  have hone : ∀ c ∈ s, String.utf8EncodeChar (Char.ofNat c.val) = [UInt8.ofNat c.val] := by
    intro c hc
    have hlt := h c hc
    generalize c.val = n at hlt
    interval_cases n <;> rfl
  rw [utf8, if_pos henc, List.flatMap_congr hone, List.map_eq_flatMap]

theorem length_utf8_of_ascii {s : Str} (h : Ascii s) : ∃ b, utf8 s = .ok b ∧ b.length = s.length :=
  ⟨_, utf8_of_ascii h, List.length_map _⟩

theorem utf8_injOn_ascii {s t : Str} (hs : Ascii s) (ht : Ascii t) (h : utf8 s = utf8 t) : s = t := by
  rw [utf8_of_ascii hs, utf8_of_ascii ht] at h
  have hback : ∀ {s : Str}, Ascii s →
      (s.map fun c => UInt8.ofNat c.val).map (fun b => Fin.ofNat 0x110000 b.toNat) = s := by
    intro s hs
    rw [List.map_map]
    refine (List.map_congr_left fun c hc => ?_).trans (List.map_id s)
    have hlt := hs c hc
    apply Fin.ext
    simp only [Function.comp_apply, Fin.val_ofNat, UInt8.toNat_ofNat', id]
    omega
  rw [← hback hs, Except.ok.inj h, hback ht]

/-! ### How long it is -/

/-- The length of a text in which each character counts with a weight of its own. -/
def weight (w : CodePoint → ℕ) (s : Str) : ℕ := (s.map w).sum

/-- The length of what a character becomes in a string that is written. -/
def escapedLength (c : CodePoint) : ℕ := (escapeChar c).length

section Weight

variable (w : CodePoint → ℕ)

@[simp] theorem weight_append (s t : Str) : weight w (s ++ t) = weight w s + weight w t := by
  simp [weight]

theorem weight_one (s : Str) : weight (fun _ => 1) s = s.length := by simp [weight]

theorem weight_escapedLength (s : Str) : weight escapedLength s = (escape s).length :=
  List.length_flatMap.symm

theorem weight_escape : ∀ s : Str, weight w (escape s) = weight (fun c => weight w (escapeChar c)) s
  | [] => rfl
  | c :: s => by
    have ih := weight_escape s
    unfold escape at ih ⊢
    rw [List.flatMap_cons, weight_append, ih]
    rfl

theorem weight_le {n : ℕ} {s : Str} (h : ∀ c ∈ s, w c ≤ n) : weight w s ≤ s.length * n := by
  have := List.sum_le_card_nsmul (s.map w) n fun x hx => by
    obtain ⟨c, hc, rfl⟩ := List.mem_map.1 hx
    exact h c hc
  simpa [weight] using this

theorem weight_intercalate_le (sep : Str) : ∀ l : List Str,
    weight w (sep.intercalate l) ≤ (l.map fun s => weight w s + weight w sep).sum
  | [] => by simp [weight]
  | [s] => by simp
  | s :: t :: l => by
    have ih := weight_intercalate_le sep (t :: l)
    rw [List.intercalate_cons_cons, weight_append, weight_append, List.map_cons, List.sum_cons]
    omega

/-- A dict takes no more than its entries, each with a separator, and the braces. -/
theorem weight_dumps_obj_le (F : FloatRepr) (fields : List (Str × Json)) :
    weight w ((Json.obj fields).dumps F) ≤ (fields.map fun e => weight w (quote e.1)
      + weight w (str [':', ' ']) + weight w (e.2.dumps F) + weight w (str [',', ' '])).sum
      + weight w (str [Char.ofNat 123]) + weight w (str [Char.ofNat 125]) := by
  rw [Json.dumps, Json.dumpsFields_eq, weight_append, weight_append]
  have hle := weight_intercalate_le w (str [',', ' ']) (fields.map (Json.entryText F))
  rw [List.map_map] at hle
  have hcongr : (fields.map ((fun s => weight w s + weight w (str [',', ' '])) ∘ Json.entryText F))
      = fields.map fun e => weight w (quote e.1) + weight w (str [':', ' '])
        + weight w (e.2.dumps F) + weight w (str [',', ' ']) :=
    List.map_congr_left fun e _ => by
      simp only [Function.comp_apply, Json.entryText, weight_append]
  rw [hcongr] at hle
  omega

end Weight

/-! ### Characters that stay as they are -/

def isPlain (c : CodePoint) : Bool := 32 ≤ c.val ∧ c.val ≤ 126 ∧ c.val ≠ 34 ∧ c.val ≠ 92

def Plain (s : Str) : Prop := s.all isPlain = true

theorem escapeChar_of_isPlain {c : CodePoint} (h : isPlain c = true) : escapeChar c = [c] := by
  simp only [isPlain, decide_eq_true_eq] at h
  obtain ⟨hlow, hhigh, hquote, hslash⟩ := h
  unfold escapeChar
  rw [if_neg hquote, if_neg hslash, if_neg (by omega), if_neg (by omega), if_neg (by omega),
    if_neg (by omega), if_neg (by omega), if_pos ⟨hlow, hhigh⟩]

theorem escape_of_plain : ∀ {s : Str}, Plain s → escape s = s
  | [], _ => rfl
  | c :: s, h => by
    unfold Plain at h
    rw [List.all_cons, Bool.and_eq_true] at h
    have ih := escape_of_plain (s := s) h.2
    unfold escape at ih ⊢
    rw [List.flatMap_cons, ih, escapeChar_of_isPlain h.1]
    rfl

theorem length_quote_of_plain {s : Str} (h : Plain s) : (quote s).length = s.length + 2 := by
  rw [quote, escape_of_plain h]
  simp [str]

theorem weight_of_plain {s : Str} (h : Plain s) : weight escapedLength s = s.length := by
  rw [weight_escapedLength, escape_of_plain h]

/-- A string that is written into a string once more. -/
theorem weight_quote (s : Str) :
    weight escapedLength (quote s) = weight escapedLength (escape s) + 4 := by
  have hmark : weight escapedLength (str [Char.ofNat 34]) = 2 := rfl
  rw [quote, weight_append, weight_append, hmark]
  omega

theorem weight_quote_of_plain {s : Str} (h : Plain s) :
    weight escapedLength (quote s) = s.length + 4 := by
  rw [weight_quote, escape_of_plain h, weight_of_plain h]

theorem plain_str {t : Text} (h : ∀ c ∈ t, isPlain (codePoint c) = true) : Plain (str t) := by
  refine List.all_eq_true.2 fun c hc => ?_
  obtain ⟨a, ha, rfl⟩ := List.mem_map.1 hc
  exact h a ha

theorem isPlain_hex {n : ℕ} (h : n < 16) : isPlain (codePoint (Hex.digit n)) = true := by
  interval_cases n <;> rfl

theorem plain_hex : ∀ b : Bytes, Plain (str (Hex.encode b))
  | [] => rfl
  | b :: bs => by
    have hb : b.toNat < 256 := b.toNat_lt
    have ih := plain_hex bs
    unfold Plain str at ih ⊢
    simp only [Hex.encode, List.map_cons, List.all_cons, Bool.and_eq_true]
    exact ⟨isPlain_hex (by omega), isPlain_hex (by omega), ih⟩

theorem plain_base64 (b : Bytes) : Plain (str (Base64.encode b)) := by
  refine plain_str fun c hc => ?_
  rcases Base64.mem_encode hc with rfl | ⟨n, hn, rfl⟩
  · rfl
  · interval_cases n <;> rfl

theorem plain_decimal (n : ℕ) : Plain (decimal n) := by
  unfold Plain decimal
  split_ifs
  · rfl
  · refine List.all_eq_true.2 fun c hc => ?_
    obtain ⟨d, hd, rfl⟩ := List.mem_map.1 (List.mem_reverse.1 hc)
    have hlt : d < 10 := Nat.digits_lt_base (by norm_num) hd
    interval_cases d <;> rfl

theorem length_decimal_le {n k : ℕ} (hk : 0 < k) (h : n < 10 ^ k) : (decimal n).length ≤ k := by
  unfold decimal
  split_ifs
  · exact hk
  · rw [List.length_reverse, List.length_map]
    exact (Nat.digits_length_le_iff (by norm_num) n).2 h

/-! ### Twice -/

theorem weight_unicodeEscape (n : ℕ) : weight escapedLength (unicodeEscape n) = 7 := by
  have hdigit : ∀ m, escapedLength (codePoint (Hex.digit (m % 16))) = 1 := fun m => by
    rw [escapedLength, escapeChar_of_isPlain (isPlain_hex (Nat.mod_lt m (by norm_num)))]
    rfl
  have hslash : escapedLength (codePoint '\\') = 2 := rfl
  have hu : escapedLength (codePoint 'u') = 1 := rfl
  simp [unicodeEscape, weight, str, hdigit, hslash, hu]

/-- A character that is written twice takes at most 14, and at most 7 in the first plane. -/
theorem weight_escapeChar_le (c : CodePoint) : weight escapedLength (escapeChar c) ≤ 14
    ∧ (c.val < 0x10000 → weight escapedLength (escapeChar c) ≤ 7) := by
  by_cases hp : isPlain c = true
  · have hone : weight escapedLength (escapeChar c) = 1 := by
      rw [escapeChar_of_isPlain hp]
      simp [weight, escapedLength, escapeChar_of_isPlain hp]
    omega
  · unfold escapeChar
    iterate 7
      split
      · exact ⟨by decide, fun _ => by decide⟩
    split
    · rename_i hquote hslash _ _ _ _ _ hrange
      exact absurd (decide_eq_true ⟨hrange.1, hrange.2, hquote, hslash⟩) hp
    split
    · rw [weight_unicodeEscape]
      omega
    · rename_i hlarge
      rw [weight_append, weight_unicodeEscape, weight_unicodeEscape]
      exact ⟨le_rfl, fun h => absurd h hlarge⟩

/-! ### File names -/

def isTail (b : UInt8) : Bool := 0x80 ≤ b.toNat ∧ b.toNat ≤ 0xBF

/-- The character that a byte and what follows it start with in UTF-8, and how many bytes it takes
after the first; neither overlong forms nor surrogates are read. -/
def utf8Char? (lead : UInt8) (rest : Bytes) : Option (ℕ × ℕ) :=
  -- a byte that is not there is no tail
  let b := rest.getD 0 0
  let c := rest.getD 1 0
  let d := rest.getD 2 0
  let a := lead.toNat
  let two := (a - 0xC0) * 64 + (b.toNat - 0x80)
  let three := (a - 0xE0) * 4096 + (b.toNat - 0x80) * 64 + (c.toNat - 0x80)
  let four := (a - 0xF0) * 262144 + (b.toNat - 0x80) * 4096 + (c.toNat - 0x80) * 64
    + (d.toNat - 0x80)
  if a < 0x80 then some (a, 0)
  else if 0xC2 ≤ a ∧ a ≤ 0xDF ∧ isTail b then some (two, 1)
  else if 0xE0 ≤ a ∧ a ≤ 0xEF ∧ isTail b ∧ isTail c ∧ 0x800 ≤ three
      ∧ ¬(0xD800 ≤ three ∧ three ≤ 0xDFFF) then some (three, 2)
  else if 0xF0 ≤ a ∧ a ≤ 0xF4 ∧ isTail b ∧ isTail c ∧ isTail d ∧ 0x10000 ≤ four
      ∧ four < 0x110000 then some (four, 3)
  else none

theorem mod_lt_codePoints (n : ℕ) : n % 0x110000 < 0x110000 := Nat.mod_lt n (by decide)

/-- `chr(n)`. -/
def chr (n : ℕ) : CodePoint := ⟨n % 0x110000, mod_lt_codePoints n⟩

theorem chr_val (n : ℕ) : (chr n).val = n % 0x110000 := rfl

/-- `os.fsdecode`, after some bytes that belong to the character before: a byte that starts no
character becomes a lone surrogate. -/
def fsdecodeFrom : ℕ → Bytes → Str
  | _, [] => []
  | k + 1, _ :: rest => fsdecodeFrom k rest
  | 0, a :: rest =>
    let char := (utf8Char? a rest).getD (0xDC00 + a.toNat, 0)
    chr char.1 :: fsdecodeFrom char.2 rest

def fsdecode (b : Bytes) : Str := fsdecodeFrom 0 b

theorem lt_length_of_isTail {rest : Bytes} {i : ℕ} (h : isTail (rest.getD i 0) = true) :
    i < rest.length := by
  by_contra hle
  rw [List.getD_eq_default rest 0 (not_lt.1 hle)] at h
  cases h

/-- The bytes of the character are there, and beyond the first plane there are three more. -/
theorem utf8Char?_spec {a : UInt8} {rest : Bytes} {n k : ℕ} (h : utf8Char? a rest = some (n, k)) :
    k ≤ rest.length ∧ (n < 0x10000 ∨ k = 3) := by
  have ha : a.toNat < 256 := a.toNat_lt
  unfold utf8Char? at h
  dsimp only at h
  split at h
  · obtain ⟨rfl, rfl⟩ := Prod.mk.inj (Option.some.inj h)
    exact ⟨Nat.zero_le _, .inl (by omega)⟩
  split at h
  · rename_i hc
    obtain ⟨rfl, rfl⟩ := Prod.mk.inj (Option.some.inj h)
    obtain ⟨-, hhigh, hb⟩ := hc
    have hlen := lt_length_of_isTail hb
    have hlt : (rest.getD 0 0).toNat < 256 := (rest.getD 0 0).toNat_lt
    exact ⟨hlen, .inl (by omega)⟩
  split at h
  · rename_i hc
    obtain ⟨rfl, rfl⟩ := Prod.mk.inj (Option.some.inj h)
    obtain ⟨-, hhigh, hb, hc, -, -⟩ := hc
    have hlen := lt_length_of_isTail hc
    simp only [isTail, decide_eq_true_eq] at hb hc
    exact ⟨hlen, .inl (by omega)⟩
  split at h
  · rename_i hc
    obtain ⟨rfl, rfl⟩ := Prod.mk.inj (Option.some.inj h)
    obtain ⟨-, -, -, -, hd, -⟩ := hc
    exact ⟨lt_length_of_isTail hd, .inr rfl⟩
  · cases h

/-- A file name that is written twice takes at most 7 characters for each of its bytes. -/
theorem weight_fsdecodeFrom_le : ∀ (k : ℕ) (b : Bytes),
    weight escapedLength (escape (fsdecodeFrom k b)) ≤ 7 * (b.length - k)
  | k, [] => by simp [fsdecodeFrom, escape, weight]
  | k + 1, a :: rest => by
    have ih := weight_fsdecodeFrom_le k rest
    rw [fsdecodeFrom, List.length_cons]
    omega
  | 0, a :: rest => by
    have ha : a.toNat < 256 := a.toNat_lt
    have hcons : ∀ (n : ℕ) (s : Str), weight escapedLength (escape (chr n :: s))
        = weight escapedLength (escapeChar (chr n)) + weight escapedLength (escape s) :=
      fun n s => by rw [escape, List.flatMap_cons, weight_append, escape]
    rw [fsdecodeFrom, List.length_cons]
    cases h : utf8Char? a rest with
    | none =>
      have ih := weight_fsdecodeFrom_le 0 rest
      have hplane := (weight_escapeChar_le (chr (0xDC00 + a.toNat))).2 (by
        rw [chr_val]
        omega)
      simp only [hcons, Option.getD_none]
      omega
    | some r =>
      obtain ⟨n, k⟩ := r
      have ih := weight_fsdecodeFrom_le k rest
      have hle := weight_escapeChar_le (chr n)
      obtain ⟨hlen, hn⟩ := utf8Char?_spec h
      simp only [hcons, Option.getD_some]
      rcases hn with hn | rfl
      · have hplane := hle.2 (by
          rw [chr_val]
          omega)
        omega
      · omega

end Python
