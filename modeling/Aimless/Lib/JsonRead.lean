import Aimless.Lib.JsonText

/-!
# Reading JSON text

What `json.loads` makes of a text.  A character that was escaped comes back, except that the escape
of a high surrogate takes that of a low one behind it along: a string is kept (`loads_dumps`) if it
is `Joined`, that is if no high surrogate in it stands right before a low one.  What `os.fsdecode`
gives is joined (`joined_fsdecode`).  What a literal with a fraction or an exponent stands for is a
parameter.
-/

namespace Python

/-! ### Strings -/

def isHigh (n : ℕ) : Bool := 0xD800 ≤ n ∧ n ≤ 0xDBFF

def isLow (n : ℕ) : Bool := 0xDC00 ≤ n ∧ n ≤ 0xDFFF

/-- No high surrogate stands right before a low one. -/
def joined : Str → Bool
  | c :: d :: s => !(isHigh c.val && isLow d.val) && joined (d :: s)
  | _ => true

/-- `_decode_uXXXX`. -/
def hex4 : Str → Option (ℕ × Str)
  | a :: b :: c :: d :: rest =>
    match hexDigit a, hexDigit b, hexDigit c, hexDigit d with
    | some a, some b, some c, some d => some (4096 * a + 256 * b + 16 * c + d, rest)
    | _, _, _, _ => none
  | _ => none

/-- The escape of a low surrogate. -/
def lowEscape : Str → Option (ℕ × Str)
  | a :: b :: rest => if a.val = 92 ∧ b.val = 117 then (hex4 rest).filter (isLow ·.1) else none
  | _ => none

/-- What stands behind `\u`. -/
def unicodeChar (s : Str) : Option (CodePoint × Str) :=
  match hex4 s with
  | none => none
  | some (n, rest) =>
    match if isHigh n then lowEscape rest else none with
    | none => some (chr n, rest)
    | some (m, rest) => some (chr (0x10000 + (n - 0xD800) * 0x400 + (m - 0xDC00)), rest)

/-- `BACKSLASH`. -/
def backslash (c : CodePoint) : Option CodePoint :=
  match c.val with
  | 34 => some (chr 34)
  | 92 => some (chr 92)
  | 47 => some (chr 47)
  | 98 => some (chr 8)
  | 102 => some (chr 12)
  | 110 => some (chr 10)
  | 114 => some (chr 13)
  | 116 => some (chr 9)
  | _ => none

/-- One character of a string. -/
def scanChar : Str → Option (CodePoint × Str)
  | [] => none
  | c :: rest =>
    if c.val = 92 then
      match rest with
      | [] => none
      | d :: rest => if d.val = 117 then unicodeChar rest else (backslash d).map (·, rest)
    else if c.val < 32 then none
    else some (c, rest)

/-- `scanstring`, behind the quote that opens the string; there are fewer than `fuel` characters. -/
def scanString : (fuel : ℕ) → Str → Option (Str × Str)
  | 0, _ => none
  | fuel + 1, s =>
    if s.head? = some (chr 34) then some ([], s.tail)
    else
      match scanChar s with
      | none => none
      | some (c, rest) => (scanString fuel rest).map fun r => (c :: r.1, r.2)

theorem chr_of_val (c : CodePoint) : chr c.val = c := Fin.ext (Nat.mod_eq_of_lt c.isLt)

theorem hex4_unicodeEscape {n : ℕ} (h : n < 0x10000) (rest : Str) :
    ∃ s, unicodeEscape n = str ['\\', 'u'] ++ s ∧ hex4 (s ++ rest) = some (n, rest) := by
  have hdigit : ∀ m, hexDigit (codePoint (Hex.digit (m % 16))) = some (m % 16) := fun m =>
    (hexDigit_digit (Nat.mod_lt m (by norm_num))).1
  refine ⟨_, rfl, ?_⟩
  simp only [List.map_cons, List.map_nil, List.cons_append, List.nil_append, hex4, hdigit]
  congr 2
  omega

theorem lowEscape_unicodeEscape {n : ℕ} (h : n < 0x10000) (rest : Str) :
    lowEscape (unicodeEscape n ++ rest) = if isLow n then some (n, rest) else none := by
  obtain ⟨s, hs, hhex⟩ := hex4_unicodeEscape h rest
  have hread : lowEscape (codePoint '\\' :: codePoint 'u' :: (s ++ rest))
      = (hex4 (s ++ rest)).filter (isLow ·.1) := by
    unfold lowEscape
    dsimp only
    rw [if_pos (by decide)]
  rw [hs, List.append_assoc]
  refine hread.trans ?_
  rw [hhex, Option.filter_some]

/-- The escape of a character below the first plane that is not written as itself. -/
theorem unicodeChar_escape {n : ℕ} (h : n < 0x10000) {rest : Str}
    (hlow : isHigh n = true → lowEscape rest = none) :
    ∃ s, unicodeEscape n = str ['\\', 'u'] ++ s ∧ unicodeChar (s ++ rest) = some (chr n, rest) := by
  obtain ⟨s, hs, hhex⟩ := hex4_unicodeEscape h rest
  refine ⟨s, hs, ?_⟩
  unfold unicodeChar
  rw [hhex]
  dsimp only
  split_ifs with hhigh
  · rw [hlow hhigh]
  · rfl

/-- Only the escape of a low surrogate starts with one. -/
theorem lowEscape_escapeChar {c : CodePoint} (h : isLow c.val = false) (rest : Str) :
    lowEscape (escapeChar c ++ rest) = none := by
  unfold escapeChar
  iterate 7
    split
    · rfl
  rename_i hslash _ _ _ _ _
  split
  · cases rest with
    | nil => rfl
    | cons b rest => exact if_neg fun hc => hslash hc.1
  split
  · rename_i hlt
    rw [lowEscape_unicodeEscape hlt, h, if_neg Bool.false_ne_true]
  · have hlt := c.isLt
    have hnot : isLow (0xD800 + (c.val - 0x10000) / 0x400) = false := by
      simp only [isLow, decide_eq_false_iff_not]
      omega
    rw [List.append_assoc, lowEscape_unicodeEscape (by omega), hnot, if_neg Bool.false_ne_true]

theorem scanChar_backslash {a b : Char} {c : CodePoint} (ha : a.toNat = 92)
    (hb : backslash (codePoint b) = some c) (hu : b.toNat ≠ 117) (rest : Str) :
    scanChar (str [a, b] ++ rest) = some (c, rest) := by
  have hscan : scanChar (codePoint a :: codePoint b :: rest) = some (c, rest) := by
    unfold scanChar
    dsimp only
    rw [if_pos (show (codePoint a).val = 92 from ha), if_neg (show ¬ (codePoint b).val = 117 from hu),
      hb]
    rfl
  exact hscan

theorem scanChar_unicode (rest : Str) : scanChar (str ['\\', 'u'] ++ rest) = unicodeChar rest := by
  have hscan : scanChar (codePoint '\\' :: codePoint 'u' :: rest) = unicodeChar rest := by
    unfold scanChar
    dsimp only
    rw [if_pos (by decide), if_pos (by decide)]
  exact hscan

theorem scanChar_plain {c : CodePoint} (hslash : c.val ≠ 92) (hlow : 32 ≤ c.val) (rest : Str) :
    scanChar (c :: rest) = some (c, rest) := by
  unfold scanChar
  dsimp only
  rw [if_neg hslash, if_neg (by omega)]

/-- The two escapes of a character above the first plane. -/
theorem scanChar_pair {c : CodePoint} (hge : ¬ c.val < 0x10000) (rest : Str) :
    scanChar (unicodeEscape (0xD800 + (c.val - 0x10000) / 0x400)
      ++ (unicodeEscape (0xDC00 + (c.val - 0x10000) % 0x400) ++ rest)) = some (c, rest) := by
  have hlt := c.isLt
  obtain ⟨hi, hhi⟩ : ∃ n, n = 0xD800 + (c.val - 0x10000) / 0x400 := ⟨_, rfl⟩
  obtain ⟨lo, hlo⟩ : ∃ n, n = 0xDC00 + (c.val - 0x10000) % 0x400 := ⟨_, rfl⟩
  rw [← hhi, ← hlo]
  have hhigh : isHigh hi = true := by
    simp only [isHigh, decide_eq_true_eq]
    omega
  have hislow : isLow lo = true := by
    simp only [isLow, decide_eq_true_eq]
    omega
  have hval : 0x10000 + (hi - 0xD800) * 0x400 + (lo - 0xDC00) = c.val := by omega
  obtain ⟨s, hs, hhex⟩ := hex4_unicodeEscape (n := hi) (by omega) (unicodeEscape lo ++ rest)
  rw [hs, List.append_assoc, scanChar_unicode]
  unfold unicodeChar
  rw [hhex]
  dsimp only
  rw [if_pos hhigh, lowEscape_unicodeEscape (by omega), if_pos hislow]
  dsimp only
  rw [hval, chr_of_val]

/-- A character that was escaped comes back. -/
theorem scanChar_escapeChar {c : CodePoint} {rest : Str}
    (hlow : isHigh c.val = true → lowEscape rest = none) :
    scanChar (escapeChar c ++ rest) = some (c, rest) := by
  unfold escapeChar
  iterate 7
    split
    · rename_i h
      refine scanChar_backslash (by decide) ?_ (by decide) rest
      rw [← chr_of_val c, h]
      decide
  rename_i hslash _ _ _ _ _
  split
  · rename_i hplain
    exact scanChar_plain hslash hplain.1 rest
  split
  · rename_i hlt
    obtain ⟨s, hs, hread⟩ := unicodeChar_escape hlt hlow
    rw [hs, List.append_assoc, scanChar_unicode, hread, chr_of_val]
  · rename_i hge
    rw [List.append_assoc]
    exact scanChar_pair hge rest

theorem escape_cons (c : CodePoint) (s : Str) : escape (c :: s) = escapeChar c ++ escape s := rfl

theorem head?_escapeChar (c : CodePoint) (rest : Str) : (escapeChar c ++ rest).head? ≠ some (chr 34) := by
  have hslash : ∀ t : Str, (codePoint '\\' :: t).head? ≠ some (chr 34) := fun t h => by
    have hval := congrArg Fin.val (Option.some.inj h)
    exact absurd hval (by decide)
  unfold escapeChar
  iterate 7
    split
    · exact hslash _
  split
  · rename_i hquote _ _ _ _ _ _ _
    exact fun h => hquote (congrArg Fin.val (Option.some.inj h))
  split
  · exact hslash _
  · exact hslash _

theorem lowEscape_quote (rest : Str) : lowEscape (34 :: rest) = none := by
  cases rest with
  | nil => rfl
  | cons b rest =>
    unfold lowEscape
    dsimp only
    rw [if_neg fun h => absurd h.1 (by decide)]

theorem length_le_escape (s : Str) : s.length ≤ (escape s).length := by
  induction s with
  | nil => exact Nat.zero_le _
  | cons c s ih =>
    have hpos : 0 < (escapeChar c).length := by
      unfold escapeChar unicodeEscape
      split_ifs <;> simp [Python.str]
    rw [escape_cons, List.length_append, List.length_cons]
    omega

/-- A string that is joined is read back. -/
theorem scanString_escape (rest : Str) : ∀ {s : Str} {fuel : ℕ}, joined s = true →
    s.length < fuel → scanString fuel (escape s ++ 34 :: rest) = some (s, rest)
  | _, 0, _, hfuel => by omega
  | [], fuel + 1, _, _ => rfl
  | c :: s, fuel + 1, hj, hfuel => by
    have hlow : isHigh c.val = true → lowEscape (escape s ++ 34 :: rest) = none := by
      intro hhigh
      cases s with
      | nil => exact lowEscape_quote rest
      | cons d s =>
        rw [escape_cons, List.append_assoc]
        refine lowEscape_escapeChar ?_ _
        simp only [joined, hhigh, Bool.true_and, Bool.and_eq_true, Bool.not_eq_true'] at hj
        exact hj.1
    have hjs : joined s = true := by
      cases s with
      | nil => rfl
      | cons d s =>
        simp only [joined, Bool.and_eq_true] at hj
        exact hj.2
    rw [escape_cons, List.append_assoc, scanString, if_neg (head?_escapeChar c _),
      scanChar_escapeChar hlow]
    dsimp only
    rw [scanString_escape rest hjs (by simpa using hfuel)]
    rfl

/-! ### Numbers -/

def isDigit (c : CodePoint) : Bool := 48 ≤ c.val ∧ c.val ≤ 57

/-- The number that decimal digits spell. -/
def ofDecimal (digits : Str) : ℕ := Nat.ofDigits 10 (digits.reverse.map fun c => c.val - 48)

/-- `(?:0|[1-9]\d*)`. -/
def scanNat (s : Str) : Option (Str × Str) :=
  match s with
  | [] => none
  | c :: rest =>
    if c.val = 48 then some ([c], rest)
    else if isDigit c then some (s.span isDigit)
    else none

/-- `(\.\d+)?`. -/
def scanFraction (s : Str) : Str × Str :=
  match s with
  | [] => ([], s)
  | c :: rest =>
    if c.val = 46 ∧ rest.head?.any isDigit then
      let digits := rest.span isDigit
      (c :: digits.1, digits.2)
    else ([], s)

/-- `([eE][-+]?\d+)?`. -/
def scanExponent (s : Str) : Str × Str :=
  match s with
  | [] => ([], s)
  | c :: rest =>
    let signed := rest.span fun d => d.val = 43 ∨ d.val = 45
    if (c.val = 69 ∨ c.val = 101) ∧ signed.1.length ≤ 1 ∧ signed.2.head?.any isDigit then
      let digits := signed.2.span isDigit
      (c :: signed.1 ++ digits.1, digits.2)
    else ([], s)

/-- A number; `float` is what a literal with a fraction or an exponent stands for. -/
def scanNumber (float : Str → Float) (s : Str) : Option (Json × Str) :=
  let sign := s.takeWhile fun c => c.val = 45
  if 1 < sign.length then none
  else
    match scanNat (s.drop sign.length) with
    | none => none
    | some (digits, rest) =>
      let fraction := scanFraction rest
      let exponent := scanExponent fraction.2
      if fraction.1 = [] ∧ exponent.1 = [] then
        some (.int (if sign = [] then ofDecimal digits else -ofDecimal digits), exponent.2)
      else some (.float (float (sign ++ digits ++ fraction.1 ++ exponent.1)), exponent.2)

/-- What may stand behind a value. -/
def Ends (s : Str) : Prop := ∀ c ∈ s.head?, c.val = 44 ∨ c.val = 93 ∨ c.val = 125

theorem isDigit_of_mem_decimal {n : ℕ} {c : CodePoint} (h : c ∈ decimal n) : isDigit c = true := by
  unfold decimal at h
  split_ifs at h
  · rw [List.mem_singleton.1 h]
    decide
  · obtain ⟨d, hd, rfl⟩ := List.mem_map.1 (List.mem_reverse.1 h)
    have hlt : d < 10 := Nat.digits_lt_base (by norm_num) hd
    interval_cases d <;> decide

/-- Only zero starts with a zero. -/
theorem decimal_cons (n : ℕ) : ∃ c s, decimal n = c :: s ∧ (c.val = 48 → s = []) := by
  by_cases hn : n = 0
  · exact ⟨48, [], by rw [decimal, if_pos hn], fun _ => rfl⟩
  · have hne : Nat.digits 10 n ≠ [] := Nat.digits_ne_nil_iff_ne_zero.2 hn
    have hlast := Nat.getLast_digit_ne_zero 10 hn
    have hlt : (Nat.digits 10 n).getLast hne < 10 :=
      Nat.digits_lt_base (by norm_num) (List.getLast_mem hne)
    refine ⟨_, _, by rw [decimal, if_neg hn, ← List.dropLast_append_getLast hne, List.map_append,
      List.reverse_append]; rfl, fun h => ?_⟩
    exfalso
    generalize (Nat.digits 10 n).getLast hne = d at hlast hlt h
    interval_cases d <;> first | exact hlast rfl | exact absurd h (by decide)

theorem Ends.not_digit {s : Str} (h : Ends s) : ∀ c ∈ s.head?, isDigit c = false := by
  intro c hc
  rcases h c hc with h | h | h <;> simp [isDigit, h]

theorem span_digits {l rest : Str} (hl : ∀ c ∈ l, isDigit c = true) (hrest : Ends rest) :
    (l ++ rest).span isDigit = (l, rest) := by
  rw [List.span_eq_takeWhile_dropWhile, List.takeWhile_append_of_pos hl,
    List.dropWhile_append_of_pos hl]
  cases rest with
  | nil => simp
  | cons c rest =>
    have hc := hrest.not_digit c rfl
    rw [List.takeWhile_cons_of_neg (by simp [hc]), List.dropWhile_cons_of_neg (by simp [hc]),
      List.append_nil]

theorem scanNat_decimal (n : ℕ) {rest : Str} (hrest : Ends rest) :
    scanNat (decimal n ++ rest) = some (decimal n, rest) := by
  have hall : ∀ c ∈ decimal n, isDigit c = true := fun c => isDigit_of_mem_decimal
  obtain ⟨c, s, hs, hzero⟩ := decimal_cons n
  have hspan := span_digits hall hrest
  rw [hs] at hall hspan ⊢
  rw [List.cons_append] at hspan ⊢
  unfold scanNat
  dsimp only
  by_cases hc : c.val = 48
  · rw [if_pos hc, hzero hc]
    rfl
  · rw [if_neg hc, if_pos (hall c List.mem_cons_self), hspan]

theorem Ends.scanFraction {s : Str} (h : Ends s) : scanFraction s = ([], s) := by
  unfold Python.scanFraction
  cases s with
  | nil => rfl
  | cons c s =>
    dsimp only
    rw [if_neg]
    rintro ⟨hc, -⟩
    have := h c rfl
    omega

theorem Ends.scanExponent {s : Str} (h : Ends s) : scanExponent s = ([], s) := by
  unfold Python.scanExponent
  cases s with
  | nil => rfl
  | cons c s =>
    dsimp only
    rw [if_neg]
    rintro ⟨hc, -⟩
    have := h c rfl
    omega

/-- An integer is read back. -/
theorem scanNumber_decimalInt (float : Str → Float) (n : ℤ) {rest : Str} (hrest : Ends rest) :
    scanNumber float (decimalInt n ++ rest) = some (.int n, rest) := by
  have hsign : ∀ m, (decimal m ++ rest).takeWhile (fun c => decide (c.val = 45)) = [] := by
    intro m
    obtain ⟨c, s, hs, -⟩ := decimal_cons m
    have hc : isDigit c = true := isDigit_of_mem_decimal (hs ▸ List.mem_cons_self)
    rw [hs, List.cons_append, List.takeWhile_cons_of_neg]
    simp only [isDigit, decide_eq_true_eq] at hc ⊢
    omega
  have hvalue : ∀ m, ofDecimal (decimal m) = m := ofDigits_decimal
  unfold scanNumber
  cases n with
  | ofNat m =>
    simp [decimalInt, hsign, scanNat_decimal m hrest, hrest.scanFraction, hrest.scanExponent,
      hvalue]
  | negSucc m =>
    have hminus : (45 :: (decimal (m + 1) ++ rest)).takeWhile (fun c => decide (c.val = 45))
        = [45] := by
      rw [List.takeWhile_cons_of_pos (by decide), hsign]
    simp [decimalInt, hminus, scanNat_decimal (m + 1) hrest, hrest.scanFraction,
      hrest.scanExponent, hvalue, Int.negSucc_eq]

/-! ### Values -/

namespace Json

/-- The constants. -/
def words : List (Str × Json) := [
  (Python.str ['n', 'u', 'l', 'l'], .null), (Python.str ['t', 'r', 'u', 'e'], .bool true),
  (Python.str ['f', 'a', 'l', 's', 'e'], .bool false), (Python.str ['N', 'a', 'N'], .float .nan),
  (Python.str ['I', 'n', 'f', 'i', 'n', 'i', 't', 'y'], .float (.inf false)),
  (Python.str ['-', 'I', 'n', 'f', 'i', 'n', 'i', 't', 'y'], .float (.inf true))]

def scanWord (s : Str) : Option (Json × Str) :=
  words.findSome? fun w => if w.1.isPrefixOf s then some (w.2, s.drop w.1.length) else none

def skipSpace (s : Str) : Str :=
  s.dropWhile fun c => c.val = 32 ∨ c.val = 9 ∨ c.val = 10 ∨ c.val = 13

section Scan

variable (float : Str → Float)

mutual

/-- `scan_once`, on a value of fewer than `fuel` characters; the last value of a key counts. -/
def scanOnce : (fuel : ℕ) → Str → Option (Json × Str)
  | 0, _ => none
  | _ + 1, [] => none
  | fuel + 1, c :: s =>
    if c.val = 34 then (scanString fuel s).map fun r => (.str r.1, r.2)
    else if c.val = 91 then
      if (skipSpace s).head? = some (chr 93) then some (.arr [], (skipSpace s).tail)
      else (scanItems fuel (skipSpace s)).map fun r => (.arr r.1, r.2)
    else if c.val = 123 then
      if (skipSpace s).head? = some (chr 125) then some (.obj [], (skipSpace s).tail)
      else (scanFields fuel (skipSpace s)).map fun r =>
        (.obj (r.1.foldl (fun fields e => setItem fields e.1 e.2) []), r.2)
    else
      match scanWord (c :: s) with
      | some r => some r
      | none => scanNumber float (c :: s)

/-- The items of a list, up to its bracket. -/
def scanItems : (fuel : ℕ) → Str → Option (List Json × Str)
  | 0, _ => none
  | fuel + 1, s =>
    match scanOnce fuel s with
    | none => none
    | some (v, rest) =>
      match skipSpace rest with
      | [] => none
      | c :: rest =>
        if c.val = 93 then some ([v], rest)
        else if c.val = 44 then (scanItems fuel (skipSpace rest)).map fun r => (v :: r.1, r.2)
        else none

/-- The entries of a dict, up to its brace. -/
def scanFields : (fuel : ℕ) → Str → Option (List (Str × Json) × Str)
  | 0, _ => none
  | _ + 1, [] => none
  | fuel + 1, c :: s =>
    if c.val ≠ 34 then none
    else
      match scanString fuel s with
      | none => none
      | some (k, rest) =>
        if (skipSpace rest).head? ≠ some (chr 58) then none
        else
          match scanOnce fuel (skipSpace (skipSpace rest).tail) with
          | none => none
          | some (v, rest) =>
            match skipSpace rest with
            | [] => none
            | c :: rest =>
              if c.val = 125 then some ([(k, v)], rest)
              else if c.val = 44 then
                (scanFields fuel (skipSpace rest)).map fun r => ((k, v) :: r.1, r.2)
              else none

end

/-- `json.loads`. -/
def loads (s : Str) : Except Exc Json :=
  match scanOnce float (s.length + 1) (skipSpace s) with
  | none => .error .valueError
  | some (v, rest) => if skipSpace rest = [] then .ok v else .error .valueError

end Scan

/-! ### What is kept -/

mutual

/-- `P` holds of every value in it that is no list and no dict, and of the keys of its dicts. -/
def each (P : Json → Bool) : Json → Bool
  | .arr l => eachItem P l
  | .obj fields => eachField P fields
  | .null => P .null
  | .bool b => P (.bool b)
  | .int n => P (.int n)
  | .float x => P (.float x)
  | .str s => P (.str s)

def eachItem (P : Json → Bool) : List Json → Bool
  | [] => true
  | v :: l => v.each P && eachItem P l

def eachField (P : Json → Bool) : List (Str × Json) → Bool
  | [] => true
  | (k, v) :: l => P (.str k) && v.each P && eachField P l

end

section Each

variable {P : Json → Bool}

theorem each_arr {l : List Json} : (Json.arr l).each P = true ↔ ∀ v ∈ l, v.each P = true := by
  rw [each]
  induction l with
  | nil => simp [eachItem]
  | cons v l ih => rw [eachItem, Bool.and_eq_true, ih, List.forall_mem_cons]

theorem each_obj {fields : List (Str × Json)} : (Json.obj fields).each P = true
    ↔ ∀ e ∈ fields, P (.str e.1) = true ∧ e.2.each P = true := by
  rw [each]
  induction fields with
  | nil => simp [eachField]
  | cons e fields ih =>
    obtain ⟨k, v⟩ := e
    rw [eachField, Bool.and_eq_true, Bool.and_eq_true, ih, List.forall_mem_cons]

theorem each_leaf {v : Json} (harr : ∀ l, v ≠ .arr l) (hobj : ∀ fields, v ≠ .obj fields) :
    v.each P = P v := by
  cases v with
  | arr l => exact absurd rfl (harr l)
  | obj fields => exact absurd rfl (hobj fields)
  | _ => rw [each]

theorem each_sortKeys {v : Json} (h : v.each P = true) : v.sortKeys.each P = true := by
  induction v using induct with
  | leaf v harr hobj => rwa [sortKeys_leaf harr hobj]
  | arr l ih =>
    rw [sortKeys_arr, each_arr]
    intro v hv
    obtain ⟨w, hw, rfl⟩ := List.mem_map.1 hv
    exact ih w hw (each_arr.1 h w hw)
  | obj fields ih =>
    rw [sortKeys_obj, each_obj]
    intro e he
    obtain ⟨e', he', rfl⟩ := List.mem_map.1 ((sorted_perm fields).mem_iff.1 he)
    obtain ⟨hk, hv⟩ := each_obj.1 h e' he'
    exact ⟨hk, ih e' he' hv⟩

end Each

/-- The strings in a value are of `K`. -/
def allStr (K : Str → Bool) (v : Json) : Bool :=
  v.each fun
    | .str s => K s
    | _ => true

/-- No float in it is a finite one. -/
def noFloat (v : Json) : Bool :=
  v.each fun
    | .float (.fin _) => false
    | _ => true

theorem allStr_true (v : Json) : v.allStr (fun _ => true) = true := by
  unfold allStr
  induction v using induct with
  | leaf v harr hobj =>
    rw [each_leaf harr hobj]
    split <;> rfl
  | arr l ih => exact each_arr.2 ih
  | obj fields ih => exact each_obj.2 fun e he => ⟨rfl, ih e he⟩

/-! ### It is read back -/

section Loads

variable (F : FloatRepr) (float : Str → Float)

theorem foldl_setItem : ∀ (fields done : List (Str × Json)),
    ((done ++ fields).map Prod.fst).Nodup →
      fields.foldl (fun fields e => setItem fields e.1 e.2) done = done ++ fields
  | [], done, _ => (List.append_nil done).symm
  | e :: fields, done, h => by
    have hnew : (done.any fun x => x.1 = e.1) = false := by
      rw [List.any_eq_false]
      intro x hx
      rw [List.map_append, List.nodup_append] at h
      simpa using h.2.2 x.1 (List.mem_map_of_mem hx) e.1 (by simp)
    have hset : setItem done e.1 e.2 = done ++ [e] := by
      rw [setItem, hnew]
      rfl
    have ih := foldl_setItem fields (done ++ [e]) (by rwa [List.append_assoc])
    rw [List.foldl_cons, hset, ih, List.append_assoc]
    rfl

variable {F : FloatRepr} {float : Str → Float}

theorem skipSpace_cons {c : CodePoint} (h : 32 < c.val) (s : Str) : skipSpace (c :: s) = c :: s :=
  List.dropWhile_cons_of_neg (by
    simp only [decide_eq_true_eq]
    omega)

/-- No text of a value starts with white space or a closing bracket. -/
theorem dumps_cons {v : Json} (h : v.noFloat = true) :
    ∃ c s, v.dumps F = c :: s ∧ 32 < c.val ∧ c.val ≠ 93 := by
  have hdecimal : ∀ n, ∃ c s, decimal n = c :: s ∧ 32 < c.val ∧ c.val ≠ 93 := by
    intro n
    obtain ⟨c, s, hs, -⟩ := decimal_cons n
    have hc : isDigit c = true := isDigit_of_mem_decimal (hs ▸ List.mem_cons_self)
    refine ⟨c, s, hs, ?_⟩
    simp only [isDigit, decide_eq_true_eq] at hc
    omega
  match v with
  | .null => exact ⟨_, _, rfl, by decide⟩
  | .bool true => exact ⟨_, _, rfl, by decide⟩
  | .bool false => exact ⟨_, _, rfl, by decide⟩
  | .int (.ofNat n) => exact hdecimal n
  | .int (.negSucc n) => exact ⟨_, _, rfl, by decide⟩
  | .float .nan => exact ⟨_, _, rfl, by decide⟩
  | .float (.inf true) => exact ⟨_, _, rfl, by decide⟩
  | .float (.inf false) => exact ⟨_, _, rfl, by decide⟩
  | .float (.fin q) => cases h
  | .str s => exact ⟨_, _, rfl, by decide⟩
  | .arr l => exact ⟨_, _, by rw [dumps]; rfl, by decide⟩
  | .obj fields => exact ⟨_, _, by rw [dumps]; rfl, by decide⟩

theorem skipSpace_dumps {v : Json} (h : v.noFloat = true) (rest : Str) :
    skipSpace (v.dumps F ++ rest) = v.dumps F ++ rest := by
  obtain ⟨c, s, hs, hc, -⟩ := dumps_cons (F := F) h
  rw [hs, List.cons_append, skipSpace_cons hc]

theorem scanOnce_word {w : Str} {v : Json} (h : (w, v) ∈ words) (fuel : ℕ) (rest : Str) :
    scanOnce float (fuel + 1) (w ++ rest) = some (v, rest) := by
  simp only [words, List.mem_cons, Prod.mk.injEq, List.not_mem_nil, or_false] at h
  rcases h with ⟨rfl, rfl⟩ | ⟨rfl, rfl⟩ | ⟨rfl, rfl⟩ | ⟨rfl, rfl⟩ | ⟨rfl, rfl⟩ | ⟨rfl, rfl⟩ <;> rfl

/-- No constant starts with a digit, or with a sign and a digit. -/
theorem scanWord_digit {c : CodePoint} (hc : isDigit c = true) (s : Str) :
    scanWord (c :: s) = none ∧ scanWord (45 :: c :: s) = none := by
  simp only [isDigit, decide_eq_true_eq] at hc
  have hne : ∀ a : Char, a.toNat < 48 ∨ 57 < a.toNat → codePoint a ≠ c := by
    intro a ha h
    have hval : a.toNat = c.val := congrArg Fin.val h
    omega
  have hminus : ∀ a : Char, a.toNat ≠ 45 → codePoint a ≠ 45 := fun a ha h =>
    ha (congrArg Fin.val h)
  constructor
  · simp [scanWord, words, Python.str, hne]
  · simp [scanWord, words, Python.str, hne, hminus]

/-- A digit is neither a quote nor a bracket nor a brace. -/
theorem scanOnce_number {c : CodePoint} (hc : c.val ≠ 34 ∧ c.val ≠ 91 ∧ c.val ≠ 123) (fuel : ℕ)
    (s : Str) (hword : scanWord (c :: s) = none) :
    scanOnce float (fuel + 1) (c :: s) = scanNumber float (c :: s) := by
  rw [scanOnce, if_neg hc.1, if_neg hc.2.1, if_neg hc.2.2, hword]

theorem scanOnce_int (n : ℤ) (fuel : ℕ) {rest : Str} (hrest : Ends rest) :
    scanOnce float (fuel + 1) (decimalInt n ++ rest) = some (.int n, rest) := by
  have hdigit : ∀ {c : CodePoint}, isDigit c = true → c.val ≠ 34 ∧ c.val ≠ 91 ∧ c.val ≠ 123 := by
    intro c hc
    simp only [isDigit, decide_eq_true_eq] at hc
    omega
  rw [← scanNumber_decimalInt float n hrest]
  cases n with
  | ofNat m =>
    obtain ⟨c, s, hs, -⟩ := decimal_cons m
    have hc : isDigit c = true := isDigit_of_mem_decimal (hs ▸ List.mem_cons_self)
    simp only [decimalInt, hs, List.cons_append]
    exact scanOnce_number (hdigit hc) fuel _ (scanWord_digit hc _).1
  | negSucc m =>
    obtain ⟨c, s, hs, -⟩ := decimal_cons (m + 1)
    have hc : isDigit c = true := isDigit_of_mem_decimal (hs ▸ List.mem_cons_self)
    simp only [decimalInt, hs, List.cons_append]
    exact scanOnce_number (by decide) fuel _ (scanWord_digit hc _).2

/-- A value is read back, whatever ends it. -/
def ReadsBack (F : FloatRepr) (float : Str → Float) (v : Json) : Prop :=
  ∀ (fuel : ℕ) (rest : Str), Ends rest → (v.dumps F).length ≤ fuel →
    scanOnce float fuel (v.dumps F ++ rest) = some (v, rest)

theorem scanString_quote {s : Str} (hs : joined s = true) {fuel : ℕ}
    (hfuel : (quote s).length ≤ fuel + 1) (rest : Str) :
    ∃ t, quote s ++ rest = 34 :: t ∧ scanString fuel t = some (s, rest) := by
  refine ⟨escape s ++ 34 :: rest, ?_, scanString_escape rest hs ?_⟩
  · simp only [quote, List.append_assoc]
    rfl
  · have hle := length_le_escape s
    simp only [quote, Python.str, List.length_append, List.length_map, List.length_singleton]
      at hfuel
    omega

theorem skipSpace_space (s : Str) : skipSpace (32 :: s) = skipSpace s := rfl

/-- What a text starts with starts a list of texts. -/
theorem skipSpace_intercalate {c : CodePoint} (hc : 32 < c.val) (s sep : Str) (l : List Str)
    (rest : Str) : skipSpace (sep.intercalate ((c :: s) :: l) ++ rest)
        = sep.intercalate ((c :: s) :: l) ++ rest
      ∧ (sep.intercalate ((c :: s) :: l) ++ rest).head? = some c := by
  cases l with
  | nil =>
    rw [List.intercalate_singleton]
    exact ⟨skipSpace_cons hc _, rfl⟩
  | cons u l =>
    rw [List.intercalate_cons_cons]
    exact ⟨skipSpace_cons hc _, rfl⟩

/-- The items of a list, with what stands behind them. -/
theorem skipSpace_items {v : Json} (h : v.noFloat = true) (l : List Json) (rest : Str) :
    skipSpace ((Python.str [',', ' ']).intercalate ((v :: l).map (dumps F)) ++ rest)
        = (Python.str [',', ' ']).intercalate ((v :: l).map (dumps F)) ++ rest
      ∧ ((Python.str [',', ' ']).intercalate ((v :: l).map (dumps F)) ++ rest).head? ≠ some (chr 93) := by
  obtain ⟨c, s, hs, hc, hne⟩ := dumps_cons (F := F) h
  rw [List.map_cons, hs]
  obtain ⟨hskip, hhead⟩ := skipSpace_intercalate hc s (Python.str [',', ' ']) (l.map (dumps F)) rest
  refine ⟨hskip, fun h => hne ?_⟩
  exact congrArg Fin.val (Option.some.inj (hhead.symm.trans h))

/-- The entries of a dict, with what stands behind them. -/
theorem skipSpace_fields (e : Str × Json) (l : List (Str × Json)) (rest : Str) :
    skipSpace ((Python.str [',', ' ']).intercalate ((e :: l).map (entryText F)) ++ rest)
        = (Python.str [',', ' ']).intercalate ((e :: l).map (entryText F)) ++ rest
      ∧ ((Python.str [',', ' ']).intercalate ((e :: l).map (entryText F)) ++ rest).head?
        ≠ some (chr 125) := by
  have htext : ∃ s, entryText F e = 34 :: s := ⟨_, rfl⟩
  obtain ⟨s, hs⟩ := htext
  rw [List.map_cons, hs]
  obtain ⟨hskip, hhead⟩ := skipSpace_intercalate (c := 34) (by decide) s (Python.str [',', ' '])
    (l.map (entryText F)) rest
  refine ⟨hskip, fun h => ?_⟩
  exact absurd (Option.some.inj (hhead.symm.trans h)) (by decide)

theorem comma_space : Python.str [',', ' '] = [44, 32] := rfl

theorem scanItems_dumps : ∀ {l : List Json} {fuel : ℕ} (rest : Str), l ≠ [] →
    (∀ v ∈ l, v.noFloat = true ∧ ReadsBack F float v) →
    ((Python.str [',', ' ']).intercalate (l.map (dumps F))).length < fuel →
    scanItems float fuel ((Python.str [',', ' ']).intercalate (l.map (dumps F)) ++ 93 :: rest)
      = some (l, rest)
  | [], _, _, hne, _, _ => absurd rfl hne
  | _, 0, _, _, _, hfuel => by omega
  | [v], fuel + 1, rest, _, hall, hfuel => by
    have hv := (hall v List.mem_cons_self).2
    simp only [List.map_cons, List.map_nil, List.intercalate_singleton] at hfuel ⊢
    rw [scanItems, hv fuel _ (by simp [Ends]) (by omega)]
    rfl
  | v :: w :: l, fuel + 1, rest, _, hall, hfuel => by
    obtain ⟨hv, hrest⟩ := List.forall_mem_cons.1 hall
    have ih := @scanItems_dumps (w :: l) fuel rest (by simp) hrest
    have hskip := (skipSpace_items (F := F) (hrest w List.mem_cons_self).1 l (93 :: rest)).1
    rw [comma_space] at hfuel ih hskip ⊢
    rw [List.map_cons, List.map_cons, List.intercalate_cons_cons, ← List.map_cons] at hfuel ⊢
    simp only [List.append_assoc, List.length_append, List.length_cons, List.length_nil] at hfuel ⊢
    rw [scanItems, hv.2 fuel _ (by simp [Ends]) (by omega), List.cons_append, List.singleton_append]
    dsimp only
    rw [skipSpace_cons (by decide)]
    dsimp only
    rw [if_neg (by decide), if_pos (by decide), skipSpace_space, hskip, ih (by omega)]
    rfl

/-- The text of an entry is read as its key and its value. -/
theorem scanFields_entry {e : Str × Json} (hk : joined e.1 = true)
    (hv : e.2.noFloat = true ∧ ReadsBack F float e.2) {fuel : ℕ} {rest : Str} (hrest : Ends rest)
    (hfuel : (entryText F e).length ≤ fuel) :
    scanFields float (fuel + 1) (entryText F e ++ rest) =
      match skipSpace rest with
      | [] => none
      | c :: rest =>
        if c.val = 125 then some ([e], rest)
        else if c.val = 44 then
          (scanFields float fuel (skipSpace rest)).map fun r => (e :: r.1, r.2)
        else none := by
  have hlen : (entryText F e).length = (quote e.1).length + 2 + (e.2.dumps F).length := by
    simp only [entryText, Python.str, List.length_append, List.length_map, List.length_cons,
      List.length_nil]
  obtain ⟨t, ht, hscan⟩ := @scanString_quote e.1 hk fuel (by omega)
    (58 :: 32 :: (e.2.dumps F ++ rest))
  have htext : entryText F e ++ rest = 34 :: t := by
    rw [← ht]
    simp only [entryText, List.append_assoc]
    rfl
  rw [htext, scanFields, if_neg (by decide), hscan]
  dsimp only
  rw [skipSpace_cons (by decide), if_neg fun h => h rfl, List.tail_cons, skipSpace_space,
    skipSpace_dumps hv.1, hv.2 fuel rest hrest (by omega)]

theorem scanFields_dumps : ∀ {l : List (Str × Json)} {fuel : ℕ} (rest : Str), l ≠ [] →
    (∀ e ∈ l, joined e.1 = true ∧ e.2.noFloat = true ∧ ReadsBack F float e.2) →
    ((Python.str [',', ' ']).intercalate (l.map (entryText F))).length < fuel →
    scanFields float fuel ((Python.str [',', ' ']).intercalate (l.map (entryText F)) ++ 125 :: rest)
      = some (l, rest)
  | [], _, _, hne, _, _ => absurd rfl hne
  | _, 0, _, _, _, hfuel => by omega
  | [e], fuel + 1, rest, _, hall, hfuel => by
    obtain ⟨hk, hv⟩ := hall e List.mem_cons_self
    simp only [List.map_cons, List.map_nil, List.intercalate_singleton] at hfuel ⊢
    rw [scanFields_entry hk hv (by simp [Ends]) (by omega)]
    rfl
  | e :: e' :: l, fuel + 1, rest, _, hall, hfuel => by
    obtain ⟨⟨hk, hv⟩, hrest⟩ := List.forall_mem_cons.1 hall
    have ih := @scanFields_dumps (e' :: l) fuel rest (by simp) hrest
    have hskip := (skipSpace_fields (F := F) e' l (125 :: rest)).1
    rw [comma_space] at hfuel ih hskip ⊢
    rw [List.map_cons, List.map_cons, List.intercalate_cons_cons, ← List.map_cons] at hfuel ⊢
    simp only [List.append_assoc, List.length_append, List.length_cons, List.length_nil] at hfuel ⊢
    rw [scanFields_entry hk hv (by simp [Ends]) (by omega), List.cons_append,
      List.singleton_append, skipSpace_cons (by decide)]
    dsimp only
    rw [if_neg (by decide), if_pos (by decide), skipSpace_space, hskip, ih (by omega)]
    rfl

theorem readsBack_arr {l : List Json} (hall : ∀ v ∈ l, v.noFloat = true ∧ ReadsBack F float v) :
    ReadsBack F float (.arr l) := by
  intro fuel rest _ hfuel
  have htext : (Json.arr l).dumps F ++ rest
      = 91 :: ((Python.str [',', ' ']).intercalate (l.map (dumps F)) ++ 93 :: rest) := by
    rw [dumps, dumpsItems_eq]
    simp only [List.append_assoc]
    rfl
  have hlen : ((Json.arr l).dumps F).length
      = ((Python.str [',', ' ']).intercalate (l.map (dumps F))).length + 2 := by
    rw [dumps, dumpsItems_eq]
    simp only [Python.str, List.length_append, List.length_map, List.length_singleton]
    omega
  obtain ⟨fuel, rfl⟩ : ∃ n, fuel = n + 1 := ⟨fuel - 1, by omega⟩
  rw [htext, scanOnce, if_neg (by decide), if_pos (by decide)]
  cases l with
  | nil => rfl
  | cons v l =>
    obtain ⟨hskip, hhead⟩ := skipSpace_items (F := F) (hall v List.mem_cons_self).1 l (93 :: rest)
    rw [hskip, if_neg hhead, scanItems_dumps rest (List.cons_ne_nil v l) hall (by omega)]
    rfl

theorem readsBack_obj {fields : List (Str × Json)} (hnd : (fields.map Prod.fst).Nodup)
    (hall : ∀ e ∈ fields, joined e.1 = true ∧ e.2.noFloat = true ∧ ReadsBack F float e.2) :
    ReadsBack F float (.obj fields) := by
  intro fuel rest _ hfuel
  have htext : (Json.obj fields).dumps F ++ rest
      = 123 :: ((Python.str [',', ' ']).intercalate (fields.map (entryText F)) ++ 125 :: rest) := by
    rw [dumps, dumpsFields_eq]
    simp only [List.append_assoc]
    rfl
  have hlen : ((Json.obj fields).dumps F).length
      = ((Python.str [',', ' ']).intercalate (fields.map (entryText F))).length + 2 := by
    rw [dumps, dumpsFields_eq]
    simp only [Python.str, List.length_append, List.length_map, List.length_singleton]
    omega
  obtain ⟨fuel, rfl⟩ : ∃ n, fuel = n + 1 := ⟨fuel - 1, by omega⟩
  rw [htext, scanOnce, if_neg (by decide), if_neg (by decide), if_pos (by decide)]
  cases fields with
  | nil => rfl
  | cons e l =>
    obtain ⟨hskip, hhead⟩ := skipSpace_fields (F := F) e l (125 :: rest)
    rw [hskip, if_neg hhead, scanFields_dumps rest (List.cons_ne_nil e l) hall (by omega),
      Option.map_some, foldl_setItem (e :: l) [] (by simpa using hnd), List.nil_append]

/-- `scan_once` undoes `json.dumps` on what is kept. -/
theorem readsBack {v : Json} (hp : v.Proper) (hj : v.allStr joined = true)
    (hf : v.noFloat = true) : ReadsBack F float v := by
  induction v using induct with
  | arr l ih =>
    rw [proper_arr] at hp
    rw [allStr, each_arr] at hj
    rw [noFloat, each_arr] at hf
    exact readsBack_arr fun v hv => ⟨hf v hv, ih v hv (hp v hv) (hj v hv) (hf v hv)⟩
  | obj fields ih =>
    rw [proper_obj] at hp
    rw [allStr, each_obj] at hj
    rw [noFloat, each_obj] at hf
    exact readsBack_obj hp.1 fun e he =>
      ⟨(hj e he).1, (hf e he).2, ih e he (hp.2 e he) (hj e he).2 (hf e he).2⟩
  | leaf v harr hobj =>
    intro fuel rest hrest hfuel
    obtain ⟨c, s, hs, -⟩ := dumps_cons (F := F) hf
    obtain ⟨fuel, rfl⟩ : ∃ n, fuel = n + 1 := ⟨fuel - 1, by
      rw [hs, List.length_cons] at hfuel
      omega⟩
    match v with
    | .null => exact scanOnce_word (by simp [words, dumps]) fuel rest
    | .bool true => exact scanOnce_word (by simp [words, dumps]) fuel rest
    | .bool false => exact scanOnce_word (by simp [words, dumps]) fuel rest
    | .float .nan => exact scanOnce_word (by simp [words, dumps]) fuel rest
    | .float (.inf true) => exact scanOnce_word (by simp [words, dumps]) fuel rest
    | .float (.inf false) => exact scanOnce_word (by simp [words, dumps]) fuel rest
    | .float (.fin q) => cases hf
    | .int n => exact scanOnce_int n fuel hrest
    | .str s =>
      rw [dumps] at hfuel ⊢
      obtain ⟨t, ht, hscan⟩ := scanString_quote (s := s) hj hfuel rest
      rw [ht, scanOnce, if_pos (by decide), hscan]
      rfl
    | .arr l => exact absurd rfl (harr l)
    | .obj fields => exact absurd rfl (hobj fields)

/-- `json.loads` undoes `json.dumps` on what is kept. -/
theorem loads_dumps {v : Json} (hp : v.Proper) (hj : v.allStr joined = true)
    (hf : v.noFloat = true) : loads float (v.dumps F) = .ok v := by
  have hskip := skipSpace_dumps (F := F) hf []
  have hscan := @readsBack F float v hp hj hf ((v.dumps F).length + 1) []
    (by simp [Ends]) (Nat.le_succ _)
  rw [List.append_nil] at hskip hscan
  unfold loads
  rw [hskip, hscan]
  rfl

end Loads

end Json

/-! ### What is joined -/

theorem joined_of_high {s : Str} (h : ∀ c ∈ s, isHigh c.val = false) : joined s = true := by
  induction s with
  | nil => rfl
  | cons c s ih =>
    obtain ⟨hc, hs⟩ := List.forall_mem_cons.1 h
    cases s with
    | nil => rfl
    | cons d s => simpa [joined, hc] using ih hs

theorem joined_of_encodable {s : Str} (h : encodable s = true) : joined s = true := by
  refine joined_of_high fun c hc => ?_
  have := of_decide_eq_true (List.all_eq_true.1 h c hc)
  simp only [isHigh, decide_eq_false_iff_not]
  omega

theorem isHigh_utf8Char? {a : UInt8} {rest : Bytes} {n k : ℕ} (h : utf8Char? a rest = some (n, k)) :
    isHigh (chr n).val = false := by
  have hb : (rest.getD 0 0).toNat < 256 := (rest.getD 0 0).toNat_lt
  rw [chr_val]
  simp only [isHigh, decide_eq_false_iff_not]
  unfold utf8Char? at h
  dsimp only at h
  split_ifs at h with h₁ h₂ h₃ h₄ <;> obtain ⟨rfl, rfl⟩ := Prod.mk.inj (Option.some.inj h)
  · omega
  · omega
  · obtain ⟨-, hhigh, hb, hc, hlow, hnot⟩ := h₃
    simp only [isTail, decide_eq_true_eq] at hb hc
    have hlt : (a.toNat - 0xE0) * 4096 + ((rest.getD 0 0).toNat - 0x80) * 64
        + ((rest.getD 1 0).toNat - 0x80) < 0x110000 := by omega
    rw [Nat.mod_eq_of_lt hlt]
    omega
  · obtain ⟨-, -, -, -, -, hlow, hhigh⟩ := h₄
    omega

/-- No character of a file name is a high surrogate. -/
theorem isHigh_fsdecodeFrom : ∀ (k : ℕ) (b : Bytes), ∀ c ∈ fsdecodeFrom k b, isHigh c.val = false
  | _, [], c, hc => by
    rw [fsdecodeFrom] at hc
    exact absurd hc List.not_mem_nil
  | k + 1, _ :: rest, c, hc => by
    rw [fsdecodeFrom] at hc
    exact isHigh_fsdecodeFrom k rest c hc
  | 0, a :: rest, c, hc => by
    have ha : a.toNat < 256 := a.toNat_lt
    rw [fsdecodeFrom] at hc
    rcases List.mem_cons.1 hc with rfl | hc
    · rcases h : utf8Char? a rest with _ | ⟨n, k⟩
      · rw [Option.getD_none, chr_val]
        simp only [isHigh, decide_eq_false_iff_not]
        omega
      · exact isHigh_utf8Char? h
    · exact isHigh_fsdecodeFrom _ rest c hc

theorem joined_fsdecode (b : Bytes) : joined (fsdecode b) = true :=
  joined_of_high (isHigh_fsdecodeFrom 0 b)

/-- The bytes of an ASCII text are decoded to it. -/
theorem fsdecode_of_ascii {s : Str} (h : Ascii s) :
    fsdecode (s.map fun c => UInt8.ofNat c.val) = s := by
  unfold fsdecode
  induction s with
  | nil => rfl
  | cons c s ih =>
    obtain ⟨hc, hs⟩ := List.forall_mem_cons.1 h
    have hbyte : (UInt8.ofNat c.val).toNat = c.val := UInt8.toNat_ofNat_of_lt' (by
      show c.val < 256
      omega)
    have hchar : ∀ rest, utf8Char? (UInt8.ofNat c.val) rest = some (c.val, 0) := by
      intro rest
      unfold utf8Char?
      dsimp only
      rw [hbyte, if_pos hc]
    rw [List.map_cons, fsdecodeFrom, hchar, Option.getD_some, chr_of_val, ih hs]

end Python
