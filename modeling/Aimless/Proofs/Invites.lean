import Aimless.Contacts
import Aimless.Lib.Radix

/-!
# Base58 and invites

A base58 text and the bytes it stands for are numerals of one number in two bases, with the same
number of leading zeros, so each is read back from the other.  An invite puts two keys in base58 and
a name one after the other; it is read back unless the name has the separator in it or white space
at its end.
-/

namespace Aimless

open Python (Str Exc CodePoint)

namespace Base58

def digit (r : ℕ) : CodePoint := alphabet.getD r (Python.codePoint '1')

theorem idxOf?_digit {r : ℕ} (h : r < 58) : alphabet.idxOf? (digit r) = some r := by
  have hall : ∀ r : Fin 58, alphabet.idxOf? (digit r) = some r.val := by decide +kernel
  exact hall ⟨r, h⟩

theorem digit_eq_one_iff {r : ℕ} (h : r < 58) : digit r = Python.codePoint '1' ↔ r = 0 := by
  have hall : ∀ r : Fin 58, digit r = Python.codePoint '1' ↔ r.val = 0 := by decide +kernel
  exact hall ⟨r, h⟩

theorem digit_mem (r : ℕ) : digit r ∈ alphabet := by
  unfold digit
  rw [List.getD_eq_getElem?_getD]
  rcases h : alphabet[r]? with _ | c
  · decide
  · exact List.mem_of_getElem? h

theorem exists_digit {c : CodePoint} (h : c ∈ alphabet) : ∃ r < 58, digit r = c := by
  obtain ⟨r, hr, rfl⟩ := List.getElem_of_mem h
  exact ⟨r, hr, List.getD_eq_getElem _ _ hr⟩

/-- A text over the alphabet is made of digits. -/
theorem exists_digits : ∀ {s : Str}, (∀ c ∈ s, c ∈ alphabet) →
    ∃ ds : List ℕ, (∀ d ∈ ds, d < 58) ∧ s = ds.map digit
  | [], _ => ⟨[], by simp, rfl⟩
  | c :: s, h => by
    obtain ⟨d, hd, rfl⟩ := exists_digit (h c List.mem_cons_self)
    obtain ⟨ds, hds, rfl⟩ := exists_digits fun c hc => h c (List.mem_cons_of_mem _ hc)
    exact ⟨d :: ds, by simpa [hd] using hds, rfl⟩

theorem number_digits : ∀ {ds : List ℕ} (n : ℕ), (∀ d ∈ ds, d < 58) →
    number n (ds.map digit) = .ok (ds.foldl (fun n d => n * 58 + d) n)
  | [], n, _ => rfl
  | d :: ds, n, h => by
    obtain ⟨hd, hds⟩ := List.forall_mem_cons.1 h
    rw [List.map_cons, number, idxOf?_digit hd]
    exact number_digits _ hds

theorem number_error : ∀ {s : Str} (n : ℕ), (∃ c ∈ s, c ∉ alphabet) → ∃ c, number n s = .error c
  | [], n, h => by
    obtain ⟨c, hc, -⟩ := h
    cases hc
  | c :: s, n, h => by
    unfold number
    cases hc : alphabet.idxOf? c with
    | none => exact ⟨c, rfl⟩
    | some d =>
      refine number_error _ ?_
      obtain ⟨x, hx, hnot⟩ := h
      rcases List.mem_cons.1 hx with rfl | hx
      · rw [List.idxOf?_eq_none_iff.2 hnot] at hc
        cases hc
      · exact ⟨x, hx, hnot⟩

/-! ### The numerals -/

theorem zeros_bytes (data : Bytes) :
    (data.takeWhile (· = 0)).length = Radix.zeros (data.map UInt8.toNat) := by
  unfold Radix.zeros
  rw [List.takeWhile_map, List.length_map]
  congr 2
  funext b
  simp only [Function.comp_apply, decide_eq_decide]
  exact ⟨fun h => h ▸ rfl, fun h => UInt8.toNat.inj h⟩

theorem zeros_digits {ds : List ℕ} (h : ∀ d ∈ ds, d < 58) :
    ((ds.map digit).takeWhile (· = Python.codePoint '1')).length = Radix.zeros ds := by
  induction ds with
  | nil => rfl
  | cons d ds ih =>
    obtain ⟨hd, hds⟩ := List.forall_mem_cons.1 h
    have ih := ih hds
    unfold Radix.zeros at ih ⊢
    by_cases h0 : d = 0
    · rw [List.map_cons, List.takeWhile_cons_of_pos (by simpa using (digit_eq_one_iff hd).2 h0),
        List.takeWhile_cons_of_pos (by simpa using h0), List.length_cons, List.length_cons, ih]
    · have hone : ¬ digit d = Python.codePoint '1' := fun h => h0 ((digit_eq_one_iff hd).1 h)
      rw [List.map_cons, List.takeWhile_cons_of_neg (by simpa using hone),
        List.takeWhile_cons_of_neg (by simpa using h0)]
      rfl

/-- The text of some bytes: the numeral in base 58. -/
theorem b58encode_eq (data : Bytes) : b58encode data
    = (Radix.spell 58 (Radix.zeros (data.map UInt8.toNat))
      (Radix.value 256 (data.map UInt8.toNat))).map digit := by
  have hvalue : fromBytes data = Radix.value 256 (data.map UInt8.toNat) := by
    unfold fromBytes Radix.value
    rw [List.foldl_map]
  unfold b58encode Radix.spell
  rw [zeros_bytes, hvalue, List.map_append, List.map_replicate]
  rfl

/-- The bytes of a text over the alphabet: the numeral in base 256. -/
theorem b58decode_digits {ds : List ℕ} (h : ∀ d ∈ ds, d < 58) : b58decode (ds.map digit)
    = .ok ((Radix.spell 256 (Radix.zeros ds) (Radix.value 58 ds)).map UInt8.ofNat) := by
  unfold b58decode
  rw [number_digits 0 h, zeros_digits h, Radix.spell, List.map_append, List.map_replicate]
  rfl

theorem b58decode_b58encode (data : Bytes) : b58decode (b58encode data) = .ok data := by
  rw [b58encode_eq, b58decode_digits fun d hd => Radix.digit_lt (by norm_num) hd,
    Radix.zeros_spell, Radix.value_spell, Radix.spell_value (by norm_num), List.map_map]
  · refine congrArg _ ((List.map_congr_left fun b _ => ?_).trans (List.map_id data))
    exact UInt8.ofNat_toNat
  · intro d hd
    obtain ⟨b, -, rfl⟩ := List.mem_map.1 hd
    exact b.toNat_lt

theorem b58encode_b58decode {ds : List ℕ} (h : ∀ d ∈ ds, d < 58) :
    b58encode ((Radix.spell 256 (Radix.zeros ds) (Radix.value 58 ds)).map UInt8.ofNat)
      = ds.map digit := by
  have hbytes : ((Radix.spell 256 (Radix.zeros ds) (Radix.value 58 ds)).map UInt8.ofNat).map
      UInt8.toNat = Radix.spell 256 (Radix.zeros ds) (Radix.value 58 ds) := by
    rw [List.map_map]
    refine (List.map_congr_left fun d hd => ?_).trans (List.map_id _)
    exact UInt8.toNat_ofNat_of_lt (Radix.digit_lt (by norm_num) hd)
  rw [b58encode_eq, hbytes, Radix.zeros_spell, Radix.value_spell,
    Radix.spell_value (by norm_num) h]

/-- Base58 is a bijection between bytes and texts over the alphabet, and decoding raises exactly for
the other texts. -/
theorem base58_bijective :
    (∀ data : Bytes, b58decode (b58encode data) = .ok data)
    ∧ (∀ s : Str, (∀ c ∈ s, c ∈ alphabet) →
      ∃ data, b58decode s = .ok data ∧ b58encode data = s)
    ∧ ∀ s : Str, (∃ c, b58decode s = .error c) ↔ ∃ c ∈ s, c ∉ alphabet := by
  refine ⟨b58decode_b58encode, fun s hs => ?_, fun s => ⟨?_, fun hbad => ?_⟩⟩
  · obtain ⟨ds, hds, rfl⟩ := exists_digits hs
    exact ⟨_, b58decode_digits hds, b58encode_b58decode hds⟩
  · rintro ⟨c, herr⟩
    by_contra hall
    push Not at hall
    obtain ⟨ds, hds, rfl⟩ := exists_digits hall
    rw [b58decode_digits hds] at herr
    cases herr
  · obtain ⟨c, hc⟩ := number_error 0 hbad
    exact ⟨c, by rw [b58decode, hc]⟩

/-- A key in base58 is never as long as one in hex. -/
theorem length_b58encode_lt {key : Bytes} (h : key.length = 32) : (b58encode key).length < 64 := by
  set bs := key.map UInt8.toNat with hbs
  have hlen : bs.length = 32 := by rw [hbs, List.length_map, h]
  have hlt : ∀ d ∈ bs, d < 256 := by
    intro d hd
    obtain ⟨b, -, rfl⟩ := List.mem_map.1 hd
    exact b.toNat_lt
  have hvalue := Radix.value_lt_of_zeros (by norm_num) hlt
  have hzeros := Radix.zeros_le bs
  rw [hlen] at hvalue hzeros
  rw [b58encode_eq, List.length_map, ← hbs, Radix.spell, List.length_append, List.length_replicate,
    List.length_reverse]
  by_cases hz : Radix.zeros bs = 0
  · -- no leading zero: 44 digits are enough
    have hdigits : (Nat.digits 58 (Radix.value 256 bs)).length ≤ 44 := by
      rw [Nat.digits_length_le_iff (by norm_num)]
      rw [hz] at hvalue
      exact hvalue.trans (by norm_num)
    omega
  · -- two digits for each byte that is not one of them
    have hdigits : (Nat.digits 58 (Radix.value 256 bs)).length ≤ 2 * (32 - Radix.zeros bs) := by
      rw [Nat.digits_length_le_iff (by norm_num), Nat.pow_mul]
      exact hvalue.trans_le (Nat.pow_le_pow_left (by norm_num) _)
    omega

theorem colon_notMem_b58encode (data : Bytes) : Python.codePoint ':' ∉ b58encode data := by
  have hnot : Python.codePoint ':' ∉ alphabet := by decide +kernel
  rw [b58encode_eq]
  intro h
  obtain ⟨r, -, hr⟩ := List.mem_map.1 h
  exact hnot (hr ▸ digit_mem r)

end Base58

/-! ### Invites -/

section Split

variable {α : Type} [DecidableEq α] {x : α}

theorem length_splitOn (x : α) : ∀ l : List α, (l.splitOn x).length = l.count x + 1
  | [] => rfl
  | a :: l => by
    rw [List.splitOn_cons_eq_if_modifyHead, List.count_cons]
    split
    · rw [List.length_cons, length_splitOn x l]
    · rw [List.length_modifyHead, length_splitOn x l]

/-- A list that is split in three. -/
theorem splitOn_eq_three {l a b c : List α} : l.splitOn x = [a, b, c]
    ↔ l = a ++ x :: (b ++ x :: c) ∧ x ∉ a ∧ x ∉ b ∧ x ∉ c := by
  constructor
  · intro h
    have hjoin : [x].intercalate (l.splitOn x) = l := List.intercalate_splitOn x
    have hl : l = a ++ x :: (b ++ x :: c) := by
      rw [← hjoin, h]
      simp [List.intercalate]
    have hcount := length_splitOn x l
    rw [h, hl] at hcount
    simp only [List.count_append, List.count_cons_self, List.length_cons, List.length_nil] at hcount
    refine ⟨hl, ?_, ?_, ?_⟩ <;> exact List.count_eq_zero.1 (by omega)
  · rintro ⟨rfl, ha, hb, hc⟩
    rw [List.splitOn_append_cons_self_of_not_mem ha, List.splitOn_append_cons_self_of_not_mem hb,
      List.splitOn_eq_singleton hc]

end Split

/-- A name that an invite can end with. -/
def Readable (screen : Str) : Prop :=
  Python.codePoint ':' ∉ screen ∧ ∀ c ∈ screen.getLast?, Python.isWhite c = false

/-- The text of an invite. -/
def inviteText (clientField nodeField screen : Str) : Str :=
  inviteStart ++ (clientField ++ Python.codePoint ':' :: (nodeField ++ Python.codePoint ':' :: screen))

/-- What `parse_invite` reads: a text that is an invite once it is stripped. -/
theorem parseInvite_eq_ok {s : Str} {inv : Invite} : parseInvite s = .ok inv ↔
    ∃ clientField nodeField client node, Python.strip s = inviteText clientField nodeField inv.screen
      ∧ (Python.codePoint ':' ∉ clientField ∧ Python.codePoint ':' ∉ nodeField
        ∧ Python.codePoint ':' ∉ inv.screen)
      ∧ decodeKeyField clientField .client = .ok client ∧ decodeKeyField nodeField .node = .ok node
      ∧ inv.screen ≠ [] ∧ inv.client = Python.str (Hex.encode client)
      ∧ inv.node = Python.str (Hex.encode node) := by
  unfold parseInvite
  constructor
  · intro h
    dsimp only at h
    split at h
    · cases h
    rename_i hstart
    simp only [Bool.not_eq_false] at hstart
    obtain ⟨rest, hrest⟩ := List.isPrefixOf_iff_prefix.1 hstart
    rw [← hrest, List.drop_left] at h
    split at h
    · rename_i clientField nodeField screen hsplit
      obtain ⟨rfl, hc, hn, hs⟩ := splitOn_eq_three.1 hsplit
      cases hclient : decodeKeyField clientField .client with
      | error e =>
        rw [hclient] at h
        cases h
      | ok client =>
        cases hnode : decodeKeyField nodeField .node with
        | error e =>
          rw [hclient, hnode] at h
          cases h
        | ok node =>
          rw [hclient, hnode] at h
          by_cases hscreen : screen = []
          · subst hscreen
            cases h
          · simp only [bind, Except.bind, if_neg hscreen] at h
            cases h
            exact ⟨clientField, nodeField, client, node, hrest.symm, ⟨hc, hn, hs⟩, hclient, hnode,
              hscreen, rfl, rfl⟩
    · cases h
  · rintro ⟨clientField, nodeField, client, node, hstrip, ⟨hc, hn, hs⟩, hclient, hnode, hscreen,
      hinvc, hinvn⟩
    have hsplit : (clientField ++ Python.codePoint ':' :: (nodeField ++ Python.codePoint ':'
        :: inv.screen)).splitOn (Python.codePoint ':') = [clientField, nodeField, inv.screen] :=
      splitOn_eq_three.2 ⟨rfl, hc, hn, hs⟩
    have hstart : inviteStart.isPrefixOf (inviteText clientField nodeField inv.screen) = true :=
      List.isPrefixOf_iff_prefix.2 (List.prefix_append _ _)
    dsimp only
    rw [hstrip, hstart, inviteText, List.drop_left, hsplit]
    simp only [hclient, hnode, bind, Except.bind, if_neg hscreen, Bool.true_eq_false, if_false]
    obtain ⟨c, n, sc⟩ := inv
    cases hinvc
    cases hinvn
    rfl

theorem decodeKeyField_length {field : Str} {label : KeyLabel} {key : Bytes}
    (h : decodeKeyField field label = .ok key) : key.length = 32 := by
  unfold decodeKeyField at h
  split at h
  · split at h
    · cases h
    · split at h
      · cases h
      · rename_i hlen
        cases h
        exact not_not.1 hlen
  · split at h
    · cases h
    · split at h
      · cases h
      · rename_i hlen
        cases h
        exact not_not.1 hlen

/-- A key in base58 is read as such. -/
theorem decodeKeyField_b58encode {key : Bytes} (h : key.length = 32) (label : KeyLabel) :
    decodeKeyField (Base58.b58encode key) label = .ok key := by
  have hlen := Base58.length_b58encode_lt h
  unfold decodeKeyField
  rw [if_neg fun hhex => by omega, Base58.b58decode_b58encode]
  simp [h]

theorem makeInvite_hex (client node : Bytes) (screen : Str) :
    makeInvite client (Python.str (Hex.encode node)) screen
      = .ok (inviteText (Base58.b58encode client) (Base58.b58encode node) screen) := by
  unfold makeInvite inviteText
  rw [Python.fromHex_encode]
  simp only [bind, Except.bind, pure, Except.pure, List.append_assoc]
  rfl

theorem getLast?_inviteText (clientField nodeField : Str) {screen : Str} (hne : screen ≠ []) :
    (inviteText clientField nodeField screen).getLast? = screen.getLast? := by
  have hsplit : inviteText clientField nodeField screen = (inviteStart ++ (clientField
      ++ Python.codePoint ':' :: (nodeField ++ [Python.codePoint ':']))) ++ screen := by
    simp [inviteText]
  rw [hsplit, List.getLast?_append_of_ne_nil _ hne]

/-- Stripping takes nothing from an invite whose name does not end in white space. -/
theorem strip_inviteText {clientField nodeField screen : Str} (hne : screen ≠ [])
    (h : ∀ c ∈ screen.getLast?, Python.isWhite c = false) :
    Python.strip (inviteText clientField nodeField screen)
      = inviteText clientField nodeField screen := by
  have hdrop : (inviteText clientField nodeField screen).dropWhile Python.isWhite
      = inviteText clientField nodeField screen :=
    List.dropWhile_cons_of_neg (by decide)
  unfold Python.strip
  rw [hdrop, List.rdropWhile_eq_self_iff]
  intro hnil
  have hlast := List.getLast?_eq_some_getLast hnil
  rw [getLast?_inviteText _ _ hne] at hlast
  rw [h _ hlast]
  exact Bool.false_ne_true

/-- What is left of a text that was stripped does not end in white space. -/
theorem isWhite_of_strip {s : Str} {c : CodePoint} (h : (Python.strip s).getLast? = some c) :
    Python.isWhite c = false := by
  unfold Python.strip at h
  have hnil : (s.dropWhile Python.isWhite).rdropWhile Python.isWhite ≠ [] := by
    intro hnil
    rw [hnil] at h
    cases h
  have hwhite := List.rdropWhile_last_not Python.isWhite _ hnil
  rw [List.getLast?_eq_some_getLast hnil] at h
  rw [Option.some.inj h] at hwhite
  simpa using hwhite

/-- The name in an invite that was read is one that can be read. -/
theorem Readable.of_parse {s : Str} {inv : Invite} (h : parseInvite s = .ok inv) :
    Readable inv.screen := by
  obtain ⟨clientField, nodeField, client, node, hstrip, ⟨-, -, hcolon⟩, -, -, hne, -, -⟩ :=
    parseInvite_eq_ok.1 h
  refine ⟨hcolon, fun c hc => isWhite_of_strip (s := s) ?_⟩
  rw [hstrip, getLast?_inviteText _ _ hne]
  exact hc

/-- What an invite is read as. -/
def readBack (client node : Bytes) (screen : Str) : Invite :=
  ⟨Python.str (Hex.encode client), Python.str (Hex.encode node), screen⟩

/-- An invite with a readable name is read back. -/
theorem parseInvite_inviteText {client node : Bytes} (hc : client.length = 32)
    (hn : node.length = 32) {screen : Str} (hne : screen ≠ []) (h : Readable screen) :
    parseInvite (inviteText (Base58.b58encode client) (Base58.b58encode node) screen)
      = .ok (readBack client node screen) :=
  parseInvite_eq_ok.2 ⟨_, _, client, node, strip_inviteText hne h.2,
    ⟨Base58.colon_notMem_b58encode _, Base58.colon_notMem_b58encode _, h.1⟩,
    decodeKeyField_b58encode hc _, decodeKeyField_b58encode hn _, hne, rfl, rfl⟩

/-- The screen names that an identity can be given. -/
def ChosenScreen (screen : Str) : Prop :=
  ∃ typed, screen = initScreen typed ∨ screen = createScreen typed

theorem ChosenScreen.ne_nil {screen : Str} (h : ChosenScreen screen) : screen ≠ [] := by
  obtain ⟨typed, rfl | rfl⟩ := h
  · unfold initScreen
    split
    · decide
    · assumption
  · unfold createScreen
    split
    · decide
    · assumption

/-- An invite is read back exactly where its name has no separator in it and no white space at its
end; and what was read from any invite makes one that is read as the same. -/
theorem invites_read_back_iff {client node : Bytes} {screen : Str} (hc : client.length = 32)
    (hn : node.length = 32) (hscreen : ChosenScreen screen) :
    ((∃ invite, makeInvite client (Python.str (Hex.encode node)) screen = .ok invite
        ∧ parseInvite invite = .ok (readBack client node screen))
      ↔ Readable screen)
    ∧ ∀ s inv, parseInvite s = .ok inv → ∃ client invite, Python.fromHex inv.client = .ok client
      ∧ makeInvite client inv.node inv.screen = .ok invite ∧ parseInvite invite = .ok inv := by
  refine ⟨⟨?_, fun h => ?_⟩, fun s inv h => ?_⟩
  · rintro ⟨invite, -, hparse⟩
    exact Readable.of_parse hparse
  · exact ⟨_, makeInvite_hex client node screen,
      parseInvite_inviteText hc hn hscreen.ne_nil h⟩
  · have hread := Readable.of_parse h
    obtain ⟨clientField, nodeField, client, node, -, -, hc, hn, hne, hinvc, hinvn⟩ :=
      parseInvite_eq_ok.1 h
    have hback : inv = readBack client node inv.screen := by
      unfold readBack
      rw [← hinvc, ← hinvn]
    refine ⟨client, _, by rw [hinvc, Python.fromHex_encode],
      by rw [hinvn]; exact makeInvite_hex client node inv.screen, ?_⟩
    rw [parseInvite_inviteText (decodeKeyField_length hc) (decodeKeyField_length hn) hne hread,
      ← hback]

/-- Two keys of zeros and the name `al`. -/
theorem invites_read_back_iff_zeros :
    let key : Bytes := List.replicate 32 0
    let screen := Python.str ['a', 'l']
    ∃ invite, makeInvite key (Python.str (Hex.encode key)) screen = .ok invite
      ∧ parseInvite invite = .ok (readBack key key screen) := by
  intro key screen
  have hscreen : ChosenScreen screen := ⟨screen, .inl (by decide)⟩
  have hreadable : Readable screen := by
    refine ⟨by decide, fun c hlast => ?_⟩
    obtain rfl : Python.codePoint 'l' = c := Option.some.inj hlast
    decide
  exact (invites_read_back_iff List.length_replicate List.length_replicate hscreen).1.2 hreadable

/-- Of two keys of zeros and the name `a:b` an invite is made that cannot be read. -/
theorem colon_in_name_unreadable :
    let key : Bytes := List.replicate 32 0
    let screen := Python.str ['a', ':', 'b']
    screen = initScreen screen ∧ screen = createScreen screen
      ∧ ∃ invite, makeInvite key (Python.str (Hex.encode key)) screen = .ok invite
        ∧ parseInvite invite = .error .badParts := by
  intro key screen
  refine ⟨by decide, by decide, _, makeInvite_hex key key screen, ?_⟩
  decide +kernel

end Aimless
