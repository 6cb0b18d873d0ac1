import Aimless.Linkify

/-!
# Linkified messages are inert and lossless

The matches tile the text (`Tiled`): each starts where the one before it ends, or later.  A link is
shorter than its match by the punctuation it drops, and the text goes on where the link ends, so the
segments between the links and the links together are the text again.  Escaping leaves no angle
bracket and no quote, so that the only tags are the ones of the links.
-/

namespace Aimless

open Python (CodePoint Str)

namespace Linkify

/-- The letters, digits and `#` an entity's name is made of. -/
def nameChar (c : CodePoint) : Bool :=
  (97 ≤ c.val ∧ c.val ≤ 122) ∨ (65 ≤ c.val ∧ c.val ≤ 90) ∨ (48 ≤ c.val ∧ c.val ≤ 57) ∨ c.val = 35

/-- What is relied on of `GLib.markup_escape_text`: it makes of each character the character itself
or an entity, an entity of `&` and of what breaks markup, and it can be undone. -/
structure EscapesMarkup (escapeChar : CodePoint → Str) (unescape : Str → Str) : Prop where
  entity : ∀ c, escapeChar c = [c] ∨ ∃ name, escapeChar c
    = Python.str ['&'] ++ name ++ Python.str [';'] ∧ name.all nameChar
  special : ∀ c, c = Python.codePoint '&' ∨ breaksMarkup c → escapeChar c ≠ [c]
  unescape : ∀ s, unescape (escape escapeChar s) = s

/-- A text with the tags taken out: what stands from a `<` to the next `>` is dropped. -/
def stripTags : (inTag : Bool) → Str → Str
  | _, [] => []
  | false, c :: rest =>
    if c = Python.codePoint '<' then stripTags true rest else c :: stripTags false rest
  | true, c :: rest => stripTags (c ≠ Python.codePoint '>') rest

/-- No angle brackets. -/
def NoTags (s : Str) : Prop := ∀ c ∈ s, c ≠ Python.codePoint '<' ∧ c ≠ Python.codePoint '>'

instance (s : Str) : Decidable (NoTags s) :=
  decidable_of_iff (s.all fun c => c ≠ Python.codePoint '<' ∧ c ≠ Python.codePoint '>')
    (by simp [NoTags])

/-- Text without angle brackets, and between its parts links that are opened and closed and contain
no other; `link` is a condition on the `href` and on the text of each link. -/
inductive Inert (link : Str → Str → Prop) : Str → Prop
  | text {s : Str} (hs : NoTags s) : Inert link s
  | link {s href visible rest : Str} (hs : NoTags s)
      (hhref : ∀ c ∈ href, breaksMarkup c = false) (hvisible : NoTags visible)
      (hlink : link href visible) (hrest : Inert link rest) :
      Inert link (s ++ openTag href ++ visible ++ closeTag ++ rest)

/-- A link's target: it has one of the two schemes, and no whitespace, angle bracket or quote. -/
structure IsTarget (url : Str) : Prop where
  scheme : http <+: url ∨ https <+: url
  chars : ∀ c ∈ url, Python.isWhite c = false ∧ breaksMarkup c = false

/-! ### The search -/

section Search

variable {word : CodePoint → Bool}

/-- From `pos` on, each match is in the text where it says, after the one before it. -/
def Tiled (text : Str) : (pos : ℕ) → List Match → Prop
  | _, [] => True
  | pos, m :: ms => pos ≤ m.start ∧ m.group <+: text.drop m.start ∧ IsTarget m.group
      ∧ Tiled text (m.start + m.group.length) ms

theorem Tiled.mono {text : Str} {pos pos' : ℕ} {ms : List Match} (h : Tiled text pos ms)
    (hpos : pos' ≤ pos) : Tiled text pos' ms := by
  cases ms with
  | nil => trivial
  | cons m ms => exact ⟨hpos.trans h.1, h.2⟩

theorem schemeOf_cases (text : Str) :
    schemeOf text = [] ∨ ((schemeOf text = http ∨ schemeOf text = https)
      ∧ schemeOf text <+: text) := by
  unfold schemeOf
  split_ifs with h1 h2
  · exact .inr ⟨.inr rfl, List.isPrefixOf_iff_prefix.1 h1⟩
  · exact .inr ⟨.inl rfl, List.isPrefixOf_iff_prefix.1 h2⟩
  · exact .inl rfl

theorem of_urlChar {c : CodePoint} (h : urlChar c) :
    Python.isWhite c = false ∧ breaksMarkup c = false := by
  simpa [urlChar] using h

theorem urlAt_spec {prev : Option CodePoint} {text : Str} (h : urlAt word prev text ≠ []) :
    urlAt word prev text <+: text ∧ IsTarget (urlAt word prev text) := by
  unfold urlAt at h ⊢
  dsimp only at h ⊢
  split_ifs at h ⊢ with hmatch
  · simp only [Bool.and_eq_true, decide_eq_true_eq] at hmatch
    obtain ⟨hscheme, rest, hrest⟩ := (schemeOf_cases text).resolve_left hmatch.1.2
    refine ⟨?_, ?_, fun c hc => of_urlChar ?_⟩
    · have hbody : schemeOf text ++ text.drop (schemeOf text).length = text :=
        List.prefix_iff_eq_append.1 ⟨rest, hrest⟩
      conv_rhs => rw [← hbody]
      exact (List.prefix_append_right_inj _).2 (List.takeWhile_prefix urlChar)
    · rcases hscheme with h | h
      · exact .inl (h ▸ List.prefix_append _ _)
      · exact .inr (h ▸ List.prefix_append _ _)
    · rcases List.mem_append.1 hc with hc | hc
      · have hall : (schemeOf text).all urlChar := by
          rcases hscheme with h | h <;> rw [h] <;> decide
        exact List.all_eq_true.1 hall c hc
      · exact List.mem_takeWhile_imp hc
  · exact absurd rfl h

/-- The matches that are found tile the text. -/
theorem finditer_tiled (text : Str) : ∀ (s : Str) (skip i : ℕ) (prev : Option CodePoint),
    text.drop i = s → Tiled text (i + skip) (finditer word skip i prev s)
  | [], skip, i, prev, _ => by simp [finditer, Tiled]
  | c :: rest, skip, i, prev, h => by
    have hrest : text.drop (i + 1) = rest := by
      rw [← List.drop_drop, h]
      rfl
    cases skip with
    | succ skip =>
      rw [finditer]
      have := finditer_tiled text rest skip (i + 1) (some c) hrest
      rwa [Nat.add_assoc, Nat.add_comm 1] at this
    | zero =>
      rw [finditer]
      split_ifs with hno
      · exact (finditer_tiled text rest 0 (i + 1) (some c) hrest).mono (by omega)
      · obtain ⟨hfound, htarget⟩ := urlAt_spec hno
        refine ⟨le_refl _, h ▸ hfound, htarget, ?_⟩
        have hlen : 0 < (urlAt word prev (c :: rest)).length := List.length_pos_iff.2 hno
        have htail : i + (urlAt word prev (c :: rest)).length
            ≤ i + 1 + ((urlAt word prev (c :: rest)).length - 1) := by omega
        exact (finditer_tiled text rest _ (i + 1) (some c) hrest).mono htail

end Search

/-! ### The links -/

section Links

theorem rdropWhile_prefix_of_not {l r : Str} {p : CodePoint → Bool} {c : CodePoint} (h : ¬ p c) :
    l ++ [c] <+: (l ++ [c] ++ r).rdropWhile p := by
  induction r using List.reverseRecOn with
  | nil => rw [List.append_nil, List.rdropWhile_concat_neg _ _ _ h]
  | append_singleton r x ih =>
    by_cases hx : p x
    · rwa [← List.append_assoc, List.rdropWhile_concat_pos _ _ _ hx]
    · rw [← List.append_assoc, List.rdropWhile_concat_neg _ _ _ hx, List.append_assoc]
      exact List.prefix_append _ _

/-- Taking punctuation off the end leaves the scheme, which ends in a slash. -/
theorem url_isTarget {m : Match} (h : IsTarget m.group) : IsTarget m.url := by
  have hslash : ¬ trailingPunct.contains (Python.codePoint '/') := by decide
  refine ⟨?_, fun c hc => h.chars c ((List.rdropWhile_prefix _ _).subset hc)⟩
  rcases h.scheme with ⟨rest, hrest⟩ | ⟨rest, hrest⟩
  · left
    rw [Match.url, ← hrest]
    exact rdropWhile_prefix_of_not
      (l := Python.str ['h', 't', 't', 'p', ':', '/']) hslash
  · right
    rw [Match.url, ← hrest]
    exact rdropWhile_prefix_of_not
      (l := Python.str ['h', 't', 't', 'p', 's', ':', '/']) hslash

theorem url_ne_nil {m : Match} (h : IsTarget m.group) : m.url ≠ [] := by
  intro hnil
  rcases (url_isTarget h).scheme with hs | hs <;> rw [hnil] at hs <;> exact absurd hs (by decide)

end Links

/-! ### The markup -/

section Markup

variable {word : CodePoint → Bool} {escapeChar : CodePoint → Str} {unescape : Str → Str}

theorem not_breaks_of_nameChar {c : CodePoint} (h : nameChar c) : breaksMarkup c = false := by
  have hlt : Python.codePoint '<' = ⟨60, by decide⟩ := by decide
  have hgt : Python.codePoint '>' = ⟨62, by decide⟩ := by decide
  simp only [nameChar, decide_eq_true_eq] at h
  simp only [breaksMarkup, Bool.or_eq_false_iff, decide_eq_false_iff_not, hlt, hgt, quoteMark,
    apostrophe, Fin.ext_iff]
  omega

theorem EscapesMarkup.not_breaks (E : EscapesMarkup escapeChar unescape) {s : Str} {x : CodePoint}
    (hx : x ∈ escape escapeChar s) : breaksMarkup x = false := by
  obtain ⟨c, -, hx⟩ := List.mem_flatMap.1 hx
  rcases E.entity c with hself | ⟨name, hname, hchars⟩
  · rw [hself, List.mem_singleton] at hx
    rw [hx, ← Bool.not_eq_true]
    exact fun hbreaks => E.special c (.inr hbreaks) hself
  · rw [hname, List.mem_append, List.mem_append] at hx
    rcases hx with (hx | hx) | hx
    · rw [List.mem_singleton.1 hx]
      decide
    · exact not_breaks_of_nameChar (List.all_eq_true.1 hchars x hx)
    · rw [List.mem_singleton.1 hx]
      decide

theorem EscapesMarkup.noTags (E : EscapesMarkup escapeChar unescape) (s : Str) :
    NoTags (escape escapeChar s) := by
  intro c hc
  have := E.not_breaks hc
  simp only [breaksMarkup, Bool.or_eq_false_iff, decide_eq_false_iff_not] at this
  exact ⟨this.1.1.1, this.1.1.2⟩

theorem escape_append (s s' : Str) :
    escape escapeChar (s ++ s') = escape escapeChar s ++ escape escapeChar s' :=
  List.flatMap_append

theorem stripTags_append {s : Str} (h : NoTags s) (rest : Str) :
    stripTags false (s ++ rest) = s ++ stripTags false rest := by
  induction s with
  | nil => rfl
  | cons c s ih =>
    rw [List.cons_append, stripTags, if_neg (h c List.mem_cons_self).1,
      ih fun c hc => h c (List.mem_cons_of_mem _ hc), List.cons_append]

/-- Inside a tag everything up to the `>` is dropped. -/
theorem stripTags_in {s : Str} (h : NoTags s) (rest : Str) :
    stripTags true (s ++ Python.codePoint '>' :: rest) = stripTags false rest := by
  induction s with
  | nil => simp [stripTags]
  | cons c s ih =>
    have hc : (decide (c ≠ Python.codePoint '>')) = true := decide_eq_true (h c List.mem_cons_self).2
    rw [List.cons_append, stripTags, hc, ih fun c hc => h c (List.mem_cons_of_mem _ hc)]

theorem stripTags_openTag {href : Str} (h : NoTags href) (rest : Str) :
    stripTags false (openTag href ++ rest) = stripTags false rest := by
  have hbefore : NoTags (Python.str ['a', ' ', 'h', 'r', 'e', 'f', '='] ++ [quoteMark]) := by decide
  have hafter : NoTags [quoteMark] := by decide
  have hin : NoTags (Python.str ['a', ' ', 'h', 'r', 'e', 'f', '='] ++ [quoteMark] ++ href
      ++ [quoteMark]) := by
    intro c hc
    rcases List.mem_append.1 hc with hc | hc
    · rcases List.mem_append.1 hc with hc | hc
      · exact hbefore c hc
      · exact h c hc
    · exact hafter c hc
  have hsplit : openTag href ++ rest = Python.codePoint '<' :: (Python.str ['a', ' ', 'h', 'r',
      'e', 'f', '='] ++ [quoteMark] ++ href ++ [quoteMark] ++ Python.codePoint '>' :: rest) := by
    simp [openTag, Python.str]
  rw [hsplit, stripTags, if_pos rfl, stripTags_in hin]

theorem stripTags_closeTag (rest : Str) :
    stripTags false (closeTag ++ rest) = stripTags false rest := by
  have hin : NoTags (Python.str ['/', 'a']) := by decide
  have hsplit : closeTag ++ rest
      = Python.codePoint '<' :: (Python.str ['/', 'a'] ++ Python.codePoint '>' :: rest) := rfl
  rw [hsplit, stripTags, if_pos rfl, stripTags_in hin]

/-- What stands before a link, the link, and what stands after it. -/
theorem drop_eq_of_tiled {text : Str} {pos : ℕ} {m : Match} (hpos : pos ≤ m.start)
    (hgroup : m.group <+: text.drop m.start) :
    text.drop pos
      = (text.take m.start).drop pos ++ (m.url ++ text.drop (m.start + m.url.length)) := by
  have hurl : m.url <+: text.drop m.start := (List.rdropWhile_prefix _ _).trans hgroup
  have hafter : m.url ++ text.drop (m.start + m.url.length) = text.drop m.start := by
    rw [← List.drop_drop]
    exact List.prefix_iff_eq_append.1 hurl
  have hdrop : text.drop m.start = (text.drop pos).drop (m.start - pos) := by
    rw [List.drop_drop, Nat.add_sub_cancel' hpos]
  rw [hafter, hdrop, List.drop_take, List.take_append_drop]

theorem linkifyLoop_inert (E : EscapesMarkup escapeChar unescape) {text : Str} :
    ∀ {pos : ℕ} {ms : List Match}, Tiled text pos ms →
      Inert (fun href visible => unescape href = unescape visible ∧ IsTarget (unescape href))
        (linkifyLoop escapeChar text pos ms)
  | pos, [], _ => .text (E.noTags _)
  | pos, m :: ms, ⟨hpos, hgroup, htarget, htiled⟩ => by
    have hlen : m.url.length ≤ m.group.length := (List.rdropWhile_prefix _ _).length_le
    rw [linkifyLoop, if_neg (url_ne_nil htarget)]
    refine .link (E.noTags _) (fun c hc => E.not_breaks hc) (E.noTags _) ⟨rfl, ?_⟩
      (linkifyLoop_inert E (htiled.mono (Nat.add_le_add_left hlen _)))
    rw [E.unescape]
    exact url_isTarget htarget

/-- Without its tags the markup is the escaped text. -/
theorem stripTags_linkifyLoop (E : EscapesMarkup escapeChar unescape) {text : Str} :
    ∀ {pos : ℕ} {ms : List Match}, Tiled text pos ms →
      stripTags false (linkifyLoop escapeChar text pos ms) = escape escapeChar (text.drop pos)
  | pos, [], _ => by
    have h := stripTags_append (E.noTags (text.drop pos)) []
    rwa [List.append_nil, stripTags, List.append_nil] at h
  | pos, m :: ms, ⟨hpos, hgroup, htarget, htiled⟩ => by
    have hlen : m.url.length ≤ m.group.length := (List.rdropWhile_prefix _ _).length_le
    have ih := stripTags_linkifyLoop E (htiled.mono (Nat.add_le_add_left hlen _))
    rw [linkifyLoop, if_neg (url_ne_nil htarget)]
    dsimp only
    rw [List.append_assoc, List.append_assoc, List.append_assoc, stripTags_append (E.noTags _),
      stripTags_openTag (E.noTags _), stripTags_append (E.noTags _), stripTags_closeTag, ih,
      ← escape_append, ← escape_append, ← drop_eq_of_tiled hpos hgroup]

/-- For every text: the tags of the links are the only ones in the markup, they are paired and not
nested, every link goes to what it shows, an `http` or `https` URL without whitespace, quotes or
angle brackets, and the markup without its tags is the text again. -/
theorem linkify_inert (word : CodePoint → Bool) (E : EscapesMarkup escapeChar unescape)
    (text : Str) :
    unescape (stripTags false (linkify word escapeChar text)) = text
      ∧ Inert (fun href visible => unescape href = unescape visible ∧ IsTarget (unescape href))
        (linkify word escapeChar text) := by
  have htiled : Tiled text 0 (finditer word 0 0 none text) := finditer_tiled text text 0 0 none rfl
  refine ⟨?_, linkifyLoop_inert E htiled⟩
  rw [linkify, stripTags_linkifyLoop E htiled, E.unescape]
  rfl

end Markup

/-! ### The entities of the five special characters -/

def entities : List (CodePoint × Str) :=
  [(Python.codePoint '&', Python.str ['a', 'm', 'p']),
    (Python.codePoint '<', Python.str ['l', 't']),
    (Python.codePoint '>', Python.str ['g', 't']),
    (quoteMark, Python.str ['q', 'u', 'o', 't']),
    (apostrophe, Python.str ['a', 'p', 'o', 's'])]

def escapeSpecial (c : CodePoint) : Str :=
  ((entities.lookup c).map fun name => Python.str ['&'] ++ name ++ Python.str [';']).getD [c]

/-- Replaces each entity by its character; `skip` counts down to the entity's end. -/
def unescapeSpecial : (skip : ℕ) → Str → Str
  | _, [] => []
  | skip + 1, _ :: rest => unescapeSpecial skip rest
  | 0, c :: rest =>
    let found := if c = Python.codePoint '&'
      then entities.find? fun e => (e.2 ++ Python.str [';']).isPrefixOf rest else none
    (found.map Prod.fst).getD c :: unescapeSpecial ((found.map fun e => e.2.length + 1).getD 0) rest

theorem escapeSpecial_cases (c : CodePoint) :
    (∃ name, (c, name) ∈ entities
      ∧ escapeSpecial c = Python.str ['&'] ++ name ++ Python.str [';'])
      ∨ ((∀ e ∈ entities, c ≠ e.1) ∧ escapeSpecial c = [c]) := by
  unfold escapeSpecial
  rcases h : entities.lookup c with _ | name
  · refine .inr ⟨fun e he heq => ?_, rfl⟩
    simpa [heq] using List.lookup_eq_none_iff.1 h e he
  · obtain ⟨l, r, hsplit, -⟩ := List.lookup_eq_some_iff.1 h
    refine .inl ⟨name, ?_, rfl⟩
    rw [hsplit]
    exact List.mem_append_right _ List.mem_cons_self

theorem unescape_escapeSpecial (c : CodePoint) (rest : Str) :
    unescapeSpecial 0 (escapeSpecial c ++ rest) = c :: unescapeSpecial 0 rest := by
  rcases escapeSpecial_cases c with ⟨name, hmem, hc⟩ | ⟨hne, hc⟩ <;> rw [hc]
  · simp only [entities, List.mem_cons, List.not_mem_nil, or_false, Prod.mk.injEq] at hmem
    rcases hmem with ⟨rfl, rfl⟩ | ⟨rfl, rfl⟩ | ⟨rfl, rfl⟩ | ⟨rfl, rfl⟩ | ⟨rfl, rfl⟩ <;> rfl
  · have hamp : c ≠ Python.codePoint '&' := hne _ List.mem_cons_self
    rw [List.singleton_append, unescapeSpecial, if_neg hamp]
    rfl

theorem escapesMarkup_special : EscapesMarkup escapeSpecial (unescapeSpecial 0) := by
  refine ⟨fun c => ?_, fun c hc hself => ?_, fun s => ?_⟩
  · rcases escapeSpecial_cases c with ⟨name, hmem, hc⟩ | ⟨-, hc⟩
    · refine .inr ⟨name, hc, ?_⟩
      have hall : entities.all fun e => e.2.all nameChar := by decide
      exact List.all_eq_true.1 hall _ hmem
    · exact .inl hc
  · have hmem : ∃ e ∈ entities, c = e.1 := by
      simp only [breaksMarkup, Bool.or_eq_true, decide_eq_true_eq] at hc
      simp only [entities, List.mem_cons, List.not_mem_nil, or_false, exists_eq_or_imp,
        exists_eq_left]
      tauto
    rcases escapeSpecial_cases c with ⟨name, -, hc⟩ | ⟨hne, -⟩
    · rw [hself] at hc
      have hlen := congrArg List.length hc
      simp [Python.str] at hlen
    · obtain ⟨e, he, heq⟩ := hmem
      exact hne e he heq
  · induction s with
    | nil => rfl
    | cons c s ih =>
      rw [escape, List.flatMap_cons, unescape_escapeSpecial]
      exact congrArg (c :: ·) ih

/-- `<b> https://a.io/?x&y.` as markup: the tag that was typed is text, and the full stop is not
part of the link. -/
theorem linkify_inert_typed :
    let word : CodePoint → Bool := nameChar
    let text := Python.str ['<', 'b', '>', ' ', 'h', 't', 't', 'p', 's', ':', '/', '/', 'a', '.',
      'i', 'o', '/', '?', 'x', '&', 'y', '.']
    EscapesMarkup escapeSpecial (unescapeSpecial 0)
      ∧ (finditer word 0 0 none text).map Match.url = [Python.str ['h', 't', 't', 'p', 's', ':',
        '/', '/', 'a', '.', 'i', 'o', '/', '?', 'x', '&', 'y']]
      ∧ unescapeSpecial 0 (stripTags false (linkify word escapeSpecial text)) = text
      ∧ Inert (fun href visible => unescapeSpecial 0 href = unescapeSpecial 0 visible
          ∧ IsTarget (unescapeSpecial 0 href)) (linkify word escapeSpecial text) := by
  intro word text
  exact ⟨escapesMarkup_special, by decide, linkify_inert word escapesMarkup_special text⟩

end Linkify

end Aimless
