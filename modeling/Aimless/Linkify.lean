import Aimless.Lib.Python

/-!
# Links in messages

`linkify` of `gtkui.py`, which turns a message into Pango markup.  The text is what a peer typed.
`word` says which characters `\w` matches, and `escapeChar` is what `GLib.markup_escape_text` makes
of a character.
-/

namespace Aimless

open Python (CodePoint Str)

namespace Linkify

def quoteMark : CodePoint := ⟨0x22, by decide⟩

def apostrophe : CodePoint := ⟨0x27, by decide⟩

def http : Str := Python.str ['h', 't', 't', 'p', ':', '/', '/']

def https : Str := Python.str ['h', 't', 't', 'p', 's', ':', '/', '/']

/-- `<`, `>` and the two quotes. -/
def breaksMarkup (c : CodePoint) : Bool :=
  c = Python.codePoint '<' || c = Python.codePoint '>' || c = quoteMark || c = apostrophe

/-- The class of `_URL_RE`, which leaves out whitespace, angle brackets and quotes. -/
def urlChar (c : CodePoint) : Bool := !(Python.isWhite c || breaksMarkup c)

/-- `https?://` at the start of a text; empty if it is not there. -/
def schemeOf (text : Str) : Str :=
  if https.isPrefixOf text then https else if http.isPrefixOf text then http else []

/-- A match of `_URL_RE`. -/
structure Match where
  start : ℕ
  group : Str
  deriving DecidableEq

section Search

variable (word : CodePoint → Bool)

/-- `\b` between a character, if there is one, and the text after it. -/
def boundary (prev : Option CodePoint) (text : Str) : Bool := prev.any word != text.head?.any word

/-- What `_URL_RE` matches at the start of a text that follows `prev`; empty for no match. -/
def urlAt (prev : Option CodePoint) (text : Str) : Str :=
  let scheme := schemeOf text
  let rest := (text.drop scheme.length).takeWhile urlChar
  if boundary word prev text && scheme ≠ [] && rest ≠ [] then scheme ++ rest else []

/-- `_URL_RE.finditer` from position `i` on: the leftmost match, then the search goes on at its
end.  `skip` counts down to there. -/
def finditer : (skip i : ℕ) → (prev : Option CodePoint) → Str → List Match
  | _, _, _, [] => []
  | skip + 1, i, _, c :: rest => finditer skip (i + 1) (some c) rest
  | 0, i, prev, c :: rest =>
    let group := urlAt word prev (c :: rest)
    if group = [] then finditer 0 (i + 1) (some c) rest
    else ⟨i, group⟩ :: finditer (group.length - 1) (i + 1) (some c) rest

end Search

def trailingPunct : Str :=
  Python.str ['.', ',', ';', ':', '!', '?', ')'] ++ [apostrophe] ++ Python.str [']']

/-- `m.group(0).rstrip(_TRAILING_PUNCT)`. -/
def Match.url (m : Match) : Str := m.group.rdropWhile trailingPunct.contains

def openTag (href : Str) : Str :=
  Python.str ['<', 'a', ' ', 'h', 'r', 'e', 'f', '='] ++ [quoteMark] ++ href
    ++ [quoteMark] ++ Python.str ['>']

def closeTag : Str := Python.str ['<', '/', 'a', '>']

section Markup

variable (word : CodePoint → Bool) (escapeChar : CodePoint → Str)

/-- `GLib.markup_escape_text`. -/
def escape (s : Str) : Str := s.flatMap escapeChar

/-- The loop of `linkify` over the matches, from `pos` on, and the rest of the text after it. -/
def linkifyLoop (text : Str) : (pos : ℕ) → List Match → Str
  | pos, [] => escape escapeChar (text.drop pos)
  | pos, m :: ms =>
    if m.url = [] then linkifyLoop text pos ms
    else
      let esc := escape escapeChar m.url
      escape escapeChar ((text.take m.start).drop pos) ++ openTag esc ++ esc ++ closeTag
        ++ linkifyLoop text (m.start + m.url.length) ms

def linkify (text : Str) : Str :=
  linkifyLoop escapeChar text 0 (finditer word 0 0 none text)

end Markup

end Linkify

end Aimless
