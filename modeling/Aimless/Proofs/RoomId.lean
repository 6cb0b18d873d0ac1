import Aimless.Protocol
import Aimless.Lib.JsonText

/-!
# The id of a room

The id is a hash of the node keys of the members, sorted and joined with a bar.  Sorting forgets the
order and nothing else, and no node key has a bar in it, so two lists of members have one id exactly
if they are the same up to order.
-/

namespace Aimless

open Python (Str Exc)

/-- A lower-case hex digit. -/
def isLowerHex (c : Python.CodePoint) : Bool :=
  (48 ≤ c.val ∧ c.val ≤ 57) ∨ (97 ≤ c.val ∧ c.val ≤ 102)

/-- A node key: lower-case hex digits, and at least one. -/
def IsNodeKey (node : Str) : Prop := node ≠ [] ∧ node.all isLowerHex = true

instance (node : Str) : Decidable (IsNodeKey node) := inferInstanceAs (Decidable (_ ∧ _))

section Join

variable {l l' : List Str}

theorem IsNodeKey.ascii {node : Str} (h : IsNodeKey node) : Python.Ascii node := by
  intro c hc
  have := List.all_eq_true.1 h.2 c hc
  simp only [isLowerHex, decide_eq_true_eq] at this
  omega

theorem IsNodeKey.bar_notMem {node : Str} (h : IsNodeKey node) : Python.codePoint '|' ∉ node := by
  intro hbar
  exact absurd (List.all_eq_true.1 h.2 _ hbar) (by decide)

/-- Joining with a bar can be undone. -/
theorem intercalate_bar_inj (h : ∀ n ∈ l, IsNodeKey n) (h' : ∀ n ∈ l', IsNodeKey n)
    (heq : (Python.str ['|']).intercalate l = (Python.str ['|']).intercalate l') : l = l' := by
  have hsplit : ∀ {l : List Str}, (∀ n ∈ l, IsNodeKey n) → l ≠ [] →
      ((Python.str ['|']).intercalate l).splitOn (Python.codePoint '|') = l := fun h hne =>
    List.splitOn_intercalate _ (fun n hn => (h n hn).bar_notMem) hne
  -- only the empty list is joined to the empty text
  have hnil : ∀ {l : List Str}, (∀ n ∈ l, IsNodeKey n) →
      (Python.str ['|']).intercalate l = [] → l = [] := by
    intro l h hempty
    by_contra hne
    have hl := hsplit h hne
    rw [hempty, List.splitOn_nil] at hl
    exact (h [] (by rw [← hl]; exact List.mem_singleton_self _)).1 rfl
  by_cases hne : l = []
  · subst hne
    exact (hnil h' heq.symm).symm
  · by_cases hne' : l' = []
    · subst hne'
      exact hnil h heq
    · rw [← hsplit h hne, heq, hsplit h' hne']

/-- Node keys are joined to the same text exactly if they are the same up to order. -/
theorem joinNodes_eq_iff (h : ∀ n ∈ l, IsNodeKey n) (h' : ∀ n ∈ l', IsNodeKey n) :
    joinNodes l = joinNodes l' ↔ l.Perm l' := by
  have hmem : ∀ {l : List Str}, (∀ n ∈ l, IsNodeKey n) → ∀ n ∈ l.insertionSort (· ≤ ·),
      IsNodeKey n := fun h n hn => h n ((List.mem_insertionSort _).1 hn)
  unfold joinNodes
  constructor
  · intro heq
    have hsorted := intercalate_bar_inj (hmem h) (hmem h') heq
    calc l.Perm (l.insertionSort (· ≤ ·)) := (List.perm_insertionSort _ l).symm
      _ = l'.insertionSort (· ≤ ·) := hsorted
      List.Perm _ l' := List.perm_insertionSort _ l'
  · intro hperm
    have hsorted : l.insertionSort (· ≤ ·) = l'.insertionSort (· ≤ ·) := by
      refine List.Perm.eq_of_pairwise (fun a b _ _ hab hba => le_antisymm hab hba)
        (List.pairwise_insertionSort _ l) (List.pairwise_insertionSort _ l') ?_
      exact ((List.perm_insertionSort _ l).trans hperm).trans (List.perm_insertionSort _ l').symm
    rw [hsorted]

end Join

/-- Room ids identify members: with a hash that does not collide, two lists of node keys have one id
exactly if one is a permutation of the other, and without repetitions exactly if they have the same
members. -/
theorem roomId_eq_iff (L : Libs) (hsha : Function.Injective L.sha256) (l l' : List Str)
    (h : ∀ n ∈ l, IsNodeKey n) (h' : ∀ n ∈ l', IsNodeKey n) :
    (∃ id, roomId L l = .ok id) ∧ (roomId L l = roomId L l' ↔ l.Perm l')
      ∧ (l.Nodup → l'.Nodup → (roomId L l = roomId L l' ↔ ∀ n, n ∈ l ↔ n ∈ l')) := by
  have hascii : ∀ {l : List Str}, (∀ n ∈ l, IsNodeKey n) → Python.Ascii (joinNodes l) := fun h =>
    Python.ascii_intercalate (Python.ascii_str rfl) fun n hn =>
      (h n ((List.mem_insertionSort _).1 hn)).ascii
  have hid : ∀ {l : List Str}, (∀ n ∈ l, IsNodeKey n) → ∃ bytes,
      Python.utf8 (joinNodes l) = .ok bytes
        ∧ roomId L l = .ok (Python.str (Hex.encode (L.sha256 bytes))) := by
    intro l h
    have hbytes := Python.utf8_of_ascii (hascii h)
    refine ⟨_, hbytes, ?_⟩
    unfold roomId
    rw [hbytes]
    rfl
  obtain ⟨bytes, hbytes, hroom⟩ := hid h
  obtain ⟨bytes', hbytes', hroom'⟩ := hid h'
  have hperm : roomId L l = roomId L l' ↔ l.Perm l' := by
    rw [← joinNodes_eq_iff h h', hroom, hroom']
    constructor
    · intro heq
      have hhex := Python.str_injective (Except.ok.inj heq)
      have hdigest := Hex.decode_encode (L.sha256 bytes)
      rw [hhex, Hex.decode_encode] at hdigest
      have hsame : bytes' = bytes := hsha (Except.ok.inj hdigest)
      exact Python.utf8_injOn_ascii (hascii h) (hascii h') (by rw [hbytes, hbytes', hsame])
    · intro heq
      rw [heq, hbytes'] at hbytes
      rw [Except.ok.inj hbytes]
  refine ⟨⟨_, hroom⟩, hperm, fun hnd hnd' => ?_⟩
  rw [hperm]
  exact List.perm_ext_iff_of_nodup hnd hnd'

/-- The text `aa|bb`. -/
def pairBytes : Bytes := [97, 97, 124, 98, 98]

/-- SHA-256 on `aa|bb`; on anything else a value of another length, so that none collide. -/
def pairSha (data : Bytes) : Bytes :=
  if data = pairBytes then [
    0x87, 0xda, 0x88, 0x29, 0x7a, 0xbc, 0xad, 0xdc, 0xc4, 0x9a, 0xe6, 0x39, 0x24, 0x7e, 0x2c, 0x94,
    0x86, 0x56, 0xd8, 0xa3, 0x1b, 0x98, 0x55, 0x65, 0xbf, 0xb1, 0x83, 0xdd, 0xb0, 0xce, 0x8e, 0xd4]
  else List.replicate 33 0 ++ data

theorem pairSha_injective : Function.Injective pairSha := by
  intro a b hab
  unfold pairSha at hab
  split_ifs at hab with ha hb hb
  · rw [ha, hb]
  · have := congrArg List.length hab
    simp at this
  · have := congrArg List.length hab
    simp at this
  · exact List.append_cancel_left hab

/-- Two members in either order. -/
theorem roomId_eq_iff_pair :
    let L : Libs := ⟨fun _ => none, fun _ _ _ => false, fun _ => .error .valueError,
      fun _ => .error .valueError, fun _ => .error .valueError, pairSha, fun _ => []⟩
    let a := Python.str ['a', 'a']
    let b := Python.str ['b', 'b']
    Function.Injective L.sha256 ∧ roomId L [a, b] = roomId L [b, a]
      ∧ roomId L [a, b] = .ok (Python.str (Hex.encode (pairSha pairBytes))) := by
  intro L a b
  have hkeys : ∀ n ∈ [a, b], IsNodeKey n := by decide +kernel
  have hkeys' : ∀ n ∈ [b, a], IsNodeKey n := by decide +kernel
  refine ⟨pairSha_injective, ?_, by decide +kernel⟩
  exact (roomId_eq_iff L pairSha_injective [a, b] [b, a] hkeys hkeys').2.1.2 (List.Perm.swap b a [])

end Aimless
