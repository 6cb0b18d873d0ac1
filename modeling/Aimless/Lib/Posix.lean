import Mathlib

/-!
# Paths and directories

POSIX path names over any alphabet with a separator and a dot, resolved without symbolic links, and
a tree of directories and files that a path is walked in.  A position is the list of names from the
root.  `Stays B` says of a walk that it only passes positions on the line through `B`: above it, at
it or below it, and ends at it or below; what is created along such a walk is below `B`, or leads
to `B` (`makedirs_created`).
-/

namespace Posix

variable {χ : Type} [DecidableEq χ] (sep dot : χ)

abbrev Name (χ : Type) := List χ

abbrev Pos (χ : Type) := List (Name χ)

/-- Where a component leads. -/
def enter (pos : Pos χ) (c : Name χ) : Pos χ :=
  if c = [] ∨ c = [dot] then pos
  else if c = [dot, dot] then pos.dropLast
  else pos ++ [c]

def walk (pos : Pos χ) (cs : List (Name χ)) : Pos χ := cs.foldl (enter dot) pos

def isAbs (path : List χ) : Bool := path.head? = some sep

/-- Where a path starts from. -/
def origin (cwd : Pos χ) (path : List χ) : Pos χ := if isAbs sep path then [] else cwd

/-- The position a path names. -/
def resolve (cwd : Pos χ) (path : List χ) : Pos χ :=
  walk dot (origin sep cwd path) (path.splitOn sep)

/-- `os.path.join`. -/
def join (a b : List χ) : List χ :=
  if isAbs sep b then b
  else if a = [] ∨ a.getLast? = some sep then a ++ b
  else a ++ sep :: b

theorem walk_append (pos : Pos χ) (cs ds : List (Name χ)) :
    walk dot pos (cs ++ ds) = walk dot (walk dot pos cs) ds := by
  simp [walk, List.foldl_append]

/-- The components of a joined path are those of its parts. -/
theorem exists_splitOn_join {a b : List χ} (hb : isAbs sep b = false) :
    ∃ cs, (join sep a b).splitOn sep = cs ++ b.splitOn sep ∧ cs ⊆ a.splitOn sep
      ∧ ∀ pos, walk dot pos cs = walk dot pos (a.splitOn sep) := by
  unfold join
  rw [if_neg (by simp [hb])]
  by_cases hnil : a = []
  · subst hnil
    refine ⟨[], by simp, List.nil_subset _, fun pos => ?_⟩
    simp [walk, enter, List.splitOn_nil]
  by_cases hlast : a.getLast? = some sep
  · -- the separator is there already; it leaves an empty component behind
    rw [if_pos (Or.inr hlast)]
    obtain ⟨a', rfl⟩ : ∃ a', a = a' ++ [sep] := by
      obtain ⟨x, hx⟩ := List.getLast?_eq_some_iff.1 hlast
      exact ⟨x, hx⟩
    refine ⟨a'.splitOn sep, ?_, ?_, fun pos => ?_⟩
    · rw [List.append_assoc, List.singleton_append, List.splitOn_append_cons_self]
    · rw [List.splitOn_append_cons_self]
      exact List.subset_append_left _ _
    · rw [List.splitOn_append_cons_self, walk_append]
      simp [walk, enter, List.splitOn_nil]
  · rw [if_neg (by simp [hnil, hlast])]
    exact ⟨a.splitOn sep, List.splitOn_append_cons_self a b, List.Subset.refl _, fun pos => rfl⟩

theorem isAbs_join {a b : List χ} (hb : isAbs sep b = false) (ha : a ≠ []) :
    isAbs sep (join sep a b) = isAbs sep a := by
  unfold join
  rw [if_neg (by simp [hb])]
  obtain ⟨x, xs, rfl⟩ := List.exists_cons_of_ne_nil ha
  split <;> simp [isAbs]

theorem join_ne_nil {a : List χ} (ha : a ≠ []) (b : List χ) : join sep a b ≠ [] := by
  unfold join
  split
  · rename_i hb
    rintro rfl
    simp [isAbs] at hb
  · split <;> simp [ha]

/-- A plain name below a directory. -/
theorem resolve_join_name (cwd : Pos χ) {d : List χ} {name : Name χ} (hd : d ≠ [])
    (hsep : sep ∉ name) (hne : name ≠ []) (hdot : name ≠ [dot]) (hdots : name ≠ [dot, dot]) :
    resolve sep dot cwd (join sep d name) = resolve sep dot cwd d ++ [name] := by
  have habs : isAbs sep name = false := by
    obtain ⟨x, xs, rfl⟩ := List.exists_cons_of_ne_nil hne
    simp only [List.mem_cons, not_or] at hsep
    simpa [isAbs] using Ne.symm hsep.1
  have henter : ∀ pos : Pos χ, enter dot pos name = pos ++ [name] := by
    intro pos
    simp [enter, hne, hdot, hdots]
  obtain ⟨cs, hsplit, -, hwalk⟩ := exists_splitOn_join sep dot (a := d) habs
  unfold resolve origin
  rw [isAbs_join sep habs hd, hsplit, walk_append, hwalk, List.splitOn_eq_singleton hsep]
  simp [walk, henter]

theorem join_append {d name : List χ} (hne : name ≠ []) (t : List χ) :
    join sep d name ++ t = join sep d (name ++ t) := by
  obtain ⟨x, xs, rfl⟩ := List.exists_cons_of_ne_nil hne
  have habs : isAbs sep (x :: xs ++ t) = isAbs sep (x :: xs) := by simp [isAbs]
  unfold join
  rw [habs]
  split
  · rfl
  · split <;> simp

/-! ### On the line through a directory -/

/-- Strictly below `B`. -/
def Inside (B pos : Pos χ) : Prop := B <+: pos ∧ pos ≠ B

/-- Above `B`, at `B` or below it. -/
def OnLine (B pos : Pos χ) : Prop := pos <+: B ∨ B <+: pos

instance decidableInside (B pos : Pos χ) : Decidable (Inside B pos) :=
  inferInstanceAs (Decidable (_ ∧ _))

theorem OnLine.inside_or {B pos : Pos χ} (h : OnLine B pos) : Inside B pos ∨ pos <+: B := by
  rcases h with h | h
  · exact Or.inr h
  · by_cases he : pos = B
    · exact Or.inr (he ▸ List.prefix_refl B)
    · exact Or.inl ⟨h, he⟩

/-- A walk that passes only positions on the line through `B` and ends at `B` or below.  It stops at
a name that `valid` refuses. -/
def Stays (valid : Name χ → Bool) (B : Pos χ) : Pos χ → List (Name χ) → Prop
  | pos, [] => B <+: pos
  | pos, c :: cs =>
    valid c = true → OnLine B (enter dot pos c) ∧ Stays valid B (enter dot pos c) cs

omit [DecidableEq χ] in
theorem inside_append {B pos : Pos χ} (h : B <+: pos) (name : Name χ) :
    Inside B (pos ++ [name]) := by
  refine ⟨h.trans (List.prefix_append pos [name]), ?_⟩
  rintro rfl
  have hlen := h.length_le
  simp at hlen

/-- A path without `..` only descends. -/
theorem prefix_walk {cs : List (Name χ)} (h : [dot, dot] ∉ cs) :
    ∀ pos : Pos χ, pos <+: walk dot pos cs := by
  induction cs with
  | nil => exact fun pos => List.prefix_refl pos
  | cons c cs ih =>
    intro pos
    simp only [List.mem_cons, not_or] at h
    have hstep : pos <+: enter dot pos c := by
      unfold enter
      split
      · exact List.prefix_refl pos
      · rw [if_neg (Ne.symm h.1)]
        exact List.prefix_append pos [c]
    exact hstep.trans (ih h.2 _)

/-- A walk that first descends to `B` stays on its line if what follows does. -/
theorem stays_append {valid : Name χ → Bool} {B : Pos χ} {ds : List (Name χ)}
    (hds : Stays dot valid B B ds) {cs : List (Name χ)} (h : [dot, dot] ∉ cs) :
    ∀ pos : Pos χ, walk dot pos cs = B → Stays dot valid B pos (cs ++ ds) := by
  induction cs with
  | nil =>
    rintro pos rfl
    exact hds
  | cons c cs ih =>
    intro pos hwalk _
    simp only [List.mem_cons, not_or] at h
    have hwalk : walk dot (enter dot pos c) cs = B := hwalk
    exact ⟨Or.inl (hwalk ▸ prefix_walk dot h.2 _), ih h.2 _ hwalk⟩

/-! ### The tree -/

/-- Directories and files; the root is always a directory.  `created` and `written` record what was
made or written, in order. -/
structure Fs (χ β : Type) where
  dirs : List (Pos χ) := []
  files : List (Pos χ × β) := []
  created : List (Pos χ) := []
  written : List (Pos χ) := []

/-- A name with a character no path may hold, or a file where a directory is needed or the other
way round. -/
inductive FsError where
  | name
  | kind
  deriving DecidableEq, Repr

namespace Fs

variable {β : Type}

def isDir (fs : Fs χ β) (pos : Pos χ) : Bool := pos = [] ∨ pos ∈ fs.dirs

def isFile (fs : Fs χ β) (pos : Pos χ) : Bool := fs.files.any fun f => f.1 = pos

variable (valid : Name χ → Bool)

/-- `os.makedirs(…, exist_ok=True)`: every component on the way is made if it is missing. -/
def makedirs : Fs χ β → Pos χ → List (Name χ) → Except FsError Unit × Fs χ β
  | fs, _, [] => (.ok (), fs)
  | fs, pos, c :: cs =>
    if valid c = false then (.error .name, fs)
    else
      let pos := enter dot pos c
      if fs.isDir pos then makedirs fs pos cs
      else if fs.isFile pos then (.error .kind, fs)
      else makedirs { fs with dirs := fs.dirs ++ [pos], created := fs.created ++ [pos] } pos cs

/-- `open(…, "wb")` and `write`. -/
def write (fs : Fs χ β) (pos : Pos χ) (data : β) : Except FsError Unit × Fs χ β :=
  if fs.isDir pos then (.error .kind, fs)
  else (.ok (), { fs with
    files := (fs.files.filter fun f => f.1 ≠ pos) ++ [(pos, data)]
    written := fs.written ++ [pos] })

/-- `os.replace` of a file. -/
def replace (fs : Fs χ β) (src dst : Pos χ) : Except FsError Unit × Fs χ β :=
  if fs.isDir dst then (.error .kind, fs)
  else
    let moved := (fs.files.filter fun f => f.1 = src).map fun f => (dst, f.2)
    (.ok (), { fs with
      files := (fs.files.filter fun f => f.1 ≠ src ∧ f.1 ≠ dst) ++ moved
      written := fs.written ++ [dst] })

/-- What a file holds. -/
def read (fs : Fs χ β) (pos : Pos χ) : Option β :=
  (fs.files.find? fun f => f.1 = pos).map Prod.snd

/-- What was written to a file is in the one it replaces. -/
theorem read_replace {fs fs₁ fs₂ : Fs χ β} {src dst : Pos χ} {data : β}
    (hwrite : fs.write src data = (.ok (), fs₁)) (hreplace : fs₁.replace src dst = (.ok (), fs₂)) :
    fs₂.read dst = some data := by
  unfold write at hwrite
  split at hwrite
  · cases hwrite
  cases hwrite
  unfold replace at hreplace
  split at hreplace
  · cases hreplace
  cases hreplace
  have hsrc : ((fs.files.filter fun f => f.1 ≠ src) ++ [(src, data)]).filter (fun f => f.1 = src)
      = [(src, data)] := by
    rw [List.filter_append, List.filter_filter]
    simp
  have hrest : (((fs.files.filter fun f => f.1 ≠ src) ++ [(src, data)]).filter
      (fun f => f.1 ≠ src ∧ f.1 ≠ dst)).find? (fun f => f.1 = dst) = none := by
    rw [List.find?_eq_none]
    intro f hf
    simpa using (of_decide_eq_true (List.mem_filter.1 hf).2).2
  unfold read
  rw [List.find?_append, hrest, hsrc]
  simp

variable {dot valid}

/-- From `fs` to `fs'` only directories on the line through `B` were made, none of which was there,
and only files below `B` were written. -/
structure Contained (B : Pos χ) (fs fs' : Fs χ β) : Prop where
  dirs : fs.dirs ⊆ fs'.dirs
  created : ∀ x ∈ fs'.created, x ∈ fs.created ∨ x ∉ fs.dirs ∧ OnLine B x
  written : ∀ x ∈ fs'.written, x ∈ fs.written ∨ Inside B x

omit [DecidableEq χ] in
theorem Contained.refl (B : Pos χ) (fs : Fs χ β) : Contained B fs fs :=
  ⟨List.Subset.refl _, fun _ h => Or.inl h, fun _ h => Or.inl h⟩

omit [DecidableEq χ] in
theorem Contained.trans {B : Pos χ} {fs fs₁ fs₂ : Fs χ β} (h : Contained B fs fs₁)
    (h' : Contained B fs₁ fs₂) : Contained B fs fs₂ where
  dirs := List.Subset.trans h.dirs h'.dirs
  created := by
    intro x hx
    rcases h'.created x hx with hx | ⟨hnot, hline⟩
    · exact h.created x hx
    · exact Or.inr ⟨fun hmem => hnot (h.dirs hmem), hline⟩
  written := by
    intro x hx
    rcases h'.written x hx with hx | hx
    · exact h.written x hx
    · exact Or.inr hx

theorem contained_write {B pos : Pos χ} (h : Inside B pos) (fs : Fs χ β) (data : β) :
    Contained B fs (fs.write pos data).2 := by
  unfold write
  split
  · exact Contained.refl B fs
  · refine ⟨List.Subset.refl _, fun _ hx => Or.inl hx, fun x hx => ?_⟩
    rcases List.mem_append.1 hx with hx | hx
    · exact Or.inl hx
    · exact Or.inr (List.mem_singleton.1 hx ▸ h)

theorem contained_replace {B dst : Pos χ} (h : Inside B dst) (fs : Fs χ β) (src : Pos χ) :
    Contained B fs (fs.replace src dst).2 := by
  unfold replace
  split
  · exact Contained.refl B fs
  · refine ⟨List.Subset.refl _, fun _ hx => Or.inl hx, fun x hx => ?_⟩
    rcases List.mem_append.1 hx with hx | hx
    · exact Or.inl hx
    · exact Or.inr (List.mem_singleton.1 hx ▸ h)

/-- What is made along a walk that stays on the line was missing and is on the line; and a walk that
ends is at `B` or below. -/
theorem makedirs_created {B : Pos χ} (cs : List (Name χ)) :
    ∀ (fs : Fs χ β) (pos : Pos χ), Stays dot valid B pos cs →
      ∃ r fs', makedirs dot valid fs pos cs = (r, fs') ∧ Contained B fs fs'
        ∧ (r = .ok () → B <+: walk dot pos cs) := by
  induction cs with
  | nil =>
    intro fs pos h
    exact ⟨_, _, rfl, Contained.refl B fs, fun _ => h⟩
  | cons c cs ih =>
    intro fs pos h
    rw [makedirs]
    by_cases hv : valid c = false
    · rw [if_pos hv]
      exact ⟨_, _, rfl, Contained.refl B fs, fun hr => nomatch hr⟩
    rw [if_neg hv]
    have hv : valid c = true := by simpa using hv
    obtain ⟨honline, hstays⟩ := h hv
    simp only []
    split
    · exact ih fs (enter dot pos c) hstays
    rename_i hdir
    split
    · exact ⟨_, _, rfl, Contained.refl B fs, fun hr => nomatch hr⟩
    · obtain ⟨r, fs', hrun, hcont, hend⟩ := ih
        { fs with
          dirs := fs.dirs ++ [enter dot pos c], created := fs.created ++ [enter dot pos c] }
        (enter dot pos c) hstays
      refine ⟨r, fs', hrun, Contained.trans ?_ hcont, hend⟩
      refine ⟨?_, ?_, fun _ hx => Or.inl hx⟩
      · exact List.subset_append_left _ _
      · intro x hx
        rcases List.mem_append.1 hx with hx | hx
        · exact Or.inl hx
        · rw [List.mem_singleton.1 hx]
          refine Or.inr ⟨fun hmem => hdir ?_, honline⟩
          simp [isDir, hmem]

end Fs

end Posix
