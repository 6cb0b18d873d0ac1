import Mathlib

/-!
# Replacing a file through a temporary file

A file is replaced by writing a temporary file beside it and renaming that over the file.  The
writers share the temporary file.  `holders` are the writers that have written it and not renamed
it yet.  If no rename ever fails and every writer comes to its rename, the writers take turns
(`Serial`), and each write then acts as one replacement of the file's content (`current`).
-/

/-- The contents of a file and of the temporary file beside it; `none` for a file that does not
exist. -/
structure Replaced (α : Type*) where
  file : Option α := none
  tmp : Option α := none
  deriving DecidableEq, Repr

namespace Replaced

variable {α ι : Type*}

def write (r : Replaced α) (c : α) : Replaced α := { r with tmp := some c }

/-- There must be a temporary file. -/
def rename (r : Replaced α) : Option (Replaced α) :=
  r.tmp.map fun c => { file := some c, tmp := none }

theorem rename_eq_some {r r' : Replaced α} :
    r.rename = some r' ↔ ∃ c, r.tmp = some c ∧ r' = { file := some c, tmp := none } := by
  unfold rename
  rw [Option.map_eq_some_iff]
  exact ⟨fun ⟨c, hc, hr⟩ => ⟨c, hc, hr.symm⟩, fun ⟨c, hc, hr⟩ => ⟨c, hc, hr.symm⟩⟩

/-- At most one writer is between its write and its rename, and then there is a temporary file. -/
structure Serial (r : Replaced α) (holders : Set ι) : Prop where
  one : holders.Subsingleton
  tmp : holders.Nonempty → r.tmp ≠ none

open scoped Classical in
/-- What the file holds once the writer under way has renamed. -/
noncomputable def current (r : Replaced α) (holders : Set ι) : Option α :=
  if holders.Nonempty then r.tmp else r.file

variable {r r' : Replaced α} {holders : Set ι} {i : ι}

theorem serial_empty (r : Replaced α) : r.Serial (∅ : Set ι) :=
  ⟨Set.subsingleton_empty, fun h => (Set.not_nonempty_empty h).elim⟩

theorem current_empty (r : Replaced α) : r.current (∅ : Set ι) = r.file :=
  if_neg Set.not_nonempty_empty

/-- Two writes without a rename between them end the turns for good: a rename is missing from then
on. -/
theorem Serial.of_write {c : α} (hi : i ∉ holders) (h : (r.write c).Serial (insert i holders)) :
    holders = ∅ := by
  refine Set.eq_empty_of_forall_notMem fun j hj => hi ?_
  have hij : i = j := h.one (Set.mem_insert i holders) (Set.mem_insert_of_mem i hj)
  exact hij ▸ hj

theorem Serial.of_rename (hr : r.rename = some r') (hi : i ∈ holders)
    (h : r'.Serial (holders \ {i})) : holders = {i} ∧ r.Serial holders := by
  obtain ⟨c, hc, rfl⟩ := rename_eq_some.1 hr
  have hrest : holders \ {i} = ∅ := by
    by_contra hne
    exact h.tmp (Set.nonempty_iff_ne_empty.2 hne) rfl
  have hone : holders = {i} :=
    Set.Subset.antisymm (Set.sdiff_eq_empty.1 hrest) (Set.singleton_subset_iff.2 hi)
  refine ⟨hone, ⟨hone ▸ Set.subsingleton_singleton, fun _ => ?_⟩⟩
  rw [hc]
  exact Option.some_ne_none c

theorem current_write (c : α) : (r.write c).current (insert i holders) = some c :=
  if_pos (Set.insert_nonempty i holders)

theorem current_rename (hr : r.rename = some r') (hone : holders = {i}) :
    r'.current (holders \ {i}) = r.current holders := by
  obtain ⟨c, hc, rfl⟩ := rename_eq_some.1 hr
  rw [hone, Set.sdiff_self, current_empty, current, if_pos (Set.singleton_nonempty i), hc]

end Replaced
