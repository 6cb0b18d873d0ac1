import Aimless.Lib.Python

/-!
# JSON values up to the order of their keys

`json.dumps(v, sort_keys=True)` writes the entries of every dict in the order of their keys.  Two
values that are equal in Python, where a dict has no order, have the same sorted form.
-/

namespace Python

namespace Json

mutual

/-- The value with the entries of every dict in the order of their keys. -/
def sortKeys : Json → Json
  | .arr l => .arr (sortItems l)
  | .obj fields => .obj ((sortFields fields).insertionSort fun a b => a.1 ≤ b.1)
  | .null => .null
  | .bool b => .bool b
  | .int n => .int n
  | .float x => .float x
  | .str s => .str s

def sortItems : List Json → List Json
  | [] => []
  | v :: l => v.sortKeys :: sortItems l

def sortFields : List (Str × Json) → List (Str × Json)
  | [] => []
  | (k, v) :: l => (k, v.sortKeys) :: sortFields l

end

mutual

/-- No dict in the value has a key twice. -/
def Proper : Json → Prop
  | .arr l => ProperItems l
  | .obj fields => (fields.map Prod.fst).Nodup ∧ ProperFields fields
  | _ => True

def ProperItems : List Json → Prop
  | [] => True
  | v :: l => v.Proper ∧ ProperItems l

def ProperFields : List (Str × Json) → Prop
  | [] => True
  | (_, v) :: l => v.Proper ∧ ProperFields l

end

theorem sortItems_eq : ∀ l : List Json, sortItems l = l.map sortKeys
  | [] => by rw [sortItems, List.map_nil]
  | v :: l => by rw [sortItems, sortItems_eq l, List.map_cons]

theorem sortFields_eq : ∀ fields : List (Str × Json),
    sortFields fields = fields.map fun e => (e.1, e.2.sortKeys)
  | [] => by rw [sortFields, List.map_nil]
  | (k, v) :: l => by rw [sortFields, sortFields_eq l, List.map_cons]

theorem properItems_iff : ∀ {l : List Json}, ProperItems l ↔ ∀ v ∈ l, v.Proper
  | [] => by simp [ProperItems]
  | v :: l => by rw [ProperItems, properItems_iff, List.forall_mem_cons]

theorem properFields_iff : ∀ {fields : List (Str × Json)},
    ProperFields fields ↔ ∀ e ∈ fields, e.2.Proper
  | [] => by simp [ProperFields]
  | (k, v) :: l => by rw [ProperFields, properFields_iff, List.forall_mem_cons]

/-- Induction over values: through the items of a list and the values of a dict. -/
theorem induct {P : Json → Prop} (leaf : ∀ v, (∀ l, v ≠ .arr l) → (∀ fields, v ≠ .obj fields) → P v)
    (arr : ∀ l, (∀ v ∈ l, P v) → P (.arr l))
    (obj : ∀ fields : List (Str × Json), (∀ e ∈ fields, P e.2) → P (.obj fields)) :
    ∀ v, P v
  | .arr l => arr l fun v _ => induct leaf arr obj v
  | .obj fields => obj fields fun e _ => induct leaf arr obj e.2
  | .null => leaf _ nofun nofun
  | .bool _ => leaf _ nofun nofun
  | .int _ => leaf _ nofun nofun
  | .float _ => leaf _ nofun nofun
  | .str _ => leaf _ nofun nofun
termination_by v => sizeOf v
decreasing_by
  · have := List.sizeOf_lt_of_mem ‹_ ∈ l›
    simp only [Json.arr.sizeOf_spec]
    omega
  · have := List.sizeOf_lt_of_mem ‹_ ∈ fields›
    obtain ⟨k, v⟩ := e
    simp only [Prod.mk.sizeOf_spec, Json.obj.sizeOf_spec] at this ⊢
    omega

theorem sortKeys_leaf {v : Json} (harr : ∀ l, v ≠ .arr l) (hobj : ∀ fields, v ≠ .obj fields) :
    v.sortKeys = v := by
  cases v with
  | arr l => exact absurd rfl (harr l)
  | obj fields => exact absurd rfl (hobj fields)
  | _ => rw [sortKeys]

/-- The entries of a dict in the order of their keys, and their values sorted too. -/
def sorted (fields : List (Str × Json)) : List (Str × Json) :=
  (fields.map fun e => (e.1, e.2.sortKeys)).insertionSort fun a b => a.1 ≤ b.1

theorem sortKeys_obj (fields : List (Str × Json)) :
    (Json.obj fields).sortKeys = .obj (sorted fields) := by
  rw [sortKeys, sortFields_eq, sorted]

theorem sortKeys_arr (l : List Json) : (Json.arr l).sortKeys = .arr (l.map sortKeys) := by
  rw [sortKeys, sortItems_eq]

theorem sorted_perm (fields : List (Str × Json)) :
    (sorted fields).Perm (fields.map fun e => (e.1, e.2.sortKeys)) :=
  List.perm_insertionSort _ _

theorem sorted_keys (fields : List (Str × Json)) :
    ((sorted fields).map Prod.fst).Perm (fields.map Prod.fst) := by
  refine ((sorted_perm fields).map Prod.fst).trans ?_
  rw [List.map_map]
  exact .of_eq (List.map_congr_left fun e _ => rfl)

theorem proper_arr {l : List Json} : (Json.arr l).Proper ↔ ∀ v ∈ l, v.Proper := by
  rw [Proper, properItems_iff]

theorem proper_obj {fields : List (Str × Json)} :
    (Json.obj fields).Proper ↔ (fields.map Prod.fst).Nodup ∧ ∀ e ∈ fields, e.2.Proper := by
  rw [Proper, properFields_iff]

theorem sortKeys_proper {v : Json} (h : v.Proper) : v.sortKeys.Proper := by
  induction v using induct with
  | leaf v harr hobj => rwa [sortKeys_leaf harr hobj]
  | arr l ih =>
    rw [sortKeys_arr, proper_arr]
    intro v hv
    obtain ⟨w, hw, rfl⟩ := List.mem_map.1 hv
    exact ih w hw (proper_arr.1 h w hw)
  | obj fields ih =>
    obtain ⟨hkeys, hvals⟩ := proper_obj.1 h
    rw [sortKeys_obj, proper_obj]
    refine ⟨(sorted_keys fields).nodup_iff.2 hkeys, fun e he => ?_⟩
    obtain ⟨e', he', rfl⟩ := List.mem_map.1 ((sorted_perm fields).mem_iff.1 he)
    exact ih e' he' (hvals e' he')

end Json

theorem get?_eq_some_iff {fields : List (Str × Json)} (h : (fields.map Prod.fst).Nodup) {k : Str}
    {v : Json} : get? fields k = some v ↔ (k, v) ∈ fields := by
  induction fields with
  | nil => simp [get?]
  | cons e fields ih =>
    obtain ⟨key, val⟩ := e
    obtain ⟨hkey, hrest⟩ := List.nodup_cons.1 h
    unfold get? at ih ⊢
    rw [List.lookup_cons, List.mem_cons]
    by_cases hk : k = key
    · subst hk
      have hnot : (k, v) ∉ fields := fun hin => hkey (List.mem_map.2 ⟨_, hin, rfl⟩)
      simp [hnot, eq_comm]
    · rw [beq_false_of_ne hk]
      simpa [hk] using ih hrest

theorem get?_eq_none_iff {fields : List (Str × Json)} {k : Str} :
    get? fields k = none ↔ k ∉ fields.map Prod.fst := by
  unfold get?
  rw [List.lookup_eq_none_iff, List.mem_map]
  constructor
  · rintro h ⟨e, he, rfl⟩
    exact absurd (h e he) (by simp)
  · intro h e he
    exact bne_iff_ne.2 fun hk => h ⟨e, he, hk.symm⟩

/-- A lookup in the sorted entries. -/
theorem get?_sorted {fields : List (Str × Json)} (h : (fields.map Prod.fst).Nodup) (k : Str) :
    get? (Json.sorted fields) k = (get? fields k).map Json.sortKeys := by
  have hsorted : ((Json.sorted fields).map Prod.fst).Nodup := (Json.sorted_keys fields).nodup_iff.2 h
  rcases hv : get? fields k with _ | v
  · rw [Option.map_none, get?_eq_none_iff, (Json.sorted_keys fields).mem_iff]
    exact get?_eq_none_iff.1 hv
  · rw [Option.map_some, get?_eq_some_iff hsorted, (Json.sorted_perm fields).mem_iff]
    exact List.mem_map.2 ⟨(k, v), (get?_eq_some_iff h).1 hv, rfl⟩

end Python
