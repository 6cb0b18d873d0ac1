import Aimless.Contacts

/-!
# Adding a contact leaves the other entries

The contacts file is keyed by names, and an invite's name is its author's choice; a contact is
known by its public key.  Whatever the invite, an entry under another name keeps its value, except
that the contact with the invite's key may get a new `node`.  Before that `cmd_add` may complete
the client's own entry with its public key.
-/

namespace Aimless

open Python (Str Exc Json)

namespace Contacts

@[simp] theorem get?_set_self (cs : Contacts) (k : Str) (v : Json) :
    (cs.set k v).get? k = some v := Python.get?_setItem_self _ _ _

theorem get?_set_of_ne {k q : Str} (hq : q ≠ k) (cs : Contacts) (v : Json) :
    (cs.set k v).get? q = cs.get? q := Python.get?_setItem_of_ne hq _ _

end Contacts

/-- Every entry but the one under `k` is as before. -/
def SameBut (k : Str) (cs cs' : Contacts) : Prop := ∀ q, q ≠ k → cs'.get? q = cs.get? q

theorem sameBut_set (cs : Contacts) (k : Str) (v : Json) : SameBut k cs (cs.set k v) :=
  fun _ hq => Contacts.get?_set_of_ne hq cs v

/-- One contact that has the invite's client key is changed, and of it only the `node`. -/
def Rerouted (inv : Invite) (cs cs' : Contacts) : Prop :=
  ∃ k fields fields', k ≠ selfName ∧ cs.get? k = some (.obj fields)
    ∧ Python.get? fields Field.pubkey = some (.str inv.client)
    ∧ cs'.get? k = some (.obj fields')
    ∧ (∀ f, f ≠ Field.node → Python.get? fields' f = Python.get? fields f)
    ∧ SameBut k cs cs'

/-- One entry is there that was not, and the others are as before. -/
def NewEntry (k : Str) (cs cs' : Contacts) : Prop :=
  cs.get? k = none ∧ (cs'.get? k).isSome ∧ SameBut k cs cs'

/-- Nothing changes but the entry under `k`, which is the invite's where `k` was not in use. -/
def Entered (inv : Invite) (k : Str) (cs cs' : Contacts) : Prop :=
  SameBut k cs cs' ∧ (cs.get? k = none →
    cs'.get? k = some (contactEntry (.str inv.client) (.str inv.node) inv.screen))

/-- What adding an invite may do to the contacts file: nothing, or one change as `change` allows
it. -/
def Adds (change : Invite → Contacts → Contacts → Prop) (invite : Str)
    (file file' : ContactsFile) : Prop :=
  file' = file ∨ ∃ inv cs cs', parseInvite invite = .ok inv
    ∧ loadContacts .attributeError file = .ok cs ∧ file' = .holds cs' ∧ change inv cs cs'

/-- The client's own entry got the public key that it lacked, and the others are as before. -/
def Migrated (identity : Option (Except Exc Bytes)) (file file' : ContactsFile) : Prop :=
  file' = file ∨ ∃ key cs cs' fields fields', identity = some (.ok key)
    ∧ loadContacts .attributeError file = .ok cs ∧ file' = .holds cs'
    ∧ (cs.get? selfName).getD (.obj []) = .obj fields
    ∧ (Python.get? fields Field.pubkey).any (·.truthy) = false
    ∧ cs'.get? selfName = some (.obj fields')
    ∧ Python.get? fields' Field.pubkey = some (.str (Python.str (Hex.encode key)))
    ∧ (∀ f, f ≠ Field.pubkey → Python.get? fields' f = Python.get? fields f)
    ∧ SameBut selfName cs cs'

theorem eqStr_iff {v : Json} {s : Str} : v.eqStr s = true ↔ v = .str s := by
  cases v <;> simp [Json.eqStr]

theorem any_eqStr_iff {o : Option Json} {s : Str} :
    o.any (·.eqStr s) = true ↔ o = some (.str s) := by
  cases o with
  | none => simp
  | some v => simp [eqStr_iff]

theorem findContact_some {client k : Str} {fields : Entries} : ∀ {cs : Entries},
    findContact client cs = .ok (some (k, fields)) →
    k ≠ selfName ∧ (k, .obj fields) ∈ cs
      ∧ Python.get? fields Field.pubkey = some (.str client)
  | [], h => by cases h
  | (q, c) :: rest, h => by
    unfold findContact at h
    split at h
    · obtain ⟨hne, hmem, hkey⟩ := findContact_some h
      exact ⟨hne, List.mem_cons_of_mem _ hmem, hkey⟩
    · rename_i hq
      split at h
      · split at h
        · rename_i hany
          cases h
          exact ⟨hq, List.mem_cons_self, any_eqStr_iff.1 hany⟩
        · obtain ⟨hne, hmem, hkey⟩ := findContact_some h
          exact ⟨hne, List.mem_cons_of_mem _ hmem, hkey⟩
      · cases h

theorem saveContacts_cases (fault : Option Exc) (file : ContactsFile) (cs : Contacts) :
    (∃ e, saveContacts fault file cs = (.error e, file)) ∨
      saveContacts fault file cs = (.ok (), .holds cs) := by
  cases fault with
  | none => exact .inr rfl
  | some e => exact .inl ⟨e, rfl⟩

/-- What `enterContact` leaves in the file. -/
theorem enterContact_cases (fault : Option Exc) (inv : Invite) (name : Str) (told : Str → Str)
    (file : ContactsFile) (cs : Contacts) :
    (enterContact fault inv name told file cs).2 = file ∨
      ∃ cs', (enterContact fault inv name told file cs).2 = .holds cs'
        ∧ (Rerouted inv cs cs' ∨ Entered inv name cs cs') := by
  unfold enterContact
  split
  · exact .inl rfl
  · rename_i k fields hfind
    obtain ⟨hself, hmem, hkey⟩ := findContact_some hfind
    split
    · exact .inl rfl
    · rcases saveContacts_cases fault file
        (cs.set k (.obj (Python.setItem fields Field.node (.str inv.node)))) with ⟨e, h⟩ | h
      · rw [h]
        exact .inl rfl
      · rw [h]
        exact .inr ⟨_, rfl, .inl ⟨k, fields, _, hself, Python.get?_of_mem cs.nodup hmem, hkey,
          Contacts.get?_set_self _ _ _, fun f hf => Python.get?_setItem_of_ne hf _ _,
          sameBut_set _ _ _⟩⟩
  · rcases saveContacts_cases fault file
      (cs.set name (contactEntry (.str inv.client) (.str inv.node) inv.screen)) with ⟨e, h⟩ | h
    · rw [h]
      exact .inl rfl
    · rw [h]
      exact .inr ⟨_, rfl, .inr ⟨sameBut_set _ _ _, fun _ => Contacts.get?_set_self _ _ _⟩⟩

/-- `ownPubkey` hands on the contacts that are in the file it leaves. -/
theorem ownPubkey_spec (identity : Option (Except Exc Bytes)) (fault : Option Exc)
    {file : ContactsFile} {cs : Contacts} (hload : loadContacts .attributeError file = .ok cs) :
    Migrated identity file (ownPubkey identity fault file cs).2
      ∧ ∀ own cs', (ownPubkey identity fault file cs).1 = .ok (own, cs') →
        loadContacts .attributeError (ownPubkey identity fault file cs).2 = .ok cs' := by
  unfold ownPubkey
  split
  · exact ⟨.inl rfl, fun _ _ h => by cases h⟩
  · rename_i fields hself
    have hfields : (cs.get? selfName).getD (.obj []) = .obj fields := by
      unfold selfFields at hself
      split at hself
      · rename_i hnone
        cases hself
        rw [hnone]
        rfl
      · rename_i hsome
        cases hself
        rw [hsome]
        rfl
      · cases hself
    split
    · refine ⟨.inl rfl, fun own cs' h => ?_⟩
      cases h
      exact hload
    · rename_i hno
      split
      · refine ⟨.inl rfl, fun own cs' h => ?_⟩
        cases h
        exact hload
      · exact ⟨.inl rfl, fun _ _ h => by cases h⟩
      · rename_i key
        rcases saveContacts_cases fault file (cs.set selfName
          (.obj (Python.setItem fields Field.pubkey (.str (Python.str (Hex.encode key))))))
          with ⟨e, h⟩ | h
        · simp only [h]
          exact ⟨.inl rfl, fun _ _ h => by cases h⟩
        · simp only [h]
          refine ⟨.inr ⟨key, cs, _, fields, _, rfl, hload, rfl, hfields, by simpa using hno,
            Contacts.get?_set_self _ _ _, Python.get?_setItem_self _ _ _,
            fun f hf => Python.get?_setItem_of_ne hf _ _, sameBut_set _ _ _⟩, fun own cs' h => ?_⟩
          cases h
          rfl

/-- The change that an invite makes: a known contact's `node`, or the entry under the name. -/
def EntersAs (petname : Str) (inv : Invite) (cs cs' : Contacts) : Prop :=
  Rerouted inv cs cs' ∨ Entered inv (inv.nameOr petname) cs cs'

theorem adds_enterContact {invite : Str} {inv : Invite} {file : ContactsFile} {cs : Contacts}
    (hinv : parseInvite invite = .ok inv) (hload : loadContacts .attributeError file = .ok cs)
    (fault : Option Exc) (petname : Str) (told : Str → Str) :
    Adds (EntersAs petname) invite file
      (enterContact fault inv (inv.nameOr petname) told file cs).2 := by
  rcases enterContact_cases fault inv (inv.nameOr petname) told file cs with h | ⟨cs', h, hch⟩
  · exact .inl h
  · exact .inr ⟨inv, cs, cs', hinv, hload, h, hch⟩

theorem cmdAdd_adds (identity : Option (Except Exc Bytes)) (migrateFault fault : Option Exc)
    (file : ContactsFile) (invite : Str) (petname : Option Str) :
    ∃ mid, Migrated identity file mid ∧ Adds (EntersAs (petname.getD [])) invite mid
      (cmdAdd identity migrateFault fault file invite petname).2 := by
  unfold cmdAdd
  split
  · exact ⟨file, .inl rfl, .inl rfl⟩
  · rename_i inv hinv
    split
    · exact ⟨file, .inl rfl, .inl rfl⟩
    · rename_i cs hload
      obtain ⟨hmig, hnext⟩ := ownPubkey_spec identity migrateFault hload
      refine ⟨_, hmig, ?_⟩
      rcases hown : ownPubkey identity migrateFault file cs with ⟨r, mid⟩
      rw [hown] at hnext
      cases r with
      | error e => exact .inl rfl
      | ok p =>
        obtain ⟨own, cs'⟩ := p
        simp only
        split
        · exact .inl rfl
        · exact adds_enterContact hinv (hnext own cs' rfl) fault _ _

theorem onAdd_adds (pubkey : Str) (fault : Option Exc) (file : ContactsFile)
    (inviteText petnameText : Str) :
    Adds (EntersAs (Python.strip petnameText)) (Python.strip inviteText) file
      (onAdd pubkey fault file inviteText petnameText).2 := by
  unfold onAdd
  simp only
  split
  · exact .inl rfl
  · rename_i inv hinv
    split
    · exact .inl rfl
    · split
      · exact .inl rfl
      · rename_i cs hload
        exact adds_enterContact hinv hload fault _ _

/-- For every contacts file, invite and petname.  `on_add` leaves the file, or changes only the
`node` of one contact that has the invite's client key, or changes only the entry under the chosen
name, which is a new one where the name was not in use.  `cmd_add` does the same from the file in
which the client's own entry may have got the public key that it lacked. -/
theorem adding_spares_other_entries (file : ContactsFile) (invite : Str) :
    (∀ identity migrateFault fault petname, ∃ mid, Migrated identity file mid ∧
      Adds (EntersAs (petname.getD [])) invite mid
        (cmdAdd identity migrateFault fault file invite petname).2) ∧
    (∀ pubkey fault petname, Adds (EntersAs (Python.strip petname)) (Python.strip invite) file
      (onAdd pubkey fault file invite petname).2) :=
  ⟨fun identity migrateFault fault petname =>
      cmdAdd_adds identity migrateFault fault file invite petname,
    fun pubkey fault petname => onAdd_adds pubkey fault file invite petname⟩

/-- At most one contact's entry is touched: a known contact's `node`, or a new entry under a name
that was free. -/
def TouchesOne (inv : Invite) (cs cs' : Contacts) : Prop :=
  Rerouted inv cs cs' ∨ ∃ k, NewEntry k cs cs'

/-- Contacts in which the client's own entry has a name and no public key. -/
def nameOnly : Contacts where
  entries := [(selfName, .obj [(Field.screen, .str (Python.str ['A']))])]
  nodup := List.nodup_singleton _

/-- The invite of the client whose two keys are 32 zero bytes, in base58. -/
def zeroInvite : Str :=
  inviteStart ++ List.replicate 32 (Python.codePoint '1') ++ Python.str [':'] ++
    List.replicate 32 (Python.codePoint '1') ++ Python.str [':', 'A']

/-- Adding one's own invite completes `_self`, which is no contact's entry and no new one. -/
theorem own_entry_completed :
    ¬Adds TouchesOne zeroInvite (.holds nameOnly)
      (cmdAdd (some (.ok (List.replicate 32 0))) none none (.holds nameOnly) zeroInvite none).2 := by
  have hrun : (cmdAdd (some (.ok (List.replicate 32 0))) none none (.holds nameOnly) zeroInvite
      none).2 = .holds (nameOnly.set selfName (.obj [(Field.screen, .str (Python.str ['A'])),
        (Field.pubkey, .str (Python.str (Hex.encode (List.replicate 32 0))))])) := by
    rfl
  have hself : nameOnly.get? selfName = some (.obj [(Field.screen, .str (Python.str ['A']))]) := rfl
  have hother : ∀ k, k ≠ selfName → nameOnly.get? k = none := by
    intro k hk
    show List.lookup k _ = none
    rw [nameOnly, List.lookup_cons, beq_false_of_ne hk]
    rfl
  rw [hrun]
  rintro (h | ⟨inv, cs, cs', -, hload, hfile, hone⟩)
  · have := congrArg (fun f => match f with
      | ContactsFile.holds cs => cs.get? selfName
      | _ => none) h
    simp only [Contacts.get?_set_self, hself] at this
    simp at this
  · cases hload
    cases hfile
    rcases hone with ⟨k, fields, -, hk, hget, -⟩ | ⟨k, hnone, -, hsame⟩
    · rw [hother k hk] at hget
      cases hget
    · have hk : selfName ≠ k := by
        rintro rfl
        rw [hself] at hnone
        cases hnone
      have := hsame selfName hk
      rw [Contacts.get?_set_self, hself] at this
      simp at this

theorem nthPetname_injective (base : Str) : Function.Injective (nthPetname base) := by
  intro a b h
  have hlen : ∀ n, base ≠ base ++ Python.str [' '] ++ Python.decimal n := by
    intro n hn
    have := congrArg List.length hn
    simp [Python.str] at this
  unfold nthPetname at h
  split_ifs at h with ha hb hb
  · rw [ha, hb]
  · exact absurd h (hlen _)
  · exact absurd h.symm (hlen _)
  · have := Python.decimal_injective (List.append_cancel_left h)
    omega

/-- The loop ends at the first name that is free, or at the name after the last one it tried. -/
theorem freePetnameFrom_spec (cs : Contacts) (base : Str) : ∀ fuel n,
    ∃ m, freePetnameFrom cs base fuel n = nthPetname base m
      ∧ (∀ i, n ≤ i → i < m → (cs.get? (nthPetname base i)).isSome)
      ∧ (cs.get? (nthPetname base m) = none ∨ m = n + fuel)
  | 0, n => ⟨n, rfl, fun i h1 h2 => by omega, .inr rfl⟩
  | fuel + 1, n => by
    unfold freePetnameFrom
    split
    · rename_i htaken
      obtain ⟨m, hm, hbefore, hend⟩ := freePetnameFrom_spec cs base fuel (n + 1)
      refine ⟨m, hm, fun i h1 h2 => ?_, hend.imp id (by omega)⟩
      rcases Nat.eq_or_lt_of_le h1 with rfl | h1
      · exact htaken
      · exact hbefore i h1 h2
    · rename_i hfree
      exact ⟨n, rfl, fun i h1 h2 => by omega, .inl (by simpa using hfree)⟩

theorem mem_keys_of_isSome {cs : Contacts} {k : Str} (h : (cs.get? k).isSome) :
    k ∈ cs.entries.map Prod.fst := by
  by_contra hk
  have hnone : cs.get? k = none := by
    refine List.lookup_eq_none_iff.2 fun e he => ?_
    have hne : k ≠ e.1 := fun h => hk (h ▸ List.mem_map_of_mem he)
    exact bne_iff_ne.2 hne
  rw [hnone] at h
  cases h

/-- `_free_petname` gives a name that is not in use. -/
theorem get?_freePetname (cs : Contacts) (base : Str) : cs.get? (freePetname cs base) = none := by
  obtain ⟨m, hm, hbefore, hend⟩ := freePetnameFrom_spec cs base cs.entries.length 0
  unfold freePetname
  rw [hm]
  refine hend.elim id fun hlast => ?_
  by_contra hsome
  have htaken : ∀ i, i < m + 1 → (cs.get? (nthPetname base i)).isSome := by
    intro i hi
    rcases Nat.lt_succ_iff_lt_or_eq.1 hi with hi | rfl
    · exact hbefore i (Nat.zero_le i) hi
    · exact Option.isSome_iff_ne_none.2 hsome
  -- more distinct names than the contacts have
  have hsub : (List.range (m + 1)).map (nthPetname base) ⊆ cs.entries.map Prod.fst := by
    intro q hq
    obtain ⟨i, hi, rfl⟩ := List.mem_map.1 hq
    exact mem_keys_of_isSome (htaken i (List.mem_range.1 hi))
  have hnd : ((List.range (m + 1)).map (nthPetname base)).Nodup :=
    List.nodup_range.map (nthPetname_injective base)
  have hle := (hnd.subperm hsub).length_le
  simp only [List.length_map, List.length_range] at hle
  omega

/-- A stranger of a roster gets a new entry, and nothing else changes. -/
theorem addContactFromRoster_newEntry {fault : Option Exc} {file file' : ContactsFile} {node : Str}
    {pubkey : Json} {screen petname : Str}
    (h : addContactFromRoster fault file node pubkey screen = (.ok petname, file')) :
    ∃ cs cs', loadContacts .typeError file = .ok cs ∧ file' = .holds cs' ∧
      NewEntry petname cs cs' := by
  unfold addContactFromRoster at h
  split at h
  · cases h
  · rename_i cs hload
    simp only at h
    rcases saveContacts_cases fault file (cs.set (freePetname cs (if screen = [] then node.take 8
      else screen)) (contactEntry pubkey (.str node) (if screen = [] then node.take 8
      else screen))) with ⟨e, hs⟩ | hs
    · rw [hs] at h
      cases h
    · rw [hs] at h
      cases h
      exact ⟨cs, _, hload, rfl, get?_freePetname cs _, by simp, sameBut_set _ _ _⟩

end Aimless
