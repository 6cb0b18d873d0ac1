import Aimless.Backup

/-!
# When a restore is atomic

The identity seed is checked before anything is written, the node seed only after the identity
file has been replaced, and its length by nobody but the daemon.  So a restore leaves everything
or restores usable keys exactly when the node seed is missing or is one, and no write after the
first fails.
-/

namespace Aimless

open Python (Str Exc Json)

variable {K : Locks} {salt nonce : Bytes} {faults : WriteFaults} {data : List (Str × Json)}
  {passphrase : Str} {d : Disk}

/-- What a restore that returns must leave: the bundle's identity, and its node key where it has
one. -/
structure Restored (K : Locks) (data : List (Str × Json)) (passphrase : Str) (d : Disk) : Prop where
  identity : ∃ s seed, Python.get? data Field.identitySeed = some (.str s)
    ∧ Python.fromHex s = .ok seed ∧ loadIdentity K d.identity passphrase = .ok seed
  nodeKey : ∀ v, Python.get? data Field.nodeSeed = some v → v ≠ .null →
    ∃ s seed, v = .str s ∧ Python.fromHex s = .ok seed
      ∧ ∀ generated, (loadOrCreateKey generated d.nodeKey).1 = .ok seed

/-- All or nothing: a restore that raises leaves the three files as they were. -/
def WholeOrNothing (K : Locks) (data : List (Str × Json)) (passphrase : Str) (d : Disk)
    (out : Except Exc (List (Str × Json)) × Disk) : Prop :=
  match out with
  | (.error _, d') => d' = d
  | (.ok _, d') => Restored K data passphrase d'

/-- The node seed is missing, or is hex of 32 bytes. -/
def NodeSeedFits (data : List (Str × Json)) : Prop :=
  ∀ v, Python.get? data Field.nodeSeed = some v → v ≠ .null →
    ∃ s seed, v = .str s ∧ Python.fromHex s = .ok seed ∧ seed.length = 32

/-- The first write is not reached or fails, or what follows it cannot fail. -/
def FailsBeforeWriting (faults : WriteFaults) (data : List (Str × Json)) (passphrase : Str) :
    Prop :=
  (∀ seed, bundleSeed data ≠ .ok seed) ∨ Python.encodable passphrase = false
    ∨ faults.identity.isSome

/-- No write after the first one fails that is made. -/
def LaterWritesSucceed (faults : WriteFaults) (data : List (Str × Json)) : Prop :=
  ((Python.get? data Field.nodeSeed).any (·.truthy) → faults.nodeKey = none)
    ∧ ((Python.get? data Field.contacts).any (·.truthy) → faults.contacts = none)

section KeyFile

theorem goSpace_digit {n : ℕ} (h : n < 16) : goSpace (Hex.digit n) = false := by
  interval_cases n <;> decide

theorem goSpace_encode : ∀ b : Bytes, ∀ c ∈ Hex.encode b, goSpace c = false
  | [], c, hc => by cases hc
  | b :: bs, c, hc => by
    have hb : b.toNat < 256 := b.toNat_lt
    rcases List.mem_cons.1 hc with rfl | hc
    · exact goSpace_digit (by omega)
    rcases List.mem_cons.1 hc with rfl | hc
    · exact goSpace_digit (by omega)
    · exact goSpace_encode bs c hc

theorem trimSpace_line {t : Text} (h : ∀ c ∈ t, goSpace c = false) :
    trimSpace (t ++ ['\n']) = t := by
  have hnl : goSpace '\n' = true := by decide
  cases t with
  | nil => rfl
  | cons c t =>
    have hdrop : ((c :: t) ++ ['\n']).dropWhile goSpace = (c :: t) ++ ['\n'] :=
      List.dropWhile_cons_of_neg (by simp [h c List.mem_cons_self])
    rw [trimSpace, hdrop, List.rdropWhile_concat_pos _ _ _ hnl, List.rdropWhile_eq_self_iff]
    intro hne
    simp [h _ (List.getLast_mem hne)]

/-- The daemon reads a seed back from the key file, and takes it only if it has 32 bytes. -/
theorem loadOrCreateKey_written (generated seed : Bytes) :
    (loadOrCreateKey generated (some (Hex.encode seed ++ ['\n']))).1 =
      if seed.length ≠ 32 then .error (.wrongSize seed.length) else .ok seed := by
  simp only [loadOrCreateKey, trimSpace_line (goSpace_encode seed), Hex.decode_encode]
  split <;> rfl

/-- The identity that was saved is loaded with the same passphrase. -/
theorem loadIdentity_saved {key seed : Bytes}
    (hbox : ∀ key nonce message, K.decrypt key (K.encrypt key nonce message) = some message)
    (hkey : kdfKey K passphrase salt = .ok key) (hseed : seed.length = 32) :
    loadIdentity K (.holds (.obj (identityFields salt (K.encrypt key nonce seed)))) passphrase =
      .ok seed := by
  have hsalt : Python.getItem (identityFields salt (K.encrypt key nonce seed)) Field.salt =
      .ok (.str (Python.str (Base64.encode salt))) := rfl
  have hct : Python.getItem (identityFields salt (K.encrypt key nonce seed)) Field.ct =
      .ok (.str (Python.str (Base64.encode (K.encrypt key nonce seed)))) := rfl
  simp only [loadIdentity, hsalt, hct, b64Value, bind, Except.bind, Python.b64decode_encode, hkey,
    hbox, hseed]
  rfl

end KeyFile

/-- A seed of 32 bytes passed the check, and was given as hex. -/
theorem bundleSeed_eq_ok {seed : Bytes} (h : bundleSeed data = .ok seed) :
    seed.length = 32 ∧ ∃ s, Python.get? data Field.identitySeed = some (.str s)
      ∧ Python.fromHex s = .ok seed := by
  obtain ⟨b, hb, h⟩ := Python.bind_eq_ok.1 h
  split at h
  · cases h
  · rename_i hlen
    cases h
    refine ⟨not_not.1 hlen, ?_⟩
    cases hget : Python.get? data Field.identitySeed with
    | none =>
      rw [hget] at hb
      cases hb
      simp at hlen
    | some v =>
      rw [hget] at hb
      cases v with
      | str s => exact ⟨s, rfl, hb⟩
      | _ => cases hb

variable (K salt) in
theorem encodable_iff_kdfKey : Python.encodable passphrase = true ↔
    ∃ key, kdfKey K passphrase salt = .ok key := by
  unfold kdfKey Python.utf8
  split
  · rename_i h
    exact ⟨fun _ => ⟨_, rfl⟩, fun _ => h⟩
  · rename_i h
    refine ⟨fun h' => absurd h' h, ?_⟩
    rintro ⟨key, hkey⟩
    cases hkey

variable (K salt nonce d) in
theorem restoreBundle_unwritten (h : FailsBeforeWriting faults data passphrase) :
    ∃ e, restoreBundle K salt nonce faults data passphrase d = (.error e, d) := by
  unfold restoreBundle
  cases hseed : bundleSeed data with
  | error e => exact ⟨e, rfl⟩
  | ok seed =>
    cases hkey : kdfKey K passphrase salt with
    | error e => exact ⟨e, by simp only [saveIdentity, hkey]⟩
    | ok key =>
      have hfault : faults.identity.isSome := by
        rcases h with h | h | h
        · exact absurd hseed (h seed)
        · rw [(encodable_iff_kdfKey K salt).2 ⟨key, hkey⟩] at h
          cases h
        · exact h
      obtain ⟨e, he⟩ := Option.isSome_iff_exists.1 hfault
      exact ⟨e, by simp only [saveIdentity, hkey, replaceFile, he]⟩

/-- The disk after the identity file has been replaced. -/
def Disk.withIdentity (d : Disk) (salt ct : Bytes) : Disk :=
  { d with identity := .holds (.obj (identityFields salt ct)) }

/-- What follows the first write. -/
def restoreRest (faults : WriteFaults) (data : List (Str × Json)) (d : Disk) :
    Except Exc (List (Str × Json)) × Disk :=
  match restoreNodeKey faults.nodeKey data d with
  | (.error e, d) => (.error e, d)
  | (.ok (), d) =>
    match restoreContacts faults.contacts data d with
    | (.error e, d) => (.error e, d)
    | (.ok (), d) => (.ok data, d)

variable (K salt nonce d) in
theorem restoreBundle_written (h : ¬FailsBeforeWriting faults data passphrase) :
    ∃ seed key, bundleSeed data = .ok seed ∧ kdfKey K passphrase salt = .ok key
      ∧ restoreBundle K salt nonce faults data passphrase d =
        restoreRest faults data (d.withIdentity salt (K.encrypt key nonce seed)) := by
  simp only [FailsBeforeWriting, not_or, not_forall, not_not, Bool.not_eq_false,
    Option.not_isSome_iff_eq_none] at h
  obtain ⟨⟨seed, hseed⟩, henc, hfault⟩ := h
  obtain ⟨key, hkey⟩ := (encodable_iff_kdfKey K salt).1 henc
  refine ⟨seed, key, hseed, hkey, ?_⟩
  simp only [restoreBundle, hseed, saveIdentity, hkey, replaceFile, hfault]
  rfl

theorem restoreNodeKey_identity (fault : Option Exc) (data : List (Str × Json)) (d : Disk) :
    (restoreNodeKey fault data d).2.identity = d.identity := by
  unfold restoreNodeKey
  split
  · rfl
  · split
    · rfl
    · split <;> rfl

theorem restoreContacts_keeps (fault : Option Exc) (data : List (Str × Json)) (d : Disk) :
    (restoreContacts fault data d).2.identity = d.identity
      ∧ (restoreContacts fault data d).2.nodeKey = d.nodeKey := by
  unfold restoreContacts
  split
  · exact ⟨rfl, rfl⟩
  · split <;> exact ⟨rfl, rfl⟩

theorem restoreContacts_ok_iff (fault : Option Exc) (data : List (Str × Json)) (d : Disk) :
    (restoreContacts fault data d).1 = .ok () ↔
      ((Python.get? data Field.contacts).any (·.truthy) → fault = none) := by
  unfold restoreContacts
  cases Python.get? data Field.contacts with
  | none => simp
  | some v =>
    by_cases ht : v.truthy = false
    · simp [ht]
    · cases fault <;> simp [ht, replaceFile]

/-- The node key that a restore leaves is the bundle's. -/
def NodeKeyRead (data : List (Str × Json)) (file : Option Text) : Prop :=
  ∀ v, Python.get? data Field.nodeSeed = some v → v ≠ .null →
    ∃ s seed, v = .str s ∧ Python.fromHex s = .ok seed
      ∧ ∀ generated, (loadOrCreateKey generated file).1 = .ok seed

theorem loadOrCreateKey_length {generated seed : Bytes} {file : Option Text}
    (hg : generated.length = 32) (h : (loadOrCreateKey generated file).1 = .ok seed) :
    seed.length = 32 := by
  unfold loadOrCreateKey at h
  split at h
  · cases h
    exact hg
  · split at h
    · cases h
    · split at h
      · cases h
      · rename_i hlen
        cases h
        exact not_not.1 hlen

/-- A key that the daemon takes has a seed of the right length. -/
theorem NodeKeyRead.fits {file : Option Text} (h : NodeKeyRead data file) : NodeSeedFits data := by
  intro v hv hnull
  obtain ⟨s, seed, hs, hhex, hload⟩ := h v hv hnull
  exact ⟨s, seed, hs, hhex, loadOrCreateKey_length (List.length_replicate (n := 32) (a := 0))
    (hload _)⟩

/-- The second step leaves the bundle's key for the daemon exactly when the node seed is missing
or is one, and the write that it then makes succeeds. -/
theorem restoreNodeKey_iff (fault : Option Exc) (data : List (Str × Json)) (d : Disk) :
    ((restoreNodeKey fault data d).1 = .ok ()
        ∧ NodeKeyRead data (restoreNodeKey fault data d).2.nodeKey) ↔
      NodeSeedFits data ∧ ((Python.get? data Field.nodeSeed).any (·.truthy) → fault = none) := by
  constructor
  · rintro ⟨hok, hread⟩
    refine ⟨hread.fits, fun ht => ?_⟩
    obtain ⟨v, hv, ht⟩ := Option.any_eq_true .. |>.1 ht
    simp only [restoreNodeKey, hv, ht] at hok
    cases hhex : hexValue v with
    | error e =>
      simp only [hhex] at hok
      cases hok
    | ok seed =>
      simp only [hhex] at hok
      cases fault with
      | none => rfl
      | some e => cases hok
  · rintro ⟨hfits, hfault⟩
    unfold restoreNodeKey
    cases hv : Python.get? data Field.nodeSeed with
    | none => exact ⟨rfl, fun v h => by rw [hv] at h; cases h⟩
    | some v =>
      by_cases hnull : v = .null
      · subst hnull
        refine ⟨rfl, fun v h hne => ?_⟩
        rw [hv] at h
        cases h
        exact absurd rfl hne
      · obtain ⟨s, seed, rfl, hhex, hlen⟩ := hfits v hv hnull
        have ht : (Json.str s).truthy = true := by
          -- the empty string is hex of no bytes
          have hs : s ≠ [] := by
            rintro rfl
            cases hhex
            cases hlen
          simpa [Json.truthy] using hs
        have hnone : fault = none := hfault (by simp [hv, ht])
        simp only [ht, hexValue, hhex, writeNodeKey, replaceFile, hnone]
        refine ⟨rfl, fun v h _ => ?_⟩
        rw [hv] at h
        cases h
        refine ⟨s, seed, rfl, hhex, fun generated => ?_⟩
        have := loadOrCreateKey_written generated seed
        rwa [if_neg (not_not.2 hlen)] at this

theorem restoreRest_identity (faults : WriteFaults) (data : List (Str × Json)) (d : Disk) :
    (restoreRest faults data d).2.identity = d.identity := by
  have hnode := restoreNodeKey_identity faults.nodeKey data d
  unfold restoreRest
  rcases h1 : restoreNodeKey faults.nodeKey data d with ⟨_ | _, d1⟩
  · rw [h1] at hnode
    exact hnode
  · rw [h1] at hnode
    have hcont := (restoreContacts_keeps faults.contacts data d1).1
    rcases h2 : restoreContacts faults.contacts data d1 with ⟨_ | _, d2⟩ <;>
      · rw [h2] at hcont
        simp only [h2]
        exact hcont.trans hnode

/-- The steps after the first one return and leave the node key exactly under the two
conditions. -/
theorem restoreRest_iff (faults : WriteFaults) (data : List (Str × Json)) (d : Disk) :
    ((∃ r, (restoreRest faults data d).1 = .ok r)
        ∧ NodeKeyRead data (restoreRest faults data d).2.nodeKey) ↔
      NodeSeedFits data ∧ LaterWritesSucceed faults data := by
  have hnode := restoreNodeKey_iff faults.nodeKey data d
  unfold restoreRest LaterWritesSucceed
  rw [← and_assoc, ← hnode]
  rcases h1 : restoreNodeKey faults.nodeKey data d with ⟨_ | _, d1⟩
  · simp
  · rw [← restoreContacts_ok_iff faults.contacts data d1]
    have hkeep := (restoreContacts_keeps faults.contacts data d1).2
    rcases h2 : restoreContacts faults.contacts data d1 with ⟨_ | _, d2⟩
    · simp [h2]
    · rw [h2] at hkeep
      simp [h2, ← hkeep]

/-- A restore raises and leaves the three files, or returns with the bundle's identity and a node
key that the daemon reads as the bundle's, exactly when it fails before anything is written, or
the node seed is missing or hex of 32 bytes and none of the later writes that are made fails. -/
theorem restore_whole_or_nothing_iff
    (hbox : ∀ key nonce message, K.decrypt key (K.encrypt key nonce message) = some message)
    (hfresh : ∀ ct, d.identity ≠ .holds (.obj (identityFields salt ct))) :
    WholeOrNothing K data passphrase d (restoreBundle K salt nonce faults data passphrase d) ↔
      FailsBeforeWriting faults data passphrase ∨
        (NodeSeedFits data ∧ LaterWritesSucceed faults data) := by
  by_cases hb : FailsBeforeWriting faults data passphrase
  · obtain ⟨e, h⟩ := restoreBundle_unwritten K salt nonce d hb
    rw [h]
    exact ⟨fun _ => .inl hb, fun _ => rfl⟩
  · obtain ⟨seed, key, hseed, hkey, h⟩ :=
      restoreBundle_written K salt nonce d hb
    obtain ⟨hlen, s, hget, hhex⟩ := bundleSeed_eq_ok hseed
    rw [h, or_iff_right hb, ← restoreRest_iff faults data
      (d.withIdentity salt (K.encrypt key nonce seed))]
    have hid := restoreRest_identity faults data (d.withIdentity salt (K.encrypt key nonce seed))
    rcases hrest : restoreRest faults data (d.withIdentity salt (K.encrypt key nonce seed)) with
      ⟨r, d'⟩
    rw [hrest] at hid
    cases r with
    | error e =>
      -- the identity file has been replaced by then
      refine ⟨fun hd => ?_, by simp⟩
      cases hd
      exact absurd hid (hfresh _)
    | ok r =>
      refine ⟨fun hr => ⟨⟨r, rfl⟩, hr.nodeKey⟩, fun hr => ⟨⟨s, seed, hget, hhex, ?_⟩, hr.2⟩⟩
      rw [show d'.identity = _ from hid]
      exact loadIdentity_saved hbox hkey hlen

/-- Locks that keep the message in the open. -/
def openLocks : Locks where
  scrypt passphrase salt := passphrase ++ salt
  encrypt _ _ message := message
  decrypt _ ciphertext := some ciphertext

/-- A bundle whose identity seed is 32 zero bytes, with the node seed that is given. -/
def zeroBundle (nodeSeed : Str) : List (Str × Json) :=
  [(Field.identitySeed, .str (Python.str (Hex.encode (List.replicate 32 0)))),
    (Field.nodeSeed, .str nodeSeed)]

def emptyDisk : Disk := ⟨.absent, none, .absent⟩

def noFaults : WriteFaults := ⟨none, none, none⟩

/-- A bundle with both keys, restored to an empty disk. -/
theorem restore_whole_or_nothing_zero :
    WholeOrNothing openLocks (zeroBundle (Python.str (Hex.encode (List.replicate 32 1)))) []
      emptyDisk (restoreBundle openLocks [] [] noFaults
        (zeroBundle (Python.str (Hex.encode (List.replicate 32 1)))) [] emptyDisk) :=
  (restore_whole_or_nothing_iff (fun _ _ _ => rfl) (fun _ h => by cases h)).2
    (.inr ⟨fun v hv _ => by
      cases hv
      exact ⟨_, _, rfl, Python.fromHex_encode _, rfl⟩, fun _ => rfl, fun _ => rfl⟩)

/-- A node seed that is no hex is found out when the identity file has been replaced. -/
theorem bad_node_seed_half_restored :
    ¬WholeOrNothing openLocks (zeroBundle (Python.str ['x'])) [] emptyDisk
      (restoreBundle openLocks [] [] noFaults (zeroBundle (Python.str ['x'])) [] emptyDisk) := by
  have hrun : restoreBundle openLocks [] [] noFaults (zeroBundle (Python.str ['x'])) [] emptyDisk =
      (.error .valueError, emptyDisk.withIdentity [] (List.replicate 32 0)) := rfl
  rw [hrun]
  intro h
  cases congrArg Disk.identity h

end Aimless
