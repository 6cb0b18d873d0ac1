import Aimless.Persist
import Aimless.Lib.Runs
import Aimless.Proofs.Isolation

/-!
# What the files hold when the calls are done

The read, the write and the rename of a call are not one step, and all calls share one temporary
file.  Only a run in which a rename fails, or in which a call has not come to its rename, has two
writers of one file overlap; so where the calls have returned without an I/O error, every write was
one replacement of the file.  What it replaced is the question: a contact is lost if the call wrote
the list it had read before another call added that contact, and the block list on disk is stale if
a call wrote its copy after a later copy had been written.
-/

namespace Aimless

open Replaced (Serial)

namespace Documents

/-! ### The text of the files -/

theorem comma_notMem_encode (key : PublicKey) : ',' ∉ Hex.encode key := by
  intro h
  have hsome := Hex.value_isSome_of_decode (Hex.decode_encode key) ',' h
  exact absurd hsome (by decide)

theorem unquote_quote (key : PublicKey) : unquote (quote key) = some key := by
  simp [unquote, quote, Hex.decode_encode, Except.toOption]

theorem mapM_unquote : ∀ keys : List PublicKey, (keys.map quote).mapM unquote = some keys
  | [] => rfl
  | key :: keys => by simp [unquote_quote, mapM_unquote keys]

theorem intercalate_quote_ne_nil (key : PublicKey) (keys : List PublicKey) :
    [','].intercalate ((key :: keys).map quote) ≠ [] := by
  rcases keys with _ | ⟨k, keys⟩ <;> simp [quote]

theorem elements_intercalate (keys : List PublicKey) :
    elements ([','].intercalate (keys.map quote)) = keys.map quote := by
  rcases keys with _ | ⟨key, keys⟩
  · rfl
  · unfold elements
    rw [if_neg (intercalate_quote_ne_nil key keys)]
    refine List.splitOn_intercalate ',' (fun l hl => ?_) (List.cons_ne_nil _ _)
    obtain ⟨k, -, rfl⟩ := List.mem_map.1 hl
    simp [quote, comma_notMem_encode]

theorem goUnmarshal_goMarshal (f : FileName) (keys : List PublicKey) :
    goUnmarshal f (goMarshal f keys) = some keys := by
  have hbody : ((goMarshal f keys).drop (opening f).length).take
      ((goMarshal f keys).length - (opening f).length - closing.length)
      = [','].intercalate (keys.map quote) := by
    simp [goMarshal]
  simp only [goUnmarshal, hbody, elements_intercalate, mapM_unquote]
  simp

/-- The documents as Go writes them. -/
def golang : Documents where
  marshal := goMarshal
  unmarshal := goUnmarshal
  unmarshal_marshal := goUnmarshal_goMarshal

end Documents

namespace Server

/-- The keys of a document that is being written. -/
def Stage.drafted : Stage → Option (List PublicKey)
  | .writing keys => some keys
  | .renaming keys => some keys
  | _ => none

/-- The keys of a document that is still to be written. -/
def Stage.unwritten : Stage → Option (List PublicKey)
  | .writing keys => some keys
  | _ => none

theorem Stage.mem_unwritten {st : Stage} {keys : List PublicKey} :
    keys ∈ st.unwritten ↔ st = .writing keys := by
  cases st <;> simp [unwritten, eq_comm]

/-- A call of `Watch` that did not fail and has no file operation left. -/
def Stage.Done (st : Stage) : Prop := st = .listed ∨ st = .returned (.ok ())

variable {J : Documents} {s s' : Server} {c : Call} {st : Stage} {i j : ℕ} {f : FileName}

/-! ### One move -/

/-- What a move of a call can do. -/
inductive Moved (J : Documents) (s : Server) (c : Call) : Stage → Server → Prop
  /-- No file is written, and none is to be written for this move. -/
  | quiet {st : Stage} {d : Daemon} (hd : d.blocked = s.daemon.blocked)
      (hwas : c.stage.drafted = none) (hnow : st.drafted = none)
      (hret : ∀ r, c.stage = .returned r → st = .returned r)
      (hdone : c.op = .watch → st.Done →
        c.stage.Done ∨ ∃ keys, s.loadContacts J = some keys ∧ c.pub ∈ keys) :
      Moved J s c st { s with daemon := d }
  | read {keys : List PublicKey} (hstage : c.stage = .boxed)
      (hkeys : s.loadContacts J = some keys) (hnew : c.pub ∉ keys) :
      Moved J s c (.writing (keys ++ [c.pub])) s
  | change (hop : c.op.file = .blocked) (hstage : c.stage = .called) (blocked : List PublicKey) :
      Moved J s c (s.change blocked).1 (s.change blocked).2
  | write {keys : List PublicKey} (hstage : c.stage = .writing keys) :
      Moved J s c (.renaming keys)
        (s.putFile c.op.file ((s.disk c.op.file).write (J.marshal c.op.file keys)))
  | rename {keys : List PublicKey} {r : Replaced Text} {st : Stage}
      (hstage : c.stage = .renaming keys) (hr : (s.disk c.op.file).rename = some r)
      (hnow : st.Done) :
      Moved J s c st (s.putFile c.op.file r)
  | fail {keys : List PublicKey} (hstage : c.stage = .renaming keys)
      (hr : (s.disk c.op.file).rename = none) : Moved J s c (.returned (.error .rename)) s

theorem move_moved (J : Documents) (s : Server) (c : Call) :
    Moved J s c (s.move J c).1 (s.move J c).2 := by
  unfold move
  rcases hstage : c.stage with _ | _ | _ | keys | keys | _ | r
  · have hwas : c.stage.drafted = none := by simp [hstage, Stage.drafted]
    rcases hop : c.op with _ | _ | _ <;> dsimp only
    · split <;> exact .quiet rfl hwas rfl (by simp [hstage]) (by simp [Stage.Done])
    · split
      · exact .quiet rfl hwas rfl (by simp [hstage]) (by simp [hop])
      · exact .change (by rw [hop, CallOp.file]) hstage _
    · split
      · exact .quiet rfl hwas rfl (by simp [hstage]) (by simp [hop])
      · exact .change (by rw [hop, CallOp.file]) hstage _
  · exact .quiet (Daemon.Only.boxFor _).blocked.1 (by simp [hstage, Stage.drafted]) rfl
      (by simp [hstage]) (by simp [Stage.Done])
  · have hwas : c.stage.drafted = none := by simp [hstage, Stage.drafted]
    dsimp only
    rcases hkeys : s.loadContacts J with _ | contacts <;> dsimp only
    · exact .quiet rfl hwas rfl (by simp [hstage]) (by simp [Stage.Done])
    · split
      · rename_i hin
        have hmem : c.pub ∈ contacts := by simpa using hin
        exact .quiet rfl hwas rfl (by simp [hstage]) fun _ _ => .inr ⟨contacts, hkeys, hmem⟩
      · rename_i hnew
        exact .read hstage hkeys (by simpa using hnew)
  · exact .write hstage
  · dsimp only
    rcases hr : (s.disk c.op.file).rename with _ | r <;> dsimp only
    · exact .fail hstage hr
    · refine .rename hstage hr ?_
      split
      · exact .inl rfl
      · exact .inr rfl
  · exact .quiet rfl (by simp [hstage, Stage.drafted]) rfl (by simp [hstage])
      fun _ _ => .inl (.inl hstage)
  · exact .quiet rfl (by simp [hstage, Stage.drafted]) rfl (by simp [hstage])
      fun _ h => .inl (hstage ▸ h)

/-- The call at position `i`, found at `c`, goes on to another stage. -/
def put (s : Server) (i : ℕ) (c : Call) (st : Stage) : Server :=
  { s with calls := s.calls.set i { c with stage := st } }

theorem moved_calls (h : Moved J s c st s') : s'.calls = s.calls := by
  cases h <;> rfl

theorem advance_eq (J : Documents) (s : Server) (i : ℕ) :
    s.advance J i = s ∨ ∃ c st s', s.calls[i]? = some c ∧ Moved J s c st s'
      ∧ s.advance J i = s'.put i c st := by
  unfold advance
  rcases hc : s.calls[i]? with _ | c
  · exact .inl rfl
  · exact .inr ⟨c, _, _, rfl, move_moved J s c, rfl⟩

theorem put_calls (hi : s.calls[i]? = some c) (h : s'.calls = s.calls) (j : ℕ) :
    (s'.put i c st).calls[j]? = if j = i then some { c with stage := st } else s.calls[j]? := by
  have hlt : i < s.calls.length := (List.getElem?_eq_some_iff.1 hi).1
  unfold put
  rw [h, List.getElem?_set]
  by_cases hij : i = j
  · rw [if_pos hij, if_pos hij.symm, if_pos hlt]
  · rw [if_neg hij, if_neg (Ne.symm hij)]

/-- What holds of the calls before a move and of the one that moved holds of the calls after it. -/
theorem forall_put {P : Call → Prop} (hi : s.calls[i]? = some c) (h : s'.calls = s.calls)
    (hall : ∀ (j : ℕ) c', s.calls[j]? = some c' → P c') (hown : P { c with stage := st }) :
    ∀ (j : ℕ) c', (s'.put i c st).calls[j]? = some c' → P c' := by
  intro j c' hj
  rw [put_calls hi h] at hj
  split_ifs at hj
  · cases hj
    exact hown
  · exact hall j c' hj

/-- The calls that have written a file's temporary file and not yet renamed it. -/
def holders (s : Server) (f : FileName) : Set ℕ :=
  {i | ∃ c keys, s.calls[i]? = some c ∧ c.op.file = f ∧ c.stage = .renaming keys}

theorem mem_holders_put (hi : s.calls[i]? = some c) (h : s'.calls = s.calls) :
    j ∈ (s'.put i c st).holders f ↔
      if j = i then c.op.file = f ∧ ∃ keys, st = .renaming keys else j ∈ s.holders f := by
  unfold holders
  simp only [Set.mem_ofPred_eq, put_calls hi h]
  split_ifs
  · constructor
    · rintro ⟨_, keys, hc, hf, hst⟩
      cases hc
      exact ⟨hf, keys, hst⟩
    · rintro ⟨hf, keys, hst⟩
      exact ⟨_, keys, rfl, hf, hst⟩
  · rfl

theorem mem_holders_own (hi : s.calls[i]? = some c) :
    i ∈ s.holders f ↔ c.op.file = f ∧ ∃ keys, c.stage = .renaming keys := by
  unfold holders
  simp only [Set.mem_ofPred_eq, hi]
  constructor
  · rintro ⟨_, keys, hc, hf, hst⟩
    cases hc
    exact ⟨hf, keys, hst⟩
  · rintro ⟨hf, keys, hst⟩
    exact ⟨c, keys, rfl, hf, hst⟩

theorem holders_same (hi : s.calls[i]? = some c) (h : s'.calls = s.calls)
    (hsame : c.op.file = f → ((∃ keys, st = .renaming keys) ↔ ∃ keys, c.stage = .renaming keys)) :
    (s'.put i c st).holders f = s.holders f := by
  ext j
  rw [mem_holders_put hi h]
  split_ifs with hj
  · subst hj
    rw [mem_holders_own hi]
    exact and_congr_right hsame
  · rfl

theorem holders_write {keys : List PublicKey} (hi : s.calls[i]? = some c)
    (h : s'.calls = s.calls) :
    (s'.put i c (.renaming keys)).holders c.op.file = insert i (s.holders c.op.file) := by
  ext j
  rw [mem_holders_put hi h, Set.mem_insert_iff]
  split_ifs with hj
  · exact iff_of_true ⟨rfl, keys, rfl⟩ (.inl hj)
  · exact ⟨.inr, fun hin => hin.resolve_left hj⟩

theorem holders_rename (hi : s.calls[i]? = some c) (h : s'.calls = s.calls)
    (hst : ∀ keys, st ≠ .renaming keys) :
    (s'.put i c st).holders c.op.file = s.holders c.op.file \ {i} := by
  ext j
  rw [mem_holders_put hi h, Set.mem_sdiff, Set.mem_singleton_iff]
  split_ifs with hj
  · exact iff_of_false (fun hin => hin.2.elim fun keys hk => hst keys hk) fun hin => hin.2 hj
  · exact ⟨fun hin => ⟨hin, hj⟩, fun hin => hin.1⟩

/-! ### Taking turns -/

@[simp] theorem putFile_disk_self (r : Replaced Text) : (s.putFile f r).disk f = r := by
  simp [putFile]

@[simp] theorem put_disk : (s.put i c st).disk = s.disk := rfl

theorem putFile_disk_ne {g : FileName} (hg : g ≠ f) (r : Replaced Text) :
    (s.putFile f r).disk g = s.disk g := by
  simp [putFile, Function.update_of_ne hg]

/-- Some call returned the error of its rename. -/
def Failed (s : Server) : Prop :=
  ∃ (j : ℕ) (c : Call), s.calls[j]? = some c ∧ c.stage = .returned (.error .rename)

/-- No rename has failed, and none is going to fail for want of a temporary file. -/
structure Settled (s : Server) (f : FileName) : Prop where
  ok : ¬ s.Failed
  serial : (s.disk f).Serial (s.holders f)

/-- What the file holds once the call under way has renamed. -/
noncomputable def current (s : Server) (f : FileName) : Option Text :=
  (s.disk f).current (s.holders f)

theorem failed_put (hi : s.calls[i]? = some c) (hm : Moved J s c st s') (h : s.Failed) :
    (s'.put i c st).Failed := by
  obtain ⟨j, c', hj, hstage⟩ := h
  by_cases hij : j = i
  · subst hij
    obtain rfl : c = c' := Option.some.inj (hi.symm.trans hj)
    refine ⟨j, { c with stage := st }, by rw [put_calls hi (moved_calls hm), if_pos rfl], ?_⟩
    cases hm with
    | quiet _ _ _ hret _ => exact hret _ hstage
    | read hs _ _ | change _ hs _ | write hs | rename hs _ _ | fail hs _ =>
      simp [hstage] at hs
  · exact ⟨j, c', by rw [put_calls hi (moved_calls hm), if_neg hij, hj], hstage⟩

theorem renaming_of_drafted {st : Stage} (h : st.drafted = none) :
    ¬ ∃ keys, st = .renaming keys := by
  rintro ⟨keys, rfl⟩
  cases h

/-- What a move does to one of the files. -/
inductive Touched (J : Documents) (f : FileName) (s : Server) (c : Call) :
    Stage → Server → Prop
  | no {st : Stage} {s' : Server} (hdisk : s'.disk f = s.disk f)
      (hsame : c.op.file = f → ((∃ keys, st = .renaming keys) ↔ ∃ keys, c.stage = .renaming keys))
      (hwas : c.op.file = f → ∀ keys, c.stage ≠ .writing keys) : Touched J f s c st s'
  | write {keys : List PublicKey} (hf : c.op.file = f) (hstage : c.stage = .writing keys) :
      Touched J f s c (.renaming keys) (s.putFile f ((s.disk f).write (J.marshal f keys)))
  | rename {keys : List PublicKey} {r : Replaced Text} {st : Stage} (hf : c.op.file = f)
      (hstage : c.stage = .renaming keys) (hr : (s.disk f).rename = some r) (hnow : st.Done) :
      Touched J f s c st (s.putFile f r)
  | fail {keys : List PublicKey} (hf : c.op.file = f) (hstage : c.stage = .renaming keys)
      (hr : (s.disk f).rename = none) : Touched J f s c (.returned (.error .rename)) s

theorem touched_of_moved (hm : Moved J s c st s') (f : FileName) : Touched J f s c st s' := by
  cases hm with
  | quiet _ hwas hnow _ _ =>
    refine .no rfl (fun _ => ?_) fun _ keys hk => ?_
    · exact iff_of_false (renaming_of_drafted hnow) (renaming_of_drafted hwas)
    · rw [hk] at hwas
      cases hwas
  | read hstage _ _ => exact .no rfl (by simp [hstage]) (by simp [hstage])
  | change _ hstage _ => exact .no rfl (by simp [hstage, change]) (by simp [hstage])
  | write hstage =>
    by_cases hf : c.op.file = f
    · subst hf
      exact .write rfl hstage
    · exact .no (putFile_disk_ne (Ne.symm hf) _) (fun h => (hf h).elim) fun h => (hf h).elim
  | rename hstage hr hnow =>
    by_cases hf : c.op.file = f
    · subst hf
      exact .rename rfl hstage hr hnow
    · exact .no (putFile_disk_ne (Ne.symm hf) _) (fun h => (hf h).elim) fun h => (hf h).elim
  | fail hstage hr =>
    by_cases hf : c.op.file = f
    · subst hf
      exact .fail rfl hstage hr
    · exact .no rfl (fun h => (hf h).elim) fun h => (hf h).elim

/-- What a move does to one of the files, in a run that stays settled. -/
inductive Effect (J : Documents) (f : FileName) (s : Server) (c : Call) (s' : Server) : Prop
  | same (hdisk : s'.disk f = s.disk f) (hcur : s'.current f = s.current f)
      (hwas : c.op.file = f → ∀ keys, c.stage ≠ .writing keys)
  | wrote {keys : List PublicKey} (hf : c.op.file = f) (hstage : c.stage = .writing keys)
      (hcur : s.current f = (s.disk f).file) (hfile : (s'.disk f).file = (s.disk f).file)
      (hcur' : s'.current f = some (J.marshal f keys))
  | renamed {keys : List PublicKey} (hf : c.op.file = f) (hstage : c.stage = .renaming keys)
      (hcur : s'.current f = s.current f) (hfile : (s'.disk f).file = s.current f)

theorem effect_of_moved (hi : s.calls[i]? = some c) (hm : Moved J s c st s')
    (hs : (s'.put i c st).Settled f) : s.Settled f ∧ Effect J f s c (s'.put i c st) := by
  have hok : ¬ s.Failed := fun h => hs.ok (failed_put hi hm h)
  have hcalls := moved_calls hm
  have hserial := hs.serial
  cases touched_of_moved hm f with
  | no hdisk hsame hwas =>
    have hh := holders_same hi hcalls hsame
    rw [put_disk, hdisk, hh] at hserial
    refine ⟨⟨hok, hserial⟩, .same (by rw [put_disk, hdisk]) ?_ hwas⟩
    rw [current, current, put_disk, hdisk, hh]
  | write hf hstage =>
    subst hf
    have hnot : i ∉ s.holders c.op.file := by
      rw [mem_holders_own hi, hstage]
      simp
    rw [put_disk, putFile_disk_self, holders_write hi hcalls] at hserial
    have hempty := Serial.of_write hnot hserial
    refine ⟨⟨hok, hempty ▸ Replaced.serial_empty _⟩, .wrote rfl hstage ?_ ?_ ?_⟩
    · rw [current, hempty, Replaced.current_empty]
    · rw [put_disk, putFile_disk_self, Replaced.write]
    · rw [current, put_disk, putFile_disk_self, holders_write hi hcalls, Replaced.current_write]
  | rename hf hstage hr hnow =>
    subst hf
    have hin : i ∈ s.holders c.op.file := (mem_holders_own hi).2 ⟨rfl, _, hstage⟩
    have hst : ∀ keys, st ≠ .renaming keys := by
      rcases hnow with rfl | rfl <;> simp
    rw [put_disk, putFile_disk_self, holders_rename hi hcalls hst] at hserial
    obtain ⟨hone, hbefore⟩ := Serial.of_rename hr hin hserial
    have hcur := Replaced.current_rename hr hone
    refine ⟨⟨hok, hbefore⟩, .renamed rfl hstage ?_ ?_⟩
    · rw [current, put_disk, putFile_disk_self, holders_rename hi hcalls hst, hcur, current]
    · rw [put_disk, putFile_disk_self, current, ← hcur, hone, Set.sdiff_self,
        Replaced.current_empty]
  | fail _ _ _ =>
    exact (hs.ok ⟨i, { c with stage := .returned (.error .rename) },
      by rw [put_calls hi hcalls, if_pos rfl], rfl⟩).elim

/-! ### The files can be read -/

/-- What is asked of the keys in a document. -/
def Fine : FileName → List PublicKey → Prop
  | .contacts, keys => keys.Nodup
  | .blocked, _ => True

structure Reads (J : Documents) (s : Server) (f : FileName) : Prop where
  file : ∃ keys, s.load J f = some keys ∧ Fine f keys
  drafts : ∀ (j : ℕ) c, s.calls[j]? = some c → c.op.file = f →
    ∀ keys, c.stage.drafted = some keys → Fine f keys
  tmp : (s.holders f).Nonempty → ∀ t, (s.disk f).tmp = some t →
    ∃ keys, J.unmarshal f t = some keys ∧ Fine f keys

theorem fine_draft (hm : Moved J s c st s') (hr : s.Reads J .contacts)
    (hold : ∀ keys, c.stage.drafted = some keys → Fine c.op.file keys) :
    ∀ keys, st.drafted = some keys → Fine c.op.file keys := by
  intro keys hk
  cases hm with
  | quiet _ _ hnow _ _ => simp [hnow] at hk
  | @read contacts _ hkeys hnew =>
    cases hk
    rcases c.op with _ | _ | _
    · obtain ⟨keys, hload, hnodup⟩ := hr.file
      obtain rfl : contacts = keys := Option.some.inj (hkeys.symm.trans hload)
      exact List.nodup_append.2 ⟨hnodup, List.nodup_singleton _, by
        rintro a ha b hb rfl
        exact hnew (List.mem_singleton.1 hb ▸ ha)⟩
    · trivial
    · trivial
  | change hop _ _ =>
    rw [hop]
    trivial
  | write hstage =>
    refine hold keys ?_
    rw [hstage]
    exact hk
  | rename _ _ hnow => rcases hnow with rfl | rfl <;> simp [Stage.drafted] at hk
  | fail _ _ => simp [Stage.drafted] at hk

theorem reads_same (hi : s.calls[i]? = some c) (hcalls : s'.calls = s.calls)
    (hdisk : s'.disk f = s.disk f) (hsub : (s'.put i c st).holders f ⊆ s.holders f)
    (hown : c.op.file = f → ∀ keys, st.drafted = some keys → Fine f keys) (hr : s.Reads J f) :
    (s'.put i c st).Reads J f where
  file := by
    unfold load
    rw [put_disk, hdisk]
    exact hr.file
  drafts := forall_put hi hcalls hr.drafts hown
  tmp hne t ht := by
    rw [put_disk, hdisk] at ht
    exact hr.tmp (hne.mono hsub) t ht

theorem reads_moved (hi : s.calls[i]? = some c) (hm : Moved J s c st s')
    (hc : s.Reads J .contacts) (hr : s.Reads J f) : (s'.put i c st).Reads J f := by
  have hcalls := moved_calls hm
  have hown : c.op.file = f → ∀ keys, st.drafted = some keys → Fine f keys := by
    rintro rfl
    exact fine_draft hm hc (hr.drafts i c hi rfl)
  have hdrafts : ∀ (j : ℕ) c', (s'.put i c st).calls[j]? = some c' → c'.op.file = f →
      ∀ keys, c'.stage.drafted = some keys → Fine f keys := forall_put hi hcalls hr.drafts hown
  cases touched_of_moved hm f with
  | no hdisk hsame _ =>
    exact reads_same hi hcalls hdisk (holders_same hi hcalls hsame).subset hown hr
  | @write keys hf _ =>
    refine ⟨?_, hdrafts, fun _ t ht => ?_⟩
    · rw [load, put_disk, putFile_disk_self]
      exact hr.file
    · rw [put_disk, putFile_disk_self] at ht
      cases ht
      exact ⟨keys, J.unmarshal_marshal _ _, hown hf keys rfl⟩
  | rename hf hstage hrename _ =>
    obtain ⟨t, ht, rfl⟩ := Replaced.rename_eq_some.1 hrename
    have hne : (s.holders f).Nonempty := ⟨i, (mem_holders_own hi).2 ⟨hf, _, hstage⟩⟩
    refine ⟨?_, hdrafts, fun _ t ht => ?_⟩
    · rw [load, put_disk, putFile_disk_self]
      exact hr.tmp hne t ht
    · rw [put_disk, putFile_disk_self] at ht
      cases ht
  | fail hf _ _ =>
    subst hf
    have hrest : (s.put i c (.returned (.error .rename))).holders c.op.file
        = s.holders c.op.file \ {i} := holders_rename hi hcalls nofun
    exact reads_same hi hcalls rfl (hrest ▸ Set.sdiff_subset) hown hr

theorem reads_advance (hc : s.Reads J .contacts) (hr : s.Reads J f) (i : ℕ) :
    (s.advance J i).Reads J f := by
  rcases advance_eq J s i with h | ⟨c, st, s', hi, hm, h⟩
  · rwa [h]
  · rw [h]
    exact reads_moved hi hm hc hr

/-! ### No contact is lost -/

/-- A call that writes the contacts has read every contact that the file lists by then. -/
def KeepsListed (J : Documents) (s : Server) (i : ℕ) : Prop :=
  ∀ c ∈ s.calls[i]?, c.op = .watch → ∀ keys ∈ c.stage.unwritten,
    ∀ listed ∈ s.loadContacts J, listed ⊆ keys

/-- Every call that has written its contact, or found it there, finds it in what the file is going
to hold. -/
structure Kept (J : Documents) (s : Server) (listed : List PublicKey) : Prop where
  reads : J.read .contacts (s.current .contacts) = some listed
  file : ∀ keys, s.loadContacts J = some keys → keys ⊆ listed
  done : ∀ (j : ℕ) c, s.calls[j]? = some c → c.op = .watch →
    c.stage.Done ∨ (∃ keys, c.stage = .renaming keys) → c.pub ∈ listed
  drafts : ∀ (j : ℕ) c, s.calls[j]? = some c → c.op = .watch →
    ∀ keys, c.stage.drafted = some keys → c.pub ∈ keys

theorem drafts_moved (hm : Moved J s c st s')
    (hold : ∀ keys, c.stage.drafted = some keys → c.pub ∈ keys) (hop : c.op = .watch) :
    ∀ keys, st.drafted = some keys → c.pub ∈ keys := by
  intro keys hk
  cases hm with
  | quiet _ _ hnow _ _ => simp [hnow] at hk
  | read _ _ _ =>
    cases hk
    exact List.mem_append_right _ (List.mem_singleton_self _)
  | change hfile _ _ => simp [hop, CallOp.file] at hfile
  | write hstage =>
    refine hold keys ?_
    rw [hstage]
    exact hk
  | rename _ _ hnow => rcases hnow with rfl | rfl <;> simp [Stage.drafted] at hk
  | fail _ _ => simp [Stage.drafted] at hk

/-- A call that comes to be done without writing was so before or has found its contact. -/
theorem done_moved (hm : Moved J s c st s') (hop : c.op = .watch)
    (hnot : ∀ keys, c.stage ≠ .writing keys) (hst : st.Done ∨ ∃ keys, st = .renaming keys) :
    (c.stage.Done ∨ ∃ keys, c.stage = .renaming keys)
      ∨ ∃ keys, s.loadContacts J = some keys ∧ c.pub ∈ keys := by
  cases hm with
  | quiet _ _ hnow _ hdone =>
    rcases hst with hst | hst
    · exact (hdone hop hst).imp .inl id
    · exact (renaming_of_drafted hnow hst).elim
  | read _ _ _ => simp [Stage.Done] at hst
  | change hfile _ _ => simp [hop, CallOp.file] at hfile
  | write hstage => exact (hnot _ hstage).elim
  | rename hstage _ _ => exact .inl (.inr ⟨_, hstage⟩)
  | fail _ _ => simp [Stage.Done] at hst

theorem kept_moved {listed : List PublicKey} (hi : s.calls[i]? = some c)
    (hm : Moved J s c st s') (hs : (s'.put i c st).Settled .contacts) (hw : s.KeepsListed J i)
    (hkept : s.Kept J listed) : ∃ listed', (s'.put i c st).Kept J listed' := by
  have hcalls := moved_calls hm
  have hdrafts : ∀ (j : ℕ) c', (s'.put i c st).calls[j]? = some c' → c'.op = .watch →
      ∀ keys, c'.stage.drafted = some keys → c'.pub ∈ keys :=
    forall_put hi hcalls hkept.drafts fun hop => by
      have hown := drafts_moved hm (hkept.drafts i c hi hop) hop
      exact hown
  obtain ⟨-, heffect⟩ := effect_of_moved hi hm hs
  cases heffect with
  | same hdisk hcur hwas =>
    refine ⟨listed, ⟨hcur ▸ hkept.reads, fun keys hk => ?_, ?_, hdrafts⟩⟩
    · rw [loadContacts, load, hdisk] at hk
      exact hkept.file keys hk
    · refine forall_put hi hcalls hkept.done fun hop hst => ?_
      rcases done_moved hm hop (hwas (by rw [hop, CallOp.file])) hst with hd | ⟨keys, hk, hin⟩
      · exact hkept.done i c hi hop hd
      · exact hkept.file keys hk hin
  | @wrote keys hf hstage hcur hfile hcur' =>
    have hop : c.op = .watch := by
      rcases hop : c.op with _ | _ | _ <;> simp [hop, CallOp.file] at hf ⊢
    have hload : s.loadContacts J = some listed := by
      rw [loadContacts, load, ← hcur]
      exact hkept.reads
    have hsub : listed ⊆ keys := hw c hi hop keys (Stage.mem_unwritten.2 hstage) listed hload
    have hpub : c.pub ∈ keys := hkept.drafts i c hi hop keys (by rw [hstage, Stage.drafted])
    refine ⟨keys, ⟨?_, fun keys' hk => ?_, ?_, hdrafts⟩⟩
    · rw [hcur', Documents.read, J.unmarshal_marshal]
    · rw [loadContacts, load, hfile] at hk
      obtain rfl : listed = keys' := Option.some.inj (hload.symm.trans hk)
      exact hsub
    · exact forall_put hi hcalls (fun j c' hj hop' hd => hsub (hkept.done j c' hj hop' hd))
        fun _ _ => hpub
  | renamed hf hstage hcur hfile =>
    refine ⟨listed, ⟨hcur ▸ hkept.reads, fun keys hk => ?_, ?_, hdrafts⟩⟩
    · rw [loadContacts, load, hfile, hkept.reads] at hk
      cases hk
      exact List.Subset.refl _
    · exact forall_put hi hcalls hkept.done fun hop _ =>
        hkept.done i c hi hop (.inr ⟨_, hstage⟩)

/-! ### The block list on disk -/

/-- A call that writes its copy of the block list has the list as it is now, or another copy is
still to be written. -/
def WritesLatest (s : Server) (i : ℕ) : Prop :=
  ∀ c ∈ s.calls[i]?, c.op.file = .blocked → ∀ keys ∈ c.stage.unwritten,
    keys ⊆ s.daemon.blocked ∧ s.daemon.blocked ⊆ keys ∨
      ∃ c' ∈ s.calls.eraseIdx i, c'.op.file = .blocked ∧ c'.stage.unwritten.isSome

/-- A copy of the block list is still to be written, or what the file is going to hold is the block
list. -/
def Follows (J : Documents) (s : Server) : Prop :=
  (∃ (j : ℕ) (c : Call) (keys : List PublicKey), s.calls[j]? = some c ∧ c.op.file = .blocked
    ∧ c.stage = .writing keys) ∨
  ∃ listed, J.read .blocked (s.current .blocked) = some listed
    ∧ ∀ k, k ∈ listed ↔ k ∈ s.daemon.blocked

theorem blocked_moved (hm : Moved J s c st s') :
    s'.daemon.blocked = s.daemon.blocked ∨ c.op.file = .blocked ∧ ∃ keys, st = .writing keys := by
  cases hm with
  | quiet hd _ _ _ _ => exact .inl hd
  | change hop _ _ => exact .inr ⟨hop, _, rfl⟩
  | read _ _ _ | write _ | rename _ _ _ | fail _ _ => exact .inl rfl

theorem follows_moved (hi : s.calls[i]? = some c) (hm : Moved J s c st s')
    (hs : (s'.put i c st).Settled .blocked) (hw : s.WritesLatest i) (h : s.Follows J) :
    (s'.put i c st).Follows J := by
  have hcalls := moved_calls hm
  -- A call that stays at its write leaves the list to be written.
  have hstay : ∀ (j : ℕ) c' keys, j ≠ i → s.calls[j]? = some c' → c'.op.file = .blocked →
      c'.stage = .writing keys → (s'.put i c st).Follows J := fun j c' keys hj hc' hf hk =>
    .inl ⟨j, c', keys, by rw [put_calls hi hcalls, if_neg hj, hc'], hf, hk⟩
  rcases blocked_moved hm with hblocked | ⟨hf, keys, hk⟩
  · obtain ⟨-, heffect⟩ := effect_of_moved hi hm hs
    cases heffect with
    | same hdisk hcur hwas =>
      rcases h with ⟨j, c', keys, hj, hf, hk⟩ | ⟨listed, hlisted, hmem⟩
      · refine hstay j c' keys ?_ hj hf hk
        rintro rfl
        obtain rfl : c = c' := Option.some.inj (hi.symm.trans hj)
        exact hwas hf keys hk
      · refine .inr ⟨listed, hcur ▸ hlisted, fun k => ?_⟩
        rw [hmem, put, hblocked]
    | @wrote keys hf hstage hcur hfile hcur' =>
      rcases hw c hi hf keys (Stage.mem_unwritten.2 hstage) with hkeys | ⟨c', hc', hf', hk'⟩
      · refine .inr ⟨keys, ?_, fun k => ?_⟩
        · rw [hcur', Documents.read, J.unmarshal_marshal]
        · rw [put, hblocked]
          exact ⟨fun hk => hkeys.1 hk, fun hk => hkeys.2 hk⟩
      · obtain ⟨j, hj, hc'⟩ := List.mem_eraseIdx_iff_getElem?.1 hc'
        obtain ⟨keys', hk'⟩ := Option.isSome_iff_exists.1 hk'
        exact hstay j c' keys' hj hc' hf' (Stage.mem_unwritten.1 hk')
    | renamed hf hstage hcur hfile =>
      rcases h with ⟨j, c', keys, hj, hf, hk⟩ | ⟨listed, hlisted, hmem⟩
      · refine hstay j c' keys ?_ hj hf hk
        rintro rfl
        obtain rfl : c = c' := Option.some.inj (hi.symm.trans hj)
        simp [hstage] at hk
      · refine .inr ⟨listed, hcur ▸ hlisted, fun k => ?_⟩
        rw [hmem, put, hblocked]
  · exact .inl ⟨i, { c with stage := st }, keys, by rw [put_calls hi hcalls, if_pos rfl], hf, hk⟩

/-! ### Whole runs -/

/-- Every call that has begun has returned. -/
def AtRest (s : Server) : Prop := ∀ c ∈ s.calls, c.stage = .called ∨ ∃ r, c.stage = .returned r

/-- A daemon that has just read its files; no call has begun. -/
structure Fresh (J : Documents) (s : Server) : Prop where
  calls : ∀ c ∈ s.calls, c.stage = .called
  contacts : ∃ keys, s.loadContacts J = some keys ∧ keys.Nodup
  blocked : ∃ keys, s.loadBlocked J = some keys ∧ ∀ k, k ∈ keys ↔ k ∈ s.daemon.blocked

theorem AtRest.holders_empty (h : s.AtRest) (f : FileName) : s.holders f = ∅ := by
  refine Set.eq_empty_of_forall_notMem fun j hj => ?_
  obtain ⟨c, keys, hc, -, hstage⟩ := hj
  rcases h c (List.mem_of_getElem? hc) with hcalled | ⟨r, hr⟩
  · simp [hstage] at hcalled
  · simp [hstage] at hr

theorem AtRest.settled (h : s.AtRest) (hok : ¬ s.Failed) (f : FileName) : s.Settled f :=
  ⟨hok, h.holders_empty f ▸ Replaced.serial_empty _⟩

theorem AtRest.current (h : s.AtRest) (f : FileName) : s.current f = (s.disk f).file := by
  rw [Server.current, h.holders_empty, Replaced.current_empty]

theorem Fresh.atRest (h : s.Fresh J) : s.AtRest := fun c hc => .inl (h.calls c hc)

theorem Fresh.stage (h : s.Fresh J) {j : ℕ} (hj : s.calls[j]? = some c) : c.stage = .called :=
  h.calls c (List.mem_of_getElem? hj)

theorem Fresh.reads (h : s.Fresh J) (f : FileName) : s.Reads J f where
  file := by
    rcases f with _ | _
    · exact h.contacts
    · obtain ⟨keys, hk, -⟩ := h.blocked
      exact ⟨keys, hk, trivial⟩
  drafts j c hj hf keys hk := by simp [h.stage hj, Stage.drafted] at hk
  tmp hne := by
    rw [h.atRest.holders_empty] at hne
    exact (Set.not_nonempty_empty hne).elim

theorem run_reads (h : s.Fresh J) (moves : List ℕ) (n : ℕ) (f : FileName) :
    (s.run J (moves.take n)).Reads J f :=
  Runs.invariant (I := fun t => ∀ f, t.Reads J f) (advance J) s moves h.reads
    (fun _ i _ hr f => reads_advance (hr .contacts) (hr f) i) n f

/-- An invariant of the settled states of a run.  A state that is not settled is followed by none
that is. -/
theorem run_settled {I : Server → Prop} {C : Server → ℕ → Prop} (moves : List ℕ) (init : I s)
    (hC : ∀ n i, moves[n]? = some i → C (s.run J (moves.take n)) i)
    (hstep : ∀ {t : Server} {i : ℕ} {c : Call} {st : Stage} {t' : Server}, t.calls[i]? = some c →
      Moved J t c st t' → (t'.put i c st).Settled f → C t i → I t → I (t'.put i c st))
    (n : ℕ) : (s.run J (moves.take n)).Settled f → I (s.run J (moves.take n)) := by
  refine Runs.invariant (I := fun t => t.Settled f → I t) (advance J) s moves (fun _ => init)
    (fun n i hmove ih => ?_) n
  rcases advance_eq J ((moves.take n).foldl (advance J) s) i with h | ⟨c, st, t', hi, hm, h⟩
  · rwa [h]
  · rw [h]
    intro hs
    exact hstep hi hm hs (hC n i hmove) (ih (effect_of_moved hi hm hs).1)

theorem Fresh.kept (h : s.Fresh J) : ∃ listed, s.Kept J listed := by
  obtain ⟨keys, hk, -⟩ := h.contacts
  refine ⟨keys, ⟨?_, fun keys' hk' => ?_, fun j c hj _ hst => ?_, fun j c hj _ keys hd => ?_⟩⟩
  · rw [h.atRest.current]
    exact hk
  · rw [hk] at hk'
    cases hk'
    exact List.Subset.refl _
  · simp [h.stage hj, Stage.Done] at hst
  · simp [h.stage hj, Stage.drafted] at hd

theorem Fresh.follows (h : s.Fresh J) : s.Follows J := by
  obtain ⟨keys, hk, hmem⟩ := h.blocked
  refine .inr ⟨keys, ?_, hmem⟩
  rw [h.atRest.current]
  exact hk

theorem restart_eq {blocked contacts : List PublicKey} (hb : s.loadBlocked J = some blocked)
    (hc : s.loadContacts J = some contacts) :
    s.restart J = some (Daemon.newMail s.daemon.db blocked contacts) := by
  unfold restart
  rw [hb, hc]

theorem mem_foldl_boxFor {k : PublicKey} : ∀ (keys : List PublicKey) (d : Daemon),
    k ∈ d.boxes ∨ k ∈ keys → k ∈ (keys.foldl Daemon.boxFor d).boxes
  | [], _, h => h.resolve_right List.not_mem_nil
  | key :: keys, d, h => by
    refine mem_foldl_boxFor keys (d.boxFor key) ?_
    rcases h with h | h
    · refine .inl ?_
      rcases d.boxFor_cases key with heq | heq <;> rw [heq]
      · exact h
      · exact (AList.mem_insert _).2 (.inr h)
    · rcases List.mem_cons.1 h with rfl | h
      · exact .inl (d.mem_boxFor k)
      · exact .inr h

/-- In every run the contacts can be read and list nobody twice.  If no call writes over a contact
that it has not read, then where every call has returned and no rename has failed, every contact
whose call succeeded is listed, and a daemon started from the files has its mailbox. -/
theorem watched_contacts_listed (J : Documents) (s : Server) (h : s.Fresh J) (moves : List ℕ)
    (n : ℕ) :
    ∃ contacts, (s.run J (moves.take n)).loadContacts J = some contacts ∧ contacts.Nodup ∧
      ((∀ m i, moves[m]? = some i → (s.run J (moves.take m)).KeepsListed J i) →
        (s.run J (moves.take n)).AtRest → ¬ (s.run J (moves.take n)).Failed →
        ∀ c ∈ (s.run J (moves.take n)).calls, c.op = .watch → c.stage = .returned (.ok ()) →
          c.pub ∈ contacts ∧
            ∃ d, (s.run J (moves.take n)).restart J = some d ∧ c.pub ∈ d.boxes) := by
  obtain ⟨contacts, hload, hnodup⟩ := (run_reads h moves n .contacts).file
  obtain ⟨blocked, hblocked, -⟩ := (run_reads h moves n .blocked).file
  refine ⟨contacts, hload, hnodup, fun hkeeps hrest hok c hc hop hstage => ?_⟩
  obtain ⟨j, hj⟩ := List.mem_iff_getElem?.1 hc
  obtain ⟨listed, hkept⟩ := run_settled (I := fun t => ∃ listed, t.Kept J listed) moves h.kept
    hkeeps (fun hi hm hs hw ⟨_, hk⟩ => kept_moved hi hm hs hw hk) n (hrest.settled hok .contacts)
  have hreads := hkept.reads
  rw [hrest.current] at hreads
  obtain rfl : listed = contacts := Option.some.inj (hreads.symm.trans hload)
  have hin : c.pub ∈ listed := hkept.done j c hj hop (.inl (.inr hstage))
  exact ⟨hin, _, restart_eq hblocked hload, mem_foldl_boxFor listed _ (.inr hin)⟩

/-- If no call writes a copy of the block list that is out of date while no other copy is to be
written, then where every call has returned and no rename has failed, the block list on disk is the
one in memory, and so is that of a daemon started from the files. -/
theorem block_list_persisted (J : Documents) (s : Server) (h : s.Fresh J) (moves : List ℕ)
    (hlatest : ∀ m i, moves[m]? = some i → (s.run J (moves.take m)).WritesLatest i) (n : ℕ)
    (hrest : (s.run J (moves.take n)).AtRest) (hok : ¬ (s.run J (moves.take n)).Failed) :
    ∃ blocked, (s.run J (moves.take n)).loadBlocked J = some blocked ∧
      (∀ k, k ∈ blocked ↔ k ∈ (s.run J (moves.take n)).daemon.blocked) ∧
      ∃ d, (s.run J (moves.take n)).restart J = some d ∧
        ∀ k, d.isBlocked k = (s.run J (moves.take n)).daemon.isBlocked k := by
  obtain ⟨contacts, hload, -⟩ := (run_reads h moves n .contacts).file
  have hfollows := run_settled (I := Follows J) moves h.follows hlatest
    (fun hi hm hs hw hk => follows_moved hi hm hs hw hk) n (hrest.settled hok .blocked)
  rcases hfollows with ⟨j, c, keys, hj, -, hk⟩ | ⟨listed, hlisted, hmem⟩
  · rcases hrest c (List.mem_of_getElem? hj) with hcalled | ⟨r, hr⟩
    · simp [hk] at hcalled
    · simp [hk] at hr
  · rw [hrest.current] at hlisted
    refine ⟨listed, hlisted, hmem, _, restart_eq hlisted hload, fun k => ?_⟩
    unfold Daemon.isBlocked
    rw [(Daemon.newMail_blocked _ _ _).1]
    exact decide_eq_decide.2 (hmem k)

/-! ### A call that is left alone -/

/-- The next move of a call, the stage it is in carried along. -/
def alone (J : Documents) (c : Call) (x : Stage × Server) : Stage × Server :=
  x.2.move J { c with stage := x.1 }

theorem move_put {c' : Call} : (s.put i c st).move J c'
    = ((s.move J c').1, (s.move J c').2.put i c st) := by
  unfold move
  rcases c'.stage with _ | _ | _ | keys | keys | _ | r
  · rcases c'.op with _ | _ | _
    · rfl
    · by_cases h : s.daemon.isBlocked c'.pub <;> simp [put, change, h]
    · by_cases h : s.daemon.isBlocked c'.pub <;> simp [put, change, h]
  · rfl
  · dsimp only [put, loadContacts, load]
    split
    · rfl
    · split_ifs <;> rfl
  · rfl
  · dsimp only [put]
    split <;> rfl
  · rfl
  · rfl

theorem alone_calls (n : ℕ) (x : Stage × Server) : ((alone J c)^[n] x).2.calls = x.2.calls := by
  induction n generalizing x with
  | zero => rfl
  | succ n ih =>
    rw [Function.iterate_succ_apply, ih]
    exact moved_calls (move_moved J x.2 _)

theorem run_alone (hi : s.calls[i]? = some c) (n : ℕ) : s.run J (List.replicate n i)
    = ((alone J c)^[n] (c.stage, s)).2.put i c ((alone J c)^[n] (c.stage, s)).1 := by
  induction n with
  | zero =>
    obtain ⟨hlt, rfl⟩ := List.getElem?_eq_some_iff.1 hi
    exact congrArg (fun calls => ({ s with calls } : Server)) (List.set_getElem_self hlt).symm
  | succ n ih =>
    have hown : (((alone J c)^[n] (c.stage, s)).2.put i c
        ((alone J c)^[n] (c.stage, s)).1).calls[i]?
          = some { c with stage := ((alone J c)^[n] (c.stage, s)).1 } := by
      rw [put_calls hi (alone_calls n _), if_pos rfl]
    have hrun : s.run J (List.replicate (n + 1) i)
        = (s.run J (List.replicate n i)).advance J i := by
      rw [run, List.replicate_succ', List.foldl_append]
      rfl
    rw [hrun, ih, Function.iterate_succ_apply', advance, hown]
    simp only [move_put, alone]
    simp [put]

/-- The two file operations of a call that is left alone. -/
theorem alone_persist {keys : List PublicKey} : alone J c (alone J c (.writing keys, s))
    = (if c.op = .watch then .listed else .returned (.ok ()), s.putFile c.op.file
        { file := some (J.marshal c.op.file keys), tmp := none }) := by
  simp [alone, move, Replaced.write, Replaced.rename, putFile]

theorem boxFor_contactsFile (d : Daemon) (p : PublicKey) :
    (d.boxFor p).contactsFile = d.contactsFile := by
  rcases d.boxFor_cases p with h | h <;> rw [h]

/-- A call of `Watch` that is left alone does what `Daemon.watch` does. -/
theorem watch_alone {p : PublicKey} (hi : s.calls[i]? = some ⟨.watch, p, .called⟩)
    (hload : s.loadContacts J = some s.daemon.contactsFile) :
    (s.run J (List.replicate 6 i)).loadContacts J = some (s.daemon.watch true p).2.contactsFile ∧
      { (s.run J (List.replicate 6 i)).daemon with
        contactsFile := (s.daemon.watch true p).2.contactsFile } = (s.daemon.watch true p).2 := by
  rw [run_alone hi]
  simp only [Function.iterate_succ_apply, Function.iterate_zero, id]
  by_cases hb : s.daemon.isBlocked p = true
  · simp only [alone, move, hb, if_true, Daemon.watch]
    exact ⟨hload, rfl⟩
  · have hboxed : loadContacts J { s with daemon := s.daemon.boxFor p }
        = some s.daemon.contactsFile := hload
    have hread : alone J ⟨.watch, p, .called⟩ (alone J ⟨.watch, p, .called⟩
        (alone J ⟨.watch, p, .called⟩ (.called, s)))
        = (if p ∈ s.daemon.contactsFile then .listed
            else .writing (s.daemon.contactsFile ++ [p]),
          { s with daemon := s.daemon.boxFor p }) := by
      simp only [alone, move, hb]
      simp [hboxed]
      split_ifs <;> rfl
    rw [hread]
    by_cases hin : p ∈ s.daemon.contactsFile
    · have hwatch : (s.daemon.watch true p).2 = (s.daemon.boxFor p).presenceWatch p := by
        simp [Daemon.watch, hb, boxFor_contactsFile, hin]
      rw [if_pos hin, hwatch]
      exact ⟨hload.trans (congrArg some (boxFor_contactsFile _ _).symm), rfl⟩
    · have hwatch : (s.daemon.watch true p).2 = ({ s.daemon.boxFor p with
          contactsFile := s.daemon.contactsFile ++ [p] } : Daemon).presenceWatch p := by
        simp [Daemon.watch, hb, boxFor_contactsFile, hin]
      rw [if_neg hin, alone_persist, hwatch]
      refine ⟨?_, rfl⟩
      simp [loadContacts, load, alone, move, putFile, CallOp.file, Documents.read,
        J.unmarshal_marshal, Daemon.presenceWatch]

theorem sortedBlockedLocked_perm (d : Daemon) : d.sortedBlockedLocked.Perm d.blocked :=
  List.perm_insertionSort _ _

theorem change_alone (hop : c.op.file = .blocked) (blocked : List PublicKey) :
    (alone J c (alone J c (s.change blocked))).2.daemon.blocked = blocked ∧
      ∃ keys, (alone J c (alone J c (s.change blocked))).2.loadBlocked J = some keys ∧
        keys.Perm blocked := by
  unfold change
  rw [alone_persist, hop]
  refine ⟨rfl, _, ?_, sortedBlockedLocked_perm { s.daemon with blocked }⟩
  simp [loadBlocked, load, Documents.read, J.unmarshal_marshal]

/-- A call of `Block` that is left alone does what `Daemon.block` does, the file in order. -/
theorem block_alone {p : PublicKey} (hi : s.calls[i]? = some ⟨.block, p, .called⟩)
    (hload : ∃ keys, s.loadBlocked J = some keys ∧ keys.Perm s.daemon.blockedFile) :
    (s.run J (List.replicate 3 i)).daemon.blocked = (s.daemon.block true p).2.blocked ∧
      ∃ keys, (s.run J (List.replicate 3 i)).loadBlocked J = some keys ∧
        keys.Perm (s.daemon.block true p).2.blockedFile := by
  rw [run_alone hi]
  simp only [Function.iterate_succ_apply, Function.iterate_zero, id]
  by_cases hb : p ∈ s.daemon.blocked
  · have hblocked : s.daemon.isBlocked p = true := decide_eq_true hb
    simp only [alone, move, Daemon.block, hb, hblocked, if_true]
    exact ⟨rfl, hload⟩
  · have hfirst : alone J ⟨.block, p, .called⟩ (.called, s)
        = s.change (s.daemon.blocked ++ [p]) := if_neg fun h => hb (of_decide_eq_true h)
    have hblock : (s.daemon.block true p).2.blocked = s.daemon.blocked ++ [p] ∧
        (s.daemon.block true p).2.blockedFile = s.daemon.blocked ++ [p] := by
      simp [Daemon.block, hb, Daemon.persistBlocked]
    rw [hfirst, hblock.1, hblock.2]
    exact change_alone rfl _

theorem unblock_alone {p : PublicKey} (hi : s.calls[i]? = some ⟨.unblock, p, .called⟩)
    (hload : ∃ keys, s.loadBlocked J = some keys ∧ keys.Perm s.daemon.blockedFile) :
    (s.run J (List.replicate 3 i)).daemon.blocked = (s.daemon.unblock true p).2.blocked ∧
      ∃ keys, (s.run J (List.replicate 3 i)).loadBlocked J = some keys ∧
        keys.Perm (s.daemon.unblock true p).2.blockedFile := by
  rw [run_alone hi]
  simp only [Function.iterate_succ_apply, Function.iterate_zero, id]
  by_cases hb : p ∈ s.daemon.blocked
  · have hfirst : alone J ⟨.unblock, p, .called⟩ (.called, s)
        = s.change (s.daemon.blocked.filter fun k => k ≠ p) :=
      if_neg (not_not.2 (decide_eq_true hb))
    have hblock : (s.daemon.unblock true p).2.blocked = s.daemon.blocked.filter (fun k => k ≠ p) ∧
        (s.daemon.unblock true p).2.blockedFile = s.daemon.blocked.filter fun k => k ≠ p := by
      simp [Daemon.unblock, hb, Daemon.persistBlocked]
    rw [hfirst, hblock.1, hblock.2]
    exact change_alone rfl _
  · have hnot : s.daemon.isBlocked p = false := decide_eq_false hb
    simp only [alone, move, Daemon.unblock, hb, hnot]
    exact ⟨rfl, hload⟩

/-! ### Two calls at once -/

def ones : PublicKey := List.replicate 32 1

def twos : PublicKey := List.replicate 32 2

/-- A new daemon with two calls to make. -/
def fresh (first second : Call) : Server :=
  { daemon := {}, disk := fun _ => {}, calls := [first, second] }

instance : Decidable (KeepsListed J s i) :=
  inferInstanceAs (Decidable (∀ c ∈ s.calls[i]?, c.op = .watch → ∀ keys ∈ c.stage.unwritten,
    ∀ listed ∈ s.loadContacts J, listed ⊆ keys))

instance : Decidable (WritesLatest s i) :=
  inferInstanceAs (Decidable (∀ c ∈ s.calls[i]?, c.op.file = .blocked →
    ∀ keys ∈ c.stage.unwritten, keys ⊆ s.daemon.blocked ∧ s.daemon.blocked ⊆ keys ∨
      ∃ c' ∈ s.calls.eraseIdx i, c'.op.file = .blocked ∧ c'.stage.unwritten.isSome))

theorem fresh_fresh (a b : CallOp) (p q : PublicKey) :
    (fresh ⟨a, p, .called⟩ ⟨b, q, .called⟩).Fresh .golang where
  calls := by simp [fresh]
  contacts := ⟨[], rfl, List.nodup_nil⟩
  blocked := ⟨[], rfl, fun _ => Iff.rfl⟩

def twoWatches : Server := fresh ⟨.watch, ones, .called⟩ ⟨.watch, twos, .called⟩

/-- One call after the other. -/
def inTurn : List ℕ := [0, 0, 0, 0, 0, 0, 1, 1, 1, 1, 1, 1]

/-- All calls have returned without an error. -/
theorem atRest_of_ok (h : ∀ c ∈ s.calls, c.stage = .returned (.ok ())) :
    s.AtRest ∧ ¬ s.Failed := by
  refine ⟨fun c hc => .inr ⟨_, h c hc⟩, ?_⟩
  rintro ⟨j, c, hj, hstage⟩
  simp [h c (List.mem_of_getElem? hj)] at hstage

theorem watched_contacts_listed_in_turn :
    ∃ contacts, (twoWatches.run .golang inTurn).loadContacts .golang = some contacts ∧
      contacts.Nodup ∧ ones ∈ contacts ∧ twos ∈ contacts := by
  obtain ⟨contacts, hload, hnodup, hin⟩ := watched_contacts_listed .golang twoWatches
    (fresh_fresh .watch .watch ones twos) inTurn inTurn.length
  rw [List.take_length] at hload hin
  obtain ⟨hrest, hok⟩ := atRest_of_ok (s := twoWatches.run .golang inTurn) (by decide +kernel)
  have hlisted := hin (Runs.forall_moves (by decide +kernel)) hrest hok
  refine ⟨contacts, hload, hnodup, ?_, ?_⟩
  · exact (hlisted ⟨.watch, ones, .returned (.ok ())⟩ (by decide +kernel) rfl rfl).1
  · exact (hlisted ⟨.watch, twos, .returned (.ok ())⟩ (by decide +kernel) rfl rfl).1

/-- The second call writes the list it read before the first call added its contact. -/
theorem watched_contact_lost :
    let s := twoWatches.run .golang [0, 0, 0, 1, 1, 1, 0, 0, 0, 1, 1, 1]
    twoWatches.Fresh .golang ∧ s.AtRest ∧ ¬ s.Failed ∧
      ⟨.watch, ones, .returned (.ok ())⟩ ∈ s.calls ∧ s.loadContacts .golang = some [twos] ∧
      ones ∉ [twos] := by
  intro s
  obtain ⟨hrest, hok⟩ := atRest_of_ok (s := s) (by decide +kernel)
  exact ⟨fresh_fresh .watch .watch ones twos, hrest, hok, by decide +kernel, by decide +kernel,
    by decide⟩

def twoBlocks : Server := fresh ⟨.block, ones, .called⟩ ⟨.block, twos, .called⟩

theorem block_list_persisted_in_turn :
    ∃ blocked, (twoBlocks.run .golang [0, 1, 0, 0, 1, 1]).loadBlocked .golang = some blocked ∧
      ∀ k, k ∈ blocked ↔ k ∈ [ones, twos] := by
  obtain ⟨hrest, hok⟩ := atRest_of_ok (s := twoBlocks.run .golang [0, 1, 0, 0, 1, 1])
    (by decide +kernel)
  obtain ⟨blocked, hload, hmem, -⟩ := block_list_persisted .golang twoBlocks
    (fresh_fresh .block .block ones twos) [0, 1, 0, 0, 1, 1]
    (Runs.forall_moves (by decide +kernel)) 6 hrest hok
  refine ⟨blocked, hload, fun k => ?_⟩
  have hblocked : (twoBlocks.run .golang [0, 1, 0, 0, 1, 1]).daemon.blocked = [ones, twos] := by
    decide +kernel
  rw [← hblocked]
  exact hmem k

/-- The first call writes its copy of the list last. -/
theorem block_forgotten :
    let s := twoBlocks.run .golang [0, 1, 1, 1, 0, 0]
    twoBlocks.Fresh .golang ∧ s.AtRest ∧ ¬ s.Failed ∧ s.loadBlocked .golang = some [ones] ∧
      s.daemon.isBlocked twos = true ∧ twos ∉ [ones] := by
  intro s
  obtain ⟨hrest, hok⟩ := atRest_of_ok (s := s) (by decide +kernel)
  exact ⟨fresh_fresh .block .block ones twos, hrest, hok, by decide +kernel, by decide +kernel,
    by decide⟩

end Server

end Aimless
