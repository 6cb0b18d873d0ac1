import Aimless.Proofs.Dismiss
import Aimless.Lib.Runs

/-!
# Dismissed messages

Once a dismissal has been applied, the cursors of the members are past what the daemon held when it
was read, so a response fetched from then on holds none of it.  A response that was fetched before
and is applied after brings it back (`stale_response_brings_back`).  In every run in which no such
response holds a dismissed message, what was dismissed never comes back (`dismissed_stay_gone`).
-/

namespace Aimless

open Python (Str Exc Json Dict)

namespace Sync

/-- A cursor never goes down. -/
theorem le_apply_cursor (L : Libs) (st : Store) (peer q : Text) (msgs : List HistoryMsg) :
    st.cursor q ≤ (apply L st peer msgs).2.cursor q := by
  by_cases hq : q = peer
  · subst hq
    have hloop := (applyLoop_messages L q msgs st (st.cursor q) 0).2
    unfold apply
    dsimp only
    split
    · rename_i heq
      rw [heq] at hloop
      rw [Store.cursor_congr hloop]
    · rename_i maxSeen added st' heq
      rw [heq] at hloop
      have hc := Store.cursor_congr hloop q
      dsimp only at hc
      split
      · by_cases hlt : maxSeen < 2 ^ 63
        · obtain ⟨st₂, hset, -, hmax⟩ := Store.setCursor_of_lt st' q hlt
          rw [hset]
          dsimp only
          rw [hmax, hc]
          exact le_max_left _ _
        · rw [Store.setCursor_of_ge st' q hlt]
          exact hc.ge
      · exact hc.ge
  · rw [apply_cursor_ne L st hq]

end Sync

namespace Pane

variable {L : Libs} {C : Config} {w : Pane}

/-- The messages of a dismissed conversation that the daemon held when the latest seq of their
sender was read are not in the store. -/
def Gone (w : Pane) : Prop :=
  ∀ D ∈ w.dismissed, ∀ e ∈ D.latests, ∀ key, decodeKey e.1.1 = .ok key →
    ∀ r ∈ e.2, r.peer = key → ∀ m ∈ w.store.messages, m.conv = D.conv →
      m.id ≠ messageId e.1.1 r.seq.toUInt64.toNat

/-- A response that is applied holds no message of a conversation whose dismissal was applied since
it was fetched, at or below the latest seq that the dismissal read. -/
def NotStale (L : Libs) (w : Pane) : PaneMove → Prop
  | .apply i => ∀ r ∈ w.responses[i]?, ∀ k < w.dismissed.length, r.after ≤ k →
    ∀ D ∈ w.dismissed[k]?, ∀ e ∈ D.latests, e.1.1 = r.peer → ∀ m ∈ r.msgs,
      ∀ row ∈ (Sync.entryRow L r.peer m).join, row.conv = D.conv → e.1.2.toInt64 < m.seq.toInt64
  | _ => True

instance (L : Libs) (w : Pane) : (mv : PaneMove) → Decidable (NotStale L w mv)
  | .apply i => inferInstanceAs (Decidable (∀ r ∈ w.responses[i]?, _))
  | .daemon _ | .fetch _ _ | .dismiss _ _ _ | .read _ _ | .finish _ => isTrue trivial

/-- What was read of a member: its latest seq is the largest it had. -/
def ReadOf (e : (Text × UInt64) × List InboxRow) : Prop :=
  ∃ key, decodeKey e.1.1 = .ok key ∧ ∀ r ∈ e.2, r.peer = key → r.seq ≤ e.1.2.toInt64

structure Inv (w : Pane) : Prop where
  gone : Gone w
  readings : ∀ rd ∈ w.readings, ∀ e ∈ rd.latests, ReadOf e
  dismissed : ∀ D ∈ w.dismissed, ∀ e ∈ D.latests,
    ReadOf e ∧ e.1.2.toNat ≤ w.store.cursor e.1.1
  responses : ∀ r ∈ w.responses, (∃ key, decodeKey r.peer = .ok key)
    ∧ r.after ≤ w.dismissed.length
    ∧ ∀ k < r.after, ∀ D ∈ w.dismissed[k]?, ∀ e ∈ D.latests, e.1.1 = r.peer →
      ∀ m ∈ r.msgs, e.1.2.toInt64 < m.seq.toInt64

theorem Inv.init : Inv {} :=
  ⟨by simp [Gone], by simp, by simp, by simp⟩

/-- A latest seq below a cursor is below the seqs above the cursor. -/
theorem toInt64_lt_of_cursor {st : Store} {peer : Text} {latest : UInt64} {s : Int64}
    (hle : latest.toNat ≤ st.cursor peer) (hlt : (UInt64.ofNat (st.cursor peer)).toInt64 < s) :
    latest.toInt64 < s := by
  have hcur := st.cursor_lt peer
  rw [Int64.lt_iff_toInt_lt, Sync.toInt_cursor] at hlt
  rw [Int64.lt_iff_toInt_lt, toInt_toInt64 (by omega)]
  omega

/-! ### The moves -/

theorem Inv.daemon (I : Inv w) (daemon : Daemon) : Inv { w with daemon } :=
  ⟨I.gone, I.readings, I.dismissed, I.responses⟩

theorem Inv.fetch (I : Inv w) (now : ℤ) (peer : Text) : Inv (w.fetch C now peer) := by
  unfold Pane.fetch
  obtain ⟨d', -, ⟨e, hf, -⟩ | ⟨hkey, hf⟩⟩ := Sync.fetch_tail C now w.daemon w.store peer
  · rw [hf]
    exact I.daemon d'
  rw [hf]
  refine ⟨I.gone, I.readings, I.dismissed, fun r hr => ?_⟩
  rcases List.mem_append.1 hr with hr | hr
  · exact I.responses r hr
  rw [List.mem_singleton.1 hr]
  refine ⟨hkey, le_rfl, fun k _ D hD e he hpeer m hm => ?_⟩
  dsimp only at hpeer hm
  obtain ⟨key, -, row, -, -, hlt, rfl⟩ := Sync.mem_tail.1 hm
  obtain ⟨-, hle⟩ := I.dismissed D (List.mem_of_getElem? hD) e he
  rw [hpeer] at hle
  have hseq : (Sync.entryOf row).seq.toInt64 = row.seq := Int64.toInt64_toUInt64 row.seq
  rw [hseq]
  exact toInt64_lt_of_cursor hle hlt

theorem Inv.apply (I : Inv w) {i : ℕ} (hfresh : NotStale L w (.apply i)) : Inv (w.apply L i) := by
  unfold Pane.apply
  split
  · exact I
  rename_i r hr
  have hmem : r ∈ w.responses := List.mem_of_getElem? hr
  obtain ⟨⟨rkey, hrkey⟩, hafter, hold⟩ := I.responses r hmem
  refine ⟨?_, I.readings, ?_, fun r' hr' => I.responses r' (List.mem_of_mem_eraseIdx hr')⟩
  · intro D hD e he key hkey row hrow hpeer m hm hconv hid
    dsimp only at hm
    rw [Sync.apply_messages] at hm
    rcases Table.mem_insertAll Message.id hm with hm | hm
    · exact I.gone D hD e he key hkey row hrow hpeer m hm hconv hid
    -- A row of the response: its entry was dismissed, or fetched above the latest seq.
    obtain ⟨entry, hentry, hentryRow⟩ := Sync.mem_tailRows hm
    rw [Sync.entryRow_id hentryRow, messageId_eq_iff] at hid
    obtain ⟨hpeer', hseq⟩ := hid
    have hseq : entry.seq = row.seq.toUInt64 := UInt64.toNat.inj hseq
    obtain ⟨k, hk, hDk⟩ := List.mem_iff_getElem.1 hD
    have hDk : w.dismissed[k]? = some D := by rw [List.getElem?_eq_getElem hk, hDk]
    have hlt : e.1.2.toInt64 < entry.seq.toInt64 := by
      by_cases hka : k < r.after
      · exact hold k hka D hDk e he hpeer'.symm entry hentry
      · exact hfresh r hr k hk (not_lt.1 hka) D hDk e he hpeer'.symm entry hentry m
          (by rw [hentryRow]; rfl) hconv
    obtain ⟨⟨key', hkey', hle⟩, -⟩ := I.dismissed D hD e he
    rw [hkey] at hkey'
    cases hkey'
    have hle := hle row hrow hpeer
    rw [hseq, Int64.toInt64_toUInt64] at hlt
    exact absurd hlt (Int64.not_lt.2 hle)
  · intro D hD e he
    obtain ⟨hread, hle⟩ := I.dismissed D hD e he
    exact ⟨hread, hle.trans (Sync.le_apply_cursor L w.store r.peer e.1.1 r.msgs)⟩

theorem Inv.read (I : Inv w) (now : ℤ) (i : ℕ) : Inv (w.read C now i) := by
  unfold Pane.read
  split
  · exact I
  rename_i rd hrd
  have hmem : rd ∈ w.readings := List.mem_of_getElem? hrd
  split
  · exact I
  rename_i node todo htodo
  obtain ⟨d', -, ⟨e, e', -, hread⟩ | ⟨key, hkey, hread⟩⟩ := Sync.readLatest_spec C now w.daemon node
  · rw [hread]
    exact ⟨I.gone, fun rd' hrd' => I.readings rd' (List.mem_of_mem_eraseIdx hrd'), I.dismissed,
      I.responses⟩
  rw [hread]
  refine ⟨I.gone, fun rd' hrd' e he => ?_, I.dismissed, I.responses⟩
  rcases List.mem_or_eq_of_mem_set hrd' with hrd' | rfl
  · exact I.readings rd' hrd' e he
  rcases List.mem_append.1 he with he | he
  · exact I.readings rd hmem e he
  rw [List.mem_singleton.1 he]
  refine ⟨key, hkey, fun r hr hpeer => ?_⟩
  have hlatest : Sync.latestOf C w.daemon.db node = (Daemon.inboxOf C key).latest w.daemon.db := by
    rw [Sync.latestOf, hkey]
  rw [hlatest]
  exact Sync.le_latest hr hpeer

theorem Inv.finish (I : Inv w) (i : ℕ) : Inv (w.finish i) := by
  unfold Pane.finish
  split
  · exact I
  rename_i rd hrd
  have hmem : rd ∈ w.readings := List.mem_of_getElem? hrd
  split
  · exact I
  obtain ⟨hmsgs, hcur, hle, hok⟩ := w.store.dismiss_spec rd.kind rd.conv (rd.latests.map Prod.fst)
  have hmono : ∀ q, w.store.cursor q
      ≤ (w.store.dismiss rd.kind rd.conv (rd.latests.map Prod.fst)).2.cursor q :=
    w.store.le_dismiss_cursor rd.kind rd.conv (rd.latests.map Prod.fst)
  -- What was gone is gone, and the cursors are not lower.
  have hgone : ∀ {store : Store}, store.messages ⊆ w.store.messages → Gone { w with store } := by
    intro store hsub D hD e he key hkey r hr hpeer m hm
    exact I.gone D hD e he key hkey r hr hpeer m (hsub hm)
  have hsub : (w.store.dismiss rd.kind rd.conv (rd.latests.map Prod.fst)).2.messages
      ⊆ w.store.messages := by
    rw [hmsgs]
    exact List.filter_subset_self _
  have hdismissed : ∀ D ∈ w.dismissed, ∀ e ∈ D.latests, ReadOf e ∧ e.1.2.toNat
      ≤ (w.store.dismiss rd.kind rd.conv (rd.latests.map Prod.fst)).2.cursor e.1.1 :=
    fun D hD e he => ⟨(I.dismissed D hD e he).1, (I.dismissed D hD e he).2.trans (hmono _)⟩
  have hreadings : ∀ rd' ∈ w.readings.eraseIdx i, ∀ e ∈ rd'.latests, ReadOf e :=
    fun rd' hrd' => I.readings rd' (List.mem_of_mem_eraseIdx hrd')
  dsimp only
  split
  · rename_i e store heq
    rw [heq] at hsub hdismissed
    exact ⟨hgone hsub, hreadings, hdismissed, I.responses⟩
  · rename_i store heq
    rw [heq] at hsub hdismissed hmsgs hle hok
    have hall := hok rfl
    refine ⟨?_, hreadings, fun D hD e he => ?_, fun r hr => ?_⟩
    · intro D hD e he key hkey r hr hpeer m hm hconv
      rcases List.mem_append.1 hD with hD | hD
      · exact hgone hsub D hD e he key hkey r hr hpeer m hm hconv
      · -- The conversation is empty.
        rw [List.mem_singleton.1 hD] at hconv
        dsimp only at hm
        rw [hmsgs] at hm
        simp [hconv] at hm
    · rcases List.mem_append.1 hD with hD | hD
      · exact hdismissed D hD e he
      · rw [List.mem_singleton.1 hD] at he
        refine ⟨I.readings rd hmem e he, hle e.1 ?_⟩
        rw [hall]
        exact List.mem_map_of_mem he
    · obtain ⟨hkey, hafter, hold⟩ := I.responses r hr
      refine ⟨hkey, by simp; omega, fun k hk D hD => hold k hk D ?_⟩
      rwa [List.getElem?_append_left (by omega)] at hD

theorem Inv.step (I : Inv w) {mv : PaneMove} (hfresh : NotStale L w mv) : Inv (w.step L C mv) := by
  cases mv with
  | daemon op => exact I.daemon _
  | fetch now peer => exact I.fetch now peer
  | apply i => exact I.apply hfresh
  | dismiss kind conv nodes =>
    refine ⟨I.gone, fun rd hrd => ?_, I.dismissed, I.responses⟩
    rcases List.mem_append.1 hrd with hrd | hrd
    · exact I.readings rd hrd
    · rw [List.mem_singleton.1 hrd]
      simp
  | read now i => exact I.read now i
  | finish i => exact I.finish i

/-! ### Whole runs -/

theorem run_inv {moves : List PaneMove}
    (h : ∀ n < moves.length, ∀ mv ∈ moves[n]?, NotStale L (run L C (moves.take n)) mv) (n : ℕ) :
    Inv (run L C (moves.take n)) := by
  refine Runs.invariant (step L C) {} moves Inv.init (fun n mv hmv ih => ?_) n
  have hn : n < moves.length := (List.getElem?_eq_some_iff.1 hmv).1
  exact ih.step (h n hn mv hmv)

/-- In every run in which no response that was fetched before a dismissal and applied after it holds
a dismissed message, nothing that was dismissed is in the store again, in any state reached. -/
theorem dismissed_stay_gone (L : Libs) (C : Config) (moves : List PaneMove)
    (h : ∀ n < moves.length, ∀ mv ∈ moves[n]?, NotStale L (run L C (moves.take n)) mv) :
    ∀ n ≤ moves.length, Gone (run L C (moves.take n)) :=
  fun n _ => (run_inv h n).gone

/-- A greeting with the given seq arrives at the daemon. -/
def greetingArrives (seq : UInt64) : PaneMove :=
  .daemon (.packet 0 (List.replicate 32 7)
    ((Envelope.encode ⟨envelopeVersion, typeMsg, seq, 0, List.replicate 48 0⟩).toOption.getD []))

def greeter : Text := Hex.encode (List.replicate 32 7)

/-- The conversation is cleared between two syncs, and only the later greeting is there. -/
theorem dismissed_stay_gone_between :
    let C : Config := ⟨10, 0, 0, 0, 65555⟩
    let moves : List PaneMove := [greetingArrives 1, .fetch 0 greeter, .apply 0,
      .dismiss .clearHistory (Python.str greeter) [greeter], .read 0 0, .finish 0,
      greetingArrives 2, .fetch 0 greeter, .apply 0]
    ((run Desk.greetingLibs C moves).store.messages.map (·.id) = [messageId greeter 2])
      ∧ (run Desk.greetingLibs C moves).dismissed.length = 1
      ∧ Gone (run Desk.greetingLibs C moves) := by
  intro C moves
  refine ⟨by decide +kernel, by decide +kernel, ?_⟩
  exact dismissed_stay_gone Desk.greetingLibs C moves (by decide +kernel) 9 (by decide)

/-- The response is fetched before the conversation is cleared and applied after. -/
theorem stale_response_brings_back :
    let C : Config := ⟨10, 0, 0, 0, 65555⟩
    let moves : List PaneMove := [greetingArrives 1, .fetch 0 greeter,
      .dismiss .clearHistory (Python.str greeter) [greeter], .read 0 0, .finish 0, .apply 0]
    ¬ Gone (run Desk.greetingLibs C moves) := by
  intro C moves h
  have hdismissed : (run Desk.greetingLibs C moves).dismissed.map (fun D => (D.conv, D.latests))
      = [(Python.str greeter,
        [((greeter, 1), [⟨List.replicate 32 7, 1, 0, List.replicate 48 0⟩])])] := by
    decide +kernel
  have hback : ∃ m ∈ (run Desk.greetingLibs C moves).store.messages,
      m.conv = Python.str greeter ∧ m.id = messageId greeter 1 := by
    decide +kernel
  obtain ⟨D, hD, hDe⟩ := List.mem_map.1 (hdismissed ▸ List.mem_singleton_self _)
  obtain ⟨hconv, hlatests⟩ := Prod.mk.inj hDe
  obtain ⟨m, hm, hmconv, hmid⟩ := hback
  exact h D hD _ (hlatests ▸ List.mem_singleton_self _) (List.replicate 32 7) (by decide +kernel) _
    (List.mem_singleton_self _) rfl m hm (hmconv.trans hconv.symm) hmid

end Pane

end Aimless
