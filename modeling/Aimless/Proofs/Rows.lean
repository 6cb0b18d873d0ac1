import Aimless.Lib.Table
import Aimless.Proofs.CatchUp

/-!
# The rows a sync adds

Whether a history entry raises, and the row it gives, do not depend on the store (`entryRow`).  So
what `apply` does to the messages is to take in the rows of the entries before the first that raises
(`apply_messages`), each unless its id is taken.
-/

namespace Aimless

open Python (Str Exc Json Dict)

namespace Store

theorem setCursor_messages (st : Store) (peer : Text) (n : ℕ) :
    (st.setCursor peer n).2.messages = st.messages := by
  unfold setCursor
  split
  · rfl
  · rfl

/-- A cursor is set for one peer. -/
theorem setCursor_cursor_ne (st : Store) {node q : Text} (h : q ≠ node) (n : ℕ) :
    (st.setCursor node n).2.cursor q = st.cursor q := by
  unfold setCursor
  split
  · simp [cursor, AList.lookup_insert_ne h]
  · rfl

variable {L : Libs} {st : Store} {conv ts text : Json} {sender : Text} {seq : ℕ}
  {attachment : Option Dict}

/-- At most one row comes in, with a new id, and of the given kind. -/
def Grows (P : Message → Prop) (st st' : Store) : Prop :=
  st'.messages = st.messages
    ∨ ∃ row, P row ∧ (∀ m ∈ st.messages, m.id ≠ row.id) ∧ st'.messages = st.messages ++ [row]

theorem Grows.mono {P Q : Message → Prop} {st' : Store} (h : Grows P st st')
    (hPQ : ∀ row, P row → Q row) : Grows Q st st' := by
  rcases h with h | ⟨row, hP, hnew, h⟩
  · exact .inl h
  · exact .inr ⟨row, hPQ row hP, hnew, h⟩

theorem Grows.mem {P : Message → Prop} {st' : Store} (h : Grows P st st') {m : Message}
    (hm : m ∈ st'.messages) : m ∈ st.messages ∨ P m := by
  rcases h with h | ⟨row, hP, -, h⟩
  · exact .inl (h ▸ hm)
  · rw [h, List.mem_append, List.mem_singleton] at hm
    rcases hm with hm | rfl
    · exact .inl hm
    · exact .inr hP

theorem insertMessage_grows (st : Store) (m : Message) :
    Grows (· = m) st (st.insertMessage m).2 := by
  unfold insertMessage hasMessage
  dsimp only
  split
  · exact .inl rfl
  · rename_i h
    refine .inr ⟨m, rfl, fun x hx hid => h ?_, rfl⟩
    exact List.any_eq_true.2 ⟨x, hx, by simpa using hid⟩

/-- What `ingest` adds is the row it builds. -/
theorem ingest_grows (L : Libs) (st : Store) (conv : Json) (sender : Text) (seq : ℕ)
    (ts text : Json) (attachment : Option Dict) :
    Grows (fun row => incomingRow L conv sender seq ts text attachment = .ok (some row)) st
      (st.ingest L conv sender seq ts text attachment).2 := by
  obtain ⟨r, st₁, hconv, ⟨hm, -⟩, -⟩ := ensureConv_spec L st conv (conv.eqStr (Python.str sender))
  unfold ingest
  rw [hconv]
  cases r with
  | error e => exact .inl hm
  | ok u =>
    dsimp only
    split
    · exact .inl hm
    · exact .inl hm
    · rename_i m hrow
      have hgrow := st₁.insertMessage_grows m
      unfold Grows at hgrow ⊢
      rw [hm] at hgrow
      rcases hgrow with h | ⟨row, rfl, hnew, h⟩
      · exact .inl h
      · exact .inr ⟨row, hrow, hnew, h⟩

/-- The row of an inbound message names its sender and its seq. -/
theorem incomingRow_fields {row : Message}
    (h : incomingRow L conv sender seq ts text attachment = .ok (some row)) :
    row.sender = Python.str sender ∧ row.id = messageId sender seq ∧ row.dir = .incoming
      ∧ enc text = .ok row.text ∧ bindValue ts = .ok row.ts
      ∧ ∃ v, bindValue conv = .ok v ∧ v.toText L = some row.conv := by
  obtain ⟨t, ht, a, c, hc, x, hx, h⟩ : ∃ t, enc text = .ok t ∧ ∃ a c, bindValue conv = .ok c
      ∧ ∃ x, bindValue ts = .ok x
      ∧ (if seq < 2 ^ 63 then Except.ok (rowOf L c sender seq x t a)
          else Except.error Exc.overflowError)
        = .ok (some row) := by
    unfold incomingRow at h
    cases attachment with
    | none =>
      simp only [Python.bind_eq_ok] at h
      obtain ⟨t, ht, a, -, c, hc, x, hx, h⟩ := h
      exact ⟨t, ht, a, c, hc, x, hx, h⟩
    | some d =>
      simp only [Python.bind_eq_ok] at h
      obtain ⟨t, ht, a, -, c, hc, x, hx, h⟩ := h
      exact ⟨t, ht, a, c, hc, x, hx, h⟩
  split at h
  · have h := Except.ok.inj h
    unfold rowOf at h
    split at h
    · cases h
    · rename_i s hs
      split at h
      · cases h
      · cases h
        exact ⟨rfl, rfl, rfl, ht, hx, c, hc, hs⟩
  · cases h

/-- A row that `ingest` puts in is the sender's. -/
theorem sender_of_ingest {st' : Store} {r : Except Exc Bool}
    (h : st.ingest L conv sender seq ts text attachment = (r, st')) :
    ∀ row ∈ st'.messages, row ∈ st.messages ∨ row.sender = Python.str sender := by
  intro row hrow
  have hgrows := ingest_grows L st conv sender seq ts text attachment
  rw [h] at hgrows
  rcases hgrows with hsame | ⟨new, hnew, -, happend⟩
  · exact .inl (hsame ▸ hrow)
  · rw [happend] at hrow
    rcases List.mem_append.1 hrow with hold | hlast
    · exact .inl hold
    · rw [List.mem_singleton.1 hlast]
      exact .inr (incomingRow_fields hnew).1

end Store

namespace Sync

variable {L : Libs} {st : Store} {peer : Text}

/-- Whether the roster of a message can be written down. -/
def rosterDumps (L : Libs) (o : Opened) : Bool :=
  match roster o with
  | .error _ => false
  | .ok none => true
  | .ok (some d) => (L.dumps d).isOk

/-- What an entry comes to: no row where it is passed over, its row where it is stored, and nothing
where it raises. -/
def entryRow (L : Libs) (peer : Text) (m : HistoryMsg) : Option (Option Message) :=
  match openMessage L (Python.str m.payload) with
  | .error e => if caught e then some none else none
  | .ok o =>
    if rosterDumps L o then
      (Store.incomingRow L (convOf peer o) peer m.seq.toNat o.ts o.text none).toOption
    else none

/-- The rows of the entries before the first that raises. -/
def tailRows (L : Libs) (peer : Text) : List HistoryMsg → List Message
  | [] => []
  | m :: ms =>
    match entryRow L peer m with
    | none => []
    | some none => tailRows L peer ms
    | some (some row) => row :: tailRows L peer ms

theorem rosterDumps_iff {o : Opened} : rosterDumps L o = true
    ↔ ∃ r, roster o = .ok r ∧ ∀ d, r = some d → ∃ t, L.dumps d = .ok t := by
  unfold rosterDumps
  rcases hr : roster o with e | ⟨_ | d⟩
  · simp
  · simp
  · rcases hd : L.dumps d with e | t
    · simp [Except.isOk, Except.toBool, hd]
    · simp [Except.isOk, Except.toBool, hd]

/-- What routing a message comes to, in any store. -/
theorem route_messages (peer : Text) {m : HistoryMsg} {o : Opened}
    (ho : openMessage L (Python.str m.payload) = .ok o) (st : Store) :
    (∃ e st', route L st peer m.seq.toNat o = (.error e, st') ∧ entryRow L peer m = none
      ∧ st'.messages = st.messages ∧ st'.watermark = st.watermark)
    ∨ ∃ b row st', route L st peer m.seq.toNat o = (.ok b, st') ∧ entryRow L peer m = some row
      ∧ st'.messages = Store.addRow st.messages row ∧ st'.watermark = st.watermark := by
  have hroster := roster_ok_iff (L := L) (o := o)
  obtain ⟨r, st', hroute, hw, h | h⟩ := route_cases L st peer m.seq.toNat o
  · obtain ⟨e, rfl, hnot, hm⟩ := h
    refine .inl ⟨e, st', hroute, ?_, hm, hw⟩
    unfold entryRow
    rw [ho]
    dsimp only
    split
    · rename_i hd
      rcases hrow : Store.incomingRow L (convOf peer o) peer m.seq.toNat o.ts o.text none
        with e' | row
      · rfl
      · obtain ⟨htext, hconv, hts, hseq⟩ := Store.incomingRow_ok_iff.1 ⟨row, hrow⟩
        exact absurd ⟨⟨hroster.1 (rosterDumps_iff.1 hd), hconv, htext, hts⟩, hseq⟩ hnot
    · rfl
  · obtain ⟨b, row, rfl, hs, hseq, hrow, hm⟩ := h
    refine .inr ⟨b, row, st', hroute, ?_, hm, hw⟩
    unfold entryRow
    rw [ho]
    dsimp only
    rw [if_pos (rosterDumps_iff.2 (hroster.2 hs.members)), hrow]
    rfl

theorem addRow_eq (l : List Message) (m : Message) :
    Store.addRow l (some m) = Table.insertOrIgnore Message.id l m := rfl

theorem applyLoop_messages (L : Libs) (peer : Text) (msgs : List HistoryMsg) :
    ∀ (st : Store) (maxSeen added : ℕ), (applyLoop L peer st msgs maxSeen added).2.messages
      = Table.insertAll Message.id st.messages (tailRows L peer msgs)
      ∧ (applyLoop L peer st msgs maxSeen added).2.watermark = st.watermark := by
  induction msgs with
  | nil => exact fun st _ _ => ⟨rfl, rfl⟩
  | cons m msgs ih =>
    intro st maxSeen added
    unfold applyLoop tailRows
    dsimp only
    rcases ho : openMessage L (Python.str m.payload) with e | o
    · have hrow : entryRow L peer m = if caught e then some none else none := by
        unfold entryRow
        rw [ho]
      rw [hrow]
      by_cases hc : caught e = true
      · simp only [hc, if_true]
        exact ih st _ added
      · simp only [hc]
        exact ⟨rfl, rfl⟩
    · dsimp only
      rcases route_messages peer ho st with
        ⟨e, st', hr, hrow, hm, hw⟩ | ⟨b, row, st', hr, hrow, hm, hw⟩
      · rw [hr, hrow]
        exact ⟨hm, hw⟩
      · rw [hr, hrow]
        obtain ⟨ihm, ihw⟩ := ih st' (max maxSeen m.seq.toNat) (if b.2 then added + 1 else added)
        cases row with
        | none => exact ⟨by rw [ihm, hm]; rfl, ihw.trans hw⟩
        | some row => exact ⟨by rw [ihm, hm, addRow_eq]; rfl, ihw.trans hw⟩

/-- The messages after `apply`. -/
theorem apply_messages (L : Libs) (st : Store) (peer : Text) (msgs : List HistoryMsg) :
    (apply L st peer msgs).2.messages
      = Table.insertAll Message.id st.messages (tailRows L peer msgs) := by
  have hloop := (applyLoop_messages L peer msgs st (st.cursor peer) 0).1
  unfold apply
  dsimp only
  split
  · rename_i heq
    rw [heq] at hloop
    exact hloop
  · rename_i maxSeen added st' heq
    rw [heq] at hloop
    split
    · by_cases hlt : maxSeen < 2 ^ 63
      · obtain ⟨st₂, hset, hm, -⟩ := Store.setCursor_of_lt st' peer hlt
        rw [hset]
        exact hm.trans hloop
      · rw [Store.setCursor_of_ge st' peer hlt]
        exact hloop
    · exact hloop

/-- The cursors of other peers stay. -/
theorem apply_cursor_ne (L : Libs) (st : Store) {peer q : Text} (hq : q ≠ peer)
    (msgs : List HistoryMsg) : (apply L st peer msgs).2.cursor q = st.cursor q := by
  have hloop := (applyLoop_messages L peer msgs st (st.cursor peer) 0).2
  unfold apply
  dsimp only
  split
  · rename_i heq
    rw [heq] at hloop
    exact Store.cursor_congr hloop q
  · rename_i maxSeen added st' heq
    rw [heq] at hloop
    split
    · have hc := Store.setCursor_cursor_ne st' hq maxSeen
      split <;> rename_i hs <;> rw [hs] at hc <;> exact hc.trans (Store.cursor_congr hloop q)
    · exact Store.cursor_congr hloop q

/-- A row of an entry has the id of the entry. -/
theorem entryRow_id {m : HistoryMsg} {row : Message} (h : entryRow L peer m = some (some row)) :
    row.id = messageId peer m.seq.toNat := by
  unfold entryRow at h
  split at h
  · split at h
    · simp at h
    · cases h
  · rename_i o ho
    split at h
    · rcases hrow : Store.incomingRow L (convOf peer o) peer m.seq.toNat o.ts o.text none with e | r
      · rw [hrow] at h
        cases h
      · rw [hrow] at h
        have hr : r = some row := Option.some.inj h
        rw [hr] at hrow
        exact Store.incomingRow_id hrow
    · cases h

/-- A row of a tail is the row of one of its entries. -/
theorem mem_tailRows {msgs : List HistoryMsg} {row : Message} (h : row ∈ tailRows L peer msgs) :
    ∃ m ∈ msgs, entryRow L peer m = some (some row) := by
  induction msgs with
  | nil => simp [tailRows] at h
  | cons m msgs ih =>
    unfold tailRows at h
    split at h
    · simp at h
    · obtain ⟨m', hm', hrow⟩ := ih h
      exact ⟨m', List.mem_cons_of_mem _ hm', hrow⟩
    · rename_i r hr
      rcases List.mem_cons.1 h with rfl | h
      · exact ⟨m, List.mem_cons_self, hr⟩
      · obtain ⟨m', hm', hrow⟩ := ih h
        exact ⟨m', List.mem_cons_of_mem _ hm', hrow⟩

/-- Entries with seqs of their own give rows with ids of their own. -/
theorem tailRows_nodup {msgs : List HistoryMsg} (h : (msgs.map (·.seq)).Nodup) :
    ((tailRows L peer msgs).map Message.id).Nodup := by
  induction msgs with
  | nil => simp [tailRows]
  | cons m msgs ih =>
    obtain ⟨hm, hmsgs⟩ := List.nodup_cons.1 h
    unfold tailRows
    split
    · simp
    · exact ih hmsgs
    · rename_i r hr
      rw [List.map_cons, List.nodup_cons]
      refine ⟨fun hin => ?_, ih hmsgs⟩
      obtain ⟨r', hr', hid⟩ := List.mem_map.1 hin
      obtain ⟨m', hm', hrow⟩ := mem_tailRows hr'
      rw [entryRow_id hrow, entryRow_id hr, messageId_inj] at hid
      have hseq : m'.seq = m.seq := UInt64.toNat.inj hid
      exact hm (List.mem_map.2 ⟨m', hm', hseq⟩)

/-! ### Invariants of the store -/

section Invariant

variable {I : Store → Prop}

/-- What `ensureRoom` and `ingest` keep, routing a message keeps. -/
theorem route_inv {seq : ℕ} {o : Opened}
    (hroom : ∀ d, roster o = .ok (some d) → ∀ st, I st → I (st.ensureRoom L (convOf peer o) d).2)
    (hingest : (∃ r, roster o = .ok r) → ∀ st, I st →
      I (st.ingest L (convOf peer o) peer seq o.ts o.text).2) (h : I st) :
    I (route L st peer seq o).2 := by
  unfold route
  dsimp only
  split
  · exact h
  rename_i members hmembers
  have hingest := hingest ⟨members, hmembers⟩
  have hens : I (ensureMembers L st (convOf peer o) members).2 := by
    cases members with
    | none => exact h
    | some d => exact hroom d hmembers st h
  split <;> rename_i heq <;> rw [heq] at hens
  · exact hens
  have hing := hingest _ hens
  split <;> rename_i heq <;> rw [heq] at hing
  · exact hing
  · exact hing

theorem applyLoop_inv (msgs : List HistoryMsg)
    (hroute : ∀ m ∈ msgs, ∀ o, openMessage L (Python.str m.payload) = .ok o →
      ∀ st, I st → I (route L st peer m.seq.toNat o).2) :
    ∀ (st : Store) (maxSeen added : ℕ), I st → I (applyLoop L peer st msgs maxSeen added).2 := by
  induction msgs with
  | nil => exact fun st _ _ h => h
  | cons m msgs ih =>
    intro st maxSeen added h
    have ih := ih fun x hx => hroute x (List.mem_cons_of_mem m hx)
    unfold applyLoop
    dsimp only
    split
    · split
      · exact ih st _ added h
      · exact h
    · rename_i o ho
      have hr := hroute m List.mem_cons_self o ho st h
      split <;> rename_i heq <;> rw [heq] at hr
      · exact hr
      · exact ih _ _ _ hr

/-- An invariant of the store that routing keeps and that does not look at the cursors. -/
theorem apply_inv (hcursor : ∀ st n, I st → I (st.setCursor peer n).2) {msgs : List HistoryMsg}
    (hroute : ∀ m ∈ msgs, ∀ o, openMessage L (Python.str m.payload) = .ok o →
      ∀ st, I st → I (route L st peer m.seq.toNat o).2) (h : I st) :
    I (apply L st peer msgs).2 := by
  have hloop := applyLoop_inv msgs hroute st (st.cursor peer) 0 h
  unfold apply
  dsimp only
  split
  · rename_i heq
    rw [heq] at hloop
    exact hloop
  rename_i maxSeen added st' heq
  rw [heq] at hloop
  split
  · have hset := hcursor st' maxSeen hloop
    split <;> rename_i heq' <;> rw [heq'] at hset
    · exact hset
    · exact hset
  · exact hloop

theorem onEvent_inv {ev : RecvEvent}
    (hcursor : ∀ node ∈ ev.sender, ∀ st n, I st → I (st.setCursor node n).2)
    (hroute : ∀ peer ∈ ev.sender, ∀ payload ∈ ev.payload, ∀ o,
      openMessage L (Python.str payload) = .ok o →
        ∀ st, I st → I (route L st peer ev.seqOrZero o).2) (h : I st) :
    I (onEvent L st ev).2 := by
  unfold onEvent
  split
  · exact h
  rename_i node hnode
  split
  · exact h
  split
  · exact h
  rename_i payload hpayload
  split
  · split
    · exact h
    · exact h
  rename_i o ho
  have hr := hroute node hnode payload hpayload o ho st h
  have hing : I (ingestOpened L st node ev.seqOrZero o).2 := by
    unfold ingestOpened
    split <;> rename_i heq <;> rw [heq] at hr
    · exact hr
    split
    · have hset := hcursor node hnode _ ev.seqOrZero hr
      split <;> rename_i heq' <;> rw [heq'] at hset
      · exact hset
      · exact hset
    · exact hr
  split <;> rename_i heq <;> rw [heq] at hing
  · exact hing
  · exact hing

end Invariant

end Sync

end Aimless
