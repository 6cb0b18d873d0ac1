import Aimless.Proofs.Peers

/-!
# Ingestion as a merge

What a response or an event does to the messages is to take in rows that are its own, whatever the
store; what it does to the cursor of a peer is to raise it to a seq that is its own.  Entries of one
peer and seq with one payload give one row, so the order and the repetitions do not matter
(`ingest_any_order`).
-/

namespace Aimless

open Python (Str Exc Json Dict)

namespace Sync

variable {L : Libs} {st : Store} {p q : Text} {msgs : List HistoryMsg}

theorem maxSeq_eq_max (msgs : List HistoryMsg) : ∀ n, maxSeq n msgs = max n (maxSeq 0 msgs) := by
  induction msgs with
  | nil => exact fun n => (Nat.max_zero n).symm
  | cons m msgs ih =>
    intro n
    have hstep : ∀ k, maxSeq k (m :: msgs) = maxSeq (max k m.seq.toNat) msgs := fun k => rfl
    rw [hstep, hstep, ih, ih (max 0 m.seq.toNat), Nat.zero_max, max_assoc]

/-- An event as the entry of a journal, and whose it is. -/
def eventEntry (ev : RecvEvent) : Option (Text × HistoryMsg) :=
  match ev.sender, ev.payload with
  | some peer, some payload =>
    if peer = [] then none else some (peer, ⟨ev.seq.getD 0, ev.ts.getD 0, payload⟩)
  | _, _ => none

theorem eventEntry_eq_some {ev : RecvEvent} {m : HistoryMsg} (h : eventEntry ev = some (p, m)) :
    ev.sender = some p ∧ p ≠ [] ∧ ev.payload = some m.payload ∧ ev.seqOrZero = m.seq.toNat := by
  unfold eventEntry at h
  split at h
  · rename_i peer payload hpeer hpayload
    split at h
    · cases h
    · rename_i hne
      cases h
      exact ⟨hpeer, hne, hpayload, rfl⟩
  · cases h

theorem onEvent_of_eventEntry_none {ev : RecvEvent} (h : eventEntry ev = none) (st : Store) :
    (onEvent L st ev).2 = st := by
  unfold eventEntry at h
  unfold onEvent
  rcases hpeer : ev.sender with _ | peer
  · rfl
  rcases hpayload : ev.payload with _ | payload
  · dsimp only
    split
    · rfl
    · rfl
  rw [hpeer, hpayload] at h
  dsimp only at h ⊢
  by_cases hnil : peer = []
  · rw [if_pos hnil]
  · rw [if_neg hnil] at h
    cases h

/-- The entries a response or an event brings, each with the peer it is from. -/
def Ingest.entries : Ingest → List (Text × HistoryMsg)
  | .apply peer msgs => msgs.map fun m => (peer, m)
  | .onEvent ev => (eventEntry ev).toList

/-- The rows it brings. -/
def Ingest.rows (L : Libs) : Ingest → List Message
  | .apply peer msgs => tailRows L peer msgs
  | .onEvent ev =>
    match eventEntry ev with
    | none => []
    | some (peer, m) => tailRows L peer [m]

open scoped Classical in
/-- How far it moves the cursor of `p`: an undecryptable entry counts in a response that is handled
to its end, but not as an event. -/
noncomputable def Ingest.reach (L : Libs) (p : Text) : Ingest → ℕ
  | .apply peer msgs => if peer = p ∧ Handled L peer msgs then maxSeq 0 msgs else 0
  | .onEvent ev =>
    match eventEntry ev with
    | none => 0
    | some (peer, m) =>
      if peer = p ∧ Handles L peer m.seq.toNat m.payload ∧ ¬ Skipped L m.payload then m.seq.toNat
      else 0

theorem ingestOpened_messages (L : Libs) (st : Store) (p : Text) (n : ℕ) (o : Opened) :
    (ingestOpened L st p n o).2.messages = (route L st p n o).2.messages := by
  unfold ingestOpened
  rcases route L st p n o with ⟨e | r, st'⟩
  · rfl
  dsimp only
  split
  · have hset := st'.setCursor_messages p n
    rcases heq : st'.setCursor p n with ⟨e | u, st₂⟩ <;> rw [heq] at hset
    · exact hset
    · exact hset
  · rfl

theorem onEvent_messages {ev : RecvEvent} {m : HistoryMsg} (h : eventEntry ev = some (p, m))
    (st : Store) : (onEvent L st ev).2.messages
      = Table.insertAll Message.id st.messages (tailRows L p [m]) := by
  obtain ⟨hpeer, hne, hpayload, hseq⟩ := eventEntry_eq_some h
  unfold onEvent
  rw [hpeer, hpayload]
  dsimp only
  rw [if_neg hne, hseq]
  rcases ho : openMessage L (Python.str m.payload) with e | o
  · have hrow : entryRow L p m = if caught e then some none else none := by
      unfold entryRow
      rw [ho]
    by_cases hc : caught e = true
    · simp [tailRows, hrow, hc, Table.insertAll]
    · simp [tailRows, hrow, hc, Table.insertAll]
  · have hing := ingestOpened_messages L st p m.seq.toNat o
    have hst : (ingestOpened L st p m.seq.toNat o).2.messages
        = Table.insertAll Message.id st.messages (tailRows L p [m]) := by
      rw [hing]
      rcases route_messages p ho st with
        ⟨e, st', hr, hrow, hm, -⟩ | ⟨b, row, st', hr, hrow, hm, -⟩
      · rw [hr]
        simpa [tailRows, hrow, Table.insertAll] using hm
      · rw [hr]
        cases row with
        | none => simpa [tailRows, hrow, Table.insertAll, Store.addRow] using hm
        | some row => simpa [tailRows, hrow, Table.insertAll, addRow_eq] using hm
    dsimp only
    rcases heq : ingestOpened L st p m.seq.toNat o with ⟨e | ⟨conv, isNew⟩, st'⟩ <;>
      rw [heq] at hst
    · exact hst
    · exact hst

theorem onEvent_cursor_ne {ev : RecvEvent} (h : ev.sender ≠ some q) (st : Store) :
    (onEvent L st ev).2.cursor q = st.cursor q := by
  refine onEvent_inv (I := fun s => s.cursor q = st.cursor q) ?_ ?_ rfl
  · intro node hnode s n hs
    have hne : q ≠ node := by
      rintro rfl
      exact h hnode
    rw [Store.setCursor_cursor_ne s hne, hs]
  · intro peer _ payload _ o _ s hs
    obtain ⟨r, s', hroute, hw, -⟩ := route_cases L s peer ev.seqOrZero o
    rw [hroute]
    exact (Store.cursor_congr hw q).trans hs

theorem onEvent_cursor {ev : RecvEvent} {m : HistoryMsg} (h : eventEntry ev = some (p, m))
    (st : Store) :
    (onEvent L st ev).2.cursor p = max (st.cursor p) (Ingest.reach L p (.onEvent ev)) := by
  obtain ⟨hpeer, hne, hpayload, hseq⟩ := eventEntry_eq_some h
  obtain ⟨r, st', hrun, hcase⟩ := onEvent_cases L st hpeer hne hpayload
  rw [hseq] at hcase
  rw [hrun]
  simp only [Ingest.reach, h]
  rcases hcase with ⟨e, -, hbad, -, hcur⟩ | ⟨b, -, hskip, rfl⟩ | ⟨b, o, row, -, ho, hs, hlt, -, -, hcur⟩
  · rw [if_neg fun hh => hbad hh.2.1, Nat.max_zero, hcur]
  · rw [if_neg fun hh => hh.2.2 hskip, Nat.max_zero]
  · rw [if_pos, hcur]
    refine ⟨rfl, .inr ⟨o, ho, hs, hlt⟩, fun ⟨e, he, _⟩ => ?_⟩
    rw [ho] at he
    cases he

/-- What one response or event does to the store. -/
theorem Ingest.exec_spec (op : Ingest) (st : Store) :
    (op.exec L st).messages = Table.insertAll Message.id st.messages (op.rows L)
      ∧ ∀ p, (op.exec L st).cursor p = max (st.cursor p) (op.reach L p) := by
  cases op with
  | apply peer msgs =>
    refine ⟨apply_messages L st peer msgs, fun p => ?_⟩
    simp only [Ingest.exec, Ingest.reach]
    by_cases hp : peer = p
    · subst hp
      by_cases hh : Handled L peer msgs
      · rw [if_pos ⟨rfl, hh⟩, (apply_of_handled hh st).2, maxSeq_eq_max]
      · rw [if_neg fun h => hh h.2, (apply_of_not_handled hh st).2, Nat.max_zero]
    · rw [if_neg fun h => hp h.1, apply_cursor_ne L st (Ne.symm hp), Nat.max_zero]
  | onEvent ev =>
    rcases hev : eventEntry ev with _ | ⟨peer, m⟩
    · have hst : (Ingest.onEvent ev).exec L st = st := onEvent_of_eventEntry_none hev st
      rw [hst]
      simp only [Ingest.rows, Ingest.reach, hev]
      exact ⟨rfl, fun p => (Nat.max_zero _).symm⟩
    · refine ⟨?_, fun p => ?_⟩
      · simp only [Ingest.exec, Ingest.rows, hev]
        exact onEvent_messages hev st
      · by_cases hp : peer = p
        · subst hp
          exact onEvent_cursor hev st
        · have hsender : ev.sender ≠ some p := fun h => by
            rw [(eventEntry_eq_some hev).1] at h
            exact hp (Option.some.inj h)
          simp only [Ingest.exec, Ingest.reach, hev]
          rw [if_neg fun h => hp h.1, Nat.max_zero, onEvent_cursor_ne hsender]

/-! ### Whole runs -/

theorem ingestAll_messages (ops : List Ingest) : ∀ st : Store, (ingestAll L st ops).messages
    = Table.insertAll Message.id st.messages (ops.flatMap (Ingest.rows L)) := by
  induction ops with
  | nil => exact fun st => rfl
  | cons op ops ih =>
    intro st
    show (ingestAll L (op.exec L st) ops).messages = _
    rw [ih, (op.exec_spec st).1, List.flatMap_cons, Table.insertAll_append]

theorem ingestAll_cursor_le (ops : List Ingest) (p : Text) {n : ℕ} : ∀ st : Store,
    (ingestAll L st ops).cursor p ≤ n ↔ st.cursor p ≤ n ∧ ∀ op ∈ ops, op.reach L p ≤ n := by
  induction ops with
  | nil => exact fun st => by simp [ingestAll]
  | cons op ops ih =>
    intro st
    show (ingestAll L (op.exec L st) ops).cursor p ≤ n ↔ _
    rw [ih, (op.exec_spec st).2, max_le_iff, List.forall_mem_cons, and_assoc]

/-- A row comes from an entry. -/
theorem Ingest.mem_rows {op : Ingest} {row : Message} (h : row ∈ op.rows L) :
    ∃ e ∈ op.entries, entryRow L e.1 e.2 = some (some row) := by
  cases op with
  | apply peer msgs =>
    obtain ⟨m, hm, hrow⟩ := mem_tailRows h
    exact ⟨(peer, m), List.mem_map_of_mem hm, hrow⟩
  | onEvent ev =>
    rcases hev : eventEntry ev with _ | ⟨peer, m⟩
    · simp only [Ingest.rows, hev, List.not_mem_nil] at h
    · simp only [Ingest.rows, hev] at h
      obtain ⟨m', hm', hrow⟩ := mem_tailRows h
      obtain rfl := List.mem_singleton.1 hm'
      exact ⟨(peer, m'), by simp [Ingest.entries, hev], hrow⟩

/-- Any two entries of the same peer and seq carry the same payload. -/
def Consistent (ops : List Ingest) : Prop :=
  ∀ op ∈ ops, ∀ op' ∈ ops, ∀ e ∈ op.entries, ∀ e' ∈ op'.entries,
    e.1 = e'.1 → e.2.seq = e'.2.seq → e.2.payload = e'.2.payload

theorem Consistent.rows_eq {ops : List Ingest} (h : Consistent ops) {row row' : Message}
    (hrow : row ∈ ops.flatMap (Ingest.rows L)) (hrow' : row' ∈ ops.flatMap (Ingest.rows L))
    (hid : row.id = row'.id) : row = row' := by
  obtain ⟨op, hop, hrow⟩ := List.mem_flatMap.1 hrow
  obtain ⟨op', hop', hrow'⟩ := List.mem_flatMap.1 hrow'
  obtain ⟨⟨peer, m⟩, he, hentry⟩ := Ingest.mem_rows hrow
  obtain ⟨⟨peer', m'⟩, he', hentry'⟩ := Ingest.mem_rows hrow'
  rw [entryRow_id hentry, entryRow_id hentry', messageId_eq_iff] at hid
  obtain ⟨rfl, hseq⟩ := hid
  have hpayload := h op hop op' hop' _ he _ he' rfl (UInt64.toNat.inj hseq)
  -- the row is made from the peer, the seq and the payload
  have hsame : entryRow L peer m = entryRow L peer m' := by
    dsimp only at hpayload hseq
    unfold entryRow
    rw [hpayload, hseq]
  rw [hsame, hentry'] at hentry
  exact (Option.some.inj (Option.some.inj hentry)).symm

theorem msgs_eq_of_perm {st st' : Store} (h : st.messages.Perm st'.messages)
    (hkey : (st.messages.map Message.id).Nodup) (numeric : Str → SqlVal) (conv : Str) :
    st.msgs numeric conv = st'.msgs numeric conv := by
  have hperm : (st.messagesOf conv).Perm (st'.messagesOf conv) := h.filter _
  have hsorted : ∀ l : List Message,
      (l.insertionSort fun m m' => m.order numeric ≤ m'.order numeric).Pairwise
        fun m m' => m.order numeric ≤ m'.order numeric :=
    fun l => List.pairwise_insertionSort _ l
  refine List.Perm.eq_of_pairwise ?_ (hsorted _) (hsorted _)
    (((List.perm_insertionSort _ _).trans hperm).trans (List.perm_insertionSort _ _).symm)
  intro m m' hm hm' hle hle'
  have hmem : m ∈ st.messages :=
    List.mem_of_mem_filter ((List.perm_insertionSort _ _).mem_iff.1 hm)
  have hmem' : m' ∈ st.messages := by
    refine h.mem_iff.2 ?_
    exact List.mem_of_mem_filter ((List.perm_insertionSort _ _).mem_iff.1 hm')
  have hid : m.id = m'.id := congrArg (fun k => (ofLex k).2) (le_antisymm hle hle')
  exact List.inj_on_of_nodup_map hkey hmem hmem' hid

/-- Responses and events end in the same messages and cursors in any order and however often each is
repeated, and no cursor goes back on the way. -/
theorem ingest_any_order (L : Libs) (st : Store) (hkey : (st.messages.map Message.id).Nodup)
    (ops ops' : List Ingest) (hsame : ∀ op, op ∈ ops ↔ op ∈ ops') (hcons : Consistent ops) :
    (∀ numeric conv, (ingestAll L st ops).msgs numeric conv
        = (ingestAll L st ops').msgs numeric conv)
      ∧ (∀ peer, (ingestAll L st ops).cursor peer = (ingestAll L st ops').cursor peer)
      ∧ ∀ peer i j, i ≤ j →
        (ingestAll L st (ops.take i)).cursor peer ≤ (ingestAll L st (ops.take j)).cursor peer := by
  refine ⟨fun numeric conv => ?_, fun peer => ?_, fun peer i j hij => ?_⟩
  · refine msgs_eq_of_perm ?_ ?_ numeric conv
    · rw [ingestAll_messages, ingestAll_messages]
      refine Table.insertAll_perm _ hkey (fun x hx y hy hid => hcons.rows_eq hx hy hid) fun row => ?_
      simp only [List.mem_flatMap, hsame]
    · rw [ingestAll_messages]
      exact Table.nodup_insertAll _ hkey
  · refine eq_of_forall_ge_iff fun n => ?_
    simp only [ingestAll_cursor_le, hsame]
  · obtain ⟨hst, hall⟩ := (ingestAll_cursor_le (L := L) (ops.take j) peer st).1 le_rfl
    refine (ingestAll_cursor_le (ops.take i) peer st).2 ⟨hst, fun op hop => hall op ?_⟩
    exact (List.take_subset_take_left ops hij) hop

/-- Seq 2 as an event before and after the response with seqs 1 and 2. -/
theorem ingest_any_order_greeting :
    let peer := Hex.encode (List.replicate 32 7)
    let payload := Base64.encode (List.replicate 48 0)
    let response : Ingest := .apply peer [⟨1, 0, payload⟩, ⟨2, 0, payload⟩]
    let live : Ingest := .onEvent ⟨some peer, some 2, none, some payload, false⟩
    ((ingestAll Desk.greetingLibs {} [response, live]).msgs .text (Python.str peer)).length = 2
      ∧ (ingestAll Desk.greetingLibs {} [response, live]).msgs .text (Python.str peer)
        = (ingestAll Desk.greetingLibs {} [live, response, live]).msgs .text (Python.str peer) := by
  intro peer payload response live
  have hone : ∀ op ∈ [response, live], ∀ e ∈ op.entries, e.2.payload = payload := by decide +kernel
  have hcons : Consistent [response, live] := fun op hop op' hop' e he e' he' _ _ =>
    (hone op hop e he).trans (hone op' hop' e' he').symm
  refine ⟨by decide +kernel, ?_⟩
  refine (ingest_any_order Desk.greetingLibs {} List.nodup_nil [response, live]
    [live, response, live] (fun op => ?_) hcons).1 _ _
  simp only [List.mem_cons, List.not_mem_nil, or_false]
  constructor
  · rintro (h | h)
    · exact .inr (.inl h)
    · exact .inl h
  · rintro (h | h | h)
    · exact .inr h
    · exact .inl h
    · exact .inr h

end Sync

end Aimless
