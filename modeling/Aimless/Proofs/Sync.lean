import Aimless.Service

/-!
# What a peer's payload can do to the sync

Every step of `route` is total on the values it can bind and encode (`Storable`) and raises on the
rest (`route_ok_iff`).  It leaves the cursors alone and adds at most the one row of the message
(`route_messages`).  `apply` and `on_event` complete exactly when each payload they open is
storable or is one that `open_message` refuses with an exception they catch.
-/

namespace Aimless

open Python (Str Exc Json Dict)

/-- A value `sqlite3` binds. -/
def Bindable : Json → Prop
  | .int n => -2 ^ 63 ≤ n ∧ n < 2 ^ 63
  | .str s => Python.encodable s = true
  | .arr _ => False
  | .obj _ => False
  | _ => True

/-- A text that `_enc` takes: none, or a string without surrogates. -/
def Encodable : Json → Prop
  | .null => True
  | .str s => Python.encodable s = true
  | _ => False

theorem bindValue_ok_iff {v : Json} : (∃ x, bindValue v = .ok x) ↔ Bindable v := by
  cases v with
  | null => simp [bindValue, Bindable]
  | bool b => simp [bindValue, Bindable]
  | int n =>
    by_cases h : -2 ^ 63 ≤ n ∧ n < 2 ^ 63
    · simp only [bindValue, Bindable, h, and_self, if_true, iff_true]
      exact ⟨_, rfl⟩
    · simp only [bindValue, Bindable, h, iff_false]
      rintro ⟨x, hx⟩
      cases hx
  | float x => cases x <;> simp [bindValue, Bindable]
  | str s =>
    by_cases h : Python.encodable s = true
    · simp [bindValue, Bindable, h]
    · simp [bindValue, Bindable, h]
  | arr l => simp [bindValue, Bindable]
  | obj l => simp [bindValue, Bindable]

theorem enc_ok_iff {v : Json} : (∃ t, Store.enc v = .ok t) ↔ Encodable v := by
  cases v with
  | str s => by_cases h : Python.encodable s = true <;> simp [Store.enc, Encodable, h]
  | _ => simp [Store.enc, Encodable]

theorem messageId_inj {sender : Text} {a b : ℕ} :
    messageId sender a = messageId sender b ↔ a = b := by
  unfold messageId
  rw [List.append_cancel_left_eq]
  exact Python.decimal_injective.eq_iff

/-- The last separator is where both lists are split. -/
theorem append_cons_inj {α : Type*} {x : α} {a a' b b' : List α} (hb : x ∉ b) (hb' : x ∉ b')
    (h : a ++ x :: b = a' ++ x :: b') : a = a' ∧ b = b' := by
  rcases List.append_eq_append_iff.1 h with ⟨c, rfl, hc⟩ | ⟨c, rfl, hc⟩
  · cases c with
    | nil => simpa using hc
    | cons y c =>
      obtain ⟨-, rfl⟩ := List.cons.inj hc
      exact absurd (List.mem_append_right c List.mem_cons_self) hb
  · cases c with
    | nil => simpa using hc.symm
    | cons y c =>
      obtain ⟨-, rfl⟩ := List.cons.inj hc
      exact absurd (List.mem_append_right c List.mem_cons_self) hb'

/-- An id tells the sender and the seq, whatever the sender is called. -/
theorem messageId_eq_iff {p q : Text} {a b : ℕ} :
    messageId p a = messageId q b ↔ p = q ∧ a = b := by
  constructor
  · intro h
    have hsplit : ∀ (t : Text) (n : ℕ), messageId t n
        = Python.str (['i', 'n', ':'] ++ t) ++ 58 :: Python.decimal n := fun t n => by
      simp [messageId, Python.str, Python.codePoint]
    rw [hsplit, hsplit] at h
    obtain ⟨hp, hn⟩ := append_cons_inj (Python.colon_notMem_decimal a)
      (Python.colon_notMem_decimal b) h
    exact ⟨List.append_cancel_left (Python.str_injective hp), Python.decimal_injective hn⟩
  · rintro ⟨rfl, rfl⟩
    rfl

namespace Store

variable {L : Libs} {st : Store} {conv ts text : Json} {sender : Text} {seq : ℕ} {dm : Bool}

/-- The tables of `st` and `st'` that are about messages are the same. -/
def SameMail (st st' : Store) : Prop :=
  st'.messages = st.messages ∧ st'.watermark = st.watermark

theorem ensureConv_spec (L : Libs) (st : Store) (conv : Json) (dm : Bool) :
    ∃ r st', st.ensureConv L conv dm = (r, st') ∧ SameMail st st'
      ∧ ((∃ u, r = .ok u) ↔ Bindable conv) := by
  rw [← bindValue_ok_iff]
  unfold ensureConv
  cases bindValue conv with
  | error e => exact ⟨_, _, rfl, ⟨rfl, rfl⟩, by simp⟩
  | ok v =>
    simp only []
    split
    · exact ⟨_, _, rfl, ⟨rfl, rfl⟩, by simp⟩
    · exact ⟨_, _, rfl, ⟨rfl, rfl⟩, by simp⟩

theorem ensureRoom_spec (L : Libs) (st : Store) (conv : Json) (d : Dict) :
    ∃ r st', st.ensureRoom L conv d = (r, st') ∧ SameMail st st'
      ∧ ((∃ u, r = .ok u) ↔ (∃ t, L.dumps d = .ok t) ∧ Bindable conv) := by
  rw [← bindValue_ok_iff]
  unfold ensureRoom
  cases L.dumps d with
  | error e => exact ⟨_, _, rfl, ⟨rfl, rfl⟩, by simp⟩
  | ok t =>
    cases bindValue conv with
    | error e => exact ⟨_, _, rfl, ⟨rfl, rfl⟩, by simp⟩
    | ok v =>
      simp only []
      split
      · exact ⟨_, _, rfl, ⟨rfl, rfl⟩, by simp⟩
      · exact ⟨_, _, rfl, ⟨rfl, rfl⟩, by simp⟩

theorem incomingRow_eq_ok {r : Option Message} :
    incomingRow L conv sender seq ts text none = .ok r
      ↔ ∃ t c x, enc text = .ok t ∧ bindValue conv = .ok c ∧ bindValue ts = .ok x ∧ seq < 2 ^ 63
        ∧ rowOf L c sender seq x t none = r := by
  unfold incomingRow
  simp only [Python.bind_eq_ok]
  constructor
  · rintro ⟨t, ht, a, ha, c, hc, x, hx, h⟩
    cases ha
    by_cases hseq : seq < 2 ^ 63
    · rw [if_pos hseq] at h
      cases h
      exact ⟨t, c, x, ht, hc, hx, hseq, rfl⟩
    · rw [if_neg hseq] at h
      cases h
  · rintro ⟨t, c, x, ht, hc, hx, hseq, rfl⟩
    exact ⟨t, ht, none, rfl, c, hc, x, hx, if_pos hseq⟩

theorem incomingRow_ok_iff : (∃ r, incomingRow L conv sender seq ts text none = .ok r)
    ↔ Encodable text ∧ Bindable conv ∧ Bindable ts ∧ seq < 2 ^ 63 := by
  rw [← enc_ok_iff, ← bindValue_ok_iff, ← bindValue_ok_iff]
  simp only [incomingRow_eq_ok]
  constructor
  · rintro ⟨r, t, c, x, ht, hc, hx, hseq, -⟩
    exact ⟨⟨t, ht⟩, ⟨c, hc⟩, ⟨x, hx⟩, hseq⟩
  · rintro ⟨⟨t, ht⟩, ⟨c, hc⟩, ⟨x, hx⟩, hseq⟩
    exact ⟨_, t, c, x, ht, hc, hx, hseq, rfl⟩

theorem incomingRow_id {row : Message}
    (h : incomingRow L conv sender seq ts text none = .ok (some row)) :
    row.id = messageId sender seq := by
  obtain ⟨t, c, x, -, -, -, -, hrow⟩ := incomingRow_eq_ok.1 h
  unfold rowOf at hrow
  split at hrow
  · cases hrow
  · split at hrow
    · cases hrow
    · cases hrow
      rfl

/-- `INSERT OR IGNORE` into the messages. -/
def addRow (l : List Message) : Option Message → List Message
  | none => l
  | some m => if l.any fun x => x.id = m.id then l else l ++ [m]

theorem subset_addRow (l : List Message) (r : Option Message) : l ⊆ addRow l r := by
  cases r with
  | none => exact List.Subset.refl l
  | some m =>
    simp only [addRow]
    split
    · exact List.Subset.refl l
    · exact List.subset_append_left l [m]

/-- After the insert a row with the identity of the message is there: the message itself or one that
was there before. -/
theorem exists_mem_addRow (l : List Message) (m : Message) :
    ∃ row ∈ addRow l (some m), row.id = m.id ∧ (row ∈ l ∨ row = m) := by
  by_cases h : l.any fun x => x.id = m.id
  · obtain ⟨row, hrow, hid⟩ := List.any_eq_true.1 h
    have hid : row.id = m.id := of_decide_eq_true hid
    refine ⟨row, ?_, hid, Or.inl hrow⟩
    simpa [addRow, h] using hrow
  · exact ⟨m, by simp [addRow, h], rfl, Or.inr rfl⟩

theorem mem_addRow {l : List Message} {r : Option Message} {row : Message} (h : row ∈ addRow l r) :
    row ∈ l ∨ r = some row := by
  cases r with
  | none => exact Or.inl h
  | some m =>
    simp only [addRow] at h
    split at h
    · exact Or.inl h
    · rcases List.mem_append.1 h with h | h
      · exact Or.inl h
      · exact Or.inr (by rw [List.mem_singleton.1 h])

theorem insertMessage_messages (st : Store) (m : Message) :
    (st.insertMessage m).2.messages = addRow st.messages (some m) := by
  unfold insertMessage hasMessage
  simp only [addRow]
  split <;> rfl

theorem insertMessage_watermark (st : Store) (m : Message) :
    (st.insertMessage m).2.watermark = st.watermark := by
  unfold insertMessage
  simp only []
  split <;> rfl

/-- `ingest` raises where the row cannot be put together, and else inserts it. -/
theorem ingest_cases (L : Libs) (st : Store) (conv : Json) (sender : Text) (seq : ℕ)
    (ts text : Json) :
    ∃ r st', st.ingest L conv sender seq ts text = (r, st') ∧ st'.watermark = st.watermark
      ∧ ((∃ e, r = .error e ∧ (∀ row, incomingRow L conv sender seq ts text none ≠ .ok row)
          ∧ st'.messages = st.messages)
        ∨ ∃ b row, r = .ok b ∧ incomingRow L conv sender seq ts text none = .ok row
          ∧ st'.messages = addRow st.messages row) := by
  obtain ⟨r, st₁, hc, ⟨hm, hw⟩, hr⟩ := ensureConv_spec L st conv (conv.eqStr (Python.str sender))
  unfold ingest
  rw [hc]
  cases r with
  | error e =>
    refine ⟨_, _, rfl, hw, Or.inl ⟨e, rfl, ?_, hm⟩⟩
    intro row hrow
    have hb : Bindable conv := (incomingRow_ok_iff.1 ⟨row, hrow⟩).2.1
    obtain ⟨u, hu⟩ := hr.2 hb
    cases hu
  | ok u =>
    rcases hrow : incomingRow L conv sender seq ts text none with e | _ | m
    · exact ⟨_, _, rfl, hw, Or.inl ⟨e, rfl, by simp, hm⟩⟩
    · exact ⟨_, _, rfl, hw, Or.inr ⟨_, none, rfl, rfl, hm⟩⟩
    · refine ⟨.ok (st₁.insertMessage m).1, (st₁.insertMessage m).2, rfl, ?_,
        Or.inr ⟨_, some m, rfl, rfl, ?_⟩⟩
      · rw [insertMessage_watermark, hw]
      · rw [insertMessage_messages, hm]

theorem cursor_lt (st : Store) (peer : Text) : st.cursor peer < 2 ^ 63 := by
  unfold cursor
  cases st.watermark.lookup peer with
  | none => norm_num
  | some n => exact n.2

theorem setCursor_of_lt (st : Store) (peer : Text) {n : ℕ} (h : n < 2 ^ 63) :
    ∃ st', st.setCursor peer n = (.ok (), st') ∧ st'.messages = st.messages
      ∧ st'.cursor peer = max (st.cursor peer) n := by
  unfold setCursor
  rw [dif_pos h]
  refine ⟨_, rfl, rfl, ?_⟩
  unfold cursor
  rw [AList.lookup_insert]
  cases st.watermark.lookup peer with
  | none => simp
  | some old =>
    simp only []
    rcases le_total old ⟨n, h⟩ with hle | hle
    · rw [max_eq_right hle, max_eq_right (Subtype.coe_le_coe.2 hle)]
    · rw [max_eq_left hle, max_eq_left (Subtype.coe_le_coe.2 hle)]

theorem setCursor_of_ge (st : Store) (peer : Text) {n : ℕ} (h : ¬ n < 2 ^ 63) :
    st.setCursor peer n = (.error .overflowError, st) := by
  unfold setCursor
  rw [dif_neg h]

theorem cursor_congr {st st' : Store} (h : st'.watermark = st.watermark) (peer : Text) :
    st'.cursor peer = st.cursor peer := by
  unfold cursor
  rw [h]

end Store

/-- A member of a roster: a dict with a `node` that can be a key. -/
def IsMember (m : Json) : Prop :=
  ∃ fields node, m = .obj fields ∧ Python.get? fields Field.node = some node ∧ node.hashable = true

/-- A message `route` can store for `peer`. -/
structure Storable (L : Libs) (peer : Text) (o : Opened) : Prop where
  members : ∀ v, o.members = some v → v.truthy = true →
    ∃ ms, v = .arr ms ∧ (∀ m ∈ ms, IsMember m)
      ∧ ∀ d, Sync.rosterOf ms [] = .ok d → ∃ t, L.dumps d = .ok t
  conv : Bindable (Sync.convOf peer o)
  text : Encodable o.text
  ts : Bindable o.ts

theorem Storable.exists_row {L : Libs} {peer : Text} {o : Opened} (hs : Storable L peer o) {seq : ℕ}
    (hseq : seq < 2 ^ 63) :
    ∃ r, Store.incomingRow L (Sync.convOf peer o) peer seq o.ts o.text none = .ok r :=
  Store.incomingRow_ok_iff.2 ⟨hs.text, hs.conv, hs.ts, hseq⟩

namespace Sync

variable {L : Libs} {st : Store} {peer : Text} {seq : ℕ} {o : Opened}

theorem memberNode_ok_iff {m : Json} : (∃ node, memberNode m = .ok node) ↔ IsMember m := by
  cases m with
  | obj fields =>
    simp only [memberNode, Python.bind_eq_ok, IsMember, Python.getItem]
    cases hget : Python.get? fields Field.node with
    | none => simp [hget]
    | some node =>
      by_cases hh : node.hashable = true
      · simp [hh, hget, pure, Except.pure]
      · simp [hh, hget, throw, throwThe, MonadExceptOf.throw]
  | _ => simp [memberNode, IsMember]

theorem rosterOf_ok_iff {ms : List Json} :
    ∀ {d : Dict}, (∃ d', rosterOf ms d = .ok d') ↔ ∀ m ∈ ms, IsMember m := by
  induction ms with
  | nil => simp [rosterOf]
  | cons m ms ih =>
    intro d
    simp only [rosterOf, Python.bind_eq_ok, List.forall_mem_cons, ← memberNode_ok_iff]
    constructor
    · rintro ⟨d', node, hnode, hrest⟩
      exact ⟨⟨node, hnode⟩, fun x hx => memberNode_ok_iff.2 (ih.1 ⟨d', hrest⟩ x hx)⟩
    · rintro ⟨⟨node, hnode⟩, hrest⟩
      obtain ⟨d', hd⟩ := (ih (d := d.set node m)).2 fun x hx => memberNode_ok_iff.1 (hrest x hx)
      exact ⟨d', node, hnode, hd⟩

/-- What the roster of a message comes to: none, or a dict for `ensure_room`. -/
theorem roster_ok_iff : (∃ r, roster o = .ok r ∧ ∀ d, r = some d → ∃ t, L.dumps d = .ok t)
    ↔ ∀ v, o.members = some v → v.truthy = true →
      ∃ ms, v = .arr ms ∧ (∀ m ∈ ms, IsMember m)
        ∧ ∀ d, rosterOf ms [] = .ok d → ∃ t, L.dumps d = .ok t := by
  unfold roster
  rcases o.members with _ | v
  · simp
  · by_cases hv : v.truthy = true
    · simp only [hv, if_true, Option.some.injEq, forall_eq', forall_const]
      cases v with
      | arr ms =>
        simp only [Json.arr.injEq, exists_eq_left', ← rosterOf_ok_iff (d := [])]
        cases rosterOf ms [] with
        | error e => simp [Except.map]
        | ok d => simp [Except.map]
      | _ => simp
    · simp [hv]

/-- `route` raises where the message is not storable, and else does what `ingest` does. -/
theorem route_cases (L : Libs) (st : Store) (peer : Text) (seq : ℕ) (o : Opened) :
    ∃ r st', route L st peer seq o = (r, st') ∧ st'.watermark = st.watermark
      ∧ ((∃ e, r = .error e ∧ ¬ (Storable L peer o ∧ seq < 2 ^ 63) ∧ st'.messages = st.messages)
        ∨ ∃ b row, r = .ok b ∧ Storable L peer o ∧ seq < 2 ^ 63
          ∧ Store.incomingRow L (convOf peer o) peer seq o.ts o.text none = .ok row
          ∧ st'.messages = Store.addRow st.messages row) := by
  have hroster := roster_ok_iff (L := L) (o := o)
  unfold route
  rcases hd : roster o with e | members
  · refine ⟨_, _, rfl, rfl, Or.inl ⟨e, rfl, ?_, rfl⟩⟩
    rintro ⟨hs, -⟩
    obtain ⟨r, hr, -⟩ := hroster.2 hs.members
    rw [hd] at hr
    cases hr
  · -- the room first, so that a raise there leaves the messages alone
    have hroom : ∃ r st₁, ensureMembers L st (convOf peer o) members = (r, st₁)
        ∧ Store.SameMail st st₁ ∧ ((∃ u, r = .ok u) ∨ ¬ Storable L peer o) := by
      cases members with
      | none => exact ⟨_, _, rfl, ⟨rfl, rfl⟩, Or.inl ⟨(), rfl⟩⟩
      | some d =>
        obtain ⟨r, st₁, h, hsame, hok⟩ := Store.ensureRoom_spec L st (convOf peer o) d
        refine ⟨r, st₁, h, hsame, ?_⟩
        by_cases hs : Storable L peer o
        · obtain ⟨r', hr', hdumps⟩ := hroster.2 hs.members
          rw [hd] at hr'
          cases hr'
          exact Or.inl (hok.2 ⟨hdumps d rfl, hs.conv⟩)
        · exact Or.inr hs
    obtain ⟨r, st₁, heq, ⟨hm, hw⟩, hok⟩ := hroom
    simp only [heq]
    cases r with
    | error e =>
      refine ⟨_, _, rfl, hw, Or.inl ⟨e, rfl, ?_, hm⟩⟩
      rintro ⟨hs, -⟩
      rcases hok with ⟨u, hu⟩ | hn
      · cases hu
      · exact hn hs
    | ok u =>
      obtain ⟨r₂, st₂, h₂, hw₂, hcase⟩ :=
        Store.ingest_cases L st₁ (convOf peer o) peer seq o.ts o.text
      simp only [h₂]
      rcases hcase with ⟨e, rfl, hno, hm₂⟩ | ⟨b, row, rfl, hrow, hm₂⟩
      · refine ⟨_, _, rfl, hw₂.trans hw, Or.inl ⟨e, rfl, ?_, hm₂.trans hm⟩⟩
        rintro ⟨hs, hseq⟩
        obtain ⟨row, hrow⟩ := hs.exists_row hseq
        exact hno row hrow
      · obtain ⟨htext, hconv, hts, hseq⟩ := Store.incomingRow_ok_iff.1 ⟨row, hrow⟩
        refine ⟨_, _, rfl, hw₂.trans hw, Or.inr ⟨_, row, rfl, ?_, hseq, hrow, by rw [hm₂, hm]⟩⟩
        refine ⟨?_, hconv, htext, hts⟩
        refine hroster.1 ⟨members, hd, fun d hmem => ?_⟩
        subst hmem
        obtain ⟨r, st', h, -, hok'⟩ := Store.ensureRoom_spec L st (convOf peer o) d
        rw [ensureMembers, h] at heq
        cases heq
        exact (hok'.1 ⟨_, rfl⟩).1

/-- A payload that `open_message` refuses with an exception the loops catch. -/
def Skipped (L : Libs) (payload : Text) : Prop :=
  ∃ e, openMessage L (Python.str payload) = .error e ∧ caught e = true

/-- A payload that gives no raise: it is passed over, or it opens and can be stored. -/
def Handles (L : Libs) (peer : Text) (seq : ℕ) (payload : Text) : Prop :=
  Skipped L payload
    ∨ ∃ o, openMessage L (Python.str payload) = .ok o ∧ Storable L peer o ∧ seq < 2 ^ 63

/-- A row that one of the entries gives. -/
def NewRow (L : Libs) (peer : Text) (msgs : List HistoryMsg) (row : Message) : Prop :=
  ∃ m ∈ msgs, ∃ o, openMessage L (Python.str m.payload) = .ok o
    ∧ Store.incomingRow L (convOf peer o) peer m.seq.toNat o.ts o.text none = .ok (some row)

/-- The largest of `n` and the seqs of the entries. -/
def maxSeq (n : ℕ) (msgs : List HistoryMsg) : ℕ :=
  msgs.foldl (fun a m => max a m.seq.toNat) n

/-- What the loop does to the store, whether it ends or is left by a raise. -/
structure Progress (L : Libs) (peer : Text) (msgs : List HistoryMsg) (st st' : Store) : Prop where
  watermark : st'.watermark = st.watermark
  kept : st.messages ⊆ st'.messages
  rows : ∀ row ∈ st'.messages, row ∈ st.messages ∨ NewRow L peer msgs row

theorem Progress.refl (L : Libs) (peer : Text) (msgs : List HistoryMsg) (st : Store) :
    Progress L peer msgs st st :=
  ⟨rfl, List.Subset.refl _, fun _ h => Or.inl h⟩

theorem NewRow.cons {m : HistoryMsg} {msgs : List HistoryMsg} {row : Message}
    (h : NewRow L peer msgs row) : NewRow L peer (m :: msgs) row := by
  obtain ⟨x, hx, o, ho, hrow⟩ := h
  exact ⟨x, List.mem_cons_of_mem m hx, o, ho, hrow⟩

theorem Progress.cons {m : HistoryMsg} {msgs : List HistoryMsg} {st' : Store}
    (h : Progress L peer msgs st st') : Progress L peer (m :: msgs) st st' :=
  ⟨h.watermark, h.kept, fun row hrow => (h.rows row hrow).imp_right NewRow.cons⟩

/-- The step of the loop: one message routed, then the rest. -/
theorem Progress.route {m : HistoryMsg} {msgs : List HistoryMsg} {st₁ st₂ : Store}
    {row : Option Message} (hw : st₁.watermark = st.watermark)
    (ho : openMessage L (Python.str m.payload) = .ok o)
    (hrow : Store.incomingRow L (convOf peer o) peer m.seq.toNat o.ts o.text none = .ok row)
    (hm : st₁.messages = Store.addRow st.messages row) (h : Progress L peer msgs st₁ st₂) :
    Progress L peer (m :: msgs) st st₂ where
  watermark := h.watermark.trans hw
  kept := by
    have hsub : st.messages ⊆ st₁.messages := hm ▸ Store.subset_addRow st.messages row
    exact List.Subset.trans hsub h.kept
  rows := by
    intro x hx
    rcases h.rows x hx with hx | hx
    · rw [hm] at hx
      rcases Store.mem_addRow hx with hx | rfl
      · exact Or.inl hx
      · exact Or.inr ⟨m, List.mem_cons_self, o, ho, hrow⟩
    · exact Or.inr hx.cons

/-- The loop ends when every entry is handled, and then holds a row for each row an entry gives. -/
theorem applyLoop_cases (L : Libs) (peer : Text) (msgs : List HistoryMsg) :
    ∀ (st : Store) (maxSeen added : ℕ), ∃ r st', applyLoop L peer st msgs maxSeen added = (r, st')
      ∧ Progress L peer msgs st st'
      ∧ ((∃ e, r = .error e ∧ ∃ m ∈ msgs, ¬ Handles L peer m.seq.toNat m.payload)
        ∨ ∃ added', r = .ok (maxSeq maxSeen msgs, added')
          ∧ (∀ m ∈ msgs, Handles L peer m.seq.toNat m.payload)
          ∧ ∀ row, NewRow L peer msgs row → ∃ x ∈ st'.messages, x.id = row.id) := by
  induction msgs with
  | nil =>
    intro st maxSeen added
    refine ⟨_, _, rfl, Progress.refl L peer [] st, Or.inr ⟨added, rfl, by simp, ?_⟩⟩
    rintro row ⟨m, hm, -⟩
    simp at hm
  | cons m msgs ih =>
    intro st maxSeen added
    rw [applyLoop]
    rcases ho : openMessage L (Python.str m.payload) with e | o
    · by_cases hc : caught e = true
      · -- passed over
        obtain ⟨r, st', hrun, hprog, hcase⟩ := ih st (max maxSeen m.seq.toNat) added
        simp only [hc, if_true, hrun]
        refine ⟨r, st', rfl, hprog.cons, ?_⟩
        rcases hcase with ⟨e', rfl, x, hx, hbad⟩ | ⟨added', rfl, hall, hrows⟩
        · exact Or.inl ⟨e', rfl, x, List.mem_cons_of_mem m hx, hbad⟩
        · refine Or.inr ⟨added', rfl, ?_, ?_⟩
          · exact List.forall_mem_cons.2 ⟨Or.inl ⟨e, ho, hc⟩, hall⟩
          · rintro row ⟨x, hx, o, hopen, hrow⟩
            rcases List.mem_cons.1 hx with rfl | hx
            · rw [ho] at hopen
              cases hopen
            · exact hrows row ⟨x, hx, o, hopen, hrow⟩
      · simp only [hc]
        refine ⟨_, _, rfl, Progress.refl L peer _ st, Or.inl ⟨e, rfl, m, List.mem_cons_self, ?_⟩⟩
        rintro (⟨e', he', hc'⟩ | ⟨o, ho', -⟩)
        · rw [ho] at he'
          cases he'
          exact hc hc'
        · rw [ho] at ho'
          cases ho'
    · obtain ⟨r₁, st₁, hroute, hw, hcase₁⟩ := route_cases L st peer m.seq.toNat o
      simp only [hroute]
      rcases hcase₁ with ⟨e, rfl, hbad, hm⟩ | ⟨⟨conv, isNew⟩, row, rfl, hs, hseq, hrow, hm⟩
      · refine ⟨_, _, rfl, ⟨hw, by rw [hm]; exact List.Subset.refl _, ?_⟩,
          Or.inl ⟨e, rfl, m, List.mem_cons_self, ?_⟩⟩
        · intro x hx
          rw [hm] at hx
          exact Or.inl hx
        · rintro (⟨e', he', -⟩ | ⟨o', ho', hs, hseq⟩)
          · rw [ho] at he'
            cases he'
          · rw [ho] at ho'
            cases ho'
            exact hbad ⟨hs, hseq⟩
      · obtain ⟨r, st', hrun, hprog, hcase⟩ :=
          ih st₁ (max maxSeen m.seq.toNat) (if isNew then added + 1 else added)
        simp only [hrun]
        refine ⟨r, st', rfl, hprog.route hw ho hrow hm, ?_⟩
        rcases hcase with ⟨e', rfl, x, hx, hbad⟩ | ⟨added', rfl, hall, hrows⟩
        · exact Or.inl ⟨e', rfl, x, List.mem_cons_of_mem m hx, hbad⟩
        · refine Or.inr ⟨added', rfl, ?_, ?_⟩
          · exact List.forall_mem_cons.2 ⟨Or.inr ⟨o, ho, hs, hseq⟩, hall⟩
          · rintro x ⟨y, hy, o', hopen, hx⟩
            rcases List.mem_cons.1 hy with rfl | hy
            · rw [ho] at hopen
              cases hopen
              rw [hrow] at hx
              cases hx
              obtain ⟨z, hz, hid, -⟩ := Store.exists_mem_addRow st.messages x
              rw [← hm] at hz
              exact ⟨z, hprog.kept hz, hid⟩
            · exact hrows x ⟨y, hy, o', hopen, hx⟩

theorem le_maxSeq (msgs : List HistoryMsg) : ∀ n, n ≤ maxSeq n msgs := by
  induction msgs with
  | nil => exact fun n => le_refl n
  | cons m msgs ih => exact fun n => le_trans (le_max_left n m.seq.toNat) (ih _)

theorem seq_le_maxSeq {msgs : List HistoryMsg} {m : HistoryMsg} (h : m ∈ msgs) :
    ∀ n, m.seq.toNat ≤ maxSeq n msgs := by
  induction msgs with
  | nil => simp at h
  | cons x msgs ih =>
    intro n
    rcases List.mem_cons.1 h with rfl | h
    · exact le_trans (le_max_right n m.seq.toNat) (le_maxSeq msgs _)
    · exact ih h _

theorem maxSeq_eq (msgs : List HistoryMsg) :
    ∀ n, maxSeq n msgs = n ∨ ∃ m ∈ msgs, maxSeq n msgs = m.seq.toNat := by
  induction msgs with
  | nil => exact fun n => Or.inl rfl
  | cons x msgs ih =>
    intro n
    have hstep : maxSeq n (x :: msgs) = maxSeq (max n x.seq.toNat) msgs := rfl
    rcases ih (max n x.seq.toNat) with h | ⟨m, hm, h⟩
    · rcases max_choice n x.seq.toNat with hmax | hmax
      · exact Or.inl (by rw [hstep, h, hmax])
      · exact Or.inr ⟨x, List.mem_cons_self, by rw [hstep, h, hmax]⟩
    · exact Or.inr ⟨m, List.mem_cons_of_mem x hm, by rw [hstep, h]⟩

/-- `apply` ends when every entry is handled and no seq is out of range.  A raise leaves the cursor
where it was. -/
theorem apply_cases (L : Libs) (st : Store) (peer : Text) (msgs : List HistoryMsg) :
    ∃ r st', apply L st peer msgs = (r, st')
      ∧ st.messages ⊆ st'.messages
      ∧ (∀ row ∈ st'.messages, row ∈ st.messages ∨ NewRow L peer msgs row)
      ∧ ((∃ e, r = .error e
            ∧ ¬ (∀ m ∈ msgs, m.seq.toNat < 2 ^ 63 ∧ Handles L peer m.seq.toNat m.payload)
            ∧ st'.cursor peer = st.cursor peer)
        ∨ ∃ n, r = .ok n
          ∧ (∀ m ∈ msgs, m.seq.toNat < 2 ^ 63 ∧ Handles L peer m.seq.toNat m.payload)
          ∧ (∀ row, NewRow L peer msgs row → ∃ x ∈ st'.messages, x.id = row.id)
          ∧ st'.cursor peer = maxSeq (st.cursor peer) msgs) := by
  obtain ⟨r, st₁, hrun, hprog, hcase⟩ := applyLoop_cases L peer msgs st (st.cursor peer) 0
  have hcur : st₁.cursor peer = st.cursor peer := Store.cursor_congr hprog.watermark peer
  unfold apply
  simp only [hrun]
  rcases hcase with ⟨e, rfl, m, hm, hbad⟩ | ⟨added, rfl, hall, hrows⟩
  · exact ⟨_, _, rfl, hprog.kept, hprog.rows,
      Or.inl ⟨e, rfl, fun h => hbad (h m hm).2, hcur⟩⟩
  · by_cases hlt : st.cursor peer < maxSeq (st.cursor peer) msgs
    · simp only [hlt, if_true]
      by_cases hmax : maxSeq (st.cursor peer) msgs < 2 ^ 63
      · obtain ⟨st₂, hset, hm₂, hc₂⟩ := Store.setCursor_of_lt st₁ peer hmax
        simp only [hset]
        refine ⟨_, _, rfl, by rw [hm₂]; exact hprog.kept, by rw [hm₂]; exact hprog.rows,
          Or.inr ⟨_, rfl, ?_, by rw [hm₂]; exact hrows, ?_⟩⟩
        · exact fun m hm => ⟨lt_of_le_of_lt (seq_le_maxSeq hm _) hmax, hall m hm⟩
        · rw [hc₂, hcur, max_eq_right hlt.le]
      · simp only [Store.setCursor_of_ge st₁ peer hmax]
        refine ⟨_, _, rfl, hprog.kept, hprog.rows, Or.inl ⟨_, rfl, ?_, hcur⟩⟩
        intro h
        rcases maxSeq_eq msgs (st.cursor peer) with heq | ⟨m, hm, heq⟩
        · omega
        · exact hmax (heq ▸ (h m hm).1)
    · simp only [hlt, if_false]
      have heq : maxSeq (st.cursor peer) msgs = st.cursor peer :=
        le_antisymm (not_lt.1 hlt) (le_maxSeq msgs _)
      refine ⟨_, _, rfl, hprog.kept, hprog.rows, Or.inr ⟨_, rfl, ?_, hrows, by rw [hcur, heq]⟩⟩
      intro m hm
      have hle := seq_le_maxSeq hm (st.cursor peer)
      rw [heq] at hle
      exact ⟨lt_of_le_of_lt hle (st.cursor_lt peer), hall m hm⟩

/-- A message as `seal_message` makes them: a text, an integer time, and possibly a conversation and
a roster. -/
structure WellFormed (o : Opened) : Prop where
  text : ∃ s, o.text = .str s
  ts : ∃ n, o.ts = .int n
  conv : o.conv = none ∨ o.conv = some .null ∨ ∃ s, o.conv = some (.str s)
  members : o.members = none ∨ o.members = some .null
    ∨ ∃ ms, o.members = some (.arr ms) ∧ ∀ m ∈ ms, ∃ fields s,
      m = .obj fields ∧ Python.get? fields Field.node = some (.str s)

theorem WellFormed.convOf_eq (h : WellFormed o) (peer : Text) : ∃ s, convOf peer o = .str s := by
  unfold convOf
  rcases h.conv with hc | hc | ⟨s, hc⟩
  · rw [hc]
    exact ⟨_, rfl⟩
  · rw [hc]
    exact ⟨_, rfl⟩
  · rw [hc]
    simp only []
    split
    · exact ⟨_, rfl⟩
    · exact ⟨_, rfl⟩

/-- A message whose row is not passed over: neither its time nor its conversation becomes `NULL`. -/
structure HasRow (peer : Text) (o : Opened) : Prop where
  ts_ne_null : o.ts ≠ .null
  ts_ne_nan : o.ts ≠ .float .nan
  conv_ne_nan : convOf peer o ≠ .float .nan

theorem bindValue_eq_null {v : Json} (h : bindValue v = .ok .null) :
    v = .null ∨ v = .float .nan := by
  cases v with
  | null => exact Or.inl rfl
  | float x =>
    cases x with
    | nan => exact Or.inr rfl
    | _ => cases h
  | int n =>
    simp only [bindValue] at h
    split at h <;> cases h
  | str s =>
    simp only [bindValue] at h
    split at h <;> cases h
  | _ => cases h

theorem convOf_ne_null (peer : Text) (o : Opened) : convOf peer o ≠ .null := by
  unfold convOf
  split
  · split
    · rename_i conv _ ht
      rintro rfl
      cases ht
    · simp
  · simp

theorem HasRow.exists_row (h : HasRow peer o) {r : Option Message}
    (hr : Store.incomingRow L (convOf peer o) peer seq o.ts o.text none = .ok r) :
    ∃ row, r = some row := by
  obtain ⟨t, c, x, -, hc, hx, -, hrow⟩ := Store.incomingRow_eq_ok.1 hr
  have hx' : x ≠ .null := by
    rintro rfl
    rcases bindValue_eq_null hx with hn | hn
    · exact h.ts_ne_null hn
    · exact h.ts_ne_nan hn
  have hc' : c ≠ .null := by
    rintro rfl
    rcases bindValue_eq_null hc with hn | hn
    · exact convOf_ne_null peer o hn
    · exact h.conv_ne_nan hn
  have htext : ∃ s, c.toText L = some s := by
    cases c with
    | null => exact absurd rfl hc'
    | _ => exact ⟨_, rfl⟩
  obtain ⟨s, hs⟩ := htext
  rw [Store.rowOf, hs] at hrow
  simp only [hx', if_false] at hrow
  exact ⟨_, hrow.symm⟩

theorem WellFormed.hasRow (h : WellFormed o) (peer : Text) : HasRow peer o := by
  obtain ⟨n, hn⟩ := h.ts
  obtain ⟨s, hs⟩ := h.convOf_eq peer
  exact ⟨by simp [hn], by simp [hn], by simp [hs]⟩

/-- What is asked of `apply`: it completes, every entry that opens into a well-formed message is
stored under the identity of its seq (as it is, or as it already was), and the cursor is the larger
of the old one and the largest seq. -/
structure ApplySound (L : Libs) (st : Store) (peer : Text) (msgs : List HistoryMsg) : Prop where
  completes : ∃ n, (apply L st peer msgs).1 = .ok n
  stores : ∀ m ∈ msgs, ∀ o, openMessage L (Python.str m.payload) = .ok o → WellFormed o →
    ∃ row ∈ (apply L st peer msgs).2.messages, row.id = messageId peer m.seq.toNat
      ∧ (row ∈ st.messages ∨ ∃ m' ∈ msgs, ∃ o', m'.seq = m.seq
        ∧ openMessage L (Python.str m'.payload) = .ok o'
        ∧ Store.incomingRow L (convOf peer o') peer m.seq.toNat o'.ts o'.text none = .ok (some row))
  cursor : (apply L st peer msgs).2.cursor peer = maxSeq (st.cursor peer) msgs

theorem applySound_iff (L : Libs) (st : Store) (peer : Text) (msgs : List HistoryMsg) :
    ApplySound L st peer msgs
      ↔ ∀ m ∈ msgs, m.seq.toNat < 2 ^ 63 ∧ Handles L peer m.seq.toNat m.payload := by
  obtain ⟨r, st', hrun, -, hrows, hcase⟩ := apply_cases L st peer msgs
  constructor
  · rintro ⟨⟨n, hn⟩, -, -⟩
    rcases hcase with ⟨e, rfl, -, -⟩ | ⟨n', rfl, hall, -, -⟩
    · rw [hrun] at hn
      cases hn
    · exact hall
  · intro hall
    rcases hcase with ⟨e, rfl, hbad, -⟩ | ⟨n, rfl, -, hstored, hcur⟩
    · exact absurd hall hbad
    · refine ⟨⟨n, by rw [hrun]⟩, ?_, by rw [hrun]; exact hcur⟩
      intro m hm o ho hwf
      rw [hrun]
      obtain ⟨hseq, hh⟩ := hall m hm
      have hs : Storable L peer o := by
        rcases hh with ⟨e, he, -⟩ | ⟨o', ho', hs, -⟩
        · rw [ho] at he
          cases he
        · rw [ho] at ho'
          cases ho'
          exact hs
      obtain ⟨r, hr⟩ := hs.exists_row hseq
      obtain ⟨row, rfl⟩ := (hwf.hasRow peer).exists_row hr
      obtain ⟨x, hx, hid⟩ := hstored row ⟨m, hm, o, ho, hr⟩
      rw [Store.incomingRow_id hr] at hid
      refine ⟨x, hx, hid, ?_⟩
      rcases hrows x hx with hx | ⟨m', hm', o', ho', hrow'⟩
      · exact Or.inl hx
      · -- a row under this identity comes from an entry of the same seq
        have hsame : m'.seq.toNat = m.seq.toNat := by
          rw [Store.incomingRow_id hrow'] at hid
          exact messageId_inj.1 hid
        rw [hsame] at hrow'
        exact Or.inr ⟨m', hm', o', UInt64.toNat_inj.1 hsame, ho', hrow'⟩

/-- `ingest_opened` raises where `route` does; else the cursor has reached the seq. -/
theorem ingestOpened_cases (L : Libs) (st : Store) (peer : Text) (seq : ℕ) (o : Opened) :
    ∃ r st', ingestOpened L st peer seq o = (r, st')
      ∧ ((∃ e, r = .error e ∧ ¬ (Storable L peer o ∧ seq < 2 ^ 63) ∧ st'.messages = st.messages
            ∧ st'.cursor peer = st.cursor peer)
        ∨ ∃ b row, r = .ok b ∧ Storable L peer o ∧ seq < 2 ^ 63
          ∧ Store.incomingRow L (convOf peer o) peer seq o.ts o.text none = .ok row
          ∧ st'.messages = Store.addRow st.messages row
          ∧ st'.cursor peer = max (st.cursor peer) seq) := by
  obtain ⟨r, st₁, hroute, hw, hcase⟩ := route_cases L st peer seq o
  have hcur : st₁.cursor peer = st.cursor peer := Store.cursor_congr hw peer
  unfold ingestOpened
  simp only [hroute]
  rcases hcase with ⟨e, rfl, hbad, hm⟩ | ⟨b, row, rfl, hs, hseq, hrow, hm⟩
  · exact ⟨_, _, rfl, Or.inl ⟨e, rfl, hbad, hm, hcur⟩⟩
  · simp only [hcur]
    by_cases hlt : st.cursor peer < seq
    · obtain ⟨st₂, hset, hm₂, hc₂⟩ := Store.setCursor_of_lt st₁ peer hseq
      simp only [hlt, if_true, hset]
      exact ⟨_, _, rfl, Or.inr ⟨b, row, rfl, hs, hseq, hrow, hm₂.trans hm, by rw [hc₂, hcur]⟩⟩
    · simp only [hlt, if_false]
      refine ⟨_, _, rfl, Or.inr ⟨b, row, rfl, hs, hseq, hrow, hm, ?_⟩⟩
      rw [hcur, max_eq_left (not_lt.1 hlt)]

/-- `on_event` raises where the payload is not handled. -/
theorem onEvent_cases (L : Libs) (st : Store) {ev : RecvEvent} {peer payload : Text}
    (hpeer : ev.sender = some peer) (hne : peer ≠ []) (hpayload : ev.payload = some payload) :
    ∃ r st', onEvent L st ev = (r, st')
      ∧ ((∃ e, r = .error e ∧ ¬ Handles L peer ev.seqOrZero payload
            ∧ st'.messages = st.messages ∧ st'.cursor peer = st.cursor peer)
        ∨ (∃ b, r = .ok b ∧ Skipped L payload ∧ st' = st)
        ∨ ∃ b o row, r = .ok b ∧ openMessage L (Python.str payload) = .ok o
          ∧ Storable L peer o ∧ ev.seqOrZero < 2 ^ 63
          ∧ Store.incomingRow L (convOf peer o) peer ev.seqOrZero o.ts o.text none = .ok row
          ∧ st'.messages = Store.addRow st.messages row
          ∧ st'.cursor peer = max (st.cursor peer) ev.seqOrZero) := by
  unfold onEvent
  rw [hpeer, hpayload]
  simp only [hne, if_false]
  rcases ho : openMessage L (Python.str payload) with e | o
  · by_cases hc : caught e = true
    · simp only [hc, if_true]
      exact ⟨_, _, rfl, Or.inr (Or.inl ⟨_, rfl, ⟨e, ho, hc⟩, rfl⟩)⟩
    · simp only [hc]
      refine ⟨_, _, rfl, Or.inl ⟨e, rfl, ?_, rfl, rfl⟩⟩
      rintro (⟨e', he', hc'⟩ | ⟨o, ho', -⟩)
      · rw [ho] at he'
        cases he'
        exact hc hc'
      · rw [ho] at ho'
        cases ho'
  · obtain ⟨r, st', hrun, hcase⟩ := ingestOpened_cases L st peer ev.seqOrZero o
    simp only [hrun]
    rcases hcase with ⟨e, rfl, hbad, hm, hcur⟩ | ⟨⟨conv, isNew⟩, row, rfl, hs, hseq, hrow, hm, hcur⟩
    · refine ⟨_, _, rfl, Or.inl ⟨e, rfl, ?_, hm, hcur⟩⟩
      rintro (⟨e', he', -⟩ | ⟨o', ho', hs, hseq⟩)
      · rw [ho] at he'
        cases he'
      · rw [ho] at ho'
        cases ho'
        exact hbad ⟨hs, hseq⟩
    · exact ⟨_, _, rfl, Or.inr (Or.inr ⟨_, o, row, rfl, rfl, hs, hseq, hrow, hm, hcur⟩)⟩

theorem onEvent_ok_iff (L : Libs) (st : Store) (ev : RecvEvent) :
    (∃ r, (onEvent L st ev).1 = .ok r)
      ↔ ∀ peer payload, ev.sender = some peer → peer ≠ [] → ev.payload = some payload →
        Handles L peer ev.seqOrZero payload := by
  constructor
  · rintro ⟨r, hr⟩ peer payload hpeer hne hpayload
    obtain ⟨r', st', hrun, hcase⟩ := onEvent_cases L st hpeer hne hpayload
    rw [hrun] at hr
    rcases hcase with ⟨e, rfl, -⟩ | ⟨b, -, hskip, -⟩ | ⟨b, o, row, -, ho, hs, hseq, -⟩
    · cases hr
    · exact Or.inl hskip
    · exact Or.inr ⟨o, ho, hs, hseq⟩
  · intro h
    rcases hpeer : ev.sender with _ | peer
    · exact ⟨_, by simp only [onEvent, hpeer]; rfl⟩
    by_cases hne : peer = []
    · exact ⟨_, by simp only [onEvent, hpeer, hne, if_true]; rfl⟩
    rcases hpayload : ev.payload with _ | payload
    · exact ⟨_, by simp only [onEvent, hpeer, hpayload, hne, if_false]; rfl⟩
    obtain ⟨r', st', hrun, hcase⟩ := onEvent_cases L st hpeer hne hpayload
    rcases hcase with ⟨e, -, hbad, -⟩ | ⟨b, rfl, -⟩ | ⟨b, o, row, rfl, -⟩
    · exact absurd (h peer payload hpeer hne hpayload) hbad
    · exact ⟨b, by rw [hrun]⟩
    · exact ⟨b, by rw [hrun]⟩

/-- A payload stalls neither path exactly when `open_message` refuses it with an exception that is
caught or gives a storable message, and its seq is in range. -/
theorem sync_never_stalls_iff (L : Libs) :
    (∀ (st : Store) (peer : Text) (msgs : List HistoryMsg), ApplySound L st peer msgs
        ↔ ∀ m ∈ msgs, m.seq.toNat < 2 ^ 63 ∧ Handles L peer m.seq.toNat m.payload)
      ∧ ∀ (st : Store) (ev : RecvEvent), (∃ r, (onEvent L st ev).1 = .ok r)
        ↔ ∀ peer payload, ev.sender = some peer → peer ≠ [] → ev.payload = some payload →
          Handles L peer ev.seqOrZero payload :=
  ⟨applySound_iff L, onEvent_ok_iff L⟩

/-- An identity for which no ciphertext opens. -/
def strangerLibs : Libs where
  sealOpen _ := none
  verifies _ _ _ := false
  loads _ := .error .valueError
  loadsBytes _ := .error .valueError
  dumps _ := .ok []
  sha256 _ := []
  realText _ := []

/-- 48 bytes that do not open leave the loop by a `CryptoError` with the cursor behind them, and so
does an event of type `file`; a single byte does it by a `TypeError`. -/
theorem poison_payload_stalls :
    ¬ ApplySound strangerLibs {} ['a'] [⟨1, 0, Base64.encode (List.replicate 48 0)⟩]
      ∧ ¬ ApplySound strangerLibs {} ['a'] [⟨1, 0, Base64.encode [0]⟩]
      ∧ ¬ ∃ r, (onEvent strangerLibs {}
        ⟨some ['a'], some 1, some 5, some (Base64.encode (List.replicate 48 0)), true⟩).1 = .ok r := by
  refine ⟨?_, ?_, ?_⟩
  · rintro ⟨⟨n, hn⟩, -, -⟩
    cases hn
  · rintro ⟨⟨n, hn⟩, -, -⟩
    cases hn
  · rintro ⟨r, hr⟩
    cases hr

end Sync

end Aimless
