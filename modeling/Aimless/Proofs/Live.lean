import Aimless.Lib.SortKeys
import Aimless.Proofs.RoomDelivery
import Aimless.Proofs.Window

/-!
# A message handled live and the same message caught up with

`incoming` of the window and `apply` of the sync each route a message into the store.  They differ
in whether a message that names no conversation can carry a roster, in what is kept of a roster's
entries, and in what becomes of a message whose conversation has no thread.
`live_as_caught_up_iff` says for which messages none of this shows.
-/

namespace Aimless

open Python (Str Exc Json Dict)

namespace Store

variable {L : Libs} {st : Store} {conv : Str} {sender : Text} {seq : ℕ} {ts text : Json}

theorem hasConv_some : st.hasConv (some conv) = (st.convRow conv).isSome := by
  simp only [hasConv, Option.isSome_some, Bool.true_and, convRow]
  rw [Bool.eq_iff_iff]
  simp

theorem isRoom_congr {st' : Store} (h : st'.conversations = st.conversations) :
    st'.isRoom conv = st.isRoom conv := by
  unfold isRoom convRow
  rw [h]

/-- An update of conversations that keeps their ids. -/
theorem convRow_map {f : Conversation → Conversation} (hf : ∀ c, (f c).id = c.id)
    {st' : Store} (h : st'.conversations = st.conversations.map f) :
    st'.convRow conv = (st.convRow conv).map f := by
  unfold convRow
  rw [h, List.find?_map]
  congr 2
  funext c
  simp [hf c]

theorem convRow_append {c : Conversation} {st' : Store}
    (h : st'.conversations = st.conversations ++ [c]) :
    st'.convRow conv = (st.convRow conv).or (if c.id = some conv then some c else none) := by
  unfold convRow
  rw [h, List.find?_append, List.find?_singleton]
  congr 1
  by_cases hc : c.id = some conv
  · simp [hc]
  · simp [hc]

theorem convRow_id {c : Conversation} (h : st.convRow conv = some c) : c.id = some conv := by
  simpa using List.find?_some h

/-- What `is_room` and `members` tell of a conversation, the roster up to the order of keys. -/
def view (L : Libs) (st : Store) (conv : Str) : Bool × Except Exc Json :=
  (st.isRoom conv, (st.members L conv).map Json.sortKeys)

theorem view_of_row {c : Conversation} (h : st.convRow conv = some c) :
    st.view L conv = (!c.dm, (L.loads c.members).map Json.sortKeys) := by
  simp [view, isRoom, members, h]

/-- `ensureRoom` of a roster that can be written and read. -/
theorem ensureRoom_view (henc : Python.encodable conv = true) {d : Dict} {t : Str} {roster : Json}
    (ht : L.dumps d = .ok t) (hroster : L.loads t = .ok roster) (st : Store) :
    ∃ st' c, st.ensureRoom L (.str conv) d = (.ok (), st') ∧ st'.messages = st.messages
      ∧ st'.convRow conv = some c ∧ c.dm = false ∧ c.hidden = false
      ∧ st'.view L conv = (true, .ok roster.sortKeys) := by
  have hview : ∀ {st' : Store} {c : Conversation}, st'.convRow conv = some c → c.dm = false →
      c.members = t → st'.view L conv = (true, .ok roster.sortKeys) := by
    intro st' c hc hdm hm
    rw [view_of_row hc, hdm, hm, hroster]
    rfl
  rcases hrow : st.convRow conv with _ | c
  · set st' : Store :=
      { st with conversations := st.conversations ++ [⟨some conv, false, t, false, false⟩] }
    have hnew : st'.convRow conv = some ⟨some conv, false, t, false, false⟩ := by
      rw [convRow_append rfl, hrow]
      simp
    refine ⟨st', _, ?_, rfl, hnew, rfl, rfl, hview hnew rfl rfl⟩
    simp [ensureRoom, ht, bindValue, henc, SqlVal.toText, hasConv_some, hrow, st']
  · set update : Conversation → Conversation := fun c =>
      if c.id = some conv then { c with dm := false, members := t, hidden := false } else c
    set st' : Store := { st with conversations := st.conversations.map update }
    have hkeep : ∀ c, (update c).id = c.id := fun c => by
      simp only [update]
      split
      · rfl
      · rfl
    have hupdate : update c = { c with dm := false, members := t, hidden := false } :=
      if_pos (convRow_id hrow)
    have hnew : st'.convRow conv = some (update c) := by
      rw [convRow_map hkeep rfl, hrow]
      rfl
    rw [hupdate] at hnew
    refine ⟨st', _, ?_, rfl, hnew, rfl, rfl, hview hnew rfl rfl⟩
    simp only [ensureRoom, ht, bindValue, henc, if_true, SqlVal.toText, hasConv_some, hrow,
      Option.isSome_some]
    rfl

/-- A message comes in with a row of its own. -/
def Adds (L : Libs) (st : Store) (conv : Json) (sender : Text) (seq : ℕ) (ts text : Json) : Prop :=
  ∃ row, incomingRow L conv sender seq ts text none = .ok (some row)
    ∧ row.id ∉ st.messages.map Message.id

theorem ingest_messages_eq_iff {conv : Json} : (st.ingest L conv sender seq ts text).2.messages
    = st.messages ↔ ¬ Adds L st conv sender seq ts text := by
  obtain ⟨r, st', hrun, -, ⟨e, -, hrow, hm⟩ | ⟨b, row, -, hrow, hm⟩⟩ :=
    ingest_cases L st conv sender seq ts text
  · rw [hrun]
    exact ⟨fun _ ⟨row, h, _⟩ => hrow _ h, fun _ => hm⟩
  · rw [hrun, hm]
    cases row with
    | none => simp [addRow, Adds, hrow]
    | some row =>
      have hadds : Adds L st conv sender seq ts text ↔ row.id ∉ st.messages.map Message.id := by
        constructor
        · rintro ⟨row', hrow', hnew⟩
          rw [hrow] at hrow'
          cases hrow'
          exact hnew
        · exact fun hnew => ⟨row, hrow, hnew⟩
      rw [hadds, not_not, addRow]
      by_cases htaken : row.id ∈ st.messages.map Message.id
      · rw [if_pos (by simpa using htaken)]
        exact iff_of_true rfl htaken
      · rw [if_neg (by simpa using htaken)]
        exact iff_of_false (by simp) htaken

/-- What comes in depends on the messages only. -/
theorem ingest_messages_congr {st st' : Store} (h : st'.messages = st.messages) (conv : Json)
    (sender : Text) (seq : ℕ) (ts text : Json) :
    (st'.ingest L conv sender seq ts text).2.messages
      = (st.ingest L conv sender seq ts text).2.messages := by
  obtain ⟨r, st₁, hrun, -, hcase⟩ := ingest_cases L st conv sender seq ts text
  obtain ⟨r', st₁', hrun', -, hcase'⟩ := ingest_cases L st' conv sender seq ts text
  rw [hrun, hrun']
  rcases hcase with ⟨e, -, hrow, hm⟩ | ⟨b, row, -, hrow, hm⟩
  · rcases hcase' with ⟨e', -, -, hm'⟩ | ⟨b', row', -, hrow', -⟩
    · rw [hm, hm', h]
    · exact absurd hrow' (hrow row')
  · rcases hcase' with ⟨e', -, hrow', -⟩ | ⟨b', row', -, hrow', hm'⟩
    · exact absurd hrow (hrow' row)
    · rw [hrow] at hrow'
      cases hrow'
      rw [hm, hm', h]

theorem insertMessage_view (st : Store) (m : Message) (conv : Str) :
    (st.insertMessage m).2.view L conv = st.view L conv := by
  unfold insertMessage
  dsimp only
  split
  · rfl
  set unhide : Conversation → Conversation := fun c =>
    if c.id = some m.conv then { c with hidden := false } else c
  have hkeep : ∀ c, (unhide c).id = c.id ∧ (unhide c).dm = c.dm
      ∧ (unhide c).members = c.members := fun c => by
    simp only [unhide]
    split
    · exact ⟨rfl, rfl, rfl⟩
    · exact ⟨rfl, rfl, rfl⟩
  set st' : Store := { st with
    messages := st.messages ++ [m], conversations := st.conversations.map unhide }
  have hrow' : st'.convRow conv = (st.convRow conv).map unhide :=
    convRow_map (fun c => (hkeep c).1) rfl
  rcases hrow : st.convRow conv with _ | c <;> rw [hrow] at hrow'
  · simp only [view, isRoom, members, hrow, hrow', Option.map_none]
  · rw [view_of_row hrow', view_of_row hrow, (hkeep c).2.1, (hkeep c).2.2]

/-- `ingest` makes a room of a conversation that is new unless it is the sender's own, and changes
nothing of one that is there. -/
theorem ingest_view (henc : Python.encodable conv = true)
    (hempty : L.loads (Python.str ['\x7b', '\x7d']) = .ok (.obj [])) (st : Store) :
    (st.ingest L (.str conv) sender seq ts text).2.view L conv = st.view L conv
      ↔ (st.convRow conv).isSome ∨ conv = Python.str sender := by
  -- once the conversation is ensured, its row stays
  obtain ⟨st₁, hens, hview⟩ : ∃ st₁,
      st.ensureConv L (.str conv) ((Json.str conv).eqStr (Python.str sender)) = (.ok (), st₁)
        ∧ (st₁.view L conv = st.view L conv
          ↔ (st.convRow conv).isSome ∨ conv = Python.str sender) := by
    rcases hrow : st.convRow conv with _ | c
    · set c : Conversation := ⟨some conv, (Json.str conv).eqStr (Python.str sender),
        Python.str ['\x7b', '\x7d'], false, false⟩
      set st₁ : Store := { st with conversations := st.conversations ++ [c] }
      have hnew : st₁.convRow conv = some c := by
        rw [convRow_append rfl, hrow]
        simp [c]
      refine ⟨st₁, ?_, ?_⟩
      · simp [ensureConv, bindValue, henc, SqlVal.toText, hasConv_some, hrow, st₁, c]
      · rw [view_of_row hnew]
        simp [view, isRoom, members, hrow, hempty, Json.eqStr, Except.map, c]
    · refine ⟨st, ?_, by simp⟩
      simp [ensureConv, bindValue, henc, SqlVal.toText, hasConv_some, hrow]
  rw [← hview]
  unfold ingest
  rw [hens]
  dsimp only
  rcases incomingRow L (.str conv) sender seq ts text none with e | _ | row
  · rfl
  · rfl
  · dsimp only
    rw [insertMessage_view]

/-- A room that is ensured is as muted as the conversation was. -/
theorem ensureRoom_muted {conv : Json} (h : st.isConversationMuted L conv = .ok false) (d : Dict) :
    (st.ensureRoom L conv d).2.isConversationMuted L conv = .ok false := by
  unfold ensureRoom
  split
  · exact h
  rcases hbind : bindValue conv with e | v
  · exact h
  simp only [isConversationMuted, hbind, Except.map] at h ⊢
  have hnone := Except.ok.inj h
  split
  · rw [List.any_map]
    refine congrArg _ (Eq.trans (congrArg _ ?_) hnone)
    funext c
    simp only [Function.comp_apply]
    split
    · rfl
    · rfl
  · rw [List.any_append, hnone]
    simp

end Store

/-! ### The roster of a well-formed message -/

theorem Dict.set_ne_nil (d : Dict) (k v : Json) : Dict.set d k v ≠ [] := by
  unfold Python.Dict.set
  split
  · rename_i hany
    rintro hnil
    rw [List.map_eq_nil_iff] at hnil
    rw [hnil] at hany
    simp at hany
  · simp

theorem memberEntries_ne_nil : ∀ {ms : List Json} {d d' : Dict}, memberEntries ms d = .ok d' →
    (ms ≠ [] ∨ d ≠ []) → d' ≠ []
  | [], d, d', h, hne => by
    cases h
    exact hne.resolve_left fun h => h rfl
  | m :: ms, d, d', h, _ => by
    unfold memberEntries at h
    obtain ⟨⟨node, info⟩, -, hrest⟩ := Python.bind_eq_ok.1 h
    exact memberEntries_ne_nil hrest (.inr (Dict.set_ne_nil d node info))

/-- A roster as `json.loads` gives it back. -/
def rosterJson (d : Dict) : Json :=
  .obj (d.filterMap fun e =>
    match e.1 with
    | .str s => some (s, e.2)
    | _ => none)

/-- `json.dumps` writes the rosters of a message, and `json.loads` reads them back. -/
structure JsonText (L : Libs) (o : Opened) : Prop where
  empty : L.loads (Python.str ['\x7b', '\x7d']) = .ok (.obj [])
  roster : ∀ d, Sync.roster o = .ok (some d) ∨ memberDict (o.members.getD (.arr [])) = .ok d →
    ∃ t, L.dumps d = .ok t ∧ L.loads t = .ok (rosterJson d)

/-- The message names its conversation. -/
def Opened.Named (o : Opened) : Prop := ∃ c, o.conv = some c ∧ c.truthy = true

/-- The two readings of a roster agree on whether it is empty, where the window's does not raise. -/
theorem roster_cases {o : Opened} (h : Sync.WellFormed o) :
    (Sync.roster o = .ok none
      ∧ ∀ d, memberDict (o.members.getD (.arr [])) = .ok d → d = [])
    ∨ ∃ d, Sync.roster o = .ok (some d)
      ∧ ∀ d', memberDict (o.members.getD (.arr [])) = .ok d' → d' ≠ [] := by
  rcases h.members with hm | hm | ⟨ms, hm, hall⟩
  · refine .inl ⟨by simp [Sync.roster, hm], fun d hd => ?_⟩
    rw [hm] at hd
    cases hd
    rfl
  · refine .inl ⟨by simp [Sync.roster, hm, Json.truthy], fun d hd => ?_⟩
    rw [hm] at hd
    cases hd
  · cases ms with
    | nil =>
      refine .inl ⟨by simp [Sync.roster, hm, Json.truthy], fun d hd => ?_⟩
      rw [hm] at hd
      cases hd
      rfl
    | cons m ms =>
      obtain ⟨d, hd⟩ : ∃ d, Sync.rosterOf (m :: ms) [] = .ok d :=
          Sync.rosterOf_ok_iff.2 fun x hx => by
        obtain ⟨fields, s, rfl, hnode⟩ := hall x hx
        exact ⟨fields, .str s, rfl, hnode, rfl⟩
      refine .inr ⟨d, by simp [Sync.roster, hm, Json.truthy, hd, Except.map], fun d' hd' => ?_⟩
      rw [hm] at hd'
      obtain ⟨l, hl, hd'⟩ := Python.bind_eq_ok.1 hd'
      cases hl
      exact memberEntries_ne_nil hd' (.inl (List.cons_ne_nil m ms))

namespace Window

variable {L : Libs} {me : Self} {w : Window} {conv : Str} {node : Text} {seq : ℕ} {o : Opened}

/-! ### Whether a conversation has a thread -/

theorem any_addThread (b : Bool) (l : List Str) : ∀ threads : List Thread,
    ((l.foldl (addThread b) threads).any fun t => t.conv = conv)
      = ((threads.any fun t => t.conv = conv) || decide (conv ∈ l)) := by
  induction l with
  | nil => simp
  | cons s l ih =>
    intro threads
    rw [List.foldl_cons, ih]
    unfold addThread
    by_cases hs : s = conv
    · subst hs
      split
      · rename_i hany
        simp [hany]
      · simp
    · have hs' : ¬ conv = s := fun h => hs h.symm
      split
      · simp [hs']
      · simp [hs, hs']

/-- Every room has a title. -/
def Drawable (L : Libs) (me : Self) (st : Store) : Prop :=
  ∀ r ∈ st.rooms, ∃ screens, roomScreens L me r.2 = .ok screens

variable (me) in
theorem addRooms_spec : ∀ (rooms : List (Str × Str)) (threads : List Thread),
    ((∀ r ∈ rooms, ∃ screens, roomScreens L me r.2 = .ok screens) →
      addRooms L me rooms threads
        = (.ok (), (rooms.map Prod.fst).foldl (addThread true) threads))
    ∧ (¬ (∀ r ∈ rooms, ∃ screens, roomScreens L me r.2 = .ok screens) →
      ∃ e threads', addRooms L me rooms threads = (.error e, threads'))
  | [], threads => ⟨fun _ => rfl, fun h => absurd (fun r hr => absurd hr List.not_mem_nil) h⟩
  | (s, roster) :: rooms, threads => by
    obtain ⟨hok, herr⟩ := addRooms_spec rooms (addThread true threads s)
    rw [List.forall_mem_cons, addRooms]
    rcases hscreens : roomScreens L me roster with e | screens
    · refine ⟨fun h => ?_, fun _ => ⟨e, threads, rfl⟩⟩
      obtain ⟨⟨x, hx⟩, -⟩ := h
      cases hx
    · exact ⟨fun h => hok h.2, fun h => herr fun h' => h ⟨⟨screens, rfl⟩, h'⟩⟩

variable (me) in
theorem syncSidebar_spec (w : Window) :
    (Drawable L me w.store → ∃ w', w.syncSidebar L me = (.ok (), w') ∧ w'.store = w.store
      ∧ ∀ conv, w.hasThread (.str conv) = false →
        (w'.hasThread (.str conv) = true
          ↔ (∃ c ∈ w.contacts, Python.str c.node = conv) ∨ ∃ r ∈ w.store.rooms, r.1 = conv))
    ∧ (¬ Drawable L me w.store → ∃ e w', w.syncSidebar L me = (.error e, w')
      ∧ w'.store = w.store) := by
  unfold syncSidebar
  dsimp only
  set nodes := w.contacts.map fun c => Python.str c.node
  set kept := w.threads.filter fun t => t.isRoom || nodes.any fun n => n = t.conv
  obtain ⟨hok, herr⟩ := addRooms_spec (L := L) me w.store.rooms
    (nodes.foldl (addThread false) kept)
  refine ⟨fun h => ?_, fun h => ?_⟩
  · rw [hok h]
    refine ⟨_, rfl, rfl, fun conv hnone => ?_⟩
    have hkept : (kept.any fun t => t.conv = conv) = false := by
      rw [Bool.eq_false_iff]
      intro hany
      obtain ⟨t, ht, hconv⟩ := List.any_eq_true.1 hany
      have hthread : w.hasThread (.str conv) = true :=
        List.any_eq_true.2 ⟨t, List.mem_of_mem_filter ht, hconv⟩
      rw [hnone] at hthread
      cases hthread
    simp only [hasThread]
    rw [any_addThread, any_addThread, hkept]
    simp [nodes]
  · obtain ⟨e, threads', herr⟩ := herr h
    rw [herr]
    exact ⟨e, _, rfl, rfl⟩

/-- The conversation has a thread, or gets one when the sidebar is synced with the store. -/
def Placed (L : Libs) (me : Self) (w : Window) (st : Store) (conv : Str) : Prop :=
  w.hasThread (.str conv) = true
    ∨ Drawable L me st
      ∧ ((∃ c ∈ w.contacts, Python.str c.node = conv) ∨ ∃ r ∈ st.rooms, r.1 = conv)

variable (me conv node seq o) in
theorem incomingContact_placed (w : Window) :
    (Placed L me w w.store conv → (w.incomingContact L me (.str conv) node seq o).2.store
      = (w.store.ingest L (.str conv) node seq o.ts o.text).2)
    ∧ (¬ Placed L me w w.store conv →
      (w.incomingContact L me (.str conv) node seq o).2.store = w.store) := by
  unfold incomingContact
  by_cases hthread : w.hasThread (.str conv) = true
  · rw [if_pos hthread]
    dsimp only
    rw [if_pos hthread, addRecv_spec]
    exact ⟨fun _ => rfl, fun h => absurd (.inl hthread) h⟩
  rw [if_neg hthread]
  obtain ⟨hok, herr⟩ := w.syncSidebar_spec (L := L) me
  by_cases hdraw : Drawable L me w.store
  · obtain ⟨w', hsync, hstore, hthreads⟩ := hok hdraw
    have hplaced := hthreads conv (Bool.eq_false_iff.2 hthread)
    rw [hsync]
    dsimp only
    by_cases hthread' : w'.hasThread (.str conv) = true
    · rw [if_pos hthread', addRecv_spec, hstore]
      exact ⟨fun _ => rfl, fun h => absurd (.inr ⟨hdraw, hplaced.1 hthread'⟩) h⟩
    · rw [if_neg hthread']
      refine ⟨fun h => ?_, fun _ => hstore⟩
      rcases h with h | ⟨-, h⟩
      · exact absurd h hthread
      · exact absurd (hplaced.2 h) hthread'
  · obtain ⟨e, w', hsync, hstore⟩ := herr hdraw
    rw [hsync]
    refine ⟨fun h => ?_, fun _ => hstore⟩
    rcases h with h | ⟨h, -⟩
    · exact absurd h hthread
    · exact absurd h hdraw

/-! ### The two paths -/

/-- The store once the conversation of a live message is named. -/
def namedStore (L : Libs) (st : Store) (o : Opened) : Store :=
  (ensureNamed L st o.conv (o.members.getD (.arr []))).2

/-- The window can read the roster, where it looks at it. -/
def Reads (o : Opened) : Prop :=
  o.Named → ∃ d, memberDict (o.members.getD (.arr [])) = .ok d

theorem conv_of_named (h : o.Named) (hconv : Sync.convOf node o = .str conv) :
    o.conv = some (.str conv) ∧ (Json.str conv).truthy = true := by
  obtain ⟨c, hc, ht⟩ := h
  unfold Sync.convOf at hconv
  rw [hc] at hconv
  dsimp only at hconv
  rw [if_pos ht] at hconv
  subst hconv
  exact ⟨hc, ht⟩

/-- What naming its conversation does for a live message. -/
theorem ensureNamed_cases (hjson : JsonText L o) (hconv : Sync.convOf node o = .str conv)
    (henc : Python.encodable conv = true) (st : Store) :
    (¬ Reads o ∧ ∃ e, ensureNamed L st o.conv (o.members.getD (.arr [])) = (.error e, st))
    ∨ Reads o ∧ ∃ st', ensureNamed L st o.conv (o.members.getD (.arr [])) = (.ok (), st')
      ∧ st'.messages = st.messages
      ∧ ((∀ d, ¬ (o.Named ∧ memberDict (o.members.getD (.arr [])) = .ok d ∧ d ≠ [])) ∧ st' = st
        ∨ ∃ d, o.Named ∧ memberDict (o.members.getD (.arr [])) = .ok d ∧ d ≠ []
          ∧ st' = (st.ensureRoom L (.str conv) d).2 ∧ (st'.convRow conv).isSome
          ∧ st'.view L conv = (true, .ok (rosterJson d).sortKeys)) := by
  by_cases hnamed : o.Named
  · obtain ⟨hc, ht⟩ := conv_of_named hnamed hconv
    unfold ensureNamed
    rw [hc]
    dsimp only
    rw [if_pos ht]
    rcases hd : memberDict (o.members.getD (.arr [])) with e | d
    · refine .inl ⟨fun h => ?_, e, rfl⟩
      obtain ⟨d, hd'⟩ := h hnamed
      rw [hd] at hd'
      cases hd'
    · refine .inr ⟨fun _ => ⟨d, hd⟩, ?_⟩
      dsimp only
      by_cases hnil : d = []
      · subst hnil
        refine ⟨st, rfl, rfl, .inl ⟨?_, rfl⟩⟩
        rintro d ⟨-, hd', hne⟩
        exact hne (Except.ok.inj hd').symm
      · obtain ⟨t, htext, hread⟩ := hjson.roster d (.inr hd)
        obtain ⟨st', c, hens, hm, hrow, -, -, hview⟩ := Store.ensureRoom_view henc htext hread st
        have hne : d.isEmpty = false := by simpa using hnil
        simp only [hne, hens]
        exact ⟨st', rfl, hm, .inr ⟨d, hnamed, rfl, hnil, by rw [hens], by simp [hrow], hview⟩⟩
  · have hnone : ensureNamed L st o.conv (o.members.getD (.arr [])) = (.ok (), st) := by
      unfold ensureNamed
      rcases hc : o.conv with _ | c
      · rfl
      · dsimp only
        rw [if_neg fun ht => hnamed ⟨c, hc, ht⟩]
    exact .inr ⟨fun h => absurd h hnamed, st, hnone, rfl, .inl ⟨fun d h => hnamed h.1, rfl⟩⟩

/-- The message goes into the store live: its roster can be read, and its conversation has a place. -/
def Filed (L : Libs) (me : Self) (w : Window) (conv : Str) (o : Opened) : Prop :=
  Reads o ∧ Placed L me w (namedStore L w.store o) conv

variable (me seq) in
/-- The store after a live message of a contact. -/
theorem incomingOpened_contact (hjson : JsonText L o) (hconv : Sync.convOf node o = .str conv)
    (henc : Python.encodable conv = true) (hcontact : w.isContact node = true)
    (hmuted : w.store.isConversationMuted L (.str conv) = .ok false) :
    (Filed L me w conv o → (w.incomingOpened L me node seq o).2.store
      = ((namedStore L w.store o).ingest L (.str conv) node seq o.ts o.text).2)
    ∧ (¬ Filed L me w conv o →
      (w.incomingOpened L me node seq o).2.store = namedStore L w.store o) := by
  unfold incomingOpened Filed namedStore
  rw [hconv]
  dsimp only
  rcases ensureNamed_cases hjson hconv henc w.store with
    ⟨hnot, e, hens⟩ | ⟨hreads, st', hens, -, hcase⟩
  · rw [hens]
    exact ⟨fun h => absurd h.1 hnot, fun _ => rfl⟩
  rw [hens]
  have hmuted' : st'.isConversationMuted L (.str conv) = .ok false := by
    rcases hcase with ⟨-, rfl⟩ | ⟨d, -, -, -, rfl, -⟩
    · exact hmuted
    · exact Store.ensureRoom_muted hmuted d
  dsimp only
  rw [show (w.setStore st').store = st' from rfl, hmuted']
  dsimp only
  rw [if_pos (show (w.setStore st').isContact node = true from hcontact)]
  obtain ⟨hplaced, hnot⟩ := (w.setStore st').incomingContact_placed (L := L) me
    conv node seq o
  exact ⟨fun h => hplaced h.2, fun h => hnot fun h' => h ⟨hreads, h'⟩⟩

theorem conv_of_not_named (h : ¬ o.Named) (hconv : Sync.convOf node o = .str conv) :
    conv = Python.str node := by
  unfold Sync.convOf at hconv
  rcases hc : o.conv with _ | c
  · rw [hc] at hconv
    exact (Json.str.inj hconv).symm
  · rw [hc] at hconv
    dsimp only at hconv
    rw [if_neg fun ht => h ⟨c, hc, ht⟩] at hconv
    exact (Json.str.inj hconv).symm

variable (node) in
/-- A response of one entry that opens does to messages and conversations what routing it does. -/
theorem apply_one {m : HistoryMsg} (ho : openMessage L (Python.str m.payload) = .ok o) (st : Store) :
    (Sync.apply L st node [m]).2.messages = (Sync.route L st node m.seq.toNat o).2.messages
      ∧ (Sync.apply L st node [m]).2.conversations
        = (Sync.route L st node m.seq.toNat o).2.conversations := by
  unfold Sync.apply Sync.applyLoop
  dsimp only
  rw [ho]
  dsimp only
  rcases Sync.route L st node m.seq.toNat o with ⟨e | ⟨c, isNew⟩, st'⟩
  · exact ⟨rfl, rfl⟩
  · simp only [Sync.applyLoop]
    split
    · have hset : ∀ n, (st'.setCursor node n).2.messages = st'.messages
          ∧ (st'.setCursor node n).2.conversations = st'.conversations := fun n => by
        unfold Store.setCursor
        split
        · exact ⟨rfl, rfl⟩
        · exact ⟨rfl, rfl⟩
      have hset := hset (max (st.cursor node) m.seq.toNat)
      split <;> rename_i heq <;> rw [heq] at hset
      · exact hset
      · exact hset
    · exact ⟨rfl, rfl⟩

theorem view_congr {st st' : Store} (h : st.conversations = st'.conversations) :
    st.view L conv = st'.view L conv := by
  simp only [Store.view, Store.isRoom, Store.members, Store.convRow, h]

/-- The store after the same message was caught up with. -/
theorem caught_up (hjson : JsonText L o) (hconv : Sync.convOf node o = .str conv)
    (henc : Python.encodable conv = true) (hwf : Sync.WellFormed o) {m : HistoryMsg}
    (ho : openMessage L (Python.str m.payload) = .ok o) (st : Store) :
    (Sync.apply L st node [m]).2.messages
        = (st.ingest L (.str conv) node m.seq.toNat o.ts o.text).2.messages
      ∧ (Sync.roster o = .ok none → (Sync.apply L st node [m]).2.view L conv
        = (st.ingest L (.str conv) node m.seq.toNat o.ts o.text).2.view L conv)
      ∧ ∀ d, Sync.roster o = .ok (some d) →
        (Sync.apply L st node [m]).2.view L conv = (true, .ok (rosterJson d).sortKeys) := by
  obtain ⟨hmsgs, hconvs⟩ := apply_one node ho st
  rw [hmsgs, view_congr hconvs]
  -- routing is `ingest`, into the store as it is or with the room ensured
  have hroute : ∀ {st' : Store} {r : Option Dict}, Sync.roster o = .ok r →
      Sync.ensureMembers L st (.str conv) r = (.ok (), st') →
        (Sync.route L st node m.seq.toNat o).2
          = (st'.ingest L (.str conv) node m.seq.toNat o.ts o.text).2 := by
    intro st' r hr hens
    unfold Sync.route
    rw [hconv, hr]
    dsimp only
    rw [hens]
    dsimp only
    rcases st'.ingest L (.str conv) node m.seq.toNat o.ts o.text with ⟨e | b, st''⟩
    · rfl
    · rfl
  rcases roster_cases hwf with ⟨hr, -⟩ | ⟨d, hr, -⟩
  · rw [hroute hr rfl, hr]
    exact ⟨rfl, fun _ => rfl, fun d hd => by cases hd⟩
  · obtain ⟨t, htext, hread⟩ := hjson.roster d (.inl hr)
    obtain ⟨st', c, hens, hm, hrow, -, -, hview⟩ := Store.ensureRoom_view henc htext hread st
    rw [hroute hr hens, hr]
    refine ⟨Store.ingest_messages_congr hm _ _ _ _ _, fun h => ?_, fun d' hd' => ?_⟩
    · cases h
    cases hd'
    rw [(Store.ingest_view henc hjson.empty st').2 (.inl (by simp [hrow])), hview]

/-- Two stores agree on the messages, and on the kind and the roster of a conversation. -/
structure FiledAlike (L : Libs) (conv : Str) (st st' : Store) : Prop where
  messages : st.messages = st'.messages
  kind : st.isRoom conv = st'.isRoom conv
  roster : (st.members L conv).map Json.sortKeys = (st'.members L conv).map Json.sortKeys

theorem filedAlike_iff {st st' : Store} :
    FiledAlike L conv st st' ↔ st.messages = st'.messages ∧ st.view L conv = st'.view L conv := by
  constructor
  · rintro ⟨hm, hk, hr⟩
    exact ⟨hm, Prod.ext hk hr⟩
  · rintro ⟨hm, hv⟩
    exact ⟨hm, congrArg Prod.fst hv, congrArg Prod.snd hv⟩

/-- The window leaves the conversation with the roster `d`: it reads the roster of the message as
`d`, or does not look at it and `d` is there already. -/
def LeavesRoster (L : Libs) (st : Store) (conv : Str) (o : Opened) (d : Dict) : Prop :=
  (∃ d', o.Named ∧ memberDict (o.members.getD (.arr [])) = .ok d'
      ∧ (rosterJson d').sortKeys = (rosterJson d).sortKeys)
    ∨ (¬ ∃ d', o.Named ∧ memberDict (o.members.getD (.arr [])) = .ok d')
      ∧ st.isRoom conv = true ∧ (st.members L conv).map Json.sortKeys = .ok (rosterJson d).sortKeys

/-- Where the window reads no roster, that is the roster which is there. -/
theorem leavesRoster_of_none {st : Store} {d : Dict}
    (hnone : ¬ ∃ d', o.Named ∧ memberDict (o.members.getD (.arr [])) = .ok d') :
    LeavesRoster L st conv o d ↔ st.view L conv = (true, .ok (rosterJson d).sortKeys) := by
  constructor
  · rintro (⟨d', hn, hd', -⟩ | ⟨-, hk, hm⟩)
    · exact absurd ⟨d', hn, hd'⟩ hnone
    · exact Prod.ext hk hm
  · exact fun h => .inr ⟨hnone, congrArg Prod.fst h, congrArg Prod.snd h⟩

section NamedStore

variable (hjson : JsonText L o) (hconv : Sync.convOf node o = .str conv)
  (henc : Python.encodable conv = true) (st : Store)

include hjson hconv henc

theorem namedStore_messages : (namedStore L st o).messages = st.messages := by
  unfold namedStore
  rcases ensureNamed_cases hjson hconv henc st with ⟨-, e, hens⟩ | ⟨-, st', hens, hm, -⟩
  · rw [hens]
  · rw [hens]
    exact hm

theorem namedStore_of_empty
    (hempty : ∀ d, memberDict (o.members.getD (.arr [])) = .ok d → d = []) :
    namedStore L st o = st := by
  unfold namedStore
  rcases ensureNamed_cases hjson hconv henc st with
    ⟨-, e, hens⟩ | ⟨-, st', hens, -, ⟨-, rfl⟩ | ⟨d, -, hd, hne, -⟩⟩
  · rw [hens]
  · rw [hens]
  · exact absurd (hempty d hd) hne

/-- The message of a room is filed into it. -/
theorem namedStore_ingest_view
    (hne : ∀ d, memberDict (o.members.getD (.arr [])) = .ok d → d ≠ []) (hreads : Reads o) :
    ((namedStore L st o).ingest L (.str conv) node seq o.ts o.text).2.view L conv
      = (namedStore L st o).view L conv := by
  rw [Store.ingest_view henc hjson.empty]
  unfold namedStore
  rcases ensureNamed_cases hjson hconv henc st with
    ⟨hnot, -⟩ | ⟨-, st', hens, -, ⟨hno, rfl⟩ | ⟨d, -, -, -, -, hrow, -⟩⟩
  · exact absurd hreads hnot
  · refine .inr (conv_of_not_named (fun hn => ?_) hconv)
    obtain ⟨d, hd⟩ := hreads hn
    exact hno d ⟨hn, hd, hne d hd⟩
  · rw [hens]
    exact .inl hrow

theorem leavesRoster_iff (hne : ∀ d, memberDict (o.members.getD (.arr [])) = .ok d → d ≠ [])
    (d : Dict) : LeavesRoster L st conv o d
      ↔ (namedStore L st o).view L conv = (true, .ok (rosterJson d).sortKeys) := by
  unfold namedStore
  rcases ensureNamed_cases hjson hconv henc st with
    ⟨hnot, e, hens⟩ | ⟨-, st', hens, -, ⟨hno, rfl⟩ | ⟨d', hn, hd', -, -, -, hv⟩⟩ <;> rw [hens]
  · refine leavesRoster_of_none ?_
    rintro ⟨d', -, hd'⟩
    exact hnot fun _ => ⟨d', hd'⟩
  · refine leavesRoster_of_none ?_
    rintro ⟨d', hn, hd'⟩
    exact hno d' ⟨hn, hd', hne d' hd'⟩
  · rw [hv]
    constructor
    · rintro (⟨d'', -, hd'', heq⟩ | ⟨hnone, -⟩)
      · rw [hd'] at hd''
        cases hd''
        rw [heq]
      · exact absurd ⟨d', hn, hd'⟩ hnone
    · intro h
      exact .inl ⟨d', hn, hd', Except.ok.inj (congrArg Prod.snd h)⟩

end NamedStore

theorem incoming_opened {w : Window} {ev : RecvEvent} {payload : Text}
    (hpayload : ev.payload = some payload) (ho : openMessage L (Python.str payload) = .ok o)
    (me : Self) : w.incoming L me node ev = w.incomingOpened L me node ev.seqOrZero o := by
  unfold incoming
  rw [hpayload]
  dsimp only
  rw [ho]

/-- A well-formed message of a contact, in a conversation that is not muted, leaves the same
messages, kind and roster live and caught up with if and only if it is filed live or would not be
stored anyway, the roster it carries is the one the window leaves, and if it carries none, it is
filed live or its conversation is there already or is the contact's own. -/
theorem live_as_caught_up_iff (L : Libs) (me : Self) (w : Window) (node : Text) (ev : RecvEvent)
    (m : HistoryMsg) (hpayload : ev.payload = some m.payload) (hseq : ev.seqOrZero = m.seq.toNat)
    (o : Opened) (ho : openMessage L (Python.str m.payload) = .ok o) (hwf : Sync.WellFormed o)
    (hjson : JsonText L o) (conv : Str) (hconv : Sync.convOf node o = .str conv)
    (hcontact : w.isContact node = true)
    (hmuted : w.store.isConversationMuted L (.str conv) = .ok false) :
    FiledAlike L conv (w.incoming L me node ev).2.store (Sync.apply L w.store node [m]).2
      ↔ (Filed L me w conv o ∨ ¬ w.store.Adds L (.str conv) node m.seq.toNat o.ts o.text)
        ∧ (∀ d, Sync.roster o = .ok (some d) → LeavesRoster L w.store conv o d)
        ∧ (Sync.roster o = .ok none → Filed L me w conv o ∨ (w.store.convRow conv).isSome
          ∨ conv = Python.str node) := by
  have henc : Python.encodable conv = true := by
    by_contra hnot
    simp [Store.isConversationMuted, bindValue, hnot, Except.map] at hmuted
  have hlive : (w.incoming L me node ev).2 = (w.incomingOpened L me node m.seq.toNat o).2 := by
    rw [incoming_opened hpayload ho, hseq]
  obtain ⟨hfiled, hnot⟩ := incomingOpened_contact me m.seq.toNat hjson hconv henc
    hcontact hmuted
  obtain ⟨hmsgs, hplain, hroster⟩ := caught_up hjson hconv henc hwf ho w.store
  rw [filedAlike_iff, hlive, hmsgs]
  rcases roster_cases hwf with ⟨hr, hempty⟩ | ⟨d, hr, hne⟩
  · rw [hplain hr]
    simp only [hr, reduceCtorEq, Except.ok.injEq, false_implies, implies_true, true_and,
      forall_const]
    have hsame := namedStore_of_empty hjson hconv henc w.store hempty
    by_cases hf : Filed L me w conv o
    · rw [hfiled hf, hsame]
      exact iff_of_true ⟨rfl, rfl⟩ ⟨.inl hf, .inl hf⟩
    · rw [hnot hf, hsame, eq_comm, Store.ingest_messages_eq_iff, eq_comm (a := w.store.view L conv),
        Store.ingest_view henc hjson.empty]
      simp only [hf, false_or]
  · have hview : (w.incomingOpened L me node m.seq.toNat o).2.store.view L conv
        = (namedStore L w.store o).view L conv := by
      by_cases hf : Filed L me w conv o
      · rw [hfiled hf]
        exact namedStore_ingest_view hjson hconv henc w.store hne hf.1
      · rw [hnot hf]
    have hnamedMsgs := namedStore_messages hjson hconv henc w.store
    rw [hroster d hr, hview, ← leavesRoster_iff hjson hconv henc w.store hne]
    simp only [hr, reduceCtorEq, Except.ok.injEq, Option.some.injEq, forall_eq', false_implies,
      and_true]
    refine and_congr_left fun _ => ?_
    by_cases hf : Filed L me w conv o
    · rw [hfiled hf]
      exact iff_of_true (Store.ingest_messages_congr hnamedMsgs _ _ _ _ _) (.inl hf)
    · rw [hnot hf, hnamedMsgs, eq_comm, Store.ingest_messages_eq_iff]
      simp only [hf, false_or]

/-! ### A message that carries a roster -/

/-- A contact. -/
def dave : Contact :=
  ⟨Hex.encode (List.replicate 32 7), .str (Python.str ['k']), .str (Python.str ['d'])⟩

def daveEntry : Json :=
  memberInfo (.str (Python.str dave.node)) dave.pubkey dave.screen

def daveLibs : Libs := plainLibs fun _ => []

/-- Dave says `hi` and names himself as a member. -/
def daveBody (conv : Option Str) : List (Str × Json) :=
  messageBody (Python.str ['h', 'i']) 7 none conv (some (.arr [daveEntry]))

/-- What is sealed of it for the key of all ones. -/
def davePayload (conv : Option Str) : Text :=
  Base64.encode ((sealBody plainSealer [] .msg (Python.str (Hex.encode (List.replicate 32 1)))
    (daveBody conv)).toOption.getD [])

/-- What a payload opens to. -/
def daveOpened (conv : Option Str) : Opened :=
  ⟨senderKey plainSealer, .str (Python.str ['h', 'i']), .int 7, none, conv.map Json.str,
    some (.arr [daveEntry])⟩

theorem daveOpened_wellFormed (conv : Option Str) : Sync.WellFormed (daveOpened conv) where
  text := ⟨_, rfl⟩
  ts := ⟨_, rfl⟩
  conv := by
    cases conv with
    | none => exact .inl rfl
    | some c => exact .inr (.inr ⟨c, rfl⟩)
  members := by
    refine .inr (.inr ⟨[daveEntry], rfl, fun m hm => ?_⟩)
    rw [List.mem_singleton.1 hm]
    exact ⟨_, _, rfl, rfl⟩

theorem daveEntry_proper : daveEntry.Proper := by
  rw [daveEntry, memberInfo, Json.proper_obj]
  exact ⟨by simp only [List.map_cons, List.map_nil]; decide, by simp [Json.Proper, dave]⟩

theorem open_davePayload {conv : Option Str}
    (hkept : (Json.obj (daveBody conv)).allStr Python.joined = true)
    (hfloat : (Json.obj (daveBody conv)).noFloat = true) :
    openMessage daveLibs (Python.str (davePayload conv)) = .ok (daveOpened conv) := by
  have H := plain_ideal (fun _ => []) (List.replicate 32 1)
  have hm : ∀ v ∈ some (Json.arr [daveEntry]), v.Proper := by
    rintro v ⟨rfl⟩
    rw [Json.proper_arr]
    exact List.forall_mem_singleton.2 daveEntry_proper
  have hwrapper : ∀ body sig, (wrapper plainSealer .msg body sig).noFloat = true := fun _ _ => rfl
  obtain ⟨box, hbox⟩ := sealBody_ok (k := .msg) H
    ⟨_, plainDumps_eq_ok.2 ⟨Json.each_sortKeys hfloat, rfl⟩⟩
    (fun body sig => ⟨_, plainDumps_eq_ok.2 ⟨hwrapper body sig, rfl⟩⟩) []
  have hpayload : sealMessage plainSealer [] (Python.str (Hex.encode (List.replicate 32 1)))
      (Python.str ['h', 'i']) 7 none conv (some (.arr [daveEntry]))
      = .ok (Python.str (davePayload conv)) := by
    unfold sealMessage davePayload daveBody
    unfold daveBody at hbox
    rw [hbox]
    rfl
  have hentry : daveEntry.sortKeys = daveEntry := by rfl
  have hopen := open_sealMessage H hm hkept hpayload
  simp only [openedText, Option.map_some, Json.sortKeys_arr, List.map_cons, List.map_nil,
    hentry] at hopen
  exact hopen

/-- The roster of the message, as the window and the sync read it. -/
def daveRoster : Dict := [(.str (Python.str dave.node), daveEntry)]

def daveRosterText : Str := (rosterJson daveRoster).dumps zeroFloats

theorem daveRoster_read : daveLibs.dumps daveRoster = .ok daveRosterText
    ∧ daveLibs.loads daveRosterText = .ok (rosterJson daveRoster) := by
  have hproper : (rosterJson daveRoster).Proper := by
    change (Json.obj [(Python.str dave.node, daveEntry)]).Proper
    rw [Json.proper_obj]
    exact ⟨List.nodup_singleton _, List.forall_mem_singleton.2 daveEntry_proper⟩
  have hfloat : (rosterJson daveRoster).noFloat = true := by decide +kernel
  have hkept : (rosterJson daveRoster).allStr Python.joined = true := by decide +kernel
  have hdumps : plainDumps (rosterJson daveRoster) = .ok daveRosterText :=
    plainDumps_eq_ok.2 ⟨hfloat, rfl⟩
  have hfields : strFields daveRoster = some [(Python.str dave.node, daveEntry)] := rfl
  exact ⟨(plainLibs_dumps hfields).trans hdumps,
    (plainLibs_loads _ _).trans (plainLoads_dumps hproper hkept hdumps)⟩

theorem daveOpened_json (conv : Option Str) : JsonText daveLibs (daveOpened conv) where
  empty := rfl
  roster d hd := by
    have hsync : Sync.roster (daveOpened conv) = .ok (some daveRoster) := rfl
    have hwindow : memberDict ((daveOpened conv).members.getD (.arr [])) = .ok daveRoster := rfl
    obtain rfl : d = daveRoster := by
      rcases hd with hd | hd
      · rw [hsync] at hd
        cases hd
        rfl
      · rw [hwindow] at hd
        cases hd
        rfl
    exact ⟨_, daveRoster_read⟩

/-- A message that names a new room. -/
theorem live_as_caught_up_room :
    let conv := Python.str ['r', 'o', 'o', 'm']
    let me : Self := ⟨Hex.encode (List.replicate 32 1), [], []⟩
    let payload := davePayload (some conv)
    let live := ((start [dave]).incoming daveLibs me dave.node
      ⟨some dave.node, some 1, none, some payload, false⟩).2.store
    live.messages.length = 1 ∧ live.isRoom conv = true
      ∧ FiledAlike daveLibs conv live (Sync.apply daveLibs {} dave.node [⟨1, 0, payload⟩]).2 := by
  intro conv me payload live
  have ho : openMessage daveLibs (Python.str payload) = .ok (daveOpened (some conv)) :=
    open_davePayload (by decide +kernel) (by decide +kernel)
  clear_value payload
  have hlive : live = ((start [dave]).incomingOpened daveLibs me dave.node 1
      (daveOpened (some conv))).2.store := by
    unfold live
    rw [incoming_opened rfl ho]
    rfl
  refine ⟨by rw [hlive]; decide +kernel, by rw [hlive]; decide +kernel, ?_⟩
  have hrooms : (namedStore daveLibs {} (daveOpened (some conv))).rooms
      = [(conv, daveRosterText)] := by
    decide +kernel
  have hmuted : (start [dave]).store.isConversationMuted daveLibs (.str conv) = .ok false := by
    decide +kernel
  refine (live_as_caught_up_iff daveLibs me (start [dave]) dave.node _ ⟨1, 0, payload⟩ rfl rfl
    (daveOpened (some conv)) ho (daveOpened_wellFormed _) (daveOpened_json _) conv rfl
    (by decide +kernel) hmuted).2 ⟨.inl ⟨fun _ => ⟨_, rfl⟩, .inr ⟨?_, .inr ?_⟩⟩, ?_, ?_⟩
  · intro r hr
    rw [show (start [dave]).store = {} from rfl, hrooms] at hr
    rw [List.mem_singleton.1 hr]
    unfold roomScreens
    rw [daveRoster_read.2]
    exact ⟨_, rfl⟩
  · exact ⟨(conv, _), hrooms ▸ List.mem_singleton_self _, rfl⟩
  · intro d hd
    cases hd
    exact .inl ⟨_, ⟨_, rfl, rfl⟩, rfl, rfl⟩
  · intro h
    cases h

/-- A roster without a conversation: live it is passed over, caught up with it makes a room of the
conversation with the contact. -/
theorem caught_up_makes_room :
    let conv := Python.str dave.node
    let me : Self := ⟨Hex.encode (List.replicate 32 1), [], []⟩
    let payload := davePayload none
    openMessage daveLibs (Python.str payload) = .ok (daveOpened none)
      ∧ Sync.WellFormed (daveOpened none) ∧ (start [dave]).isContact dave.node = true
      ∧ (start [dave]).store.isConversationMuted daveLibs (.str conv) = .ok false
      ∧ ¬ FiledAlike daveLibs conv ((start [dave]).incoming daveLibs me dave.node
          ⟨some dave.node, some 1, none, some payload, false⟩).2.store
        (Sync.apply daveLibs (start [dave]).store dave.node [⟨1, 0, payload⟩]).2 := by
  intro conv me payload
  have ho : openMessage daveLibs (Python.str payload) = .ok (daveOpened none) :=
    open_davePayload (by decide +kernel) (by decide +kernel)
  clear_value payload
  refine ⟨ho, daveOpened_wellFormed none, by decide +kernel, by decide +kernel, fun h => ?_⟩
  have hlive : ((start [dave]).incomingOpened daveLibs me dave.node 1
      (daveOpened none)).2.store.isRoom conv = false := by decide +kernel
  have hcaught : (Sync.route daveLibs (start [dave]).store dave.node 1 (daveOpened none)).2.isRoom
      conv = true := by decide +kernel
  have hkind := h.kind
  obtain ⟨-, hconvs⟩ := apply_one (m := ⟨1, 0, payload⟩) dave.node ho (start [dave]).store
  rw [incoming_opened rfl ho, Store.isRoom_congr hconvs] at hkind
  exact Bool.false_ne_true (hlive.symm.trans (hkind.trans hcaught))

end Window

end Aimless
