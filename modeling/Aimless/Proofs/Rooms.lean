import Aimless.Proofs.Window
import Aimless.Lib.Runs

/-!
# Rooms and their rosters

A room is meant to have the hash of its members as its id.  No path checks that: a message names the
conversation and the roster it likes, and `ensure_room` writes that down (`roster_overwritten`).  In
a run of regular messages, which name a room by the hash of the roster they carry and come from one
of its nodes, every room commits to its roster (`rooms_commit`).
-/

namespace Aimless

open Python (Str Exc Json Dict)

/-- The move brings a message that opens. -/
def WindowMove.Delivers (L : Libs) (node : Text) (o : Opened) : WindowMove → Prop
  | .text sender _ _ payload => node = Hex.encode sender
    ∧ openMessage L (Python.str (Base64.encode payload)) = .ok o
  | .onEvent sender _ _ payload => node = Hex.encode sender
    ∧ openMessage L (Python.str (Base64.encode payload)) = .ok o
  | .history peer msgs => node = peer
    ∧ ∃ m ∈ msgs, openMessage L (Python.str m.payload) = .ok o
  | _ => False

/-- Whether what the move brings goes through `Sync`. -/
def WindowMove.synced : WindowMove → Bool
  | .onEvent _ _ _ _ => true
  | .history _ _ => true
  | _ => false

/-- The rosters that are written down for a message, by `Sync._route` or by the window. -/
def RosterOf (o : Opened) (d : Dict) : Prop :=
  Sync.roster o = .ok (some d) ∨ memberDict (o.members.getD (.arr [])) = .ok d

/-- The id is the room id of the roster, whose keys are node keys. -/
def CommitsTo (L : Libs) (d : Dict) (id : Str) : Prop :=
  d.map Prod.fst = (keyStrings d).map Json.str ∧ roomId L (keyStrings d) = .ok id

namespace Window

/-- The node keys of a run: of its contacts, and of whoever sends something. -/
def NodeKey (L : Libs) (contacts : List Contact) (moves : List WindowMove) (s : Str) : Prop :=
  (∃ c ∈ contacts, s = Python.str c.node)
    ∨ (∃ c, .addContact c ∈ moves ∧ s = Python.str c.node)
    ∨ ∃ mv ∈ moves, ∃ node, ((∃ o, mv.Delivers L node o) ∨ mv.fileSender = some node)
      ∧ s = Python.str node

/-- The rosters of a run. -/
def Roster (L : Libs) (me : Self) (moves : List WindowMove) (d : Dict) : Prop :=
  (∃ chosen, .createRoom chosen ∈ moves ∧ d = roomMembers me chosen)
    ∨ ∃ mv ∈ moves, ∃ node o, mv.Delivers L node o ∧ RosterOf o d

/-- Something of a node goes to its own conversation, or to a room that has it in its roster. -/
def Fits (L : Libs) (K : Str → Prop) (R : Dict → Prop) (conv : Json) (node : Text) : Prop :=
  K (Python.str node) ∧ (conv = .str (Python.str node)
    ∨ ∃ id d, conv = .str id ∧ ¬ K id ∧ R d ∧ CommitsTo L d id ∧ Python.str node ∈ keyStrings d)

/-- A run of regular messages.  A message that goes through `Sync` and names no conversation carries
no roster; one that names a room carries its roster, of which the name is the room id, and comes
from one of its nodes.  No room id is a node key, and no two rosters have the same room id. -/
structure Regular (L : Libs) (me : Self) (contacts : List Contact) (moves : List WindowMove) :
    Prop where
  direct : ∀ mv ∈ moves, mv.synced = true → ∀ node o, mv.Delivers L node o →
    (∀ conv ∈ o.conv, conv.truthy = false) → ∀ v ∈ o.members, v.truthy = false
  room : ∀ mv ∈ moves, ∀ node o, mv.Delivers L node o → ∀ conv ∈ o.conv, conv.truthy = true →
    (∃ v ∈ o.members, v.truthy = true)
      ∧ ∃ id, conv = .str id ∧ ¬ NodeKey L contacts moves id
        ∧ ∀ d, RosterOf o d → CommitsTo L d id ∧ Python.str node ∈ keyStrings d
  created : ∀ chosen, .createRoom chosen ∈ moves →
    ∀ id, roomId L (keyStrings (roomMembers me chosen)) = .ok id → ¬ NodeKey L contacts moves id
  file : ∀ mv ∈ moves, ∀ node, mv.fileSender = some node → ∀ conv ∈ mv.fileConv L,
    Fits L (NodeKey L contacts moves) (Roster L me moves) conv node
  noCollision : ∀ d d', Roster L me moves d → Roster L me moves d' → ∀ id, CommitsTo L d id →
    CommitsTo L d' id → ∀ s, s ∈ keyStrings d ↔ s ∈ keyStrings d'

/-- A dict with strings for keys comes back from its text with the same keys. -/
def KeysReadBack (L : Libs) (d : Dict) : Prop :=
  d.map Prod.fst = (keyStrings d).map Json.str → ∀ t, L.dumps d = .ok t →
    ∃ fields, L.loads t = .ok (.obj fields) ∧ fields.map Prod.fst = keyStrings d

/-- A room with a roster has the room id of that roster, and holds messages of its nodes only.  The
conversation with a contact is no room. -/
structure RoomsCommit (L : Libs) (w : Window) : Prop where
  rooms : ∀ c ∈ w.store.conversations, c.dm = false → ∃ id fields, c.id = some id
    ∧ L.loads c.members = .ok (.obj fields)
    ∧ (fields ≠ [] → roomId L (fields.map Prod.fst) = .ok id
      ∧ ∀ m ∈ w.store.messages, m.conv = id → m.sender ∈ fields.map Prod.fst)
  contacts : ∀ x ∈ w.contacts, ∀ c ∈ w.store.conversations, c.id = some (Python.str x.node) →
    c.dm = true

end Window

/-! ### The store -/

/-- `{}`, the roster of a conversation that was given none. -/
def noMembers : Str := Python.str ['\x7b', '\x7d']

/-- Every room has an id that is no node key, and the roster it was last given; every row is of the
conversation with its sender, or of a room with its sender in a roster. -/
structure RoomInv (L : Libs) (K : Str → Prop) (R : Dict → Prop) (st : Store) : Prop where
  rooms : ∀ c ∈ st.conversations, c.dm = false → ∃ id, c.id = some id ∧ ¬ K id
    ∧ (c.members = noMembers ∨ ∃ d, R d ∧ CommitsTo L d id ∧ L.dumps d = .ok c.members)
  rows : ∀ m ∈ st.messages, (m.conv = m.sender ∧ K m.sender)
    ∨ ∃ d, R d ∧ CommitsTo L d m.conv ∧ m.sender ∈ keyStrings d

namespace RoomInv

variable {L : Libs} {K : Str → Prop} {R : Dict → Prop} {st : Store}

theorem empty : RoomInv L K R {} :=
  ⟨fun _ hc => (List.not_mem_nil hc).elim, fun _ hm => (List.not_mem_nil hm).elim⟩

theorem bindValue_str {s : Str} {v : SqlVal} (h : bindValue (.str s) = .ok v) : v = .text s := by
  simp only [bindValue] at h
  split at h
  · exact (Except.ok.inj h).symm
  · cases h

theorem setCursor (h : RoomInv L K R st) (node : Text) (n : ℕ) :
    RoomInv L K R (st.setCursor node n).2 := by
  unfold Store.setCursor
  split
  · exact ⟨h.rooms, h.rows⟩
  · exact h

theorem ensureRoom (h : RoomInv L K R st) {id : Str} {d : Dict} (hid : ¬ K id) (hd : R d)
    (hcommit : CommitsTo L d id) : RoomInv L K R (st.ensureRoom L (.str id) d).2 := by
  unfold Store.ensureRoom
  split
  · exact h
  rename_i roster hroster
  split
  · exact h
  rename_i v hv
  cases bindValue_str hv
  dsimp only [SqlVal.toText]
  have hnew : ∃ id', some id = some id' ∧ ¬ K id'
      ∧ (roster = noMembers ∨ ∃ d, R d ∧ CommitsTo L d id' ∧ L.dumps d = .ok roster) :=
    ⟨id, rfl, hid, .inr ⟨d, hd, hcommit, hroster⟩⟩
  split
  · refine ⟨fun c hc hdm => ?_, h.rows⟩
    obtain ⟨c', hc', rfl⟩ := List.mem_map.1 hc
    split at hdm
    · rename_i heq
      rw [if_pos heq]
      dsimp only
      rw [heq]
      exact hnew
    · rename_i heq
      rw [if_neg heq]
      exact h.rooms c' hc' hdm
  · refine ⟨fun c hc hdm => ?_, h.rows⟩
    rcases List.mem_append.1 hc with hc | hc
    · exact h.rooms c hc hdm
    · rw [List.mem_singleton.1 hc]
      exact hnew

/-- A conversation that is opened without a roster. -/
theorem ensureConv (h : RoomInv L K R st) {s : Str} {dm : Bool} (hs : dm = false → ¬ K s) :
    RoomInv L K R (st.ensureConv L (.str s) dm).2 := by
  unfold Store.ensureConv
  split
  · exact h
  rename_i v hv
  cases bindValue_str hv
  dsimp only [SqlVal.toText]
  split
  · exact h
  · refine ⟨fun c hc hdm => ?_, h.rows⟩
    rcases List.mem_append.1 hc with hc | hc
    · exact h.rooms c hc hdm
    · cases List.mem_singleton.1 hc
      exact ⟨s, rfl, hs hdm, .inl rfl⟩

theorem insertMessage (h : RoomInv L K R st) {m : Message} (hm : (m.conv = m.sender ∧ K m.sender)
    ∨ ∃ d, R d ∧ CommitsTo L d m.conv ∧ m.sender ∈ keyStrings d) :
    RoomInv L K R (st.insertMessage m).2 := by
  unfold Store.insertMessage
  dsimp only
  split
  · exact h
  · refine ⟨fun c hc hdm => ?_, fun x hx => ?_⟩
    · obtain ⟨c', hc', rfl⟩ := List.mem_map.1 hc
      split at hdm
      · rename_i heq
        rw [if_pos heq]
        exact h.rooms c' hc' hdm
      · rename_i heq
        rw [if_neg heq]
        exact h.rooms c' hc' hdm
    · rcases List.mem_append.1 hx with hx | hx
      · exact h.rows x hx
      · rw [List.mem_singleton.1 hx]
        exact hm

theorem ingest (h : RoomInv L K R st) {conv : Json} {node : Text}
    (hfits : Window.Fits L K R conv node) (seq : ℕ) (ts text : Json) (attachment : Option Dict) :
    RoomInv L K R (st.ingest L conv node seq ts text attachment).2 := by
  obtain ⟨hkey, hfits⟩ := hfits
  obtain ⟨s, rfl⟩ : ∃ s, conv = .str s := by
    rcases hfits with rfl | ⟨id, d, rfl, -⟩
    · exact ⟨_, rfl⟩
    · exact ⟨_, rfl⟩
  have hconv :
      RoomInv L K R (st.ensureConv L (.str s) ((Json.str s).eqStr (Python.str node))).2 := by
    refine h.ensureConv fun hdm => ?_
    have hne : s ≠ Python.str node := by simpa [Json.eqStr] using hdm
    rcases hfits with heq | ⟨id, d, heq, hid, -⟩
    · exact absurd (Json.str.inj heq) hne
    · rw [Json.str.inj heq]
      exact hid
  unfold Store.ingest
  split <;> rename_i heq <;> rw [heq] at hconv
  · exact hconv
  split
  · exact hconv
  · exact hconv
  · rename_i m hm
    obtain ⟨hsender, -, -, -, -, v, hv, htext⟩ := Store.incomingRow_fields hm
    cases bindValue_str hv
    have hmconv : m.conv = s := (Option.some.inj htext).symm
    refine hconv.insertMessage ?_
    rw [hmconv, hsender]
    rcases hfits with heq | ⟨id, d, heq, hid, hd, hcommit, hmem⟩
    · exact .inl ⟨Json.str.inj heq, hkey⟩
    · rw [Json.str.inj heq]
      exact .inr ⟨d, hd, hcommit, hmem⟩

theorem setMuted (h : RoomInv L K R st) (conv : Str) (muted : Bool) :
    RoomInv L K R (st.setMuted conv muted) := by
  refine ⟨fun c hc hdm => ?_, h.rows⟩
  obtain ⟨c', hc', rfl⟩ := List.mem_map.1 hc
  split at hdm
  · rename_i heq
    rw [if_pos heq]
    exact h.rooms c' hc' hdm
  · rename_i heq
    rw [if_neg heq]
    exact h.rooms c' hc' hdm

end RoomInv

namespace Window

/-! ### One move of a regular run -/

section Run

variable {L : Libs} {root : AttachmentsDir} {me : Self} {contacts : List Contact}
  {moves : List WindowMove} {mv : WindowMove} {node : Text} {o : Opened} {w : Window}

theorem nodeKey_of_delivers (hmv : mv ∈ moves) (h : mv.Delivers L node o) :
    NodeKey L contacts moves (Python.str node) :=
  .inr (.inr ⟨mv, hmv, node, .inl ⟨o, h⟩, rfl⟩)

/-- A message goes where it may, if one of its rosters could be read. -/
theorem fits_of_delivers (H : Regular L me contacts moves) (hmv : mv ∈ moves)
    (h : mv.Delivers L node o)
    (hroster : (∃ conv ∈ o.conv, conv.truthy = true) → ∃ d, RosterOf o d) :
    Fits L (NodeKey L contacts moves) (Roster L me moves) (Sync.convOf node o) node := by
  refine ⟨nodeKey_of_delivers hmv h, ?_⟩
  unfold Sync.convOf
  split
  · rename_i conv hconv
    split
    · rename_i htruthy
      obtain ⟨-, id, rfl, hid, hd⟩ := H.room mv hmv node o h conv hconv htruthy
      obtain ⟨d, hrd⟩ := hroster ⟨_, hconv, htruthy⟩
      obtain ⟨hcommit, hmem⟩ := hd d hrd
      exact .inr ⟨id, d, rfl, hid, .inr ⟨mv, hmv, node, o, h, hrd⟩, hcommit, hmem⟩
    · exact .inl rfl
  · exact .inl rfl

/-- `Sync._route` reads a roster of every message that names a room. -/
theorem rosterOf_of_route (H : Regular L me contacts moves) (hmv : mv ∈ moves)
    (h : mv.Delivers L node o) {r : Option Dict} (hr : Sync.roster o = .ok r)
    (hconv : ∃ conv ∈ o.conv, conv.truthy = true) : ∃ d, RosterOf o d := by
  obtain ⟨conv, hconv, htruthy⟩ := hconv
  obtain ⟨⟨v, hv, hvt⟩, -⟩ := H.room mv hmv node o h conv hconv htruthy
  cases r with
  | some d => exact ⟨d, .inl hr⟩
  | none =>
    unfold Sync.roster at hr
    rw [Option.mem_def.1 hv] at hr
    dsimp only at hr
    rw [if_pos hvt] at hr
    split at hr
    · rename_i ms
      rcases hms : Sync.rosterOf ms [] with e | d <;> rw [hms] at hr <;> cases hr
    · cases hr

/-- A roster is read for a message that names a room, and for no other. -/
theorem convOf_of_roster (H : Regular L me contacts moves) (hmv : mv ∈ moves)
    (hsync : mv.synced = true) (h : mv.Delivers L node o) {d : Dict}
    (hd : Sync.roster o = .ok (some d)) :
    ∃ id, Sync.convOf node o = .str id ∧ ¬ NodeKey L contacts moves id ∧ CommitsTo L d id := by
  by_cases hconv : ∃ conv ∈ o.conv, conv.truthy = true
  · obtain ⟨conv, hconv, htruthy⟩ := hconv
    obtain ⟨-, id, rfl, hid, hall⟩ := H.room mv hmv node o h conv hconv htruthy
    refine ⟨id, ?_, hid, (hall d (.inl hd)).1⟩
    unfold Sync.convOf
    rw [Option.mem_def.1 hconv]
    dsimp only
    rw [if_pos htruthy]
  · have hfalse := H.direct mv hmv hsync node o h fun conv hc => by
      simpa using fun ht => hconv ⟨conv, hc, ht⟩
    unfold Sync.roster at hd
    split at hd
    · cases hd
    · rename_i v hv
      rw [hfalse v hv] at hd
      cases hd

theorem route_rooms (H : Regular L me contacts moves) (hmv : mv ∈ moves)
    (hsync : mv.synced = true) (h : mv.Delivers L node o) (seq : ℕ) {st : Store}
    (hst : RoomInv L (NodeKey L contacts moves) (Roster L me moves) st) :
    RoomInv L (NodeKey L contacts moves) (Roster L me moves) (Sync.route L st node seq o).2 := by
  refine Sync.route_inv (fun d hd st hst => ?_) (fun hr st hst => ?_) hst
  · obtain ⟨id, heq, hid, hcommit⟩ := convOf_of_roster H hmv hsync h hd
    rw [heq]
    exact hst.ensureRoom hid (.inr ⟨mv, hmv, node, o, h, .inl hd⟩) hcommit
  · obtain ⟨r, hr⟩ := hr
    exact hst.ingest (fits_of_delivers H hmv h (rosterOf_of_route H hmv h hr)) seq _ _ none

theorem ensureNamed_rooms (H : Regular L me contacts moves) (hmv : mv ∈ moves)
    (h : mv.Delivers L node o) {st : Store}
    (hst : RoomInv L (NodeKey L contacts moves) (Roster L me moves) st) :
    RoomInv L (NodeKey L contacts moves) (Roster L me moves)
      (ensureNamed L st o.conv (o.members.getD (.arr []))).2 := by
  refine ensureNamed_inv (fun conv hconv htruthy d hd _ st hst => ?_) hst
  obtain ⟨-, id, rfl, hid, hall⟩ := H.room mv hmv node o h conv hconv htruthy
  exact hst.ensureRoom hid (.inr ⟨mv, hmv, node, o, h, .inr hd⟩) (hall d (.inr hd)).1

theorem incomingOpened_rooms (H : Regular L me contacts moves) (hmv : mv ∈ moves)
    (h : mv.Delivers L node o) (seq : ℕ)
    (hw : RoomInv L (NodeKey L contacts moves) (Roster L me moves) w.store) :
    RoomInv L (NodeKey L contacts moves) (Roster L me moves)
      (w.incomingOpened L me node seq o).2.store := by
  refine incomingOpened_inv (fun st hst => ensureNamed_rooms H hmv h hst)
    (fun hread st hst => ?_) hw
  refine hst.ingest (fits_of_delivers H hmv h ?_) seq _ _ none
  rintro ⟨conv, hconv, htruthy⟩
  obtain ⟨d, hd⟩ := hread conv hconv htruthy
  exact ⟨d, .inr hd⟩

/-- The request of a message of the run. -/
def Asked (L : Libs) (moves : List WindowMove) (req : ContactRequest) : Prop :=
  ∃ mv ∈ moves, ∃ node o seq, mv.Delivers L node o ∧ req = requestOf node seq o

/-- Accepting a request does what the message would have done. -/
theorem accept_rooms (H : Regular L me contacts moves) {req : ContactRequest}
    (hreq : Asked L moves req)
    (hw : RoomInv L (NodeKey L contacts moves) (Roster L me moves) w.store) :
    RoomInv L (NodeKey L contacts moves) (Roster L me moves) (w.accept L me req).2.store := by
  obtain ⟨mv, hmv, node, o, seq, h, rfl⟩ := hreq
  -- A message that names a room has members, so the request has the same.
  have hmembers : ∀ conv ∈ o.conv, conv.truthy = true →
      truthyOr o.members (.arr []) = o.members.getD (.arr []) := by
    intro conv hconv htruthy
    obtain ⟨⟨v, hv, hvt⟩, -⟩ := H.room mv hmv node o h conv hconv htruthy
    rw [Option.mem_def.1 hv]
    simp [truthyOr, hvt]
  have hconv : truthyOr (requestOf node seq o).conv (.str (Python.str (requestOf node seq o).node))
      = Sync.convOf node o := rfl
  refine accept_inv (fun st hst => ensureNamed_inv (fun conv hc ht d hd _ st hst => ?_) hst)
    (fun hread st hst => ?_) hw
  · obtain ⟨-, id, rfl, hid, hall⟩ := H.room mv hmv node o h conv hc ht
    simp only [requestOf, hmembers _ hc ht] at hd
    exact hst.ensureRoom hid (.inr ⟨mv, hmv, node, o, h, .inr hd⟩) (hall d (.inr hd)).1
  · rw [hconv]
    refine hst.ingest (fits_of_delivers H hmv h ?_) seq _ _ none
    rintro ⟨conv, hc, ht⟩
    obtain ⟨d, hd⟩ := hread conv hc ht
    simp only [requestOf, hmembers _ hc ht] at hd
    exact ⟨d, .inr hd⟩

theorem map_keyStrings {d : Dict} (h : ∀ e ∈ d, ∃ s, e.1 = .str s) :
    d.map Prod.fst = (keyStrings d).map Json.str := by
  induction d with
  | nil => rfl
  | cons e d ih =>
    obtain ⟨s, hs⟩ := h e List.mem_cons_self
    have hcons : keyStrings (e :: d) = s :: keyStrings d := by
      unfold keyStrings
      rw [List.filterMap_cons, hs]
    rw [hcons, List.map_cons, List.map_cons, hs, ih fun x hx => h x (List.mem_cons_of_mem e hx)]

theorem set_keys_str {d : Dict} (h : ∀ e ∈ d, ∃ s, e.1 = .str s) (s : Str) (v : Json) :
    ∀ e ∈ d.set (.str s) v, ∃ s, e.1 = .str s := by
  intro e he
  unfold Dict.set at he
  split at he
  · obtain ⟨e', he', rfl⟩ := List.mem_map.1 he
    split
    · exact h e' he'
    · exact h e' he'
  · rcases List.mem_append.1 he with he | he
    · exact h e he
    · rw [List.mem_singleton.1 he]
      exact ⟨s, rfl⟩

theorem roomMembers_keys (me : Self) (chosen : List Contact) :
    ∀ e ∈ roomMembers me chosen, ∃ s, e.1 = .str s := by
  unfold roomMembers
  dsimp only
  refine List.foldlRecOn (motive := fun d : Dict => ∀ e ∈ d, ∃ s, e.1 = .str s) chosen _ ?_
    fun d hd c _ => set_keys_str hd _ _
  intro e he
  rw [List.mem_singleton.1 he]
  exact ⟨_, rfl⟩

theorem createRoom_rooms (H : Regular L me contacts moves) {chosen : List Contact}
    (hmv : .createRoom chosen ∈ moves)
    (hw : RoomInv L (NodeKey L contacts moves) (Roster L me moves) w.store) :
    RoomInv L (NodeKey L contacts moves) (Roster L me moves) (w.createRoom L me chosen).2.store := by
  unfold createRoom
  dsimp only
  split
  · exact hw
  rename_i id hid
  have hcommit : CommitsTo L (roomMembers me chosen) id :=
    ⟨map_keyStrings (roomMembers_keys me chosen), hid⟩
  have hens := hw.ensureRoom (H.created chosen hmv id hid) (.inl ⟨chosen, hmv, rfl⟩) hcommit
  split <;> rename_i heq <;> rw [heq] at hens
  · exact hens
  · exact hens

theorem toggleMute_rooms {K : Str → Prop} {R : Dict → Prop} (hw : RoomInv L K R w.store)
    (conv : Str) : RoomInv L K R (w.toggleMute L conv).2.store := by
  unfold toggleMute
  split
  · exact hw
  · exact hw.setMuted conv false
  have hens : RoomInv L K R (w.store.ensureConv L (.str conv) true).2 := hw.ensureConv nofun
  split <;> rename_i heq <;> rw [heq] at hens
  · exact hens
  · exact hens.setMuted conv true

/-- What holds all along a regular run. -/
structure RunInv (L : Libs) (me : Self) (contacts : List Contact) (moves : List WindowMove)
    (w : Window) : Prop where
  store : RoomInv L (NodeKey L contacts moves) (Roster L me moves) w.store
  pending : ∀ r ∈ w.pending, Asked L moves r
  asking : ∀ r ∈ w.asking, Asked L moves r
  contacts : ∀ c ∈ w.contacts, NodeKey L contacts moves (Python.str c.node)

theorem SameAround.runInv {w' : Window} (h : SameAround w w') (hw : RunInv L me contacts moves w)
    (hstore : RoomInv L (NodeKey L contacts moves) (Roster L me moves) w'.store)
    (hpending : ∀ r ∈ w'.pending, r ∈ w.pending ∨ Asked L moves r) :
    RunInv L me contacts moves w' where
  store := hstore
  pending r hr := (hpending r hr).elim (hw.pending r) id
  asking := by
    rw [h.asking]
    exact hw.asking
  contacts := by
    rw [h.contacts]
    exact hw.contacts

theorem answer_runInv (H : Regular L me contacts moves) (hw : RunInv L me contacts moves w)
    (choice : Choice) : RunInv L me contacts moves (w.answer L me choice).2 := by
  unfold answer
  split
  · exact hw
  rename_i req hreq
  have hclosed : RunInv L me contacts moves { w with asking := none } :=
    ⟨hw.store, hw.pending, fun _ hr => (Option.not_mem_none _ hr).elim, hw.contacts⟩
  dsimp only
  cases choice with
  | block => exact ⟨hw.store, hw.pending, hclosed.asking, hw.contacts⟩
  | deny => exact hclosed
  | accept =>
    have hasked := hw.asking req hreq
    obtain ⟨-, -, -, hpending, hasking, hcontacts⟩ :=
      accept_around (L := L) me { w with asking := none } req
    refine ⟨accept_rooms H hasked hclosed.store, ?_, ?_, fun c hc => ?_⟩
    · rw [hpending]
      exact hw.pending
    · rw [hasking]
      exact hclosed.asking
    · rcases hcontacts c hc with hc | hc
      · exact hw.contacts c hc
      · obtain ⟨mv, hmv, node, o, seq, h, rfl⟩ := hasked
        rw [hc]
        exact nodeKey_of_delivers hmv h

theorem step_runInv (H : Regular L me contacts moves) (hmv : mv ∈ moves)
    (hw : RunInv L me contacts moves w) : RunInv L me contacts moves (w.step L root me mv) := by
  cases mv with
  | text sender seq ts payload =>
    simp only [step, Event.toRecv]
    rcases incoming_cases (L := L) me w (Hex.encode sender)
      (Event.toRecv.recvEvent false sender seq ts payload) with heq | ⟨text, o, htext, ho, heq⟩
    · rw [heq]
      exact hw
    · rw [heq]
      rw [payload_of_recvEvent htext] at ho
      have h : (WindowMove.text sender seq ts payload).Delivers L (Hex.encode sender) o := ⟨rfl, ho⟩
      obtain ⟨haround, hpending⟩ := incomingOpened_around (L := L) me w (Hex.encode sender)
        (Event.toRecv.recvEvent false sender seq ts payload).seqOrZero o
      exact haround.runInv hw (incomingOpened_rooms H hmv h _ hw.store) fun r hr =>
        (hpending r hr).imp_right fun heq => ⟨_, hmv, _, o, _, h, heq⟩
  | onEvent sender seq ts payload =>
    refine (SameAround.setStore w _).runInv hw ?_ fun r hr => .inl hr
    refine Sync.onEvent_inv (fun node _ _ n h => h.setCursor node n)
      (fun peer hpeer text htext o ho st hst => ?_) hw.store
    rw [payload_of_recvEvent htext] at ho
    cases hpeer
    exact route_rooms H hmv rfl ⟨rfl, ho⟩ _ hst
  | history peer msgs =>
    refine (SameAround.setStore w _).runInv hw ?_ fun r hr => .inl hr
    exact Sync.apply_inv (fun _ n h => h.setCursor peer n)
      (fun m hm o ho st hst => route_rooms H hmv rfl ⟨rfl, m, hm, ho⟩ _ hst) hw.store
  | file move =>
    obtain ⟨node, hnode⟩ : ∃ node, (WindowMove.file move).fileSender = some node := by
      cases move <;> exact ⟨_, rfl⟩
    refine ⟨?_, hw.pending, hw.asking, hw.contacts⟩
    exact fileStep_inv hnode (fun conv hconv seq ts text att _ h =>
      h.ingest (H.file _ hmv node hnode conv hconv) seq ts text att) hw.store
  | ask =>
    simp only [step, ask]
    split
    · exact hw
    split
    · exact hw
    · rename_i req rest hpending
      have hall := hw.pending
      rw [hpending] at hall
      refine ⟨hw.store, fun r hr => hall r (List.mem_cons_of_mem req hr), fun r hr => ?_,
        hw.contacts⟩
      cases hr
      exact hall req List.mem_cons_self
  | answer choice => exact answer_runInv H hw choice
  | addContact c =>
    refine ⟨hw.store, hw.pending, hw.asking, fun x hx => ?_⟩
    rcases List.mem_append.1 hx with hx | hx
    · exact hw.contacts x hx
    · rw [List.mem_singleton.1 hx]
      exact .inr (.inl ⟨c, hmv, rfl⟩)
  | removeContact node =>
    exact ⟨hw.store, hw.pending, hw.asking, fun x hx => hw.contacts x (List.mem_of_mem_filter hx)⟩
  | createRoom chosen =>
    obtain ⟨haround, hpending, -⟩ := createRoom_around (L := L) me w chosen
    exact haround.runInv hw (createRoom_rooms H hmv hw.store) fun r hr => .inl (hpending ▸ hr)
  | toggleMute conv =>
    obtain ⟨haround, hpending, -⟩ := toggleMute_around (L := L) w conv
    exact haround.runInv hw (toggleMute_rooms hw.store conv) fun r hr => .inl (hpending ▸ hr)
  | restart =>
    exact ⟨hw.store, hw.pending, fun _ hr => (Option.not_mem_none _ hr).elim, hw.contacts⟩

/-- The invariant in every state of a regular run. -/
theorem run_runInv (H : Regular L me contacts moves) (n : ℕ) :
    RunInv L me contacts moves (run L root me contacts (moves.take n)) := by
  have hstart : RunInv L me contacts moves (start contacts) :=
    ⟨RoomInv.empty, nofun, nofun, fun c hc => .inl ⟨c, hc, rfl⟩⟩
  refine Runs.invariant (step L root me) _ moves hstart (fun n mv hn ih => ?_) n
  exact step_runInv H (List.mem_of_getElem? hn) ih

theorem RunInv.roomsCommit (H : Regular L me contacts moves)
    (hempty : L.loads noMembers = .ok (.obj []))
    (hjson : ∀ d, Roster L me moves d → KeysReadBack L d)
    (hw : RunInv L me contacts moves w) : RoomsCommit L w where
  rooms c hc hdm := by
    obtain ⟨id, hid, hkey, hnone | ⟨d, hd, hcommit, hdumps⟩⟩ := hw.store.rooms c hc hdm
    · exact ⟨id, [], hid, by rw [hnone, hempty], fun h => absurd rfl h⟩
    · obtain ⟨fields, hloads, hfields⟩ := hjson d hd hcommit.1 c.members hdumps
      refine ⟨id, fields, hid, hloads, fun _ => ?_⟩
      rw [hfields]
      refine ⟨hcommit.2, fun m hm hconv => ?_⟩
      rcases hw.store.rows m hm with ⟨heq, hsender⟩ | ⟨d', hd', hcommit', hmem⟩
      · rw [← hconv, heq] at hkey
        exact absurd hsender hkey
      · rw [hconv] at hcommit'
        exact (H.noCollision d d' hd hd' id hcommit hcommit' m.sender).2 hmem
  contacts x hx c hc hid := by
    by_contra hdm
    obtain ⟨id, hid', hkey, -⟩ := hw.store.rooms c hc (by simpa using hdm)
    rw [hid] at hid'
    cases hid'
    exact hkey (hw.contacts x hx)

/-- In every state of a regular run, rooms commit to their rosters. -/
theorem rooms_commit (L : Libs) (root : AttachmentsDir) (me : Self) (contacts : List Contact)
    (moves : List WindowMove) (hempty : L.loads noMembers = .ok (.obj []))
    (hjson : ∀ d, Roster L me moves d → KeysReadBack L d) (H : Regular L me contacts moves) :
    ∀ n, RoomsCommit L (run L root me contacts (moves.take n)) :=
  fun n => (run_runInv H n).roomsCommit H hempty hjson

end Run

/-! ### A room of two -/

section Pair

def pubkeyOf (b : UInt8) : Text := Hex.encode (List.replicate 32 b)

def alice : Self := ⟨pubkeyOf 1, Python.str (pubkeyOf 2), []⟩

def bob : Contact := ⟨pubkeyOf 7, .str (Python.str (pubkeyOf 9)), .str []⟩

def carol : Contact := ⟨pubkeyOf 8, .str (Python.str (pubkeyOf 10)), .str []⟩

/-- The SHA-256 of the two node keys with a bar between them. -/
def pairDigest : Bytes :=
  [0x8d, 0xa0, 0xf8, 0x13, 0x4b, 0xf2, 0xc2, 0x76, 0x86, 0x66, 0x96, 0xc2, 0xe8, 0x69, 0x54, 0x91,
    0x1c, 0x43, 0x14, 0xa5, 0x2e, 0x16, 0x5c, 0x96, 0x98, 0x01, 0x57, 0xc8, 0x5c, 0x9d, 0xc6, 0x8c]

def pairRoom : Str := Python.str (Hex.encode pairDigest)

def pairMembers : List (Str × Json) := [
  (Python.str alice.node, memberInfo (.str (Python.str alice.node)) (.str alice.pubkey) (.str [])),
  (Python.str bob.node, memberInfo (.str (Python.str bob.node)) bob.pubkey (.str []))]

/-- The roster as JSON. -/
def pairText : Str :=
  Python.str ['\x7b'] ++ member (pubkeyOf 1) (pubkeyOf 2) ++ Python.str [',', ' ']
    ++ member (pubkeyOf 7) (pubkeyOf 9) ++ Python.str ['\x7d']
where
  member (node pubkey : Text) : Str :=
    Python.str (['"'] ++ node ++ ['"', ':', ' ', '\x7b', '"', 'n', 'o', 'd', 'e', '"', ':', ' ', '"']
      ++ node ++ ['"', ',', ' ', '"', 'p', 'u', 'b', 'k', 'e', 'y', '"', ':', ' ', '"'] ++ pubkey
      ++ ['"', ',', ' ', '"', 's', 'c', 'r', 'e', 'e', 'n', '"', ':', ' ', '"', '"', '\x7d'])

/-- An identity to which every sealed payload is a greeting for the given conversation, with the
roster of the pair. -/
def pairLibs (conv : Str) : Libs where
  sealOpen sealed := some (sealed.drop 48)
  verifies _ _ _ := true
  loads s := .ok (.obj (
    if s = noMembers then []
    else if s = pairText then pairMembers
    else [(Field.text, .str (Python.str ['h', 'i'])), (Field.ts, .int 7), (Field.conv, .str conv),
      (Field.members, .arr (pairMembers.map Prod.snd))]))
  loadsBytes _ := .ok (.obj [(Field.kind, .str Kind.msg.name), (Field.sender, bob.pubkey),
    (Field.body, .str (Python.str ['b'])),
    (Field.sig, .str (Python.str (Base64.encode (List.replicate 64 0))))])
  dumps _ := .ok pairText
  sha256 _ := pairDigest
  realText _ := []

/-- What a payload of the pair opens to. -/
def pairOpened (conv : Str) : Opened :=
  ⟨bob.pubkey, .str (Python.str ['h', 'i']), .int 7, none, some (.str conv),
    some (.arr (pairMembers.map Prod.snd))⟩

/-- Bob's greeting. -/
def greeting : WindowMove := .text (List.replicate 32 7) 1 5 (List.replicate 48 0)

theorem delivers_greeting {conv : Str} {node : Text} {o : Opened}
    (h : greeting.Delivers (pairLibs conv) node o) : node = bob.node ∧ o = pairOpened conv := by
  obtain ⟨hnode, ho⟩ := h
  have hopen : openMessage (pairLibs conv) (Python.str (Base64.encode (List.replicate 48 0)))
      = .ok (pairOpened conv) := rfl
  rw [hopen] at ho
  exact ⟨hnode, (Except.ok.inj ho).symm⟩

/-- Both ways to read the roster of the greeting give the keys of the pair. -/
theorem rosterOf_greeting {conv : Str} {d : Dict} (h : RosterOf (pairOpened conv) d) :
    d.map Prod.fst = (pairMembers.map Prod.fst).map Json.str := by
  rcases h with h | h
  · cases h
    rfl
  · cases h
    rfl

theorem keyStrings_of_map {d : Dict} {l : List Str} (h : d.map Prod.fst = l.map Json.str) :
    keyStrings d = l := by
  induction d generalizing l with
  | nil =>
    cases l with
    | nil => rfl
    | cons s l => cases h
  | cons e d ih =>
    cases l with
    | nil => cases h
    | cons s l =>
      obtain ⟨hs, hd⟩ := List.cons.inj h
      unfold keyStrings
      rw [List.filterMap_cons, show e.1 = .str s from hs]
      exact congrArg (s :: ·) (ih hd)

/-- The run of the pair: Alice makes the room, and Bob greets her there. -/
def pairMoves : List WindowMove := [.createRoom [bob], greeting]

theorem mem_pairMoves {mv : WindowMove} (h : mv ∈ pairMoves) :
    mv = .createRoom [bob] ∨ mv = greeting := by
  simpa [pairMoves] using h

/-- Only the greeting of the run is a message. -/
theorem delivers_pair {mv : WindowMove} (hmv : mv ∈ pairMoves) {node : Text} {o : Opened}
    (h : mv.Delivers (pairLibs pairRoom) node o) : node = bob.node ∧ o = pairOpened pairRoom := by
  rcases mem_pairMoves hmv with rfl | rfl
  · cases h
  · exact delivers_greeting h

theorem fileSender_pair {mv : WindowMove} (hmv : mv ∈ pairMoves) : mv.fileSender = none := by
  rcases mem_pairMoves hmv with rfl | rfl <;> rfl

theorem roster_pair {d : Dict} (h : Roster (pairLibs pairRoom) alice pairMoves d) :
    d.map Prod.fst = (pairMembers.map Prod.fst).map Json.str := by
  rcases h with ⟨chosen, hmv, rfl⟩ | ⟨mv, hmv, node, o, hdel, hd⟩
  · rcases mem_pairMoves hmv with heq | heq
    · cases heq
      rfl
    · cases heq
  · obtain ⟨-, rfl⟩ := delivers_pair hmv hdel
    exact rosterOf_greeting hd

theorem pairRoom_not_nodeKey : ¬ NodeKey (pairLibs pairRoom) [bob] pairMoves pairRoom := by
  have hne : pairRoom ≠ Python.str bob.node := by decide +kernel
  rintro (⟨c, hc, heq⟩ | ⟨c, hmv, -⟩ | ⟨mv, hmv, node, ⟨o, h⟩ | h, heq⟩)
  · cases List.mem_singleton.1 hc
    exact hne heq
  · rcases mem_pairMoves hmv with heq | heq <;> cases heq
  · rw [(delivers_pair hmv h).1] at heq
    exact hne heq
  · rw [fileSender_pair hmv] at h
    cases h

theorem roomId_pair : roomId (pairLibs pairRoom) (pairMembers.map Prod.fst) = .ok pairRoom := by
  decide +kernel

theorem regular_pair : Regular (pairLibs pairRoom) alice [bob] pairMoves where
  direct mv hmv hsync := by
    rcases mem_pairMoves hmv with rfl | rfl <;> cases hsync
  room mv hmv node o h conv hconv _ := by
    obtain ⟨rfl, rfl⟩ := delivers_pair hmv h
    cases hconv
    refine ⟨⟨_, rfl, rfl⟩, pairRoom, rfl, pairRoom_not_nodeKey, fun d hd => ?_⟩
    have hkeys := rosterOf_greeting hd
    rw [CommitsTo, keyStrings_of_map hkeys]
    exact ⟨⟨hkeys, roomId_pair⟩, by decide +kernel⟩
  created chosen hmv id hid := by
    have hkeys := keyStrings_of_map (roster_pair (.inl ⟨chosen, hmv, rfl⟩))
    rw [hkeys, roomId_pair] at hid
    cases hid
    exact pairRoom_not_nodeKey
  file mv hmv node h := by
    rw [fileSender_pair hmv] at h
    cases h
  noCollision d d' hd hd' _ _ _ s := by
    rw [keyStrings_of_map (roster_pair hd), keyStrings_of_map (roster_pair hd')]

/-- The room of the pair and its one message. -/
theorem rooms_commit_pair :
    let w := run (pairLibs pairRoom) Gui.homeDir alice [bob] pairMoves
    w.store.conversations.map (·.dm) = [false] ∧ w.store.messages.length = 1
      ∧ RoomsCommit (pairLibs pairRoom) w := by
  intro w
  refine ⟨by decide +kernel, by decide +kernel, ?_⟩
  refine rooms_commit (pairLibs pairRoom) Gui.homeDir alice [bob] pairMoves (by rfl) ?_
    regular_pair 2
  intro d hd _ t ht
  cases ht
  refine ⟨pairMembers, ?_, (keyStrings_of_map (roster_pair hd)).symm⟩
  have hne : pairText ≠ noMembers := by decide +kernel
  simp [pairLibs, hne]

/-- Bob's greeting names Carol's node key for its conversation, and makes a room of the conversation
with Carol. -/
theorem roster_overwritten :
    ¬ RoomsCommit (pairLibs (Python.str carol.node))
      (run (pairLibs (Python.str carol.node)) Gui.homeDir alice [bob, carol] [greeting]) := by
  intro h
  have hroom : ∃ c ∈ (run (pairLibs (Python.str carol.node)) Gui.homeDir alice [bob, carol]
      [greeting]).store.conversations, c.id = some (Python.str carol.node) ∧ c.dm = false := by
    decide +kernel
  obtain ⟨c, hc, hid, hdm⟩ := hroom
  have hcarol : carol ∈ (run (pairLibs (Python.str carol.node)) Gui.homeDir alice [bob, carol]
      [greeting]).contacts := by
    have hkept := text_contacts (L := pairLibs (Python.str carol.node)) alice Gui.homeDir
      (start [bob, carol]) (List.replicate 32 7) 1 5 (List.replicate 48 0)
    rw [run, List.foldl_cons, List.foldl_nil, greeting, hkept]
    exact List.mem_cons_of_mem bob List.mem_cons_self
  have hdirect := h.contacts carol hcarol c hc hid
  rw [hdm] at hdirect
  cases hdirect

end Pair

end Window

end Aimless
