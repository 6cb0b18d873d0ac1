import Aimless.Peers
import Aimless.Proofs.Rows

/-!
# What one peer's trouble costs the others

Syncing several peers gives a peer what syncing it alone would give if every request is answered and
no response before its own raises.  Otherwise its response is not applied at all, so that it misses
whatever the response holds (`sync_peers_as_alone_iff`).
-/

namespace Aimless

open Python (Str Exc Json Dict)

namespace Sync

variable {L : Libs} {st st' : Store} {p q : Text} {msgs : List HistoryMsg} {replies : Replies}

/-- The same `sync_peer` as `syncPeer`, with the daemon left out. -/
theorem syncOne_eq_syncPeer (L : Libs) (C : Config) (now : ℤ) (d : Daemon) (st : Store)
    (peer : Text) : syncOne L (repliesOf C now d) st (Python.str peer)
      = ((syncPeer L C now d st peer).1, (syncPeer L C now d st peer).2.2) := by
  unfold syncOne request syncPeer fetch repliesOf
  rw [Python.text?_str]
  dsimp only
  rcases d.dispatch C now true (.history peer (UInt64.ofNat (st.cursor peer))) with ⟨r, d'⟩
  cases r with
  | history sender msgs oldest latest =>
    dsimp only
    rcases apply L st peer msgs with ⟨e | n, st'⟩
    · rfl
    · rfl
  | error e => rfl
  | _ =>
    dsimp only
    rcases apply L st peer [] with ⟨e | n, st'⟩
    · rfl
    · rfl

/-- No entry of a response raises, and every seq fits in its column. -/
def Handled (L : Libs) (peer : Text) (msgs : List HistoryMsg) : Prop :=
  ∀ m ∈ msgs, m.seq.toNat < 2 ^ 63 ∧ Handles L peer m.seq.toNat m.payload

theorem apply_of_handled (h : Handled L p msgs) (st : Store) :
    (∃ n, (apply L st p msgs).1 = .ok n)
      ∧ (apply L st p msgs).2.cursor p = maxSeq (st.cursor p) msgs := by
  obtain ⟨r, st₁, hrun, -, -, ⟨e, -, hbad, -⟩ | ⟨n, rfl, -, -, hcur⟩⟩ := apply_cases L st p msgs
  · exact absurd h hbad
  · rw [hrun]
    exact ⟨⟨n, rfl⟩, hcur⟩

theorem apply_of_not_handled (h : ¬ Handled L p msgs) (st : Store) :
    (∃ e, (apply L st p msgs).1 = .error e) ∧ (apply L st p msgs).2.cursor p = st.cursor p := by
  obtain ⟨r, st₁, hrun, -, -, ⟨e, rfl, -, hcur⟩ | ⟨n, -, hall, -⟩⟩ := apply_cases L st p msgs
  · rw [hrun]
    exact ⟨⟨e, rfl⟩, hcur⟩
  · exact absurd hall h

/-- A row of a response names the peer. -/
theorem sender_of_mem_tailRows {row : Message} (h : row ∈ tailRows L p msgs) :
    row.sender = Python.str p := by
  obtain ⟨m, -, hrow⟩ := mem_tailRows h
  unfold entryRow at hrow
  split at hrow
  · split at hrow
    · simp at hrow
    · cases hrow
  · rename_i o _
    split at hrow
    · rcases hin : Store.incomingRow L (convOf p o) p m.seq.toNat o.ts o.text none with e | r
      · rw [hin] at hrow
        cases hrow
      · rw [hin] at hrow
        have hr : r = some row := Option.some.inj hrow
        rw [hr] at hin
        exact (Store.incomingRow_fields hin).1
    · cases hrow

/-- A peer has the same messages and the same cursor in both stores. -/
structure SameFor (p : Text) (st st' : Store) : Prop where
  messages : Table.rowsOf Message.sender st.messages (Python.str p)
    = Table.rowsOf Message.sender st'.messages (Python.str p)
  cursor : st.cursor p = st'.cursor p

/-- And the same ids are taken, so that a response of the peer comes to the same in both. -/
structure Alike (p : Text) (st st' : Store) : Prop extends SameFor p st st' where
  ids : ∀ n, messageId p n ∈ st.messages.map Message.id
    ↔ messageId p n ∈ st'.messages.map Message.id

theorem Alike.refl (p : Text) (st : Store) : Alike p st st := ⟨⟨rfl, rfl⟩, fun _ => .rfl⟩

theorem Alike.trans {st'' : Store} (h : Alike p st st') (h' : Alike p st' st'') :
    Alike p st st'' :=
  ⟨⟨h.messages.trans h'.messages, h.cursor.trans h'.cursor⟩, fun n => (h.ids n).trans (h'.ids n)⟩

/-- The response of another peer changes nothing for `p`. -/
theorem apply_alike_ne (hq : p ≠ q) (st : Store) (msgs : List HistoryMsg) :
    Alike p (apply L st q msgs).2 st := by
  refine ⟨⟨?_, apply_cursor_ne L st hq msgs⟩, fun n => ?_⟩
  · rw [apply_messages]
    refine Table.rowsOf_insertAll_ne _ _ (fun row hrow => ?_) _
    rw [sender_of_mem_tailRows hrow]
    exact fun h => hq (Python.str_injective h).symm
  · rw [apply_messages, Table.mem_keys_insertAll, or_iff_left]
    intro h
    obtain ⟨row, hrow, hid⟩ := List.mem_map.1 h
    obtain ⟨m, -, hentry⟩ := mem_tailRows hrow
    rw [entryRow_id hentry, messageId_eq_iff] at hid
    exact hq hid.1.symm

/-- The response of `p` does the same in stores that are alike for `p`. -/
theorem Alike.apply (h : Alike p st st') (msgs : List HistoryMsg) :
    Alike p (apply L st p msgs).2 (apply L st' p msgs).2 := by
  have hids : ∀ row ∈ tailRows L p msgs,
      row.id ∈ st.messages.map Message.id ↔ row.id ∈ st'.messages.map Message.id := by
    intro row hrow
    obtain ⟨m, -, hentry⟩ := mem_tailRows hrow
    rw [entryRow_id hentry]
    exact h.ids m.seq.toNat
  refine ⟨⟨?_, ?_⟩, fun n => ?_⟩
  · rw [apply_messages, apply_messages]
    exact Table.rowsOf_insertAll_congr _ _ h.messages hids
  · by_cases hh : Handled L p msgs
    · rw [(apply_of_handled hh st).2, (apply_of_handled hh st').2, h.cursor]
    · rw [(apply_of_not_handled hh st).2, (apply_of_not_handled hh st').2, h.cursor]
  · rw [apply_messages, apply_messages, Table.mem_keys_insertAll, Table.mem_keys_insertAll, h.ids n]

/-! ### The sum over the responses -/

variable {rs : List (Text × List HistoryMsg)}

theorem applyAll_cons_of_handled (h : Handled L q msgs) (st : Store)
    (rs : List (Text × List HistoryMsg)) :
    (applyAll L st ((q, msgs) :: rs)).2 = (applyAll L (apply L st q msgs).2 rs).2 := by
  obtain ⟨⟨n, hn⟩, -⟩ := apply_of_handled h st
  rw [applyAll]
  rcases hrun : apply L st q msgs with ⟨r, st₁⟩
  rw [hrun] at hn
  cases hn
  dsimp only
  rcases applyAll L st₁ rs with ⟨e | m, st₂⟩
  · rfl
  · rfl

theorem applyAll_cons_of_not_handled (h : ¬ Handled L q msgs) (st : Store)
    (rs : List (Text × List HistoryMsg)) :
    (applyAll L st ((q, msgs) :: rs)).2 = (apply L st q msgs).2 := by
  obtain ⟨⟨e, he⟩, -⟩ := apply_of_not_handled h st
  rw [applyAll]
  rcases hrun : apply L st q msgs with ⟨r, st₁⟩
  rw [hrun] at he
  cases he
  rfl

theorem applyAll_alike_ne : ∀ {rs : List (Text × List HistoryMsg)}, (∀ r ∈ rs, r.1 ≠ p) →
    ∀ st, Alike p (applyAll L st rs).2 st
  | [], _, st => Alike.refl p st
  | (q, msgs) :: rs, h, st => by
    obtain ⟨hq, h⟩ := List.forall_mem_cons.1 h
    have happly := apply_alike_ne (L := L) (Ne.symm hq) st msgs
    by_cases hh : Handled L q msgs
    · rw [applyAll_cons_of_handled hh]
      exact (applyAll_alike_ne h _).trans happly
    · rw [applyAll_cons_of_not_handled hh]
      exact happly

/-- The responses up to that of `p` decide: either its response is applied, or nothing changes for
`p`. -/
theorem applyAll_spec : ∀ {rs : List (Text × List HistoryMsg)}, (rs.map Prod.fst).Nodup →
    (p, msgs) ∈ rs → ∀ st,
    ((∀ r ∈ rs.takeWhile (fun r => r.1 ≠ p), Handled L r.1 r.2) →
      Alike p (applyAll L st rs).2 (apply L st p msgs).2)
    ∧ (¬ (∀ r ∈ rs.takeWhile (fun r => r.1 ≠ p), Handled L r.1 r.2) →
      Alike p (applyAll L st rs).2 st)
  | (q, qmsgs) :: rs, hnodup, hmem, st => by
    obtain ⟨hq, hnodup⟩ := List.nodup_cons.1 hnodup
    by_cases hpq : q = p
    · subst hpq
      have hmsgs : msgs = qmsgs := by
        rcases List.mem_cons.1 hmem with h | h
        · exact congrArg Prod.snd h
        · exact absurd (List.mem_map_of_mem h) hq
      subst hmsgs
      refine ⟨fun _ => ?_, fun h => absurd (by simp) h⟩
      by_cases hh : Handled L q msgs
      · rw [applyAll_cons_of_handled hh]
        exact applyAll_alike_ne (fun r hr hrq => hq (List.mem_map.2 ⟨r, hr, hrq⟩)) _
      · rw [applyAll_cons_of_not_handled hh]
        exact Alike.refl _ _
    · have hmem : (p, msgs) ∈ rs := by
        rcases List.mem_cons.1 hmem with h | h
        · exact absurd (congrArg Prod.fst h).symm hpq
        · exact h
      have happly := apply_alike_ne (L := L) (Ne.symm hpq) st qmsgs
      rw [List.takeWhile_cons_of_pos (by simpa using hpq), List.forall_mem_cons]
      by_cases hh : Handled L q qmsgs
      · obtain ⟨ihpos, ihneg⟩ := applyAll_spec hnodup hmem (apply L st q qmsgs).2
        rw [applyAll_cons_of_handled hh]
        exact ⟨fun h => (ihpos h.2).trans (happly.apply msgs),
          fun h => (ihneg fun h' => h ⟨hh, h'⟩).trans happly⟩
      · rw [applyAll_cons_of_not_handled hh]
        exact ⟨fun h => absurd h.1 hh, fun _ => happly⟩

/-! ### The comprehension -/

/-- The request for a peer is answered. -/
def Answered (replies : Replies) (st : Store) (s : Str) : Prop :=
  ∃ t msgs, Python.str t = s ∧ replies t (st.cursor t) = .ok msgs

theorem request_eq_ok {s : Str} : request replies st s = .ok (p, msgs)
    ↔ Python.str p = s ∧ replies p (st.cursor p) = .ok msgs := by
  unfold request
  constructor
  · intro h
    split at h
    · cases h
    · rename_i t ht
      split at h
      · cases h
      · rename_i ms hms
        cases h
        exact ⟨Python.text?_eq_some ht, hms⟩
  · rintro ⟨rfl, h⟩
    rw [Python.text?_str]
    dsimp only
    rw [h]

theorem fetchPeers_eq_ok : ∀ {peers : List Str} {rs : List (Text × List HistoryMsg)},
    fetchPeers replies st peers = .ok rs →
      rs.map (fun r => Python.str r.1) = peers
        ∧ ∀ r ∈ rs, replies r.1 (st.cursor r.1) = .ok r.2
  | [], rs, h => by
    cases h
    exact ⟨rfl, fun r hr => absurd hr List.not_mem_nil⟩
  | s :: peers, rs, h => by
    unfold fetchPeers at h
    split at h
    · cases h
    · rename_i r hr
      split at h
      · cases h
      · rename_i rs' hrs'
        cases h
        obtain ⟨hs, hr⟩ := request_eq_ok.1 hr
        obtain ⟨hpeers, hall⟩ := fetchPeers_eq_ok hrs'
        exact ⟨by rw [List.map_cons, hs, hpeers], List.forall_mem_cons.2 ⟨hr, hall⟩⟩

theorem fetchPeers_ok_iff {peers : List Str} :
    (∃ rs, fetchPeers replies st peers = .ok rs) ↔ ∀ s ∈ peers, Answered replies st s := by
  constructor
  · rintro ⟨rs, h⟩ s hs
    obtain ⟨hpeers, hall⟩ := fetchPeers_eq_ok h
    rw [← hpeers] at hs
    obtain ⟨r, hr, rfl⟩ := List.mem_map.1 hs
    exact ⟨r.1, r.2, rfl, hall r hr⟩
  · intro h
    induction peers with
    | nil => exact ⟨[], rfl⟩
    | cons s peers ih =>
      obtain ⟨⟨t, msgs, ht, hmsgs⟩, h⟩ := List.forall_mem_cons.1 h
      obtain ⟨rs, hrs⟩ := ih h
      refine ⟨(t, msgs) :: rs, ?_⟩
      rw [fetchPeers, request_eq_ok.2 ⟨ht, hmsgs⟩, hrs]

/-- The response of `p` is applied: every request is answered, and no response that comes before
raises. -/
def Reached (L : Libs) (replies : Replies) (st : Store) (peers : List Str) (p : Text) : Prop :=
  (∀ s ∈ peers, Answered replies st s)
    ∧ ∀ q, Python.str q ∈ peers.takeWhile (fun s => s ≠ Python.str p) →
      ∀ msgs, replies q (st.cursor q) = .ok msgs → Handled L q msgs

theorem syncPeers_spec {peers : List Str} (hnodup : peers.Nodup) (hp : Python.str p ∈ peers)
    (hmsgs : replies p (st.cursor p) = .ok msgs) :
    (Reached L replies st peers p →
      SameFor p (syncPeers L replies st peers).2 (apply L st p msgs).2)
    ∧ (¬ Reached L replies st peers p → SameFor p (syncPeers L replies st peers).2 st) := by
  rcases hfetch : fetchPeers replies st peers with e | rs
  · have hnot : ¬ ∀ s ∈ peers, Answered replies st s := fun h => by
      obtain ⟨rs, hrs⟩ := fetchPeers_ok_iff.2 h
      rw [hfetch] at hrs
      cases hrs
    have hst : (syncPeers L replies st peers).2 = st := by rw [syncPeers, hfetch]
    rw [hst]
    exact ⟨fun h => absurd h.1 hnot, fun _ => ⟨rfl, rfl⟩⟩
  · have hans := fetchPeers_ok_iff.1 ⟨rs, hfetch⟩
    obtain ⟨rfl, hall⟩ := fetchPeers_eq_ok hfetch
    have hst : (syncPeers L replies st (rs.map fun r => Python.str r.1)).2
        = (applyAll L st rs).2 := by
      rw [syncPeers, hfetch]
      dsimp only
      rcases applyAll L st rs with ⟨e | n, st₁⟩
      · rfl
      · rfl
    have hkeys : (rs.map Prod.fst).Nodup := by
      refine List.Nodup.of_map Python.str ?_
      rwa [List.map_map]
    have hmem : (p, msgs) ∈ rs := by
      obtain ⟨r, hr, heq⟩ := List.mem_map.1 hp
      have hrp := Python.str_injective heq
      have hr2 := hall r hr
      rw [hrp, hmsgs] at hr2
      rwa [← hrp, Except.ok.inj hr2]
    have hbefore : (∀ r ∈ rs.takeWhile (fun r => r.1 ≠ p), Handled L r.1 r.2)
        ↔ ∀ q, Python.str q ∈ (rs.map fun r => Python.str r.1).takeWhile
            (fun s => s ≠ Python.str p) →
          ∀ msgs, replies q (st.cursor q) = .ok msgs → Handled L q msgs := by
      have htake : (rs.map fun r => Python.str r.1).takeWhile (fun s => s ≠ Python.str p)
          = (rs.takeWhile fun r => r.1 ≠ p).map fun r => Python.str r.1 := by
        rw [List.takeWhile_map]
        congr 2
        funext r
        simp [Python.str_injective.eq_iff]
      rw [htake]
      constructor
      · intro h q hq ms hms
        obtain ⟨r, hr, heq⟩ := List.mem_map.1 hq
        have hrq := Python.str_injective heq
        have hr2 := hall r ((List.takeWhile_sublist _).subset hr)
        rw [hrq, hms] at hr2
        rw [← hrq, Except.ok.inj hr2]
        exact h r hr
      · intro h r hr
        exact h r.1 (List.mem_map.2 ⟨r, hr, rfl⟩) r.2
          (hall r ((List.takeWhile_sublist _).subset hr))
    obtain ⟨hpos, hneg⟩ := applyAll_spec (L := L) hkeys hmem st
    rw [hst]
    exact ⟨fun h => (hpos (hbefore.2 h.2)).toSameFor,
      fun h => (hneg fun h' => h ⟨hans, hbefore.1 h'⟩).toSameFor⟩

/-- The response of `p` has nothing new: what it would store is stored, and the cursor would stay. -/
def BringsNothing (L : Libs) (st : Store) (p : Text) (msgs : List HistoryMsg) : Prop :=
  (∀ row ∈ tailRows L p msgs, row.id ∈ st.messages.map Message.id)
    ∧ (Handled L p msgs → ∀ m ∈ msgs, m.seq.toNat ≤ st.cursor p)

theorem bringsNothing_iff : BringsNothing L st p msgs ↔ SameFor p st (apply L st p msgs).2 := by
  have hrows := Table.rowsOf_insertAll_eq_iff Message.id Message.sender
    (fun row (hrow : row ∈ tailRows L p msgs) => sender_of_mem_tailRows hrow) st.messages
  rw [← apply_messages] at hrows
  have hcursor : (Handled L p msgs → ∀ m ∈ msgs, m.seq.toNat ≤ st.cursor p)
      ↔ st.cursor p = (apply L st p msgs).2.cursor p := by
    by_cases hh : Handled L p msgs
    · rw [(apply_of_handled hh st).2]
      refine ⟨fun h => le_antisymm (le_maxSeq msgs _) ?_, fun h _ m hm => ?_⟩
      · rcases maxSeq_eq msgs (st.cursor p) with heq | ⟨m, hm, heq⟩
        · exact heq.le
        · exact heq ▸ h hh m hm
      · rw [h]
        exact seq_le_maxSeq hm _
    · rw [(apply_of_not_handled hh st).2]
      exact ⟨fun _ => rfl, fun _ h => absurd h hh⟩
  constructor
  · rintro ⟨hr, hc⟩
    exact ⟨(hrows.2 hr).symm, hcursor.1 hc⟩
  · rintro ⟨hr, hc⟩
    exact ⟨hrows.1 hr.symm, hcursor.2 hc⟩

theorem syncOne_store (h : replies p (st.cursor p) = .ok msgs) :
    (syncOne L replies st (Python.str p)).2 = (apply L st p msgs).2 := by
  rw [syncOne, request_eq_ok.2 ⟨rfl, h⟩]
  dsimp only
  rcases apply L st p msgs with ⟨e | n, st₁⟩
  · rfl
  · rfl

/-- A peer whose own request is answered gets what it would have got alone, if and only if its
response is reached or has nothing new. -/
theorem sync_peers_as_alone_iff (L : Libs) (replies : Replies) (st : Store) (peers : List Str)
    (hnodup : peers.Nodup) (p : Text) (hp : Python.str p ∈ peers) (msgs : List HistoryMsg)
    (hmsgs : replies p (st.cursor p) = .ok msgs) :
    SameFor p (syncPeers L replies st peers).2 (syncOne L replies st (Python.str p)).2
      ↔ Reached L replies st peers p ∨ BringsNothing L st p msgs := by
  obtain ⟨hpos, hneg⟩ := syncPeers_spec (L := L) hnodup hp hmsgs
  rw [syncOne_store hmsgs, bringsNothing_iff]
  by_cases hr : Reached L replies st peers p
  · exact ⟨fun _ => .inl hr, fun _ => hpos hr⟩
  · have hst := hneg hr
    constructor
    · intro h
      exact .inr ⟨hst.messages.symm.trans h.messages, hst.cursor.symm.trans h.cursor⟩
    · rintro (h | h)
      · exact absurd h hr
      · exact ⟨hst.messages.trans h.messages, hst.cursor.trans h.cursor⟩

/-- A daemon with one message of `p`. -/
def greeted (C : Config) (p : PublicKey) : Daemon :=
  (Daemon.step C {} (.packet 0 p ((Envelope.encode
    ⟨envelopeVersion, typeMsg, 1, 0, List.replicate 48 0⟩).toOption.getD []))).1

/-- Two peers whose requests are answered, one of them with nothing. -/
theorem sync_peers_as_alone_greeting :
    let C : Config := ⟨10, 0, 0, 0, 65555⟩
    let p : PublicKey := List.replicate 32 7
    let replies := repliesOf C 0 (greeted C p)
    let peers := [Python.str (Hex.encode (List.replicate 32 8)), Python.str (Hex.encode p)]
    peers.Nodup ∧ (syncPeers Desk.greetingLibs replies {} peers).2.messages.length = 1
      ∧ SameFor (Hex.encode p) (syncPeers Desk.greetingLibs replies {} peers).2
        (syncOne Desk.greetingLibs replies {} (Python.str (Hex.encode p))).2 := by
  intro C p replies peers
  have hnodup : peers.Nodup := by decide +kernel
  have hfirst : replies (Hex.encode (List.replicate 32 8)) 0 = .ok [] := by decide +kernel
  have hmsgs : replies (Hex.encode p) 0 = .ok [⟨1, 0, Base64.encode (List.replicate 48 0)⟩] := by
    decide +kernel
  refine ⟨hnodup, by decide +kernel, ?_⟩
  refine (sync_peers_as_alone_iff Desk.greetingLibs replies {} peers hnodup (Hex.encode p)
    (by simp [peers]) _ hmsgs).2 (.inl ⟨?_, ?_⟩)
  · intro s hs
    rcases List.mem_pair.1 hs with rfl | rfl
    · exact ⟨_, _, rfl, hfirst⟩
    · exact ⟨_, _, rfl, hmsgs⟩
  · intro q hq msgs hq'
    have hbefore : peers.takeWhile (fun s => s ≠ Python.str (Hex.encode p))
        = [Python.str (Hex.encode (List.replicate 32 8))] := by decide +kernel
    rw [hbefore, List.mem_singleton] at hq
    cases Python.str_injective hq
    have hnil : msgs = [] := Except.ok.inj (hq'.symm.trans hfirst)
    subst hnil
    exact fun m hm => absurd hm List.not_mem_nil

/-- A roster names the node `zz`, which the daemon refuses, so that nothing of the next peer comes
in. -/
theorem bad_peer_starves_next :
    let C : Config := ⟨10, 0, 0, 0, 65555⟩
    let p : PublicKey := List.replicate 32 7
    let replies := repliesOf C 0 (greeted C p)
    let peers := [Python.str ['z', 'z'], Python.str (Hex.encode p)]
    peers.Nodup ∧ (∃ msgs, replies (Hex.encode p) 0 = .ok msgs)
      ∧ ¬ SameFor (Hex.encode p) (syncPeers Desk.greetingLibs replies {} peers).2
        (syncOne Desk.greetingLibs replies {} (Python.str (Hex.encode p))).2 := by
  intro C p replies peers
  refine ⟨by decide +kernel, ⟨[⟨1, 0, Base64.encode (List.replicate 48 0)⟩], by decide +kernel⟩, ?_⟩
  intro h
  have hnone : (syncPeers Desk.greetingLibs replies {} peers).2.messages = [] := by decide +kernel
  have hrows := h.messages
  rw [hnone] at hrows
  have hone : (Table.rowsOf Message.sender
      (syncOne Desk.greetingLibs replies {} (Python.str (Hex.encode p))).2.messages
      (Python.str (Hex.encode p))).length = 1 := by decide +kernel
  rw [← hrows] at hone
  exact absurd hone (by decide)

end Sync

end Aimless
