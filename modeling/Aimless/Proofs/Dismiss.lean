import Aimless.Dismiss
import Aimless.Proofs.Rows

/-!
# What a dismissal takes from other conversations

A dismissal moves the cursor of each member up to the latest seq in its journal, so that a later
sync takes nothing more from these members: not the backlog of the conversation, and not what else
they sent.  Nothing of another conversation is lost if and only if what a sync would still take from
them is of the conversation itself, or stored already (`dismiss_keeps_others_iff`).
-/

namespace Aimless

open Python (Str Exc Json Dict)

theorem toInt_toInt64 {u : UInt64} (h : u.toNat < 2 ^ 63) : u.toInt64.toInt = u.toNat := by
  have hmod : u.toBitVec.toInt = u.toBitVec.toNat :=
    BitVec.toInt_eq_toNat_of_lt (by simpa using (by omega : 2 * u.toNat < 2 ^ 64))
  exact hmod

namespace Sync

variable {L : Libs} {C : Config} {now : ℤ} {d : Daemon} {st : Store} {peer : Text}

/-- The entries a sync takes from a peer. -/
def tail (C : Config) (db : DB) (st : Store) (peer : Text) : List HistoryMsg :=
  match decodeKey peer with
  | .error _ => []
  | .ok key =>
    ((Daemon.inboxOf C key).after db (UInt64.ofNat (st.cursor peer))).map
      fun e => ⟨e.seq, e.ts, e.payload⟩

theorem fetch_tail (C : Config) (now : ℤ) (d : Daemon) (st : Store) (peer : Text) :
    ∃ d', d'.db = d.db ∧ ((∃ e, fetch C now d st peer = (.error e, d') ∧ tail C d.db st peer = [])
      ∨ (∃ key, decodeKey peer = .ok key)
        ∧ fetch C now d st peer = (.ok (tail C d.db st peer), d')) := by
  unfold fetch Daemon.dispatch Daemon.handleHistory tail
  dsimp only
  rcases decodeKey peer with e | key
  · exact ⟨d.touchClient now, rfl, .inl ⟨e, rfl, rfl⟩⟩
  · exact ⟨(d.touchClient now).boxFor key, Daemon.boxFor_db _ _, .inr ⟨⟨key, rfl⟩, rfl⟩⟩

theorem mem_tail {db : DB} {m : HistoryMsg} : m ∈ tail C db st peer
    ↔ ∃ key, decodeKey peer = .ok key ∧ ∃ r ∈ db.inbox, r.peer = key
      ∧ (UInt64.ofNat (st.cursor peer)).toInt64 < r.seq ∧ m = entryOf r := by
  unfold tail
  rcases decodeKey peer with e | key
  · simp
  · simp only [InboxStore.after, List.map_map, List.mem_map, List.mem_insertionSort,
      List.mem_filter, decide_eq_true_eq, Except.ok.injEq, exists_eq_left']
    constructor
    · rintro ⟨r, ⟨hr, hpeer, hlt⟩, rfl⟩
      exact ⟨r, hr, hpeer, hlt, rfl⟩
    · rintro ⟨r, hr, hpeer, hlt, rfl⟩
      exact ⟨r, ⟨hr, hpeer, hlt⟩, rfl⟩

theorem tail_nodup {db : DB} (hkey : ∀ p, (db.inboxSeqs p).Nodup) (st : Store) (peer : Text) :
    ((tail C db st peer).map (·.seq)).Nodup := by
  unfold tail
  rcases decodeKey peer with e | key
  · simp
  · have hseqs : ((db.inbox.filter fun r => r.peer = key).map fun r => r.seq.toUInt64).Nodup := by
      have := (hkey key).map (f := Int64.toUInt64) fun a b h => by
        have := congrArg UInt64.toInt64 h
        simpa using this
      rwa [DB.inboxSeqs, List.map_map] at this
    simp only [InboxStore.after, List.map_map]
    refine (List.Perm.map _ (List.perm_insertionSort _ _)).nodup_iff.2 ?_
    refine hseqs.sublist (List.Sublist.map _ ?_)
    refine List.monotone_filter_right _ fun r hr => ?_
    simp only [decide_eq_true_eq] at hr ⊢
    exact hr.1

/-- The rows a sync of a peer offers to the store. -/
def offered (L : Libs) (C : Config) (db : DB) (st : Store) (peer : Text) : List Message :=
  tailRows L peer (tail C db st peer)

theorem syncPeer_spec (L : Libs) (C : Config) (now : ℤ) (d : Daemon) (st : Store) (peer : Text) :
    ∃ r d' st', syncPeer L C now d st peer = (r, d', st') ∧ d'.db = d.db
      ∧ st'.messages = Table.insertAll Message.id st.messages (offered L C d.db st peer)
      ∧ ∀ q ≠ peer, st'.cursor q = st.cursor q := by
  obtain ⟨d', hdb, ⟨e, hf, ht⟩ | ⟨-, hf⟩⟩ := fetch_tail C now d st peer
  · refine ⟨.error (.refused e), d', st, by simp only [syncPeer, hf], hdb, ?_, fun _ _ => rfl⟩
    rw [offered, ht]
    rfl
  · have hm := apply_messages L st peer (tail C d.db st peer)
    have hc := fun q (hq : q ≠ peer) => apply_cursor_ne L st hq (tail C d.db st peer)
    unfold syncPeer
    rw [hf]
    dsimp only
    split <;> rename_i heq <;> rw [heq] at hm hc
    · exact ⟨_, _, _, rfl, hdb, hm, hc⟩
    · exact ⟨_, _, _, rfl, hdb, hm, hc⟩

theorem offered_congr {st' : Store} (h : st'.cursor peer = st.cursor peer) (db : DB) :
    offered L C db st' peer = offered L C db st peer := by
  unfold offered tail
  rw [h]

/-- The messages after every peer was synced. -/
theorem syncAll_messages (L : Libs) (C : Config) (now : ℤ) : ∀ {peers : List Text} (d : Daemon)
    (st : Store), peers.Nodup → (syncAll L C now d st peers).2.messages
      = Table.insertAll Message.id st.messages (peers.flatMap (offered L C d.db st))
  | [], d, st, _ => rfl
  | peer :: peers, d, st, h => by
    obtain ⟨hpeer, hpeers⟩ := List.nodup_cons.1 h
    obtain ⟨r, d', st', hsync, hdb, hm, hc⟩ := syncPeer_spec L C now d st peer
    unfold syncAll
    rw [hsync]
    dsimp only
    rw [syncAll_messages L C now d' st' hpeers, hm, hdb, List.flatMap_cons, Table.insertAll_append]
    congr 1
    refine List.flatMap_congr fun q hq => offered_congr (hc q ?_) d.db
    rintro rfl
    exact hpeer hq

/-! ### The latest seqs -/

/-- The latest seq of a node, where it is a key. -/
def latestOf (C : Config) (db : DB) (node : Text) : UInt64 :=
  match decodeKey node with
  | .error _ => 0
  | .ok key => (Daemon.inboxOf C key).latest db

theorem readLatest_spec (C : Config) (now : ℤ) (d : Daemon) (node : Text) :
    ∃ d', d'.db = d.db
      ∧ ((∃ e e', decodeKey node = .error e ∧ readLatest C now d node = (.error e', d'))
        ∨ ∃ key, decodeKey node = .ok key
          ∧ readLatest C now d node = (.ok (latestOf C d.db node), d')) := by
  unfold readLatest Daemon.dispatch Daemon.handleHistory latestOf
  dsimp only
  rcases decodeKey node with e | key
  · exact ⟨d.touchClient now, rfl, .inl ⟨e, e, rfl, rfl⟩⟩
  · exact ⟨(d.touchClient now).boxFor key, Daemon.boxFor_db _ _, .inr ⟨key, rfl, rfl⟩⟩

theorem readLatests_spec (C : Config) (now : ℤ) : ∀ (nodes : List Text) (d : Daemon),
    ∃ d', d'.db = d.db
      ∧ ((∃ e, readLatests C now d nodes = (.error e, d'))
          ∧ (∃ n ∈ nodes, ∀ key, decodeKey n ≠ .ok key)
        ∨ readLatests C now d nodes = (.ok (nodes.map fun n => (n, latestOf C d.db n)), d')
          ∧ ∀ n ∈ nodes, ∃ key, decodeKey n = .ok key)
  | [], d => ⟨d, rfl, .inr ⟨rfl, by simp⟩⟩
  | n :: nodes, d => by
    obtain ⟨d₁, hdb₁, ⟨e, e', hkey, hread⟩ | ⟨key, hkey, hread⟩⟩ := readLatest_spec C now d n
    · refine ⟨d₁, hdb₁, .inl ⟨⟨e', by simp only [readLatests, hread]⟩, n, List.mem_cons_self, ?_⟩⟩
      simp [hkey]
    · obtain ⟨d₂, hdb₂, h⟩ := readLatests_spec C now nodes d₁
      refine ⟨d₂, hdb₂.trans hdb₁, ?_⟩
      rcases h with ⟨⟨e, hrest⟩, q, hq, hbad⟩ | ⟨hrest, hall⟩
      · refine .inl ⟨⟨e, by simp only [readLatests, hread, hrest]⟩, q,
          List.mem_cons_of_mem _ hq, hbad⟩
      · refine .inr ⟨by simp only [readLatests, hread, hrest, hdb₁, List.map_cons], ?_⟩
        simpa using ⟨⟨key, hkey⟩, hall⟩

theorem le_latest {db : DB} {key : PublicKey} {r : InboxRow} (hr : r ∈ db.inbox)
    (hpeer : r.peer = key) : r.seq ≤ ((Daemon.inboxOf C key).latest db).toInt64 := by
  have hmem : r.seq ∈ db.inboxSeqs key := DB.mem_inboxSeqs.2 ⟨r, hr, hpeer, rfl⟩
  unfold InboxStore.latest
  rcases hmax : sqlMax (db.inboxSeqs key) with _ | s
  · rw [sqlMax, List.argmax_eq_none] at hmax
    rw [hmax] at hmem
    simp at hmem
  · have hle : r.seq ≤ s := List.le_of_mem_argmax hmem hmax
    simpa [Daemon.inboxOf, newInboxStore, hmax] using hle

end Sync

namespace Store

variable {st : Store}

/-- The nodes whose cursor is moved up: those before one whose latest seq is no 64-bit integer. -/
def movedUp (latests : List (Text × UInt64)) : List (Text × UInt64) :=
  latests.takeWhile fun e => e.2.toNat < 2 ^ 63

theorem le_setCursors_cursor (q : Text) : ∀ (latests : List (Text × UInt64)) (st : Store),
    st.cursor q ≤ (st.setCursors latests).2.cursor q
  | [], st => le_rfl
  | (node, latest) :: latests, st => by
    unfold setCursors
    split
    · exact le_setCursors_cursor q latests st
    · have hmono : st.cursor q ≤ (st.setCursor node latest.toNat).2.cursor q := by
        by_cases hq : q = node
        · subst hq
          by_cases hlt : latest.toNat < 2 ^ 63
          · obtain ⟨st', hset, -, hc⟩ := st.setCursor_of_lt q hlt
            rw [hset, hc]
            exact le_max_left _ _
          · rw [st.setCursor_of_ge q hlt]
        · rw [setCursor_cursor_ne st hq]
      split <;> rename_i heq <;> rw [heq] at hmono
      · exact hmono
      · exact hmono.trans (le_setCursors_cursor q latests _)

/-- What `setCursors` does: the messages stay, and the cursors that are moved up are at least the
latest seqs. -/
theorem setCursors_spec : ∀ (latests : List (Text × UInt64)) (st : Store),
    (st.setCursors latests).2.messages = st.messages
      ∧ (∀ q, q ∉ (movedUp latests).map Prod.fst → (st.setCursors latests).2.cursor q = st.cursor q)
      ∧ (∀ e ∈ movedUp latests, e.2.toNat ≤ (st.setCursors latests).2.cursor e.1)
      ∧ ((st.setCursors latests).1 = .ok () → movedUp latests = latests)
  | [], st => ⟨rfl, fun _ _ => rfl, by simp [movedUp], fun _ => rfl⟩
  | (node, latest) :: latests, st => by
    by_cases hzero : latest = 0
    · obtain ⟨hm, hc, hle, hok⟩ := setCursors_spec latests st
      have hmoved : movedUp ((node, latest) :: latests) = (node, latest) :: movedUp latests := by
        simp [movedUp, hzero]
      have hcons : st.setCursors ((node, latest) :: latests) = st.setCursors latests := if_pos hzero
      rw [hcons, hmoved]
      refine ⟨hm, fun q hq => hc q fun hin => hq (List.mem_cons_of_mem _ hin), ?_,
        fun h => by rw [hok h]⟩
      intro e he
      rcases List.mem_cons.1 he with rfl | he
      · simp [hzero]
      · exact hle e he
    by_cases hlt : latest.toNat < 2 ^ 63
    · obtain ⟨st', hset, hm', hc'⟩ := st.setCursor_of_lt node hlt
      obtain ⟨hm, hc, hle, hok⟩ := setCursors_spec latests st'
      have hne := fun q (hq : q ≠ node) => setCursor_cursor_ne st hq latest.toNat
      rw [hset] at hne
      have hmoved : movedUp ((node, latest) :: latests) = (node, latest) :: movedUp latests := by
        unfold movedUp
        exact List.takeWhile_cons_of_pos (by simpa using hlt)
      have hcons : st.setCursors ((node, latest) :: latests) = st'.setCursors latests := by
        rw [setCursors, if_neg hzero, hset]
      rw [hcons, hmoved]
      refine ⟨hm.trans hm', fun q hq => ?_, fun e he => ?_, fun h => by rw [hok h]⟩
      · rw [List.map_cons, List.mem_cons, not_or] at hq
        rw [hc q hq.2, hne q hq.1]
      · rcases List.mem_cons.1 he with rfl | he
        · calc latest.toNat ≤ st'.cursor node := by rw [hc']; exact le_max_right _ _
            _ ≤ _ := le_setCursors_cursor node latests st'
        · exact hle e he
    · have hcons : st.setCursors ((node, latest) :: latests) = (.error .overflowError, st) := by
        rw [setCursors, if_neg hzero, st.setCursor_of_ge node hlt]
      have hmoved : movedUp ((node, latest) :: latests) = [] := by
        simp only [movedUp, List.takeWhile_cons_of_neg, hlt, decide_false, Bool.false_eq_true,
          not_false_eq_true]
      rw [hcons, hmoved]
      exact ⟨rfl, fun _ _ => rfl, by simp, by simp⟩

/-- What a dismissal does to the messages and the cursors. -/
theorem dismiss_spec (kind : Dismissal) (st : Store) (conv : Str) (latests : List (Text × UInt64)) :
    (st.dismiss kind conv latests).2.messages = st.messages.filter (fun m => m.conv ≠ conv)
      ∧ (∀ q, q ∉ (movedUp latests).map Prod.fst →
        (st.dismiss kind conv latests).2.cursor q = st.cursor q)
      ∧ (∀ e ∈ movedUp latests, e.2.toNat ≤ (st.dismiss kind conv latests).2.cursor e.1)
      ∧ ((st.dismiss kind conv latests).1 = .ok () → movedUp latests = latests) := by
  unfold dismiss
  cases kind with
  | clearHistory => exact setCursors_spec latests (st.deleteMessages conv)
  | deleteRoom =>
    dsimp only
    obtain ⟨hm, hc, hle, hok⟩ := setCursors_spec latests { st.deleteMessages conv with
      conversations := (st.deleteMessages conv).conversations.map fun c =>
        if c.id = some conv then { c with hidden := true } else c }
    exact ⟨hm, hc, hle, hok⟩

theorem le_dismiss_cursor (st : Store) (kind : Dismissal) (conv : Str)
    (latests : List (Text × UInt64)) (q : Text) :
    st.cursor q ≤ (st.dismiss kind conv latests).2.cursor q := by
  unfold dismiss
  cases kind with
  | clearHistory => exact le_setCursors_cursor q latests (st.deleteMessages conv)
  | deleteRoom =>
    exact le_setCursors_cursor q latests { st.deleteMessages conv with
      conversations := (st.deleteMessages conv).conversations.map fun c =>
        if c.id = some conv then { c with hidden := true } else c }

end Store

namespace Sync

variable {L : Libs} {C : Config} {now : ℤ} {d : Daemon} {st : Store} {peer : Text}

theorem toInt_cursor (st : Store) (peer : Text) :
    (UInt64.ofNat (st.cursor peer)).toInt64.toInt = st.cursor peer := by
  have hlt := st.cursor_lt peer
  have hnat : (UInt64.ofNat (st.cursor peer)).toNat = st.cursor peer :=
    UInt64.toNat_ofNat_of_lt (hlt.trans (by decide))
  rw [toInt_toInt64 (by omega), hnat]

/-- A cursor at the latest seq leaves nothing to take. -/
theorem tail_eq_nil {db : DB} (h : (latestOf C db peer).toNat ≤ st.cursor peer) :
    tail C db st peer = [] := by
  refine List.eq_nil_iff_forall_not_mem.2 fun m hm => ?_
  obtain ⟨key, hkey, r, hr, hpeer, hlt, -⟩ := mem_tail.1 hm
  have hlatest : latestOf C db peer = (Daemon.inboxOf C key).latest db := by rw [latestOf, hkey]
  have hle := le_latest (C := C) hr hpeer
  rw [← hlatest, Int64.le_iff_toInt_le, toInt_toInt64 (by have := st.cursor_lt peer; omega)] at hle
  rw [Int64.lt_iff_toInt_lt, toInt_cursor] at hlt
  omega

/-- The nodes whose journals a dismissal skips. -/
def skippedNodes (C : Config) (db : DB) (nodes : List Text) : List Text :=
  nodes.takeWhile fun n => (latestOf C db n).toNat < 2 ^ 63

/-- A member that is no key ends the dismissal before it began.  Otherwise, what a sync would take
from a member whose journal is skipped is of the conversation or stored already; and what it takes
from another peer for another conversation has not the id of a message that is deleted. -/
def KeepsOthers (L : Libs) (C : Config) (db : DB) (st : Store) (conv : Str)
    (nodes peers : List Text) : Prop :=
  (∀ n ∈ nodes, ∃ key, decodeKey n = .ok key) → ∀ p ∈ peers, ∀ row ∈ offered L C db st p,
    row.conv ≠ conv →
      if p ∈ skippedNodes C db nodes then row.id ∈ st.messages.map Message.id
      else row.id ∈ st.messages.map Message.id →
        row.id ∈ (st.messages.filter fun m => m.conv ≠ conv).map Message.id

/-- Rows taken from different peers have different ids. -/
theorem offered_peer_eq {db : DB} {p q : Text} {row row' : Message}
    (hrow : row ∈ offered L C db st p) {st' : Store} (hrow' : row' ∈ offered L C db st' q)
    (hid : row.id = row'.id) : p = q := by
  obtain ⟨m, -, hr⟩ := mem_tailRows hrow
  obtain ⟨m', -, hr'⟩ := mem_tailRows hrow'
  rw [entryRow_id hr, entryRow_id hr', messageId_eq_iff] at hid
  exact hid.1

/-- The ids of what a sync takes from the peers differ. -/
theorem offered_nodup {db : DB} (hkey : ∀ p, (db.inboxSeqs p).Nodup) (L : Libs) (C : Config)
    (st : Store) {peers : List Text} (hpeers : peers.Nodup) :
    ((peers.flatMap (offered L C db st)).map Message.id).Nodup := by
  rw [List.map_flatMap, List.nodup_flatMap]
  refine ⟨fun p _ => tailRows_nodup (tail_nodup hkey st p), hpeers.imp fun {p q} hne id hp hq => ?_⟩
  obtain ⟨row, hrow, rfl⟩ := List.mem_map.1 hp
  obtain ⟨row', hrow', hid⟩ := List.mem_map.1 hq
  exact hne (offered_peer_eq hrow hrow' hid.symm)

/-- What of it comes in for a conversation. -/
def comesIn (L : Libs) (C : Config) (db : DB) (st : Store) (conv : Str) (p : Text) : List Message :=
  (offered L C db st p).filter fun r => r.conv = conv ∧ r.id ∉ st.messages.map Message.id

theorem mem_comesIn {db : DB} {conv : Str} {p : Text} {row : Message} :
    row ∈ comesIn L C db st conv p
      ↔ row ∈ offered L C db st p ∧ row.conv = conv ∧ row.id ∉ st.messages.map Message.id := by
  rw [comesIn, List.mem_filter, decide_eq_true_eq]

/-- A conversation after every peer was synced. -/
theorem syncAll_messagesOf (L : Libs) (C : Config) (now : ℤ) {peers : List Text}
    (hpeers : peers.Nodup) (d : Daemon) (hkey : ∀ p, (d.db.inboxSeqs p).Nodup) (st : Store)
    (conv : Str) : (syncAll L C now d st peers).2.messagesOf conv
      = st.messagesOf conv ++ peers.flatMap (comesIn L C d.db st conv) := by
  rw [Store.messagesOf, syncAll_messages L C now d st hpeers,
    Table.insertAll_eq _ _ (offered_nodup hkey L C st hpeers), List.filter_append,
    List.filter_filter, List.filter_flatMap, Store.messagesOf]
  congr 1
  refine List.flatMap_congr fun p _ => List.filter_congr fun r _ => ?_
  simp

/-- After a dismissal a sync takes nothing from the members it skips, and from others what
it took. -/
theorem offered_dismiss (L : Libs) {C : Config} {db : DB} {nodes : List Text} (kind : Dismissal)
    (st : Store) (conv : Str) (p : Text) :
    offered L C db (st.dismiss kind conv (nodes.map fun n => (n, latestOf C db n))).2 p
      = if p ∈ skippedNodes C db nodes then [] else offered L C db st p := by
  obtain ⟨-, hsame, hle, -⟩ := st.dismiss_spec kind conv (nodes.map fun n => (n, latestOf C db n))
  have hmoved : Store.movedUp (nodes.map fun n => (n, latestOf C db n))
      = (skippedNodes C db nodes).map fun n => (n, latestOf C db n) := by
    rw [Store.movedUp, skippedNodes, List.takeWhile_map]
    rfl
  rw [hmoved] at hsame hle
  split
  · rename_i hp
    rw [offered, tail_eq_nil (hle _ (List.mem_map_of_mem hp))]
    rfl
  · rename_i hp
    exact offered_congr (hsame p (by simpa using hp)) db

theorem messagesOf_dismiss (kind : Dismissal) (st : Store) (conv : Str)
    (latests : List (Text × UInt64)) {conv' : Str} (hne : conv' ≠ conv) :
    (st.dismiss kind conv latests).2.messagesOf conv' = st.messagesOf conv' := by
  rw [Store.messagesOf, (st.dismiss_spec kind conv latests).1, List.filter_filter, Store.messagesOf]
  refine List.filter_congr fun m _ => ?_
  by_cases hm : m.conv = conv'
  · simp [hm, hne]
  · simp [hm]

section Skipped

-- `st'` is the store after a dismissal: a sync takes nothing any more from the peers skipped.
variable {db : DB} {st' : Store} {skipped : List Text}

/-- If the sync brings the same in for the conversation of a row, the row is stored, or it is not
new after the dismissal if it was not before. -/
theorem stored_of_comesIn_eq
    (hoffered : ∀ p, offered L C db st' p = if p ∈ skipped then [] else offered L C db st p)
    {peers : List Text} {p : Text} (hp : p ∈ peers) {row : Message}
    (hrow : row ∈ offered L C db st p)
    (hlists : peers.flatMap (comesIn L C db st' row.conv)
      = peers.flatMap (comesIn L C db st row.conv)) :
    if p ∈ skipped then row.id ∈ st.messages.map Message.id
    else row.id ∈ st.messages.map Message.id → row.id ∈ st'.messages.map Message.id := by
  split
  · -- A row that is skipped came in without the dismissal, unless it was stored.
    rename_i hskip
    by_contra hnew
    have hin : row ∈ peers.flatMap (comesIn L C db st row.conv) :=
      List.mem_flatMap.2 ⟨p, hp, mem_comesIn.2 ⟨hrow, rfl, hnew⟩⟩
    rw [← hlists, List.mem_flatMap] at hin
    obtain ⟨q, hq, hin⟩ := hin
    obtain ⟨hin, -, -⟩ := mem_comesIn.1 hin
    rw [hoffered] at hin
    split at hin
    · simp at hin
    · rename_i hkept
      rw [offered_peer_eq hin hrow rfl] at hkept
      exact hkept hskip
  · rename_i hkept
    intro hstored
    by_contra hnew
    have hin : row ∈ peers.flatMap (comesIn L C db st' row.conv) := by
      refine List.mem_flatMap.2 ⟨p, hp, mem_comesIn.2 ⟨?_, rfl, hnew⟩⟩
      rwa [hoffered, if_neg hkept]
    rw [hlists, List.mem_flatMap] at hin
    obtain ⟨q, hq, hin⟩ := hin
    exact (mem_comesIn.1 hin).2.2 hstored

/-- If all rows of a peer for a conversation are stored where they have to be, the sync brings the
same in of them. -/
theorem comesIn_eq_of_stored
    (hoffered : ∀ p, offered L C db st' p = if p ∈ skipped then [] else offered L C db st p)
    (hsub : st'.messages ⊆ st.messages) {p : Text} {conv : Str}
    (h : ∀ row ∈ offered L C db st p, row.conv = conv →
      if p ∈ skipped then row.id ∈ st.messages.map Message.id
      else row.id ∈ st.messages.map Message.id → row.id ∈ st'.messages.map Message.id) :
    comesIn L C db st' conv p = comesIn L C db st conv p := by
  unfold comesIn
  rw [hoffered]
  split
  · rename_i hskip
    refine (List.filter_eq_nil_iff.2 fun row hrow => ?_).symm
    have hcond := h row hrow
    rw [if_pos hskip] at hcond
    simpa only [decide_eq_true_eq, not_and, not_not] using hcond
  · rename_i hkept
    refine List.filter_congr fun row hrow => ?_
    have hcond := h row hrow
    rw [if_neg hkept] at hcond
    rw [decide_eq_decide]
    constructor
    · rintro ⟨hconv, hnot⟩
      exact ⟨hconv, fun hin => hnot (hcond hconv hin)⟩
    · rintro ⟨hconv, hnot⟩
      exact ⟨hconv, fun hin => hnot (List.map_subset Message.id hsub hin)⟩

end Skipped

/-- Dismissing a conversation and then syncing every peer leaves every other conversation as the
sync alone would, if and only if nothing of another conversation is skipped. -/
theorem dismiss_keeps_others_iff (L : Libs) (C : Config) (now : ℤ) (kind : Dismissal) (d : Daemon)
    (st : Store) (conv : Str) (nodes peers : List Text) (hpeers : peers.Nodup)
    (hkey : ∀ p, (d.db.inboxSeqs p).Nodup) :
    (∀ conv' ≠ conv,
        (syncAll L C now (onDismiss C now kind d st conv nodes).1
          (onDismiss C now kind d st conv nodes).2 peers).2.messagesOf conv'
        = (syncAll L C now d st peers).2.messagesOf conv')
      ↔ KeepsOthers L C d.db st conv nodes peers := by
  obtain ⟨d', hdb, ⟨⟨e, hread⟩, n, hn, hbad⟩ | ⟨hread, hall⟩⟩ := readLatests_spec C now nodes d
  · -- The worker failed, and nothing was dismissed.
    have hsame : ∀ q : Daemon, q.db = d.db → (syncAll L C now q st peers).2.messages
        = (syncAll L C now d st peers).2.messages := by
      intro q hq
      rw [syncAll_messages L C now q st hpeers, syncAll_messages L C now d st hpeers, hq]
    refine iff_of_true (fun conv' _ => ?_) fun hgood => ?_
    · simp only [onDismiss, hread, Store.messagesOf, hsame d' hdb]
    · obtain ⟨key, hk⟩ := hgood n hn
      exact absurd hk (hbad key)
  have hboth : onDismiss C now kind d st conv nodes
      = (d', (st.dismiss kind conv (nodes.map fun n => (n, latestOf C d.db n))).2) := by
    simp only [onDismiss, hread]
  rw [hboth]
  set st' := (st.dismiss kind conv (nodes.map fun n => (n, latestOf C d.db n))).2 with hst'
  have hmsgs : st'.messages = st.messages.filter fun m => m.conv ≠ conv :=
    (st.dismiss_spec kind conv _).1
  have hoffered : ∀ p, offered L C d.db st' p
      = if p ∈ skippedNodes C d.db nodes then [] else offered L C d.db st p :=
    offered_dismiss L kind st conv
  have hkey' : ∀ p, (d'.db.inboxSeqs p).Nodup := by rwa [hdb]
  have hiff : ∀ conv' ≠ conv, ((syncAll L C now d' st' peers).2.messagesOf conv'
      = (syncAll L C now d st peers).2.messagesOf conv')
      ↔ peers.flatMap (comesIn L C d.db st' conv') = peers.flatMap (comesIn L C d.db st conv') := by
    intro conv' hne
    rw [syncAll_messagesOf L C now hpeers d' hkey', syncAll_messagesOf L C now hpeers d hkey, hdb,
      messagesOf_dismiss kind st conv _ hne, List.append_cancel_left_eq]
  rw [forall₂_congr hiff]
  constructor
  · intro h _ p hp row hrow hne
    rw [← hmsgs]
    exact stored_of_comesIn_eq hoffered hp hrow (h row.conv hne)
  · intro h conv' hne
    have hsub : st'.messages ⊆ st.messages := hmsgs ▸ List.filter_sublist.subset
    refine List.flatMap_congr fun p hp => comesIn_eq_of_stored hoffered hsub fun row hrow hconv => ?_
    have hcond := h hall p hp row hrow (hconv ▸ hne)
    rwa [← hmsgs] at hcond

/-- A journal with one greeting of a peer. -/
def oneGreeting : Daemon :=
  { db := { inbox := [⟨List.replicate 32 7, 1, 9, List.replicate 48 0⟩] } }

theorem oneGreeting_nodup (p : PublicKey) : (oneGreeting.db.inboxSeqs p).Nodup :=
  (List.nodup_singleton (1 : Int64)).sublist (List.filter_sublist.map InboxRow.seq)

/-- The greeting is of the conversation that is cleared. -/
theorem dismiss_keeps_others_own :
    let C : Config := ⟨10, 0, 0, 0, 65555⟩
    let node : Text := Hex.encode (List.replicate 32 7)
    KeepsOthers Desk.greetingLibs C oneGreeting.db {} (Python.str node) [node] [node]
      ∧ ∀ conv' ≠ Python.str node,
        (syncAll Desk.greetingLibs C 0
          (onDismiss C 0 .clearHistory oneGreeting {} (Python.str node) [node]).1
          (onDismiss C 0 .clearHistory oneGreeting {} (Python.str node) [node]).2
          [node]).2.messagesOf conv'
        = (syncAll Desk.greetingLibs C 0 oneGreeting {} [node]).2.messagesOf conv' := by
  intro C node
  have hkeeps : KeepsOthers Desk.greetingLibs C oneGreeting.db {} (Python.str node) [node]
      [node] := by
    intro _
    decide +kernel
  exact ⟨hkeeps, (dismiss_keeps_others_iff _ C 0 .clearHistory oneGreeting {} _ _ _
    (List.nodup_singleton _) oneGreeting_nodup).2 hkeeps⟩

/-- The peer is a member of a room that is deleted, and its greeting, which was not fetched yet, is
never seen in its own conversation. -/
theorem dismiss_loses_other :
    let C : Config := ⟨10, 0, 0, 0, 65555⟩
    let node : Text := Hex.encode (List.replicate 32 7)
    let room : Str := Python.str ['r']
    ¬ ∀ conv' ≠ room,
      (syncAll Desk.greetingLibs C 0 (onDismiss C 0 .deleteRoom oneGreeting {} room [node]).1
        (onDismiss C 0 .deleteRoom oneGreeting {} room [node]).2 [node]).2.messagesOf conv'
      = (syncAll Desk.greetingLibs C 0 oneGreeting {} [node]).2.messagesOf conv' := by
  intro C node room h
  have hgone := h (Python.str node) (by decide +kernel)
  revert hgone
  decide +kernel

end Sync

end Aimless
