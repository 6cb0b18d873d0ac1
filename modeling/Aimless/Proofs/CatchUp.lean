import Aimless.CatchUp
import Aimless.Proofs.Receive
import Aimless.Proofs.Sync

/-!
# Catching up

While a peer's inbox is not full, it holds the first message offered under each seq, and so does
every event the daemon broadcast.  Each row of the store then comes from one message of the inbox
(`Inv.rows`), and a message that was handed to the client has its row (`Inv.handed`).  A sync
fetches what lies above the cursor: what it cannot fetch is what lies at or below, so the store is
complete as long as that was handed over before.
-/

namespace Aimless

open Window
open Python (Exc Json)

theorem firstOffer_append_of_some {h h' : List Offer} {s : Int64} {v : Int64 × Bytes}
    (hs : firstOffer h s = some v) : firstOffer (h ++ h') s = some v := by
  unfold firstOffer at hs ⊢
  rw [List.find?_append]
  obtain ⟨o, ho, hv⟩ := Option.map_eq_some_iff.1 hs
  rw [ho]
  simpa using hv

namespace Daemon

variable {C : Config} {a : PublicKey} {d : Daemon} {op : Op}

/-- A `recv` event of `a` announces a message that was just accepted. -/
theorem step_recv {seq : UInt64} {ts : Int64} {payload : Bytes}
    (h : Output.event (.recv a seq ts payload) ∈ (d.step C op).2) :
    offerOf a d op = some ⟨seq, ts, payload⟩ ∧ ((inboxOf C a).add d.db seq ts payload).1 = true := by
  cases op with
  | packet now sender data =>
    have hh := handlePacket_handled (C := C) now d sender data
    simp only [step, List.mem_map, Output.event.injEq, exists_eq_right] at h
    generalize d.handlePacket C now sender data = r at hh h
    cases hh with
    | msg hb he ht =>
      simp only [] at h
      split at h
      · rename_i hadd
        simp only [List.mem_singleton, Event.recv.injEq] at h
        obtain ⟨rfl, rfl, rfl, rfl⟩ := h
        refine ⟨?_, hadd⟩
        simp only [offerOf, he, ht, hb]
        simp
      · simp at h
    | drop | ignored | probe | status => simp at h
    | file | ack =>
      simp only [] at h
      split at h <;> simp at h
  | api => simp [step] at h
  | flush | retry | pathUp | tick | restart => simp [step] at h
  | writeControl =>
    simp only [step] at h
    split at h <;> simp at h
  | writeBulk =>
    simp only [step] at h
    split at h <;> simp at h

end Daemon

namespace Sync

variable (C : Config) {p : PublicKey}

/-- An inbox row as `history` gives it. -/
def entryOf (r : InboxRow) : HistoryMsg := ⟨r.seq.toUInt64, r.ts, Base64.encode r.payload⟩

theorem fetch_eq (hp : p.length = publicKeySize) (now : ℤ) (d : Daemon) (st : Store) :
    ∃ msgs d', fetch C now d st (Hex.encode p) = (.ok msgs, d') ∧ d'.db = d.db
      ∧ ∀ m, m ∈ msgs ↔ ∃ r ∈ d.db.inbox, r.peer = p
        ∧ (UInt64.ofNat (st.cursor (Hex.encode p))).toInt64 < r.seq ∧ m = entryOf r := by
  unfold fetch Daemon.dispatch Daemon.handleHistory
  simp only [decodeKey_encode hp, Daemon.history]
  refine ⟨_, _, rfl, ?_, ?_⟩
  · rw [Daemon.boxFor_db]
    rfl
  · intro m
    simp only [InboxStore.after, List.map_map, List.mem_map, List.mem_insertionSort,
      List.mem_filter, decide_eq_true_eq]
    constructor
    · rintro ⟨r, ⟨hr, hpeer, hlt⟩, rfl⟩
      exact ⟨r, hr, hpeer, hlt, rfl⟩
    · rintro ⟨r, hr, hpeer, hlt, rfl⟩
      exact ⟨r, ⟨hr, hpeer, hlt⟩, rfl⟩

end Sync

namespace Desk

variable (L : Libs) (C : Config) (p : PublicKey)

/-- What a move hands to `p`'s inbox. -/
def offersOf (w : Desk) : DeskMove → List Offer
  | .daemon op => (Daemon.offerOf p w.daemon op).toList
  | .live _ _ _ => []
  | .sync _ => []

/-- The messages handed to `p`'s inbox over a run. -/
def offers : Desk → List DeskMove → List Offer
  | _, [] => []
  | w, m :: ms => w.offersOf p m ++ offers (w.step L C p m) ms

/-- The row the store holds of a message. -/
def RowOf (seq : UInt64) (payload : Bytes) (o : Opened) (row : Message) : Prop :=
  openMessage L (Python.str (Base64.encode payload)) = .ok o
    ∧ Store.incomingRow L (Sync.convOf (Hex.encode p) o) (Hex.encode p) seq.toNat o.ts o.text none
      = .ok (some row)

structure Inv (h : List Offer) (w : Desk) : Prop where
  inbox : InboxInv (Daemon.inboxOf C p) h w.daemon.db
  events : ∀ seq ts payload, Event.recv p seq ts payload ∈ w.events →
    firstOffer h seq.toInt64 = some (ts, payload)
  rows : ∀ row ∈ w.store.messages, ∃ seq ts payload o,
    firstOffer h seq.toInt64 = some (ts, payload) ∧ RowOf L p seq payload o row
  handed : ∀ seq ∈ w.handed, ∃ ts payload, firstOffer h seq.toInt64 = some (ts, payload)
    ∧ ∀ o, openMessage L (Python.str (Base64.encode payload)) = .ok o →
      Sync.HasRow (Hex.encode p) o →
        ∃ row ∈ w.store.messages, row.id = messageId (Hex.encode p) seq.toNat

namespace Inv

variable {L C p} {h : List Offer} {w : Desk}

/-- What the daemon broadcast, stored and handed over stays the first of its seq. -/
theorem daemonStep (I : Inv L C p h w) (op : Op)
    (hc : (offered h).card ≤ (Daemon.inboxOf C p).capacity) :
    Inv L C p (h ++ (Daemon.offerOf p w.daemon op).toList) (w.step L C p (.daemon op)) where
  inbox := Daemon.inboxInv_step I.inbox op
  events := by
    intro seq ts payload he
    rcases List.mem_append.1 he with he | he
    · exact firstOffer_append_of_some (I.events seq ts payload he)
    · -- a message that was accepted is the first under its seq
      have hout : Output.event (.recv p seq ts payload) ∈ (w.daemon.step C op).2 := by
        obtain ⟨out, hout, hsome⟩ := List.mem_filterMap.1 he
        cases out with
        | event e =>
          cases hsome
          exact hout
        | _ => cases hsome
      obtain ⟨hoffer, hadd⟩ := Daemon.step_recv hout
      have hnew : seq.toInt64 ∉ offered h := by
        have hseqs := (InboxInv.add_of_true (o := ⟨seq, ts, payload⟩) hadd).1
        rwa [← List.mem_toFinset, I.inbox.window, largest_eq_self hc] at hseqs
      have hnone : firstOffer h seq.toInt64 = none := by
        rw [← firstOffer_isSome, Option.not_isSome_iff_eq_none] at hnew
        exact hnew
      rw [hoffer, Option.toList_some, firstOffer_append, hnone]
      simp
  rows := by
    intro row hrow
    obtain ⟨seq, ts, payload, o, hfirst, hof⟩ := I.rows row hrow
    exact ⟨seq, ts, payload, o, firstOffer_append_of_some hfirst, hof⟩
  handed := by
    intro seq hseq
    obtain ⟨ts, payload, hfirst, hrow⟩ := I.handed seq hseq
    exact ⟨ts, payload, firstOffer_append_of_some hfirst, hrow⟩

/-- A change of the store that adds the rows of messages from the inbox, and hands over messages
that then have their row. -/
theorem storeStep (I : Inv L C p h w) {w' : Desk} (hdb : w'.daemon.db = w.daemon.db)
    (hev : w'.events = w.events) (hsub : w.store.messages ⊆ w'.store.messages)
    (hrows : ∀ row ∈ w'.store.messages, row ∈ w.store.messages ∨ ∃ seq ts payload o,
      firstOffer h seq.toInt64 = some (ts, payload) ∧ RowOf L p seq payload o row)
    (hhanded : ∀ seq ∈ w'.handed, seq ∈ w.handed ∨ ∃ ts payload,
      firstOffer h seq.toInt64 = some (ts, payload)
        ∧ ∀ o, openMessage L (Python.str (Base64.encode payload)) = .ok o →
          Sync.HasRow (Hex.encode p) o →
            ∃ row ∈ w'.store.messages, row.id = messageId (Hex.encode p) seq.toNat) :
    Inv L C p h w' where
  inbox := by
    rw [hdb]
    exact I.inbox
  events := by
    rw [hev]
    exact I.events
  rows := by
    intro row hrow
    rcases hrows row hrow with hrow | hrow
    · exact I.rows row hrow
    · exact hrow
  handed := by
    intro seq hseq
    rcases hhanded seq hseq with hseq | hseq
    · obtain ⟨ts, payload, hfirst, hrow⟩ := I.handed seq hseq
      refine ⟨ts, payload, hfirst, fun o ho hh => ?_⟩
      obtain ⟨row, hmem, hid⟩ := hrow o ho hh
      exact ⟨row, hsub hmem, hid⟩
    · exact hseq

/-- An empty payload is too short to open. -/
theorem openMessage_nil (L : Libs) (o : Opened) :
    openMessage L (Python.str (Base64.encode [])) ≠ .ok o := by
  intro h
  cases h

/-- An event of a message of `p`, as `on_event` sees it. -/
theorem recvEvent_fields (p : PublicKey) (seq : UInt64) (ts : Int64) (payload : Bytes) :
    ∃ ev, (Event.recv p seq ts payload).toRecv = some ev ∧ ev.sender = some (Hex.encode p)
      ∧ ev.seqOrZero = seq.toNat
      ∧ ev.payload = if payload = [] then none else some (Base64.encode payload) := by
  refine ⟨_, rfl, rfl, ?_, rfl⟩
  by_cases h0 : seq = 0
  · subst h0
    rfl
  · simp [RecvEvent.seqOrZero, Event.toRecv.recvEvent, h0]

theorem encode_ne_nil (hp : p.length = publicKeySize) : Hex.encode p ≠ [] := by
  intro hnil
  have hlen := congrArg List.length hnil
  rw [Hex.length_encode, hp] at hlen
  cases hlen

theorem liveStep (hp : p.length = publicKeySize) (I : Inv L C p h w) {seq : UInt64} {ts : Int64}
    {payload : Bytes} (hev : Event.recv p seq ts payload ∈ w.events) :
    Inv L C p h (w.live L p seq ts payload) := by
  have hfirst := I.events seq ts payload hev
  obtain ⟨ev, hto, hsender, hseq, hpayload⟩ := recvEvent_fields p seq ts payload
  unfold live
  simp only [hto]
  by_cases hnil : payload = []
  · -- no payload in the event: nothing is stored, and nothing could be
    subst hnil
    have hnone : Sync.onEvent L w.store ev = (.ok (none, false), w.store) := by
      simp only [Sync.onEvent, hsender, encode_ne_nil hp, if_false, hpayload, if_true]
    simp only [hnone]
    refine I.storeStep rfl rfl (List.Subset.refl _) (fun row hrow => Or.inl hrow) ?_
    intro s hs
    rcases List.mem_append.1 hs with hs | hs
    · exact Or.inl hs
    · rw [List.mem_singleton.1 hs]
      exact Or.inr ⟨ts, [], hfirst, fun o ho => absurd ho (openMessage_nil L o)⟩
  · rw [if_neg hnil] at hpayload
    obtain ⟨r, st', hrun, hcase⟩ :=
      Sync.onEvent_cases L w.store hsender (encode_ne_nil hp) hpayload
    simp only [hrun]
    rcases hcase with ⟨e, rfl, -, hm, -⟩ | ⟨b, rfl, ⟨e, he, -⟩, rfl⟩
      | ⟨b, o, row, rfl, ho, -, -, hrow, hm, -⟩
    · exact I.storeStep rfl rfl (by rw [hm]; exact List.Subset.refl _)
        (fun row hrow => Or.inl (by rwa [hm] at hrow)) fun s hs => Or.inl hs
    · refine I.storeStep rfl rfl (List.Subset.refl _) (fun row hrow => Or.inl hrow) ?_
      intro s hs
      rcases List.mem_append.1 hs with hs | hs
      · exact Or.inl hs
      · rw [List.mem_singleton.1 hs]
        refine Or.inr ⟨ts, payload, hfirst, fun o ho => ?_⟩
        rw [he] at ho
        cases ho
    · rw [hseq] at hrow
      refine I.storeStep rfl rfl ?_ ?_ ?_
      · rw [hm]
        exact Store.subset_addRow _ _
      · intro x hx
        rw [hm] at hx
        rcases Store.mem_addRow hx with hx | rfl
        · exact Or.inl hx
        · exact Or.inr ⟨seq, ts, payload, o, hfirst, ho, hrow⟩
      · intro s hs
        rcases List.mem_append.1 hs with hs | hs
        · exact Or.inl hs
        · rw [List.mem_singleton.1 hs]
          refine Or.inr ⟨ts, payload, hfirst, fun o' ho' hh => ?_⟩
          rw [ho] at ho'
          cases ho'
          obtain ⟨m, rfl⟩ := hh.exists_row hrow
          obtain ⟨x, hx, hid, -⟩ := Store.exists_mem_addRow w.store.messages m
          rw [← hm] at hx
          exact ⟨x, hx, hid.trans (Store.incomingRow_id hrow)⟩

/-- What a sync fetches are rows of the inbox above the cursor. -/
theorem mem_tail (hp : p.length = publicKeySize) (now : ℤ) (w : Desk) {m : HistoryMsg} :
    m ∈ w.tail C p now ↔ ∃ r ∈ w.daemon.db.inbox, r.peer = p
      ∧ (UInt64.ofNat (w.store.cursor (Hex.encode p))).toInt64 < r.seq ∧ m = Sync.entryOf r := by
  obtain ⟨msgs, d', hfetch, -, hmem⟩ := Sync.fetch_eq C hp now w.daemon w.store
  unfold tail
  rw [hfetch]
  exact hmem m

/-- A sync is an `apply` of the tail. -/
theorem sync_cases (hp : p.length = publicKeySize) (now : ℤ) (w : Desk) :
    ∃ r st', Sync.apply L w.store (Hex.encode p) (w.tail C p now) = (r, st')
      ∧ ((∃ e, r = .error e ∧ w.returns L C p now = false
          ∧ (w.sync L C p now).handed = w.handed)
        ∨ ∃ n, r = .ok n ∧ w.returns L C p now = true
          ∧ (w.sync L C p now).handed = w.handed ++ (w.tail C p now).map (·.seq))
      ∧ (w.sync L C p now).store = st' ∧ (w.sync L C p now).daemon.db = w.daemon.db
      ∧ (w.sync L C p now).events = w.events := by
  obtain ⟨msgs, d', hfetch, hdb, -⟩ := Sync.fetch_eq C hp now w.daemon w.store
  have htail : w.tail C p now = msgs := by
    unfold tail
    rw [hfetch]
  rw [htail]
  rcases happly : Sync.apply L w.store (Hex.encode p) msgs with ⟨e | n, st'⟩
  · have hrun : Sync.syncPeer L C now w.daemon w.store (Hex.encode p)
        = (.error (.raised e), d', st') := by
      simp only [Sync.syncPeer, hfetch, happly]
    refine ⟨_, _, rfl, Or.inl ⟨e, rfl, ?_, ?_⟩, ?_, ?_, ?_⟩
    · simp only [returns, hrun]
    all_goals simp only [sync, hrun, hdb]
  · have hrun : Sync.syncPeer L C now w.daemon w.store (Hex.encode p) = (.ok n, d', st') := by
      simp only [Sync.syncPeer, hfetch, happly]
    refine ⟨_, _, rfl, Or.inr ⟨n, rfl, ?_, ?_⟩, ?_, ?_, ?_⟩
    · simp only [returns, hrun]
    all_goals simp only [sync, hrun, hdb, htail]

/-- The rows a sync adds come from the inbox. -/
theorem newRow_tail (hp : p.length = publicKeySize) (I : Inv L C p h w) (now : ℤ) {row : Message}
    (hrow : Sync.NewRow L (Hex.encode p) (w.tail C p now) row) :
    ∃ seq ts payload o, firstOffer h seq.toInt64 = some (ts, payload)
      ∧ RowOf L p seq payload o row := by
  obtain ⟨m, hm, o, ho, hinc⟩ := hrow
  obtain ⟨r, hr, hpeer, -, rfl⟩ := (mem_tail hp now w).1 hm
  have hfirst := I.inbox.first r hr hpeer
  exact ⟨r.seq.toUInt64, r.ts, r.payload, o, by simpa using hfirst, ho, hinc⟩

/-- After a sync that returns, what it fetched has its row. -/
theorem exists_row_of_tail (hp : p.length = publicKeySize) {now : ℤ} {w : Desk}
    (hret : w.returns L C p now = true) {r : InboxRow} (hr : r ∈ w.daemon.db.inbox)
    (hpeer : r.peer = p)
    (hlt : (UInt64.ofNat (w.store.cursor (Hex.encode p))).toInt64 < r.seq) {o : Opened}
    (ho : openMessage L (Python.str (Base64.encode r.payload)) = .ok o)
    (hh : Sync.HasRow (Hex.encode p) o) :
    ∃ row ∈ (w.sync L C p now).store.messages,
      row.id = messageId (Hex.encode p) r.seq.toUInt64.toNat := by
  obtain ⟨res, st', hrun, hres, hst, -, -⟩ := sync_cases (L := L) (C := C) hp now w
  obtain ⟨res', st'', hrun', -, -, hcase⟩ :=
    Sync.apply_cases L w.store (Hex.encode p) (w.tail C p now)
  rw [hrun] at hrun'
  cases hrun'
  rcases hres with ⟨e, -, hno, -⟩ | ⟨n, rfl, -, -⟩
  · rw [hno] at hret
    cases hret
  rcases hcase with ⟨e, he, -⟩ | ⟨n', -, hall, hstored, -⟩
  · cases he
  have hm : Sync.entryOf r ∈ w.tail C p now := (mem_tail hp now w).2 ⟨r, hr, hpeer, hlt, rfl⟩
  obtain ⟨hseq, hhandles⟩ := hall _ hm
  have hs : Storable L (Hex.encode p) o := by
    rcases hhandles with ⟨e, he, -⟩ | ⟨o', ho', hs, -⟩
    · have he : openMessage L (Python.str (Base64.encode r.payload)) = .error e := he
      rw [ho] at he
      cases he
    · have ho' : openMessage L (Python.str (Base64.encode r.payload)) = .ok o' := ho'
      rw [ho] at ho'
      cases ho'
      exact hs
  obtain ⟨res, hinc⟩ := hs.exists_row hseq
  obtain ⟨row, rfl⟩ := hh.exists_row hinc
  obtain ⟨x, hx, hid⟩ := hstored row ⟨_, hm, o, ho, hinc⟩
  exact ⟨x, by rw [hst]; exact hx, hid.trans (Store.incomingRow_id hinc)⟩

theorem syncStep (hp : p.length = publicKeySize) (I : Inv L C p h w) (now : ℤ) :
    Inv L C p h (w.sync L C p now) := by
  obtain ⟨res, st', hrun, hres, hst, hdb, hev⟩ := sync_cases (L := L) (C := C) hp now w
  obtain ⟨res', st'', hrun', hsub, hrows, -⟩ :=
    Sync.apply_cases L w.store (Hex.encode p) (w.tail C p now)
  rw [hrun] at hrun'
  cases hrun'
  refine I.storeStep hdb hev (by rw [hst]; exact hsub) ?_ ?_
  · intro row hrow
    rw [hst] at hrow
    exact (hrows row hrow).imp_right (I.newRow_tail hp now)
  · intro seq hseq
    rcases hres with ⟨e, -, -, hhanded⟩ | ⟨n, -, hret, hhanded⟩
    · rw [hhanded] at hseq
      exact Or.inl hseq
    · rw [hhanded] at hseq
      rcases List.mem_append.1 hseq with hseq | hseq
      · exact Or.inl hseq
      · obtain ⟨m, hm, rfl⟩ := List.mem_map.1 hseq
        obtain ⟨r, hr, hpeer, hlt, rfl⟩ := (mem_tail hp now w).1 hm
        have hfirst := I.inbox.first r hr hpeer
        refine Or.inr ⟨r.ts, r.payload, by simpa [Sync.entryOf] using hfirst, fun o ho hh => ?_⟩
        exact exists_row_of_tail hp hret hr hpeer hlt ho hh

end Inv

/-- Every message of `p` in the inbox that opens has its row in the store. -/
def Complete (w : Desk) : Prop :=
  ∀ r ∈ w.daemon.db.inbox, r.peer = p →
    ∀ o, openMessage L (Python.str (Base64.encode r.payload)) = .ok o →
      ∃ row ∈ w.store.messages, RowOf L p r.seq.toUInt64 r.payload o row

/-- Every message of `p` in the inbox at or below the cursor was handed to the client. -/
def NoGap (w : Desk) : Prop :=
  ∀ r ∈ w.daemon.db.inbox, r.peer = p →
    r.seq ≤ (UInt64.ofNat (w.store.cursor (Hex.encode p))).toInt64 → r.seq.toUInt64 ∈ w.handed

/-- Every message of `p` in the inbox that opens has a row. -/
def AllHaveRows (w : Desk) : Prop :=
  ∀ r ∈ w.daemon.db.inbox, r.peer = p →
    ∀ o, openMessage L (Python.str (Base64.encode r.payload)) = .ok o →
      Sync.HasRow (Hex.encode p) o

variable {L C p} {h : List Offer} {w : Desk}

/-- A row under the identity of a message is the row of that message. -/
theorem Inv.rowOf (I : Inv L C p h w) {r : InboxRow} (hr : r ∈ w.daemon.db.inbox)
    (hpeer : r.peer = p) {o : Opened}
    (ho : openMessage L (Python.str (Base64.encode r.payload)) = .ok o) {row : Message}
    (hrow : row ∈ w.store.messages)
    (hid : row.id = messageId (Hex.encode p) r.seq.toUInt64.toNat) :
    RowOf L p r.seq.toUInt64 r.payload o row := by
  obtain ⟨seq, ts, payload, o', hfirst, ho', hinc⟩ := I.rows row hrow
  have hseq : seq = r.seq.toUInt64 := by
    rw [Store.incomingRow_id hinc] at hid
    exact UInt64.toNat_inj.1 (messageId_inj.1 hid)
  subst hseq
  have hfirst' := I.inbox.first r hr hpeer
  simp only [Int64.toInt64_toUInt64, hfirst', Option.some.injEq, Prod.mk.injEq] at hfirst
  obtain ⟨-, rfl⟩ := hfirst
  rw [ho] at ho'
  cases ho'
  exact ⟨ho, hinc⟩

theorem Inv.complete (hp : p.length = publicKeySize) (I : Inv L C p h w) {now : ℤ}
    (hret : w.returns L C p now = true) (hgap : NoGap p w) (hrows : AllHaveRows L p w) :
    Complete L p (w.sync L C p now) := by
  obtain ⟨res, st', hrun, -, hst, hdb, -⟩ := Inv.sync_cases (L := L) (C := C) hp now w
  obtain ⟨res', st'', hrun', hsub, -, -⟩ :=
    Sync.apply_cases L w.store (Hex.encode p) (w.tail C p now)
  rw [hrun] at hrun'
  cases hrun'
  intro r hr hpeer o ho
  have hr' : r ∈ w.daemon.db.inbox := by rwa [hdb] at hr
  have hh := hrows r hr' hpeer o ho
  have hexists : ∃ row ∈ (w.sync L C p now).store.messages,
      row.id = messageId (Hex.encode p) r.seq.toUInt64.toNat := by
    by_cases hlt : (UInt64.ofNat (w.store.cursor (Hex.encode p))).toInt64 < r.seq
    · exact Inv.exists_row_of_tail hp hret hr' hpeer hlt ho hh
    · -- below the cursor the sync fetches nothing: the row is there from before
      obtain ⟨ts, payload, hfirst, hrow⟩ := I.handed _ (hgap r hr' hpeer (not_lt.1 hlt))
      have hfirst' := I.inbox.first r hr' hpeer
      simp only [Int64.toInt64_toUInt64, hfirst', Option.some.injEq, Prod.mk.injEq] at hfirst
      obtain ⟨-, rfl⟩ := hfirst
      obtain ⟨row, hmem, hid⟩ := hrow o ho hh
      exact ⟨row, by rw [hst]; exact hsub hmem, hid⟩
  obtain ⟨row, hmem, hid⟩ := hexists
  exact ⟨row, hmem, (I.syncStep hp now).rowOf hr hpeer ho hmem hid⟩

theorem Inv.step (hp : p.length = publicKeySize) (I : Inv L C p h w)
    (hc : (offered h).card ≤ (Daemon.inboxOf C p).capacity) (m : DeskMove) :
    Inv L C p (h ++ w.offersOf p m) (w.step L C p m) := by
  cases m with
  | daemon op => exact I.daemonStep op hc
  | live seq ts payload =>
    simp only [offersOf, List.append_nil, Desk.step]
    split
    · rename_i hev
      exact I.liveStep hp hev
    · exact I
  | sync now =>
    simp only [offersOf, List.append_nil, Desk.step]
    exact I.syncStep hp now

theorem run_append (ms : List DeskMove) (m : DeskMove) :
    run L C p (ms ++ [m]) = (run L C p ms).step L C p m := by
  simp [run, List.foldl_append]

theorem offers_append : ∀ (ms : List DeskMove) (ms' : List DeskMove) (w : Desk),
    offers L C p w (ms ++ ms') = offers L C p w ms ++ offers L C p (ms.foldl (Desk.step L C p) w) ms'
  | [], _, _ => rfl
  | m :: ms, ms', w => by
    simp only [List.cons_append, offers, offers_append ms ms', List.foldl_cons, List.append_assoc]

theorem card_offered_le (h h' : List Offer) : (offered h).card ≤ (offered (h ++ h')).card := by
  refine Finset.card_le_card fun s hs => ?_
  obtain ⟨o, ho, rfl⟩ := mem_offered.1 hs
  exact mem_offered.2 ⟨o, List.mem_append_left h' ho, rfl⟩

theorem run_inv (hp : p.length = publicKeySize) (moves : List DeskMove)
    (hc : (offered (offers L C p {} moves)).card ≤ (Daemon.inboxOf C p).capacity) :
    Inv L C p (offers L C p {} moves) (run L C p moves) := by
  induction moves using List.reverseRecOn with
  | nil =>
    refine ⟨InboxInv.nil rfl rfl rfl, ?_, ?_, ?_⟩
    · intro seq ts payload he
      cases he
    · intro row hrow
      cases hrow
    · intro seq hseq
      cases hseq
  | append_singleton ms m ih =>
    rw [offers_append] at hc ⊢
    have hpre := (card_offered_le _ _).trans hc
    rw [run_append]
    have hstep := (ih hpre).step hp hpre m
    simpa [offers, run] using hstep

/-- In every run in which `p`'s inbox is never overfull, a sync that returns leaves the store
complete if at its call no message at or below the cursor was still to be handed over and no message
that opens has a null time or conversation. -/
theorem catch_up_complete (L : Libs) (C : Config) (p : PublicKey) (hp : p.length = publicKeySize)
    (moves : List DeskMove)
    (hcap : (offered (offers L C p {} moves)).card ≤ (Daemon.inboxOf C p).capacity)
    (hmet : ∀ pre now post, moves = pre ++ .sync now :: post →
      NoGap p (run L C p pre) ∧ AllHaveRows L p (run L C p pre)) :
    ∀ pre now post, moves = pre ++ .sync now :: post →
      (run L C p pre).returns L C p now = true → Complete L p (run L C p (pre ++ [.sync now])) := by
  intro pre now post hmoves hret
  obtain ⟨hgap, hrows⟩ := hmet pre now post hmoves
  have hpre : (offered (offers L C p {} pre)).card ≤ (Daemon.inboxOf C p).capacity := by
    rw [hmoves, offers_append] at hcap
    exact (card_offered_le _ _).trans hcap
  rw [run_append]
  exact (run_inv hp pre hpre).complete hp hret hgap hrows

/-- An identity to which every sealed payload says `hi`. -/
def greetingLibs : Libs where
  sealOpen sealed := some (sealed.drop 48)
  verifies _ _ _ := true
  loads _ := .ok (.obj [(Field.text, .str (Python.str ['h', 'i'])), (Field.ts, .int 7)])
  loadsBytes _ := .ok (.obj [(Field.kind, .str Kind.msg.name),
    (Field.sender, .str (Python.str (Hex.encode (List.replicate 32 9)))),
    (Field.body, .str (Python.str ['b'])),
    (Field.sig, .str (Python.str (Base64.encode (List.replicate 64 0))))])
  dumps _ := .ok []
  sha256 _ := []
  realText _ := []

/-- Seq 1 is handled live, seq 2 arrives while the client is away. -/
theorem catch_up_complete_in_order :
    let C : Config := ⟨10, 0, 0, 0, 65555⟩
    let p : PublicKey := List.replicate 32 7
    let payload : Bytes := List.replicate 48 0
    let msg : UInt64 → DeskMove := fun seq => .daemon (.packet 0 p
      ((Envelope.encode ⟨envelopeVersion, typeMsg, seq, 0, payload⟩).toOption.getD []))
    let pre : List DeskMove := [msg 1, .live 1 0 payload, msg 2]
    (run greetingLibs C p pre).returns greetingLibs C p 0 = true
      ∧ ((run greetingLibs C p (pre ++ [.sync 0])).daemon.db.inbox.map (·.seq) = [1, 2])
      ∧ Complete greetingLibs p (run greetingLibs C p (pre ++ [.sync 0])) := by
  intro C p payload msg pre
  have hret : (run greetingLibs C p pre).returns greetingLibs C p 0 = true := by decide +kernel
  refine ⟨hret, by decide +kernel, ?_⟩
  refine catch_up_complete greetingLibs C p rfl (pre ++ [.sync 0]) (by decide +kernel) ?_
    pre 0 [] rfl hret
  intro pre' now post heq
  have hpre : pre' = pre := by
    rcases pre' with _ | ⟨_, _ | ⟨_, _ | ⟨_, _ | ⟨_, pre'⟩⟩⟩⟩
    · cases heq
    · cases heq
    · cases heq
    · cases heq
      rfl
    · have hlen := congrArg List.length heq
      simp only [pre, List.length_append, List.length_cons, List.length_nil] at hlen
      omega
  subst hpre
  refine ⟨by unfold NoGap; decide +kernel, ?_⟩
  have hall : ∀ r ∈ (run greetingLibs C p pre).daemon.db.inbox, r.payload = payload := by
    decide +kernel
  intro r hr hpeer o ho
  rw [hall r hr] at ho
  cases ho
  exact ⟨nofun, nofun, nofun⟩

/-- Seq 2 is handled live while seq 1 is still on its way; once seq 1 has arrived, the sync asks for
what lies above 2. -/
theorem catch_up_misses_late_seq :
    let C : Config := ⟨10, 0, 0, 0, 65555⟩
    let p : PublicKey := List.replicate 32 7
    let payload : Bytes := List.replicate 48 0
    let msg : UInt64 → DeskMove := fun seq => .daemon (.packet 0 p
      ((Envelope.encode ⟨envelopeVersion, typeMsg, seq, 0, payload⟩).toOption.getD []))
    let moves : List DeskMove := [msg 2, .live 2 0 payload, msg 1, .sync 0]
    (offered (offers greetingLibs C p {} moves)).card ≤ (Daemon.inboxOf C p).capacity
      ∧ ¬ ∀ pre now post, moves = pre ++ .sync now :: post →
        (run greetingLibs C p pre).returns greetingLibs C p now = true →
          Complete greetingLibs p (run greetingLibs C p (pre ++ [.sync now])) := by
  intro C p payload msg moves
  refine ⟨by decide +kernel, fun h => ?_⟩
  have hcomplete := h [msg 2, .live 2 0 payload, msg 1] 0 [] rfl (by decide +kernel)
  have hids : (run greetingLibs C p moves).store.messages.map (·.id)
      = [messageId (Hex.encode p) 2] := by decide +kernel
  obtain ⟨row, hrow, -, hinc⟩ := hcomplete ⟨p, 1, 0, payload⟩ (by decide +kernel) rfl
    ⟨.str (Python.str (Hex.encode (List.replicate 32 9))), .str (Python.str ['h', 'i']), .int 7,
      none, none, none⟩ rfl
  have hid := List.mem_map_of_mem (f := Message.id) hrow
  rw [show [msg 2, .live 2 0 payload, msg 1] ++ [DeskMove.sync 0] = moves from rfl, hids,
    List.mem_singleton, Store.incomingRow_id hinc, messageId_inj] at hid
  exact absurd hid (by decide)

end Desk

end Aimless
