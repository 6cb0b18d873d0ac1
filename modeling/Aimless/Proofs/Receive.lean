import Aimless.Proofs.Blocking
import Aimless.Proofs.Inbox

/-!
# What a daemon has received from a peer

Over any run of a daemon, a peer's inbox is what `InboxInv` says of the messages received from the
peer while it was not blocked.  The inbox knows a message by its seq alone, so an acknowledgement
vouches for a payload only as far as the peer does not reuse a seq that is still remembered.
-/

namespace Aimless

open Window

/-- What the inbox tables hold of a peer depends on its rows only. -/
theorem InboxInv.ofRows {box : InboxStore} {h : List Offer} {db db' : DB} (I : InboxInv box h db)
    (hi : Table.rowsOf InboxRow.peer db'.inbox box.peer
      = Table.rowsOf InboxRow.peer db.inbox box.peer)
    (hs : Table.rowsOf InboxSeenRow.peer db'.inboxSeen box.peer
      = Table.rowsOf InboxSeenRow.peer db.inboxSeen box.peer)
    (hp : Table.rowsOf PeerStateRow.peer db'.peerState box.peer
      = Table.rowsOf PeerStateRow.peer db.peerState box.peer) : InboxInv box h db' := by
  have hseqs : db'.inboxSeqs box.peer = db.inboxSeqs box.peer :=
    congrArg (List.map InboxRow.seq) hi
  have hseen : db'.seenSeqs box.peer = db.seenSeqs box.peer :=
    congrArg (List.map InboxSeenRow.seq) hs
  have hmin : box.retainedMin db' = box.retainedMin db := by
    unfold InboxStore.retainedMin
    rw [← List.head?_filter, ← List.head?_filter]
    exact congrArg (fun l => (List.head? l).map PeerStateRow.retainedMin) hp
  refine ⟨hseqs ▸ I.nodup, hseen ▸ I.nodupSeen, hseqs ▸ I.window, hseen ▸ I.guard,
    fun r hr hpeer => ?_, by rw [hmin, hseqs]; exact I.retained⟩
  have hmem : r ∈ Table.rowsOf InboxRow.peer db.inbox box.peer :=
    hi ▸ (Table.mem_rowsOf _).2 ⟨hr, hpeer⟩
  exact I.first r ((Table.mem_rowsOf _).1 hmem).1 hpeer

namespace Daemon

variable {C : Config}

/-- The message an operation hands to `a`'s inbox. -/
def offerOf (a : PublicKey) (d : Daemon) : Op → Option Offer
  | .packet _ sender data =>
    if sender = a ∧ ¬ d.isBlocked a then
      match decodeEnvelope data with
      | .ok env => if env.type = typeMsg then some ⟨env.seq, env.ts, env.payload⟩ else none
      | .error _ => none
    else none
  | _ => none

/-- The messages handed to `a`'s inbox over a run. -/
def offersFrom (C : Config) (a : PublicKey) : Daemon → List Op → List Offer
  | _, [] => []
  | d, op :: ops => (offerOf a d op).toList ++ offersFrom C a (d.step C op).1 ops

/-- Those of them for which `InboxStore.Add` returned that they are new. -/
def acceptedFrom (C : Config) (a : PublicKey) : Daemon → List Op → List Offer
  | _, [] => []
  | d, op :: ops =>
    ((offerOf a d op).filter fun o =>
      ((inboxOf C a).add d.db o.seq o.ts o.payload).1).toList
      ++ acceptedFrom C a (d.step C op).1 ops

section Append

variable (C) (a : PublicKey) (op : Op)

theorem run_append : ∀ (ops : List Op) (d : Daemon),
    (d.run C (ops ++ [op])).1 = ((d.run C ops).1.step C op).1
  | [], _ => rfl
  | _ :: ops, _ => run_append ops _

theorem offersFrom_append : ∀ (ops : List Op) (d : Daemon),
    offersFrom C a d (ops ++ [op])
      = offersFrom C a d ops ++ (offerOf a (d.run C ops).1 op).toList
  | [], d => by simp [offersFrom, run]
  | op' :: ops, d => by
    simp only [List.cons_append, offersFrom, offersFrom_append ops, run, List.append_assoc]

theorem acceptedFrom_append : ∀ (ops : List Op) (d : Daemon),
    acceptedFrom C a d (ops ++ [op])
      = acceptedFrom C a d ops ++ ((offerOf a (d.run C ops).1 op).filter fun o =>
        ((inboxOf C a).add (d.run C ops).1.db o.seq o.ts o.payload).1).toList
  | [], d => by simp [acceptedFrom, run]
  | op' :: ops, d => by
    simp only [List.cons_append, acceptedFrom, acceptedFrom_append ops, run, List.append_assoc]

end Append

section Step

variable {a : PublicKey} {d : Daemon} {op : Op}

/-- The rows of `a` in the tables of the inbox are the same. -/
def SameInbox (a : PublicKey) (db db' : DB) : Prop :=
  Table.rowsOf InboxRow.peer db'.inbox a = Table.rowsOf InboxRow.peer db.inbox a
    ∧ Table.rowsOf InboxSeenRow.peer db'.inboxSeen a = Table.rowsOf InboxSeenRow.peer db.inboxSeen a
    ∧ Table.rowsOf PeerStateRow.peer db'.peerState a = Table.rowsOf PeerStateRow.peer db.peerState a

theorem sameInbox_of_keepsMail {d' : Daemon} (h : KeepsMail d d') : SameInbox a d.db d'.db :=
  ⟨by rw [h.inbox], by rw [h.inboxSeen], by rw [h.peerState]⟩

theorem sameInbox_of_sameFor {db db' : DB} (h : db.SameFor a db') : SameInbox a db db' :=
  ⟨h.inbox, h.inboxSeen, h.peerState⟩

theorem handlePacket_sameInbox (now : ℤ) {sender : PublicKey} {data : Bytes}
    (h : offerOf a d (.packet now sender data) = none) :
    SameInbox a d.db (d.handlePacket C now sender data).1.db := by
  by_cases ha : sender = a
  · subst ha
    have hh := handlePacket_handled (C := C) now d sender data
    generalize d.handlePacket C now sender data = r at hh ⊢
    cases hh with
    | drop => exact ⟨rfl, rfl, rfl⟩
    | ignored => exact sameInbox_of_keepsMail (KeepsMail.boxFor d sender)
    | file _ _ _ _ hadd =>
      obtain ⟨rows, hrows⟩ := AttachmentStore.add_attach _ hadd
      simp only [sendAck_db, hrows]
      exact ⟨rfl, rfl, rfl⟩
    | msg hb he ht =>
      simp only [offerOf, he, ht, hb] at h
      simp at h
    | ack => exact ⟨rfl, rfl, rfl⟩
    | probe =>
      exact sameInbox_of_keepsMail ((KeepsMail.boxFor d sender).trans (KeepsMail.insertPeer _ _ _))
    | status =>
      exact sameInbox_of_keepsMail ((KeepsMail.boxFor d sender).trans (KeepsMail.insertPeer _ _ _))
  · exact sameInbox_of_sameFor ((handlePacket_only now d sender data).db a (Ne.symm ha))

theorem handleSend_sameInbox (now : ℤ) (typ : EnvelopeType) (dest payload : Text) :
    SameInbox a d.db (d.handleSend now typ dest payload).2.db := by
  unfold handleSend
  split
  · exact ⟨rfl, rfl, rfl⟩
  split
  · exact ⟨rfl, rfl, rfl⟩
  rename_i key _ _ bytes _
  obtain ⟨seqs, rows, h⟩ := sendAs_db typ now d key bytes
  split <;> rename_i heq <;> rw [heq] at h <;> dsimp only at h ⊢ <;> rw [h] <;>
    exact ⟨rfl, rfl, rfl⟩

/-- An operation that hands `a`'s inbox nothing leaves it alone. -/
theorem step_sameInbox (h : offerOf a d op = none) : SameInbox a d.db (d.step C op).1.db := by
  have hrefl : SameInbox a d.db d.db := ⟨rfl, rfl, rfl⟩
  cases op with
  | api now persisted req =>
    by_cases hs : (∃ dest payload, req = .send dest payload)
        ∨ ∃ dest payload, req = .sendfile dest payload
    · rcases hs with ⟨dest, payload, rfl⟩ | ⟨dest, payload, rfl⟩
      · exact handleSend_sameInbox (d := d.touchClient now) now typeMsg dest payload
      · exact handleSend_sameInbox (d := d.touchClient now) now typeFile dest payload
    · push Not at hs
      exact sameInbox_of_keepsMail (KeepsMail.dispatch now persisted d hs.1 hs.2)
  | packet now sender data => exact handlePacket_sameInbox now h
  | flush now stamp peer =>
    simp only [step, flushPeer_db]
    exact hrefl
  | retry now stamp order =>
    simp only [step, retryRound_db]
    exact hrefl
  | pathUp now stamp key =>
    have hprobe : SameInbox a (d.flushPeer C now stamp key).db (d.pathUp C now stamp key).db :=
      sameInbox_of_keepsMail (KeepsMail.probeOne now _ key)
    rwa [flushPeer_db] at hprobe
  | tick now order => exact sameInbox_of_keepsMail (KeepsMail.tick now order d)
  | writeControl =>
    unfold step
    dsimp only
    split <;> exact hrefl
  | writeBulk =>
    unfold step
    dsimp only
    split <;> exact hrefl
  | restart =>
    simp only [step, (d.restart_spec a).2.1]
    exact hrefl

theorem offerOf_packet {now : ℤ} {sender : PublicKey} {data : Bytes} {o : Offer}
    (h : offerOf a d (.packet now sender data) = some o) :
    ∃ env, sender = a ∧ ¬ d.isBlocked a ∧ decodeEnvelope data = .ok env ∧ env.type = typeMsg
      ∧ o = ⟨env.seq, env.ts, env.payload⟩ := by
  simp only [offerOf] at h
  split_ifs at h with hs
  split at h
  · rename_i env he
    split_ifs at h with ht
    exact ⟨env, hs.1, hs.2, he, ht, (Option.some.inj h).symm⟩
  · cases h

/-- An operation that hands over a message stores and acknowledges it. -/
theorem step_of_offer {o : Offer} (h : offerOf a d op = some o) :
    (d.step C op).1 = ({ d.boxFor a with
      db := ((inboxOf C a).add d.db o.seq o.ts o.payload).2 } : Daemon).sendAck C a o.seq := by
  cases op with
  | packet now sender data =>
    obtain ⟨env, rfl, hb, he, ht, rfl⟩ := offerOf_packet h
    have hh := handlePacket_handled (C := C) now d sender data
    simp only [step]
    generalize d.handlePacket C now sender data = r at hh ⊢
    cases hh with
    | drop hd =>
      rcases hd with hd | ⟨e, hd⟩
      · exact absurd hd hb
      · rw [hd] at he
        cases he
    | msg _ he' ht' =>
      rw [he] at he'
      cases he'
      rfl
    | ignored _ he' hm =>
      rw [he] at he'
      cases he'
      exact absurd ht hm
    | file _ he' ht' | ack _ he' ht' | probe _ he' ht' | status _ he' ht' =>
      rw [he] at he'
      cases he'
      rw [ht] at ht'
      exact absurd ht' (by decide)
  | api | flush | retry | pathUp | tick | writeControl | writeBulk | restart => cases h

theorem step_offer_db {o : Offer} (h : offerOf a d op = some o) :
    (d.step C op).1.db = ((inboxOf C a).add d.db o.seq o.ts o.payload).2 := by
  rw [step_of_offer h, sendAck_db]

end Step

/-! ### Whole runs -/

theorem inboxOf_one_le (a : PublicKey) : 1 ≤ (inboxOf C a).capacity :=
  one_le_capacity a C.inboxCapacity

/-- One operation, with what it hands to the inbox added to the offers. -/
theorem inboxInv_step {a : PublicKey} {h : List Offer} {d : Daemon}
    (I : InboxInv (inboxOf C a) h d.db) (op : Op) :
    InboxInv (inboxOf C a) (h ++ (offerOf a d op).toList) (d.step C op).1.db := by
  rcases ho : offerOf a d op with _ | o
  · obtain ⟨h1, h2, h3⟩ := step_sameInbox (C := C) ho
    rw [Option.toList_none, List.append_nil]
    exact I.ofRows h1 h2 h3
  · rw [step_offer_db ho, Option.toList_some]
    exact I.add (inboxOf_one_le a) o

theorem run_inboxInv (a : PublicKey) (ops : List Op) :
    InboxInv (inboxOf C a) (offersFrom C a {} ops) (({} : Daemon).run C ops).1.db := by
  induction ops using List.reverseRecOn with
  | nil => exact InboxInv.nil rfl rfl rfl
  | append_singleton ops op ih =>
    rw [offersFrom_append, run_append]
    exact inboxInv_step ih op

/-- How many seqs of a peer are remembered. -/
def remembered (C : Config) (a : PublicKey) : ℕ :=
  (inboxOf C a).capacity + (inboxOf C a).seenCap

/-- What was accepted: only what was offered, and, under a seq that is still remembered, exactly
the first offer. -/
structure AcceptedInv (n : ℕ) (h acc : List Offer) : Prop where
  subset : acc ⊆ h
  payload : ∀ s : UInt64, s.toInt64 ∈ largest n (offered h) → ∀ p : Bytes,
    (∃ o ∈ acc, o.seq = s ∧ o.payload = p) ↔ (firstOffer h s.toInt64).map (·.2) = some p

namespace AcceptedInv

variable {n : ℕ} {h acc : List Offer}

theorem refused (I : AcceptedInv n h acc) {o : Offer} (ho : o.seq.toInt64 ∈ largest n (offered h)) :
    AcceptedInv n (h ++ [o]) acc := by
  have hmem : o.seq.toInt64 ∈ offered h := largest_subset _ _ ho
  have hoff : offered (h ++ [o]) = offered h := by
    rw [offered_append, Finset.insert_eq_self.2 hmem]
  refine ⟨fun x hx => List.mem_append_left _ (I.subset hx), fun s hs p => ?_⟩
  rw [hoff] at hs
  obtain ⟨v, hv⟩ := Option.isSome_iff_exists.1 (firstOffer_isSome.2 (largest_subset _ _ hs))
  rw [I.payload s hs, firstOffer_append, hv]
  rfl

theorem accepted (I : AcceptedInv n h acc) {o : Offer}
    (ho : o.seq.toInt64 ∉ largest n (offered h)) : AcceptedInv n (h ++ [o]) (acc ++ [o]) := by
  refine ⟨fun x hx => ?_, fun s hs p => ?_⟩
  · rcases List.mem_append.1 hx with hx | hx
    · exact List.mem_append_left _ (I.subset hx)
    · exact List.mem_append_right _ hx
  rw [offered_append] at hs
  by_cases hso : s = o.seq
  · -- a remembered seq that was just accepted had never been offered
    subst hso
    have hnew : o.seq.toInt64 ∉ offered h := fun hmem =>
      InboxInv.notMem_largest_insert hmem ho hs
    have hnone : firstOffer h o.seq.toInt64 = none := by
      rw [← Option.not_isSome_iff_eq_none, firstOffer_isSome]
      exact hnew
    rw [firstOffer_append, hnone, if_pos rfl]
    simp only [Option.none_or, Option.map_some, Option.some.injEq]
    constructor
    · rintro ⟨o', ho', hseq, rfl⟩
      rcases List.mem_append.1 ho' with ho' | ho'
      · exact absurd (mem_offered.2 ⟨o', I.subset ho', by rw [hseq]⟩) hnew
      · rw [List.mem_singleton.1 ho']
    · rintro rfl
      exact ⟨o, by simp, rfl, rfl⟩
  · have hne : s.toInt64 ≠ o.seq.toInt64 := fun h' => hso (Words.toInt64_inj.1 h')
    have hs' : s.toInt64 ∈ largest n (offered h) := by
      rw [← largest_insert_largest] at hs
      exact (Finset.mem_insert.1 (largest_subset _ _ hs)).resolve_left hne
    rw [firstOffer_append, if_neg (Ne.symm hne), Option.or_none, ← I.payload s hs']
    constructor
    · rintro ⟨o', ho', hseq, rfl⟩
      rcases List.mem_append.1 ho' with ho' | ho'
      · exact ⟨o', ho', hseq, rfl⟩
      · rw [List.mem_singleton.1 ho'] at hseq
        exact absurd hseq.symm hso
    · rintro ⟨o', ho', hseq, rfl⟩
      exact ⟨o', List.mem_append_left _ ho', hseq, rfl⟩

end AcceptedInv

theorem run_acceptedInv (a : PublicKey) (ops : List Op) :
    AcceptedInv (remembered C a) (offersFrom C a {} ops) (acceptedFrom C a {} ops) := by
  induction ops using List.reverseRecOn with
  | nil => exact ⟨fun _ h => h, fun s hs => by simp [offersFrom, offered, largest] at hs⟩
  | append_singleton ops op ih =>
    have I := run_inboxInv (C := C) a ops
    rw [offersFrom_append, acceptedFrom_append]
    rcases ho : offerOf a (({} : Daemon).run C ops).1 op with _ | o
    · simpa using ih
    · have hfst := I.add_fst o
      by_cases hs : o.seq.toInt64 ∈ largest (remembered C a) (offered (offersFrom C a {} ops))
      · simpa [Option.filter, hfst.2 hs] using ih.refused hs
      · have htrue : ((inboxOf C a).add (({} : Daemon).run C ops).1.db o.seq o.ts o.payload).1
            = true := by
          rw [← Bool.not_eq_false]
          exact fun hf => hs (hfst.1 hf)
        simpa [Option.filter, htrue] using ih.accepted hs

/-! ### What an acknowledgement says -/

/-- The operation enqueues the acknowledgement of `seq` to `a`. -/
def AnswersAck (C : Config) (a : PublicKey) (d : Daemon) (op : Op) (seq : UInt64) : Prop :=
  ∃ data, encodeAck seq = .ok data
    ∧ (d.step C op).1.node.control = d.node.control ++ [⟨a, data⟩]

/-- The daemon has room for an acknowledgement to `a`. -/
def CanAnswer (C : Config) (a : PublicKey) (d : Daemon) : Prop :=
  a.length = publicKeySize ∧ envelopeHeaderSize ≤ C.mtu ∧ d.node.control.length < controlCap

theorem sendAck_of_canAnswer {a : PublicKey} {d : Daemon} (h : CanAnswer C a d) {seq : UInt64}
    {data : Bytes} (hdata : encodeAck seq = .ok data) :
    d.sendAck C a seq = d.withControl a data := by
  have hlen : data.length ≤ C.mtu := by
    rw [Envelope.length_of_encode hdata]
    exact h.2.1
  have hsend : d.node.send C.mtu a data
      = .ok { d.node with control := d.node.control ++ [⟨a, data⟩] } :=
    Node.send_ok.2 ⟨h.1, hlen, h.2.2, rfl⟩
  simp only [sendAck, hdata, hsend]
  rfl

/-- The accepted payloads under a seq that is being acknowledged. -/
theorem mem_accepted_iff (a : PublicKey) (pre : List Op) {op : Op} {o : Offer}
    (ho : offerOf a (({} : Daemon).run C pre).1 op = some o) :
    (∃ o' ∈ acceptedFrom C a {} (pre ++ [op]), o'.seq = o.seq ∧ o'.payload = o.payload)
      ↔ (o.seq.toInt64 ∈ largest (remembered C a) (offered (offersFrom C a {} pre)) →
        (firstOffer (offersFrom C a {} pre) o.seq.toInt64).map (·.2) = some o.payload) := by
  have hfst := (run_inboxInv (C := C) a pre).add_fst o
  rw [acceptedFrom_append, ho]
  by_cases hs : o.seq.toInt64 ∈ largest (remembered C a) (offered (offersFrom C a {} pre))
  · have hnil : (Option.filter (fun o : Offer => ((inboxOf C a).add
        (({} : Daemon).run C pre).1.db o.seq o.ts o.payload).1) (some o)).toList = [] := by
      simp [Option.filter, hfst.2 hs]
    rw [hnil, List.append_nil, (run_acceptedInv a pre).payload o.seq hs o.payload]
    exact ⟨fun h _ => h, fun h => h hs⟩
  · have htrue : ((inboxOf C a).add (({} : Daemon).run C pre).1.db o.seq o.ts o.payload).1
        = true := by
      rw [← Bool.not_eq_false]
      exact fun hf => hs (hfst.1 hf)
    refine ⟨fun _ h => absurd h hs, fun _ => ⟨o, ?_, rfl, rfl⟩⟩
    simp [Option.filter, htrue]

theorem answersAck_iff {a : PublicKey} {d : Daemon} {op : Op} {o : Offer}
    (h : offerOf a d op = some o) : AnswersAck C a d op o.seq ↔ CanAnswer C a d := by
  set d₁ : Daemon := { d.boxFor a with
    db := ((inboxOf C a).add d.db o.seq o.ts o.payload).2 }
  have hstep : (d.step C op).1 = d₁.sendAck C a o.seq := step_of_offer h
  have hnode : d₁.node = d.node := d.boxFor_node a
  obtain ⟨data, hdata, -⟩ := encodeAck_ok o.seq
  unfold AnswersAck
  rw [hstep]
  constructor
  · rintro ⟨data', hdata', hcontrol⟩
    rw [hdata] at hdata'
    cases hdata'
    rcases hsend : d₁.node.send C.mtu a data with e | node
    · have hsame : d₁.sendAck C a o.seq = d₁ := by simp only [sendAck, hdata, hsend]
      rw [hsame, hnode] at hcontrol
      exact absurd (congrArg List.length hcontrol) (by simp)
    · obtain ⟨hkey, hmtu, hroom, -⟩ := Node.send_ok.1 hsend
      rw [Envelope.length_of_encode hdata] at hmtu
      exact ⟨hkey, hmtu, hnode ▸ hroom⟩
  · rintro ⟨hkey, hmtu, hroom⟩
    have hcan : CanAnswer C a d₁ := ⟨hkey, hmtu, by rwa [hnode]⟩
    refine ⟨data, hdata, ?_⟩
    rw [sendAck_of_canAnswer hcan hdata, withControl, hnode]

/-- Every acknowledgement of the run is for a payload accepted under its seq exactly if every
message that can be acknowledged and has a seq still remembered repeats the first message received
under it. -/
theorem ack_vouches_iff (C : Config) (a : PublicKey) (ops : List Op) :
    (∀ pre op post o, ops = pre ++ op :: post →
      offerOf a (({} : Daemon).run C pre).1 op = some o →
      AnswersAck C a (({} : Daemon).run C pre).1 op o.seq →
      ∃ o' ∈ acceptedFrom C a {} (pre ++ [op]), o'.seq = o.seq ∧ o'.payload = o.payload)
    ↔ ∀ pre op post o, ops = pre ++ op :: post →
      offerOf a (({} : Daemon).run C pre).1 op = some o →
      CanAnswer C a (({} : Daemon).run C pre).1 →
      o.seq.toInt64 ∈ largest (remembered C a) (offered (offersFrom C a {} pre)) →
      (firstOffer (offersFrom C a {} pre) o.seq.toInt64).map (·.2) = some o.payload := by
  constructor
  · intro h pre op post o hops ho hcan
    exact (mem_accepted_iff a pre ho).1 (h pre op post o hops ho ((answersAck_iff ho).2 hcan))
  · intro h pre op post o hops ho hack
    exact (mem_accepted_iff a pre ho).2 (h pre op post o hops ho ((answersAck_iff ho).1 hack))

/-- A peer whose counter started again: seq 1 with a second payload is acknowledged and dropped. -/
theorem ack_vouches_fails_reused_seq :
    let C : Config := ⟨10, 0, 0, 0, 65555⟩
    let a : PublicKey := List.replicate 32 7
    let msg : Bytes → Op := fun p => .packet 0 a
      ((Envelope.encode ⟨envelopeVersion, typeMsg, 1, 0, p⟩).toOption.getD [])
    ¬ ∀ pre op post o, [msg [1], msg [2]] = pre ++ op :: post →
      offerOf a (({} : Daemon).run C pre).1 op = some o →
      AnswersAck C a (({} : Daemon).run C pre).1 op o.seq →
      ∃ o' ∈ acceptedFrom C a {} (pre ++ [op]), o'.seq = o.seq ∧ o'.payload = o.payload := by
  intro C a msg h
  have hacc : acceptedFrom C a {} [msg [1], msg [2]] = [⟨1, 0, [1]⟩] := by decide +kernel
  obtain ⟨o', ho', -, hp⟩ := h [msg [1]] (msg [2]) [] ⟨1, 0, [2]⟩ rfl (by decide +kernel)
    ⟨(encodeAck 1).toOption.getD [], rfl, by decide +kernel⟩
  rw [List.singleton_append, hacc, List.mem_singleton] at ho'
  rw [ho'] at hp
  cases hp

end Daemon

end Aimless
