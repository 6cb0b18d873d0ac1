import Aimless.Proofs.OwnMail
import Aimless.Proofs.Delivery

/-!
# Where a packet comes from

Whatever a daemon receives and is asked, each packet it writes has one of four origins (`Origin`): a
client asked for its payload to be sent to this peer; it acknowledges a message or chunk that this
peer sent; it is a probe, which says nothing; or it is the status a client set for this peer, or the
marker of a daemon without a client.  The rows and the presence table carry the origin of what is
sent from them later on (`Held`).
-/

namespace Aimless

/-- A client asked for this payload to be sent to the peer, as a text or as a file chunk. -/
def Requested (ops : List Op) (key : PublicKey) (typ : EnvelopeType) (payload : Bytes) : Prop :=
  ∃ now persisted dest text, decodeKey dest = .ok key ∧ Base64.decode text = some payload
    ∧ (.api now persisted (.send dest text) ∈ ops ∧ typ = typeMsg
      ∨ .api now persisted (.sendfile dest text) ∈ ops ∧ typ = typeFile)

/-- A client set this status for the peer. -/
def StatusSet (ops : List Op) (key : PublicKey) (payload : Bytes) : Prop :=
  ∃ now persisted dest text, decodeKey dest = .ok key ∧ Base64.decode text = some payload
    ∧ .api now persisted (.setstatus dest text) ∈ ops

/-- The peer sent a message or a chunk with this seq. -/
def Received (ops : List Op) (key : PublicKey) (seq : UInt64) : Prop :=
  ∃ now data env, .packet now key data ∈ ops ∧ decodeEnvelope data = .ok env ∧ IsMail env.type
    ∧ env.seq = seq

inductive Origin (ops : List Op) (key : PublicKey) (env : Envelope) : Prop
  | mail (h : Requested ops key env.type env.payload)
  | ack (ht : env.type = typeAck) (h : Received ops key env.seq) (hp : env.payload = [])
  | probe (ht : env.type = typeProbe) (hp : env.payload = [])
  | status (ht : env.type = typeStatus) (h : env.payload = [] ∨ StatusSet ops key env.payload)

/-- The packet is for a real key, fits the MTU and is an envelope that has an origin. -/
def Sound (C : Config) (ops : List Op) (out : Outbound) : Prop :=
  out.pub.length = publicKeySize ∧ out.data.length ≤ C.mtu
    ∧ ∃ env, decodeEnvelope out.data = .ok env ∧ Origin ops out.pub env

section Mono

variable {ops ops' : List Op} {key : PublicKey}

theorem Requested.mono {typ : EnvelopeType} {payload : Bytes} (h : Requested ops key typ payload)
    (hsub : ops ⊆ ops') : Requested ops' key typ payload := by
  obtain ⟨now, persisted, dest, text, hk, hp, hin⟩ := h
  exact ⟨now, persisted, dest, text, hk, hp,
    hin.imp (And.imp_left (hsub ·)) (And.imp_left (hsub ·))⟩

theorem StatusSet.mono {payload : Bytes} (h : StatusSet ops key payload) (hsub : ops ⊆ ops') :
    StatusSet ops' key payload := by
  obtain ⟨now, persisted, dest, text, hk, hp, hin⟩ := h
  exact ⟨now, persisted, dest, text, hk, hp, hsub hin⟩

theorem Received.mono {seq : UInt64} (h : Received ops key seq) (hsub : ops ⊆ ops') :
    Received ops' key seq := by
  obtain ⟨now, data, env, hin, hrest⟩ := h
  exact ⟨now, data, env, hsub hin, hrest⟩

theorem Sound.mono {C : Config} {out : Outbound} (h : Sound C ops out) (hsub : ops ⊆ ops') :
    Sound C ops' out := by
  obtain ⟨hkey, hlen, env, henv, horigin⟩ := h
  refine ⟨hkey, hlen, env, henv, ?_⟩
  cases horigin with
  | mail h => exact .mail (h.mono hsub)
  | ack ht h hp => exact .ack ht (h.mono hsub) hp
  | probe ht hp => exact .probe ht hp
  | status ht h => exact .status ht (h.imp id (·.mono hsub))

theorem Requested.isMail {typ : EnvelopeType} {payload : Bytes}
    (h : Requested ops key typ payload) :
    IsMail typ := by
  obtain ⟨_, _, _, _, _, _, hin⟩ := h
  exact hin.imp And.right And.right

end Mono

namespace Daemon

/-- What a daemon holds has an origin. -/
structure Held (C : Config) (ops : List Op) (d : Daemon) : Prop where
  rows : ∀ r ∈ d.db.outbox, Requested ops r.peer r.type r.payload
  statuses : ∀ k st, (d.peers.lookup k).bind (·.statusOut) = some st → StatusSet ops k st.payload
  queued : ∀ out ∈ d.queued, Sound C ops out

namespace Held

variable {C : Config} {ops ops' : List Op} {d d' : Daemon}

theorem init : Held C [] {} := by
  constructor <;> simp [Daemon.queued]

theorem mono (H : Held C ops d) (hsub : ops ⊆ ops') : Held C ops' d :=
  ⟨fun r hr => (H.rows r hr).mono hsub, fun k st hst => (H.statuses k st hst).mono hsub,
    fun out hout => (H.queued out hout).mono hsub⟩

theorem ofSame (H : Held C ops d) (hr : d'.db.outbox ⊆ d.db.outbox) (hp : d'.peers = d.peers)
    (hq : d'.node = d.node) : Held C ops d' where
  rows r hr' := H.rows r (hr hr')
  statuses k st hst := H.statuses k st (hp ▸ hst)
  queued out hout := H.queued out (by rwa [Daemon.queued, hq] at hout)

theorem boxFor (H : Held C ops d) (k : PublicKey) : Held C ops (d.boxFor k) := by
  rcases d.boxFor_cases k with h | h <;> rw [h]
  · exact H
  · exact H.ofSame (List.Subset.refl _) rfl rfl

/-- A presence entry whose status was set for its peer, or was there before. -/
theorem insertPeer (H : Held C ops d) (k : PublicKey) (pp : PeerPresence)
    (h : pp.statusOut = (d.keyFor k).statusOut
      ∨ ∃ st, pp.statusOut = some st ∧ StatusSet ops k st.payload) :
    Held C ops { d with peers := d.peers.insert k pp } := by
  refine ⟨H.rows, fun k' st hst => ?_, H.queued⟩
  by_cases hk : k' = k
  · subst hk
    rw [AList.lookup_insert, Option.bind_some] at hst
    rcases h with h | ⟨st', h, hset⟩
    · refine H.statuses k' st ?_
      rw [← hst, h, Daemon.keyFor]
      rcases d.peers.lookup k' with _ | pp' <;> rfl
    · rw [h] at hst
      cases hst
      exact hset
  · rw [AList.lookup_insert_ne hk] at hst
    exact H.statuses k' st hst

theorem withControl (H : Held C ops d) {dest : PublicKey} {data : Bytes}
    (h : Sound C ops ⟨dest, data⟩) : Held C ops (d.withControl dest data) where
  rows := H.rows
  statuses := H.statuses
  queued out hout := by
    rcases mem_queued_withControl.1 hout with hout | rfl
    · exact H.queued out hout
    · exact h

theorem withBulk (H : Held C ops d) {dest : PublicKey} {data : Bytes}
    (h : Sound C ops ⟨dest, data⟩) : Held C ops (d.withBulk dest data) where
  rows := H.rows
  statuses := H.statuses
  queued out hout := by
    rcases mem_queued_withBulk.1 hout with hout | rfl
    · exact H.queued out hout
    · exact h

theorem sendControl (H : Held C ops d) {dest : PublicKey} {env : Envelope}
    (hv : env.version = envelopeVersion) (horigin : Origin ops dest env) :
    Held C ops (d.sendControl C dest env).2 := by
  unfold Daemon.sendControl
  split
  · exact H
  rename_i data hdata
  split
  · exact H
  rename_i node hnode
  obtain ⟨hkey, hlen, -, rfl⟩ := Node.send_ok.1 hnode
  exact H.withControl ⟨hkey, hlen, env, Envelope.decode_of_encode hv hdata, horigin⟩

theorem sendAck (H : Held C ops d) {dest : PublicKey} {seq : UInt64} (h : Received ops dest seq) :
    Held C ops (d.sendAck C dest seq) := by
  unfold Daemon.sendAck
  split
  · exact H
  rename_i data hdata
  split
  · exact H
  rename_i node hnode
  obtain ⟨hkey, hlen, -, rfl⟩ := Node.send_ok.1 hnode
  exact H.withControl ⟨hkey, hlen, _, Envelope.decode_of_encode rfl hdata, .ack rfl h rfl⟩

theorem probeOne (H : Held C ops d) (now : ℤ) (k : PublicKey) :
    Held C ops (d.probeOne C now k) := by
  have hcount : Held C ops { d with probeSeq := d.probeSeq + 1 } :=
    H.ofSame (List.Subset.refl _) rfl rfl
  have hprobe : Held C ops (d.sendProbe C now k).2 := hcount.sendControl rfl (.probe rfl rfl)
  unfold Daemon.probeOne
  split
  · exact H
  dsimp only
  split
  · exact hprobe.sendControl rfl (.status rfl (.inl rfl))
  split
  · rename_i st hst
    exact hprobe.sendControl rfl (.status rfl (.inr (hprobe.statuses k st hst)))
  · exact hprobe

theorem tick (H : Held C ops d) (now : ℤ) (order : List PublicKey) :
    Held C ops (d.tick C now order) := by
  have hfold : ∀ (keys : List PublicKey) (d : Daemon), Held C ops d →
      Held C ops (keys.foldl (Daemon.probeOne C now) d) := by
    intro keys
    induction keys with
    | nil => exact fun d H => H
    | cons k keys ih => exact fun d H => ih _ (H.probeOne now k)
  exact hfold _ d H

/-! ### Mail -/

theorem flushEntry (H : Held C ops d) (now : ℤ) (stamp : UInt64 → ℤ) {pub : PublicKey}
    {entry : JournalEntry} (h : ∀ payload, Base64.decode entry.payload = some payload →
      Requested ops pub entry.type payload) :
    Held C ops (Daemon.flushEntry C now stamp pub d entry) := by
  unfold Daemon.flushEntry
  split
  · exact H
  split
  · exact H
  rename_i payload hpayload
  dsimp only
  split
  · exact H
  rename_i data hdata
  have henv : decodeEnvelope data = .ok (envelopeOf entry payload) :=
    Envelope.decode_of_encode rfl hdata
  have horigin : Origin ops pub (envelopeOf entry payload) := .mail (h payload hpayload)
  split
  · exact H
  rename_i node hnode
  split_ifs at hnode
  · obtain ⟨hkey, hlen, -, rfl⟩ := Node.sendBulk_ok.1 hnode
    exact (H.withBulk ⟨hkey, hlen, _, henv, horigin⟩).ofSame (List.Subset.refl _) rfl rfl
  · obtain ⟨hkey, hlen, -, rfl⟩ := Node.send_ok.1 hnode
    exact (H.withControl ⟨hkey, hlen, _, henv, horigin⟩).ofSame (List.Subset.refl _) rfl rfl

theorem flushPeer (H : Held C ops d) (now : ℤ) (stamp : UInt64 → ℤ) (peer : PublicKey) :
    Held C ops (d.flushPeer C now stamp peer) := by
  have hentries : ∀ e ∈ d.flushEntries peer, ∀ payload, Base64.decode e.payload = some payload →
      Requested ops peer e.type payload := by
    intro e he payload hpayload
    unfold flushEntries at he
    split at he
    · simp at he
    split at he
    · simp at he
    unfold OutboxJournal.pending at he
    obtain ⟨r, hr, rfl⟩ := List.mem_map.1 he
    rw [List.mem_insertionSort, List.mem_filter, decide_eq_true_eq] at hr
    obtain ⟨hr, rfl⟩ := hr
    dsimp only at hpayload
    rw [Base64.decode_encode] at hpayload
    cases hpayload
    exact H.rows r hr
  have hfold : ∀ (entries : List JournalEntry) (d : Daemon), Held C ops d →
      (∀ e ∈ entries, ∀ payload, Base64.decode e.payload = some payload →
        Requested ops peer e.type payload) →
      Held C ops (entries.foldl (Daemon.flushEntry C now stamp peer) d) := by
    intro entries
    induction entries with
    | nil => exact fun d H _ => H
    | cons e entries ih =>
      intro d H he
      exact ih _ (H.flushEntry now stamp (he e List.mem_cons_self))
        fun e' he' => he e' (List.mem_cons_of_mem e he')
  exact hfold _ d H hentries

theorem retryRound (H : Held C ops d) (now : ℤ) (stamp : UInt64 → ℤ) (order : List PublicKey) :
    Held C ops (d.retryRound C now stamp order) := by
  unfold Daemon.retryRound
  generalize order.filter (· ∈ d.boxes) = keys
  induction keys generalizing d with
  | nil => exact H
  | cons k keys ih =>
    rw [List.foldl_cons]
    split_ifs
    · exact ih (H.flushPeer now stamp k)
    · exact ih H

theorem sendAs (H : Held C ops d) (typ : EnvelopeType) (now : ℤ) {dest : PublicKey}
    {payload : Bytes} (h : Requested ops dest typ payload) :
    Held C ops (d.sendAs typ now dest payload).2 := by
  have hbegin : Held C ops (d.beginSend dest).2 := by
    obtain ⟨rows, hdb⟩ := d.beginSend_db dest
    have hout : (d.beginSend dest).2.db.outbox ⊆ (d.boxFor dest).db.outbox := by
      rw [hdb, d.boxFor_db]
      exact List.Subset.refl _
    unfold Daemon.beginSend at hout ⊢
    split
    · exact H
    rename_i hb
    rw [if_neg hb] at hout
    dsimp only at hout ⊢
    split <;> rename_i heq <;> rw [heq] at hout <;> exact (H.boxFor dest).ofSame hout rfl rfl
  unfold Daemon.sendAs
  split <;> rename_i heq <;> rw [heq] at hbegin
  · exact hbegin
  · refine ⟨fun r hr => ?_, hbegin.statuses, hbegin.queued⟩
    rcases List.mem_append.1 hr with hr | hr
    · exact hbegin.rows r (List.mem_of_mem_filter hr)
    · rw [List.mem_singleton.1 hr]
      exact h

theorem handleSend (H : Held C ops d) (now : ℤ) (typ : EnvelopeType) {dest payload : Text}
    (h : ∀ key bytes, decodeKey dest = .ok key → Base64.decode payload = some bytes →
      Requested ops key typ bytes) : Held C ops (d.handleSend now typ dest payload).2 := by
  unfold Daemon.handleSend
  split
  · exact H
  rename_i key hkey
  split
  · exact H
  rename_i bytes hbytes
  have hsend := H.sendAs typ now (h key bytes hkey hbytes)
  split <;> rename_i heq <;> rw [heq] at hsend <;> exact hsend

theorem handleSetStatus (H : Held C ops d) (now : ℤ) {dest payload : Text}
    (h : ∀ key bytes, decodeKey dest = .ok key → Base64.decode payload = some bytes →
      StatusSet ops key bytes) : Held C ops (d.handleSetStatus C now dest payload).2 := by
  unfold Daemon.handleSetStatus
  split
  · exact H
  rename_i key hkey
  split
  · exact H
  split
  · exact H
  rename_i bytes hbytes
  have hset := h key bytes hkey hbytes
  have hsent : Held C ops (d.setStatus C now key bytes).2 :=
    (H.insertPeer key _ (.inr ⟨_, rfl, hset⟩)).sendControl rfl (.status rfl (.inr hset))
  split <;> rename_i heq <;> rw [heq] at hsent <;> exact hsent

theorem dispatch (H : Held C ops d) (now : ℤ) (persisted : Bool) {req : Request}
    (hop : .api now persisted req ∈ ops) : Held C ops (d.dispatch C now persisted req).2 := by
  have htouch : Held C ops (d.touchClient now) := H.ofSame (List.Subset.refl _) rfl rfl
  have hd := d.dispatch_dispatched (C := C) now persisted req
  by_cases hsend : (∃ dest text, req = .send dest text ∨ req = .sendfile dest text
      ∨ req = .setstatus dest text)
  · obtain ⟨dest, text, rfl | rfl | rfl⟩ := hsend
    · exact htouch.handleSend now typeMsg fun key bytes hk hb =>
        ⟨now, persisted, dest, text, hk, hb, .inl ⟨hop, rfl⟩⟩
    · exact htouch.handleSend now typeFile fun key bytes hk hb =>
        ⟨now, persisted, dest, text, hk, hb, .inr ⟨hop, rfl⟩⟩
    · exact htouch.handleSetStatus now fun key bytes hk hb =>
        ⟨now, persisted, dest, text, hk, hb, hop⟩
  push Not at hsend
  generalize (d.dispatch C now persisted req).2 = d' at hd ⊢
  cases hd with
  | reads => exact htouch
  | opens key => exact htouch.boxFor key
  | @send dest text => exact absurd rfl (hsend dest text).1
  | @sendfile dest text => exact absurd rfl (hsend dest text).2.1
  | ackfile =>
    refine (htouch.boxFor _).ofSame ?_ rfl rfl
    rw [(KeepsMail.ackAttachment _ _ _).outbox, (KeepsMail.boxFor _ _).outbox]
    exact List.Subset.refl _
  | watch key =>
    have hbox := htouch.boxFor key
    unfold Daemon.watch
    split
    · exact htouch
    dsimp only
    split
    · exact hbox.insertPeer key _ (.inl rfl)
    split
    · have hfile : Held C ops { (d.touchClient now).boxFor key with
          contactsFile := ((d.touchClient now).boxFor key).contactsFile ++ [key] } :=
        hbox.ofSame (List.Subset.refl _) rfl rfl
      exact hfile.insertPeer key _ (.inl rfl)
    · exact hbox
  | @setstatus dest text => exact absurd rfl (hsend dest text).2.2
  | block key =>
    unfold Daemon.block Daemon.persistBlocked
    split_ifs <;> exact htouch.ofSame (List.Subset.refl _) rfl rfl
  | unblock key =>
    unfold Daemon.unblock Daemon.persistBlocked
    split_ifs <;> exact htouch.ofSame (List.Subset.refl _) rfl rfl

theorem handlePacket (H : Held C ops d) (now : ℤ) {sender : PublicKey} {data : Bytes}
    (hop : .packet now sender data ∈ ops) : Held C ops (d.handlePacket C now sender data).1 := by
  have hbox := H.boxFor sender
  obtain ⟨-, hout, -⟩ := handlePacket_mail (C := C) now d sender data
  have hh := handlePacket_handled (C := C) now d sender data
  generalize d.handlePacket C now sender data = r at hh hout ⊢
  cases hh with
  | drop => exact H
  | ignored => exact hbox
  | file hb he ht hh' hadd =>
    obtain ⟨rows, rfl⟩ := AttachmentStore.add_attach _ hadd
    have hrows : Held C ops { d.boxFor sender with db := { d.db with attach := rows } } :=
      hbox.ofSame (by rw [d.boxFor_db]; exact List.Subset.refl _) rfl rfl
    exact hrows.sendAck ⟨now, data, _, hop, he, .inr ht, rfl⟩
  | @msg env hb he ht =>
    have hrows : Held C ops { d.boxFor sender with
        db := ((inboxOf C sender).add d.db env.seq env.ts env.payload).2 } := by
      refine hbox.ofSame ?_ rfl rfl
      rw [(InboxStore.add_outbox _ _ _ _ _).1, d.boxFor_db]
      exact List.Subset.refl _
    exact hrows.sendAck ⟨now, data, _, hop, he, .inl ht, rfl⟩
  | ack => exact hbox.ofSame (by rw [d.boxFor_db]; exact hout) rfl rfl
  | probe => exact hbox.insertPeer sender _ (.inl rfl)
  | status => exact hbox.insertPeer sender _ (.inl rfl)

theorem restart (H : Held C ops d) : Held C ops d.restart := by
  obtain ⟨-, hdb, hnode⟩ := d.restart_spec []
  have hpeers : d.restart.peers = ∅ := by
    refine newMail_eq (g := (·.peers)) (fun d k => ?_) _ _ _
    rcases d.boxFor_cases k with h | h <;> rw [h]
  refine ⟨fun r hr => H.rows r (hdb ▸ hr), fun k st hst => ?_, fun out hout => ?_⟩
  · rw [hpeers] at hst
    cases hst
  · rw [Daemon.queued, hnode] at hout
    cases hout

/-- One operation of the run. -/
theorem step (H : Held C ops d) {op : Op} (hop : op ∈ ops) : Held C ops (d.step C op).1 := by
  cases op with
  | api now persisted req => exact H.dispatch now persisted hop
  | packet now sender data => exact H.handlePacket now hop
  | flush now stamp peer => exact H.flushPeer now stamp peer
  | retry now stamp order => exact H.retryRound now stamp order
  | pathUp now stamp key => exact (H.flushPeer now stamp key).probeOne now key
  | tick now order => exact H.tick now order
  | writeControl =>
    unfold Daemon.step
    dsimp only
    split
    · exact H
    · rename_i heq
      refine ⟨H.rows, H.statuses, fun out hout => H.queued out ?_⟩
      rw [Daemon.queued, heq]
      exact List.mem_cons_of_mem _ hout
  | writeBulk =>
    unfold Daemon.step
    dsimp only
    split
    · exact H
    · rename_i heq
      refine ⟨H.rows, H.statuses, fun out hout => H.queued out ?_⟩
      rw [Daemon.queued, heq]
      rcases List.mem_append.1 hout with hout | hout
      · exact List.mem_append_left _ hout
      · exact List.mem_append_right _ (List.mem_cons_of_mem _ hout)
  | restart => exact H.restart

end Held

/-! ### Whole runs -/

/-- The packets among what a daemon put out. -/
def packets (outs : List Output) : List Outbound :=
  outs.filterMap fun o =>
    match o with
    | .packet out => some out
    | _ => none

theorem packets_append (outs outs' : List Output) :
    packets (outs ++ outs') = packets outs ++ packets outs' := List.filterMap_append

/-- The write loops take what they write off a queue, and nothing else writes. -/
theorem step_packets (C : Config) (d : Daemon) (op : Op) :
    ((d.step C op).1.queued ++ packets (d.step C op).2).Perm d.queued
      ∨ packets (d.step C op).2 = [] ∧ op ≠ .writeControl ∧ op ≠ .writeBulk := by
  have hevents : ∀ es : List Event, packets (es.map Output.event) = [] := by
    intro es
    induction es with
    | nil => rfl
    | cons e es ih => exact ih
  cases op with
  | writeControl =>
    left
    unfold Daemon.step
    dsimp only
    split
    · exact (List.append_nil _).symm ▸ List.Perm.refl _
    · rename_i out rest heq
      show (rest ++ d.node.bulk ++ [out]).Perm (d.node.control ++ d.node.bulk)
      rw [heq]
      exact List.perm_append_comm
  | writeBulk =>
    left
    unfold Daemon.step
    dsimp only
    split
    · exact (List.append_nil _).symm ▸ List.Perm.refl _
    · rename_i out rest heq
      show (d.node.control ++ rest ++ [out]).Perm (d.node.control ++ d.node.bulk)
      rw [heq, List.append_assoc]
      exact List.Perm.append_left _ List.perm_append_comm
  | packet now sender data => exact .inr ⟨hevents _, nofun, nofun⟩
  | api | flush | retry | pathUp | tick | restart => exact .inr ⟨rfl, nofun, nofun⟩

theorem run_held (C : Config) (ops : List Op) :
    Held C ops (({} : Daemon).run C ops).1
      ∧ ∀ out ∈ packets (({} : Daemon).run C ops).2, Sound C ops out := by
  have h := Unwinding.run_invariant (Daemon.step C)
    (I := fun pre d outs => Held C pre d ∧ ∀ out ∈ packets outs, Sound C pre out)
    ⟨Held.init, by simp [packets]⟩ (fun pre d outs op h => ?_) ops
  · rw [run_eq]
    exact h
  have hsub : pre ⊆ pre ++ [op] := List.subset_append_left _ _
  have hheld := h.1.mono hsub
  refine ⟨hheld.step (List.mem_append_right _ (List.mem_singleton.2 rfl)), fun out hout => ?_⟩
  rw [packets_append] at hout
  rcases List.mem_append.1 hout with hout | hout
  · exact (h.2 out hout).mono hsub
  · rcases step_packets C d op with hperm | ⟨hnone, -⟩
    · exact hheld.queued out (hperm.subset (List.mem_append_right _ hout))
    · rw [hnone] at hout
      cases hout

/-- Every packet that a daemon writes in a run is for a 32-byte key, fits the MTU and is an envelope
of one of the four origins: a client requested its payload for that key, as a text or as a chunk; or
it is the empty acknowledgement of a seq under which that key sent a message or a chunk; or an empty
probe; or a status, empty or set for that key by a client. -/
theorem packet_origin (C : Config) (ops : List Op) :
    ∀ out ∈ packets (({} : Daemon).run C ops).2,
      out.pub.length = publicKeySize ∧ out.data.length ≤ C.mtu
        ∧ ∃ env, decodeEnvelope out.data = .ok env ∧ Origin ops out.pub env :=
  (run_held C ops).2

/-- A daemon that gets a text writes the acknowledgement. -/
theorem packet_origin_text :
    let C : Config := ⟨1, 0, 0, 0, 65555⟩
    let key : PublicKey := List.replicate 32 7
    let text : Bytes := (Envelope.encode ⟨1, typeMsg, 3, 0, [104]⟩).toOption.getD []
    let ops : List Op := [.packet 0 key text, .writeControl, .writeControl]
    ∃ out ∈ packets (({} : Daemon).run C ops).2, ∃ env, decodeEnvelope out.data = .ok env
      ∧ Origin ops out.pub env := by
  intro C key text ops
  have hmem : ⟨key, (encodeAck 3).toOption.getD []⟩ ∈ packets (({} : Daemon).run C ops).2 := by
    decide +kernel
  obtain ⟨-, -, horigin⟩ := packet_origin C ops _ hmem
  exact ⟨_, hmem, horigin⟩

/-! ### Acknowledgements answer packets -/

/-- The packet acknowledges something to the peer. -/
def isAckTo (q : PublicKey) (out : Outbound) : Bool :=
  out.pub = q ∧ (decodeEnvelope out.data).toOption.any fun env => env.type = typeAck

/-- The operation is a message or a chunk from the peer. -/
def isDataFrom (q : PublicKey) : Op → Bool
  | .packet _ sender data => sender = q
      ∧ (decodeEnvelope data).toOption.any fun env => env.type = typeMsg ∨ env.type = typeFile
  | _ => false

/-- How many of the packets acknowledge something to the peer. -/
def acksTo (q : PublicKey) (outs : List Outbound) : ℕ := outs.countP (isAckTo q)

section Acks

variable {C : Config} {d d₁ d₂ : Daemon} {q : PublicKey}

theorem acksTo_append (q : PublicKey) (outs outs' : List Outbound) :
    acksTo q (outs ++ outs') = acksTo q outs + acksTo q outs' := List.countP_append

theorem acksTo_eq_zero {outs : List Outbound}
    (h : ∀ out ∈ outs, ∃ env, decodeEnvelope out.data = .ok env ∧ env.type ≠ typeAck) :
    acksTo q outs = 0 := by
  refine List.countP_eq_zero.2 fun out hout => ?_
  obtain ⟨env, henv, ht⟩ := h out hout
  simp [isAckTo, henv, Except.toOption, ht]

/-- As many acknowledgements wait in both. -/
def SameAcks (d d' : Daemon) : Prop := ∀ q, acksTo q d'.queued = acksTo q d.queued

theorem SameAcks.trans (h₁ : SameAcks d d₁) (h₂ : SameAcks d₁ d₂) : SameAcks d d₂ :=
  fun q => (h₂ q).trans (h₁ q)

theorem sameAcks_of_node (h : d₁.node = d.node) : SameAcks d d₁ := fun q => by
  rw [Daemon.queued, h]
  rfl

theorem sameAcks_of_keepsMail (h : KeepsMail d d₁) : SameAcks d d₁ := by
  obtain ⟨extra, hc, he⟩ := h.control
  intro q
  have hzero : acksTo q extra = 0 := acksTo_eq_zero fun out hout => by
    obtain ⟨env, henv, ht⟩ := he out hout
    refine ⟨env, henv, ?_⟩
    rcases ht with ht | ht <;> rw [ht] <;> decide
  rw [Daemon.queued, Daemon.queued, hc, h.bulk]
  simp only [acksTo_append, hzero, Nat.add_zero]

theorem flushEntry_sameAcks (now : ℤ) (stamp : UInt64 → ℤ) (pub : PublicKey) (d : Daemon)
    {entry : JournalEntry} (h : IsMail entry.type) :
    SameAcks d (flushEntry C now stamp pub d entry) := by
  rcases d.flushEntry_cases (C := C) pub now stamp entry with h' | ⟨payload, data, -, hdata, h'⟩
  · rw [h']
    exact fun _ => rfl
  intro q
  have hzero : acksTo q [⟨pub, data⟩] = 0 := acksTo_eq_zero fun out hout => by
    rw [List.mem_singleton.1 hout]
    exact ⟨_, Envelope.decode_of_encode rfl hdata, h.ne_ack⟩
  rw [h']
  split_ifs
  · show acksTo q (d.node.control ++ (d.node.bulk ++ [⟨pub, data⟩])) = _
    rw [← List.append_assoc, acksTo_append, hzero]
    rfl
  · show acksTo q ((d.node.control ++ [⟨pub, data⟩]) ++ d.node.bulk) = _
    simp only [Daemon.queued, acksTo_append, hzero, Nat.add_zero]

theorem flushPeer_sameAcks (now : ℤ) (stamp : UInt64 → ℤ) (d : Daemon) (peer : PublicKey)
    (h : ∀ r ∈ d.db.outbox, IsMail r.type) : SameAcks d (d.flushPeer C now stamp peer) := by
  have hentries : ∀ e ∈ d.flushEntries peer, IsMail e.type := by
    intro e he
    unfold flushEntries at he
    split at he
    · simp at he
    split at he
    · simp at he
    unfold OutboxJournal.pending at he
    obtain ⟨r, hr, rfl⟩ := List.mem_map.1 he
    rw [List.mem_insertionSort] at hr
    exact h r (List.mem_of_mem_filter hr)
  have hfold : ∀ (entries : List JournalEntry) (d : Daemon), (∀ e ∈ entries, IsMail e.type) →
      SameAcks d (entries.foldl (flushEntry C now stamp peer) d) := by
    intro entries
    induction entries with
    | nil => exact fun d _ _ => rfl
    | cons e entries ih =>
      intro d he
      exact (flushEntry_sameAcks now stamp peer d (he e List.mem_cons_self)).trans
        (ih _ fun e' he' => he e' (List.mem_cons_of_mem e he'))
  exact hfold _ d hentries

theorem retryRound_sameAcks (now : ℤ) (stamp : UInt64 → ℤ) (order : List PublicKey) (d : Daemon)
    (h : ∀ r ∈ d.db.outbox, IsMail r.type) : SameAcks d (d.retryRound C now stamp order) := by
  unfold retryRound
  generalize order.filter (· ∈ d.boxes) = keys
  induction keys generalizing d with
  | nil => exact fun _ => rfl
  | cons k keys ih =>
    rw [List.foldl_cons]
    split_ifs
    · refine (flushPeer_sameAcks now stamp d k h).trans (ih _ ?_)
      rw [flushPeer_db]
      exact h
    · exact ih d h

theorem dispatch_sameAcks (now : ℤ) (persisted : Bool) (d : Daemon) (req : Request) :
    SameAcks d (d.dispatch C now persisted req).2 := by
  by_cases hsend : ∃ dest text, req = .send dest text ∨ req = .sendfile dest text
  · have hnode : ∀ typ dest text, ((d.touchClient now).handleSend now typ dest text).2.node
        = d.node := by
      intro typ dest text
      rcases handleSend_cases now typ (d.touchClient now) dest text with h | ⟨key, bytes, h⟩
      · rw [h]
        rfl
      rw [h]
      have hbegin : ((d.touchClient now).beginSend key).2.node = d.node := by
        unfold beginSend
        split
        · rfl
        dsimp only
        split <;> exact (d.touchClient now).boxFor_node key
      unfold sendAs
      split <;> rename_i heq <;> rw [heq] at hbegin <;> exact hbegin
    obtain ⟨dest, text, rfl | rfl⟩ := hsend
    · exact sameAcks_of_node (hnode typeMsg dest text)
    · exact sameAcks_of_node (hnode typeFile dest text)
  · push Not at hsend
    exact sameAcks_of_keepsMail (KeepsMail.dispatch now persisted d
      (fun dest text => (hsend dest text).1)
      fun dest text => (hsend dest text).2)

/-- A packet makes the daemon enqueue at most one acknowledgement, to its sender, if it is a message
or a chunk. -/
theorem handlePacket_acks (now : ℤ) (d : Daemon) (sender : PublicKey) (data : Bytes)
    (q : PublicKey) : acksTo q (d.handlePacket C now sender data).1.queued
      ≤ acksTo q d.queued + if isDataFrom q (.packet now sender data) then 1 else 0 := by
  have hbox : (d.boxFor sender).node = d.node := d.boxFor_node sender
  have hkeep : ∀ {d' : Daemon}, d'.node = d.node → acksTo q d'.queued
      ≤ acksTo q d.queued + if isDataFrom q (.packet now sender data) then 1 else 0 :=
    fun h => (sameAcks_of_node h q).le.trans (Nat.le_add_right _ _)
  have hack : ∀ {d' : Daemon} {env : Envelope}, d'.node = d.node →
      decodeEnvelope data = .ok env → env.type = typeMsg ∨ env.type = typeFile →
      acksTo q (d'.sendAck C sender env.seq).queued
        ≤ acksTo q d.queued + if isDataFrom q (.packet now sender data) then 1 else 0 := by
    intro d' env hnode henv ht
    rcases d'.sendAck_cases (C := C) sender env.seq with h | ⟨ack, -, h⟩
    · rw [h]
      exact hkeep hnode
    rw [h]
    show acksTo q ((d'.node.control ++ [⟨sender, ack⟩]) ++ d'.node.bulk) ≤ _
    rw [hnode, acksTo_append, acksTo_append, Daemon.queued, acksTo_append]
    by_cases hs : sender = q
    · have hdata : isDataFrom q (.packet now sender data) = true := by
        simp [isDataFrom, hs, henv, Except.toOption, ht]
      have hone : acksTo q [⟨sender, ack⟩] ≤ 1 := List.countP_le_length
      rw [if_pos hdata]
      omega
    · have hnone : acksTo q [⟨sender, ack⟩] = 0 := by
        simp [acksTo, isAckTo, hs]
      omega
  have hh := handlePacket_handled (C := C) now d sender data
  generalize d.handlePacket C now sender data = r at hh ⊢
  cases hh with
  | drop => exact Nat.le_add_right _ _
  | ignored | ack | probe | status => exact hkeep hbox
  | file hb he ht => exact hack hbox he (.inr ht)
  | msg hb he ht => exact hack hbox he (.inl ht)

theorem step_acks (d : Daemon) (op : Op) (h : ∀ r ∈ d.db.outbox, IsMail r.type) (q : PublicKey) :
    acksTo q (d.step C op).1.queued + acksTo q (packets (d.step C op).2)
      ≤ acksTo q d.queued + if isDataFrom q op then 1 else 0 := by
  rcases step_packets C d op with hperm | ⟨hnone, hcontrol, hbulk⟩
  · rw [← acksTo_append]
    exact (List.Perm.countP_eq _ hperm).le.trans (Nat.le_add_right _ _)
  rw [hnone]
  show acksTo q (d.step C op).1.queued ≤ _
  have hsame : SameAcks d (d.step C op).1 → acksTo q (d.step C op).1.queued
      ≤ acksTo q d.queued + if isDataFrom q op then 1 else 0 :=
    fun hs => (hs q).le.trans (Nat.le_add_right _ _)
  cases op with
  | api now persisted req => exact hsame (dispatch_sameAcks now persisted d req)
  | packet now sender data => exact handlePacket_acks now d sender data q
  | flush now stamp peer => exact hsame (flushPeer_sameAcks now stamp d peer h)
  | retry now stamp order => exact hsame (retryRound_sameAcks now stamp order d h)
  | pathUp now stamp key =>
    exact hsame ((flushPeer_sameAcks now stamp d key h).trans
      (sameAcks_of_keepsMail (KeepsMail.probeOne now _ key)))
  | tick now order => exact hsame (sameAcks_of_keepsMail (KeepsMail.tick now order d))
  | writeControl => exact absurd rfl hcontrol
  | writeBulk => exact absurd rfl hbulk
  | restart =>
    show acksTo q d.restart.queued ≤ _
    rw [d.restart_queued]
    exact Nat.zero_le _

/-- In every run and for every peer: a daemon writes no more acknowledgements to the peer than it
got messages and chunks from it, so acknowledgements do not multiply and none answers another. -/
theorem acks_bounded (C : Config) (ops : List Op) (q : PublicKey) :
    (packets (({} : Daemon).run C ops).2).countP (isAckTo q) ≤ ops.countP (isDataFrom q) := by
  have h := Unwinding.run_invariant (Daemon.step C)
    (I := fun pre d outs => Held C pre d
      ∧ acksTo q d.queued + acksTo q (packets outs) ≤ pre.countP (isDataFrom q))
    ⟨Held.init, le_refl 0⟩ (fun pre d outs op h => ?_) ops
  · rw [run_eq]
    exact (Nat.le_add_left _ _).trans h.2
  obtain ⟨hheld, hacks⟩ := h
  refine ⟨(hheld.mono (List.subset_append_left _ _)).step
    (List.mem_append_right _ (List.mem_singleton.2 rfl)), ?_⟩
  have hstep := step_acks (C := C) d op (fun r hr => (hheld.rows r hr).isMail) q
  rw [packets_append, acksTo_append, List.countP_append, List.countP_singleton]
  omega

end Acks

end Daemon

end Aimless
