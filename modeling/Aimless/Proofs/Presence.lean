import Aimless.Presence
import Aimless.Lib.Runs
import Aimless.Proofs.Isolation

/-!
# The marker follows the client, but for a bare probe

A probe made without a client sends an empty STATUS, which `B` takes for the marker; a probe made
with a client sends the status that `A` has stored for `B`, which is not empty.  Where `A` has none
to send (it has started since, or the status does not fit a packet), the probe is a PROBE alone, and
that leaves the marker on `B` as it was.  So the marker follows the client in exactly those runs in
which no such probe finds `B` holding the marker of a missing client.
-/

namespace Aimless

namespace Daemon

variable {C : Config} {d : Daemon} {now : ℤ} {k : PublicKey}

/-! ### What is sent -/

/-- What sending an envelope puts into an empty queue. -/
def sends (C : Config) (dest : PublicKey) (env : Envelope) : List Bytes :=
  match env.encode with
  | .error _ => []
  | .ok data => if dest.length = publicKeySize ∧ data.length ≤ C.mtu then [data] else []

/-- The daemon with more packets for a peer in its control queue. -/
def enqueued (d : Daemon) (dest : PublicKey) (packets : List Bytes) : Daemon :=
  { d with node := { d.node with control := d.node.control ++ packets.map (⟨dest, ·⟩) } }

theorem sendControl_sends (dest : PublicKey) (env : Envelope)
    (h : d.node.control.length < controlCap) :
    (d.sendControl C dest env).2 = d.enqueued dest (sends C dest env) := by
  have hnil : d = d.enqueued dest [] := by simp [enqueued]
  unfold sendControl sends
  rcases env.encode with e | data <;> dsimp only
  · exact hnil
  · rcases hs : d.node.send C.mtu dest data with e | node <;> dsimp only
    · rw [if_neg]
      · exact hnil
      · rintro ⟨hkey, hlen⟩
        have hok := Node.send_ok.2 ⟨hkey, hlen, h, rfl⟩
        rw [hs] at hok
        cases hok
    · obtain ⟨hkey, hlen, -, rfl⟩ := Node.send_ok.1 hs
      rw [if_pos ⟨hkey, hlen⟩]
      rfl

theorem sends_cases (C : Config) (dest : PublicKey) (env : Envelope) :
    sends C dest env = [] ∨ ∃ data, env.encode = .ok data ∧ sends C dest env = [data] := by
  unfold sends
  rcases env.encode with e | data <;> dsimp only
  · exact .inl rfl
  · split_ifs
    · exact .inr ⟨data, rfl, rfl⟩
    · exact .inl rfl

/-- Of two envelopes of one size, both are sent or neither is. -/
theorem sends_length {dest : PublicKey} {env env' : Envelope}
    (h : env.payload.length = env'.payload.length) :
    (sends C dest env).length = (sends C dest env').length := by
  unfold sends
  rcases he : env.encode with e | data <;> rcases he' : env'.encode with e' | data' <;> dsimp only
  · have hmax := Envelope.encode_error_iff.1 ⟨e, he⟩
    have hle := Envelope.length_le_of_encode he'
    omega
  · have hmax := Envelope.encode_error_iff.1 ⟨e', he'⟩
    have hle := Envelope.length_le_of_encode he
    omega
  · rw [Envelope.length_of_encode he, Envelope.length_of_encode he', h]
    split_ifs <;> rfl

def probeEnvelope (d : Daemon) (now : ℤ) : Envelope :=
  { version := envelopeVersion, type := typeProbe, seq := d.probeSeq + 1, ts := unixMilli now,
    payload := [] }

def statusEnvelope (now : ℤ) (seq : UInt64) (payload : Bytes) : Envelope :=
  { version := envelopeVersion, type := typeStatus, seq, ts := unixMilli now, payload }

/-- The status that comes with a probe. -/
def probeStatus (d : Daemon) (now : ℤ) (k : PublicKey) : Option Envelope :=
  if d.clientPresent now then
    (d.keyFor k).statusOut.map fun st => statusEnvelope now st.seq st.payload
  else some (statusEnvelope now 0 [])

theorem keyFor_statusOut (d : Daemon) (k : PublicKey) :
    (d.peers.lookup k).bind (·.statusOut) = (d.keyFor k).statusOut := by
  unfold keyFor
  cases d.peers.lookup k <;> rfl

theorem length_sends_le (C : Config) (dest : PublicKey) (env : Envelope) :
    (sends C dest env).length ≤ 1 := by
  rcases sends_cases C dest env with h | ⟨data, -, h⟩ <;> simp [h]

theorem enqueued_enqueued (d : Daemon) (k : PublicKey) (l l' : List Bytes) :
    (d.enqueued k l).enqueued k l' = d.enqueued k (l ++ l') := by
  simp [enqueued]

theorem probeOne_sends (hb : k ∉ d.blocked) (hq : d.node.control = []) :
    d.probeOne C now k = ({ d with probeSeq := d.probeSeq + 1 } : Daemon).enqueued k
      (sends C k (d.probeEnvelope now) ++ ((d.probeStatus now k).map (sends C k)).getD []) := by
  set d₁ : Daemon := ({ d with probeSeq := d.probeSeq + 1 } : Daemon).enqueued k
    (sends C k (d.probeEnvelope now)) with hd₁
  have hprobe : (d.sendProbe C now k).2 = d₁ :=
    sendControl_sends k (d.probeEnvelope now) (by simp [hq, controlCap])
  have hroom : d₁.node.control.length < controlCap := by
    have := length_sends_le C k (d.probeEnvelope now)
    simp only [hd₁, enqueued, hq, List.nil_append, List.length_map, controlCap]
    omega
  have hstatus : ∀ seq payload, (d₁.sendStatus C now k seq payload).2
      = d₁.enqueued k (sends C k (statusEnvelope now seq payload)) :=
    fun seq payload => sendControl_sends k (statusEnvelope now seq payload) hroom
  have hnot : d.isBlocked k = false := decide_eq_false hb
  have hpresent : d₁.clientPresent now = d.clientPresent now := rfl
  have hout : (d₁.peers.lookup k).bind (·.statusOut) = (d.keyFor k).statusOut :=
    keyFor_statusOut d k
  unfold probeOne probeStatus
  simp only [hnot, hprobe, hpresent, hout, hstatus, ← enqueued_enqueued, ← hd₁]
  rcases d.clientPresent now
  · rfl
  · rcases (d.keyFor k).statusOut with _ | st
    · simp [enqueued]
    · rfl

def withPresence (d : Daemon) (k : PublicKey) (pp : PeerPresence) : Daemon :=
  { d with peers := d.peers.insert k pp }

variable (now) in
theorem setStatus_sends (hq : d.node.control = []) (pub : PublicKey) (payload : Bytes) :
    ∃ seq, (d.setStatus C now pub payload).2
      = (d.withPresence pub { d.keyFor pub with statusOut := some ⟨seq, payload⟩ }).enqueued pub
        (sends C pub (statusEnvelope now seq payload)) :=
  ⟨_, sendControl_sends pub (statusEnvelope now _ payload) (by simp [hq, controlCap])⟩

/-! ### What is handled and shown -/

/-- What the presence of a peer says of its client: that it is attached, unless told otherwise. -/
def PeerPresence.attached (pp : PeerPresence) : Bool :=
  match pp.statusIn with
  | none => true
  | some st => st.attached

theorem boxFor_keyFor (d : Daemon) (k p : PublicKey) : (d.boxFor p).keyFor k = d.keyFor k := by
  rcases d.boxFor_cases p with h | h <;> rw [h]
  rfl

variable (now) in
theorem lookup_handlePacket {env : Envelope} {data : Bytes} (hb : k ∉ d.blocked)
    (he : decodeEnvelope data = .ok env) :
    (env.type = typeProbe → (d.handlePacket C now k data).1.peers.lookup k
      = some { d.keyFor k with lastSeen := some now }) ∧
    (env.type = typeStatus → (d.handlePacket C now k data).1.peers.lookup k
      = some { d.keyFor k with
          lastSeen := some now
          statusIn := some ⟨env.seq, env.ts, env.payload, env.payload.length > 0⟩ }) := by
  have hnot : d.isBlocked k = false := decide_eq_false hb
  constructor
  · intro ht
    simp [handlePacket, hnot, he, ht, typeFile, typeMsg, typeAck, typeProbe, onProbe, boxFor_keyFor]
  · intro ht
    simp [handlePacket, hnot, he, ht, typeFile, typeMsg, typeAck, typeProbe, typeStatus, onStatus,
      boxFor_keyFor]

variable (now) in
theorem mem_snapshot (hb : k ∉ d.blocked) (e : PresenceEntry) :
    e ∈ d.snapshot C now ∧ e.key = k ↔
      ∃ pp, d.peers.lookup k = some pp ∧ e = presenceEntry C now k pp := by
  unfold snapshot
  rw [List.mem_insertionSort, List.mem_map]
  constructor
  · rintro ⟨⟨x, hx, rfl⟩, rfl⟩
    exact ⟨x.2, AList.mem_lookup_iff.2 (List.mem_filter.1 hx).1, rfl⟩
  · rintro ⟨pp, hpp, rfl⟩
    refine ⟨⟨⟨k, pp⟩, List.mem_filter.2 ⟨AList.mem_lookup_iff.1 hpp, ?_⟩, rfl⟩, rfl⟩
    simp [isBlocked, hb]

/-- What the snapshot says of a peer's client. -/
theorem snapshot_attached (hb : k ∉ d.blocked) {v : Bool} :
    ((∃ e ∈ d.snapshot C now, e.key = k) ∧
      ∀ e ∈ d.snapshot C now, e.key = k → e.clientAttached = v) ↔
        ∃ pp, d.peers.lookup k = some pp ∧ PeerPresence.attached pp = v := by
  constructor
  · rintro ⟨⟨e, he, hkey⟩, hall⟩
    obtain ⟨pp, hpp, rfl⟩ := (mem_snapshot now hb e).1 ⟨he, hkey⟩
    exact ⟨pp, hpp, hall _ he hkey⟩
  · rintro ⟨pp, hpp, hv⟩
    obtain ⟨he, hkey⟩ := (mem_snapshot (C := C) now hb _).2 ⟨pp, hpp, rfl⟩
    refine ⟨⟨_, he, hkey⟩, fun e he' hkey' => ?_⟩
    obtain ⟨pp', hpp', rfl⟩ := (mem_snapshot now hb e).1 ⟨he', hkey'⟩
    obtain rfl : pp = pp' := Option.some.inj (hpp.symm.trans hpp')
    exact hv

theorem holdsAway_eq (d : Daemon) (k : PublicKey) :
    d.holdsAway k = !PeerPresence.attached (d.keyFor k) := by
  unfold holdsAway PeerPresence.attached
  rcases (d.keyFor k).statusIn with _ | st
  · rfl
  · simp

end Daemon

namespace Buddies

variable {N : Nodes} {l : Buddies}

/-! ### The packets on their way -/

/-- What a packet of `A` is: a PROBE, which does not end a probe made without a client, or a STATUS,
which is empty just if it ends one. -/
def Told (p : Packet) : Prop :=
  ∃ env, decodeEnvelope p.data = .ok env ∧
    (env.type = typeProbe ∧ p.mark ≠ some false ∨
      env.type = typeStatus ∧ ∀ v, p.mark = some v → decide (env.payload.length > 0) = v)

theorem told_probe {a : Daemon} {now : ℤ} {data : Bytes}
    (h : (a.probeEnvelope now).encode = .ok data) {mark : Option Bool} (hm : mark ≠ some false) :
    Told ⟨data, mark⟩ :=
  ⟨_, Envelope.decode_of_encode rfl h, .inl ⟨rfl, hm⟩⟩

theorem told_status {now : ℤ} {seq : UInt64} {payload data : Bytes}
    (h : (Daemon.statusEnvelope now seq payload).encode = .ok data) {mark : Option Bool}
    (hm : ∀ v, mark = some v → decide (payload.length > 0) = v) : Told ⟨data, mark⟩ :=
  ⟨_, Envelope.decode_of_encode rfl h, .inr ⟨rfl, hm⟩⟩

/-- The packets of a probe with a status. -/
theorem told_append {a : Daemon} {now : ℤ} {k : PublicKey} {seq : UInt64} {payload : Bytes}
    {v : Bool} (hv : decide (payload.length > 0) = v)
    (hsent : v = false → Daemon.sends N.cfgA k (Daemon.statusEnvelope now seq payload) = [] →
      Daemon.sends N.cfgA k (a.probeEnvelope now) = []) :
    ∀ p ∈ marked (some v) (Daemon.sends N.cfgA k (a.probeEnvelope now)
      ++ Daemon.sends N.cfgA k (Daemon.statusEnvelope now seq payload)), Told p := by
  have hmark : ∀ w, some v = some w → decide (payload.length > 0) = w :=
    fun w hw => hv.trans (Option.some.inj hw)
  rcases Daemon.sends_cases N.cfgA k (a.probeEnvelope now) with hp | ⟨dp, hdp, hp⟩ <;>
    rcases Daemon.sends_cases N.cfgA k (Daemon.statusEnvelope now seq payload) with
      hs | ⟨ds, hds, hs⟩ <;> rw [hp, hs]
  · exact List.forall_mem_nil _
  · exact List.forall_mem_singleton.2 (told_status hds hmark)
  · -- The probe is sent alone only if the status is the longer packet.
    refine List.forall_mem_singleton.2 (told_probe hdp ?_)
    rintro hfalse
    rw [hsent (Option.some.inj hfalse) hs] at hp
    cases hp
  · exact List.forall_mem_cons.2 ⟨told_probe hdp nofun,
      List.forall_mem_singleton.2 (told_status hds hmark)⟩

/-- The packets of a probe. -/
theorem told_probeOne {a : Daemon} {now : ℤ} {k : PublicKey}
    (hstored : ∀ st, (a.keyFor k).statusOut = some st → st.payload ≠ []) :
    ∀ p ∈ marked (some (a.clientPresent now)) (Daemon.sends N.cfgA k (a.probeEnvelope now)
      ++ ((a.probeStatus now k).map (Daemon.sends N.cfgA k)).getD []), Told p := by
  unfold Daemon.probeStatus
  rcases a.clientPresent now
  · rw [if_neg Bool.false_ne_true, Option.map_some, Option.getD_some]
    refine told_append rfl fun _ hs => ?_
    have hlen : (Daemon.sends N.cfgA k (a.probeEnvelope now)).length
        = (Daemon.sends N.cfgA k (Daemon.statusEnvelope now 0 [])).length :=
      Daemon.sends_length rfl
    rw [hs] at hlen
    exact List.length_eq_zero_iff.1 hlen
  · rcases hst : (a.keyFor k).statusOut with _ | st
    · rcases Daemon.sends_cases N.cfgA k (a.probeEnvelope now) with hp | ⟨dp, hdp, hp⟩
      · simp [hp, marked]
      · rw [hp]
        exact List.forall_mem_singleton.2 (told_probe hdp (by simp))
    · rw [if_pos rfl, Option.map_some, Option.map_some, Option.getD_some]
      exact told_append (decide_eq_true (List.length_pos_iff.2 (hstored st hst))) nofun

/-! ### One step -/

/-- `A` and `B` do not block each other. -/
structure Open (N : Nodes) (l : Buddies) : Prop where
  a : N.keyB ∉ l.a.blocked ∧ N.keyB ∉ l.a.blockedFile
  b : N.keyA ∉ l.b.blocked ∧ N.keyA ∉ l.b.blockedFile

structure Inv (N : Nodes) (l : Buddies) : Prop where
  opened : l.Open N
  queue : l.a.node.control = []
  stored : ∀ st, (l.a.keyFor N.keyB).statusOut = some st → st.payload ≠ []
  wire : ∀ p ∈ l.wire, Told p

/-- After the packets of a probe, the snapshot of `B` says of `A`'s client what was so when the
probe was made. -/
def Shows (N : Nodes) (l : Buddies) : Prop :=
  ∀ v, l.done = some v → ∀ now,
    (∃ e ∈ l.b.snapshot N.cfgB now, e.key = N.keyA) ∧
      ∀ e ∈ l.b.snapshot N.cfgB now, e.key = N.keyA → e.clientAttached = v

/-- The packet `B` handles next is not a PROBE that ends a probe made with a client while `B` holds
the marker of a missing one. -/
def Tells (N : Nodes) (l : Buddies) : Move → Prop
  | .deliver _ => ∀ p ∈ l.wire.head?, p.mark = some true → p.isStatus ∨ ¬ l.b.holdsAway N.keyA
  | _ => True

theorem send_enqueued {d : Daemon} (hq : d.node.control = []) (k : PublicKey) (packets : List Bytes)
    (mark : Option Bool) : l.send N (d.enqueued k packets) mark
      = { l with a := d, wire := l.wire ++ marked mark (if k = N.keyB then packets else []) } := by
  have hnode : ({ d.node with control := [] } : Node) = d.node := by rw [← hq]
  have hpackets : ((packets.map (Outbound.mk k ·)).filter fun out => out.pub = N.keyB).map (·.data)
      = if k = N.keyB then packets else [] := by
    split_ifs with hk <;> simp [List.filter_map, Function.comp_def, hk]
  unfold send Daemon.enqueued
  simp only [hq, List.nil_append, hpackets]
  simp only [hnode]

theorem step_setStatus (h : l.Inv N) (now : ℤ) (pub : PublicKey) {payload : Bytes}
    (hpayload : payload ≠ []) : ∃ seq, l.step N (.setStatus now pub payload hpayload)
      = { l with
          a := l.a.withPresence pub { l.a.keyFor pub with statusOut := some ⟨seq, payload⟩ }
          wire := l.wire ++ marked none (if pub = N.keyB then
            Daemon.sends N.cfgA pub (Daemon.statusEnvelope now seq payload) else []) } := by
  obtain ⟨seq, hseq⟩ := Daemon.setStatus_sends (C := N.cfgA) now h.queue pub payload
  refine ⟨seq, ?_⟩
  rw [step, hseq, send_enqueued (by exact h.queue)]

theorem step_probeOne (h : l.Inv N) (now : ℤ) : l.step N (.probeOne now)
    = { l with
        a := { l.a with probeSeq := l.a.probeSeq + 1 }
        wire := l.wire ++ marked (some (l.a.clientPresent now))
          (Daemon.sends N.cfgA N.keyB (l.a.probeEnvelope now)
            ++ ((l.a.probeStatus now N.keyB).map (Daemon.sends N.cfgA N.keyB)).getD []) } := by
  rw [step, Daemon.probeOne_sends h.opened.a.1 h.queue, send_enqueued (by exact h.queue),
    if_pos rfl]

theorem restart_peers (d : Daemon) : d.restart.peers = ∅ := by
  refine Daemon.newMail_eq (g := Daemon.peers) (fun d k => ?_) d.db d.blockedFile d.contactsFile
  rcases d.boxFor_cases k with h | h <;> rw [h]

/-- A daemon that does not block a peer on disk does not block it after a restart. -/
theorem restart_open {d : Daemon} {k : PublicKey} (h : k ∉ d.blockedFile) :
    k ∉ d.restart.blocked ∧ k ∉ d.restart.blockedFile := by
  obtain ⟨hb, hbf⟩ := Daemon.newMail_blocked d.db d.blockedFile d.contactsFile
  unfold Daemon.restart
  rw [hb, hbf]
  exact ⟨h, h⟩

theorem inv_step (h : l.Inv N) (m : Move) : (l.step N m).Inv N := by
  cases m with
  | touchClient now => exact ⟨⟨h.opened.a, h.opened.b⟩, h.queue, h.stored, h.wire⟩
  | setStatus now pub payload hpayload =>
    obtain ⟨seq, hstep⟩ := step_setStatus h now pub hpayload
    rw [hstep]
    refine ⟨⟨h.opened.a, h.opened.b⟩, h.queue, fun st hst => ?_, ?_⟩
    · by_cases hk : pub = N.keyB
      · subst hk
        simp only [Daemon.withPresence, Daemon.keyFor, AList.lookup_insert, Option.getD_some,
          Option.some.injEq] at hst
        rw [← hst]
        exact hpayload
      · simp only [Daemon.withPresence, Daemon.keyFor, AList.lookup_insert_ne (Ne.symm hk)] at hst
        exact h.stored st hst
    · refine List.forall_mem_append.2 ⟨h.wire, ?_⟩
      split_ifs
      · rcases Daemon.sends_cases N.cfgA pub (Daemon.statusEnvelope now seq payload) with
          hs | ⟨data, hdata, hs⟩ <;> rw [hs]
        · exact List.forall_mem_nil _
        · exact List.forall_mem_singleton.2 (told_status hdata nofun)
      · exact List.forall_mem_nil _
  | probeOne now =>
    rw [step_probeOne h now]
    exact ⟨⟨h.opened.a, h.opened.b⟩, h.queue, h.stored,
      List.forall_mem_append.2 ⟨h.wire, told_probeOne h.stored⟩⟩
  | deliver now =>
    rcases hw : l.wire with _ | ⟨p, wire⟩
    · simp only [step, hw]
      exact h
    · simp only [step, hw]
      obtain ⟨hb, hbf⟩ :=
        (Daemon.handlePacket_only (C := N.cfgB) now l.b N.keyA p.data).blocked
      refine ⟨⟨h.opened.a, ?_⟩, h.queue, h.stored, fun q hq => h.wire q ?_⟩
      · rw [hb, hbf]
        exact h.opened.b
      · rw [hw]
        exact List.mem_cons_of_mem p hq
  | restartA =>
    refine ⟨⟨restart_open h.opened.a.2, h.opened.b⟩, ?_, fun st hst => ?_, h.wire⟩
    · rw [step, (l.a.restart_spec []).2.2]
    · simp [step, Daemon.keyFor, restart_peers] at hst
  | restartB => exact ⟨⟨h.opened.a, restart_open h.opened.b.2⟩, h.queue, h.stored, h.wire⟩

theorem shows_iff (h : l.Inv N) : l.Shows N ↔ ∀ v, l.done = some v →
    ∃ pp, l.b.peers.lookup N.keyA = some pp ∧ Daemon.PeerPresence.attached pp = v := by
  unfold Shows
  refine forall₂_congr fun v _ => ?_
  constructor
  · intro hall
    exact (Daemon.snapshot_attached h.opened.b.1).1 (hall 0)
  · intro hpp now
    exact (Daemon.snapshot_attached h.opened.b.1).2 hpp

/-- A PROBE leaves the marker, a STATUS sets it. -/
theorem shows_deliver {p : Packet} {wire : List Packet} (h : l.Inv N) (hw : l.wire = p :: wire)
    (now : ℤ) : (l.step N (.deliver now)).Shows N ↔ l.Tells N (.deliver now) := by
  obtain ⟨env, henv, htold⟩ := h.wire p (hw ▸ List.mem_cons_self)
  obtain ⟨hprobe, hstatus⟩ :=
    Daemon.lookup_handlePacket (C := N.cfgB) now h.opened.b.1 henv
  have hinv := inv_step h (.deliver now)
  rw [shows_iff hinv]
  simp only [step, hw, Tells, List.head?_cons, Option.mem_some_iff, forall_eq']
  rcases htold with ⟨htype, hmark⟩ | ⟨htype, hmark⟩
  · have hnot : p.isStatus = false := by simp [Packet.isStatus, henv, htype, typeProbe, typeStatus]
    rw [hprobe htype, hnot, Daemon.holdsAway_eq]
    have hkeeps : Daemon.PeerPresence.attached { l.b.keyFor N.keyA with lastSeen := some now }
        = Daemon.PeerPresence.attached (l.b.keyFor N.keyA) := rfl
    rcases hm : p.mark with _ | _ | _
    · simp
    · exact absurd hm hmark
    · simp [hkeeps]
  · have his : p.isStatus = true := by simp [Packet.isStatus, henv, htype]
    rw [hstatus htype, his]
    refine iff_of_true (fun v hv => ⟨_, rfl, hmark v hv⟩) fun _ => .inl rfl

theorem shows_step (h : l.Inv N) (hs : l.Shows N) {m : Move} (hm : l.Tells N m) :
    (l.step N m).Shows N := by
  cases m with
  | deliver now =>
    rcases hw : l.wire with _ | ⟨p, wire⟩
    · simp only [step, hw]
      exact hs
    · exact (shows_deliver h hw now).2 hm
  | restartB => exact fun v hv => by cases hv
  | touchClient | setStatus | probeOne | restartA => exact hs

theorem tells_of_shows (h : l.Inv N) {m : Move} (hs : (l.step N m).Shows N) : l.Tells N m := by
  cases m with
  | deliver now =>
    rcases hw : l.wire with _ | ⟨p, wire⟩
    · simp [Tells, hw]
    · exact (shows_deliver h hw now).1 hs
  | touchClient | setStatus | probeOne | restartA | restartB => trivial

/-! ### Whole runs -/

/-- Two daemons that have just started and do not block each other. -/
structure Start (N : Nodes) (l : Buddies) : Prop where
  opened : l.Open N
  queue : l.a.node.control = []
  peers : l.a.peers = ∅
  wire : l.wire = []
  done : l.done = none

theorem Start.inv (h : l.Start N) : l.Inv N where
  opened := h.opened
  queue := h.queue
  stored st hst := by simp [Daemon.keyFor, h.peers] at hst
  wire := by simp [h.wire]

theorem run_inv (h : l.Start N) (moves : List Move) (n : ℕ) : (l.run N (moves.take n)).Inv N :=
  Runs.invariant (step N) l moves h.inv (fun _ m _ hi => inv_step hi m) n

/-- The marker follows the client all along a run just if `B` never handles a bare PROBE of a probe
made with a client while it holds the marker of a missing one. -/
theorem marker_follows_client_iff (N : Nodes) (l : Buddies) (h : l.Start N) (moves : List Move) :
    (∀ n, (l.run N (moves.take n)).Shows N) ↔
      ∀ n m, moves[n]? = some m → (l.run N (moves.take n)).Tells N m := by
  constructor
  · intro hall n m hm
    have hnext : l.run N (moves.take (n + 1)) = (l.run N (moves.take n)).step N m :=
      Runs.foldl_take_succ (step N) l hm
    exact tells_of_shows (run_inv h moves n) (hnext ▸ hall (n + 1))
  · intro htells
    have hstart : l.Shows N := fun v hv => by simp [h.done] at hv
    exact Runs.invariant (step N) l moves hstart fun n m hm hs =>
      shows_step (run_inv h moves n) hs (htells n m hm)

/-! ### A client that comes back -/

instance : ∀ m, Decidable (l.Tells N m)
  | .deliver _ => inferInstanceAs (Decidable (∀ p ∈ l.wire.head?, p.mark = some true →
      p.isStatus ∨ ¬ l.b.holdsAway N.keyA))
  | .touchClient _ => .isTrue trivial
  | .setStatus _ _ _ _ => .isTrue trivial
  | .probeOne _ => .isTrue trivial
  | .restartA => .isTrue trivial
  | .restartB => .isTrue trivial

def config : Config :=
  { inboxCapacity := 1000, attachCap := 1048576, retryInterval := 5000000000,
    probeInterval := 10000000000, mtu := 1280 }

def nodes : Nodes :=
  { keyA := List.replicate 32 1, keyB := List.replicate 32 2, cfgA := config, cfgB := config }

def started : Buddies := { a := {}, b := {} }

theorem started_start : started.Start nodes where
  opened := ⟨by decide, by decide⟩
  queue := rfl
  peers := rfl
  wire := rfl
  done := rfl

/-- A probe without a client; then a client comes, sets its status, and a probe follows. -/
def withStatus : List Move :=
  [.probeOne 0, .deliver 1, .deliver 2, .touchClient 3, .setStatus 4 nodes.keyB [7] (by decide),
    .deliver 5, .probeOne 6, .deliver 7, .deliver 8]

theorem marker_follows_client_with_status :
    ∃ e ∈ (started.run nodes withStatus).b.snapshot config 9,
      e.key = nodes.keyA ∧ e.clientAttached = true := by
  have hshows := (marker_follows_client_iff nodes started started_start withStatus).2
    (Runs.forall_moves (by decide +kernel)) 9
  obtain ⟨⟨e, he, hkey⟩, hall⟩ := hshows true (by decide +kernel) 9
  exact ⟨e, he, hkey, hall e he hkey⟩

/-- As above, but the client sets no status: `B` goes on showing that none is attached. -/
theorem client_without_status_stays_away :
    let l := started.run nodes [.probeOne 0, .deliver 1, .deliver 2, .touchClient 3, .probeOne 4,
      .deliver 5]
    started.Start nodes ∧ l.done = some true ∧ ∃ e ∈ l.b.snapshot config 6,
      e.key = nodes.keyA ∧ e.clientAttached = false :=
  ⟨started_start, by decide +kernel, by decide +kernel⟩

end Buddies

end Aimless
