import Aimless.Proofs.Ticks
import Aimless.Proofs.Flush

/-!
# No row is sent again too soon

Sends, paths that come up and the retry loop start flush passes, which read the stamps when they
start and go through the rows much later.  Between the two a stamp may go with an acknowledgement,
but it cannot change, since one pass at a time runs for a peer and a row has one turn in it.  So the
stamp a pass goes by is that of the last time the row was handed to a queue (`Stamped.entries`).
-/

namespace Aimless

/-- A row of the peer handed to a queue: the clock its pass went by and the time of its stamp. -/
structure Sending where
  seq : UInt64
  now : ℤ
  stamp : ℤ
  deriving DecidableEq, Repr

/-- The stamp of a seq the last time it was handed over. -/
def lastStamp (log : List Sending) (seq : UInt64) : Option Int64 :=
  (log.reverse.find? fun s => s.seq = seq).map fun s => unixMilli s.stamp

/-- Each row handed over was due by the stamp of the time before. -/
def Paced (C : Config) (log : List Sending) : Prop :=
  ∀ pre s post, log = pre ++ s :: post → Daemon.stampDue C s.now (lastStamp pre s.seq)

section Log

variable {C : Config} {log : List Sending} {s : Sending} {seq : UInt64}

theorem lastStamp_snoc (log : List Sending) (s : Sending) (seq : UInt64) :
    lastStamp (log ++ [s]) seq
      = if s.seq = seq then some (unixMilli s.stamp) else lastStamp log seq := by
  unfold lastStamp
  rw [List.reverse_append, List.reverse_singleton, List.singleton_append, List.find?_cons]
  by_cases h : s.seq = seq <;> simp [h]

theorem lastStamp_eq_none (h : ∀ s ∈ log, s.seq ≠ seq) : lastStamp log seq = none := by
  unfold lastStamp
  rw [Option.map_eq_none_iff, List.find?_eq_none]
  intro s hs heq
  exact h s (List.mem_reverse.1 hs) (of_decide_eq_true heq)

theorem Paced.snoc (h : Paced C log) (hs : Daemon.stampDue C s.now (lastStamp log s.seq)) :
    Paced C (log ++ [s]) := by
  intro pre s' post heq
  rcases List.eq_nil_or_concat post with rfl | ⟨post', s'', rfl⟩
  · obtain ⟨rfl, hlast⟩ := List.append_inj' heq rfl
    cases hlast
    exact hs
  · rw [List.concat_eq_append, ← List.cons_append, ← List.append_assoc] at heq
    exact h pre s' post' (List.append_inj' heq rfl).1

/-- A missing stamp and a stamp of zero are both due. -/
theorem stampDue_of_getD {now : ℤ} {t : Option Int64} {sentAt : Int64} (h : t.getD 0 = sentAt) :
    Daemon.stampDue C now t ↔ ¬ (sentAt > 0
      ∧ unixMilli now - sentAt < Int64.ofInt (C.retryInterval / 1000000)) := by
  subst h
  unfold Daemon.stampDue Daemon.staleMs
  rcases t with _ | t
  · simp
  · simp [imp_iff_not_or]

end Log

namespace Daemon

variable {C : Config}

/-- The stamps are the same. -/
def KeepsStamps (d d' : Daemon) : Prop := ∀ q, d'.sentOf q = d.sentOf q

namespace KeepsStamps

variable {d d₁ d₂ : Daemon}

theorem refl (d : Daemon) : KeepsStamps d d := fun _ => rfl

theorem trans (h₁ : KeepsStamps d d₁) (h₂ : KeepsStamps d₁ d₂) : KeepsStamps d d₂ :=
  fun q => (h₂ q).trans (h₁ q)

theorem boxFor (d : Daemon) (k : PublicKey) : KeepsStamps d (d.boxFor k) := d.boxFor_sentOf k

theorem sendControl (d : Daemon) (dest : PublicKey) (env : Envelope) :
    KeepsStamps d (d.sendControl C dest env).2 := by
  rcases d.sendControl_cases (C := C) dest env with h | ⟨data, -, h⟩ <;> rw [h] <;>
    exact fun _ => rfl

theorem sendAck (d : Daemon) (dest : PublicKey) (seq : UInt64) :
    KeepsStamps d (d.sendAck C dest seq) := by
  rcases d.sendAck_cases (C := C) dest seq with h | ⟨data, -, h⟩ <;> rw [h] <;> exact fun _ => rfl

theorem probeOne (now : ℤ) (d : Daemon) (k : PublicKey) :
    KeepsStamps d (d.probeOne C now k) := by
  have hprobe : KeepsStamps d (d.sendProbe C now k).2 :=
    (show KeepsStamps d { d with probeSeq := d.probeSeq + 1 } from fun _ => rfl).trans
      (sendControl _ _ _)
  unfold Daemon.probeOne
  split
  · exact refl d
  dsimp only
  split
  · exact hprobe.trans (sendControl _ _ _)
  split
  · exact hprobe.trans (sendControl _ _ _)
  · exact hprobe

theorem insertPeer (d : Daemon) (k : PublicKey) (pp : PeerPresence) :
    KeepsStamps d { d with peers := d.peers.insert k pp } := fun _ => rfl

theorem watch (persisted : Bool) (d : Daemon) (k : PublicKey) :
    KeepsStamps d (d.watch persisted k).2 := by
  have hbox := boxFor d k
  unfold Daemon.watch
  split
  · exact refl d
  dsimp only
  split
  · exact hbox.trans fun _ => rfl
  split
  · exact hbox.trans fun _ => rfl
  · exact hbox

theorem persistBlocked (persisted : Bool) (d : Daemon) :
    KeepsStamps d (d.persistBlocked persisted).2 := by
  unfold Daemon.persistBlocked
  split <;> exact fun _ => rfl

theorem block (persisted : Bool) (d : Daemon) (k : PublicKey) :
    KeepsStamps d (d.block persisted k).2 := by
  unfold Daemon.block
  split
  · exact refl d
  · exact (show KeepsStamps d _ from fun _ => rfl).trans (persistBlocked persisted _)

theorem unblock (persisted : Bool) (d : Daemon) (k : PublicKey) :
    KeepsStamps d (d.unblock persisted k).2 := by
  unfold Daemon.unblock
  split
  · exact refl d
  · exact (show KeepsStamps d _ from fun _ => rfl).trans (persistBlocked persisted _)

/-- No request but one to send starts a pass, and none changes a stamp. -/
theorem dispatch (now : ℤ) (persisted : Bool) (d : Daemon) {req : Request} (hsend : ¬ req.isSend) :
    KeepsStamps d (d.dispatch C now persisted req).2 := by
  have htouch : KeepsStamps d (d.touchClient now) := fun _ => rfl
  refine htouch.trans ?_
  have h := d.dispatch_dispatched (C := C) now persisted req
  generalize (d.dispatch C now persisted req).2 = d' at h ⊢
  cases h with
  | reads => exact refl _
  | opens key => exact boxFor _ key
  | send => exact absurd rfl hsend
  | sendfile => exact absurd rfl hsend
  | ackfile => exact boxFor _ _
  | watch key => exact watch persisted _ key
  | setstatus hb bytes => exact (insertPeer _ _ _).trans (sendControl _ _ _)
  | block key => exact block persisted _ key
  | unblock key => exact unblock persisted _ key

end KeepsStamps

end Daemon

/-- What a step of a party hands over of the rows of `dest`. -/
def Party.handed (C : Config) (dest : PublicKey) (p : Party) : Act → List Sending
  | .flushNext i stamp =>
    match p.flushes[i]? with
    | none => []
    | some t =>
      match t.entries with
      | [] => []
      | entry :: _ =>
        if t.peer = dest ∧ p.daemon.queued.length
            < (Daemon.flushEntry C t.now (fun _ => stamp) t.peer p.daemon entry).queued.length then
          [⟨entry.seq, t.now, stamp⟩]
        else []
  | _ => []

/-! ### The invariant -/

/-- The seqs of the rows of a peer. -/
def OutboxJournal.seqsFor (db : DB) (dest : PublicKey) : List Int64 :=
  (db.outbox.filter fun r => r.peer = dest).map (·.seq)

/-- What ties the stamps of `dest` and the passes under way to what was handed over since the last
start. -/
structure Stamped (C : Config) (dest : PublicKey) (posted : List Posted) (log : List Sending)
    (p : Party) : Prop where
  was_posted : ∀ s ∈ log, ∃ m ∈ posted, m.seq = s.seq
  known : ∀ seq t, (p.daemon.sentOf dest).lookup seq = some t → lastStamp log seq = some t
  rows : ∀ r ∈ p.daemon.db.outbox, r.peer = dest →
    (p.daemon.sentOf dest).lookup r.seq.toUInt64 = lastStamp log r.seq.toUInt64
  keyed : (OutboxJournal.seqsFor p.daemon.db dest).Nodup
  one : (p.flushes.map (·.peer)).Nodup
  turns : ∀ t ∈ p.flushes, t.peer = dest → (t.entries.map (·.seq)).Nodup
  entries : ∀ t ∈ p.flushes, t.peer = dest → ∀ e ∈ t.entries,
    (lastStamp log e.seq).getD 0 = e.sentAt
  paced : Paced C log

namespace Stamped

open OutboxJournal

variable {C : Config} {dest : PublicKey} {allocated : List UInt64} {posted posted' : List Posted}
  {log : List Sending} {p : Party}

theorem init : Stamped C dest [] [] {} := by
  constructor <;> simp [Daemon.sentOf, seqsFor, Paced]

/-- A step that adds no row and no stamp, and changes neither where the other stays. -/
theorem setDaemon (S : Stamped C dest posted log p) {d' : Daemon}
    (hrows : (d'.db.outbox.filter fun r => r.peer = dest).Sublist
      (p.daemon.db.outbox.filter fun r => r.peer = dest))
    (hknown : ∀ seq t, (d'.sentOf dest).lookup seq = some t →
      (p.daemon.sentOf dest).lookup seq = some t)
    (hkept : ∀ r ∈ d'.db.outbox, r.peer = dest → (d'.sentOf dest).lookup r.seq.toUInt64
      = (p.daemon.sentOf dest).lookup r.seq.toUInt64) :
    Stamped C dest posted log { p with daemon := d' } where
  was_posted := S.was_posted
  known seq t ht := S.known seq t (hknown seq t ht)
  rows r hr hp := by
    have hold := hrows.subset (List.mem_filter.2 ⟨hr, decide_eq_true hp⟩)
    rw [hkept r hr hp]
    exact S.rows r (List.mem_filter.1 hold).1 hp
  keyed := S.keyed.sublist (hrows.map _)
  one := S.one
  turns := S.turns
  entries := S.entries
  paced := S.paced

theorem keeps (S : Stamped C dest posted log p) {d' : Daemon}
    (hrows : d'.db.outbox = p.daemon.db.outbox) (hs : Daemon.KeepsStamps p.daemon d') :
    Stamped C dest posted log { p with daemon := d' } :=
  S.setDaemon (by rw [hrows]) (fun _ _ h => by rwa [hs] at h) fun _ _ _ => by rw [hs]

theorem setFlushes (S : Stamped C dest posted log p) {flushes : List FlushTask}
    (hone : (flushes.map (·.peer)).Nodup) (hturns : ∀ t ∈ flushes, t.peer = dest →
      (t.entries.map (·.seq)).Nodup ∧ ∀ e ∈ t.entries, (lastStamp log e.seq).getD 0 = e.sentAt) :
    Stamped C dest posted log { p with flushes } :=
  { S with
    one := hone
    turns := fun t ht hp => (hturns t ht hp).1
    entries := fun t ht hp => (hturns t ht hp).2 }

/-- A send returns: its row is new, and nothing was handed over under its seq. -/
theorem returned (S : Stamped C dest posted log p) (I : SenderInv dest allocated posted p)
    {i : ℕ} (now : ℤ) {t : SendTask} (h : p.sends[i]? = some t) :
    Stamped C dest (if t.dest = dest then posted ++ [⟨t.seq, t.type, t.payload⟩] else posted) log
      { p with
        daemon := p.daemon.finishSend now t.dest t.seq t.payload t.type
        sends := p.sends.eraseIdx i } := by
  set row : OutboxRow := ⟨t.dest, t.seq.toInt64, unixMilli now, t.type, t.payload⟩ with hrowdef
  set kept := p.daemon.db.outbox.filter fun r => ¬ (r.peer = t.dest ∧ r.seq = t.seq.toInt64)
  have houtbox : (p.daemon.finishSend now t.dest t.seq t.payload t.type).db.outbox
      = kept ++ [row] := rfl
  have hsub : (kept.filter fun r => r.peer = dest).Sublist
      (p.daemon.db.outbox.filter fun r => r.peer = dest) := List.filter_sublist.filter _
  by_cases hd : t.dest = dest
  · subst hd
    have hfresh : ∀ m ∈ posted, m.seq ≠ t.seq := by
      intro m hm heq
      have hin : t.seq ∈ p.seqsTo t.dest := List.mem_map.2
        ⟨t, List.mem_filter.2 ⟨List.mem_of_getElem? h, decide_eq_true rfl⟩, rfl⟩
      exact List.disjoint_of_nodup_append I.nodup hin (List.mem_map.2 ⟨m, hm, heq⟩)
    have hnone : lastStamp log t.seq = none := lastStamp_eq_none fun s hs heq => by
      obtain ⟨m, hm, hseq⟩ := S.was_posted s hs
      exact hfresh m hm (hseq.trans heq)
    rw [if_pos rfl]
    refine ⟨fun s hs => ?_, S.known, fun r hr hp => ?_, ?_, S.one, S.turns, S.entries, S.paced⟩
    · obtain ⟨m, hm, hseq⟩ := S.was_posted s hs
      exact ⟨m, List.mem_append_left _ hm, hseq⟩
    · rw [houtbox] at hr
      rcases List.mem_append.1 hr with hr | hr
      · exact S.rows r (List.mem_of_mem_filter hr) hp
      · rw [List.mem_singleton.1 hr]
        have hseq : row.seq.toUInt64 = t.seq := by simp [hrowdef]
        rw [hseq, hnone]
        rcases hlook : (p.daemon.sentOf t.dest).lookup t.seq with _ | stamp
        · exact hlook
        · rw [S.known _ _ hlook] at hnone
          cases hnone
    · unfold seqsFor
      rw [houtbox, List.filter_append, List.map_append]
      have hrow : [row].filter (fun r => decide (r.peer = t.dest)) = [row] :=
        List.filter_cons_of_pos (decide_eq_true rfl)
      rw [hrow]
      refine (S.keyed.sublist (hsub.map _)).append (List.nodup_singleton _) ?_
      rintro s hs hs'
      obtain ⟨r, hr, rfl⟩ := List.mem_map.1 hs
      obtain ⟨hr, hp⟩ := List.mem_filter.1 hr
      have hseq : r.seq = t.seq.toInt64 := List.mem_singleton.1 hs'
      exact of_decide_eq_true (List.mem_filter.1 hr).2 ⟨of_decide_eq_true hp, hseq⟩
  · rw [if_neg hd]
    have hrow : [row].filter (fun r => decide (r.peer = dest)) = [] :=
      List.filter_cons_of_neg (by simpa using hd)
    have hrows : ((p.daemon.finishSend now t.dest t.seq t.payload t.type).db.outbox.filter
        fun r => r.peer = dest).Sublist (p.daemon.db.outbox.filter fun r => r.peer = dest) := by
      rw [houtbox, List.filter_append, hrow, List.append_nil]
      exact hsub
    have hS := S.setDaemon hrows (fun _ _ => id) fun _ _ _ => rfl
    exact { hS with }

/-- A pass starts, if none runs for the peer: its entries have the stamps of the rows. -/
theorem started (S : Stamped C dest posted log p) {now : ℤ} {peer : PublicKey}
    (hfree : ¬ p.flushes.any fun t => t.peer = peer) :
    Stamped C dest posted log
      { p with flushes := p.flushes ++ [⟨peer, now, p.daemon.flushEntries peer⟩] } := by
  refine S.setFlushes ?_ fun t ht hp => ?_
  · rw [List.map_append]
    refine S.one.append (List.nodup_singleton _) ?_
    rintro q hq hq'
    obtain ⟨t, ht, rfl⟩ := List.mem_map.1 hq
    exact hfree (List.any_eq_true.2 ⟨t, ht, decide_eq_true (List.mem_singleton.1 hq')⟩)
  rcases List.mem_append.1 ht with ht | ht
  · exact ⟨S.turns t ht hp, S.entries t ht hp⟩
  rw [List.mem_singleton] at ht
  subst ht
  dsimp only at hp ⊢
  subst hp
  by_cases hknown : ¬ p.daemon.isBlocked peer ∧ peer ∈ p.daemon.boxes
  · rw [Daemon.flushEntries_eq hknown.1 hknown.2, List.map_map]
    constructor
    · have hnd : ((p.daemon.rowsOf peer).map (·.seq)).Nodup :=
        ((List.perm_insertionSort _ _).map _).nodup_iff.2 S.keyed
      have hinj : Function.Injective Int64.toUInt64 := fun a b h => by
        simpa using congrArg UInt64.toInt64 h
      have hmap := hnd.map hinj
      rwa [List.map_map] at hmap
    · intro e he
      obtain ⟨r, hr, rfl⟩ := List.mem_map.1 he
      obtain ⟨hr, hrp⟩ := Daemon.mem_rowsOf.1 hr
      show (lastStamp log r.seq.toUInt64).getD 0 = _
      rw [← S.rows r hr hrp]
      rfl
  · have hnil : p.daemon.flushEntries peer = [] := by
      unfold Daemon.flushEntries
      split_ifs with hb hm
      · rfl
      · exact absurd ⟨hb, hm⟩ hknown
      · rfl
    rw [hnil]
    exact ⟨List.nodup_nil, by simp⟩

theorem ended (S : Stamped C dest posted log p) {i : ℕ} :
    Stamped C dest posted log { p with flushes := p.flushes.eraseIdx i } :=
  S.setFlushes (S.one.sublist ((List.eraseIdx_sublist _ _).map _)) fun t ht hp =>
    ⟨S.turns t (List.mem_of_mem_eraseIdx ht) hp, S.entries t (List.mem_of_mem_eraseIdx ht) hp⟩

theorem restarted (S : Stamped C dest posted log p) :
    Stamped C dest posted [] { daemon := p.daemon.restart } := by
  obtain ⟨hsent, hdb, -⟩ := p.daemon.restart_spec dest
  have hkeyed := S.keyed
  refine ⟨by simp, fun seq t h => ?_, fun r _ _ => ?_, ?_, List.nodup_nil, by simp, by simp, ?_⟩
  · dsimp only at h
    rw [hsent] at h
    cases h
  · dsimp only
    rw [hsent]
    rfl
  · unfold seqsFor at hkeyed ⊢
    rwa [hdb]
  · intro pre s post h
    cases pre <;> cases h

/-- The turn of an entry in a pass for `dest`. -/
theorem flushed (S : Stamped C dest posted log p) (I : SenderInv dest allocated posted p) {i : ℕ}
    {stamp : ℤ} {t : FlushTask} {entry : JournalEntry} {entries : List JournalEntry}
    (h : p.flushes[i]? = some t) (he : t.entries = entry :: entries) :
    Stamped C dest posted (log ++ p.handed C dest (.flushNext i stamp))
      { p with
        daemon := Daemon.flushEntry C t.now (fun _ => stamp) t.peer p.daemon entry
        flushes := p.flushes.set i { t with entries } } := by
  have ht : t ∈ p.flushes := List.mem_of_getElem? h
  have hi := (List.getElem?_eq_some_iff.1 h).1
  have hget := (List.getElem?_eq_some_iff.1 h).2
  have hone : ((p.flushes.set i { t with entries }).map (·.peer)).Nodup := by
    have hsame : (p.flushes.set i { t with entries }).map (·.peer) = p.flushes.map (·.peer) := by
      rw [List.map_set]
      refine List.ext_getElem (by simp) fun n hn hn' => ?_
      rw [List.getElem_set]
      split_ifs with heq
      · subst heq
        simp [hget]
      · rfl
    rw [hsame]
    exact S.one
  have hother : ∀ t' ∈ p.flushes.set i { t with entries }, t'.peer = dest → t.peer ≠ dest →
      t' ∈ p.flushes := by
    intro t' ht' hp' hne
    rcases List.mem_or_eq_of_mem_set ht' with ht' | rfl
    · exact ht'
    · exact absurd hp' hne
  have honly : ∀ t' ∈ p.flushes.set i { t with entries }, t'.peer = dest → t.peer = dest →
      t' = { t with entries } := by
    intro t' ht' hp' hp
    exact List.inj_on_of_nodup_map hone ht' (List.mem_set hi _) (hp'.trans hp.symm)
  have hrest : t.peer = dest → (entry.seq ∉ entries.map (·.seq)) ∧ (entries.map (·.seq)).Nodup := by
    intro hp
    have hturns := S.turns t ht hp
    rw [he, List.map_cons] at hturns
    exact List.nodup_cons.1 hturns
  -- a turn that hands nothing over
  have hidle :
      Stamped C dest posted log { p with flushes := p.flushes.set i { t with entries } } := by
    refine S.setFlushes hone fun t' ht' hp' => ?_
    by_cases hp : t.peer = dest
    · obtain rfl := honly t' ht' hp' hp
      exact ⟨(hrest hp).2, fun e hmem => S.entries t ht hp e (he ▸ List.mem_cons_of_mem _ hmem)⟩
    · have hold := hother t' ht' hp' hp
      exact ⟨S.turns t' hold hp', S.entries t' hold hp'⟩
  have hnothing : Daemon.flushEntry C t.now (fun _ => stamp) t.peer p.daemon entry = p.daemon →
      log ++ p.handed C dest (.flushNext i stamp) = log := by
    intro hsame
    simp [Party.handed, h, he, hsame]
  rcases p.daemon.flushEntry_cases (C := C) t.peer t.now (fun _ => stamp) entry with
    hsame | ⟨payload, data, hpay, hdata, hsent⟩
  · rw [hnothing hsame, hsame]
    exact hidle
  have hlonger : p.daemon.queued.length
      < (Daemon.flushEntry C t.now (fun _ => stamp) t.peer p.daemon entry).queued.length := by
    rw [hsent]
    split_ifs <;> simp [Daemon.queued, Daemon.withBulk, Daemon.withControl]
  have hdb := Daemon.flushEntry_db (C := C) t.now (fun _ => stamp) t.peer p.daemon entry
  by_cases hp : t.peer = dest
  · subst hp
    have hlog : p.handed C t.peer (.flushNext i stamp) = [⟨entry.seq, t.now, stamp⟩] := by
      simp only [Party.handed, h, he]
      rw [if_pos ⟨trivial, hlonger⟩]
    have hlook : ∀ seq, ((Daemon.flushEntry C t.now (fun _ => stamp) t.peer p.daemon
        entry).sentOf t.peer).lookup seq
        = if entry.seq = seq then some (unixMilli stamp)
          else (p.daemon.sentOf t.peer).lookup seq := by
      intro seq
      rw [hsent, Daemon.sentOf, AList.lookup_insert, Option.getD_some, OutboxJournal.markSent]
      split_ifs with hseq
      · rw [← hseq, AList.lookup_insert]
      · exact AList.lookup_insert_ne (Ne.symm hseq)
    obtain ⟨payload', -, hposted⟩ := I.entries t ht rfl entry (he ▸ List.mem_cons_self)
    rw [hlog]
    refine ⟨fun s hs => ?_, fun seq t' hl => ?_, fun r hr hp => ?_, ?_, hone, fun t' ht' hp' => ?_,
      fun t' ht' hp' e hmem => ?_, S.paced.snoc ?_⟩
    · rcases List.mem_append.1 hs with hs | hs
      · exact S.was_posted s hs
      · exact ⟨_, hposted, congrArg Sending.seq (List.mem_singleton.1 hs).symm⟩
    · rw [hlook] at hl
      rw [lastStamp_snoc]
      dsimp only
      split_ifs at hl ⊢
      · exact hl
      · exact S.known seq t' hl
    · rw [hlook, lastStamp_snoc]
      dsimp only
      split_ifs
      · rfl
      · exact S.rows r (hdb ▸ hr) hp
    · have hkeyed := S.keyed
      unfold seqsFor at hkeyed ⊢
      rwa [hdb]
    · obtain rfl := honly t' ht' hp' rfl
      exact (hrest rfl).2
    · obtain rfl := honly t' ht' hp' rfl
      have hne : entry.seq ≠ e.seq := fun heq =>
        (hrest rfl).1 (heq ▸ List.mem_map_of_mem hmem)
      rw [lastStamp_snoc, if_neg hne]
      exact S.entries t ht rfl e (he ▸ List.mem_cons_of_mem _ hmem)
    · -- the entry was due by the stamp it came with, which is the last one
      refine (stampDue_of_getD (S.entries t ht rfl entry (he ▸ List.mem_cons_self))).2 ?_
      intro hrecent
      have hskip : Daemon.flushEntry C t.now (fun _ => stamp) t.peer p.daemon entry = p.daemon := by
        unfold Daemon.flushEntry
        rw [if_pos hrecent]
      rw [hskip] at hlonger
      exact absurd hlonger (lt_irrefl _)
  · have hlog : log ++ p.handed C dest (.flushNext i stamp) = log := by
      simp [Party.handed, h, he, hp]
    have hstamps : (Daemon.flushEntry C t.now (fun _ => stamp) t.peer p.daemon entry).sentOf dest
        = p.daemon.sentOf dest := by
      rw [hsent, Daemon.sentOf, AList.lookup_insert_ne (Ne.symm hp)]
      rfl
    rw [hlog]
    exact hidle.setDaemon (by rw [hdb]) (fun seq t' hl => by rwa [hstamps] at hl)
      fun r _ _ => by rw [hstamps]

/-- A packet.  An acknowledgement deletes the stamp with the row. -/
theorem received (S : Stamped C dest posted log p) (now : ℤ) (sender : PublicKey) (data : Bytes) :
    Stamped C dest posted log
      { p with daemon := (p.daemon.handlePacket C now sender data).1 } := by
  have hh := Daemon.handlePacket_handled (C := C) now p.daemon sender data
  generalize p.daemon.handlePacket C now sender data = r at hh ⊢
  have hbox := Daemon.KeepsStamps.boxFor p.daemon sender
  have hboxdb := congrArg DB.outbox (p.daemon.boxFor_db sender)
  cases hh with
  | drop => exact S
  | ignored | probe | status => exact S.keeps hboxdb hbox
  | @file env tid index total isNew db' _ _ _ _ hadd =>
    obtain ⟨rows, rfl⟩ := AttachmentStore.add_attach _ hadd
    refine S.keeps (by rw [Daemon.sendAck_db]) ?_
    exact (hbox.trans (show Daemon.KeepsStamps (p.daemon.boxFor sender) _ from fun _ => rfl)).trans
      (Daemon.KeepsStamps.sendAck _ _ _)
  | @msg env =>
    refine S.keeps ?_ ?_
    · rw [Daemon.sendAck_db]
      exact (InboxStore.add_outbox _ _ _ _ _).1
    · exact (hbox.trans (show Daemon.KeepsStamps (p.daemon.boxFor sender) _ from
        fun _ => rfl)).trans (Daemon.KeepsStamps.sendAck _ _ _)
  | @ack env =>
    have hrows : ((ack p.daemon.db sender (p.daemon.sentOf sender) env.seq).2.1.outbox.filter
        fun r => r.peer = dest).Sublist (p.daemon.db.outbox.filter fun r => r.peer = dest) :=
      List.filter_sublist.filter _
    by_cases hs : sender = dest
    · subst hs
      have hlook : ∀ d' : Daemon, d'.boxes = (p.daemon.boxFor sender).boxes.insert sender
          ((p.daemon.sentOf sender).erase env.seq) → ∀ seq, (d'.sentOf sender).lookup seq
          = if env.seq = seq then none else (p.daemon.sentOf sender).lookup seq := by
        intro d' hd' seq
        rw [Daemon.sentOf, hd', AList.lookup_insert, Option.getD_some]
        split_ifs with hseq
        · rw [← hseq, AList.lookup_erase]
        · exact AList.lookup_erase_ne (Ne.symm hseq)
      refine S.setDaemon hrows (fun seq t hl => ?_) fun r hr hp => ?_
      · rw [hlook _ rfl] at hl
        split_ifs at hl
        exact hl
      · rw [hlook _ rfl, if_neg]
        intro hseq
        refine of_decide_eq_true (List.mem_filter.1 hr).2 ⟨hp, ?_⟩
        rw [hseq]
        simp
    · have hstamps : ∀ d' : Daemon, d'.boxes = (p.daemon.boxFor sender).boxes.insert sender
          ((p.daemon.sentOf sender).erase env.seq) → d'.sentOf dest = p.daemon.sentOf dest := by
        intro d' hd'
        rw [← hbox dest, Daemon.sentOf, hd', AList.lookup_insert_ne (Ne.symm hs)]
        rfl
      refine S.setDaemon hrows (fun seq t hl => ?_) fun r _ _ => ?_
      · rwa [hstamps _ rfl] at hl
      · rw [hstamps _ rfl]

end Stamped

/-! ### The world -/

namespace World

variable {N : Nodes} {w : World} {log : List Sending}

/-- What `A` handed over of the rows for `B` since its last start, after one more step. -/
def logStep (N : Nodes) (w : World) (log : List Sending) : Move → List Sending
  | .act .a .restart => []
  | .act .a act => log ++ w.a.handed N.cfgA N.keyB act
  | _ => log

/-- What `A` handed over since its last start in a run. -/
def sendings (N : Nodes) (moves : List Move) : List Sending :=
  (moves.foldl (fun s move => (World.step N s.1 move, logStep N s.1 s.2 move))
    (({} : World), ([] : List Sending))).2

theorem stamped_actA (I : Inv N w) (S : Stamped N.cfgA N.keyB w.posted log w.a) (act : Act) :
    Stamped N.cfgA N.keyB (w.actA N act).posted (logStep N w log (.act .a act))
      (w.actA N act).a := by
  have hnil : ∀ l : List Sending, l ++ [] = l := List.append_nil
  cases act with
  | beginSend file dest payload =>
    have hlog : logStep N w log (.act .a (.beginSend file dest payload)) = log := hnil log
    rw [hlog]
    simp only [World.actA, Party.act]
    rcases hb : w.a.daemon.beginSend dest with ⟨res, d'⟩
    have hkeep : d'.db.outbox = w.a.daemon.db.outbox
        ∧ Daemon.KeepsStamps w.a.daemon d' := by
      obtain ⟨rows, hrows⟩ := w.a.daemon.beginSend_db dest
      rw [hb] at hrows
      refine ⟨by rw [show d'.db = _ from hrows], ?_⟩
      unfold Daemon.beginSend at hb
      have hbox := Daemon.KeepsStamps.boxFor w.a.daemon dest
      split at hb
      · cases hb
        exact Daemon.KeepsStamps.refl _
      · dsimp only at hb
        split at hb <;> cases hb <;> exact hbox
    have hS := S.keeps hkeep.1 hkeep.2
    cases res with
    | error e => exact hS
    | ok seq => exact { hS with }
  | finishSend i now =>
    have hlog : logStep N w log (.act .a (.finishSend i now)) = log := hnil log
    rw [hlog]
    simp only [World.actA, Party.act]
    rcases h : w.a.sends[i]? with _ | t
    · exact S
    · exact S.returned I.sender now h
  | startFlush now peer =>
    have hlog : logStep N w log (.act .a (.startFlush now peer)) = log := hnil log
    rw [hlog]
    simp only [World.actA, Party.act]
    split_ifs with hfree
    · exact S
    · exact S.started hfree
  | flushNext i stamp =>
    simp only [World.actA, Party.act, logStep]
    rcases h : w.a.flushes[i]? with _ | t
    · rw [show w.a.handed N.cfgA N.keyB (.flushNext i stamp) = [] by simp [Party.handed, h], hnil]
      exact S
    rcases he : t.entries with _ | ⟨entry, entries⟩
    · rw [show w.a.handed N.cfgA N.keyB (.flushNext i stamp) = [] by simp [Party.handed, h, he],
        hnil]
      dsimp only
      rw [he]
      exact S.ended
    · dsimp only
      rw [he]
      exact S.flushed I.sender h he
  | probe now key =>
    have hlog : logStep N w log (.act .a (.probe now key)) = log := hnil log
    rw [hlog]
    exact S.keeps (Daemon.KeepsMail.probeOne now w.a.daemon key).outbox
      (Daemon.KeepsStamps.probeOne now w.a.daemon key)
  | request now persisted req =>
    have hlog : logStep N w log (.act .a (.request now persisted req)) = log := hnil log
    rw [hlog]
    simp only [World.actA, Party.act]
    split_ifs with hsend
    · exact S
    · refine S.keeps (Daemon.KeepsMail.dispatch now persisted w.a.daemon ?_ ?_).outbox
        (Daemon.KeepsStamps.dispatch now persisted w.a.daemon hsend)
      · rintro dest payload rfl
        exact hsend rfl
      · rintro dest payload rfl
        exact hsend rfl
  | writeControl =>
    have hlog : logStep N w log (.act .a .writeControl) = log := hnil log
    rw [hlog]
    simp only [World.actA, Party.act]
    rcases w.a.daemon.node.control with _ | ⟨out, rest⟩
    · exact S
    · exact S.keeps rfl fun _ => rfl
  | writeBulk =>
    have hlog : logStep N w log (.act .a .writeBulk) = log := hnil log
    rw [hlog]
    simp only [World.actA, Party.act]
    rcases w.a.daemon.node.bulk with _ | ⟨out, rest⟩
    · exact S
    · exact S.keeps rfl fun _ => rfl
  | restart => exact S.restarted

theorem stamped_step (I : Inv N w) (S : Stamped N.cfgA N.keyB w.posted log w.a) (move : Move) :
    Stamped N.cfgA N.keyB (w.step N move).posted (logStep N w log move) (w.step N move).a := by
  cases move with
  | act side act =>
    cases side with
    | a => exact stamped_actA I S act
    | b =>
      obtain ⟨hp, ha⟩ := actB_a (N := N) (w := w) act
      show Stamped N.cfgA N.keyB (w.actB N act).posted log (w.actB N act).a
      rw [hp, ha]
      exact S
  | deliver i now =>
    unfold World.step logStep
    dsimp only
    split
    · exact S
    split_ifs
    · exact S.received now _ _
    · exact S
    · exact S
  | foreign side now sender data =>
    unfold World.step logStep
    dsimp only
    split_ifs
    · exact S
    cases side with
    | a => exact S.received now sender data
    | b => exact S

theorem run_stamped (hne : N.keyA ≠ N.keyB) (moves : List Move) :
    Paced N.cfgA (sendings N moves) := by
  have h := Runs.invariant_end (I := fun s : World × List Sending => Inv N s.1
      ∧ Stamped N.cfgA N.keyB s.1.posted s.2 s.1.a)
    (fun s move => (World.step N s.1 move, logStep N s.1 s.2 move)) ({}, []) moves
    ⟨Inv.init, Stamped.init⟩ fun move _ s h => ⟨h.1.step hne move, stamped_step h.1 h.2 move⟩
  exact h.2.paced

/-- In every run, of everything that `A` handed to its queues for `B` since its last start: a row
that was handed over before, with a positive stamp, was handed over again only by a pass whose clock
was a retry interval past that stamp. -/
theorem resent_paced (N : Nodes) (hne : N.keyA ≠ N.keyB) (moves : List Move)
    {pre post : List Sending} {s : Sending} {t : Int64} (h : sendings N moves = pre ++ s :: post)
    (hlast : lastStamp pre s.seq = some t) (hpos : 0 < t) :
    Daemon.staleMs N.cfgA ≤ unixMilli s.now - t := by
  have hdue := run_stamped hne moves pre s post h
  rw [hlast] at hdue
  simp only [Daemon.stampDue, Option.all_some, Bool.or_eq_true, decide_eq_true_eq] at hdue
  exact hdue.resolve_left (not_le.2 hpos)

/-- A pass, a pass twenty seconds later and one after forty seconds. -/
theorem resent_paced_forty :
    let N : Nodes := ⟨List.replicate 32 1, List.replicate 32 2, ⟨10, 0, 30000000000, 0, 65555⟩,
      ⟨10, 0, 30000000000, 0, 65555⟩⟩
    let pass : ℤ → List Move := fun now =>
      [.act .a (.startFlush now N.keyB), .act .a (.flushNext 0 now), .act .a (.flushNext 0 now)]
    let moves : List Move := [.act .a (.beginSend false N.keyB [104]), .act .a (.finishSend 0 0)]
      ++ pass 1000000000 ++ pass 21000000000 ++ pass 41000000000
    sendings N moves = [⟨1, 1000000000, 1000000000⟩, ⟨1, 41000000000, 41000000000⟩]
      ∧ Daemon.staleMs N.cfgA ≤ unixMilli 41000000000 - 1000 := by
  intro N pass moves
  have hsent : sendings N moves
      = [⟨1, 1000000000, 1000000000⟩, ⟨1, 41000000000, 41000000000⟩] := by decide +kernel
  exact ⟨hsent, @resent_paced N (by decide) moves [⟨1, 1000000000, 1000000000⟩] []
    ⟨1, 41000000000, 41000000000⟩ 1000 hsent (by decide) (by decide)⟩

end World

end Aimless
