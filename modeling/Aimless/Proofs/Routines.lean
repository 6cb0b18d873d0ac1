import Aimless.Multiplex
import Aimless.Routines
import Aimless.Lib.Ranked
import Aimless.Proofs.Isolation

/-!
# A routine that nothing interrupts

Run without interruption, everything from outside being the same throughout, a routine does what
the function of `Daemon` under its name does (`does_dispatch`, `does_handlePacket`).  Interrupted or
not, what it answers fits its request (`dispatch_answers`), and a request that one section settles
is answered as in the state that this section found (`dispatch_decided`).
-/

namespace Aimless

/-- The requests that one section settles. -/
def Request.settled : Request → Bool
  | .whoami | .status | .pendingattachments _ | .fetchattachment _ _ | .ackfile _ _ | .block _
  | .unblock _ | .blocklist | .missing | .unknown _ => true
  | _ => false

namespace Routine

open Thread

variable {α : Type} (C : Config) (o : Outside) (s : Shared)

@[simp] theorem run_locked (f : Outside → Daemon → α × Daemon) :
    (locked f).run o s = ((f o s.daemon).1, { s with daemon := (f o s.daemon).2 }) := rfl

@[simp] theorem run_query (f : Daemon → α) : (query f).run o s = (f s.daemon, s) := rfl

@[simp] theorem run_update (f : Outside → Daemon → Daemon) :
    (update f).run o s = ((), { s with daemon := f o s.daemon }) := rfl

@[simp] theorem run_isBlocked (pub : PublicKey) :
    (isBlocked pub).run o s = (s.daemon.isBlocked pub, s) := rfl

@[simp] theorem run_boxFor (peer : PublicKey) :
    (boxFor peer).run o s = ((), { s with daemon := s.daemon.boxFor peer }) := rfl

theorem run_replaceFile (f : FileName) (keys : List PublicKey) :
    (replaceFile f keys).run o s =
      if o.persisted then
        (.ok (), { daemon := s.daemon.replaced keys f, tmp := Function.update s.tmp f none })
      else (.error .persist, s) := by
  unfold replaceFile writeTmp rename
  by_cases hp : o.persisted
  · simp [hp]
  · simp [hp]

/-- Without interruption the routine does to the daemon what `f` does. -/
def Does (t : Routine α) (f : Outside → Daemon → α × Daemon) : Prop :=
  ∀ o s, ((t.run o s).1, (t.run o s).2.daemon) = f o s.daemon

variable {C}

theorem Does.run_bind {β : Type} {t : Routine α} {k : α → Routine β}
    {f : Outside → Daemon → α × Daemon} (ht : Does t f) (o : Outside) (s : Shared) {r : β × Daemon}
    (hk : ∀ a s', f o s.daemon = (a, s'.daemon) →
      (((k a).run o s').1, ((k a).run o s').2.daemon) = r) :
    (((t >>= k).run o s).1, ((t >>= k).run o s).2.daemon) = r := by
  rw [Thread.run_bind]
  exact hk _ _ (ht o s).symm

theorem Does.bind {β : Type} {t : Routine α} {k : α → Routine β}
    {f : Outside → Daemon → α × Daemon} {g : Outside → Daemon → β × Daemon} (ht : Does t f)
    (hk : ∀ o d a s, f o d = (a, s.daemon) → (((k a).run o s).1, ((k a).run o s).2.daemon) = g o d) :
    Does (t >>= k) g := fun o s => ht.run_bind o s fun a s' h => hk o _ a s' h

theorem does_pure (a : α) : Does (pure a) fun _ d => (a, d) := fun _ _ => rfl

theorem does_isBlocked (pub : PublicKey) :
    Does (isBlocked pub) fun _ d => (d.isBlocked pub, d) := fun _ _ => rfl

theorem does_sendAs (typ : EnvelopeType) (dest : PublicKey) (payload : Bytes) :
    Does (sendAs typ dest payload) fun o d => d.sendAs typ o.now dest payload := by
  intro o s
  unfold sendAs Daemon.sendAs Daemon.beginSend
  by_cases hb : s.daemon.isBlocked dest
  · simp [hb]
  · simp only [run_bind, run_isBlocked, hb, Bool.false_eq_true, if_false, run_boxFor, nextSeq,
      run_locked]
    rcases OutboxJournal.nextSeq (s.daemon.boxFor dest).db dest with ⟨_ | seq, db⟩
    · rfl
    · rfl

theorem does_history (peer : PublicKey) (afterSeq : UInt64) :
    Does (history C peer afterSeq) fun _ d => d.history C peer afterSeq := by
  intro o s
  simp only [history, run_bind, run_boxFor, run_query, run_pure, Daemon.history, Daemon.boxFor_db]

theorem does_pendingAttachments (peer : PublicKey) :
    Does (pendingAttachments C peer) fun _ d => d.pendingAttachments C peer := by
  intro o s
  simp only [pendingAttachments, run_bind, run_boxFor, run_query, Daemon.pendingAttachments,
    Daemon.boxFor_db]

theorem does_fetchAttachment (peer : PublicKey) (tid : Text) :
    Does (fetchAttachment C peer tid) fun _ d => d.fetchAttachment C peer tid := by
  intro o s
  simp only [fetchAttachment, run_bind, run_boxFor, run_query, Daemon.fetchAttachment,
    Daemon.boxFor_db]

theorem does_ackAttachment (peer : PublicKey) (tid : Text) :
    Does (ackAttachment C peer tid) fun _ d => ((), d.ackAttachment C peer tid) := by
  intro o s
  simp only [ackAttachment, run_bind, run_boxFor, run_update, Daemon.ackAttachment,
    Daemon.boxFor_db]

theorem does_watch (pub : PublicKey) :
    Does (watch pub) fun o d => d.watch o.persisted pub := by
  intro o s
  unfold watch Daemon.watch
  by_cases hb : s.daemon.isBlocked pub
  · simp [hb]
  by_cases hmem : pub ∈ (s.daemon.boxFor pub).contactsFile
  · simp [hb, hmem, presenceWatch]
  by_cases hp : o.persisted
  · simp [hb, hmem, run_replaceFile, hp, Daemon.replaced, presenceWatch]
  · simp [hb, hmem, run_replaceFile, hp]

theorem does_changeBlocked (f : Daemon → Option (List PublicKey)) :
    Does (changeBlocked f) fun o d =>
      match f d with
      | none => (.ok (), d)
      | some blocked => Daemon.persistBlocked o.persisted { d with blocked } := by
  intro o s
  unfold changeBlocked Daemon.persistBlocked
  simp only [run_bind, run_locked]
  rcases f s.daemon with _ | blocked
  · rfl
  · dsimp only
    by_cases hp : o.persisted
    · simp [run_replaceFile, hp, Daemon.replaced]
    · simp [run_replaceFile, hp]

theorem does_block (pub : PublicKey) :
    Does (block pub) fun o d => d.block o.persisted pub := by
  intro o s
  refine (does_changeBlocked _ o s).trans ?_
  by_cases hmem : pub ∈ s.daemon.blocked
  · simp [Daemon.block, Daemon.isBlocked, hmem]
  · simp [Daemon.block, Daemon.isBlocked, hmem]

theorem does_unblock (pub : PublicKey) :
    Does (unblock pub) fun o d => d.unblock o.persisted pub := by
  intro o s
  refine (does_changeBlocked _ o s).trans ?_
  by_cases hmem : pub ∈ s.daemon.blocked
  · simp [Daemon.unblock, Daemon.isBlocked, hmem]
  · simp [Daemon.unblock, Daemon.isBlocked, hmem]

theorem does_setStatus (pub : PublicKey) (payload : Bytes) :
    Does (setStatus C pub payload) fun o d => d.setStatus C o.now pub payload := fun _ _ => rfl

theorem run_unblocked (o : Outside) (s : Shared) : ∀ entries : List Daemon.PresenceEntry,
    (unblocked entries).run o s = (entries.filter fun e => ¬ s.daemon.isBlocked e.key, s)
  | [] => rfl
  | e :: entries => by
    simp only [unblocked, run_bind, run_isBlocked, run_unblocked o s entries, run_pure]
    by_cases hb : s.daemon.isBlocked e.key
    · simp [hb]
    · simp [hb]

theorem insertionSort_eq_ranked (l : List Daemon.PresenceEntry) :
    l.insertionSort (fun a b => ¬ Hex.encode b.key < Hex.encode a.key)
      = Ranked.ranked (fun e => Hex.encode e.key) l := by
  simp only [not_lt]
  rfl

/-- The order in which the peers are looked up does not show. -/
theorem does_snapshot : Does (snapshot C) fun o d => (d.snapshot C o.now, d) := by
  intro o s
  simp only [snapshot, run_bind, run_locked, run_unblocked, run_pure, Prod.mk.injEq, and_true,
    Daemon.snapshot, insertionSort_eq_ranked]
  have hkeyed : Ranked.Keyed (fun e : Daemon.PresenceEntry => Hex.encode e.key)
      ((s.daemon.peers.entries.filter fun e => ¬ s.daemon.isBlocked e.1).map
        fun e => Daemon.presenceEntry C o.now e.1 e.2) := by
    have hnodup : (s.daemon.peers.entries.map Sigma.fst).Nodup := s.daemon.peers.nodupKeys
    intro a ha b hb hab
    obtain ⟨e, he, rfl⟩ := List.mem_map.1 ha
    obtain ⟨e', he', rfl⟩ := List.mem_map.1 hb
    rw [List.inj_on_of_nodup_map hnodup (List.mem_of_mem_filter he) (List.mem_of_mem_filter he')
      (Hex.encode_injective hab)]
  refine Ranked.ranked_congr hkeyed ?_
  rw [List.filter_map]
  exact ((List.perm_insertionSort _ _).filter _).map _

/-! ### Requests -/

theorem does_handleSend (typ : EnvelopeType) (dest payload : Text) :
    Does (handleSend typ dest payload) fun o d => d.handleSend o.now typ dest payload := by
  unfold handleSend Daemon.handleSend
  rcases decodeKey dest with e | key
  · exact does_pure _
  rcases Base64.decode payload with _ | bytes
  · exact does_pure _
  refine (does_sendAs typ key bytes).bind fun o d r s h => ?_
  dsimp only
  rw [h]
  cases r <;> rfl

theorem does_handleHistory (sender : Text) (seq : UInt64) :
    Does (handleHistory C sender seq) fun _ d => d.handleHistory C sender seq := by
  unfold handleHistory Daemon.handleHistory
  rcases decodeKey sender with e | key
  · exact does_pure _
  refine (does_history key seq).bind fun o d r s h => ?_
  dsimp only
  rw [h]
  rfl

theorem does_handlePendingAttachments (sender : Text) :
    Does (handlePendingAttachments C sender) fun _ d => d.handlePendingAttachments C sender := by
  unfold handlePendingAttachments Daemon.handlePendingAttachments
  rcases decodeFromKey sender with e | key
  · exact does_pure _
  refine (does_pendingAttachments key).bind fun o d r s h => ?_
  dsimp only
  rw [h]
  rfl

theorem does_handleFetchAttachment (sender tid : Text) :
    Does (handleFetchAttachment C sender tid)
      fun _ d => d.handleFetchAttachment C sender tid := by
  unfold handleFetchAttachment Daemon.handleFetchAttachment
  rcases decodeFromKey sender with e | key
  · exact does_pure _
  dsimp only
  split_ifs
  · exact does_pure _
  refine (does_fetchAttachment key tid).bind fun o d r s h => ?_
  rw [h]
  rfl

theorem does_handleAckFile (sender tid : Text) :
    Does (handleAckFile C sender tid) fun _ d => d.handleAckFile C sender tid := by
  unfold handleAckFile Daemon.handleAckFile
  rcases decodeFromKey sender with e | key
  · exact does_pure _
  dsimp only
  split_ifs
  · exact does_pure _
  refine (does_ackAttachment key tid).bind fun o d r s h => ?_
  exact congrArg (Reply.ackfile sender tid, ·) (Prod.mk.inj h).2.symm

theorem does_handleWatch (dest : Text) :
    Does (handleWatch dest) fun o d => d.handleWatch o.persisted dest := by
  unfold handleWatch Daemon.handleWatch
  rcases decodeKey dest with e | key
  · exact does_pure _
  refine (does_watch key).bind fun o d r s h => ?_
  dsimp only
  rw [h]
  rcases r with e | ⟨⟩ <;> rfl

theorem does_handleSetStatus (dest payload : Text) :
    Does (handleSetStatus C dest payload) fun o d => d.handleSetStatus C o.now dest payload := by
  unfold handleSetStatus Daemon.handleSetStatus
  rcases decodeKey dest with e | key
  · exact does_pure _
  refine (does_isBlocked key).bind fun o d blocked s h => ?_
  obtain ⟨rfl, rfl⟩ := Prod.mk.inj h
  dsimp only
  split_ifs
  · rfl
  rcases Base64.decode payload with _ | bytes
  · rfl
  refine (does_setStatus key bytes).run_bind o s fun r s' h' => ?_
  dsimp only
  rw [h']
  cases r <;> rfl

theorem does_handleBlock (dest : Text) (isBlock : Bool) :
    Does (handleBlock dest isBlock) fun o d => d.handleBlock o.persisted dest isBlock := by
  unfold handleBlock Daemon.handleBlock
  rcases decodeKey dest with e | key
  · exact does_pure _
  cases isBlock
  · refine (does_unblock key).bind fun o d r s h => ?_
    dsimp only
    rw [if_neg Bool.false_ne_true, h]
    rcases r with e | ⟨⟩ <;> rfl
  · refine (does_block key).bind fun o d r s h => ?_
    dsimp only
    rw [if_pos rfl, h]
    rcases r with e | ⟨⟩ <;> rfl

/-- A request that is executed without interruption is answered as `dispatch` answers it. -/
theorem does_dispatch (req : Request) :
    Does (dispatch C req) fun o d => d.dispatch C o.now o.persisted req := by
  intro o s
  unfold dispatch Daemon.dispatch
  rw [Thread.run_bind, run_update]
  cases req with
  | whoami | status | missing | unknown => rfl
  | send dest payload => exact does_handleSend typeMsg dest payload o _
  | sendfile dest payload => exact does_handleSend typeFile dest payload o _
  | history sender seq => exact does_handleHistory sender seq o _
  | pendingattachments sender => exact does_handlePendingAttachments sender o _
  | fetchattachment sender tid => exact does_handleFetchAttachment sender tid o _
  | ackfile sender tid => exact does_handleAckFile sender tid o _
  | watch dest => exact does_handleWatch dest o _
  | setstatus dest payload => exact does_handleSetStatus dest payload o _
  | block dest => exact does_handleBlock dest true o _
  | unblock dest => exact does_handleBlock dest false o _
  | blocklist => rfl
  | presence =>
    refine does_snapshot.run_bind o _ fun r s' h => ?_
    obtain ⟨rfl, hd⟩ := Prod.mk.inj h
    exact congrArg (Reply.presence _, ·) hd.symm

/-! ### Packets -/

theorem does_handlePacket (sender : PublicKey) (data : Bytes) :
    Does (handlePacket C sender data) fun o d => (d.handlePacket C o.now sender data).swap := by
  unfold handlePacket Daemon.handlePacket
  refine (does_isBlocked sender).bind fun o d blocked s h => ?_
  obtain ⟨rfl, rfl⟩ := Prod.mk.inj h
  dsimp only
  split_ifs
  · rfl
  rcases decodeEnvelope data with e | env
  · rfl
  dsimp only
  rw [Thread.run_bind, run_boxFor]
  dsimp only
  generalize s.daemon.boxFor sender = d
  by_cases hfile : env.type = typeFile
  · simp only [if_pos hfile]
    rcases parseFileHeader env.payload with _ | ⟨tid, index, total⟩
    · rfl
    · dsimp only
      rw [Thread.run_bind, addChunk, run_locked]
      rcases (Daemon.attachStore C sender).add d.db tid index total env.seq env.ts env.payload
        with _ | ⟨isNew, db⟩ <;> rfl
  by_cases hmsg : env.type = typeMsg
  · simp only [if_neg hfile, if_pos hmsg]
    rfl
  by_cases hack : env.type = typeAck
  · simp only [if_neg hfile, if_neg hmsg, if_pos hack]
    rfl
  by_cases hprobe : env.type = typeProbe
  · simp only [if_neg hfile, if_neg hmsg, if_neg hack, if_pos hprobe]
    rfl
  by_cases hstatus : env.type = typeStatus
  · simp only [if_neg hfile, if_neg hmsg, if_neg hack, if_neg hprobe, if_pos hstatus]
    rfl
  · simp only [if_neg hfile, if_neg hmsg, if_neg hack, if_neg hprobe, if_neg hstatus]
    rfl

/-! ### What a handler answers -/

variable (C)

/-- Interrupted or not, a handler ends with the success of its request or with an error. -/
def Answers (op : String) (t : Routine Reply) : Prop :=
  t.Returns fun r => r.op = op ∨ r.op = "error"

variable {op : String}

theorem answers_success {r : Reply} (h : r.op = op) : Answers op (pure r) := returns_pure (.inl h)

theorem answers_error (e : ApiError) : Answers op (pure (.error e)) := returns_pure (.inr rfl)

theorem handleSend_answers (typ : EnvelopeType) (dest payload : Text) :
    Answers "queued" (handleSend typ dest payload) := by
  unfold handleSend
  rcases decodeKey dest with e | key
  · exact answers_error e
  rcases Base64.decode payload with _ | bytes
  · exact answers_error _
  refine returns_bind fun r => ?_
  rcases r with e | seq
  · exact answers_error _
  · exact answers_success rfl

theorem handleHistory_answers (sender : Text) (seq : UInt64) :
    Answers "history" (handleHistory C sender seq) := by
  unfold handleHistory
  rcases decodeKey sender with e | key
  · exact answers_error e
  · exact returns_bind fun h => answers_success rfl

theorem handlePendingAttachments_answers (sender : Text) :
    Answers "pendingattachments" (handlePendingAttachments C sender) := by
  unfold handlePendingAttachments
  rcases decodeFromKey sender with e | key
  · exact answers_error e
  · exact returns_bind fun transfers => answers_success rfl

theorem handleFetchAttachment_answers (sender tid : Text) :
    Answers "fetchattachment" (handleFetchAttachment C sender tid) := by
  unfold handleFetchAttachment
  rcases decodeFromKey sender with e | key
  · exact answers_error e
  dsimp only
  split_ifs
  · exact answers_error _
  · exact returns_bind fun chunks => answers_success rfl

theorem handleAckFile_answers (sender tid : Text) :
    Answers "ackfile" (handleAckFile C sender tid) := by
  unfold handleAckFile
  rcases decodeFromKey sender with e | key
  · exact answers_error e
  dsimp only
  split_ifs
  · exact answers_error _
  · exact returns_bind fun _ => answers_success rfl

theorem handleWatch_answers (dest : Text) : Answers "watching" (handleWatch dest) := by
  unfold handleWatch
  rcases decodeKey dest with e | key
  · exact answers_error e
  refine returns_bind fun r => ?_
  rcases r with e | ⟨⟩
  · exact answers_error _
  · exact answers_success rfl

theorem handleSetStatus_answers (dest payload : Text) :
    Answers "statusset" (handleSetStatus C dest payload) := by
  unfold handleSetStatus
  rcases decodeKey dest with e | key
  · exact answers_error e
  refine returns_bind fun blocked => ?_
  split_ifs
  · exact answers_error _
  rcases Base64.decode payload with _ | bytes
  · exact answers_error _
  refine returns_bind fun r => ?_
  rcases r with e | seq
  · exact answers_error _
  · exact answers_success rfl

theorem handleBlock_answers (dest : Text) (isBlock : Bool) :
    Answers (if isBlock then "blocked" else "unblocked") (handleBlock dest isBlock) := by
  unfold handleBlock
  rcases decodeKey dest with e | key
  · exact answers_error e
  cases isBlock
  all_goals
    refine returns_bind fun r => ?_
    rcases r with e | ⟨⟩
    · exact answers_error _
    · exact answers_success rfl

theorem dispatch_answers (req : Request) : Answers req.successOp (dispatch C req) := by
  refine returns_bind fun _ => ?_
  cases req with
  | whoami | status => exact answers_success rfl
  | send dest payload => exact handleSend_answers typeMsg dest payload
  | sendfile dest payload => exact handleSend_answers typeFile dest payload
  | history sender seq => exact handleHistory_answers C sender seq
  | pendingattachments sender => exact handlePendingAttachments_answers C sender
  | fetchattachment sender tid => exact handleFetchAttachment_answers C sender tid
  | ackfile sender tid => exact handleAckFile_answers C sender tid
  | presence | blocklist => exact returns_bind fun _ => answers_success rfl
  | watch dest => exact handleWatch_answers dest
  | setstatus dest payload => exact handleSetStatus_answers C dest payload
  | block dest => exact handleBlock_answers dest true
  | unblock dest => exact handleBlock_answers dest false
  | missing | unknown => exact answers_error _

/-- The daemon in this state answers so, with the files writable or not. -/
def AnsweredIn (C : Config) (req : Request) (o : Outside) (s : Shared) (r : Reply) : Prop :=
  ∃ persisted, (s.daemon.dispatch C o.now persisted req).1 = r

theorem replaceFile_returns (f : FileName) (keys : List PublicKey) {Q : Except MailError Unit → Prop}
    (hok : Q (.ok ())) (hfailed : Q (.error .persist)) : (replaceFile f keys).Returns Q := by
  refine returns_bind fun written => ?_
  split_ifs
  · refine returns_bind fun renamed => ?_
    split_ifs
    · exact returns_pure hok
    · exact returns_pure hfailed
  · exact returns_pure hfailed

/-- A change of the block list is settled under the lock, but for the writing of the file. -/
theorem changeBlocked_decided (f : Daemon → Option (List PublicKey)) :
    (changeBlocked f).Decided fun o s r =>
      ∃ persisted, ((changeBlocked f).run { o with persisted } s).1 = r := by
  refine decided_here fun o s => ?_
  dsimp only
  rcases hf : f s.daemon with _ | blocked
  · exact returns_pure ⟨true, by simp [changeBlocked, hf]⟩
  · refine replaceFile_returns .blocked blocked ⟨true, ?_⟩ ⟨false, ?_⟩
    · simp [changeBlocked, hf, run_replaceFile]
    · simp [changeBlocked, hf, run_replaceFile]

theorem handleBlock_decided (dest : Text) {key : PublicKey} (isBlock : Bool)
    (hkey : decodeKey dest = .ok key) :
    (handleBlock dest isBlock).Decided fun _ s r =>
      ∃ persisted, (s.daemon.handleBlock persisted dest isBlock).1 = r := by
  simp only [handleBlock, Daemon.handleBlock, hkey]
  cases isBlock
  · refine (changeBlocked_decided _).bind fun o s r hsettled => ?_
    obtain ⟨persisted, hr⟩ := hsettled
    have hdoes := congrArg Prod.fst (does_unblock key { o with persisted } s)
    obtain rfl : (s.daemon.unblock persisted key).1 = r := hdoes.symm.trans hr
    rcases h : s.daemon.unblock persisted key with ⟨_ | ⟨⟩, d⟩
    · exact returns_pure ⟨persisted, by simp [h]⟩
    · exact returns_pure ⟨persisted, by simp [h]⟩
  · refine (changeBlocked_decided _).bind fun o s r hsettled => ?_
    obtain ⟨persisted, hr⟩ := hsettled
    have hdoes := congrArg Prod.fst (does_block key { o with persisted } s)
    obtain rfl : (s.daemon.block persisted key).1 = r := hdoes.symm.trans hr
    rcases h : s.daemon.block persisted key with ⟨_ | ⟨⟩, d⟩
    · exact returns_pure ⟨persisted, by simp [h]⟩
    · exact returns_pure ⟨persisted, by simp [h]⟩

/-- That the client was seen does not matter to the block list. -/
theorem handleBlock_touchClient (now : ℤ) (persisted : Bool) (d : Daemon) (dest : Text)
    (isBlock : Bool) : ((d.touchClient now).handleBlock persisted dest isBlock).1
      = (d.handleBlock persisted dest isBlock).1 := by
  unfold Daemon.handleBlock
  rcases decodeKey dest with e | key
  · rfl
  by_cases hmem : key ∈ d.blocked
  · cases isBlock <;> cases persisted <;>
      simp [Daemon.block, Daemon.unblock, Daemon.persistBlocked, Daemon.touchClient, hmem]
  · cases isBlock <;> cases persisted <;>
      simp [Daemon.block, Daemon.unblock, Daemon.persistBlocked, Daemon.touchClient, hmem]

/-- A handler that refuses its request runs no section. -/
theorem refused_decided {req : Request} {handler : Routine Reply} {e : ApiError}
    (hhandler : handler = pure (.error e))
    (h : ∀ (o : Outside) (d : Daemon), (d.dispatch C o.now true req).1 = .error e) :
    (update (fun o d => d.touchClient o.now) >>= fun _ => handler).Decided (AnsweredIn C req) := by
  rw [hhandler]
  exact fun o s => .inl ⟨true, h o s.daemon⟩

theorem pendingAttachments_decided (sender : Text) :
    (dispatch C (.pendingattachments sender)).Decided
      (AnsweredIn C (.pendingattachments sender)) := by
  rcases hkey : decodeFromKey sender with e | key
  · refine refused_decided C (e := e) (by simp only [handlePendingAttachments, hkey]) fun o d => ?_
    simp only [Daemon.dispatch, Daemon.handlePendingAttachments, hkey]
  · refine decided_later fun _ => ?_
    simp only [handlePendingAttachments, hkey, pendingAttachments, Thread.bind_assoc]
    refine decided_later fun _ => decided_here fun o s => ⟨true, ?_⟩
    simp only [Daemon.dispatch, Daemon.handlePendingAttachments, hkey]
    rfl

theorem fetchAttachment_decided (sender tid : Text) :
    (dispatch C (.fetchattachment sender tid)).Decided
      (AnsweredIn C (.fetchattachment sender tid)) := by
  rcases hkey : decodeFromKey sender with e | key
  · refine refused_decided C (e := e) (by simp only [handleFetchAttachment, hkey]) fun o d => ?_
    simp only [Daemon.dispatch, Daemon.handleFetchAttachment, hkey]
  by_cases htid : tid = []
  · refine refused_decided C (e := .missingTid)
      (by simp only [handleFetchAttachment, hkey, if_pos htid]) fun o d => ?_
    simp only [Daemon.dispatch, Daemon.handleFetchAttachment, hkey, if_pos htid]
  · refine decided_later fun _ => ?_
    simp only [handleFetchAttachment, hkey, if_neg htid, fetchAttachment, Thread.bind_assoc]
    refine decided_later fun _ => decided_here fun o s => ⟨true, ?_⟩
    simp only [Daemon.dispatch, Daemon.handleFetchAttachment, hkey, if_neg htid]
    rfl

theorem ackFile_decided (sender tid : Text) :
    (dispatch C (.ackfile sender tid)).Decided (AnsweredIn C (.ackfile sender tid)) := by
  rcases hkey : decodeFromKey sender with e | key
  · refine refused_decided C (e := e) (by simp only [handleAckFile, hkey]) fun o d => ?_
    simp only [Daemon.dispatch, Daemon.handleAckFile, hkey]
  by_cases htid : tid = []
  · refine refused_decided C (e := .missingTid)
      (by simp only [handleAckFile, hkey, if_pos htid]) fun o d => ?_
    simp only [Daemon.dispatch, Daemon.handleAckFile, hkey, if_pos htid]
  · refine decided_here fun o s => ?_
    simp only [handleAckFile, hkey, if_neg htid]
    refine returns_bind fun _ => ⟨true, ?_⟩
    simp only [Daemon.dispatch, Daemon.handleAckFile, hkey, if_neg htid]

/-- Where one section settles a request, it is answered as in the state that this section found. -/
theorem dispatch_decided {req : Request} (hreq : req.settled) :
    (dispatch C req).Decided (AnsweredIn C req) := by
  cases req with
  | whoami | status | missing | unknown => exact fun _ _ => .inl ⟨true, rfl⟩
  | blocklist => exact fun _ _ => .inr fun _ _ => .inl ⟨true, rfl⟩
  | pendingattachments sender => exact pendingAttachments_decided C sender
  | fetchattachment sender tid => exact fetchAttachment_decided C sender tid
  | ackfile sender tid => exact ackFile_decided C sender tid
  | block dest =>
    rcases hkey : decodeKey dest with e | key
    · refine refused_decided C (e := e) (by simp only [handleBlock, hkey]) fun o d => ?_
      simp only [Daemon.dispatch, Daemon.handleBlock, hkey]
    · refine decided_later fun _ => (handleBlock_decided dest true hkey).mono fun _ _ _ h => ?_
      obtain ⟨persisted, hr⟩ := h
      exact ⟨persisted, (handleBlock_touchClient ..).trans hr⟩
  | unblock dest =>
    rcases hkey : decodeKey dest with e | key
    · refine refused_decided C (e := e) (by simp only [handleBlock, hkey]) fun o d => ?_
      simp only [Daemon.dispatch, Daemon.handleBlock, hkey]
    · refine decided_later fun _ => (handleBlock_decided dest false hkey).mono fun _ _ _ h => ?_
      obtain ⟨persisted, hr⟩ := h
      exact ⟨persisted, (handleBlock_touchClient ..).trans hr⟩
  | _ => cases hreq

end Routine

/-- The daemon of `api.go` answers as `Talk.answer` has it. -/
theorem Daemon.dispatch_successOp (C : Config) (d : Daemon) (now : ℤ) (persisted : Bool)
    (req : Request) : (d.dispatch C now persisted req).1.op = req.successOp
      ∨ (d.dispatch C now persisted req).1.op = "error" := by
  have hdoes := Routine.does_dispatch (C := C) req ⟨now, persisted, []⟩ { daemon := d }
  rw [← congrArg Prod.fst hdoes]
  exact (Routine.dispatch_answers C req).run _ _

end Aimless
