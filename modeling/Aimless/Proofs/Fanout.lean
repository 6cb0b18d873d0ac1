import Aimless.Fanout
import Aimless.Proofs.Isolation
import Aimless.Proofs.DaemonClient

/-!
# When a room send is all or nothing

The loop of a fan-out queues a row for a member before it comes to the next one.  So it is all or
nothing exactly when it stops at the first member, or nobody is refused and no node is listed
twice: who is refused can be read off the daemon as it was before the call, since a row for one
peer changes nothing for another.
-/

namespace Aimless

open Python (Str Exc Json)

namespace Daemon

variable {C : Config} {d : Daemon} {fault : Option SendFault} {typ : EnvelopeType} {now : ℤ}
  {dest payload : Text} {bytes : Bytes}

theorem sendOrFail_none (d : Daemon) (typ : EnvelopeType) (now : ℤ) (key : PublicKey)
    (bytes : Bytes) : d.sendOrFail none typ now key bytes = d.sendAs typ now key bytes := by
  unfold sendOrFail sendAs
  rcases d.beginSend key with ⟨_ | _, _⟩ <;> rfl

/-- Where the database does not fail, `answerSend` is what `dispatch` does. -/
theorem answerSend_none (persisted : Bool) (dest payload : Text) :
    d.answerSend none typeMsg now dest payload = d.dispatch C now persisted (.send dest payload)
      ∧ d.answerSend none typeFile now dest payload =
        d.dispatch C now persisted (.sendfile dest payload) := by
  unfold answerSend
  simp only [sendOrFail_none]
  exact ⟨rfl, rfl⟩

/-- Why a send is refused: the key does not decode, its owner is blocked, its counter is at its end,
or the database fails. -/
def RefusesSend (d : Daemon) (fault : Option SendFault) (dest : Text) : Prop :=
  ∀ key, decodeKey dest = .ok key →
    key ∈ d.blocked ∨ 2 ^ 63 ≤ OutboxJournal.counter d.db key ∨ fault ≠ none

theorem beginSend_iff (d : Daemon) (dest : PublicKey) :
    (∃ seq d', d.beginSend dest = (.ok seq, d')) ↔
      dest ∉ d.blocked ∧ OutboxJournal.counter d.db dest < 2 ^ 63 := by
  have hnext : (OutboxJournal.nextSeq d.db dest).1.isSome ↔
      OutboxJournal.counter d.db dest < 2 ^ 63 := by
    constructor
    · intro h
      obtain ⟨seq, hseq⟩ := Option.isSome_iff_exists.1 h
      exact (OutboxJournal.nextSeq_some hseq).1
    · intro h
      unfold OutboxJournal.nextSeq
      dsimp only
      split
      · rfl
      · rename_i hn
        exact absurd h hn
  unfold beginSend isBlocked
  by_cases hb : dest ∈ d.blocked
  · simp [hb]
  · simp only [hb, decide_false, Bool.false_eq_true, if_false, not_false_eq_true, true_and,
      d.boxFor_db, ← hnext]
    rcases OutboxJournal.nextSeq d.db dest with ⟨_ | seq, db⟩ <;> simp

variable (typ now) in
theorem sendOrFail_refused {key : PublicKey} (h : key ∈ d.blocked ∨
    2 ^ 63 ≤ OutboxJournal.counter d.db key ∨ fault ≠ none) (bytes : Bytes) :
    ∃ e d', d.sendOrFail fault typ now key bytes = (.error e, d')
      ∧ d'.db.outbox = d.db.outbox := by
  unfold sendOrFail
  rcases hbegin : d.beginSend key with ⟨e | seq, d'⟩
  · exact ⟨e, d', rfl, (Party.beginSend_keeps hbegin).outbox⟩
  · obtain ⟨hblocked, hcount⟩ := (d.beginSend_iff key).1 ⟨seq, d', hbegin⟩
    obtain ⟨-, hd', -⟩ := beginSend_ok hbegin
    obtain ⟨rows, hrows⟩ := OutboxJournal.nextSeq_outboxSeq d.db key
    cases fault with
    | none =>
      rcases h with h | h | h
      · exact absurd h hblocked
      · omega
      · exact absurd rfl h
    | some f =>
      cases f with
      | nextSeq => exact ⟨_, _, rfl, congrArg DB.outbox (d.boxFor_db key)⟩
      | queue =>
        refine ⟨_, _, rfl, ?_⟩
        rw [hd']
        simp only [hrows]

variable (typ now payload) in
/-- A send that is refused leaves the outbox. -/
theorem answerSend_refused (h : d.RefusesSend fault dest) :
    (∃ e, replySeq (d.answerSend fault typ now dest payload).1 = .error e)
      ∧ (d.answerSend fault typ now dest payload).2.db.outbox = d.db.outbox := by
  unfold answerSend
  dsimp only
  split
  · exact ⟨⟨_, rfl⟩, rfl⟩
  · rename_i key hkey
    split
    · exact ⟨⟨_, rfl⟩, rfl⟩
    · obtain ⟨e, d', hrun, hout⟩ := (d.touchClient now).sendOrFail_refused typ now
        (h key hkey) ‹Bytes›
      rw [hrun]
      exact ⟨⟨_, rfl⟩, hout⟩

variable (typ now) in
/-- A send that is not refused queues one row, for the peer it names, and changes nothing for
another peer. -/
theorem answerSend_queued (hd : d.Numbered) (h : ¬d.RefusesSend fault dest)
    (hpay : Base64.decode payload = some bytes) :
    ∃ key seq row, decodeKey dest = .ok key
      ∧ replySeq (d.answerSend fault typ now dest payload).1 = .ok seq
      ∧ (row.peer = key ∧ row.type = typ ∧ row.payload = bytes)
      ∧ (d.answerSend fault typ now dest payload).2.db.outbox = d.db.outbox ++ [row]
      ∧ (d.answerSend fault typ now dest payload).2.Numbered
      ∧ (d.answerSend fault typ now dest payload).2.blocked = d.blocked
      ∧ OutboxJournal.counter (d.answerSend fault typ now dest payload).2.db key
        = OutboxJournal.counter d.db key + 1
      ∧ ∀ q, q ≠ key → OutboxJournal.counter (d.answerSend fault typ now dest payload).2.db q
        = OutboxJournal.counter d.db q := by
  simp only [RefusesSend, not_forall, not_or, not_le, not_not] at h
  obtain ⟨key, hkey, hblocked, hcount, rfl⟩ := h
  have hnum : (d.touchClient now).Numbered := hd
  have honly := (d.touchClient now).sendAs_only now key typ bytes
  obtain ⟨seq₀, d₀, hbegin⟩ := ((d.touchClient now).beginSend_iff key).2 ⟨hblocked, hcount⟩
  obtain ⟨hn, ⟨⟨e, he⟩, -⟩ | ⟨⟨seq, hs⟩, row, -, hrow, hout⟩⟩ := hnum.sendAs typ now key bytes
  · unfold sendAs at he
    rw [hbegin] at he
    cases he
  · have hrun : d.answerSend none typ now dest payload =
        (.queued dest seq bytes.length, ((d.touchClient now).sendAs typ now key bytes).2) := by
      unfold answerSend
      simp only [hkey, hpay, sendOrFail_none]
      rcases hr : (d.touchClient now).sendAs typ now key bytes with ⟨_ | s, d'⟩ <;> rw [hr] at hs
      · cases hs
      · cases hs
        rfl
    have hcounter : OutboxJournal.counter ((d.touchClient now).sendAs typ now key bytes).2.db key
        = OutboxJournal.counter d.db key + 1 := by
      obtain ⟨hnext, hd₀, -⟩ := beginSend_ok hbegin
      unfold sendAs
      rw [hbegin, hd₀]
      exact (OutboxJournal.nextSeq_some hnext).2.2
    rw [hrun]
    exact ⟨key, seq, row, hkey, rfl, hrow, hout, hn, honly.blocked.1, hcounter, fun q hq =>
      OutboxJournal.counter_eq (honly.db q hq).outboxSeq⟩

end Daemon

section Loop

variable (E : RoomEnv) (typ : EnvelopeType) (sealFor : ℕ → RoomMember → Except Exc Str)
  (myNode : Str)

/-- The key that a member's node is. -/
def RoomMember.key (m : RoomMember) : Except ApiError PublicKey := decodeKey (goText m.node)

/-- A member gets no copy from a daemon: none can be sealed for it, or the daemon refuses it. -/
def Refused (d : Daemon) (p : RoomMember × ℕ) : Prop :=
  (∃ e, sealFor p.2 p.1 = .error e) ∨ d.RefusesSend (E.fault p.2) (goText p.1.node)

/-- The members that a copy is meant for, with their positions. -/
def others (members : List RoomMember) : List (RoomMember × ℕ) :=
  members.zipIdx.filter fun p => p.1.node ≠ myNode

/-- A fan-out that raises queued no row; one that returns has the other members' nodes as its keys
and queued one row for each of them. -/
def AllOrNothing (members : List RoomMember) (d : Daemon)
    (out : Except RoomError (List (Str × Json)) × Daemon) : Prop :=
  match out with
  | (.error _, d') => d'.db.outbox = d.db.outbox
  | (.ok seqs, d') =>
    (seqs.map Prod.fst).Nodup
      ∧ (∀ n, n ∈ seqs.map Prod.fst ↔ n ≠ myNode ∧ ∃ m ∈ members, m.node = n)
      ∧ ∃ rows, d'.db.outbox = d.db.outbox ++ rows
        ∧ (∀ r ∈ rows, ∃ n ∈ seqs.map Prod.fst, decodeKey (goText n) = .ok r.peer)
        ∧ ∀ n ∈ seqs.map Prod.fst, ∃ key, decodeKey (goText n) = .ok key
          ∧ (rows.filter fun r => r.peer = key).length = 1

/-- The first of the members is refused, or none of them is and no key is listed twice. -/
def StopsOrCompletes (d : Daemon) (members : List (RoomMember × ℕ)) : Prop :=
  (∃ p, members.head? = some p ∧ Refused E sealFor d p) ∨
    ((∀ p ∈ members, ¬Refused E sealFor d p) ∧ (members.map fun p => p.1.key).Nodup)

theorem fanOut_others : ∀ (l : List (RoomMember × ℕ)) (seqs : List (Str × Json)) (d : Daemon),
    fanOut E typ sealFor myNode l seqs d =
      fanOut E typ sealFor myNode (l.filter fun p => p.1.node ≠ myNode) seqs d
  | [], _, _ => rfl
  | (m, i) :: rest, seqs, d => by
    have ih := fanOut_others rest
    by_cases hm : m.node = myNode
    · rw [List.filter_cons_of_neg (by simpa using hm), fanOut, if_pos hm]
      exact ih seqs d
    · rw [List.filter_cons_of_pos (by simpa using hm), fanOut, fanOut, if_neg hm, if_neg hm]
      simp only [ih]

variable {E typ sealFor myNode} {d : Daemon} {m : RoomMember} {i : ℕ}
  {rest : List (RoomMember × ℕ)} {seqs : List (Str × Json)}

variable (typ rest seqs) in
theorem fanOut_cons_refused (hm : m.node ≠ myNode) (h : Refused E sealFor d (m, i)) :
    ∃ e d', fanOut E typ sealFor myNode ((m, i) :: rest) seqs d = (.error e, d')
      ∧ d'.db.outbox = d.db.outbox := by
  rw [fanOut, if_neg hm]
  cases hs : sealFor i m with
  | error e => exact ⟨_, _, rfl, rfl⟩
  | ok payload =>
    rcases h with ⟨e, he⟩ | h
    · rw [hs] at he
      cases he
    · obtain ⟨⟨e, he⟩, hout⟩ := Daemon.answerSend_refused typ (E.now i) (goText payload) h
      simp only [he]
      exact ⟨_, _, rfl, hout⟩

/-- The payloads that are handed to the daemon are base64. -/
def SealsBase64 (sealFor : ℕ → RoomMember → Except Exc Str) : Prop :=
  ∀ i m payload, sealFor i m = .ok payload → ∃ box, payload = Python.str (Base64.encode box)

theorem surrogate_codePoint (c : Char) :
    isHighSurrogate (Python.codePoint c) = false ∧ isLowSurrogate (Python.codePoint c) = false := by
  have hval : (Python.codePoint c).val = c.toNat := rfl
  simp only [isHighSurrogate, isLowSurrogate, hval, decide_eq_false_iff_not]
  rcases c.valid with h | h
  · have : c.toNat < 0xD800 := h
    omega
  · have : 0xDFFF < c.toNat := h.1
    omega

theorem goChar_codePoint (c : Char) : goChar (Python.codePoint c) = c := by
  obtain ⟨hhigh, hlow⟩ := surrogate_codePoint c
  simp only [goChar, hhigh, hlow, Bool.false_eq_true, or_self, if_false]
  exact Char.ofNat_toNat c

theorem goText_str : ∀ t : Text, goText (Python.str t) = t
  | [] => rfl
  | [c] => congrArg (· :: []) (goChar_codePoint c)
  | c :: c' :: t => by
    have ih := goText_str (c' :: t)
    simp only [Python.str, List.map_cons] at ih ⊢
    rw [goText, if_neg (by simp [surrogate_codePoint]), goChar_codePoint, ih]

variable (typ rest seqs) in
theorem fanOut_cons_queued (hd : d.Numbered) (hseal : SealsBase64 sealFor) (hm : m.node ≠ myNode)
    (h : ¬Refused E sealFor d (m, i)) :
    ∃ key row v d', m.key = .ok key ∧ row.peer = key ∧ d'.db.outbox = d.db.outbox ++ [row]
      ∧ d'.Numbered
      ∧ (∀ p : RoomMember × ℕ, p.1.key ≠ .ok key →
        (Refused E sealFor d' p ↔ Refused E sealFor d p))
      ∧ fanOut E typ sealFor myNode ((m, i) :: rest) seqs d =
        fanOut E typ sealFor myNode rest (Python.setItem seqs m.node v) d' := by
  obtain ⟨hs, hr⟩ := not_or.1 h
  cases hp : sealFor i m with
  | error e => exact absurd ⟨e, hp⟩ hs
  | ok payload =>
    obtain ⟨box, rfl⟩ := hseal i m payload hp
    have hpay : Base64.decode (goText (Python.str (Base64.encode box))) = some box := by
      rw [goText_str, Base64.decode_encode]
    obtain ⟨key, seq, row, hkey, hseq, ⟨hpeer, -⟩, hout, hnum, hblocked, -, hcount⟩ :=
      Daemon.answerSend_queued typ (E.now i) hd hr hpay
    refine ⟨key, row, .int seq.toNat, _, hkey, hpeer, hout, hnum, fun p hp => ?_, ?_⟩
    · unfold Refused Daemon.RefusesSend
      refine or_congr Iff.rfl (forall₂_congr fun q hq => ?_)
      have hne : q ≠ key := by
        rintro rfl
        exact hp hq
      rw [hblocked, hcount q hne]
    · rw [fanOut, if_neg hm]
      simp only [hp, hseq]

variable (E typ) in
/-- What a fan-out queues: one row after the other, none only if there is nobody to send to or the
first member is refused, and one for each member if it returns. -/
theorem fanOut_rows (hseal : SealsBase64 sealFor) : ∀ (l : List (RoomMember × ℕ))
    (seqs : List (Str × Json)) (d : Daemon), d.Numbered → (∀ p ∈ l, p.1.node ≠ myNode) →
    ∃ rows, (fanOut E typ sealFor myNode l seqs d).2.db.outbox = d.db.outbox ++ rows
      ∧ (rows = [] → l = [] ∨ ∃ p, l.head? = some p ∧ Refused E sealFor d p)
      ∧ ∀ seqs', (fanOut E typ sealFor myNode l seqs d).1 = .ok seqs' →
        rows.map (fun r => Except.ok r.peer) = l.map (fun p => p.1.key)
          ∧ ((seqs.map Prod.fst).Nodup → (seqs'.map Prod.fst).Nodup)
          ∧ ∀ n, n ∈ seqs'.map Prod.fst ↔ n ∈ seqs.map Prod.fst ∨ n ∈ l.map (fun p => p.1.node)
  | [], seqs, d, _, _ => ⟨[], (List.append_nil _).symm, fun _ => .inl rfl, fun seqs' h => by
      cases h
      exact ⟨rfl, id, fun n => by simp⟩⟩
  | (m, i) :: rest, seqs, d, hd, hl => by
    obtain ⟨hm, hrest⟩ := List.forall_mem_cons.1 hl
    by_cases href : Refused E sealFor d (m, i)
    · obtain ⟨e, d', hrun, hout⟩ := fanOut_cons_refused typ rest seqs hm href
      rw [hrun]
      exact ⟨[], by rw [hout, List.append_nil], fun _ => .inr ⟨(m, i), rfl, href⟩,
        fun seqs' h => by cases h⟩
    · obtain ⟨key, row, v, d', hkey, hpeer, hout, hnum, -, hrun⟩ :=
        fanOut_cons_queued typ rest seqs hd hseal hm href
      obtain ⟨rows, hrows, -, hok⟩ :=
        fanOut_rows hseal rest (Python.setItem seqs m.node v) d' hnum hrest
      rw [hrun]
      refine ⟨row :: rows, by rw [hrows, hout, List.append_assoc]; rfl, (fun h => by cases h),
        fun seqs' h => ?_⟩
      obtain ⟨hpeers, hnd, hmem⟩ := hok seqs' h
      refine ⟨?_, fun h => hnd (Python.nodup_setItem h _ _), fun n => ?_⟩
      · rw [List.map_cons, List.map_cons, hpeers, hpeer, hkey]
      · rw [hmem n, Python.mem_keys_setItem, List.map_cons, List.mem_cons]
        tauto

variable (E typ) in
/-- Where no key is listed twice, a fan-out returns exactly when the daemon, as it is before it,
refuses none of the members. -/
theorem fanOut_ok_iff (hseal : SealsBase64 sealFor) : ∀ (l : List (RoomMember × ℕ))
    (seqs : List (Str × Json)) (d : Daemon), d.Numbered → (∀ p ∈ l, p.1.node ≠ myNode) →
    (l.map fun p => p.1.key).Nodup →
    ((∃ seqs', (fanOut E typ sealFor myNode l seqs d).1 = .ok seqs') ↔
      ∀ p ∈ l, ¬Refused E sealFor d p)
  | [], seqs, d, _, _, _ => ⟨fun _ p hp => (List.not_mem_nil hp).elim, fun _ => ⟨seqs, rfl⟩⟩
  | (m, i) :: rest, seqs, d, hd, hl, hnd => by
    obtain ⟨hm, hrest⟩ := List.forall_mem_cons.1 hl
    rw [List.map_cons, List.nodup_cons] at hnd
    rw [List.forall_mem_cons]
    by_cases href : Refused E sealFor d (m, i)
    · obtain ⟨e, d', hrun, -⟩ := fanOut_cons_refused typ rest seqs hm href
      rw [hrun]
      simp [href]
    · obtain ⟨key, row, v, d', hkey, -, -, hnum, hframe, hrun⟩ :=
        fanOut_cons_queued typ rest seqs hd hseal hm href
      rw [hrun, fanOut_ok_iff hseal rest _ d' hnum hrest hnd.2]
      refine ⟨fun h => ⟨href, fun p hp => ?_⟩, fun h p hp => ?_⟩
      all_goals
        have hne : p.1.key ≠ .ok key := fun hk =>
          hnd.1 (List.mem_map.2 ⟨p, hp, hk.trans hkey.symm⟩)
      · rw [← hframe p hne]
        exact h p hp
      · rw [hframe p hne]
        exact h.2 p hp

theorem length_filter_peer (rows : List OutboxRow) (key : PublicKey) :
    (rows.filter fun r => r.peer = key).length = (rows.map OutboxRow.peer).count key := by
  rw [List.count, List.countP_map, List.countP_eq_length_filter]
  congr 1
  apply List.filter_congr
  intro r _
  rw [Function.comp_apply, Bool.eq_iff_iff]
  simp

/-- One row for each key that a list of rows has, exactly when no two of them have the same. -/
theorem nodup_peers_iff {rows : List OutboxRow} :
    (rows.map OutboxRow.peer).Nodup ↔
      ∀ r ∈ rows, (rows.filter fun x => x.peer = r.peer).length = 1 := by
  simp only [length_filter_peer]
  constructor
  · intro h r hr
    exact List.count_eq_one_of_mem h (List.mem_map_of_mem hr)
  · intro h
    rw [List.nodup_iff_count_le_one]
    intro key
    by_cases hkey : key ∈ rows.map OutboxRow.peer
    · obtain ⟨r, hr, rfl⟩ := List.mem_map.1 hkey
      exact (h r hr).le
    · rw [List.count_eq_zero_of_not_mem hkey]
      exact Nat.zero_le 1

theorem mem_others_iff (members : List RoomMember) (n : Str) :
    n ∈ (others myNode members).map (fun p => p.1.node) ↔
      n ≠ myNode ∧ ∃ m ∈ members, m.node = n := by
  have hfst : members = members.zipIdx.map Prod.fst := (List.zipIdx_map_fst 0 members).symm
  constructor
  · intro h
    obtain ⟨p, hp, rfl⟩ := List.mem_map.1 h
    obtain ⟨hp, hne⟩ := List.mem_filter.1 hp
    refine ⟨by simpa using hne, p.1, ?_, rfl⟩
    rw [hfst]
    exact List.mem_map_of_mem hp
  · rintro ⟨hne, m, hm, rfl⟩
    rw [hfst] at hm
    obtain ⟨p, hp, rfl⟩ := List.mem_map.1 hm
    exact List.mem_map.2 ⟨p, List.mem_filter.2 ⟨hp, by simpa using hne⟩, rfl⟩

/-- A fan-out that returned is whole exactly when no key is listed twice. -/
theorem returned_iff {members : List RoomMember} {seqs : List (Str × Json)} {d d' : Daemon}
    {rows : List OutboxRow} (hout : d'.db.outbox = d.db.outbox ++ rows)
    (hpeers : rows.map (fun r => Except.ok r.peer) = (others myNode members).map (fun p => p.1.key))
    (hnd : (seqs.map Prod.fst).Nodup)
    (hkeys : ∀ n, n ∈ seqs.map Prod.fst ↔ n ∈ (others myNode members).map (fun p => p.1.node)) :
    AllOrNothing myNode members d (.ok seqs, d') ↔
      ((others myNode members).map fun p => p.1.key).Nodup := by
  have hinj : Function.Injective (Except.ok : PublicKey → Except ApiError PublicKey) :=
    fun _ _ h => Except.ok.inj h
  have hnodup : ((others myNode members).map fun p => p.1.key).Nodup ↔
      (rows.map OutboxRow.peer).Nodup := by
    rw [← hpeers, ← List.nodup_map_iff hinj, List.map_map]
    rfl
  -- the key of a member is that of a row, and the other way round
  have hrow : ∀ p ∈ others myNode members, ∃ r ∈ rows, p.1.key = .ok r.peer := by
    intro p hp
    have := List.mem_map_of_mem (f := fun p : RoomMember × ℕ => p.1.key) hp
    rw [← hpeers] at this
    obtain ⟨r, hr, heq⟩ := List.mem_map.1 this
    exact ⟨r, hr, heq.symm⟩
  have hmember : ∀ r ∈ rows, ∃ p ∈ others myNode members, p.1.key = .ok r.peer := by
    intro r hr
    have := List.mem_map_of_mem (f := fun r : OutboxRow => (Except.ok r.peer : Except ApiError _)) hr
    rw [hpeers] at this
    exact List.mem_map.1 this
  rw [hnodup, nodup_peers_iff]
  constructor
  · rintro ⟨-, -, rows', hout', hback, hone⟩ r hr
    obtain rfl : rows' = rows := List.append_cancel_left (hout'.symm.trans hout)
    obtain ⟨n, hn, hkey⟩ := hback r hr
    obtain ⟨key, hkey', hone⟩ := hone n hn
    cases hkey.symm.trans hkey'
    exact hone
  · intro hone
    refine ⟨hnd, fun n => (hkeys n).trans (mem_others_iff members n), rows, hout, fun r hr => ?_,
      fun n hn => ?_⟩
    · obtain ⟨p, hp, hkey⟩ := hmember r hr
      exact ⟨p.1.node, (hkeys _).2 (List.mem_map_of_mem hp), hkey⟩
    · obtain ⟨p, hp, rfl⟩ := List.mem_map.1 ((hkeys n).1 hn)
      obtain ⟨r, hr, hkey⟩ := hrow p hp
      exact ⟨r.peer, hkey, hone r hr⟩

/-- The loop is all or nothing exactly when it stops at the first member or completes. -/
theorem fanOut_iff (hd : d.Numbered) (hseal : SealsBase64 sealFor) (members : List RoomMember) :
    AllOrNothing myNode members d (fanOut E typ sealFor myNode members.zipIdx [] d) ↔
      StopsOrCompletes E sealFor d (others myNode members) := by
  rw [fanOut_others]
  change AllOrNothing myNode members d (fanOut E typ sealFor myNode (others myNode members) [] d) ↔ _
  have hl : ∀ p ∈ others myNode members, p.1.node ≠ myNode := fun p hp => by
    simpa using (List.mem_filter.1 hp).2
  obtain ⟨rows, hrows, hempty, hok⟩ := fanOut_rows E typ hseal _ [] d hd hl
  have hiff := fanOut_ok_iff E typ hseal _ [] d hd hl
  by_cases hfirst : ∃ p, (others myNode members).head? = some p ∧ Refused E sealFor d p
  · obtain ⟨⟨m, i⟩, hhead, href⟩ := hfirst
    obtain ⟨rest, hrest⟩ := List.head?_eq_some_iff.1 hhead
    rw [hrest] at hl ⊢
    obtain ⟨e, d', hrun, hout⟩ := fanOut_cons_refused typ rest [] (hl _ List.mem_cons_self) href
    rw [hrun]
    exact ⟨fun _ => .inl ⟨(m, i), rfl, href⟩, fun _ => hout⟩
  · rw [StopsOrCompletes, or_iff_right hfirst]
    rcases hres : fanOut E typ sealFor myNode (others myNode members) [] d with ⟨r, d'⟩
    rw [hres] at hrows hok hiff
    cases r with
    | error e =>
      -- the first member's row is in the outbox by then
      have hsome : rows ≠ [] := by
        intro h
        rcases hempty h with hnil | hhead
        · rw [hnil] at hres
          cases hres
        · exact hfirst hhead
      constructor
      · intro h
        have : d.db.outbox ++ rows = d.db.outbox := hrows.symm.trans h
        exact absurd (List.append_right_eq_self.1 this) hsome
      · rintro ⟨hnone, hnd⟩
        obtain ⟨seqs', h⟩ := (hiff hnd).2 hnone
        cases h
    | ok seqs' =>
      obtain ⟨hpeers, hnd, hkeys⟩ := hok seqs' rfl
      rw [returned_iff hrows hpeers (hnd List.nodup_nil) fun n => (hkeys n).trans (by simp)]
      exact ⟨fun h => ⟨(hiff h).1 ⟨seqs', rfl⟩, h⟩, fun h => h.2⟩

end Loop

section Room

variable {S : Sealer} {E : RoomEnv}

theorem sealMessage_base64 (text conv screenName : Str) (ts : ℤ) (members : List RoomMember) :
    SealsBase64 fun i m => sealMessage S (E.ephemeral i) m.pubkey text ts (some screenName)
      (some conv) (some (.arr (members.map RoomMember.toJson))) := by
  intro i m payload h
  obtain ⟨box, -, h⟩ := Python.bind_eq_ok.1 h
  cases h
  exact ⟨box, rfl⟩

theorem sealChunk_base64 (header : Bytes) (body : List (Str × Json)) :
    SealsBase64 fun i m => do
      let box ← sealFileChunk S (E.ephemeral i) m.pubkey body
      return Python.str (Base64.encode (header ++ box)) := by
  intro i m payload h
  obtain ⟨box, -, h⟩ := Python.bind_eq_ok.1 h
  cases h
  exact ⟨header ++ box, rfl⟩

/-- When `send_room` is all or nothing: `node_key` fails, or the loop stops at the first member or
completes. -/
def RoomWhole (S : Sealer) (E : RoomEnv) (screenName : Str) (myNode : Except RoomError Str)
    (members : List RoomMember) (conv text : Str) (ts : ℤ) (d : Daemon) : Prop :=
  ∀ self, myNode = .ok self → StopsOrCompletes E (fun i m => sealMessage S (E.ephemeral i) m.pubkey
    text ts (some screenName) (some conv) (some (.arr (members.map RoomMember.toJson)))) d
    (others self members)

/-- When `send_file_room` is: also where the chunk has no header. -/
def FileRoomWhole (S : Sealer) (E : RoomEnv) (myNode : Except RoomError Str)
    (members : List RoomMember) (conv : Str) (chunk : List (Str × Json)) (d : Daemon) : Prop :=
  ∀ self header, myNode = .ok self → roomHeader (roomChunk chunk conv) = .ok header →
    StopsOrCompletes E (fun i m => do
      let box ← sealFileChunk S (E.ephemeral i) m.pubkey (roomChunk chunk conv)
      return Python.str (Base64.encode (header ++ box))) d (others self members)

/-- From every daemon that a run reaches, for every member list, text and chunk and whatever the
daemon refuses: `send_room` and `send_file_room` are all or nothing exactly when the first member
other than the sender is refused, or none is and no node key is listed twice. -/
theorem room_send_all_or_nothing_iff (C : Config) (ops : List Op) (S : Sealer) (E : RoomEnv)
    (screenName : Str) (myNode : Except RoomError Str) (members : List RoomMember) (conv : Str) :
    let d := (({} : Daemon).run C ops).1
    (∀ text ts, AllOrNothing (myNode.toOption.getD []) members d
        (sendRoom S E screenName myNode members conv text ts d) ↔
      RoomWhole S E screenName myNode members conv text ts d) ∧
    (∀ chunk, AllOrNothing (myNode.toOption.getD []) members d
        (sendFileRoom S E myNode members conv chunk d) ↔
      FileRoomWhole S E myNode members conv chunk d) := by
  intro d
  have hd : d.Numbered := Daemon.Numbered.run ops fun r hr => by cases hr
  constructor
  · intro text ts
    unfold sendRoom RoomWhole
    cases myNode with
    | error e => exact ⟨fun _ _ h => (by cases h), fun _ => rfl⟩
    | ok self =>
      refine (fanOut_iff hd (sealMessage_base64 text conv screenName ts members) members).trans
        ⟨fun h self' hself => ?_, fun h => h self rfl⟩
      cases hself
      exact h
  · intro chunk
    unfold sendFileRoom FileRoomWhole
    cases myNode with
    | error e => exact ⟨fun _ _ _ h => (by cases h), fun _ => rfl⟩
    | ok self =>
      dsimp only
      cases hhead : roomHeader (roomChunk chunk conv) with
      | error e => exact ⟨fun _ _ _ _ h => (by cases h), fun _ => rfl⟩
      | ok header =>
        refine (fanOut_iff hd (sealChunk_base64 header _) members).trans
          ⟨fun h self' header' hself hheader => ?_, fun h => h self header rfl rfl⟩
        cases hself
        cases hheader
        exact h

/-- Two members other than the sender, whose keys are 32 ones and 32 twos. -/
def twoMembers : List RoomMember :=
  [⟨Python.str (Hex.encode (List.replicate 32 1)), [], []⟩,
    ⟨Python.str (Hex.encode (List.replicate 32 2)), [], []⟩]

/-- A sealer whose boxes are open. -/
def openSealer : Sealer where
  verifyKey := List.replicate 32 0
  sign _ := List.replicate 64 0
  dumps _ := .ok (Python.str ['{', '}'])
  curveKey := .ok
  encrypt _ _ inner := inner

def steadyEnv : RoomEnv := ⟨fun _ => [], fun _ => 0, fun _ => none⟩

/-- The second member is blocked: the send raises, and the first one's copy is in the outbox. -/
theorem second_blocked_half_sent :
    let d := (({} : Daemon).run ⟨1, 0, 0, 0, 65535⟩
      [.api 0 true (.block (Hex.encode (List.replicate 32 2)))]).1
    ¬AllOrNothing [] twoMembers d
      (sendRoom openSealer steadyEnv [] (.ok []) twoMembers [] [] 0 d) := by
  intro d h
  have hrun : (sendRoom openSealer steadyEnv [] (.ok []) twoMembers [] [] 0 d).1 =
      .error (.daemon (.sendFailed .peerBlocked)) := by rfl
  have hout : (sendRoom openSealer steadyEnv [] (.ok []) twoMembers [] [] 0 d).2.db.outbox.length =
      1 := by rfl
  rcases hres : sendRoom openSealer steadyEnv [] (.ok []) twoMembers [] [] 0 d with ⟨r, d'⟩
  rw [hres] at hrun hout h
  cases hrun
  rw [show d'.db.outbox = d.db.outbox from h] at hout
  cases hout

end Room

end Aimless
