import Aimless.Proofs.Archive

/-!
# Unread messages

`unread` counts the incoming messages of a conversation above its read mark, and `mark_read` sets
the mark to the largest timestamp in the conversation, one's own messages included.  So a reading
leaves nothing unread, and until the next one the count is that of the messages that came in since
with a timestamp above the mark (`unread_since`); the others are not counted.  The empty text is
left out: it is a timestamp above all numbers, but `mark_read` takes it for a missing one.
-/

namespace Aimless

open Python (Str Exc Json Dict)

namespace SqlVal

theorem rank_le_orZero {v : SqlVal} (h : v ≠ .text []) : v.rank ≤ v.orZero.rank := by
  cases v with
  | null => exact bot_le
  | int n => exact le_refl _
  | real x =>
    rw [orZero]
    split_ifs with hx
    · rw [hx]
      exact le_of_eq rfl
    · exact le_refl _
  | text s =>
    rw [orZero, if_neg fun hs => h (by rw [hs])]

theorem rank_le_maximum {l : List SqlVal} {v : SqlVal} (h : v ∈ l) :
    v.rank ≤ (maximum l).rank := by
  unfold maximum
  rcases hmax : l.argmax rank with _ | m
  · rw [List.argmax_eq_none.1 hmax] at h
    cases h
  · exact List.le_of_mem_argmax h hmax

end SqlVal

namespace Store

/-- A call of `ingest` that returns `True` adds its row, and any other adds none. -/
theorem ingest_result (L : Libs) (st : Store) (conv : Json) (sender : Text) (seq : ℕ)
    (ts text : Json) (attachment : Option Dict) :
    (∃ row, incomingRow L conv sender seq ts text attachment = .ok (some row)
        ∧ (st.ingest L conv sender seq ts text attachment).1 = .ok true
        ∧ (st.ingest L conv sender seq ts text attachment).2.messages = st.messages ++ [row])
      ∨ ((st.ingest L conv sender seq ts text attachment).1 ≠ .ok true
        ∧ (st.ingest L conv sender seq ts text attachment).2.messages = st.messages) := by
  obtain ⟨r, st₁, hconv, ⟨hm, -⟩, -⟩ := ensureConv_spec L st conv (conv.eqStr (Python.str sender))
  unfold ingest
  rw [hconv]
  cases r with
  | error e => exact .inr ⟨by simp, hm⟩
  | ok u =>
    dsimp only
    split
    · exact .inr ⟨by simp, hm⟩
    · exact .inr ⟨by simp, hm⟩
    · rename_i row hrow
      by_cases htaken : st₁.hasMessage row.id
      · rw [insertMessage, if_pos htaken]
        exact .inr ⟨by simp, hm⟩
      · rw [insertMessage, if_neg htaken]
        exact .inl ⟨row, hrow, rfl, by rw [← hm]⟩

end Store

namespace ArchiveMove

/-- A reading of the conversation, or an end of its history. -/
def Resets (c : Str) : ArchiveMove → Prop
  | .markRead conv => conv = c
  | .clearHistory conv => conv = c
  | .deleteRoom conv _ => conv = c
  | _ => False

end ArchiveMove

namespace Archive

variable (L : Libs) (numeric : Str → SqlVal) (c : Str)

/-- The timestamp of the message that a call of `ingest` takes in for the conversation, where it
returns `True`. -/
def arrival (a : Archive) : ArchiveMove → Option SqlVal
  | .ingest conv sender seq ts text attachment =>
    match (a.ingest L conv sender seq ts text attachment).1, bindValue conv, bindValue ts with
    | .ok true, .ok v, .ok ts => if v.toText L = some c then some (ts.toInteger numeric) else none
    | _, _, _ => none
  | _ => none

/-- The timestamps of the messages that came in for the conversation during a run. -/
def arrivals : Archive → List ArchiveMove → List SqlVal
  | _, [] => []
  | a, m :: moves => (arrival L numeric c a m).toList ++ arrivals (a.step L numeric m) moves

variable {L numeric c} {a : Archive}

/-- The messages of a conversation that count as unread for a mark. -/
def above (numeric : Str → SqlVal) (mark : SqlVal) (l : List Message) : ℕ :=
  (l.filter fun m => m.dir = .incoming ∧ mark.rank < (Tracker.tsOf numeric m).rank).length

theorem above_append (mark : SqlVal) (l l' : List Message) :
    above numeric mark (l ++ l') = above numeric mark l + above numeric mark l' := by
  rw [above, List.filter_append, List.length_append]
  rfl

theorem unread_eq (a : Archive) (c : Str) :
    a.unread numeric c = above numeric (a.readMark c) (a.tracker.store.messagesOf c) := rfl

theorem readMark_markRead (a : Archive) (c : Str) :
    (SqlVal.maximum ((a.tracker.store.messagesOf c).map (Tracker.tsOf numeric))).orZero.rank
      ≤ ((a.markRead numeric c).readMark c).rank := by
  unfold markRead readMark
  dsimp only
  rw [AList.lookup_insert]
  rcases a.readMarks.lookup c with _ | old
  · exact le_refl _
  · show _ ≤ (laterMark _ _).rank
    unfold laterMark
    split_ifs with h
    · exact le_refl _
    · exact not_lt.1 h

/-- A reading leaves nothing unread. -/
theorem unread_markRead (hts : SqlVal.maximum ((a.tracker.store.messagesOf c).map
    (Tracker.tsOf numeric)) ≠ .text []) : (a.markRead numeric c).unread numeric c = 0 := by
  rw [unread_eq, above, List.length_eq_zero_iff, List.filter_eq_nil_iff]
  intro m hm habove
  simp only [decide_eq_true_eq] at habove
  have hle : (Tracker.tsOf numeric m).rank ≤ _ :=
    SqlVal.rank_le_maximum (List.mem_map_of_mem (f := Tracker.tsOf numeric) hm)
  exact absurd habove.2 (not_lt.2
    (hle.trans ((SqlVal.rank_le_orZero hts).trans (readMark_markRead a c))))

/-- One more row, and what it adds to the count. -/
theorem above_of_append {st st' : Store} {row : Message} (mark : SqlVal)
    (h : st'.messages = st.messages ++ [row]) :
    above numeric mark (st'.messagesOf c) = above numeric mark (st.messagesOf c)
      + if row.conv = c ∧ row.dir = .incoming ∧ mark.rank < (Tracker.tsOf numeric row).rank
        then 1 else 0 := by
  have hrow : above numeric mark ([row].filter fun m => m.conv = c)
      = if row.conv = c ∧ row.dir = .incoming ∧ mark.rank < (Tracker.tsOf numeric row).rank
        then 1 else 0 := by
    by_cases hconv : row.conv = c
    · simp only [above, hconv, decide_true, List.filter_cons_of_pos, List.filter_nil, true_and]
      split_ifs with hcount
      · rw [List.filter_cons_of_pos (by simpa using hcount)]
        rfl
      · rw [List.filter_cons_of_neg (by simpa using hcount)]
        rfl
    · rw [List.filter_cons_of_neg (by simpa using hconv), if_neg fun h => hconv h.1]
      rfl
  unfold Store.messagesOf
  rw [h, List.filter_append, above_append, hrow]

theorem markSeq_store (t : Tracker) (k : DeliveryKey) : (t.markSeq k).2.store = t.store := by
  unfold Tracker.markSeq
  split
  · rfl
  · split
    · rfl
    · dsimp only
      split <;> rfl

section Step

variable {m : ArchiveMove}

theorem ingest_unread (a : Archive) (conv : Json) (sender : Text) (seq : ℕ) (ts text : Json)
    (attachment : Option Dict) (mark : SqlVal) :
    above numeric mark
        ((a.ingest L conv sender seq ts text attachment).2.tracker.store.messagesOf c)
      = above numeric mark (a.tracker.store.messagesOf c)
        + ((arrival L numeric c a (.ingest conv sender seq ts text attachment)).toList.filter
          fun ts => mark.rank < ts.rank).length := by
  rcases a.tracker.store.ingest_result L conv sender seq ts text attachment with
    ⟨row, hrow, htrue, hadd⟩ | ⟨hfalse, hsame⟩
  · obtain ⟨-, -, hdir, -, hts, v, hv, hconv⟩ := Store.incomingRow_fields hrow
    have harrival : arrival L numeric c a (.ingest conv sender seq ts text attachment)
        = if row.conv = c then some (Tracker.tsOf numeric row) else none := by
      have hres : (a.ingest L conv sender seq ts text attachment).1 = .ok true := htrue
      rw [arrival, hres, hv, hts]
      simp only [hconv, Option.some.injEq]
      rfl
    have hcount : above numeric mark
        ((a.ingest L conv sender seq ts text attachment).2.tracker.store.messagesOf c) = _ :=
      above_of_append mark hadd
    rw [hcount, harrival]
    congr 1
    by_cases hc : row.conv = c
    · by_cases hmark : mark.rank < (Tracker.tsOf numeric row).rank <;> simp [hc, hdir, hmark]
    · simp [hc]
  · have harrival : arrival L numeric c a (.ingest conv sender seq ts text attachment) = none := by
      have hres : (a.ingest L conv sender seq ts text attachment).1 ≠ .ok true := hfalse
      rw [arrival]
      split
      · rename_i hok _ _
        exact absurd hok hres
      · rfl
    have hmessages : (a.ingest L conv sender seq ts text attachment).2.tracker.store.messagesOf c
        = a.tracker.store.messagesOf c := by
      unfold Store.messagesOf
      exact congrArg _ hsame
    rw [harrival, hmessages]
    rfl

/-- Another conversation's history ends. -/
theorem dismiss_unread (kind : Dismissal) {conv : Str} (scanPoints : List (Text × UInt64))
    (hne : conv ≠ c) : (a.dismiss kind conv scanPoints).2.readMark c = a.readMark c
      ∧ (a.dismiss kind conv scanPoints).2.unread numeric c = a.unread numeric c := by
  have hmark : (a.dismiss kind conv scanPoints).2.readMark c = a.readMark c := by
    unfold dismiss readMark
    rw [AList.lookup_erase_ne (Ne.symm hne)]
  have hmessages : (a.tracker.store.dismiss kind conv scanPoints).2.messagesOf c
      = a.tracker.store.messagesOf c := by
    unfold Store.messagesOf
    rw [(a.tracker.store.dismiss_spec kind conv scanPoints).1, List.filter_filter]
    refine List.filter_congr fun m _ => ?_
    by_cases hc : m.conv = c
    · simp [hc, Ne.symm hne]
    · simp [hc]
  refine ⟨hmark, ?_⟩
  rw [unread_eq, hmark]
  exact congrArg (above numeric (a.readMark c)) hmessages

/-- A move that is no reading of the conversation and no end of its history. -/
theorem step_unread (L : Libs) (numeric : Str → SqlVal) (a : Archive) (hm : ¬ m.Resets c) :
    (a.step L numeric m).readMark c = a.readMark c
      ∧ (a.step L numeric m).unread numeric c = a.unread numeric c
        + ((arrival L numeric c a m).toList.filter fun ts =>
          (a.readMark c).rank < ts.rank).length := by
  cases m with
  | ingest conv sender seq ts text attachment =>
    exact ⟨rfl, ingest_unread a conv sender seq ts text attachment (a.readMark c)⟩
  | addSent conv seqs ts text attachment keys =>
    refine ⟨rfl, ?_⟩
    show above numeric (a.readMark c) (Store.messagesOf
      (a.tracker.addSent L conv seqs ts text attachment keys).2.store c) = _
    rcases a.tracker.addSent_grows L conv seqs ts text attachment keys with
      hsame | ⟨row, hrow, -, hadd⟩
    · rw [Store.messagesOf, hsame]
      rfl
    · -- one's own message is not counted
      have hout : ¬ (row.conv = c ∧ row.dir = .incoming
          ∧ (a.readMark c).rank < (Tracker.tsOf numeric row).rank) := by
        rw [Tracker.outgoingRow_dir L hrow]
        simp
      rw [above_of_append _ hadd, if_neg hout]
      rfl
  | markDelivered k =>
    refine ⟨rfl, ?_⟩
    show above numeric (a.readMark c) ((a.tracker.markSeq k).2.store.messagesOf c) = _
    rw [markSeq_store]
    rfl
  | clearHistory conv => exact dismiss_unread .clearHistory [] hm
  | deleteRoom conv scanPoints => exact dismiss_unread .deleteRoom scanPoints hm
  | markRead conv =>
    have hmark : (a.markRead numeric conv).readMark c = a.readMark c := by
      unfold markRead readMark
      rw [AList.lookup_insert_ne (Ne.symm hm)]
    refine ⟨hmark, ?_⟩
    show (a.markRead numeric conv).unread numeric c = _
    rw [unread_eq, hmark]
    rfl

end Step

theorem run_unread : ∀ (moves : List ArchiveMove) (a : Archive), (∀ m ∈ moves, ¬ m.Resets c) →
    (run L numeric a moves).unread numeric c = a.unread numeric c
      + ((arrivals L numeric c a moves).filter fun ts => (a.readMark c).rank < ts.rank).length
  | [], _, _ => rfl
  | m :: moves, a, h => by
    obtain ⟨hm, hmoves⟩ := List.forall_mem_cons.1 h
    obtain ⟨hmark, hcount⟩ := step_unread L numeric a hm
    show (run L numeric (a.step L numeric m) moves).unread numeric c = _
    rw [run_unread moves _ hmoves, hmark, hcount, arrivals, List.filter_append, List.length_append,
      Nat.add_assoc]

/-- For every store and conversation: right after a reading nothing is unread, and until the next
reading or the end of its history the count is that of the messages that came in for it since with
a timestamp above the mark that the reading left. -/
theorem unread_since (L : Libs) (numeric : Str → SqlVal) {a : Archive} {c : Str}
    (hts : SqlVal.maximum ((a.tracker.store.messagesOf c).map (Tracker.tsOf numeric)) ≠ .text []) :
    (a.markRead numeric c).unread numeric c = 0
      ∧ ∀ moves, (∀ m ∈ moves, ¬ ArchiveMove.Resets c m) →
        (run L numeric (a.markRead numeric c) moves).unread numeric c
          = ((arrivals L numeric c (a.markRead numeric c) moves).filter fun ts =>
            ((a.markRead numeric c).readMark c).rank < ts.rank).length := by
  have hzero := unread_markRead hts
  refine ⟨hzero, fun moves h => ?_⟩
  rw [run_unread moves _ h, hzero, Nat.zero_add]

/-- A text of `a` with a seq and a timestamp. -/
def textOf (seq : ℕ) (ts : ℤ) : ArchiveMove :=
  .ingest (.str (Python.str ['a'])) ['a'] seq (.int ts) (.str (Python.str ['h', 'i'])) none

/-- A message of an earlier time comes in after a later one was read: it is new and not counted. -/
theorem backdated_not_counted :
    let a := (run Tracker.exampleLibs .text {} [textOf 1 200]).markRead .text (Python.str ['a'])
    (∀ m ∈ [textOf 2 100], ¬ ArchiveMove.Resets (Python.str ['a']) m)
      ∧ (arrivals Tracker.exampleLibs .text (Python.str ['a']) a [textOf 2 100]).length = 1
      ∧ (run Tracker.exampleLibs .text a [textOf 2 100]).unread .text (Python.str ['a']) = 0 := by
  refine ⟨?_, by decide, by decide⟩
  simp [textOf, ArchiveMove.Resets]

/-- Two messages after the reading, one of them later than the first and one earlier. -/
theorem unread_since_two :
    let a := run Tracker.exampleLibs .text {} [textOf 1 200]
    let moves := [textOf 2 300, textOf 3 100]
    (a.markRead .text (Python.str ['a'])).unread .text (Python.str ['a']) = 0
      ∧ (run Tracker.exampleLibs .text (a.markRead .text (Python.str ['a'])) moves).unread .text
        (Python.str ['a']) = 1 := by
  intro a moves
  have hts : SqlVal.maximum ((a.tracker.store.messagesOf (Python.str ['a'])).map
      (Tracker.tsOf .text)) ≠ .text [] := by decide
  obtain ⟨hzero, hcount⟩ := unread_since Tracker.exampleLibs .text hts
  refine ⟨hzero, (hcount moves ?_).trans (by decide)⟩
  simp [moves, textOf, ArchiveMove.Resets]

end Archive

end Aimless
