import Aimless.Proofs.Mail
import Aimless.Lib.Runs

/-!
# The attachment budget

A round of the eviction loop deletes a transfer other than the one being written, so there are at
most as many rounds as there are other transfers (`makeRoom_ends`) and the fuel of the model does
not show.  What the loop deleted comes back with the transaction when it gives up
(`budget_enforced`).
-/

namespace Aimless

/-! ### The victim -/

/-- The victim is a transfer, and not the excluded one. -/
theorem pickOldest_mem (transfers : List AttachTransferRow) (exclude : Text) (incomplete : Bool) :
    pickOldest transfers exclude incomplete = []
      ∨ pickOldest transfers exclude incomplete ∈ transfers.map (·.tid)
        ∧ pickOldest transfers exclude incomplete ≠ exclude := by
  unfold pickOldest
  refine List.foldlRecOn transfers _ (motive := fun best => best = []
    ∨ best ∈ transfers.map (·.tid) ∧ best ≠ exclude) (.inl rfl) fun best hbest t ht => ?_
  split_ifs with hskip hkind hbetter
  · exact hbest
  · exact hbest
  · exact .inr ⟨List.mem_map_of_mem ht, fun h => hskip (.inl h)⟩
  · exact hbest

theorem pickEviction_mem {transfers : List AttachTransferRow} {exclude : Text}
    (h : pickEviction transfers exclude ≠ []) :
    pickEviction transfers exclude ∈ transfers.map (·.tid)
      ∧ pickEviction transfers exclude ≠ exclude := by
  unfold pickEviction at h ⊢
  dsimp only at h ⊢
  split_ifs at h ⊢ with hold
  · exact (pickOldest_mem transfers exclude true).resolve_left hold
  · exact (pickOldest_mem transfers exclude false).resolve_left h

namespace AttachmentStore

variable (as : AttachmentStore)

/-- The stored chunks of one transfer. -/
def transferOf (db : DB) (tid : Text) : List AttachRow :=
  (db.attachOf as.peer).filter fun r => r.tid = tid

/-- The transfers other than `exclude`. -/
def others (db : DB) (exclude : Text) : Finset Text :=
  ((db.attachOf as.peer).map (·.tid)).toFinset.erase exclude

theorem attachOf_ackTid (db : DB) (tid : Text) :
    (as.ackTid db tid).attachOf as.peer
      = (db.attachOf as.peer).filter fun r => r.tid ≠ tid := by
  simp only [ackTid, DB.attachOf, List.filter_filter]
  refine List.filter_congr fun r _ => ?_
  by_cases hp : r.peer = as.peer <;> simp [hp]

theorem bytes_ackTid_le (db : DB) (tid : Text) : as.bytes (as.ackTid db tid) ≤ as.bytes db := by
  unfold bytes
  rw [attachOf_ackTid]
  exact (List.filter_sublist.map _).sum_le_sum fun _ _ => Nat.zero_le _

theorem transferOf_ackTid (db : DB) {tid victim : Text} (h : tid ≠ victim) :
    as.transferOf (as.ackTid db victim) tid = as.transferOf db tid := by
  unfold transferOf
  rw [attachOf_ackTid, List.filter_filter]
  refine List.filter_congr fun r _ => ?_
  by_cases hr : r.tid = tid <;> simp [hr, h]

theorem mem_transfersTx {db : DB} {tid : Text} :
    tid ∈ (as.transfersTx db).map (·.tid) ↔ tid ∈ (db.attachOf as.peer).map (·.tid) := by
  simp [transfersTx]

theorem others_ackTid (db : DB) {exclude victim : Text}
    (hmem : victim ∈ (db.attachOf as.peer).map (·.tid)) (hne : victim ≠ exclude) :
    (as.others (as.ackTid db victim) exclude).card + 1 = (as.others db exclude).card := by
  have herase : as.others (as.ackTid db victim) exclude = (as.others db exclude).erase victim := by
    unfold others
    rw [attachOf_ackTid]
    ext t
    simp only [Finset.mem_erase, List.mem_toFinset, List.mem_map, List.mem_filter,
      decide_eq_true_eq]
    constructor
    · rintro ⟨ht, r, ⟨hr, hrv⟩, rfl⟩
      exact ⟨hrv, ht, r, hr, rfl⟩
    · rintro ⟨htv, ht, r, hr, rfl⟩
      exact ⟨ht, r, ⟨hr, htv⟩, rfl⟩
  have hin : victim ∈ as.others db exclude := by
    unfold others
    exact Finset.mem_erase.2 ⟨hne, List.mem_toFinset.2 hmem⟩
  rw [herase, Finset.card_erase_add_one hin]

theorem others_card_le (db : DB) (exclude : Text) :
    (as.others db exclude).card ≤ (db.attachOf as.peer).length := by
  unfold others
  exact (Finset.card_le_card (Finset.erase_subset _ _)).trans
    ((List.toFinset_card_le _).trans (by rw [List.length_map]))

/-! ### The loop -/

/-- The loop, with the number of its rounds: it ends with room, or without a victim. -/
inductive MakeRoom (need : ℕ) (exclude : Text) : DB → ℕ → Bool × DB → Prop
  | fits {db : DB} (h : (as.bytes db + need : ℤ) ≤ as.capBytes) :
      MakeRoom need exclude db 0 (true, db)
  | stuck {db : DB} (h : (as.bytes db + need : ℤ) > as.capBytes)
      (hv : pickEviction (as.transfersTx db) exclude = []) : MakeRoom need exclude db 0 (false, db)
  | evict {db : DB} {n : ℕ} {r : Bool × DB} (h : (as.bytes db + need : ℤ) > as.capBytes)
      (hv : pickEviction (as.transfersTx db) exclude ≠ [])
      (hnext : MakeRoom need exclude (as.ackTid db (pickEviction (as.transfersTx db) exclude)) n r) :
      MakeRoom need exclude db (n + 1) r

variable {as}

/-- With fuel for every other transfer the loop runs to its end. -/
theorem makeRoom_work (need : ℕ) (exclude : Text) : ∀ (rounds : ℕ) (db : DB),
    (as.others db exclude).card ≤ rounds →
      ∃ n ≤ (as.others db exclude).card, as.MakeRoom need exclude db n
        (as.makeRoomWork need exclude rounds db) := by
  intro rounds
  induction rounds with
  | zero =>
    intro db hfuel
    refine ⟨0, Nat.zero_le _, ?_⟩
    unfold makeRoomWork
    by_cases hover : (as.bytes db + need : ℤ) > as.capBytes
    · have hv : pickEviction (as.transfersTx db) exclude = [] := by
        by_contra hv
        obtain ⟨hmem, hne⟩ := pickEviction_mem hv
        have := as.others_ackTid db (as.mem_transfersTx.1 hmem) hne
        omega
      simpa [hover] using MakeRoom.stuck hover hv
    · simpa [hover] using MakeRoom.fits (le_of_not_gt hover)
  | succ rounds ih =>
    intro db hfuel
    unfold makeRoomWork
    dsimp only
    split_ifs with hover hv
    · exact ⟨0, Nat.zero_le _, .stuck hover hv⟩
    · obtain ⟨hmem, hne⟩ := pickEviction_mem hv
      have hcard := as.others_ackTid db (as.mem_transfersTx.1 hmem) hne
      have hle : (as.others (as.ackTid db (pickEviction (as.transfersTx db) exclude)) exclude).card
          ≤ rounds := by omega
      obtain ⟨n, hn, hrun⟩ := ih _ hle
      exact ⟨n + 1, by omega, .evict hover hv hrun⟩
    · exact ⟨0, Nat.zero_le _, .fits (le_of_not_gt hover)⟩

/-- What the loop keeps: the transfer being written, and the budget where it made room. -/
theorem MakeRoom.spec {need n : ℕ} {exclude : Text} {db : DB} {r : Bool × DB}
    (h : as.MakeRoom need exclude db n r) :
    as.transferOf r.2 exclude = as.transferOf db exclude
      ∧ (r.1 = true → (as.bytes r.2 + need : ℤ) ≤ as.capBytes) := by
  induction h with
  | fits h => exact ⟨rfl, fun _ => h⟩
  | stuck => exact ⟨rfl, by simp⟩
  | evict _ hv _ ih =>
    obtain ⟨-, hne⟩ := pickEviction_mem hv
    exact ⟨ih.1.trans (as.transferOf_ackTid _ (Ne.symm hne)), ih.2⟩

/-! ### `Add` -/

/-- The loop that `Add` runs. -/
theorem makeRoom_ends (as : AttachmentStore) (db : DB) (need : ℕ) (exclude : Text) :
    ∃ n ≤ (as.others db exclude).card, as.MakeRoom need exclude db n
      (as.makeRoomWork need exclude (db.attachOf as.peer).length db) :=
  makeRoom_work need exclude _ db (as.others_card_le db exclude)

variable {db : DB} {tid : Text} {index total : UInt16} {seq : UInt64} {ts : Int64} {payload : Bytes}

theorem attachOf_insert (work : DB) :
    DB.attachOf { work with
        attach := work.attach ++ [⟨as.peer, tid, index, total, seq.toInt64, ts, payload⟩] } as.peer
      = work.attachOf as.peer ++ [⟨as.peer, tid, index, total, seq.toInt64, ts, payload⟩] := by
  simp [DB.attachOf]

/-- A chunk that came in: the tables are those the loop left, and the chunk. -/
theorem addTx_isNew (h : (as.addTx db tid index total seq ts payload).1 = .isNew) :
    ∃ work, as.makeRoomWork payload.length tid (db.attachOf as.peer).length db = (true, work)
      ∧ (as.addTx db tid index total seq ts payload).2 = { work with
        attach := work.attach ++ [⟨as.peer, tid, index, total, seq.toInt64, ts, payload⟩] } := by
  unfold addTx addWork at h ⊢
  split_ifs at h ⊢
  split at h
  · rename_i heq
    split at heq
    · cases heq
    · rename_i work hwork
      exact ⟨work, hwork, (congrArg Prod.snd heq).symm⟩
  · rename_i hr _
    cases h
    exact (hr rfl).elim

/-- The transaction is rolled back unless a chunk came in. -/
theorem addTx_eq_of_ne (h : (as.addTx db tid index total seq ts payload).1 ≠ .isNew) :
    (as.addTx db tid index total seq ts payload).2 = db := by
  unfold addTx at h ⊢
  split at h
  · exact absurd rfl h
  · rfl

/-- `Add` leaves the tables as the model of it that the daemon uses does. -/
theorem add_eq_addTx : as.add db tid index total seq ts payload
    = match as.addTx db tid index total seq ts payload with
      | (.isNew, work) => some (true, work)
      | (.duplicate, db) => some (false, db)
      | (.budget, _) => none := by
  have hloop : ∀ (rounds : ℕ) (db : DB), as.makeRoomLoop payload.length tid rounds db
      = if (as.makeRoomWork payload.length tid rounds db).1
        then some (as.makeRoomWork payload.length tid rounds db).2 else none := by
    intro rounds
    induction rounds with
    | zero =>
      intro db
      unfold makeRoomLoop makeRoomWork
      by_cases hover : (as.bytes db + payload.length : ℤ) > as.capBytes <;> simp [hover]
    | succ rounds ih =>
      intro db
      unfold makeRoomLoop makeRoomWork
      dsimp only
      split_ifs <;> simp_all
  unfold add addTx addWork makeRoomTx
  split_ifs
  · rfl
  · rfl
  · rw [hloop]
    rcases as.makeRoomWork payload.length tid (db.attachOf as.peer).length db with ⟨_ | _, work⟩
    · rfl
    · rfl

theorem bytes_addTx_le (h : (as.bytes db : ℤ) ≤ as.capBytes) :
    (as.bytes (as.addTx db tid index total seq ts payload).2 : ℤ) ≤ as.capBytes := by
  by_cases hnew : (as.addTx db tid index total seq ts payload).1 = .isNew
  · obtain ⟨work, hwork, hdb⟩ := addTx_isNew hnew
    obtain ⟨n, -, hrun⟩ := as.makeRoom_ends db payload.length tid
    rw [hwork] at hrun
    have hroom := hrun.spec.2 rfl
    have hbytes : as.bytes (as.addTx db tid index total seq ts payload).2
        = as.bytes work + payload.length := by
      unfold bytes
      rw [hdb, attachOf_insert]
      simp
    rw [hbytes]
    push_cast
    exact hroom
  · rw [addTx_eq_of_ne hnew]
    exact h

theorem transferOf_addTx (h : (as.addTx db tid index total seq ts payload).1 = .isNew) :
    as.transferOf (as.addTx db tid index total seq ts payload).2 tid
      = as.transferOf db tid ++ [⟨as.peer, tid, index, total, seq.toInt64, ts, payload⟩] := by
  obtain ⟨work, hwork, hdb⟩ := addTx_isNew h
  obtain ⟨n, -, hrun⟩ := as.makeRoom_ends db payload.length tid
  rw [hwork] at hrun
  have hkeep : as.transferOf work tid = as.transferOf db tid := hrun.spec.1
  rw [← hkeep]
  unfold transferOf
  rw [hdb, attachOf_insert]
  simp

theorem bytes_calls_le (hcap : 0 ≤ as.capBytes) (hdb : db.attachOf as.peer = []) :
    ∀ l : List AttachCall, (as.bytes (as.calls db l) : ℤ) ≤ as.capBytes := by
  intro l
  have hstart : (as.bytes db : ℤ) ≤ as.capBytes := by simpa [bytes, hdb] using hcap
  refine Runs.invariant_end (I := fun db => (as.bytes db : ℤ) ≤ as.capBytes) as.call db l hstart ?_
  intro c _ db ih
  cases c with
  | add tid index total seq ts payload => exact bytes_addTx_le ih
  | ackTid tid => exact (Nat.cast_le.2 (as.bytes_ackTid_le db tid)).trans ih

/-- After any calls on the store of a peer that began without a chunk: the budget holds; `Add`
leaves everything as it was or adds the one chunk to a transfer that it leaves alone; and its loop
ends. -/
theorem budget_enforced (as : AttachmentStore) (hcap : 0 ≤ as.capBytes) (db : DB)
    (hdb : db.attachOf as.peer = []) (l : List AttachCall) :
    (as.bytes (as.calls db l) : ℤ) ≤ as.capBytes
      ∧ ∀ (tid : Text) (index total : UInt16) (seq : UInt64) (ts : Int64) (payload : Bytes),
        let r := as.addTx (as.calls db l) tid index total seq ts payload
        (r.1 ≠ .isNew → r.2.attachOf as.peer = (as.calls db l).attachOf as.peer)
        ∧ (r.1 = .isNew → as.transferOf r.2 tid = as.transferOf (as.calls db l) tid
          ++ [⟨as.peer, tid, index, total, seq.toInt64, ts, payload⟩])
        ∧ ∃ n ≤ (as.others (as.calls db l) tid).card,
          as.MakeRoom payload.length tid (as.calls db l) n
            (as.makeRoomWork payload.length tid ((as.calls db l).attachOf as.peer).length
              (as.calls db l)) := by
  refine ⟨bytes_calls_le hcap hdb l, fun tid index total seq ts payload => ⟨fun h => ?_, ?_, ?_⟩⟩
  · rw [addTx_eq_of_ne h]
  · exact transferOf_addTx
  · exact makeRoom_ends _ _ _ _

/-- A chunk that evicts another transfer, and one for which there is no room. -/
theorem budget_enforced_two :
    let as : AttachmentStore := ⟨[1], 3⟩
    let l : List AttachCall := [.add ['a'] 0 1 1 5 [1, 2], .add ['b'] 0 2 2 6 [3, 4]]
    ((as.calls {} l).attachOf as.peer).map (·.tid) = [['b']]
      ∧ (as.addTx (as.calls {} l) ['b'] 1 2 3 7 [5, 6]).1 = .budget
      ∧ (as.bytes (as.calls {} l) : ℤ) ≤ as.capBytes := by
  intro as l
  refine ⟨by decide, by decide, ?_⟩
  exact (budget_enforced as (by decide) {} rfl l).1

end AttachmentStore

end Aimless
