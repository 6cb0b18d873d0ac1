import Aimless.Proofs.Blocking
import Aimless.Proofs.Presence

/-!
# Presence is what was heard

The snapshot of a daemon lists a peer if it was added or heard of since the last start and is not
blocked.  What it says of the peer is read off the PROBE and STATUS packets that the daemon took
from it: messages and acknowledgements do not count, and neither does what a blocked peer sent.
-/

namespace Aimless

/-- What a daemon notes of a peer. -/
inductive Sign where
  | added
  | probe (now : ℤ)
  | status (now : ℤ) (env : Envelope)
  deriving DecidableEq, Repr

namespace Sign

def heardAt? : Sign → Option ℤ
  | added => none
  | probe now => some now
  | status now _ => some now

def status? : Sign → Option Envelope
  | status _ env => some env
  | _ => none

/-- What the latest sign that says something says. -/
def latest {β : Type} (f : Sign → Option β) (signs : List Sign) : Option β :=
  signs.reverse.findSome? f

/-- What `OnStatus` keeps of a STATUS. -/
def kept (env : Envelope) : StatusIn := ⟨env.seq, env.ts, env.payload, env.payload.length > 0⟩

end Sign

namespace Daemon

/-- The sign of `p` that an operation is, if it is one. -/
def signs (d : Daemon) (p : PublicKey) : Op → List Sign
  | .api _ persisted (.watch dest) =>
    match decodeKey dest with
    | .error _ => []
    | .ok key =>
      if key = p ∧ ¬ d.isBlocked p ∧ (d.contactsFile.contains p ∨ persisted) then [.added] else []
  | .api _ _ (.setstatus dest payload) =>
    match decodeKey dest with
    | .error _ => []
    | .ok key =>
      if key = p ∧ ¬ d.isBlocked p ∧ (Base64.decode payload).isSome then [.added] else []
  | .packet now sender data =>
    if sender = p ∧ ¬ d.isBlocked p then
      match decodeEnvelope data with
      | .error _ => []
      | .ok env =>
        if env.type = typeProbe then [.probe now]
        else if env.type = typeStatus then [.status now env]
        else []
    else []
  | _ => []

/-- What an entry says of a peer with these signs. -/
structure Tells (C : Config) (now : ℤ) (signs : List Sign) (e : PresenceEntry) : Prop where
  online : e.online ↔ ∃ t, Sign.latest Sign.heardAt? signs = some t ∧ now - t < 3 * C.probeInterval
  attached : e.clientAttached ↔ ∀ env, Sign.latest Sign.status? signs = some env → env.payload ≠ []
  statusTs : e.statusTs = ((Sign.latest Sign.status? signs).map (·.ts)).getD 0
  statusPayload : e.statusPayload
    = ((Sign.latest Sign.status? signs).map fun env => Base64.encode env.payload).getD []

/-! ### What leaves the entries alone -/

variable {C : Config} {now : ℤ} {d : Daemon} {p : PublicKey}

theorem Tells.unique {signs : List Sign} {e e' : PresenceEntry} (h : Tells C now signs e)
    (h' : Tells C now signs e') (hkey : e.key = e'.key) : e = e' := by
  cases e
  cases e'
  obtain rfl := hkey
  have honline := h.online.trans h'.online.symm
  have hattached := h.attached.trans h'.attached.symm
  have hts := h.statusTs.trans h'.statusTs.symm
  have hpayload := h.statusPayload.trans h'.statusPayload.symm
  simp only [← Bool.eq_iff_iff] at honline hattached hts hpayload
  rw [PresenceEntry.mk.injEq]
  exact ⟨rfl, honline, hattached, hts, hpayload⟩

end Daemon

end Aimless
