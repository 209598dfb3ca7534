import TautShape.Held.Refine
import TautShape.Lib.Checked
/-!
# Readers of an engine that may panic

The functions on `Streams` over a `resolve` that may fail.  Where it does not fail, they
do what the plain ones do.
-/

namespace TautShape.Held

open TautShape.Lib

variable {ρ α δ ε : Type}

namespace Streams

def readChecked (t : Streams ρ) (resolve : String → ρ → Except ε (Option α))
    (timeoutMs : ρ → Option Int) (streamId : String) (request : ρ) :
    Except ε (Streams ρ × List (Output α δ)) := do
  let t := t.ensureStream streamId
  let out := cancelTimer ((t.heldOf streamId).bind HeldRead.timerToken)
  let t := t.setHeld streamId none
  match ← resolve streamId request with
  | some response => return (t, out ++ [.readResponse response])
  | none =>
      match (timeoutMs request).filter (0 < ·) with
      | some ms =>
          return ({ t.setHeld streamId (some ⟨request, some t.nextToken⟩) with
              nextToken := t.nextToken + 1 },
            out ++ [.setTimer t.nextToken ms])
      | none => return (t.setHeld streamId (some ⟨request, none⟩), out)

def answerHeldChecked (resolve : String → ρ → Except ε (Option α)) (t : Streams ρ)
    (streamId : String) : Except ε (Streams ρ × List (Output α δ)) :=
  match t.heldOf streamId with
  | none => return (t, [])
  | some held => do
      match ← resolve streamId held.request with
      | none => return (t, [])
      | some response =>
          return (t.setHeld streamId none,
            cancelTimer held.timerToken ++ [.readResponse response])

def answerAllHeldChecked (t : Streams ρ) (resolve : String → ρ → Except ε (Option α)) :
    Except ε (Streams ρ × List (Output α δ)) := do
  let (t, out) ← runChecked (answerHeldChecked resolve) t t.order
  return (t, out.flatten)

def timerExpiredChecked (t : Streams ρ) (probe : String → ρ → Except ε α) (token : Int) :
    Except ε (Streams ρ × List (Output α δ)) :=
  match t.findTimer token with
  | none => return (t, [])
  | some (streamId, held) => do
      let response ← probe streamId held.request
      return (t.setHeld streamId none, [.readResponse response])

variable {t : Streams ρ} {resolveChecked : String → ρ → Except ε (Option α)}
  {resolve : String → ρ → Option α}

theorem readChecked_eq {timeoutMs : ρ → Option Int} {id : String} {request : ρ}
    (h : resolveChecked id request = .ok (resolve id request)) :
    t.readChecked (δ := δ) resolveChecked timeoutMs id request =
      .ok (t.read resolve timeoutMs id request) := by
  unfold readChecked read
  rw [h]
  simp only [bind, Except.bind]
  cases resolve id request with
  | some response => rfl
  | none => cases (timeoutMs request).filter (0 < ·) <;> rfl

theorem readChecked_error {timeoutMs : ρ → Option Int} {id : String} {request : ρ} {e : ε}
    (h : resolveChecked id request = .error e) :
    t.readChecked (δ := δ) resolveChecked timeoutMs id request = .error e := by
  unfold readChecked
  rw [h]
  rfl

/-- The held reads can all be answered without a failure. -/
def Safe (resolveChecked : String → ρ → Except ε (Option α)) (resolve : String → ρ → Option α)
    (t : Streams ρ) : Prop :=
  ∀ id held, t.heldOf id = some held →
    resolveChecked id held.request = .ok (resolve id held.request)

theorem answerHeldChecked_eq (h : Safe resolveChecked resolve t) (id : String) :
    answerHeldChecked (δ := δ) resolveChecked t id = .ok (answerHeld resolve t id) := by
  unfold answerHeldChecked answerHeld
  cases hheld : t.heldOf id with
  | none => rfl
  | some held =>
      simp only [h id held hheld, bind, Except.bind]
      cases resolve id held.request <;> rfl

theorem Safe.answerHeld (h : Safe resolveChecked resolve t) (id : String) :
    Safe resolveChecked resolve (answerHeld (δ := δ) resolve t id).1 := by
  unfold Streams.answerHeld
  split
  · exact h
  · split
    · exact h
    · intro a held hheld
      rw [heldOf_setHeld] at hheld
      split at hheld
      · simp at hheld
      · exact h a held hheld

theorem answerAllHeldChecked_eq (h : Safe resolveChecked resolve t) :
    t.answerAllHeldChecked (δ := δ) resolveChecked = .ok (t.answerAllHeld resolve) := by
  have hrun : runChecked (answerHeldChecked (δ := δ) resolveChecked) t t.order =
      .ok (after (answerHeld (δ := δ) resolve) t t.order,
        outputs (answerHeld resolve) t t.order) := by
    apply runChecked_eq h
    · exact fun _ id _ ht => ht.answerHeld id
    · exact fun _ id _ ht => answerHeldChecked_eq ht id
  rw [answerAllHeldChecked, hrun]
  rfl

theorem timerExpiredChecked_eq {probeChecked : String → ρ → Except ε α}
    {probe : String → ρ → Option α} (h : ∀ id held, t.heldOf id = some held →
      (probeChecked id held.request).map some = .ok (probe id held.request)) (token : Int) :
    t.timerExpiredChecked (δ := δ) probeChecked token = .ok (t.timerExpired probe token) := by
  unfold timerExpiredChecked timerExpired
  cases hfound : t.findTimer token with
  | none => rfl
  | some found =>
      obtain ⟨id, held⟩ := found
      have hprobe := h id held (heldOf_of_findTimer hfound).1
      simp only
      cases hchecked : probeChecked id held.request with
      | error e =>
          rw [hchecked] at hprobe
          simp [Except.map] at hprobe
      | ok response =>
          rw [hchecked] at hprobe
          rw [← Except.ok.inj hprobe]
          rfl

end Streams

end TautShape.Held
