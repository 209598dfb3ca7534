import Mathlib
/-!
# Polling loops

A client polls as long as the answer says that there may be more, and handles the
last answer too.  The loop is bounded by any measure that each live round
decreases; and where a round without progress leaves the client where it was,
progress in every live round is not only enough for the loop to end but needed.
-/

namespace TautShape.Lib

variable {σ : Type*}

/-- Poll at most `fuel` times; `none` when the loop is still live after that. -/
def poll (live : σ → Bool) (next : σ → σ) : Nat → σ → Option σ
  | 0, _ => none
  | fuel + 1, s => if live s then poll live next fuel (next s) else some (next s)

def Ends (live : σ → Bool) (next : σ → σ) (s : σ) : Prop :=
  ∃ fuel, (poll live next fuel s).isSome

variable {live : σ → Bool} {next : σ → σ}

theorem poll_of_live {s : σ} (h : live s = true) (fuel : Nat) :
    poll live next (fuel + 1) s = poll live next fuel (next s) := by
  rw [poll, if_pos h]

theorem poll_of_not_live {s : σ} (h : live s = false) (fuel : Nat) :
    poll live next (fuel + 1) s = some (next s) := by
  rw [poll, if_neg (by simp [h])]

theorem ends_of_not_live {s : σ} (h : live s = false) : Ends live next s :=
  ⟨1, by rw [poll_of_not_live h]; rfl⟩

theorem ends_of_next {s : σ} (h : Ends live next (next s)) : Ends live next s := by
  cases hlive : live s with
  | false => exact ends_of_not_live hlive
  | true =>
      obtain ⟨fuel, hfuel⟩ := h
      exact ⟨fuel + 1, by rwa [poll_of_live hlive]⟩

/-- The rule for a bounded loop: an invariant that live rounds keep, and a measure
that they decrease. -/
theorem poll_of_measure {P : σ → Prop} (μ : σ → Nat)
    (hstep : ∀ s, P s → live s = true → P (next s) ∧ μ (next s) < μ s) {s : σ} (hs : P s)
    {fuel : Nat} (hfuel : μ s < fuel) :
    ∃ t, P t ∧ live t = false ∧ poll live next fuel s = some (next t) := by
  induction fuel generalizing s with
  | zero => omega
  | succ fuel ih =>
      cases hlive : live s with
      | false => exact ⟨s, hs, hlive, poll_of_not_live hlive fuel⟩
      | true =>
          obtain ⟨hnext, hlt⟩ := hstep s hs hlive
          rw [poll_of_live hlive]
          exact ih hnext (by omega)

theorem not_ends_of_trapped {P : σ → Prop}
    (hstep : ∀ s, P s → live s = true ∧ P (next s)) {s : σ} (hs : P s) : ¬ Ends live next s := by
  rintro ⟨fuel, hsome⟩
  induction fuel generalizing s with
  | zero => simp [poll] at hsome
  | succ fuel ih =>
      obtain ⟨hlive, hnext⟩ := hstep s hs
      rw [poll_of_live hlive] at hsome
      exact ih hnext hsome

/-- When a live round either makes progress, which the measure bounds, or traps the
loop, the loop ends exactly if every live round makes progress. -/
theorem ends_iff_progress {P good : σ → Prop} (μ : σ → Nat)
    (hkeep : ∀ s, P s → P (next s))
    (hidle : ∀ s, P s → live s = false → next s = s)
    (hgood : ∀ s, P s → live s = true → good s → live (next s) = true → μ (next s) < μ s)
    (hstuck : ∀ s, P s → live s = true → ¬ good s →
      live (next s) = true ∧ ¬ good (next s))
    {s : σ} (hs : P s) :
    Ends live next s ↔ ∀ k, live (next^[k] s) = true → good (next^[k] s) := by
  have hiterate : ∀ k, P (next^[k] s) := by
    intro k
    induction k with
    | zero => exact hs
    | succ k ih =>
        rw [Function.iterate_succ_apply']
        exact hkeep _ ih
  constructor
  · intro hends k
    induction k generalizing s with
    | zero =>
        intro hlive
        by_contra hbad
        refine not_ends_of_trapped (P := fun s => P s ∧ live s = true ∧ ¬ good s) ?_
          ⟨hs, hlive, hbad⟩ hends
        rintro t ⟨ht, htlive, htbad⟩
        exact ⟨htlive, hkeep t ht, hstuck t ht htlive htbad⟩
    | succ k ih =>
        rw [Function.iterate_succ_apply]
        refine ih (hkeep s hs) (fun k => hiterate (k + 1)) ?_
        cases hlive : live s with
        | false =>
            rw [hidle s hs hlive]
            exact hends
        | true =>
            obtain ⟨fuel, hsome⟩ := hends
            cases fuel with
            | zero => simp [poll] at hsome
            | succ fuel => exact ⟨fuel, by rwa [poll_of_live hlive] at hsome⟩
  · intro hprogress
    induction hμ : μ s using Nat.strong_induction_on generalizing s with
    | _ m ih =>
        cases hlive : live s with
        | false => exact ends_of_not_live hlive
        | true =>
            refine ends_of_next ?_
            cases hnext : live (next s) with
            | false => exact ends_of_not_live hnext
            | true =>
                have hlt := hgood s hs hlive (hprogress 0 hlive) hnext
                exact ih (μ (next s)) (hμ ▸ hlt) (hkeep s hs) (fun k => hiterate (k + 1))
                  (fun k => hprogress (k + 1)) rfl

end TautShape.Lib
