import Mathlib
/-!
# Renumbering

A counter that skips some of its numbers: `renumber gone` counts the positive numbers
outside `gone` up to its argument.  Outside `gone` it is strictly increasing, so the
numbers that are left keep their order and their identity.
-/

namespace TautShape.Lib

/-- The number a counter would have given with those in `gone` never handed out. -/
def renumber (gone : List Nat) : Nat → Nat
  | 0 => 0
  | t + 1 => if t + 1 ∈ gone then renumber gone t else renumber gone t + 1

variable {gone : List Nat}

theorem renumber_succ_of_mem {t : Nat} (h : t + 1 ∈ gone) :
    renumber gone (t + 1) = renumber gone t := by
  rw [renumber, if_pos h]

theorem renumber_succ_of_not_mem {t : Nat} (h : t + 1 ∉ gone) :
    renumber gone (t + 1) = renumber gone t + 1 := by
  rw [renumber, if_neg h]

theorem renumber_mono : Monotone (renumber gone) := by
  refine monotone_nat_of_le_succ fun t => ?_
  by_cases hmem : t + 1 ∈ gone
  · rw [renumber_succ_of_mem hmem]
  · rw [renumber_succ_of_not_mem hmem]
    exact Nat.le_succ _

theorem renumber_lt {s t : Nat} (hlt : s < t) (ht : t ∉ gone) :
    renumber gone s < renumber gone t := by
  obtain ⟨k, rfl⟩ := Nat.exists_eq_succ_of_ne_zero (Nat.ne_of_gt (Nat.zero_lt_of_lt hlt))
  calc renumber gone s
      ≤ renumber gone k := renumber_mono (Nat.lt_succ_iff.mp hlt)
    _ < renumber gone k + 1 := Nat.lt_succ_self _
    _ = renumber gone (k + 1) := (renumber_succ_of_not_mem ht).symm

theorem renumber_strictMonoOn : StrictMonoOn (renumber gone) {t | t ∉ gone} := by
  intro s _ t ht hlt
  exact renumber_lt hlt ht

theorem renumber_inj {s t : Nat} (hs : s ∉ gone) (ht : t ∉ gone)
    (h : renumber gone s = renumber gone t) : s = t :=
  renumber_strictMonoOn.injOn hs ht h

end TautShape.Lib
