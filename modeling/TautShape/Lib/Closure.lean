import Mathlib
/-!
# Least sets closed under rules

A rule lets its conclusion into a set once all of its premises are there.  The
sets closed under a collection of rules have a least one, `derivable`, and the
three facts below are what an incremental computation of that least set needs:
a sound computation stays below every closed set, a complete one is closed, and
one that has not finished leaves some rule ready to fire.
-/

namespace TautShape.Lib

/-- The conclusion may enter a set that already holds every premise. -/
structure Rule (α : Type*) where
  premises : Set α
  conclusion : α

variable {α : Type*}

def Closed (rules : Set (Rule α)) (s : Set α) : Prop :=
  ∀ r ∈ rules, r.premises ⊆ s → r.conclusion ∈ s

/-- The intersection of every closed set. -/
def derivable (rules : Set (Rule α)) : Set α :=
  ⋂₀ {s | Closed rules s}

theorem derivable_subset {rules : Set (Rule α)} {s : Set α} (hs : Closed rules s) :
    derivable rules ⊆ s :=
  Set.sInter_subset_of_mem hs

theorem derivable_closed (rules : Set (Rule α)) : Closed rules (derivable rules) := by
  intro r hr hpremises s hs
  exact hs r hr (hpremises.trans (derivable_subset hs))

theorem Closed.mono {rules rules' : Set (Rule α)} {s : Set α}
    (hs : Closed rules' s) (hsub : rules ⊆ rules') : Closed rules s :=
  fun r hr => hs r (hsub hr)

theorem derivable_mono {rules rules' : Set (Rule α)} (hsub : rules ⊆ rules') :
    derivable rules ⊆ derivable rules' :=
  derivable_subset ((derivable_closed rules').mono hsub)

/-- While `s` misses a derivable element, some rule is ready to fire: all of its
premises lie in `s` and its conclusion does not. -/
theorem exists_ready_rule {rules : Set (Rule α)} {s : Set α}
    (hmissing : ¬ derivable rules ⊆ s) :
    ∃ r ∈ rules, r.premises ⊆ s ∧ r.conclusion ∉ s := by
  by_contra hnone
  push Not at hnone
  exact hmissing (derivable_subset hnone)

/-- An element that is not derivable concludes no rule used in a derivation, so
dropping its rules loses nothing. -/
theorem derivable_avoiding {rules : Set (Rule α)} {a : α} (ha : a ∉ derivable rules) :
    derivable rules ⊆ derivable {r ∈ rules | r.conclusion ≠ a} := by
  have hclosed : Closed rules
      (derivable {r ∈ rules | r.conclusion ≠ a} ∩ derivable rules) := by
    intro r hr hpremises
    have hconclusion : r.conclusion ∈ derivable rules :=
      derivable_closed rules r hr (hpremises.trans Set.inter_subset_right)
    have hne : r.conclusion ≠ a := by
      rintro rfl
      exact ha hconclusion
    exact ⟨derivable_closed _ r ⟨hr, hne⟩ (hpremises.trans Set.inter_subset_left),
      hconclusion⟩
  exact (derivable_subset hclosed).trans Set.inter_subset_left

end TautShape.Lib
