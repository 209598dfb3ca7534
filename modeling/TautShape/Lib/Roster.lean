import Mathlib
/-!
# Rosters

Who is present, in the order of arrival.  Joining twice changes nothing, and who
comes back after leaving goes to the end.
-/

namespace TautShape.Lib

variable {κ : Type*} [DecidableEq κ]

inductive Presence (κ : Type*) where
  | join (who : κ)
  | leave (who : κ)
  | stay
deriving DecidableEq, Repr

def enrol (order : List κ) (who : κ) : List κ :=
  if who ∈ order then order else order ++ [who]

def strike (order : List κ) (who : κ) : List κ := order.filter (· ≠ who)

def Presence.apply (order : List κ) : Presence κ → List κ
  | .join who => enrol order who
  | .leave who => strike order who
  | .stay => order

def roster (events : List (Presence κ)) : List κ := events.foldl Presence.apply []

theorem roster_concat (front : List (Presence κ)) (event : Presence κ) :
    roster (front ++ [event]) = event.apply (roster front) := by
  rw [roster, List.foldl_append, List.foldl_cons, List.foldl_nil, ← roster]

@[simp] theorem mem_enrol {order : List κ} {who a : κ} :
    a ∈ enrol order who ↔ a ∈ order ∨ a = who := by
  unfold enrol
  split
  · rename_i hmem
    constructor
    · exact .inl
    · rintro (ha | rfl)
      · exact ha
      · exact hmem
  · simp

@[simp] theorem mem_strike {order : List κ} {who a : κ} :
    a ∈ strike order who ↔ a ∈ order ∧ a ≠ who := by
  simp [strike]

theorem strike_of_not_mem {order : List κ} {who : κ} (h : who ∉ order) :
    strike order who = order := by
  rw [strike, List.filter_eq_self]
  intro a ha
  simp only [ne_eq, decide_not, Bool.not_eq_true', decide_eq_false_iff_not]
  exact fun heq => h (heq ▸ ha)

theorem enrol_nodup {order : List κ} (h : order.Nodup) (who : κ) : (enrol order who).Nodup := by
  unfold enrol
  split
  · exact h
  · rename_i hnew
    rw [List.nodup_append]
    refine ⟨h, List.nodup_singleton who, ?_⟩
    intro a ha b hb heq
    rw [List.mem_singleton] at hb
    exact hnew (hb ▸ heq ▸ ha)

theorem strike_nodup {order : List κ} (h : order.Nodup) (who : κ) : (strike order who).Nodup :=
  h.filter _

/-! ## One member out of sight -/

theorem strike_enrol_self (order : List κ) (who : κ) :
    strike (enrol order who) who = strike order who := by
  unfold enrol
  split
  · rfl
  · simp [strike]

theorem strike_enrol_of_ne {who a : κ} (order : List κ) (h : a ≠ who) :
    strike (enrol order a) who = enrol (strike order who) a := by
  unfold enrol
  by_cases hmem : a ∈ order
  · rw [if_pos hmem, if_pos (mem_strike.mpr ⟨hmem, h⟩)]
  · rw [if_neg hmem, if_neg fun hin => hmem (mem_strike.mp hin).1]
    simp [strike, h]

theorem strike_comm (order : List κ) (a b : κ) :
    strike (strike order a) b = strike (strike order b) a := by
  simp only [strike, List.filter_filter, Bool.and_comm]

end TautShape.Lib
