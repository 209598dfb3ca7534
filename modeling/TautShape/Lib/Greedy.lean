import Mathlib.Data.List.Basic
import Mathlib.Data.List.Infix
/-!
# The longest prefix

The longest prefix of a list that satisfies a property.  Where the property passes to
shorter prefixes, a loop that takes elements until the next one breaks the property ends
with the longest prefix.
-/

namespace TautShape.Lib

variable {α : Type*}

def longest (P : List α → Prop) [DecidablePred P] (l : List α) : List α :=
  ((l.inits.filter P).getLast?).getD []

variable {P : List α → Prop} [DecidablePred P] {out rest : List α}

theorem getLast?_inits (l : List α) : l.inits.getLast? = some l := by
  induction l with
  | nil => rfl
  | cons x l ih =>
      rw [List.inits_cons, List.getLast?_cons, List.getLast?_map, ih]
      rfl

/-- A prefix that has the property, and that the next element would take it from. -/
theorem longest_eq (hdown : ∀ q q', q <+: q' → P q' → P q) (hout : P out)
    (hstuck : ∀ x ∈ rest.head?, ¬P (out ++ [x])) : longest P (out ++ rest) = out := by
  have hfront : out.inits.filter P = out.inits := by
    apply List.filter_eq_self.mpr
    intro q hq
    exact decide_eq_true (hdown q out ((List.mem_inits _ _).mp hq) hout)
  have hbehind : (rest.inits.tail.map fun t => out ++ t).filter P = [] := by
    apply List.filter_eq_nil_iff.mpr
    intro q hq
    cases rest with
    | nil => cases hq
    | cons x rest =>
        rw [List.inits_cons, List.tail_cons, List.map_map, List.mem_map] at hq
        obtain ⟨t, -, rfl⟩ := hq
        intro hP
        apply hstuck x rfl
        apply hdown _ _ _ (of_decide_eq_true hP)
        show out ++ [x] <+: out ++ ([x] ++ t)
        rw [← List.append_assoc]
        exact List.prefix_append _ t
  rw [longest, List.inits_append, List.filter_append, hfront, hbehind, List.append_nil,
    getLast?_inits, Option.getD_some]

end TautShape.Lib
