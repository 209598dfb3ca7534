import Mathlib
/-!
# What a machine takes in

A machine that takes payloads until an input ends it: what it took from a list of inputs
is a matter of the inputs alone.
-/

namespace TautShape.Lib

variable {ι β : Type*} (payload? : ι → Option β) (ends : ι → Bool)

def intake (inputs : List ι) : List β := (inputs.takeWhile fun i => !ends i).filterMap payload?

variable {payload? ends}

theorem intake_concat (hends : ∀ i, ends i = true → payload? i = none) (front : List ι) (i : ι) :
    intake payload? ends (front ++ [i]) =
      intake payload? ends front ++ if front.any ends then [] else (payload? i).toList := by
  have hall : (∀ j ∈ front, (!ends j) = true) ↔ ¬ front.any ends = true := by simp
  rw [intake, intake, List.takeWhile_append]
  by_cases hany : front.any ends = true
  · have hshort : (front.takeWhile fun j => !ends j).length ≠ front.length := by
      intro hlength
      refine absurd hany (hall.mp fun j hj => ?_)
      have htake := (List.takeWhile_prefix fun j => !ends j).eq_of_length hlength
      have hin : j ∈ front.takeWhile fun j => !ends j := by
        rw [htake]
        exact hj
      exact List.mem_takeWhile_imp (p := fun j => !ends j) hin
    rw [if_neg hshort, if_pos hany, List.append_nil]
  · have hfull : (front.takeWhile fun j => !ends j) = front :=
      List.takeWhile_eq_self_iff.mpr (hall.mpr hany)
    have hlast : ([i].takeWhile fun j => !ends j).filterMap payload? = (payload? i).toList := by
      rw [List.takeWhile_cons]
      cases hend : ends i with
      | true => simp [hends i hend]
      | false => cases hpayload : payload? i <;> simp [hpayload]
    rw [hfull, if_pos rfl, if_neg hany, List.filterMap_append, hlast]

theorem intake_append (hends : ∀ i, ends i = true → payload? i = none) (front back : List ι) :
    ∃ more, intake payload? ends (front ++ back) = intake payload? ends front ++ more ∧
      (front.any ends = true → more = []) := by
  induction back using List.reverseRecOn with
  | nil => exact ⟨[], by simp, fun _ => rfl⟩
  | append_singleton back i ih =>
      obtain ⟨more, heq, hmore⟩ := ih
      rw [← List.append_assoc, intake_concat hends, heq, List.append_assoc]
      refine ⟨_, rfl, fun hany => ?_⟩
      rw [hmore hany, List.any_append, hany, Bool.true_or, if_pos rfl, List.append_nil]

end TautShape.Lib
