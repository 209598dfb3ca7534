import Mathlib
/-!
# Lists numbered by position

A log whose items carry their position as a sequence number, counted from one.  What
lies between two sequence numbers is then a window of the list.
-/

namespace TautShape.Lib

variable {α : Type*} {num : α → Int}

def Numbered (num : α → Int) (l : List α) : Prop :=
  ∀ i (h : i < l.length), num l[i] = i + 1

def window (l : List α) (lo hi : Nat) : List α := (l.take hi).drop lo

theorem numbered_nil : Numbered num ([] : List α) := by
  intro i hi
  exact absurd hi (Nat.not_lt_zero i)

theorem Numbered.concat {l : List α} (h : Numbered num l) {a : α}
    (ha : num a = l.length + 1) : Numbered num (l ++ [a]) := by
  intro i hi
  by_cases hlt : i < l.length
  · rw [List.getElem_append_left hlt]
    exact h i hlt
  · have heq : i = l.length := by
      rw [List.length_append, List.length_singleton] at hi
      omega
    subst heq
    rw [List.getElem_append_right (le_refl _)]
    simpa using ha

theorem window_length {l : List α} {lo hi : Nat} (hhi : hi ≤ l.length) :
    (window l lo hi).length = hi - lo := by
  rw [window, List.length_drop, List.length_take, Nat.min_eq_left hhi]

theorem window_append {l : List α} {lo mid hi : Nat} (hlo : lo ≤ mid) (hmid : mid ≤ hi)
    (hhi : hi ≤ l.length) : window l lo mid ++ window l mid hi = window l lo hi := by
  have hsplit : l.take hi = l.take mid ++ (l.take hi).drop mid := by
    calc l.take hi = (l.take hi).take mid ++ (l.take hi).drop mid := (List.take_append_drop ..).symm
      _ = l.take mid ++ (l.take hi).drop mid := by rw [List.take_take, Nat.min_eq_left hmid]
  have hlength : lo ≤ (l.take mid).length := by
    rw [List.length_take]
    omega
  calc window l lo mid ++ window l mid hi
      = (l.take mid ++ (l.take hi).drop mid).drop lo := by
        rw [List.drop_append_of_le_length hlength, window, window]
    _ = window l lo hi := by rw [← hsplit, window]

theorem window_self (l : List α) (n : Nat) : window l n n = [] := by
  rw [window, List.drop_eq_nil_iff, List.length_take]
  omega

theorem window_full (l : List α) (lo : Nat) : window l lo l.length = l.drop lo := by
  rw [window, List.take_length]

theorem window_of_append {l more : List α} {lo hi : Nat} (hhi : hi ≤ l.length) :
    window (l ++ more) lo hi = window l lo hi := by
  rw [window, List.take_append_of_le_length hhi, window]

theorem Numbered.map_window {l : List α} (h : Numbered num l) (lo : Nat) {hi : Nat}
    (hhi : hi ≤ l.length) :
    (window l lo hi).map num = (List.range (hi - lo)).map fun i : Nat => (lo : Int) + 1 + i := by
  refine List.ext_getElem ?_ fun i hi₁ hi₂ => ?_
  · rw [List.length_map, window_length hhi, List.length_map, List.length_range]
  · have hin : lo + i < l.length := by
      rw [List.length_map, window_length hhi] at hi₁
      omega
    simp only [window, List.getElem_map, List.getElem_drop, List.getElem_take,
      List.getElem_range, h (lo + i) hin]
    omega

/-- A window is what its two sequence numbers select. -/
theorem Numbered.filter_eq_window {l : List α} (h : Numbered num l) (lo hi : Nat) :
    (l.filter fun a => decide ((lo : Int) < num a) && decide (num a ≤ hi)) = window l lo hi := by
  induction l using List.reverseRecOn with
  | nil => simp [window]
  | append_singleton front a ih =>
      have hfront : Numbered num front := by
        intro i hi
        have hnum := h i (by rw [List.length_append]; omega)
        rwa [List.getElem_append_left hi] at hnum
      have ha : num a = front.length + 1 := by
        have hnum := h front.length (by simp)
        simpa using hnum
      rw [List.filter_append, ih hfront, List.filter_singleton, ha]
      by_cases hhi : hi ≤ front.length
      · have hout : ¬ ((front.length : Int) + 1 ≤ hi) := by omega
        rw [window_of_append hhi]
        simp [hout]
      · have htake : (front ++ [a]).take hi = front ++ [a] := by
          rw [List.take_of_length_le]
          simp
          omega
        rw [window, window, htake, List.take_of_length_le (by omega)]
        by_cases hlo : lo ≤ front.length
        · have hin : (lo : Int) < front.length + 1 ∧ (front.length : Int) + 1 ≤ hi := by omega
          rw [List.drop_append_of_le_length hlo]
          simp [hin.1, hin.2]
        · have hout : ¬ ((lo : Int) < front.length + 1) := by omega
          have hfar : front.length + 1 ≤ lo := by omega
          rw [List.drop_eq_nil_iff.mpr (by omega), List.drop_eq_nil_iff.mpr (by simpa using hfar)]
          simp [hout]

theorem Numbered.pairwise_lt {l : List α} (h : Numbered num l) :
    l.Pairwise fun a b => num a < num b := by
  rw [List.pairwise_iff_getElem]
  intro i j hi hj hlt
  rw [h i hi, h j hj]
  omega

theorem Numbered.num_le {l : List α} (h : Numbered num l) {a : α} (ha : a ∈ l) :
    1 ≤ num a ∧ num a ≤ l.length := by
  obtain ⟨i, hi, rfl⟩ := List.getElem_of_mem ha
  rw [h i hi]
  omega

theorem Numbered.drop_eq_filter {l : List α} (h : Numbered num l) (lo : Nat) :
    l.drop lo = l.filter fun a => decide ((lo : Int) < num a) := by
  rw [← window_full, ← h.filter_eq_window]
  refine List.filter_congr fun a ha => ?_
  simp [(h.num_le ha).2]

theorem Numbered.filter_drop {l : List α} (h : Numbered num l) {lo lo' : Nat} (hle : lo ≤ lo') :
    (l.drop lo).filter (fun a => decide ((lo' : Int) + 1 ≤ num a)) = l.drop lo' := by
  rw [h.drop_eq_filter lo, h.drop_eq_filter lo', List.filter_filter]
  refine List.filter_congr fun a _ => ?_
  simp only [← Bool.decide_and, decide_eq_decide]
  omega

theorem Numbered.mem_drop {l : List α} (h : Numbered num l) (lo : Nat) {a : α} :
    a ∈ l.drop lo ↔ a ∈ l ∧ (lo : Int) < num a := by
  rw [h.drop_eq_filter, List.mem_filter, decide_eq_true_eq]

end TautShape.Lib
