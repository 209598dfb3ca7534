import Mathlib
/-!
# The greatest element by a comparison

`maxBy` is the iterator method: it keeps the later one of two elements that compare
equal.  An element that every other one is below is what it finds, wherever it stands.
-/

namespace TautShape.Lib

variable {α : Type*}

/-- The last of the greatest elements. -/
def maxBy (ord : α → α → Ordering) : List α → Option α
  | [] => none
  | first :: rest =>
      some (rest.foldl (fun best a => if ord best a = .gt then best else a) first)

theorem mem_of_maxBy {ord : α → α → Ordering} {l : List α} {a : α} (h : maxBy ord l = some a) :
    a ∈ l := by
  cases l with
  | nil => simp [maxBy] at h
  | cons first rest =>
      obtain rfl := Option.some.inj h
      clear h
      induction rest generalizing first with
      | nil => simp
      | cons next rest ih =>
          rw [List.foldl_cons]
          have hmem := ih (if ord first next = .gt then first else next)
          rcases List.mem_cons.mp hmem with heq | hrest
          · rw [heq]
            split <;> simp
          · exact List.mem_cons_of_mem _ (List.mem_cons_of_mem _ hrest)

theorem maxBy_eq_some {ord : α → α → Ordering} [Std.OrientedCmp ord] {l : List α} {a : α}
    (hmem : a ∈ l) (habove : ∀ b ∈ l, b ≠ a → ord b a = .lt) : maxBy ord l = some a := by
  cases l with
  | nil => simp at hmem
  | cons first rest =>
      rw [maxBy, Option.some.injEq]
      induction rest generalizing first with
      | nil => exact (List.mem_singleton.mp hmem).symm
      | cons next rest ih =>
          rw [List.foldl_cons]
          have hfirst := habove first List.mem_cons_self
          have hnext := habove next (List.mem_cons_of_mem _ List.mem_cons_self)
          by_cases hkeep : ord first next = .gt
          · rw [if_pos hkeep]
            refine ih first ?_ ?_
            · rcases List.mem_cons.mp hmem with rfl | hrest
              · exact List.mem_cons_self
              · rcases List.mem_cons.mp hrest with rfl | hrest
                · -- the dropped element is not the one above all others
                  by_cases heq : first = a
                  · exact heq ▸ List.mem_cons_self
                  · simp [hfirst heq] at hkeep
                · exact List.mem_cons_of_mem _ hrest
            · intro b hb
              refine habove b ?_
              rcases List.mem_cons.mp hb with rfl | hrest
              · exact List.mem_cons_self
              · exact List.mem_cons_of_mem _ (List.mem_cons_of_mem _ hrest)
          · rw [if_neg hkeep]
            refine ih next ?_ ?_
            · rcases List.mem_cons.mp hmem with rfl | hrest
              · by_cases heq : next = a
                · exact heq ▸ List.mem_cons_self
                · exact absurd (Std.OrientedCmp.gt_of_lt (hnext heq)) hkeep
              · exact hrest
            · intro b hb
              exact habove b (List.mem_cons_of_mem _ hb)

theorem exists_greatest (ord : α → α → Ordering) [Std.TransCmp ord] {l : List α} (h : l ≠ []) :
    ∃ a ∈ l, ∀ b ∈ l, (ord b a).isLE = true := by
  have hself : ∀ a, (ord a a).isLE = true := by
    intro a
    have heq : ord a a = .eq := Std.ReflCmp.compare_self
    rw [heq]
    rfl
  induction l with
  | nil => exact absurd rfl h
  | cons first rest ih =>
      by_cases hrest : rest = []
      · subst hrest
        refine ⟨first, List.mem_cons_self, fun b hb => ?_⟩
        rw [List.mem_singleton.mp hb]
        exact hself first
      · obtain ⟨a, ha, hgreatest⟩ := ih hrest
        by_cases hle : (ord first a).isLE = true
        · refine ⟨a, List.mem_cons_of_mem _ ha, fun b hb => ?_⟩
          rcases List.mem_cons.mp hb with rfl | hb
          · exact hle
          · exact hgreatest b hb
        · have hswap : ord a first = (ord first a).swap := Std.OrientedCmp.eq_swap
          have hge : (ord a first).isLE = true := by
            rw [hswap]
            cases hcase : ord first a <;> simp_all
          refine ⟨first, List.mem_cons_self, fun b hb => ?_⟩
          rcases List.mem_cons.mp hb with rfl | hb
          · exact hself b
          · exact Std.TransCmp.isLE_trans (hgreatest b hb) hge

end TautShape.Lib
