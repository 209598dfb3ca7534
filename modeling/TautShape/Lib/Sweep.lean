import TautShape.Lib.Machine
/-!
# Sweeps

A sweep visits keys one after another, and each visit reads and writes the view of
its own key only.  Over distinct keys the visits do not meet, so the whole sweep
acts on every key as its one visit would have at the start.
-/

namespace TautShape.Lib

variable {σ κ ν ο : Type*} [DecidableEq κ]

/-- `visit` acts on the view of its key by `act`, as long as `P` holds, which it keeps. -/
structure Sweeps (visit : σ → κ → σ × List ο) (P : σ → Prop) (view : σ → κ → ν)
    (act : κ → ν → ν × List ο) : Prop where
  keeps : ∀ s k, P s → P (visit s k).1
  emits : ∀ s k, P s → (visit s k).2 = (act k (view s k)).2
  moves : ∀ s k k', P s →
    view (visit s k).1 k' = if k = k' then (act k (view s k)).1 else view s k'

namespace Sweeps

variable {visit : σ → κ → σ × List ο} {P : σ → Prop} {view : σ → κ → ν}
  {act : κ → ν → ν × List ο} {s : σ}

theorem after_keeps (h : Sweeps visit P view act) (hs : P s) (keys : List κ) :
    P (after visit s keys) :=
  after_induction visit hs fun s k _ => h.keeps s k

theorem outputs_eq (h : Sweeps visit P view act) (hs : P s) {keys : List κ}
    (hnodup : keys.Nodup) :
    outputs visit s keys = keys.map fun k => (act k (view s k)).2 := by
  induction keys generalizing s with
  | nil => rfl
  | cons k rest ih =>
      rw [List.nodup_cons] at hnodup
      have hrest : ∀ k' ∈ rest, view (visit s k).1 k' = view s k' := by
        intro k' hk'
        have hne : k ≠ k' := fun heq => hnodup.1 (heq ▸ hk')
        rw [h.moves s k k' hs, if_neg hne]
      rw [outputs, h.emits s k hs, ih (h.keeps s k hs) hnodup.2, List.map_cons]
      congr 1
      refine List.map_congr_left fun k' hk' => ?_
      rw [hrest k' hk']

theorem view_after (h : Sweeps visit P view act) (hs : P s) {keys : List κ}
    (hnodup : keys.Nodup) (k : κ) :
    view (after visit s keys) k = if k ∈ keys then (act k (view s k)).1 else view s k := by
  induction keys generalizing s with
  | nil => simp
  | cons first rest ih =>
      rw [List.nodup_cons] at hnodup
      rw [after_cons, ih (h.keeps s first hs) hnodup.2, h.moves s first k hs]
      by_cases heq : first = k
      · subst heq
        rw [if_neg hnodup.1, if_pos rfl, if_pos List.mem_cons_self]
      · rw [if_neg heq]
        simp [Ne.symm heq]

end Sweeps

omit [DecidableEq κ] in
theorem flatMap_filter {p : κ → Bool} {f : κ → List ο} (hnil : ∀ k, ¬ p k = true → f k = [])
    (keys : List κ) : (keys.filter p).flatMap f = keys.flatMap f := by
  induction keys with
  | nil => rfl
  | cons k rest ih =>
      rw [List.filter_cons, List.flatMap_cons]
      split
      · rw [List.flatMap_cons, ih]
      · rename_i hout
        rw [hnil k hout, ih, List.nil_append]

end TautShape.Lib
