import Mathlib
/-!
# Runs of a deterministic machine

A machine is a total function from a state and an input to a next state and a
list of outputs.  `after` is the state a list of inputs leads to, `outputs` what
was emitted at each step.  Everything said about a whole run below is proved
once from what one step preserves.
-/

namespace TautShape.Lib

variable {σ ι ο : Type*} (step : σ → ι → σ × List ο)

def after (s : σ) (inputs : List ι) : σ :=
  inputs.foldl (fun s i => (step s i).1) s

def outputs : σ → List ι → List (List ο)
  | _, [] => []
  | s, i :: rest => (step s i).2 :: outputs (step s i).1 rest

def trace : σ → List ι → List (ι × List ο)
  | _, [] => []
  | s, i :: rest => (i, (step s i).2) :: trace (step s i).1 rest

@[simp] theorem after_nil (s : σ) : after step s [] = s := rfl

@[simp] theorem after_cons (s : σ) (i : ι) (rest : List ι) :
    after step s (i :: rest) = after step (step s i).1 rest := rfl

theorem after_append (s : σ) (front back : List ι) :
    after step s (front ++ back) = after step (after step s front) back := by
  simp [after, List.foldl_append]

theorem after_concat (s : σ) (front : List ι) (i : ι) :
    after step s (front ++ [i]) = (step (after step s front) i).1 := by
  simp [after_append]

theorem outputs_append (s : σ) (front back : List ι) :
    outputs step s (front ++ back) =
      outputs step s front ++ outputs step (after step s front) back := by
  induction front generalizing s with
  | nil => rfl
  | cons i front ih => simp [outputs, ih]

theorem trace_append (s : σ) (front back : List ι) :
    trace step s (front ++ back) =
      trace step s front ++ trace step (after step s front) back := by
  induction front generalizing s with
  | nil => rfl
  | cons i front ih => simp [trace, ih]

/-- A property that each step with an allowed input keeps holds after the run. -/
theorem after_induction {P : σ → Prop} {s : σ} {inputs : List ι} (hs : P s)
    (hstep : ∀ s, ∀ i ∈ inputs, P s → P (step s i).1) : P (after step s inputs) := by
  induction inputs generalizing s with
  | nil => exact hs
  | cons i rest ih =>
      refine ih (hstep s i (by simp) hs) ?_
      intro s j hj
      exact hstep s j (List.mem_cons_of_mem i hj)

theorem outputs_forall {Q : ο → Prop} (hstep : ∀ s i, ∀ o ∈ (step s i).2, Q o) (s : σ)
    (inputs : List ι) : ∀ o ∈ (outputs step s inputs).flatten, Q o := by
  induction inputs generalizing s with
  | nil => simp [outputs]
  | cons i rest ih =>
      intro o ho
      rw [outputs, List.flatten_cons, List.mem_append] at ho
      exact ho.elim (hstep s i o) (ih _ o)

/-- A machine that moves as another does, seen through `view` and `say`, runs as it does. -/
theorem run_simulates {σ' ο' : Type*} {step' : σ' → ι → σ' × List ο'} {view : σ → σ'}
    {say : ο → ο'} {P : σ → Prop} (hkeeps : ∀ s i, P s → P (step s i).1)
    (hmoves : ∀ s i, P s → view (step s i).1 = (step' (view s) i).1)
    (hreplied : ∀ s i, P s → (step s i).2.map say = (step' (view s) i).2) {s : σ} (hs : P s)
    (inputs : List ι) :
    view (after step s inputs) = after step' (view s) inputs ∧
      (outputs step s inputs).map (List.map say) = outputs step' (view s) inputs := by
  induction inputs generalizing s with
  | nil => exact ⟨rfl, rfl⟩
  | cons i rest ih =>
      obtain ⟨hafter, houtputs⟩ := ih (hkeeps s i hs)
      rw [hmoves s i hs] at hafter houtputs
      exact ⟨hafter, by rw [outputs, outputs, List.map_cons, houtputs, hreplied s i hs]⟩

/-- A relation between the history so far and the state, kept by each step of the
run, holds of the whole run. -/
theorem after_history {P : List ι → σ → Prop} {s : σ} (inputs : List ι) (hs : P [] s)
    (hstep : ∀ front i, front ++ [i] <+: inputs → P front (after step s front) →
      P (front ++ [i]) (step (after step s front) i).1) :
    P inputs (after step s inputs) := by
  induction inputs using List.reverseRecOn with
  | nil => exact hs
  | append_singleton front i ih =>
      rw [after_concat]
      refine hstep front i List.prefix_rfl (ih ?_)
      intro front' i' hfront
      exact hstep front' i' (hfront.trans (List.prefix_append front [i]))

end TautShape.Lib
