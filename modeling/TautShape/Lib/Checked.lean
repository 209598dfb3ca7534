import TautShape.Lib.Machine
/-!
# Runs that may fail

A machine whose steps may fail runs until one does.  Where no step fails it runs as the
plain machine that its steps agree with.
-/

namespace TautShape.Lib

theorem ok_of_bind {α β ε : Type} {x : Except ε α} {f : α → Except ε β} {b : β}
    (h : (x >>= f) = .ok b) : ∃ a, x = .ok a ∧ f a = .ok b := by
  cases x with
  | error e => exact absurd h (by simp [bind, Except.bind])
  | ok a => exact ⟨a, rfl, h⟩

variable {σ ι ο ε : Type*}

/-- The state and the outputs after a run, unless a step fails. -/
def runChecked (step : σ → ι → Except ε (σ × List ο)) : σ → List ι → Except ε (σ × List (List ο))
  | s, [] => .ok (s, [])
  | s, i :: rest => do
      let (s, out) ← step s i
      let (s, later) ← runChecked step s rest
      return (s, out :: later)

variable {stepChecked : σ → ι → Except ε (σ × List ο)} {step : σ → ι → σ × List ο} {s : σ}

theorem runChecked_cons_ok {i : ι} {out : List ο} {s' : σ} (h : stepChecked s i = .ok (s', out))
    (rest : List ι) : runChecked stepChecked s (i :: rest) =
      (runChecked stepChecked s' rest).map fun p => (p.1, out :: p.2) := by
  rw [runChecked, h]
  show (runChecked stepChecked s' rest).bind _ = _
  cases runChecked stepChecked s' rest <;> rfl

theorem runChecked_cons_error {i : ι} {e : ε} (h : stepChecked s i = .error e) (rest : List ι) :
    runChecked stepChecked s (i :: rest) = .error e := by
  rw [runChecked, h]
  rfl

/-- As long as no step fails, the run is that of the plain machine. -/
theorem runChecked_eq {P : σ → Prop} {inputs : List ι} (hs : P s)
    (hkeeps : ∀ s, ∀ i ∈ inputs, P s → P (step s i).1)
    (hstep : ∀ s, ∀ i ∈ inputs, P s → stepChecked s i = .ok (step s i)) :
    runChecked stepChecked s inputs = .ok (after step s inputs, outputs step s inputs) := by
  induction inputs generalizing s with
  | nil => rfl
  | cons i rest ih =>
      have hfirst := hstep s i (by simp) hs
      have hrest := ih (hkeeps s i (by simp) hs)
        (fun s j hj => hkeeps s j (List.mem_cons_of_mem i hj))
        (fun s j hj => hstep s j (List.mem_cons_of_mem i hj))
      rw [runChecked_cons_ok hfirst, hrest]
      rfl

theorem runChecked_concat {front : List ι} {s' : σ} {out : List (List ο)}
    (h : runChecked stepChecked s front = .ok (s', out)) (i : ι) :
    runChecked stepChecked s (front ++ [i]) =
      (stepChecked s' i).map fun p => (p.1, out ++ [p.2]) := by
  induction front generalizing s out with
  | nil =>
      obtain ⟨rfl, rfl⟩ := Prod.mk.inj (Except.ok.inj h)
      cases hstep : stepChecked s i with
      | error e => exact runChecked_cons_error hstep []
      | ok p => exact runChecked_cons_ok hstep []
  | cons j rest ih =>
      cases hstep : stepChecked s j with
      | error e =>
          rw [runChecked_cons_error hstep] at h
          simp at h
      | ok p =>
          rw [runChecked_cons_ok hstep] at h
          cases hrest : runChecked stepChecked p.1 rest with
          | error e =>
              rw [hrest] at h
              simp [Except.map] at h
          | ok q =>
              rw [hrest] at h
              obtain ⟨rfl, rfl⟩ := Prod.mk.inj (Except.ok.inj h)
              rw [List.cons_append, runChecked_cons_ok hstep, ih hrest]
              cases stepChecked q.1 i <;> rfl

theorem runChecked_append_error {front : List ι} {e : ε}
    (h : runChecked stepChecked s front = .error e) (back : List ι) :
    runChecked stepChecked s (front ++ back) = .error e := by
  induction front generalizing s with
  | nil => simp [runChecked] at h
  | cons j rest ih =>
      cases hstep : stepChecked s j with
      | error e' =>
          rw [runChecked_cons_error hstep] at h
          rw [List.cons_append, runChecked_cons_error hstep]
          exact congrArg Except.error (Except.error.inj h)
      | ok p =>
          rw [runChecked_cons_ok hstep] at h
          cases hrest : runChecked stepChecked p.1 rest with
          | error e' =>
              rw [hrest] at h
              obtain rfl := Except.error.inj h
              rw [List.cons_append, runChecked_cons_ok hstep, ih hrest]
              rfl
          | ok q =>
              rw [hrest] at h
              simp [Except.map] at h

end TautShape.Lib
