import TautShape.Tool.Json
import TautShape.Lib.Timetable
import TautShape.Lib.Checked
/-!
# Scripts

A script says after how many frames of the client which inputs are injected.  The steps of
its document are sorted by their trigger, so that one cursor moves over them.
-/

namespace TautShape.Tool

open TautShape.Lib

structure Injection (T : Type) where
  afterFrames : Nat
  inputs : List T

structure Script (T : Type) where
  injections : List (Injection T)

namespace Script

variable {T U : Type}

/-! ## Reading a script -/

def refuse {α : Type} (message : String) : Except Fault α := .error (.error message)

def stepsOf (doc : Json) : Except Fault (List Json) :=
  match doc with
  | .arr a => .ok a
  | .obj _ =>
      match (doc.get "steps").bind Json.asArr with
      | some a => .ok a
      | none => refuse "script object must have a `steps` array"
  | _ => refuse "script must be an array or \x7bsteps: [...]\x7d"

/-- A round of the loop over the steps. -/
def readStep (i : Nat) (step : Json) : Except Fault (Injection Json) :=
  match (step.get "after_frames").bind Json.asI64 with
  | none => refuse ("script step " ++ toString i ++ ": missing integer `after_frames`")
  | some afterFrames =>
      if afterFrames < 0 then
        refuse ("script step " ++ toString i ++ ": `after_frames` must be >= 0")
      else
        match (step.get "inputs").bind Json.asArr with
        | none => refuse ("script step " ++ toString i ++ ": missing `inputs` array")
        | some inputs => .ok { afterFrames := afterFrames.toNat, inputs }

/-- The injections in the order of the file. -/
def inFileOrder (text : String) : Except Fault (List (Injection Json)) := do
  let doc ← Json.parse text
  let steps ← stepsOf doc
  steps.zipIdx.mapM fun (step, i) => readStep i step

def parse (text : String) : Except Fault (Script Json) := do
  let injections ← inFileOrder text
  return { injections := injections.mergeSort fun a b => a.afterFrames ≤ b.afterFrames }

/-- The inner loop of `decode`. -/
def decodeInputs (decode : T → Except String U) (i : Nat) (inputs : List T) :
    Except String (List U) :=
  inputs.zipIdx.mapM fun (input, j) =>
    (decode input).mapError fun error =>
      "script step " ++ toString i ++ " input " ++ toString j ++ ": " ++ error

def decode (script : Script T) (decode : T → Except String U) : Except String (Script U) := do
  let injections ← script.injections.zipIdx.mapM fun (injection, i) => do
    let inputs ← decodeInputs decode i injection.inputs
    return { afterFrames := injection.afterFrames, inputs }
  return { injections }

end Script

/-! ## The cursor -/

/-- What is left of an iterator, with one item ahead of it. -/
structure Pending (T : Type) where
  injections : List (Injection T)
  next : Option (Injection T)

namespace Pending

variable {T : Type}

def new (script : Script T) : Pending T where
  injections := script.injections.tail
  next := script.injections.head?

/-- The loop of `take_due`. -/
def takeDueFrom (processed : Nat) (due : List T) :
    Option (Injection T) → List (Injection T) → List T × Pending T
  | none, injections => (due, { injections, next := none })
  | some inj, injections =>
      if inj.afterFrames ≤ processed then
        match injections with
        | [] => (due ++ inj.inputs, { injections := [], next := none })
        | next :: injections => takeDueFrom processed (due ++ inj.inputs) (some next) injections
      else (due, { injections, next := some inj })

def takeDue (p : Pending T) (processed : Nat) : List T × Pending T :=
  takeDueFrom processed [] p.next p.injections

def drainRemaining (p : Pending T) : List T :=
  (p.next.map Injection.inputs).getD [] ++ p.injections.flatMap Injection.inputs

end Pending

/-! ## What is parsed -/

namespace Script

variable {T U : Type}

def DecodesTo (decode : T → Except String U) (raw : Injection T) (injection : Injection U) : Prop :=
  injection.afterFrames = raw.afterFrames ∧
    List.Forall₂ (fun input decoded => decode input = .ok decoded) raw.inputs injection.inputs

theorem forall₂_of_mapM {α β ε : Type} {f : α × Nat → Except ε β} {l : List α} {k : Nat}
    {out : List β} (h : (l.zipIdx k).mapM f = .ok out) :
    List.Forall₂ (fun a b => ∃ i, f (a, i) = .ok b) l out := by
  induction l generalizing k out with
  | nil =>
      rw [← Except.ok.inj h]
      exact .nil
  | cons a l ih =>
      rw [List.zipIdx_cons, List.mapM_cons] at h
      obtain ⟨b, hhead, h⟩ := ok_of_bind h
      obtain ⟨bs, htail, h⟩ := ok_of_bind h
      rw [← Except.ok.inj h]
      exact .cons ⟨k, hhead⟩ (ih htail)

theorem forall₂_of_decodeInputs {decode : T → Except String U} {i : Nat} {inputs : List T}
    {out : List U} (h : decodeInputs decode i inputs = .ok out) :
    List.Forall₂ (fun input decoded => decode input = .ok decoded) inputs out := by
  apply (forall₂_of_mapM h).imp
  intro input decoded hdecoded
  obtain ⟨j, hj⟩ := hdecoded
  cases hrun : decode input with
  | error e =>
      simp only [hrun, Except.mapError] at hj
      exact absurd hj (by simp)
  | ok u =>
      simp only [hrun, Except.mapError] at hj
      exact hj

theorem decodes_of_decode {script : Script T} {decode : T → Except String U} {out : Script U}
    (h : script.decode decode = .ok out) :
    List.Forall₂ (DecodesTo decode) script.injections out.injections := by
  obtain ⟨injections, hloop, hout⟩ := ok_of_bind h
  rw [← Except.ok.inj hout]
  apply (forall₂_of_mapM hloop).imp
  intro raw injection hround
  obtain ⟨i, hi⟩ := hround
  obtain ⟨inputs, hinputs, hinjection⟩ := ok_of_bind hi
  rw [← Except.ok.inj hinjection]
  exact ⟨rfl, forall₂_of_decodeInputs hinputs⟩

/-! ## What is sorted -/

theorem parseI64_lt {cs : List Char} {n : Int} (h : Json.parseI64 cs = some n) : n < 2 ^ 63 := by
  have hrange : ∀ m : Int, (if -2 ^ 63 ≤ m ∧ m < 2 ^ 63 then some m else none) = some n →
      n < 2 ^ 63 := by
    intro m hm
    split at hm
    case isTrue hbounds =>
        rw [← Option.some.inj hm]
        exact hbounds.2
    case isFalse => exact absurd hm (by simp)
  unfold Json.parseI64 at h
  dsimp only at h
  split at h
  all_goals
    obtain ⟨m, -, hm⟩ := Option.bind_eq_some_iff.mp h
    exact hrange m hm

/-- A count is an integer of 64 bits that is not negative. -/
theorem afterFrames_lt {i : Nat} {step : Json} {injection : Injection Json}
    (h : readStep i step = .ok injection) : injection.afterFrames < 2 ^ 63 := by
  unfold readStep at h
  split at h
  case h_1 => exact absurd h (by simp [refuse])
  case h_2 afterFrames hcount =>
      obtain ⟨value, -, hvalue⟩ := Option.bind_eq_some_iff.mp hcount
      have hlt : afterFrames < 2 ^ 63 := by
        cases value with
        | num text => exact parseI64_lt hvalue
        | str text => exact parseI64_lt hvalue
        | null | bool | arr | obj => exact absurd hvalue (by simp [Json.asI64])
      split at h
      case isTrue => exact absurd h (by simp [refuse])
      case isFalse =>
          split at h
          case h_1 => exact absurd h (by simp [refuse])
          case h_2 =>
              rw [← Except.ok.inj h]
              show afterFrames.toNat < 2 ^ 63
              omega

theorem forall_mem_of_forall₂ {α β : Type} {p : β → Prop} {l : List α} {u : List β}
    (h : List.Forall₂ (fun _ b => p b) l u) : ∀ b ∈ u, p b := by
  induction h with
  | nil => simp
  | cons hb _ ih => simpa using ⟨hb, ih⟩

theorem inFileOrder_lt {text : String} {raw : List (Injection Json)}
    (h : inFileOrder text = .ok raw) : ∀ injection ∈ raw, injection.afterFrames < 2 ^ 63 := by
  obtain ⟨doc, -, h⟩ := ok_of_bind h
  obtain ⟨steps, -, h⟩ := ok_of_bind h
  have hrounds : List.Forall₂ (fun _ injection => injection.afterFrames < 2 ^ 63) steps raw := by
    apply (forall₂_of_mapM h).imp
    intro step injection hround
    obtain ⟨i, hstep⟩ := hround
    exact afterFrames_lt hstep
  exact forall_mem_of_forall₂ hrounds

def decoded (decode : T → Except String U) (raw : Injection T) : Injection U where
  afterFrames := raw.afterFrames
  inputs := raw.inputs.filterMap fun input => (decode input).toOption

theorem filterMap_of_forall₂ {decode : T → Except String U} {inputs : List T} {out : List U}
    (h : List.Forall₂ (fun input u => decode input = .ok u) inputs out) :
    (inputs.filterMap fun input => (decode input).toOption) = out := by
  induction h with
  | nil => rfl
  | cons hinput _ ih =>
      rw [List.filterMap_cons, hinput, ih]
      rfl

theorem DecodesTo.decoded_eq {decode : T → Except String U} {raw : Injection T}
    {injection : Injection U} (h : DecodesTo decode raw injection) :
    decoded decode raw = injection := by
  obtain ⟨hcount, hinputs⟩ := h
  rw [decoded, ← hcount, filterMap_of_forall₂ hinputs]

/-- A script that is parsed and decoded lists the steps of its file by their triggers. -/
theorem exists_steps {text : String} {parsed : Script Json} {decode : Json → Except String U}
    {script : Script U} (hparse : parse text = .ok parsed)
    (hdecode : parsed.decode decode = .ok script) :
    ∃ raw steps, inFileOrder text = .ok raw ∧ List.Forall₂ (DecodesTo decode) raw steps ∧
      script.injections = sortedByCount Injection.afterFrames steps ∧
        ∀ step ∈ steps, step.afterFrames < 2 ^ 63 := by
  obtain ⟨raw, hraw, hsorted⟩ := ok_of_bind hparse
  have hparsed : sortedByCount Injection.afterFrames raw = parsed.injections :=
    congrArg Script.injections (Except.ok.inj hsorted)
  have hdecodes := decodes_of_decode hdecode
  have hmap : parsed.injections.map (decoded decode) = script.injections := by
    rw [← List.forall₂_eq_eq_eq, List.forall₂_map_left_iff]
    exact hdecodes.imp fun _ _ h => h.decoded_eq
  have hall : List.Forall₂ (fun _ injection => DecodesTo decode injection
      (decoded decode injection)) script.injections parsed.injections := by
    apply List.Forall₂.flip
    apply hdecodes.imp
    intro injection out h
    show DecodesTo decode injection (decoded decode injection)
    rwa [h.decoded_eq]
  refine ⟨raw, raw.map (decoded decode), hraw, ?_, ?_, ?_⟩
  · rw [List.forall₂_map_right_iff, List.forall₂_same]
    intro injection hmem
    apply forall_mem_of_forall₂ hall
    rw [← hparsed]
    exact (List.mergeSort_perm raw _).mem_iff.mpr hmem
  · rw [← hmap, ← hparsed]
    apply List.map_mergeSort
    intro a _ b _
    rfl
  · intro step hmem
    obtain ⟨injection, hinjection, rfl⟩ := List.mem_map.mp hmem
    exact inFileOrder_lt hraw injection hinjection

end Script

/-! ## What the cursor hands out -/

namespace Pending

variable {T : Type}

theorem takeDueFrom_eq (processed : Nat) (due : List T) (injections : List (Injection T)) :
    takeDueFrom processed due injections.head? injections.tail =
      (due ++ (injections.takeWhile fun inj => inj.afterFrames ≤ processed).flatMap
          Injection.inputs,
        new { injections := injections.dropWhile fun inj => inj.afterFrames ≤ processed }) := by
  induction injections generalizing due with
  | nil => simp [takeDueFrom, new]
  | cons inj injections ih =>
      rw [List.head?_cons, List.tail_cons, takeDueFrom.eq_def]
      dsimp only
      by_cases hdue : inj.afterFrames ≤ processed
      · rw [if_pos hdue, List.takeWhile_cons_of_pos (by simpa using hdue),
          List.dropWhile_cons_of_pos (by simpa using hdue), List.flatMap_cons, ← List.append_assoc,
          ← ih]
        cases injections with
        | nil => rfl
        | cons next injections => rfl
      · rw [if_neg hdue, List.takeWhile_cons_of_neg (by simpa using hdue),
          List.dropWhile_cons_of_neg (by simpa using hdue), List.flatMap_nil, List.append_nil]
        rfl

theorem takeDue_new (injections : List (Injection T)) (processed : Nat) :
    (new { injections }).takeDue processed =
      ((injections.takeWhile fun inj => inj.afterFrames ≤ processed).flatMap Injection.inputs,
        new { injections := injections.dropWhile fun inj => inj.afterFrames ≤ processed }) :=
  takeDueFrom_eq processed [] injections

theorem drainRemaining_new (injections : List (Injection T)) :
    (new { injections }).drainRemaining = injections.flatMap Injection.inputs := by
  cases injections with
  | nil => rfl
  | cons inj injections => rfl

theorem takeDueFrom_drain (processed : Nat) (due : List T) (next : Option (Injection T))
    (injections : List (Injection T)) :
    (takeDueFrom processed due next injections).1 ++
        (takeDueFrom processed due next injections).2.drainRemaining =
      due ++ drainRemaining { injections, next } := by
  induction injections generalizing due next with
  | nil =>
      cases next with
      | none => rfl
      | some inj =>
          rw [takeDueFrom.eq_def]
          dsimp only
          split
          · simp [drainRemaining]
          · rfl
  | cons first rest ih =>
      cases next with
      | none => rfl
      | some inj =>
          rw [takeDueFrom.eq_def]
          dsimp only
          split
          · rw [ih]
            simp [drainRemaining]
          · rfl

theorem takeDue_drain (p : Pending T) (processed : Nat) :
    (p.takeDue processed).1 ++ (p.takeDue processed).2.drainRemaining = p.drainRemaining :=
  takeDueFrom_drain processed [] p.next p.injections

theorem takeDueFrom_next (processed : Nat) (due : List T) (next : Option (Injection T))
    (injections : List (Injection T)) {inj : Injection T}
    (h : (takeDueFrom processed due next injections).2.next = some inj) :
    processed < inj.afterFrames := by
  induction injections generalizing due next with
  | nil =>
      cases next with
      | none => simp [takeDueFrom] at h
      | some first =>
          rw [takeDueFrom.eq_def] at h
          dsimp only at h
          split at h
          · simp at h
          · rename_i hlate
            obtain rfl := Option.some.inj h
            omega
  | cons second rest ih =>
      cases next with
      | none => simp [takeDueFrom] at h
      | some first =>
          rw [takeDueFrom.eq_def] at h
          dsimp only at h
          split at h
          · exact ih _ _ h
          · rename_i hlate
            obtain rfl := Option.some.inj h
            omega

theorem takeDue_next (p : Pending T) (processed : Nat) {inj : Injection T}
    (h : (p.takeDue processed).2.next = some inj) : processed < inj.afterFrames :=
  takeDueFrom_next processed [] p.next p.injections h

/-- The steps not yet handed out before a count. -/
def due (steps : List (Injection T)) (k : Nat) : Pending T :=
  new { injections := (sortedByCount Injection.afterFrames steps).filter fun step =>
    k ≤ step.afterFrames }

theorem new_sorted (steps : List (Injection T)) :
    new { injections := sortedByCount Injection.afterFrames steps } = due steps 0 := by
  simp [due]

/-- One call at each count hands out the steps of the count.  The counter may wrap around,
as no step is left by then. -/
theorem takeDue_due {steps : List (Injection T)} (hlt : ∀ step ∈ steps, step.afterFrames < 2 ^ 63)
    (k : Nat) : (due steps k).takeDue (k % 2 ^ 64) =
      (itemsAt Injection.afterFrames Injection.inputs steps k, due steps (k + 1)) := by
  by_cases hk : k < 2 ^ 64
  · rw [Nat.mod_eq_of_lt hk, due, takeDue_new, takeWhile_sortedByCount, dropWhile_sortedByCount]
    rfl
  · have hlast : lastCount Injection.afterFrames steps < k :=
      Nat.lt_of_lt_of_le (lastCount_lt _ _ (by omega) hlt) (by omega)
    have hnone : due steps k = new { injections := [] } := by
      rw [due, filter_eq_nil_of_last_lt _ _ hlast]
    have hnone' : due steps (k + 1) = new { injections := [] } := by
      rw [due, filter_eq_nil_of_last_lt _ _ (Nat.lt_succ_of_lt hlast)]
    rw [hnone, hnone', takeDue_new, itemsAt_of_last_lt _ _ _ hlast]
    rfl

theorem drainRemaining_due (steps : List (Injection T)) (k : Nat) :
    (due steps k).drainRemaining = itemsFrom Injection.afterFrames Injection.inputs steps k := by
  rw [due, drainRemaining_new, flatMap_sortedByCount]

end Pending

end TautShape.Tool
