import TautShape.Lib.Serving
/-!
# When a producer is told to stop

A server of readers tells its producer to stop when nobody is left to read, and when the
producer itself has closed.  The history of inputs and outputs says when that is: who is
present after it, and whether it has a close.
-/

namespace TautShape.Lib

inductive Stop where
  | deserted
  | ended (failed : Bool)
deriving DecidableEq, Repr

/-- What the inputs and outputs of a server mean for its producer. -/
structure Signals (σ ι ο : Type*) where
  presence : ι × List ο → Presence σ
  /-- A close, and whether it is a failure. -/
  closing : ι → Option Bool
  stop : ο → Option Stop

namespace Signals

variable {σ ι ο τ : Type*} [DecidableEq σ] {v : Signals σ ι ο}

def live (v : Signals σ ι ο) (history : List (ι × List ο)) : List σ :=
  roster (history.map v.presence)

def closed (v : Signals σ ι ο) (history : List (ι × List ο)) : Bool :=
  history.any fun event => (v.closing event.1).isSome

def stops (v : Signals σ ι ο) (out : List ο) : List Stop := out.filterMap v.stop

/-- What an event that comes after a history may tell the producer. -/
structure StopLaw (v : Signals σ ι ο) (lastReader : Prop) (history : List (ι × List ο))
    (event : ι × List ο) : Prop where
  /-- Nobody is left, exactly where somebody was there before. -/
  deserted : .deserted ∈ v.stops event.2 ↔
    lastReader ∧ 1 ≤ (v.live history).length ∧ (v.live (history ++ [event])).length = 0
  /-- The last one has left. -/
  leaves : 1 ≤ (v.live history).length → (v.live (history ++ [event])).length = 0 →
    ∃ who, v.presence event = .leave who
  /-- The first close. -/
  ended : ∀ failed, .ended failed ∈ v.stops event.2 ↔
    v.closed history = false ∧ v.closing event.1 = some failed
  last : ∀ failed, .ended failed ∈ v.stops event.2 →
    event.2.getLast?.bind v.stop = some (.ended failed)
  once : (v.stops event.2).Nodup

/-- In every run of a machine, `count` is the number of live streams, and every step
keeps the law. -/
def Lawful (v : Signals σ ι ο) (step : τ → ι → τ × List ο) (t : τ) (count : τ → Nat)
    (lastReader : Prop) : Prop :=
  ∀ inputs, count (after step t inputs) = (v.live (trace step t inputs)).length ∧
    ∀ input, v.StopLaw lastReader (trace step t inputs)
      (input, (step (after step t inputs) input).2)

theorem live_concat (history : List (ι × List ο)) (event : ι × List ο) :
    v.live (history ++ [event]) = (v.presence event).apply (v.live history) := by
  rw [live, List.map_append, List.map_singleton, roster_concat, live]

omit [DecidableEq σ] in
theorem stops_append (front back : List ο) :
    v.stops (front ++ back) = v.stops front ++ v.stops back :=
  List.filterMap_append

omit [DecidableEq σ] in
theorem stops_eq_nil {out : List ο} (h : ∀ o ∈ out, v.stop o = none) : v.stops out = [] :=
  List.filterMap_eq_nil_iff.mpr h

/-! ## What a step says -/

variable {lastReader : Prop} [Decidable lastReader] {order : List σ} {closed : Bool}
  {event : ι × List ο}

def parts (lastReader : Prop) (order : List σ) (who : σ) : Prop :=
  lastReader ∧ who ∈ order ∧ strike order who = []

instance (who : σ) : Decidable (parts lastReader order who) :=
  inferInstanceAs (Decidable (lastReader ∧ who ∈ order ∧ strike order who = []))

def departs : Presence σ → Bool
  | .leave _ => true
  | .join _ | .stay => false

/-- All that a step may say to the producer, where `order` are those present before it and
`closed` says whether there was a close. -/
inductive Tells (v : Signals σ ι ο) (lastReader : Prop) [Decidable lastReader] (order : List σ)
    (closed : Bool) (event : ι × List ο) : Prop
  | nothing (hpresence : departs (v.presence event) = false)
      (hclosing : closed = false → v.closing event.1 = none) (hstops : v.stops event.2 = [])
  | leaving (who : σ) (hpresence : v.presence event = .leave who)
      (hclosing : v.closing event.1 = none)
      (hstops : v.stops event.2 = if parts lastReader order who then [.deserted] else [])
  | ending (failed : Bool) (hpresence : departs (v.presence event) = false)
      (hopen : closed = false) (hclosing : v.closing event.1 = some failed) (front : List ο)
      (notice : ο) (hout : event.2 = front ++ [notice]) (hfront : v.stops front = [])
      (hnotice : v.stop notice = some (.ended failed))

theorem tells_close {input : ι} {out front : List ο} {failed : Bool} {notice : ο}
    (hpresence : departs (v.presence (input, out)) = false)
    (hclosing : v.closing input = some failed)
    (hout : out = if closed then [] else front ++ [notice]) (hfront : v.stops front = [])
    (hnotice : v.stop notice = some (.ended failed)) :
    v.Tells lastReader order closed (input, out) := by
  cases closed with
  | true => exact .nothing hpresence (by simp) (by rw [hout]; rfl)
  | false => exact .ending failed hpresence rfl hclosing front notice hout hfront hnotice

theorem apply_ne_nil {presence : Presence σ} (h : departs presence = false) (order : List σ)
    (hsome : 1 ≤ order.length) : (presence.apply order).length ≠ 0 := by
  cases presence with
  | join who =>
      have hmem : who ∈ enrol order who := mem_enrol.mpr (.inr rfl)
      have hpos := List.length_pos_of_mem hmem
      show (enrol order who).length ≠ 0
      omega
  | leave who => simp [departs] at h
  | stay =>
      show order.length ≠ 0
      omega

theorem parts_iff (lastReader : Prop) (order : List σ) (who : σ) : parts lastReader order who ↔
    lastReader ∧ 1 ≤ order.length ∧ ((Presence.leave who).apply order).length = 0 := by
  rw [parts, Presence.apply, List.length_eq_zero_iff]
  constructor
  · rintro ⟨hlast, hmem, hnone⟩
    have hpos := List.length_pos_of_mem hmem
    exact ⟨hlast, by omega, hnone⟩
  · rintro ⟨hlast, hpos, hnone⟩
    refine ⟨hlast, ?_, hnone⟩
    by_contra hout
    rw [strike_of_not_mem hout] at hnone
    rw [hnone] at hpos
    simp at hpos

omit [Decidable lastReader] in
theorem law_of_stay {history : List (ι × List ο)} (hpresence : departs (v.presence event) = false)
    (hdeserted : .deserted ∉ v.stops event.2)
    (hended : ∀ failed, .ended failed ∈ v.stops event.2 ↔
      v.closed history = false ∧ v.closing event.1 = some failed)
    (hlast : ∀ failed, .ended failed ∈ v.stops event.2 →
      event.2.getLast?.bind v.stop = some (.ended failed))
    (honce : (v.stops event.2).Nodup) : v.StopLaw lastReader history event := by
  have hstays := apply_ne_nil hpresence (v.live history)
  rw [← live_concat] at hstays
  constructor
  case deserted =>
    apply iff_of_false hdeserted
    exact fun ⟨_, hsome, hnone⟩ => hstays hsome hnone
  case leaves => exact fun hsome hnone => absurd hnone (hstays hsome)
  case ended => exact hended
  case last => exact hlast
  case once => exact honce

theorem law_of_leave {history : List (ι × List ο)} (who : σ)
    (hpresence : v.presence event = .leave who) (hclosing : v.closing event.1 = none)
    (hstops : v.stops event.2 =
      if parts lastReader (v.live history) who then [.deserted] else []) :
    v.StopLaw lastReader history event := by
  have hparts := parts_iff lastReader (v.live history) who
  rw [← hpresence, ← live_concat] at hparts
  have hended : ∀ failed, .ended failed ∉ v.stops event.2 := by
    intro failed
    rw [hstops]
    split <;> simp
  constructor
  case deserted =>
    rw [hstops, ← hparts]
    split
    · rename_i hlast
      exact iff_of_true (List.mem_singleton_self _) hlast
    · rename_i hlast
      exact iff_of_false List.not_mem_nil hlast
  case leaves => exact fun _ _ => ⟨who, hpresence⟩
  case ended =>
    intro failed
    rw [hclosing]
    exact iff_of_false (hended failed) (by simp)
  case last => exact fun failed hin => absurd hin (hended failed)
  case once =>
    rw [hstops]
    split <;> simp

theorem Tells.law {history : List (ι × List ο)}
    (h : v.Tells lastReader (v.live history) (v.closed history) event) :
    v.StopLaw lastReader history event := by
  cases h with
  | nothing hpresence hclosing hstops =>
      apply law_of_stay hpresence
      · simp [hstops]
      · intro failed
        rw [hstops]
        apply iff_of_false List.not_mem_nil
        intro ⟨hopen, hsome⟩
        rw [hclosing hopen] at hsome
        cases hsome
      · simp [hstops]
      · simp [hstops]
  | leaving who hpresence hclosing hstops => exact law_of_leave who hpresence hclosing hstops
  | ending failed hpresence hopen hclosing front notice hout hfront hnotice =>
      have hstops : v.stops event.2 = [.ended failed] := by
        rw [hout, stops_append, hfront, List.nil_append, stops, List.filterMap_cons, hnotice]
        rfl
      apply law_of_stay hpresence
      · simp [hstops]
      · intro failed'
        rw [hstops, hclosing, List.mem_singleton, Stop.ended.injEq, Option.some.injEq]
        constructor
        · exact fun heq => ⟨hopen, heq.symm⟩
        · exact fun h => h.2.symm
      · intro failed' hin
        rw [hstops, List.mem_singleton] at hin
        rw [hin, hout, List.getLast?_append, List.getLast?_singleton, Option.some_or,
          Option.bind_some, hnotice]
      · rw [hstops]
        exact List.nodup_singleton _

/-! ## Whole runs -/

variable {step : τ → ι → τ × List ο} {t : τ}

/-- Where the inputs alone say who is present. -/
theorem live_of_inputs {presence : ι → Presence σ}
    (h : ∀ event, v.presence event = presence event.1) (inputs : List ι) :
    v.live (trace step t inputs) = roster (inputs.map presence) := by
  have hmap : (trace step t inputs).map v.presence = inputs.map presence := by
    induction inputs generalizing t with
    | nil => rfl
    | cons input rest ih => rw [trace, List.map_cons, List.map_cons, h, ih]
  rw [live, hmap]

theorem live_of_stands {ρ α : Type*} {view : τ → Desk σ ρ} {policy : τ → Policy σ ρ α}
    {ask : ι → Ask σ ρ} {reply : ο → Reply σ α} {parting : α → Bool} {inv : τ → Prop}
    {inputs : List ι} (h : Desk.Stands view policy parting inv
      (Desk.exchange step ask reply t inputs) (after step t inputs))
    (hpresence : ∀ event, v.presence event =
      Desk.presence parting (ask event.1, event.2.map reply)) :
    v.live (trace step t inputs) = (view (after step t inputs)).order := by
  rw [h.order, live, Desk.exchange, List.map_map]
  congr 1
  apply List.map_congr_left
  exact fun event _ => hpresence event

omit [DecidableEq σ] in
/-- A machine that remembers its closes. -/
theorem closed_after {closedOf : τ → Bool} (hnew : closedOf t = false)
    (hstep : ∀ inputs input, closedOf (step (after step t inputs) input).1 =
      (closedOf (after step t inputs) || (v.closing input).isSome)) (inputs : List ι) :
    closedOf (after step t inputs) = v.closed (trace step t inputs) := by
  induction inputs using List.reverseRecOn with
  | nil => exact hnew
  | append_singleton front input ih =>
      rw [after_concat, hstep, ih, closed, closed, trace_append, List.any_append]
      simp [trace]

/-- A machine is lawful if it counts who is present and knows whether there was a close, and
each of its steps says what these allow. -/
theorem lawful (closedOf : τ → Bool) {count : τ → Nat}
    (hcount : ∀ inputs, count (after step t inputs) = (v.live (trace step t inputs)).length)
    (hnew : closedOf t = false)
    (hclosed : ∀ inputs input, closedOf (step (after step t inputs) input).1 =
      (closedOf (after step t inputs) || (v.closing input).isSome))
    (htells : ∀ inputs input, v.Tells lastReader (v.live (trace step t inputs))
      (closedOf (after step t inputs)) (input, (step (after step t inputs) input).2)) :
    v.Lawful step t count lastReader := by
  intro inputs
  refine ⟨hcount inputs, fun input => ?_⟩
  have hstep := htells inputs input
  rw [closed_after hnew hclosed] at hstep
  exact hstep.law

end Signals

end TautShape.Lib
