import TautShape.Held.Refine
import TautShape.Lib.Stopping
/-!
# Notices to the producer

What the shared readers have to say to a producer: nothing but that the last of them is
gone, which only an end can make so.
-/

namespace TautShape.Held

open TautShape.Lib
open TautShape.Log (StopWhen)

variable {ρ α δ ι : Type}

def StopReason.stop : StopReason → Stop
  | .lastReaderGone => .deserted
  | .closed => .ended false
  | .failed => .ended true

def Output.stop : Output α δ → Option Stop
  | .producerStop reason => some reason.stop
  | _ => none

def signals (presence : ι × List (Output α δ) → Presence String) (closing : ι → Option Bool) :
    Signals String ι (Output α δ) where
  presence := presence
  closing := closing
  stop := Output.stop

variable {presence : ι × List (Output α δ) → Presence String} {closing : ι → Option Bool}

theorem stops_of_aboutRead {out : List (Output α δ)} (h : ∀ o ∈ out, o.aboutRead = true) :
    (signals presence closing).stops out = [] := by
  apply Signals.stops_eq_nil
  intro o ho
  have habout := h o ho
  cases o <;> simp_all [Output.aboutRead, signals, Output.stop]

theorem aboutRead_append {front back : List (Output α δ)}
    (hfront : ∀ o ∈ front, o.aboutRead = true) (hback : ∀ o ∈ back, o.aboutRead = true) :
    ∀ o ∈ front ++ back, o.aboutRead = true := by
  intro o ho
  exact (List.mem_append.mp ho).elim (hfront o) (hback o)

theorem aboutRead_singleton {o : Output α δ} (h : o.aboutRead = true) :
    ∀ o' ∈ [o], o'.aboutRead = true := by
  intro o' ho
  rw [List.mem_singleton.mp ho, h]

theorem cancelTimer_aboutRead (token : Option Int) :
    ∀ o ∈ (cancelTimer token : List (Output α δ)), o.aboutRead = true := by
  cases token with
  | none => exact fun _ ho => absurd ho List.not_mem_nil
  | some token => exact aboutRead_singleton rfl

theorem stops_of_last {ν : Type} {m : BTreeMap String ν} {order : List String} {id : String}
    (hid : id ∈ order) (hkeys : ∀ a, a ∈ strike order id ↔ a ∈ m) (stopWhen : StopWhen) :
    (signals presence closing).stops
        (if m.isEmpty ∧ stopWhen = .lastReader then [.producerStop .lastReaderGone] else []) =
      if Signals.parts (stopWhen = .lastReader) order id then [.deserted] else [] := by
  have hparts : Signals.parts (stopWhen = .lastReader) order id ↔
      m.isEmpty = true ∧ stopWhen = .lastReader := by
    rw [Signals.parts, isEmpty_iff_nil hkeys]
    tauto
  by_cases hlast : Signals.parts (stopWhen = .lastReader) order id
  · rw [if_pos hlast, if_pos (hparts.mp hlast)]
    rfl
  · rw [if_neg hlast, if_neg (hlast ∘ hparts.mpr)]
    rfl

namespace Streams

variable {t : Streams ρ}

theorem read_aboutRead (t : Streams ρ) (resolve : String → ρ → Option α)
    (timeoutMs : ρ → Option Int) (id : String) (request : ρ) :
    ∀ o ∈ (t.read (δ := δ) resolve timeoutMs id request).2, o.aboutRead = true := by
  have hcancel := cancelTimer_aboutRead (α := α) (δ := δ)
    (((t.ensureStream id).heldOf id).bind HeldRead.timerToken)
  simp only [read]
  split
  · exact aboutRead_append hcancel (aboutRead_singleton rfl)
  · split
    · exact aboutRead_append hcancel (aboutRead_singleton rfl)
    · exact hcancel

theorem timerExpired_aboutRead (t : Streams ρ) (probe : String → ρ → Option α) (token : Int) :
    ∀ o ∈ (t.timerExpired (δ := δ) probe token).2, o.aboutRead = true := by
  unfold timerExpired
  split
  · exact fun _ ho => absurd ho List.not_mem_nil
  · intro o ho
    obtain ⟨r, -, rfl⟩ := List.mem_map.mp ho
    rfl

theorem endStream_stops (h : t.Wf) (stopWhen : StopWhen) (id : String) :
    (signals presence closing).stops (t.endStream (α := α) (δ := δ) stopWhen id).2 =
      if Signals.parts (stopWhen = .lastReader) t.order id then [.deserted] else [] := by
  have hafter := (h.endStream (α := α) (δ := δ) stopWhen id).keys
  unfold endStream at hafter ⊢
  cases hid : t.streams[id]? with
  | none =>
      have hout : id ∉ t.order := by
        rw [h.keys, Std.ExtTreeMap.mem_iff_isSome_getElem?, hid]
        simp
      rw [if_neg fun hparts => hout hparts.2.1]
      rfl
  | some held =>
      have hin : id ∈ t.order := (h.keys id).mpr (mem_of_getElem?_eq_some hid)
      rw [hid] at hafter
      simp only
      rw [Signals.stops_append, stops_of_aboutRead (cancelTimer_aboutRead _), List.nil_append]
      exact stops_of_last hin hafter stopWhen

theorem size_eq (h : t.Wf) (hsound : t.desk.Sound) : t.streams.size = t.order.length :=
  size_eq_length hsound.nodup h.keys

end Streams

end TautShape.Held
