import TautShape.Lib.Pipes
import TautShape.Held.Refine
/-!
# The loop that the clients share

The clients of an atom, a swmr and a stream node keep the set of the streams that they
still read, and take one frame after another while there is one in it.  Here is that loop,
over whatever else a client keeps, and what it comes to over two pipes.
-/

namespace TautShape.DriveClient

open TautShape.Lib TautShape.Held

/-- How a client ends: with a final line, or with exit code 3 because a response came for
a stream that is not active. -/
inductive Exit where
  | finalLine (state : String)
  | refused
deriving DecidableEq, Repr

variable {κ τ ι ο ρ α δ : Type} (active : κ → BTreeSet String)

/-- The condition of the loop, and the line after it. -/
def loop (line : κ → String) (c : κ) (written : List ι) : Party κ Exit × List ι :=
  if (active c).isEmpty then (.stopped c (.finalLine (line c)), written)
  else (.running c, written)

/-- The read that the client waits for an answer to, if it does. -/
def expects (asks : κ → String → Option ρ) (c : κ) (streamId : String) : Option ρ :=
  if (active c).contains streamId then asks c streamId else none

/-- The client runs as long as it reads a stream, and never meets a response that it does
not wait for. -/
def Fair (exit : Option Exit) (c : κ) : Prop :=
  exit ≠ some .refused ∧ (active c).isEmpty = exit.isSome

def heard (streamOf : α → String) (streamId : String) (out : List (Output α δ)) : List α :=
  Desk.told streamId (out.map (Output.reply streamOf))

/-- The reads of a stream that are under way: on their way to the node, held there, or
answered on the way back. -/
def outstanding (ask : ι → Ask String ρ) (streamOf : α → String)
    (heldOf : τ → String → Option (HeldRead ρ)) (l : Link κ Exit τ ι (Output α δ)) (s : String) :
    Nat :=
  (Link.posts ask s l.up).length + (heldOf l.node s).toList.length +
    (heard streamOf s l.down).length

variable {active}

theorem not_active {c : κ} {exit : Exit} (h : Fair active (some exit) c) (s : String) :
    s ∉ active c := by
  rw [Std.ExtTreeSet.isEmpty_iff.mp h.2]
  exact Std.ExtTreeSet.not_mem_empty

theorem active_of_expects {asks : κ → String → Option ρ} {c : κ} {s : String} {r : ρ}
    (h : expects active asks c s = some r) : s ∈ active c ∧ asks c s = some r := by
  unfold expects at h
  split at h
  · rename_i hcontains
    exact ⟨Std.ExtTreeSet.mem_iff_contains.mpr hcontains, h⟩
  · simp at h

theorem expects_of_active {asks : κ → String → Option ρ} {c : κ} {s : String}
    (h : s ∈ active c) : expects active asks c s = asks c s := by
  rw [expects, if_pos (Std.ExtTreeSet.mem_iff_contains.mp h)]

theorem expects_of_not_active {asks : κ → String → Option ρ} {c : κ} {s : String}
    (h : s ∉ active c) : expects active asks c s = none := by
  rw [expects, if_neg fun hcontains => h (Std.ExtTreeSet.mem_iff_contains.mpr hcontains)]

theorem expects_congr {asks : κ → String → Option ρ} {c c' : κ} {s : String}
    (hactive : s ∈ active c' ↔ s ∈ active c) (hasks : asks c' s = asks c s) :
    expects active asks c' s = expects active asks c s := by
  by_cases hs : s ∈ active c
  · rw [expects_of_active hs, expects_of_active (hactive.mpr hs), hasks]
  · rw [expects_of_not_active hs, expects_of_not_active fun h => hs (hactive.mp h)]

theorem mem_erase_active {set : BTreeSet String} {s t : String} :
    s ∈ set.erase t ↔ t ≠ s ∧ s ∈ set := by
  rw [Std.ExtTreeSet.mem_erase, ne_eq, Std.LawfulEqCmp.compare_eq_iff_eq]

section Hearing

variable {streamOf : α → String}

theorem heard_concat (s : String) (taken : List (Output α δ)) (o : Output α δ) :
    heard streamOf s (taken ++ [o]) = heard streamOf s taken ++ heard streamOf s [o] := by
  rw [heard, List.map_append, Desk.told_append]
  rfl

theorem heard_response (s : String) (a : α) :
    heard (δ := δ) streamOf s [.readResponse a] = if streamOf a = s then [a] else [] :=
  Desk.told_answer s (streamOf a) a

theorem heard_of_not_answer {o : Output α δ} (h : ∀ s a, o.reply streamOf ≠ .answer s a)
    (s : String) : heard streamOf s [o] = [] := by
  cases o with
  | readResponse a => exact absurd rfl (h (streamOf a) a)
  | _ => rfl

end Hearing

section Pipes

variable {asks : κ → String → Option ρ} {ask : ι → Ask String ρ} {line : κ → String}
  {has : List ι → List ο → κ → Prop} {may : List ι → String → ρ → Prop}

theorem goes_loop {fed : List ι} {taken : List ο} {waits : String → Option ρ} {c : κ}
    {written : List ι} (hreads : ∀ i ∈ written, ∃ s r, ask i = .read s r)
    (hhas : has fed taken c)
    (hrenews : ∀ s, Renews (may fed s) (waits s) (expects active asks c s)
      (Link.posts ask s written)) :
    Link.Goes ask (expects active asks) (Fair active) has may fed taken waits
      (loop active line c written) := by
  have hstays : ∀ i ∈ written, ∀ s, ask i ≠ .leave s := by
    intro i hi s hleave
    obtain ⟨s', r, hread⟩ := hreads i hi
    simp [hread] at hleave
  unfold loop
  split
  · rename_i hempty
    refine ⟨hstays, fun c' hc => by simp at hc, fun c' exit hc => ?_⟩
    obtain ⟨rfl, rfl⟩ := Party.stopped.inj hc
    exact ⟨hhas, by simp, hempty⟩
  · rename_i hactive
    refine ⟨hstays, fun c' hc => ?_, fun c' exit hc => by simp at hc⟩
    obtain rfl := Party.running.inj hc
    exact ⟨⟨hhas, by simp, by simpa using hactive⟩, hrenews⟩

theorem goes_on {fed : List ι} {taken : List ο} {c : κ} (hhas : has fed taken c) :
    Link.Goes ask (expects active asks) (Fair active) has may fed taken (expects active asks c)
      (loop active line c []) :=
  goes_loop (by simp) hhas fun _ => .same _

variable (heldOf : τ → String → Option (HeldRead ρ)) {streamOf : α → String}
  {l : Link κ Exit τ ι (Output α δ)} {c : κ} {s : String} {may : ρ → Prop} {right : ρ → α → Prop}

/-- When nothing is in the pipes, the node holds what the client waits for and no more. -/
theorem held_of_rest (h : Standing may right (expects active asks c s) (Link.posts ask s l.up)
      ((heldOf l.node s).map HeldRead.kept)
      (Desk.told s (l.down.map (Output.reply streamOf))))
    (hup : l.up = []) (hdown : l.down = []) :
    (heldOf l.node s).map HeldRead.request = expects active asks c s := by
  rw [hup, hdown] at h
  rw [h.at_desk, Option.map_map]
  rfl

end Pipes

end TautShape.DriveClient
