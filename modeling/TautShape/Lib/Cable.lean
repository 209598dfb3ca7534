import TautShape.Lib.Pipes
/-!
# Messages over pipes of bytes

Two processes exchange messages through two pipes of bytes.  The bytes arrive in pieces of
any size, and a process that reads waits until a whole message has arrived.  A process that
has ended exits some time later; from then on the other one finds the end of its pipe, and
cannot write any more.  As long as each message comes back from its bytes, what holds of two
processes that exchange whole messages holds here too, whatever the pieces: that is the rule
`Cable.run_induction`.
-/

namespace TautShape.Lib

variable {κ φ τ ψ μ ρ B : Type*}

/-- How messages lie in bytes, and what a reader gets of the bytes that have arrived: nothing
while it waits for more.  A pipe is closed when nobody writes to it any more and all that
was written has arrived. -/
structure Framing (μ ρ B : Type*) where
  wire : μ → List B
  next : (closed : Bool) → List B → Option (ρ × List B)
  whole : μ → ρ
  ended : ρ
  next_open : next false [] = none
  next_closed : next true [] = some (ended, [])

namespace Framing

/-- A message that comes back from its bytes, and not from fewer. -/
structure Passes (f : Framing μ ρ B) (m : μ) : Prop where
  next_wire : ∀ closed rest, f.next closed (f.wire m ++ rest) = some (f.whole m, rest)
  next_cut : ∀ n < (f.wire m).length, f.next false ((f.wire m).take n) = none

theorem eq_nil_of_wires {f : Framing μ ρ B} {ms : List μ} (hpasses : ∀ m ∈ ms, f.Passes m)
    (h : ms.flatMap f.wire = []) : ms = [] := by
  cases ms with
  | nil => rfl
  | cons m later =>
      have hnone : f.wire m = [] := (List.append_eq_nil_iff.mp h).1
      have hnext := (hpasses m List.mem_cons_self).next_wire false []
      rw [hnone, List.append_nil, f.next_open] at hnext
      simp at hnext

inductive Gets (f : Framing μ ρ B) (closed : Bool) (arrived written : List B) (ms : List μ) : Prop
  | waits (hnext : f.next closed arrived = none)
  | message (m : μ) (later : List μ) (rest : List B) (hms : ms = m :: later)
      (hnext : f.next closed arrived = some (f.whole m, rest))
      (hrest : rest ++ written = later.flatMap f.wire)
  | ends (hms : ms = []) (hclosed : closed = true)
      (hnext : f.next closed arrived = some (f.ended, []))

theorem gets {f : Framing μ ρ B} {closed : Bool} {arrived written : List B} {ms : List μ}
    (hpasses : ∀ m ∈ ms, f.Passes m) (hbytes : arrived ++ written = ms.flatMap f.wire)
    (hclosed : closed = true → written = []) : f.Gets closed arrived written ms := by
  cases ms with
  | nil =>
      obtain rfl : arrived = [] := (List.append_eq_nil_iff.mp hbytes).1
      cases closed with
      | false => exact .waits f.next_open
      | true => exact .ends rfl rfl f.next_closed
  | cons m later =>
      have hm := hpasses m List.mem_cons_self
      rw [List.flatMap_cons] at hbytes
      rcases List.append_eq_append_iff.mp hbytes with ⟨rest, hwire, hwritten⟩ | ⟨rest, harrived, hlater⟩
      · -- what is missing of the message is still under way
        by_cases hrest : rest = []
        · rw [hrest, List.append_nil] at hwire
          refine .message m later [] rfl ?_ ?_
          · rw [← hwire]
            have hnext := hm.next_wire closed []
            rwa [List.append_nil] at hnext
          · rw [hrest, List.nil_append] at hwritten
            rw [List.nil_append, hwritten]
        · cases closed with
          | true =>
              have hnone := hclosed rfl
              rw [hwritten, List.append_eq_nil_iff] at hnone
              exact absurd hnone.1 hrest
          | false =>
              have hlt : arrived.length < (f.wire m).length := by
                have hpos := List.length_pos_of_ne_nil hrest
                rw [hwire, List.length_append]
                omega
              have hcut := hm.next_cut arrived.length hlt
              rw [hwire, List.take_left] at hcut
              exact .waits hcut
      · exact .message m later rest rfl (by rw [harrived, hm.next_wire]) hlater.symm

end Framing

/-- What a process does with each thing that it reads.  What it writes in a turn lies in a
buffer up to the end of the turn; `cut` is the turn up to a write that fails, behind as many
messages as the buffer takes. -/
structure Process (κ φ μ ρ : Type*) where
  turn : κ → ρ → Party κ φ × List μ
  cut : κ → ρ → Nat → Party κ φ

/-- A turn, or where it is cut: a process that has something to write cannot when its reader
is gone.  A reader that goes while a turn is written counts as gone before it. -/
def Process.go (p : Process κ φ μ ρ) (gone : Bool) (room : Nat) (k : κ) (r : ρ) :
    Party κ φ × List μ :=
  if gone && !(p.turn k r).2.isEmpty then (p.cut k r room, []) else p.turn k r

/-- A process, whether it has exited, the bytes that have arrived for it, the bytes it has
written that have not arrived yet, and all that it has sent. -/
structure Station (κ φ μ B : Type*) where
  party : Party κ φ
  exited : Bool
  arrived : List B
  written : List B
  sent : List μ

namespace Station

variable (f : Framing μ ρ B)

def post (s : Station κ φ μ B) (turn : Party κ φ × List μ) : Station κ φ μ B :=
  { s with
    party := turn.1
    written := s.written ++ turn.2.flatMap f.wire
    sent := s.sent ++ turn.2 }

def exit (s : Station κ φ μ B) : Station κ φ μ B := { s with exited := s.party.outcome.isSome }

/-- Nobody reads any more. -/
def gone (s : Station κ φ μ B) : Bool := s.exited && s.party.outcome.isSome

/-- Nobody writes any more, and all that was written has arrived. -/
def hungUp (s : Station κ φ μ B) : Bool := s.gone && s.written.isEmpty

/-- A read, as far as there is something to get and somebody who reads. -/
def read (p : Process κ φ μ ρ) (room : Nat) (gone closed : Bool) (s : Station κ φ μ B) :
    Station κ φ μ B :=
  match s.party, f.next closed s.arrived with
  | .running k, some (r, rest) => { s with arrived := rest }.post f (p.go gone room k r)
  | _, _ => s

theorem exists_stopped {s : Station κ φ μ B} (h : s.gone = true) :
    ∃ k o, s.party = .stopped k o := by
  have hstopped := (Bool.and_eq_true_iff.mp h).2
  cases hparty : s.party with
  | running k => simp [hparty, Party.outcome] at hstopped
  | stopped k o => exact ⟨k, o, rfl⟩

theorem sent_read {p : Process κ φ μ ρ} {room : Nat} {gone closed : Bool}
    (s : Station κ φ μ B) : s.sent <+: (s.read f p room gone closed).sent := by
  unfold read
  split
  · exact List.prefix_append _ _
  · exact List.prefix_rfl

end Station

structure Cable (κ φ τ ψ μ B : Type*) where
  near : Station κ φ μ B
  far : Station τ ψ μ B

/-- What may happen next: one of the two reads, with so much room in its buffer, or bytes
arrive for it, or it exits. -/
inductive Haul where
  | near (room : Nat)
  | far (room : Nat)
  | toNear (bytes : Nat)
  | toFar (bytes : Nat)
  | exitNear
  | exitFar

namespace Cable

def swap (c : Cable κ φ τ ψ μ B) : Cable τ ψ κ φ μ B := ⟨c.far, c.near⟩

def arriveNear (n : Nat) (c : Cable κ φ τ ψ μ B) : Cable κ φ τ ψ μ B where
  near := { c.near with arrived := c.near.arrived ++ c.far.written.take n }
  far := { c.far with written := c.far.written.drop n }

section run

variable (f : Framing μ ρ B) (p : Process κ φ μ ρ) (q : Process τ ψ μ ρ)

def readNear (room : Nat) (c : Cable κ φ τ ψ μ B) : Cable κ φ τ ψ μ B :=
  { c with near := c.near.read f p room c.far.gone c.far.hungUp }

def haul (c : Cable κ φ τ ψ μ B) : Haul → Cable κ φ τ ψ μ B
  | .near room => c.readNear f p room
  | .far room => (c.swap.readNear f q room).swap
  | .toNear n => c.arriveNear n
  | .toFar n => (c.swap.arriveNear n).swap
  | .exitNear => { c with near := c.near.exit }
  | .exitFar => { c with far := c.far.exit }

def run (c : Cable κ φ τ ψ μ B) (hauls : List Haul) : Cable κ φ τ ψ μ B :=
  hauls.foldl (haul f p q) c

def opening (near : Party κ φ × List μ) (far : Party τ ψ × List μ) : Cable κ φ τ ψ μ B :=
  ⟨Station.post f ⟨near.1, false, [], [], []⟩ near, Station.post f ⟨far.1, false, [], [], []⟩ far⟩

end run

variable {f : Framing μ ρ B} {p : Process κ φ μ ρ} {q : Process τ ψ μ ρ}

theorem run_concat (c : Cable κ φ τ ψ μ B) (front : List Haul) (h : Haul) :
    c.run f p q (front ++ [h]) = (c.run f p q front).haul f p q h := by
  simp [run]

def sent (c : Cable κ φ τ ψ μ B) : List μ := c.near.sent ++ c.far.sent

theorem sent_haul {c : Cable κ φ τ ψ μ B} {m : μ} (hm : m ∈ c.sent) (h : Haul) :
    m ∈ (c.haul f p q h).sent := by
  rcases List.mem_append.mp hm with hm | hm
  · apply List.mem_append_left
    cases h with
    | near room => exact (Station.sent_read f c.near).subset hm
    | _ => exact hm
  · apply List.mem_append_right
    cases h with
    | far room => exact (Station.sent_read f c.far).subset hm
    | _ => exact hm

structure Carries (f : Framing μ ρ B) (c : Cable κ φ τ ψ μ B) (ups downs : List μ) : Prop where
  up : c.far.arrived ++ c.near.written = ups.flatMap f.wire
  down : c.near.arrived ++ c.far.written = downs.flatMap f.wire
  upSent : ∀ m ∈ ups, m ∈ c.near.sent
  downSent : ∀ m ∈ downs, m ∈ c.far.sent

theorem Carries.swap {c : Cable κ φ τ ψ μ B} {ups downs : List μ} (h : c.Carries f ups downs) :
    c.swap.Carries f downs ups :=
  ⟨h.down, h.up, h.downSent, h.upSent⟩

theorem Carries.arriveNear {c : Cable κ φ τ ψ μ B} {ups downs : List μ}
    (h : c.Carries f ups downs) (n : Nat) : (c.arriveNear n).Carries f ups downs := by
  refine ⟨h.up, ?_, h.upSent, h.downSent⟩
  show c.near.arrived ++ c.far.written.take n ++ c.far.written.drop n = _
  rw [List.append_assoc, List.take_append_drop, h.down]

def Keeps (f : Framing μ ρ B) (P : Party κ φ → List μ → Party τ ψ → List μ → Prop)
    (c : Cable κ φ τ ψ μ B) : Prop :=
  ∃ ups downs, c.Carries f ups downs ∧ P c.near.party ups c.far.party downs

theorem Keeps.swap {P : Party κ φ → List μ → Party τ ψ → List μ → Prop} {c : Cable κ φ τ ψ μ B}
    (h : c.Keeps f P) : c.swap.Keeps f fun t downs k ups => P k ups t downs := by
  obtain ⟨ups, downs, hcarries, hholds⟩ := h
  exact ⟨downs, ups, hcarries.swap, hholds⟩

theorem Keeps.arriveNear {P : Party κ φ → List μ → Party τ ψ → List μ → Prop}
    {c : Cable κ φ τ ψ μ B} (h : c.Keeps f P) (n : Nat) : (c.arriveNear n).Keeps f P := by
  obtain ⟨ups, downs, hcarries, hholds⟩ := h
  exact ⟨ups, downs, hcarries.arriveNear n, hholds⟩

/-- What a process does with a message, and with the end, keeps `P`, also where it cannot
write what it wants to. -/
structure Hears (f : Framing μ ρ B) (p : Process κ φ μ ρ)
    (P : Party κ φ → List μ → Party τ ψ → List μ → Prop) : Prop where
  message : ∀ k ups t m downs, P (.running k) ups t (m :: downs) →
    P (p.turn k (f.whole m)).1 (ups ++ (p.turn k (f.whole m)).2) t downs
  ended : ∀ k ups t o, P (.running k) ups (.stopped t o) [] →
    P (p.turn k f.ended).1 (ups ++ (p.turn k f.ended).2) (.stopped t o) []
  messageCut : ∀ k ups t o m downs room, P (.running k) ups (.stopped t o) (m :: downs) →
    (p.turn k (f.whole m)).2 ≠ [] → P (p.cut k (f.whole m) room) ups (.stopped t o) downs
  endedCut : ∀ k ups t o room, P (.running k) ups (.stopped t o) [] →
    (p.turn k f.ended).2 ≠ [] → P (p.cut k f.ended room) ups (.stopped t o) []

namespace Hears

variable {P : Party κ φ → List μ → Party τ ψ → List μ → Prop}

theorem goMessage (h : Hears f p P) {k : κ} {ups : List μ} {t : Party τ ψ} {m : μ}
    {downs : List μ} {gone : Bool} (hgone : gone = true → ∃ t' o, t = .stopped t' o) (room : Nat)
    (hholds : P (.running k) ups t (m :: downs)) :
    P (p.go gone room k (f.whole m)).1 (ups ++ (p.go gone room k (f.whole m)).2) t downs := by
  rw [Process.go]
  split
  case isTrue hcut =>
      rw [Bool.and_eq_true, Bool.not_eq_true', List.isEmpty_eq_false_iff] at hcut
      obtain ⟨t, o, rfl⟩ := hgone hcut.1
      rw [List.append_nil]
      exact h.messageCut k ups t o m downs room hholds hcut.2
  case isFalse => exact h.message k ups t m downs hholds

theorem goEnded (h : Hears f p P) {k : κ} {ups : List μ} {t : τ} {o : ψ} (gone : Bool)
    (room : Nat) (hholds : P (.running k) ups (.stopped t o) []) :
    P (p.go gone room k f.ended).1 (ups ++ (p.go gone room k f.ended).2) (.stopped t o) [] := by
  rw [Process.go]
  split
  case isTrue hcut =>
      rw [Bool.and_eq_true, Bool.not_eq_true', List.isEmpty_eq_false_iff] at hcut
      rw [List.append_nil]
      exact h.endedCut k ups t o room hholds hcut.2
  case isFalse => exact h.ended k ups t o hholds

end Hears

theorem Carries.post {c : Cable κ φ τ ψ μ B} {ups downs : List μ} (h : c.Carries f ups downs)
    {later : List μ} {rest : List B} (hrest : rest ++ c.far.written = later.flatMap f.wire)
    (hlater : ∀ m ∈ later, m ∈ downs) (turn : Party κ φ × List μ) :
    Carries f { c with near := { c.near with arrived := rest }.post f turn }
      (ups ++ turn.2) later := by
  refine ⟨?_, hrest, ?_, fun m hm => h.downSent m (hlater m hm)⟩
  · show c.far.arrived ++ (c.near.written ++ turn.2.flatMap f.wire) = _
    rw [← List.append_assoc, h.up, List.flatMap_append]
  · intro m hm
    rcases List.mem_append.mp hm with hm | hm
    · exact List.mem_append_left _ (h.upSent m hm)
    · exact List.mem_append_right _ hm

theorem Keeps.readNear {P : Party κ φ → List μ → Party τ ψ → List μ → Prop}
    {c : Cable κ φ τ ψ μ B} (h : c.Keeps f P) (hhears : Hears f p P) (room : Nat)
    (hpasses : ∀ m ∈ c.far.sent, f.Passes m) : (c.readNear f p room).Keeps f P := by
  obtain ⟨ups, downs, hcarries, hholds⟩ := h
  have hsame : c.Keeps f P := ⟨ups, downs, hcarries, hholds⟩
  have hclosed : c.far.hungUp = true → c.far.written = [] := fun hup =>
    List.isEmpty_iff.mp (Bool.and_eq_true_iff.mp hup).2
  have hgets := Framing.gets (fun m hm => hpasses m (hcarries.downSent m hm)) hcarries.down hclosed
  rw [Cable.readNear, Station.read]
  cases hparty : c.near.party with
  | stopped k o => exact hsame
  | running k =>
      rw [hparty] at hholds
      cases hgets with
      | waits hnext =>
          rw [hnext]
          exact hsame
      | message m later rest hms hnext hrest =>
          rw [hnext]
          subst hms
          refine ⟨_, later, hcarries.post hrest (fun m hm => List.mem_cons_of_mem _ hm)
            (p.go c.far.gone room k (f.whole m)), ?_⟩
          exact hhears.goMessage Station.exists_stopped room hholds
      | ends hms hup hnext =>
          rw [hnext]
          subst hms
          obtain ⟨hgone, hempty⟩ := Bool.and_eq_true_iff.mp hup
          obtain ⟨t, o, hfar⟩ := Station.exists_stopped hgone
          refine ⟨_, [], hcarries.post ?_ (fun m hm => hm) (p.go c.far.gone room k f.ended), ?_⟩
          · rw [List.isEmpty_iff.mp hempty]
            rfl
          · show P _ _ c.far.party []
            rw [hfar] at hholds ⊢
            exact hhears.goEnded c.far.gone room hholds

/-- What holds at first of the two processes and the messages between them, and is kept
when one of them reads a whole message or the end, holds after every schedule whose
messages come back from their bytes. -/
theorem run_induction {P : Party κ φ → List μ → Party τ ψ → List μ → Prop}
    {near : Party κ φ × List μ} {far : Party τ ψ × List μ}
    (hopening : P near.1 near.2 far.1 far.2) (hnear : Hears f p P)
    (hfar : Hears f q fun t downs k ups => P k ups t downs) {hauls : List Haul}
    (hpasses : ∀ m ∈ ((opening f near far).run f p q hauls).sent, f.Passes m) :
    ((opening f near far).run f p q hauls).Keeps f P := by
  induction hauls using List.reverseRecOn with
  | nil => exact ⟨near.2, far.2, ⟨rfl, rfl, fun m hm => hm, fun m hm => hm⟩, hopening⟩
  | append_singleton front h ih =>
      rw [run_concat] at hpasses ⊢
      generalize (opening f near far).run f p q front = c at ih hpasses ⊢
      have hbefore : ∀ m ∈ c.sent, f.Passes m := fun m hm => hpasses m (sent_haul hm h)
      have hkeeps := ih hbefore
      cases h with
      | near room =>
          exact hkeeps.readNear hnear room fun m hm => hbefore m (List.mem_append_right _ hm)
      | far room =>
          have hswapped := hkeeps.swap.readNear hfar room fun m hm =>
            hbefore m (List.mem_append_left _ hm)
          exact hswapped.swap
      | toNear n => exact hkeeps.arriveNear n
      | toFar n => exact (hkeeps.swap.arriveNear n).swap
      | exitNear | exitFar =>
          obtain ⟨ups, downs, ⟨hup, hdown, hupSent, hdownSent⟩, hholds⟩ := hkeeps
          exact ⟨ups, downs, ⟨hup, hdown, hupSent, hdownSent⟩, hholds⟩

end Cable

end TautShape.Lib
