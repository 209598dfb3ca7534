import TautShape.Lib.Ledger
import TautShape.Lib.Roster
import TautShape.Lib.Sweep
/-!
# A desk of held requests

What a server of long polls does with the requests it cannot answer at once.  The
desk knows nothing of what the answers are about: a `Policy` says what a request is
told now, and the desk keeps at most one request per stream, arms and gives back
timers, and goes through the kept requests when something has changed.

`Sound` and `Settled` are what every turn of the desk keeps, and `presence` says who is
there.
-/

namespace TautShape.Lib

variable {σ ρ α : Type*}

structure Kept (ρ : Type*) where
  request : ρ
  timer : Option Nat

/-- What requests are told at one moment. -/
structure Policy (σ ρ α : Type*) where
  /-- The answer to a request; `none` when it has to wait. -/
  answer : σ → ρ → Option α
  /-- The answer to a request whose timer ran out. -/
  late : σ → ρ → Option α
  /-- Whether a request that waits gets a timer. -/
  timed : ρ → Bool
  /-- An answer after which the stream is gone. -/
  parting : α → Bool

structure Desk (σ ρ : Type*) where
  /-- The streams there are, in the order of their arrival. -/
  order : List σ
  kept : σ → Option (Kept ρ)
  /-- How many timers were armed so far. -/
  timers : Nat

namespace Desk

def new : Desk σ ρ := ⟨[], fun _ => none, 0⟩

def giveBack (k : Option (Kept ρ)) : List (Reply σ α) :=
  (k.bind Kept.timer).toList.map .disarm

variable [DecidableEq σ]

def put (d : Desk σ ρ) (s : σ) (k : Option (Kept ρ)) : Desk σ ρ :=
  { d with kept := Function.update d.kept s k }

/-- A request takes the place of the one its stream may have at the desk. -/
def read (P : Policy σ ρ α) (d : Desk σ ρ) (s : σ) (r : ρ) : Desk σ ρ × List (Reply σ α) :=
  match P.answer s r with
  | some a =>
      let order := if P.parting a then strike d.order s else enrol d.order s
      ({ d.put s none with order := order }, giveBack (d.kept s) ++ [.answer s a])
  | none =>
      let d' := { d with order := enrol d.order s }
      if P.timed r then
        ({ d'.put s (some ⟨r, some (d.timers + 1)⟩) with timers := d.timers + 1 },
          giveBack (d.kept s) ++ [.arm (d.timers + 1)])
      else
        (d'.put s (some ⟨r, none⟩), giveBack (d.kept s))

def visit (P : Policy σ ρ α) (d : Desk σ ρ) (s : σ) : Desk σ ρ × List (Reply σ α) :=
  match d.kept s with
  | none => (d, [])
  | some k =>
      match P.answer s k.request with
      | none => (d, [])
      | some a => (d.put s none, giveBack (some k) ++ [.answer s a])

def wake (P : Policy σ ρ α) (d : Desk σ ρ) : Desk σ ρ × List (Reply σ α) :=
  (after (visit P) d d.order, (outputs (visit P) d d.order).flatten)

def leave (d : Desk σ ρ) (s : σ) : Desk σ ρ × List (Reply σ α) :=
  ({ d.put s none with order := strike d.order s }, giveBack (d.kept s))

def expire (P : Policy σ ρ α) (d : Desk σ ρ) (t : Nat) : Desk σ ρ × List (Reply σ α) :=
  match d.order.find? fun s => (d.kept s).bind Kept.timer = some t with
  | none => (d, [])
  | some s =>
      (d.put s none, ((d.kept s).bind fun k => P.late s k.request).toList.map (.answer s))

def serve (P : Policy σ ρ α) (d : Desk σ ρ) : Ask σ ρ → Desk σ ρ × List (Reply σ α)
  | .read s r => d.read P s r
  | .leave s => d.leave s
  | .expire t => d.expire P t
  | .wake => d.wake P
  | .quiet => (d, [])

variable {P : Policy σ ρ α} {d : Desk σ ρ}

@[simp] theorem put_kept (s s' : σ) (k : Option (Kept ρ)) :
    (d.put s k).kept s' = if s' = s then k else d.kept s' := Function.update_apply ..

@[simp] theorem put_order (s : σ) (k : Option (Kept ρ)) : (d.put s k).order = d.order := rfl

@[simp] theorem put_timers (s : σ) (k : Option (Kept ρ)) : (d.put s k).timers = d.timers := rfl

theorem put_self {s : σ} {k : Option (Kept ρ)} (h : d.kept s = k) : d.put s k = d := by
  rw [put, ← h, Function.update_eq_self]

theorem read_of_answer {s : σ} {r : ρ} {a : α} (h : P.answer s r = some a)
    (hparting : P.parting a = false) :
    d.read P s r = ({ d.put s none with order := enrol d.order s },
      giveBack (d.kept s) ++ [.answer s a]) := by
  simp only [read, h, hparting, Bool.false_eq_true, if_false]

theorem read_of_parting {s : σ} {r : ρ} {a : α} (h : P.answer s r = some a)
    (hparting : P.parting a = true) :
    d.read P s r = ({ d.put s none with order := strike d.order s },
      giveBack (d.kept s) ++ [.answer s a]) := by
  simp only [read, h, hparting, if_true]

theorem read_of_timed {s : σ} {r : ρ} (h : P.answer s r = none) (htimed : P.timed r = true) :
    d.read P s r =
      ({ d.put s (some ⟨r, some (d.timers + 1)⟩) with
          order := enrol d.order s, timers := d.timers + 1 },
        giveBack (d.kept s) ++ [.arm (d.timers + 1)]) := by
  simp only [read, h, htimed, if_true]
  rfl

theorem read_of_untimed {s : σ} {r : ρ} (h : P.answer s r = none) (htimed : P.timed r = false) :
    d.read P s r = ({ d.put s (some ⟨r, none⟩) with order := enrol d.order s },
      giveBack (d.kept s)) := by
  simp only [read, h, htimed, Bool.false_eq_true, if_false]
  rfl

/-! ## What the desk keeps -/

structure Sound (d : Desk σ ρ) : Prop where
  nodup : d.order.Nodup
  listed : ∀ s k, d.kept s = some k → s ∈ d.order
  bounded : ∀ s k t, d.kept s = some k → k.timer = some t → 1 ≤ t ∧ t ≤ d.timers
  /-- A timer belongs to one stream. -/
  distinct : ∀ s s' k k' t, d.kept s = some k → d.kept s' = some k' →
    k.timer = some t → k'.timer = some t → s = s'

/-- No kept request could be answered. -/
def Settled (d : Desk σ ρ) (P : Policy σ ρ α) : Prop :=
  ∀ s k, d.kept s = some k → P.answer s k.request = none

omit [DecidableEq σ] in
theorem sound_new : (new : Desk σ ρ).Sound := by
  constructor <;> simp [new]

omit [DecidableEq σ] in
theorem settled_new (P : Policy σ ρ α) : (new : Desk σ ρ).Settled P := by
  intro s k hk
  simp [new] at hk

theorem Sound.clear (h : d.Sound) (s : σ) : (d.put s none).Sound := by
  have hold : ∀ {s' k}, (d.put s none).kept s' = some k → d.kept s' = some k := by
    intro s' k hk
    rw [put_kept] at hk
    split at hk
    · simp at hk
    · exact hk
  exact ⟨h.nodup, fun s' k hk => h.listed s' k (hold hk),
    fun s' k t hk => h.bounded s' k t (hold hk),
    fun s' s'' k k' t hk hk' => h.distinct s' s'' k k' t (hold hk) (hold hk')⟩

theorem Sound.enrol (h : d.Sound) (s : σ) : { d with order := enrol d.order s }.Sound :=
  { h with
    nodup := enrol_nodup h.nodup s
    listed := fun s' k hk => mem_enrol.mpr (.inl (h.listed s' k hk)) }

theorem Sound.strike (h : d.Sound) {s : σ} (hs : d.kept s = none) :
    { d with order := strike d.order s }.Sound :=
  { h with
    nodup := strike_nodup h.nodup s
    listed := by
      intro s' k hk
      refine mem_strike.mpr ⟨h.listed s' k hk, ?_⟩
      rintro rfl
      simp [hs] at hk }

theorem Sound.keep (h : d.Sound) {s : σ} (hs : s ∈ d.order) (r : ρ) :
    (d.put s (some ⟨r, none⟩)).Sound := by
  have hold : ∀ {s' k t}, (d.put s (some ⟨r, none⟩)).kept s' = some k → k.timer = some t →
      d.kept s' = some k := by
    intro s' k t hk ht
    rw [put_kept] at hk
    split at hk
    · obtain rfl := Option.some.inj hk
      simp at ht
    · exact hk
  refine ⟨h.nodup, ?_, fun s' k t hk ht => h.bounded s' k t (hold hk ht) ht,
    fun s' s'' k k' t hk hk' ht ht' => h.distinct s' s'' k k' t (hold hk ht) (hold hk' ht') ht ht'⟩
  intro s' k hk
  rw [put_kept] at hk
  split at hk
  · rename_i heq
    exact heq ▸ hs
  · exact h.listed s' k hk

theorem Sound.keepTimed (h : d.Sound) {s : σ} (hs : s ∈ d.order) (r : ρ) :
    { d.put s (some ⟨r, some (d.timers + 1)⟩) with timers := d.timers + 1 }.Sound := by
  have hcases : ∀ {s' k t}, (d.put s (some ⟨r, some (d.timers + 1)⟩)).kept s' = some k →
      k.timer = some t → (s' = s ∧ t = d.timers + 1) ∨ (d.kept s' = some k ∧ t ≤ d.timers) := by
    intro s' k t hk ht
    rw [put_kept] at hk
    split at hk
    · rename_i heq
      obtain rfl := Option.some.inj hk
      exact .inl ⟨heq, (Option.some.inj ht).symm⟩
    · exact .inr ⟨hk, (h.bounded s' k t hk ht).2⟩
  refine ⟨h.nodup, ?_, ?_, ?_⟩
  · intro s' k hk
    change (d.put s _).kept s' = some k at hk
    rw [put_kept] at hk
    split at hk
    · rename_i heq
      exact heq ▸ hs
    · exact h.listed s' k hk
  · intro s' k t hk ht
    rcases hcases hk ht with ⟨-, rfl⟩ | ⟨hold, hle⟩
    · exact ⟨by omega, le_rfl⟩
    · exact ⟨(h.bounded s' k t hold ht).1, Nat.le_succ_of_le hle⟩
  · intro s' s'' k k' t hk hk' ht ht'
    rcases hcases hk ht with ⟨rfl, hnew⟩ | ⟨hold, hle⟩
    · rcases hcases hk' ht' with ⟨rfl, -⟩ | ⟨-, hle'⟩
      · rfl
      · omega
    · rcases hcases hk' ht' with ⟨-, hnew'⟩ | ⟨hold', -⟩
      · omega
      · exact h.distinct s' s'' k k' t hold hold' ht ht'

theorem visit_order (P : Policy σ ρ α) (d : Desk σ ρ) (s : σ) :
    (d.visit P s).1.order = d.order := by
  unfold visit
  split
  · rfl
  · split <;> rfl

theorem visit_timers (P : Policy σ ρ α) (d : Desk σ ρ) (s : σ) :
    (d.visit P s).1.timers = d.timers := by
  unfold visit
  split
  · rfl
  · split <;> rfl

theorem Sound.visit (h : d.Sound) (P : Policy σ ρ α) (s : σ) : (d.visit P s).1.Sound := by
  unfold Desk.visit
  split
  · exact h
  · split
    · exact h
    · exact h.clear s

theorem Sound.read (h : d.Sound) (P : Policy σ ρ α) (s : σ) (r : ρ) : (d.read P s r).1.Sound := by
  have hin : s ∈ (Lib.enrol d.order s) := mem_enrol.mpr (.inr rfl)
  unfold Desk.read
  split
  · rename_i a _
    cases P.parting a with
    | true => exact (h.clear s).strike (by simp)
    | false => exact (h.clear s).enrol s
  · simp only
    split
    · exact (h.enrol s).keepTimed hin r
    · exact (h.enrol s).keep hin r

theorem Sound.wake (h : d.Sound) (P : Policy σ ρ α) : (d.wake P).1.Sound :=
  after_induction (Desk.visit P) h fun _ s _ hd => hd.visit P s

theorem Sound.serve (h : d.Sound) (P : Policy σ ρ α) (ask : Ask σ ρ) :
    (d.serve P ask).1.Sound := by
  cases ask with
  | read s r => exact h.read P s r
  | leave s => exact (h.clear s).strike (by simp)
  | expire t =>
      simp only [Desk.serve, Desk.expire]
      split
      · exact h
      · exact h.clear _
  | wake => exact h.wake P
  | quiet => exact h

/-! ## The sweep -/

def turnOf (P : Policy σ ρ α) (s : σ) : Option (Kept ρ) → Option (Kept ρ) × List (Reply σ α)
  | none => (none, [])
  | some k =>
      match P.answer s k.request with
      | none => (some k, [])
      | some a => (none, giveBack (some k) ++ [.answer s a])

theorem sweeps_visit (P : Policy σ ρ α) :
    Sweeps (visit P) (fun _ => True) kept (turnOf P) := by
  have hvisit : ∀ d : Desk σ ρ, ∀ s,
      d.visit P s = (d.put s (turnOf P s (d.kept s)).1, (turnOf P s (d.kept s)).2) := by
    intro d s
    rw [visit]
    cases hk : d.kept s with
    | none => simp only [turnOf, put_self hk]
    | some k =>
        simp only [turnOf]
        cases hanswer : P.answer s k.request with
        | none => simp only [put_self hk]
        | some a => rfl
  refine ⟨fun _ _ _ => trivial, fun d s _ => by rw [hvisit], fun d s s' _ => ?_⟩
  rw [hvisit, put_kept]
  simp only [eq_comm]

theorem wake_order (P : Policy σ ρ α) (d : Desk σ ρ) : (d.wake P).1.order = d.order :=
  after_induction (P := fun d' : Desk σ ρ => d'.order = d.order) (visit P) rfl
    fun d' s _ hd' => (visit_order P d' s).trans hd'

theorem wake_timers (P : Policy σ ρ α) (d : Desk σ ρ) : (d.wake P).1.timers = d.timers :=
  after_induction (P := fun d' : Desk σ ρ => d'.timers = d.timers) (visit P) rfl
    fun d' s _ hd' => (visit_timers P d' s).trans hd'

theorem wake_kept (h : d.Sound) (P : Policy σ ρ α) (s : σ) :
    (d.wake P).1.kept s = (turnOf P s (d.kept s)).1 := by
  rw [wake, (sweeps_visit P).view_after trivial h.nodup s]
  split
  · rfl
  · rename_i hout
    cases hk : d.kept s with
    | none => rfl
    | some k => exact absurd (h.listed s k hk) hout

theorem wake_replies (h : d.Sound) (P : Policy σ ρ α) :
    (d.wake P).2 = d.order.flatMap fun s => (turnOf P s (d.kept s)).2 := by
  rw [wake, (sweeps_visit P).outputs_eq trivial h.nodup, List.flatMap_def]

theorem Sound.wake_settled (h : d.Sound) (P : Policy σ ρ α) : (d.wake P).1.Settled P := by
  intro s k hk
  rw [wake_kept h] at hk
  cases hold : d.kept s with
  | none => simp [hold, turnOf] at hk
  | some k' =>
      simp only [hold, turnOf] at hk
      split at hk
      · rename_i hnone
        obtain rfl := Option.some.inj hk
        exact hnone
      · simp at hk

theorem Settled.visit (h : d.Settled P) (s : σ) : d.visit P s = (d, []) := by
  rw [Desk.visit]
  cases hk : d.kept s with
  | none => rfl
  | some k => simp only [h s k hk]

/-- Where nothing can be answered, going through the requests does nothing. -/
theorem Settled.wake (h : d.Settled P) : d.wake P = (d, []) := by
  have hrounds : ∀ keys : List σ, after (Desk.visit P) d keys = d ∧
      (outputs (Desk.visit P) d keys).flatten = [] := by
    intro keys
    induction keys with
    | nil => exact ⟨rfl, rfl⟩
    | cons s rest ih => simpa [outputs, h.visit s] using ih
  rw [Desk.wake, (hrounds d.order).1, (hrounds d.order).2]

theorem Settled.clear (h : d.Settled P) (s : σ) : (d.put s none).Settled P := by
  intro s' k hk
  rw [put_kept] at hk
  split at hk
  · simp at hk
  · exact h s' k hk

theorem Settled.read (h : d.Settled P) (s : σ) (r : ρ) : (d.read P s r).1.Settled P := by
  unfold Desk.read
  split
  · exact h.clear s
  · rename_i hnone
    have hput : ∀ timer, (d.put s (some ⟨r, timer⟩)).Settled P := by
      intro timer s' k hk
      rw [put_kept] at hk
      split at hk
      · rename_i heq
        obtain rfl := Option.some.inj hk
        exact heq ▸ hnone
      · exact h s' k hk
    simp only
    split
    · exact hput (some (d.timers + 1))
    · exact hput none

theorem serve_settled (hsound : d.Sound) {ask : Ask σ ρ} (h : ask ≠ .wake → d.Settled P) :
    (d.serve P ask).1.Settled P := by
  cases ask with
  | read s r => exact (h (by simp)).read s r
  | leave s => exact (h (by simp)).clear s
  | expire t =>
      simp only [serve, expire]
      split
      · exact h (by simp)
      · exact (h (by simp)).clear _
  | wake => exact hsound.wake_settled P
  | quiet => exact h (by simp)

/-! ## Who is there -/

/-- What an exchange means for who is there. -/
def presence (parting : α → Bool) : Ask σ ρ × List (Reply σ α) → Presence σ
  | (.read s _, replies) =>
      if (replies.filterMap Reply.answer?).any fun p => parting p.2 then .leave s else .join s
  | (.leave s, _) => .leave s
  | _ => .stay

omit [DecidableEq σ] in
theorem answers_giveBack (k : Option (Kept ρ)) :
    (giveBack k : List (Reply σ α)).filterMap Reply.answer? = [] := by
  rw [List.filterMap_eq_nil_iff]
  intro r hr
  obtain ⟨t, -, rfl⟩ := List.mem_map.mp hr
  rfl

omit [DecidableEq σ] in
theorem answers_other {tail : List (Reply σ α)} (htail : tail.all Reply.isOther = true) :
    tail.filterMap Reply.answer? = [] := by
  rw [List.filterMap_eq_nil_iff]
  intro r hr
  have hother := List.all_eq_true.mp htail r hr
  cases r <;> simp_all [Reply.isOther, Reply.answer?]

def arrival : Ask σ ρ → Presence σ
  | .read s _ => .join s
  | .leave s => .leave s
  | _ => .stay

omit [DecidableEq σ] in
/-- Where no answer is a parting one, the asks alone say who is there. -/
theorem presence_eq_arrival (ask : Ask σ ρ) (replies : List (Reply σ α)) :
    presence (fun _ => false) (ask, replies) = arrival ask := by
  cases ask with
  | read s r =>
      have hnone : ¬ ((replies.filterMap Reply.answer?).any fun _ => false) = true := by
        rw [List.any_eq_true]
        simp
      rw [presence, if_neg hnone, arrival]
  | _ => rfl

theorem serve_order (P : Policy σ ρ α) (d : Desk σ ρ) (ask : Ask σ ρ)
    {tail : List (Reply σ α)} (htail : tail.all Reply.isOther = true) :
    (d.serve P ask).1.order =
      (presence P.parting (ask, (d.serve P ask).2 ++ tail)).apply d.order := by
  cases ask with
  | read s r =>
      simp only [presence, serve, List.filterMap_append, answers_other htail, List.append_nil]
      unfold read
      cases P.answer s r with
      | some a =>
          cases hparting : P.parting a <;>
            simp [answers_giveBack, Reply.answer?, hparting, Presence.apply]
      | none =>
          cases P.timed r <;> simp [answers_giveBack, Reply.answer?, Presence.apply]
  | leave s => rfl
  | expire t =>
      simp only [serve, expire]
      split <;> rfl
  | wake => exact wake_order P d
  | quiet => rfl

/-! ## A timer that runs out -/

theorem expire_of_kept (h : d.Sound) (P : Policy σ ρ α) {s : σ} {k : Kept ρ} {t : Nat}
    (hk : d.kept s = some k) (ht : k.timer = some t) :
    d.expire P t = (d.put s none, (P.late s k.request).toList.map (.answer s)) := by
  have hfound : d.order.find? (fun s => (d.kept s).bind Kept.timer = some t) = some s := by
    cases hfind : d.order.find? fun s => (d.kept s).bind Kept.timer = some t with
    | none =>
        have hnot := List.find?_eq_none.mp hfind s (h.listed s k hk)
        simp [hk, ht] at hnot
    | some s' =>
        have hs' := List.find?_some hfind
        simp only [decide_eq_true_eq, Option.bind_eq_some_iff] at hs'
        obtain ⟨k', hk', ht'⟩ := hs'
        rw [h.distinct s' s k' k t hk' hk ht' ht]
  rw [expire, hfound]
  simp [hk]

theorem expire_of_not_kept (P : Policy σ ρ α) {t : Nat}
    (h : ∀ s k, d.kept s = some k → k.timer ≠ some t) : d.expire P t = (d, []) := by
  have hfind : d.order.find? (fun s => (d.kept s).bind Kept.timer = some t) = none := by
    rw [List.find?_eq_none]
    intro s _ hs
    simp only [decide_eq_true_eq, Option.bind_eq_some_iff] at hs
    obtain ⟨k, hk, ht⟩ := hs
    exact h s k hk ht
  rw [expire, hfind]

/-! ## What one stream is told -/

def told (s : σ) (replies : List (Reply σ α)) : List α :=
  (replies.filterMap Reply.answer?).filterMap fun p => if p.1 = s then some p.2 else none

/-- How a stream comes to an answer: it asked, or its request waited. -/
inductive Heard (P : Policy σ ρ α) (d : Desk σ ρ) (s : σ) (a : α) : Ask σ ρ → Prop
  | read (r : ρ) (h : P.answer s r = some a) : Heard P d s a (.read s r)
  | wake (k : Kept ρ) (hk : d.kept s = some k) (h : P.answer s k.request = some a) :
      Heard P d s a .wake
  | expire (k : Kept ρ) (hk : d.kept s = some k) (t : Nat) (h : P.late s k.request = some a) :
      Heard P d s a (.expire t)

/-- What a turn does to one stream: it is told something once and has no request left, or
nothing, and then what it has is what it had or asked now. -/
inductive Outcome (P : Policy σ ρ α) (d : Desk σ ρ) (s : σ) (ask : Ask σ ρ)
    (result : Desk σ ρ × List (Reply σ α)) : Prop
  | told (a : α) (h : Heard P d s a ask) (htold : told s result.2 = [a])
      (hkept : result.1.kept s = none)
  | untold (htold : told s result.2 = [])
      (hkept : ∀ k, result.1.kept s = some k → d.kept s = some k ∨ ask = .read s k.request)

omit [DecidableEq σ] in
/-- Who is told something asked for it now or had a request that waited. -/
theorem Heard.source {P : Policy σ ρ α} {d : Desk σ ρ} {s : σ} {a : α} {ask : Ask σ ρ}
    (h : Heard P d s a ask) :
    ∃ r, (ask = .read s r ∨ ∃ k, d.kept s = some k ∧ k.request = r) ∧
      (P.answer s r = some a ∨ P.late s r = some a) := by
  cases h with
  | read r h => exact ⟨r, .inl rfl, .inl h⟩
  | wake k hk h => exact ⟨k.request, .inr ⟨k, hk, rfl⟩, .inl h⟩
  | expire k hk t h => exact ⟨k.request, .inr ⟨k, hk, rfl⟩, .inr h⟩

theorem Outcome.heard {P : Policy σ ρ α} {d : Desk σ ρ} {s : σ} {a : α} {ask : Ask σ ρ}
    {result : Desk σ ρ × List (Reply σ α)} (h : Outcome P d s ask result)
    (ha : a ∈ Desk.told s result.2) : Heard P d s a ask := by
  cases h with
  | told b hheard htold hkept =>
      rw [htold, List.mem_singleton] at ha
      exact ha ▸ hheard
  | untold htold hkept =>
      rw [htold] at ha
      simp at ha

theorem told_append (s : σ) (front back : List (Reply σ α)) :
    told s (front ++ back) = told s front ++ told s back := by
  simp [told]

theorem told_giveBack (s : σ) (k : Option (Kept ρ)) :
    told s (giveBack k : List (Reply σ α)) = [] := by
  rw [told, answers_giveBack, List.filterMap_nil]

theorem told_other (s : σ) {tail : List (Reply σ α)} (htail : tail.all Reply.isOther = true) :
    told s tail = [] := by
  rw [told, answers_other htail, List.filterMap_nil]

theorem told_answer (s s' : σ) (a : α) :
    told s [Reply.answer s' a] = if s' = s then [a] else [] := by
  by_cases h : s' = s <;> simp [told, Reply.answer?, h]

theorem told_turnOf (P : Policy σ ρ α) (s s' : σ) (k : Option (Kept ρ)) :
    told s (turnOf P s' k).2 =
      if s' = s then (k.bind fun k => P.answer s k.request).toList else [] := by
  cases k with
  | none => simp [turnOf, told]
  | some k =>
      rw [Option.bind_some]
      by_cases heq : s' = s
      · subst heq
        cases hanswer : P.answer s' k.request with
        | none => simp [turnOf, hanswer, told]
        | some a => simp [turnOf, hanswer, told_append, told_giveBack, told_answer]
      · cases hanswer : P.answer s' k.request with
        | none => simp [turnOf, hanswer, told, heq]
        | some a => simp [turnOf, hanswer, told_append, told_giveBack, told_answer, heq]

theorem told_wake (h : d.Sound) (P : Policy σ ρ α) (s : σ) :
    told s (d.wake P).2 = ((d.kept s).bind fun k => P.answer s k.request).toList := by
  have hsweep : ∀ keys : List σ, keys.Nodup →
      told s (keys.flatMap fun s' => (turnOf P s' (d.kept s')).2) =
        if s ∈ keys then ((d.kept s).bind fun k => P.answer s k.request).toList else [] := by
    intro keys hnodup
    induction keys with
    | nil => simp [told]
    | cons first rest ih =>
        rw [List.nodup_cons] at hnodup
        rw [List.flatMap_cons, told_append, told_turnOf, ih hnodup.2]
        by_cases heq : first = s
        · subst heq
          simp [hnodup.1]
        · simp [heq, Ne.symm heq]
  rw [wake_replies h, hsweep d.order h.nodup]
  split
  · rfl
  · rename_i hout
    cases hk : d.kept s with
    | none => rfl
    | some k => exact absurd (h.listed s k hk) hout

theorem read_outcome (P : Policy σ ρ α) (d : Desk σ ρ) (s s' : σ) (r : ρ) :
    Outcome P d s (.read s' r) (d.read P s' r) := by
  have hput : ∀ (request : Option (Kept ρ)) (k : Kept ρ), (d.put s' request).kept s = some k →
      d.kept s = some k ∨ (s' = s ∧ request = some k) := by
    intro request k hk
    rw [put_kept] at hk
    split at hk
    · rename_i heq
      exact .inr ⟨heq.symm, hk⟩
    · exact .inl hk
  unfold read
  split
  · rename_i a hanswer
    by_cases heq : s' = s
    · subst heq
      refine .told a (.read r hanswer) ?_ (by simp)
      rw [told_append, told_giveBack, List.nil_append, told_answer, if_pos rfl]
    · refine .untold ?_ fun k hk => (hput none k hk).imp_right fun h => absurd h.1 heq
      rw [told_append, told_giveBack, List.nil_append, told_answer, if_neg heq]
  · simp only
    split
    · refine .untold (by rw [told_append, told_giveBack]; rfl) fun k hk => ?_
      refine (hput _ k hk).imp_right fun h => ?_
      obtain ⟨rfl, hrequest⟩ := h
      rw [← Option.some.inj hrequest]
    · refine .untold (told_giveBack s _) fun k hk => ?_
      refine (hput _ k hk).imp_right fun h => ?_
      obtain ⟨rfl, hrequest⟩ := h
      rw [← Option.some.inj hrequest]

theorem wake_outcome (h : d.Sound) (P : Policy σ ρ α) (s : σ) :
    Outcome P d s .wake (d.wake P) := by
  have htold := told_wake h P s
  have hkept := wake_kept h P s
  cases hk : d.kept s with
  | none =>
      rw [hk] at htold hkept
      exact .untold htold fun k hk' => by simp [hkept, turnOf] at hk'
  | some k =>
      rw [hk, Option.bind_some] at htold
      rw [hk, turnOf] at hkept
      cases hanswer : P.answer s k.request with
      | none =>
          rw [hanswer] at htold hkept
          exact .untold htold fun k' hk' => .inl (hk.trans (hkept.symm.trans hk'))
      | some a =>
          rw [hanswer] at htold hkept
          exact .told a (.wake k hk hanswer) htold hkept

theorem expire_outcome (h : d.Sound) (P : Policy σ ρ α) (s : σ) (t : Nat) :
    Outcome P d s (.expire t) (d.expire P t) := by
  by_cases hany : ∃ s' k, d.kept s' = some k ∧ k.timer = some t
  · obtain ⟨s', k, hk, ht⟩ := hany
    rw [expire_of_kept h P hk ht]
    by_cases heq : s' = s
    · subst heq
      cases hlate : P.late s' k.request with
      | none => exact .untold rfl fun k' hk' => by simp at hk'
      | some a =>
          refine .told a (.expire k hk t hlate) ?_ (by simp)
          rw [Option.toList_some, List.map_singleton, told_answer, if_pos rfl]
    · refine .untold ?_ fun k' hk' => .inl ?_
      · cases P.late s' k.request with
        | none => rfl
        | some a => rw [Option.toList_some, List.map_singleton, told_answer, if_neg heq]
      · rw [put_kept, if_neg (Ne.symm heq)] at hk'
        exact hk'
  · rw [expire_of_not_kept P fun s' k hk ht => hany ⟨s', k, hk, ht⟩]
    exact .untold rfl fun _ hk => .inl hk

theorem serve_outcome (h : d.Sound) (P : Policy σ ρ α) (s : σ) (ask : Ask σ ρ) :
    Outcome P d s ask (d.serve P ask) := by
  cases ask with
  | read s' r => exact read_outcome P d s s' r
  | leave s' =>
      refine .untold (told_giveBack s _) fun k hk => .inl ?_
      change (d.put s' none).kept s = some k at hk
      rw [put_kept] at hk
      split at hk
      · simp at hk
      · exact hk
  | expire t => exact expire_outcome h P s t
  | wake => exact wake_outcome h P s
  | quiet => exact .untold rfl fun _ hk => .inl hk

end Desk

end TautShape.Lib
