import Mathlib
/-!
# A ledger for held requests and their timers

A server of long polls is asked for things (`Ask`) and replies to them (`Reply`).
The ledger audits the exchange from outside: it numbers the requests, keeps the
one that waits on each stream with its timer, and books how each request and each
timer ended.  An answer nobody waits for, a second answer, a reused or forgotten
timer is not booked but stops the audit.  `Accounts` is what an audit that went
through says about the whole exchange.
-/

namespace TautShape.Lib

inductive Ask (σ ρ : Type*) where
  | read (s : σ) (r : ρ)
  | leave (s : σ)
  | expire (t : Nat)
  /-- An input after which requests that wait may be answered. -/
  | wake
  /-- An input that concerns no request. -/
  | quiet

inductive Reply (σ α : Type*) where
  | answer (s : σ) (a : α)
  | arm (t : Nat)
  | disarm (t : Nat)
  | other

inductive Fate (α : Type*) where
  | answered (a : α)
  | superseded
  | dropped

inductive TimerEnd where
  | cancelled
  | expired
deriving DecidableEq

variable {σ ρ α : Type*}

namespace Reply

def answer? : Reply σ α → Option (σ × α)
  | .answer s a => some (s, a)
  | _ => none

def arm? : Reply σ α → Option Nat
  | .arm t => some t
  | _ => none

def disarm? : Reply σ α → Option Nat
  | .disarm t => some t
  | _ => none

def isOther : Reply σ α → Bool
  | .other => true
  | _ => false

end Reply

def Fate.answer? : Fate α → Option α
  | .answered a => some a
  | _ => none

structure Waiting (ρ : Type*) where
  id : Nat
  request : ρ
  timer : Option Nat

structure Settled (σ ρ α : Type*) where
  id : Nat
  stream : σ
  request : ρ
  fate : Fate α

def Settled.answer? (f : Settled σ ρ α) : Option (σ × α) := f.fate.answer?.map (f.stream, ·)

structure Ledger (σ ρ α : Type*) where
  issued : Nat
  waiting : σ → Option (Waiting ρ)
  settled : List (Settled σ ρ α)
  timers : Nat
  armed : Nat → Option σ
  ended : List (Nat × TimerEnd)

namespace Ledger

def new : Ledger σ ρ α where
  issued := 0
  waiting := fun _ => none
  settled := []
  timers := 0
  armed := fun _ => none
  ended := []

/-! ## What was exchanged -/

def asked (events : List (Ask σ ρ × List (Reply σ α))) : List (σ × ρ) :=
  events.filterMap fun
    | (.read s r, _) => some (s, r)
    | _ => none

def expiries (events : List (Ask σ ρ × List (Reply σ α))) : List Nat :=
  events.filterMap fun
    | (.expire t, _ :: _) => some t
    | _ => none

def replies (events : List (Ask σ ρ × List (Reply σ α))) : List (Reply σ α) :=
  events.flatMap (·.2)

def endedBy (L : Ledger σ ρ α) (how : TimerEnd) : List Nat :=
  (L.ended.filter (·.2 = how)).map Prod.fst

/-- The books agree with an exchange of these requests, expiries and replies. -/
structure Accounts (asks : List (σ × ρ)) (fired : List Nat) (out : List (Reply σ α))
    (L : Ledger σ ρ α) : Prop where
  issued_eq : L.issued = asks.length
  /-- A request that waits is the one its number says, on the stream it was asked on. -/
  waiting_asked : ∀ s w, L.waiting s = some w → asks[w.id]? = some (s, w.request)
  settled_asked : ∀ f ∈ L.settled, asks[f.id]? = some (f.stream, f.request)
  /-- No request ends twice, and none that waits has ended. -/
  settled_nodup : (L.settled.map (·.id)).Nodup
  waiting_open : ∀ s w, L.waiting s = some w → w.id ∉ L.settled.map (·.id)
  /-- Every request has ended or waits. -/
  covered : ∀ i < L.issued, i ∈ L.settled.map (·.id) ∨ ∃ s w, L.waiting s = some w ∧ w.id = i
  /-- The answers of the exchange are the answered requests. -/
  answers_eq : L.settled.filterMap Settled.answer? = out.filterMap Reply.answer?
  armed_iff : ∀ t s, L.armed t = some s ↔ ∃ w, L.waiting s = some w ∧ w.timer = some t
  /-- Timers are numbered from one, in the order they were armed. -/
  arms_eq : out.filterMap Reply.arm? = List.range' 1 L.timers
  /-- No timer ends twice, and none that is armed has ended. -/
  ended_nodup : (L.ended.map Prod.fst).Nodup
  armed_open : ∀ s w t, L.waiting s = some w → w.timer = some t → t ∉ L.ended.map Prod.fst
  /-- Every timer has ended or is armed. -/
  timers_covered : ∀ t, 1 ≤ t ∧ t ≤ L.timers ↔
    t ∈ L.ended.map Prod.fst ∨ ∃ s w, L.waiting s = some w ∧ w.timer = some t
  cancelled_eq : L.endedBy .cancelled = out.filterMap Reply.disarm?
  expired_eq : L.endedBy .expired = fired

variable {asks : List (σ × ρ)} {fired : List Nat} {out : List (Reply σ α)}
  {L : Ledger σ ρ α}

theorem accounts_new : Accounts [] [] [] (new : Ledger σ ρ α) := by
  constructor <;> simp [new, endedBy]
  omega

theorem Accounts.stream_eq (h : Accounts asks fired out L) {s s' : σ} {w w' : Waiting ρ}
    (hs : L.waiting s = some w) (hs' : L.waiting s' = some w') (hid : w.id = w'.id) : s = s' := by
  have hask := h.waiting_asked s w hs
  rw [hid, h.waiting_asked s' w' hs'] at hask
  simp only [Option.some.injEq, Prod.mk.injEq] at hask
  exact hask.1.symm

theorem Accounts.timer_eq (h : Accounts asks fired out L) {s s' : σ} {w w' : Waiting ρ}
    {t : Nat} (hs : L.waiting s = some w) (hs' : L.waiting s' = some w') (ht : w.timer = some t)
    (ht' : w'.timer = some t) : s = s' := by
  have harmed := (h.armed_iff t s).mpr ⟨w, hs, ht⟩
  rw [(h.armed_iff t s').mpr ⟨w', hs', ht'⟩] at harmed
  exact (Option.some.inj harmed).symm

theorem Accounts.settled_lt (h : Accounts asks fired out L) {i : Nat}
    (hi : i ∈ L.settled.map (·.id)) : i < asks.length := by
  obtain ⟨f, hf, rfl⟩ := List.mem_map.mp hi
  exact (List.getElem?_eq_some_iff.mp (h.settled_asked f hf)).1

theorem Accounts.other (h : Accounts asks fired out L) {more : List (Reply σ α)}
    (hmore : more.all Reply.isOther = true) : Accounts asks fired (out ++ more) L := by
  have hnone : more.filterMap Reply.answer? = [] ∧ more.filterMap Reply.arm? = [] ∧
      more.filterMap Reply.disarm? = [] := by
    simp only [List.filterMap_eq_nil_iff]
    have hall := List.all_eq_true.mp hmore
    refine ⟨fun r hr => ?_, fun r hr => ?_, fun r hr => ?_⟩ <;>
      cases r <;> first | rfl | simpa [Reply.isOther] using hall _ hr
  obtain ⟨hanswer, harm, hdisarm⟩ := hnone
  refine { h with answers_eq := ?_, arms_eq := ?_, cancelled_eq := ?_ }
  · rw [List.filterMap_append, hanswer, List.append_nil, h.answers_eq]
  · rw [List.filterMap_append, harm, List.append_nil, h.arms_eq]
  · rw [List.filterMap_append, hdisarm, List.append_nil, h.cancelled_eq]

variable [DecidableEq σ]

theorem update_eq_some {β : Type*} {f : σ → Option β} {s s' : σ} {v : Option β} {b : β} :
    Function.update f s v s' = some b ↔ (s' = s ∧ v = some b) ∨ (s' ≠ s ∧ f s' = some b) := by
  rw [Function.update_apply]
  split
  · rename_i heq
    simp [heq]
  · rename_i hne
    simp [hne]

/-! ## Entries -/

/-- The next request, on a stream where none waits. -/
def issue (L : Ledger σ ρ α) (s : σ) (r : ρ) : Ledger σ ρ α :=
  { L with
    issued := L.issued + 1
    waiting := Function.update L.waiting s (some ⟨L.issued, r, none⟩) }

def arm (L : Ledger σ ρ α) (s : σ) (w : Waiting ρ) : Ledger σ ρ α :=
  { L with
    waiting := Function.update L.waiting s (some { w with timer := some (L.timers + 1) })
    timers := L.timers + 1
    armed := Function.update L.armed (L.timers + 1) (some s) }

def settle (L : Ledger σ ρ α) (s : σ) (w : Waiting ρ) (fate : Fate α) (how : TimerEnd) :
    Ledger σ ρ α :=
  { L with
    waiting := Function.update L.waiting s none
    settled := L.settled ++ [⟨w.id, s, w.request, fate⟩]
    armed := fun t => if w.timer = some t then none else L.armed t
    ended := L.ended ++ w.timer.toList.map (·, how) }

/-! ## What an entry changes -/

variable {s s' : σ} {w w' : Waiting ρ}

theorem waiting_issue (hs : L.waiting s = none) {r : ρ} :
    (L.issue s r).waiting s' = some w' ↔
      (s' = s ∧ w' = ⟨L.issued, r, none⟩) ∨ L.waiting s' = some w' := by
  have hne : L.waiting s' = some w' → s' ≠ s := by
    rintro hw rfl
    simp [hs] at hw
  rw [Ledger.issue, update_eq_some, Option.some.injEq, eq_comm (a := w')]
  exact or_congr_right (and_iff_right_of_imp hne)

theorem waiting_arm :
    (L.arm s w).waiting s' = some w' ↔
      (s' = s ∧ { w with timer := some (L.timers + 1) } = w') ∨
        (s' ≠ s ∧ L.waiting s' = some w') := by
  rw [Ledger.arm, update_eq_some, Option.some.injEq]

theorem timer_arm (hs : L.waiting s = some w) (htimer : w.timer = none) {t : Nat} :
    (∃ w', (L.arm s w).waiting s' = some w' ∧ w'.timer = some t) ↔
      (s' = s ∧ t = L.timers + 1) ∨ ∃ w', L.waiting s' = some w' ∧ w'.timer = some t := by
  constructor
  · rintro ⟨w', hw', ht⟩
    rcases waiting_arm.mp hw' with ⟨rfl, rfl⟩ | ⟨-, hw'⟩
    · exact .inl ⟨rfl, (Option.some.inj ht).symm⟩
    · exact .inr ⟨w', hw', ht⟩
  · rintro (⟨rfl, rfl⟩ | ⟨w', hw', ht⟩)
    · exact ⟨_, waiting_arm.mpr (.inl ⟨rfl, rfl⟩), rfl⟩
    · refine ⟨w', waiting_arm.mpr (.inr ⟨?_, hw'⟩), ht⟩
      rintro rfl
      simp_all

theorem waiting_settle {fate : Fate α} {how : TimerEnd} :
    (L.settle s w fate how).waiting s' = some w' ↔ s' ≠ s ∧ L.waiting s' = some w' := by
  rw [Ledger.settle, update_eq_some]
  simp

theorem ids_settle (fate : Fate α) (how : TimerEnd) :
    (L.settle s w fate how).settled.map (·.id) = L.settled.map (·.id) ++ [w.id] := by
  simp [Ledger.settle]

theorem ended_settle (fate : Fate α) (how : TimerEnd) :
    (L.settle s w fate how).ended.map Prod.fst = L.ended.map Prod.fst ++ w.timer.toList := by
  simp [Ledger.settle, Function.comp_def]

theorem endedBy_settle (fate : Fate α) (how how' : TimerEnd) :
    (L.settle s w fate how).endedBy how' =
      L.endedBy how' ++ if how = how' then w.timer.toList else [] := by
  rw [endedBy, Ledger.settle, List.filter_append, List.map_append, endedBy]
  congr 1
  cases w.timer with
  | none => simp
  | some t => by_cases heq : how = how' <;> simp [heq]

/-! ## What the accounts keep -/

theorem Accounts.issue (h : Accounts asks fired out L) {s : σ} (hs : L.waiting s = none)
    (r : ρ) : Accounts (asks ++ [(s, r)]) fired out (L.issue s r) := by
  have hlast : (asks ++ [(s, r)])[asks.length]? = some (s, r) := by simp
  have hold : ∀ {i : Nat} {p : σ × ρ}, asks[i]? = some p → (asks ++ [(s, r)])[i]? = some p := by
    intro i p hi
    rw [List.getElem?_append_left (List.getElem?_eq_some_iff.mp hi).1, hi]
  have htimer : ∀ s' t, (∃ w, (L.issue s r).waiting s' = some w ∧ w.timer = some t) ↔
      ∃ w, L.waiting s' = some w ∧ w.timer = some t := by
    intro s' t
    constructor
    · rintro ⟨w, hw, ht⟩
      rcases (waiting_issue hs).mp hw with ⟨-, rfl⟩ | hw
      · simp at ht
      · exact ⟨w, hw, ht⟩
    · rintro ⟨w, hw, ht⟩
      exact ⟨w, (waiting_issue hs).mpr (.inr hw), ht⟩
  constructor
  case issued_eq => simp [Ledger.issue, h.issued_eq]
  case waiting_asked =>
    intro s' w hw
    rcases (waiting_issue hs).mp hw with ⟨rfl, rfl⟩ | hw
    · rw [h.issued_eq]
      exact hlast
    · exact hold (h.waiting_asked s' w hw)
  case settled_asked => exact fun f hf => hold (h.settled_asked f hf)
  case settled_nodup => exact h.settled_nodup
  case waiting_open =>
    intro s' w hw
    rcases (waiting_issue hs).mp hw with ⟨-, rfl⟩ | hw
    · intro hmem
      have hlt := h.settled_lt hmem
      rw [h.issued_eq] at hlt
      exact lt_irrefl _ hlt
    · exact h.waiting_open s' w hw
  case covered =>
    intro i hi
    simp only [Ledger.issue] at hi
    by_cases hlt : i < L.issued
    · refine (h.covered i hlt).imp_right ?_
      rintro ⟨s', w, hw, hid⟩
      exact ⟨s', w, (waiting_issue hs).mpr (.inr hw), hid⟩
    · exact .inr ⟨s, ⟨L.issued, r, none⟩, (waiting_issue hs).mpr (.inl ⟨rfl, rfl⟩), by simp; omega⟩
  case answers_eq => exact h.answers_eq
  case armed_iff =>
    intro t s'
    rw [htimer]
    exact h.armed_iff t s'
  case arms_eq => exact h.arms_eq
  case ended_nodup => exact h.ended_nodup
  case armed_open =>
    intro s' w t hw ht
    obtain ⟨w', hw', ht'⟩ := (htimer s' t).mp ⟨w, hw, ht⟩
    exact h.armed_open s' w' t hw' ht'
  case timers_covered =>
    intro t
    simp only [htimer]
    exact h.timers_covered t
  case cancelled_eq => exact h.cancelled_eq
  case expired_eq => exact h.expired_eq

theorem Accounts.arm (h : Accounts asks fired out L) {s : σ} {w : Waiting ρ}
    (hs : L.waiting s = some w) (htimer : w.timer = none) :
    Accounts asks fired (out ++ [.arm (L.timers + 1)]) (L.arm s w) := by
  have hbound : ∀ {t : Nat}, t ∈ L.ended.map Prod.fst → t ≤ L.timers :=
    fun ht => ((h.timers_covered _).mpr (.inl ht)).2
  have hused : ∀ {s' : σ} {w' : Waiting ρ} {t : Nat}, L.waiting s' = some w' →
      w'.timer = some t → t ≤ L.timers :=
    fun hs' ht => ((h.timers_covered _).mpr (.inr ⟨_, _, hs', ht⟩)).2
  constructor
  case issued_eq => exact h.issued_eq
  case waiting_asked =>
    intro s' w' hw'
    rcases waiting_arm.mp hw' with ⟨rfl, rfl⟩ | ⟨-, hw'⟩
    · exact h.waiting_asked s' w hs
    · exact h.waiting_asked s' w' hw'
  case settled_asked => exact h.settled_asked
  case settled_nodup => exact h.settled_nodup
  case waiting_open =>
    intro s' w' hw'
    rcases waiting_arm.mp hw' with ⟨rfl, rfl⟩ | ⟨-, hw'⟩
    · exact h.waiting_open s' w hs
    · exact h.waiting_open s' w' hw'
  case covered =>
    intro i hi
    refine (h.covered i hi).imp_right ?_
    rintro ⟨s', w', hw', rfl⟩
    by_cases heq : s' = s
    · subst heq
      obtain rfl : w = w' := by simpa [hs] using hw'
      exact ⟨s', _, waiting_arm.mpr (.inl ⟨rfl, rfl⟩), rfl⟩
    · exact ⟨s', w', waiting_arm.mpr (.inr ⟨heq, hw'⟩), rfl⟩
  case answers_eq =>
    rw [List.filterMap_append, List.filterMap_cons_none rfl, List.filterMap_nil, List.append_nil]
    exact h.answers_eq
  case armed_iff =>
    intro t s'
    rw [timer_arm hs htimer]
    show Function.update L.armed (L.timers + 1) (some s) t = some s' ↔ _
    rw [update_eq_some, h.armed_iff, Option.some.injEq]
    constructor
    · rintro (⟨rfl, rfl⟩ | ⟨-, hold⟩)
      · exact .inl ⟨rfl, rfl⟩
      · exact .inr hold
    · rintro (⟨rfl, rfl⟩ | ⟨w', hw', ht⟩)
      · exact .inl ⟨rfl, rfl⟩
      · have hle := hused hw' ht
        exact .inr ⟨by omega, w', hw', ht⟩
  case arms_eq =>
    rw [List.filterMap_append, h.arms_eq, Ledger.arm, List.range'_concat]
    simp [Reply.arm?, Nat.add_comm]
  case ended_nodup => exact h.ended_nodup
  case armed_open =>
    intro s' w' t hw' ht
    rcases (timer_arm hs htimer).mp ⟨w', hw', ht⟩ with ⟨-, rfl⟩ | ⟨w'', hw'', ht''⟩
    · intro hmem
      have hle := hbound hmem
      omega
    · exact h.armed_open s' w'' t hw'' ht''
  case timers_covered =>
    intro t
    have hold := h.timers_covered t
    simp only [timer_arm hs htimer]
    constructor
    · rintro ⟨hpos, hle⟩
      by_cases hlast : t = L.timers + 1
      · exact .inr ⟨s, .inl ⟨rfl, hlast⟩⟩
      · have hle' : t ≤ L.timers := by
          simp only [Ledger.arm] at hle
          omega
        exact (hold.mp ⟨hpos, hle'⟩).imp_right fun ⟨s', hs'⟩ => ⟨s', .inr hs'⟩
    · simp only [Ledger.arm]
      rintro (hmem | ⟨s', ⟨-, rfl⟩ | hs'⟩)
      · have hrange := hold.mpr (.inl hmem)
        omega
      · omega
      · have hrange := hold.mpr (.inr ⟨s', hs'⟩)
        omega
  case cancelled_eq =>
    rw [List.filterMap_append, List.filterMap_cons_none rfl, List.filterMap_nil, List.append_nil]
    exact h.cancelled_eq
  case expired_eq => exact h.expired_eq

theorem Accounts.settle (h : Accounts asks fired out L) {s : σ} {w : Waiting ρ}
    (hs : L.waiting s = some w) (fate : Fate α) (how : TimerEnd) (more : List (Reply σ α))
    (late : List Nat)
    (hanswer : more.filterMap Reply.answer? = (fate.answer?.map (s, ·)).toList)
    (harm : more.filterMap Reply.arm? = [])
    (hdisarm : more.filterMap Reply.disarm? = if how = .cancelled then w.timer.toList else [])
    (hexpired : late = if how = .expired then w.timer.toList else []) :
    Accounts asks (fired ++ late) (out ++ more) (L.settle s w fate how) := by
  have htimers : ∀ s' t, (∃ w', (L.settle s w fate how).waiting s' = some w' ∧
      w'.timer = some t) ↔ s' ≠ s ∧ ∃ w', L.waiting s' = some w' ∧ w'.timer = some t := by
    intro s' t
    simp only [waiting_settle, and_assoc, exists_and_left]
  constructor
  case issued_eq => exact h.issued_eq
  case waiting_asked =>
    intro s' w' hw'
    exact h.waiting_asked s' w' (waiting_settle.mp hw').2
  case settled_asked =>
    intro f hf
    rcases List.mem_append.mp hf with hf | hf
    · exact h.settled_asked f hf
    · obtain rfl := List.mem_singleton.mp hf
      exact h.waiting_asked s w hs
  case settled_nodup =>
    rw [ids_settle, ← List.concat_eq_append]
    exact List.Nodup.concat (h.waiting_open s w hs) h.settled_nodup
  case waiting_open =>
    intro s' w' hw'
    obtain ⟨hne, hw'⟩ := waiting_settle.mp hw'
    rw [ids_settle, List.mem_append, List.mem_singleton]
    rintro (hmem | hid)
    · exact h.waiting_open s' w' hw' hmem
    · exact hne (h.stream_eq hw' hs hid)
  case covered =>
    intro i hi
    rw [ids_settle, List.mem_append, List.mem_singleton]
    rcases h.covered i hi with hmem | ⟨s', w', hw', rfl⟩
    · exact .inl (.inl hmem)
    · by_cases heq : s' = s
      · subst heq
        obtain rfl : w = w' := by simpa [hs] using hw'
        exact .inl (.inr rfl)
      · exact .inr ⟨s', w', waiting_settle.mpr ⟨heq, hw'⟩, rfl⟩
  case answers_eq =>
    rw [List.filterMap_append, hanswer, ← h.answers_eq, Ledger.settle, List.filterMap_append]
    congr 1
  case armed_iff =>
    intro t s'
    rw [htimers]
    simp only [Ledger.settle]
    split
    · rename_i ht
      simp only [false_iff, not_and, reduceCtorEq]
      rintro hne ⟨w', hw', ht'⟩
      exact hne (h.timer_eq hw' hs ht' ht)
    · rename_i ht
      rw [h.armed_iff]
      refine (and_iff_right_of_imp ?_).symm
      rintro ⟨w', hw', ht'⟩ rfl
      obtain rfl : w = w' := by simpa [hs] using hw'
      exact ht ht'
  case arms_eq =>
    rw [List.filterMap_append, harm, List.append_nil]
    exact h.arms_eq
  case ended_nodup =>
    rw [ended_settle]
    cases htimer : w.timer with
    | none => simpa using h.ended_nodup
    | some t =>
        rw [Option.toList_some, ← List.concat_eq_append]
        exact List.Nodup.concat (h.armed_open s w t hs htimer) h.ended_nodup
  case armed_open =>
    intro s' w' t hw' ht
    obtain ⟨hne, hw'⟩ := waiting_settle.mp hw'
    rw [ended_settle, List.mem_append, Option.mem_toList]
    rintro (hmem | htimer)
    · exact h.armed_open s' w' t hw' ht hmem
    · exact hne (h.timer_eq hw' hs ht htimer)
  case timers_covered =>
    intro t
    rw [ended_settle, List.mem_append, Option.mem_toList]
    simp only [htimers]
    refine (h.timers_covered t).trans ?_
    constructor
    · rintro (hmem | ⟨s', w', hw', ht⟩)
      · exact .inl (.inl hmem)
      · by_cases heq : s' = s
        · subst heq
          obtain rfl : w = w' := by simpa [hs] using hw'
          exact .inl (.inr ht)
        · exact .inr ⟨s', heq, w', hw', ht⟩
    · rintro ((hmem | ht) | ⟨s', -, hs'⟩)
      · exact .inl hmem
      · exact .inr ⟨s, w, hs, ht⟩
      · exact .inr ⟨s', hs'⟩
  case cancelled_eq => rw [endedBy_settle, List.filterMap_append, hdisarm, h.cancelled_eq]
  case expired_eq => rw [endedBy_settle, hexpired, h.expired_eq]

/-! ## The audit -/

/-- A request that ends unanswered gives its timer back first. -/
def retire (L : Ledger σ ρ α) (s : σ) (fate : Fate α) (replies : List (Reply σ α)) :
    Option (Ledger σ ρ α × List (Reply σ α)) :=
  match L.waiting s with
  | none => some (L, replies)
  | some w =>
      match w.timer, replies with
      | none, replies => some (L.settle s w fate .cancelled, replies)
      | some t, .disarm t' :: rest =>
          if t = t' then some (L.settle s w fate .cancelled, rest) else none
      | some _, _ => none

/-- Answers to requests that wait, each after its timer was given back. -/
def answers (L : Ledger σ ρ α) : List (Reply σ α) → Option (Ledger σ ρ α)
  | [] => some L
  | .other :: rest => L.answers rest
  | .answer s a :: rest =>
      match L.waiting s with
      | some w =>
          if w.timer = none then (L.settle s w (.answered a) .cancelled).answers rest else none
      | none => none
  | .disarm t :: .answer s a :: rest =>
      match L.waiting s with
      | some w =>
          if w.timer = some t then (L.settle s w (.answered a) .cancelled).answers rest else none
      | none => none
  | _ => none

/-- The replies to a request: held with or without a timer, or answered at once. -/
def replied (L : Ledger σ ρ α) (s : σ) (w : Waiting ρ) :
    List (Reply σ α) → Option (Ledger σ ρ α)
  | [] => some L
  | [.arm t] => if t = L.timers + 1 then some (L.arm s w) else none
  | .answer s' a :: rest =>
      if s = s' ∧ rest.all Reply.isOther then some (L.settle s w (.answered a) .cancelled)
      else none
  | _ => none

def post (L : Ledger σ ρ α) : Ask σ ρ → List (Reply σ α) → Option (Ledger σ ρ α)
  | .read s r, replies =>
      (L.retire s .superseded replies).bind fun p =>
        (p.1.issue s r).replied s ⟨p.1.issued, r, none⟩ p.2
  | .leave s, replies =>
      (L.retire s .dropped replies).bind fun p =>
        if p.2.all Reply.isOther then some p.1 else none
  | .expire t, replies =>
      match L.armed t with
      | none => if replies.isEmpty then some L else none
      | some s =>
          match L.waiting s, replies with
          | some w, [.answer s' a] =>
              if s = s' then some (L.settle s w (.answered a) .expired) else none
          | _, _ => none
  | .wake, replies => L.answers replies
  | .quiet, replies => if replies.all Reply.isOther then some L else none

def audit (events : List (Ask σ ρ × List (Reply σ α))) : Option (Ledger σ ρ α) :=
  events.foldlM (fun L e => L.post e.1 e.2) new

theorem answers_append {front back : List (Reply σ α)} {M : Ledger σ ρ α}
    (h : L.answers front = some M) : L.answers (front ++ back) = M.answers back := by
  fun_induction L.answers front with
  | case1 L => rw [List.nil_append, Option.some.inj h]
  | case2 L rest ih => exact ih h
  | case3 L s a rest w hs htimer ih =>
      rw [List.cons_append, Ledger.answers, hs]
      simp only [htimer, if_true]
      exact ih h
  | case6 L t s a rest w hs htimer ih =>
      rw [List.cons_append, List.cons_append, Ledger.answers, hs]
      simp only [htimer, if_true]
      exact ih h
  | _ => simp at h

/-! ## What the audit keeps -/

theorem Accounts.retire (h : Accounts asks fired out L) {s : σ} {fate : Fate α}
    (hfate : fate.answer? = none) {front : List (Reply σ α)}
    {p : Ledger σ ρ α × List (Reply σ α)} (hretire : L.retire s fate front = some p) :
    ∃ used, front = used ++ p.2 ∧ p.1.waiting s = none ∧
      Accounts asks fired (out ++ used) p.1 := by
  unfold Ledger.retire at hretire
  split at hretire
  · rename_i hs
    obtain rfl := Option.some.inj hretire
    exact ⟨[], rfl, hs, by simpa using h⟩
  · rename_i w hs
    split at hretire
    · rename_i htimer
      obtain rfl := Option.some.inj hretire
      refine ⟨[], rfl, by simp [Ledger.settle], ?_⟩
      have hsettled := h.settle hs fate .cancelled [] []
        (by simp [hfate]) rfl (by simp [htimer]) (by simp)
      simpa using hsettled
    · rename_i t t' rest htimer
      split at hretire
      · rename_i heq
        obtain rfl := Option.some.inj hretire
        refine ⟨[.disarm t'], rfl, by simp [Ledger.settle], ?_⟩
        have hsettled := h.settle hs fate .cancelled [.disarm t'] []
          (by simp [hfate, Reply.answer?]) rfl (by simp [htimer, heq, Reply.disarm?]) (by simp)
        simpa using hsettled
      · simp at hretire
    · simp at hretire

theorem Accounts.answers (h : Accounts asks fired out L) {more : List (Reply σ α)}
    {L' : Ledger σ ρ α} (hanswers : L.answers more = some L') :
    Accounts asks fired (out ++ more) L' := by
  fun_induction L.answers more generalizing out with
  | case1 L =>
      obtain rfl := Option.some.inj hanswers
      simpa using h
  | case2 L rest ih =>
      have hother : Accounts asks fired (out ++ [.other]) L := h.other rfl
      simpa using ih hother hanswers
  | case3 L s a rest w hs htimer ih =>
      have hsettled := h.settle hs (.answered a) .cancelled [.answer s a] []
        (by simp [Reply.answer?, Fate.answer?]) rfl (by simp [htimer, Reply.disarm?]) (by simp)
      have hdone := ih (by simpa using hsettled) hanswers
      rwa [List.append_assoc] at hdone
  | case6 L t s a rest w hs htimer ih =>
      have hsettled := h.settle hs (.answered a) .cancelled [.disarm t, .answer s a]
        [] rfl rfl (by simp [htimer, Reply.disarm?]) (by simp)
      have hdone := ih (by simpa using hsettled) hanswers
      rwa [List.append_assoc] at hdone
  | _ => simp at hanswers

theorem Accounts.replied (h : Accounts asks fired out L) {s : σ} {w : Waiting ρ}
    (hs : L.waiting s = some w) (htimer : w.timer = none) {more : List (Reply σ α)}
    {L' : Ledger σ ρ α} (hreplied : L.replied s w more = some L') :
    Accounts asks fired (out ++ more) L' := by
  unfold Ledger.replied at hreplied
  split at hreplied
  · obtain rfl := Option.some.inj hreplied
    simpa using h
  · split at hreplied
    · rename_i ht
      obtain rfl := Option.some.inj hreplied
      exact ht ▸ h.arm hs htimer
    · simp at hreplied
  · split at hreplied
    · rename_i a rest hboth
      obtain ⟨rfl, hrest⟩ := hboth
      obtain rfl := Option.some.inj hreplied
      have hsettled := h.settle hs (.answered a) .cancelled [.answer s a]
        [] (by simp [Reply.answer?, Fate.answer?]) rfl
        (by simp [htimer, Reply.disarm?]) (by simp)
      simpa using hsettled.other hrest
    · simp at hreplied
  · simp at hreplied

theorem Accounts.post {events : List (Ask σ ρ × List (Reply σ α))}
    (h : Accounts (asked events) (expiries events) (replies events) L)
    {e : Ask σ ρ × List (Reply σ α)} {L' : Ledger σ ρ α} (hpost : L.post e.1 e.2 = some L') :
    Accounts (asked (events ++ [e])) (expiries (events ++ [e])) (replies (events ++ [e])) L' := by
  obtain ⟨ask, more⟩ := e
  have hreplies : replies (events ++ [(ask, more)]) = replies events ++ more := by
    simp [replies]
  rw [hreplies]
  simp only [asked, expiries, List.filterMap_append] at h ⊢
  cases ask with
  | read s r =>
      simp only [Ledger.post, Option.bind_eq_some_iff] at hpost
      obtain ⟨⟨M, rest⟩, hretire, hreplied⟩ := hpost
      obtain ⟨used, hused, hnone, hM⟩ := h.retire rfl hretire
      have hissued := hM.issue hnone r
      have hdone := hissued.replied (w := ⟨M.issued, r, none⟩) (by simp [Ledger.issue]) rfl hreplied
      simp only at hused
      rw [List.append_assoc, ← hused] at hdone
      simpa using hdone
  | leave s =>
      simp only [Ledger.post, Option.bind_eq_some_iff] at hpost
      obtain ⟨⟨M, rest⟩, hretire, hrest⟩ := hpost
      obtain ⟨used, hused, -, hM⟩ := h.retire rfl hretire
      simp only [Option.ite_none_right_eq_some] at hrest hused
      obtain ⟨hall, hL⟩ := hrest
      obtain rfl := Option.some.inj hL
      have hdone := hM.other hall
      rw [List.append_assoc, ← hused] at hdone
      simpa using hdone
  | expire t =>
      simp only [Ledger.post] at hpost
      split at hpost
      · split at hpost
        · rename_i hempty
          obtain rfl := Option.some.inj hpost
          obtain rfl := List.isEmpty_iff.mp hempty
          simpa using h
        · simp at hpost
      · rename_i s harmed
        split at hpost
        · rename_i w s' a hs
          split at hpost
          · rename_i heq
            subst heq
            obtain rfl := Option.some.inj hpost
            obtain ⟨w', hs', htimer⟩ := (h.armed_iff t s).mp harmed
            obtain rfl : w = w' := by simpa [hs] using hs'
            have hsettled := h.settle hs (.answered a) .expired [.answer s a]
              [t] (by simp [Reply.answer?, Fate.answer?]) rfl
              (by simp [Reply.disarm?]) (by simp [htimer])
            simpa using hsettled
          · simp at hpost
        · simp at hpost
  | wake => simpa using h.answers hpost
  | quiet =>
      simp only [Ledger.post, Option.ite_none_right_eq_some] at hpost
      obtain ⟨hall, hL⟩ := hpost
      obtain rfl := Option.some.inj hL
      simpa using h.other hall

theorem audit_concat (events : List (Ask σ ρ × List (Reply σ α)))
    (e : Ask σ ρ × List (Reply σ α)) :
    audit (events ++ [e]) = (audit events).bind fun L => L.post e.1 e.2 := by
  simp [audit, List.foldlM_append]

/-- The books of an audit that went through agree with the exchange. -/
theorem audit_accounts {events : List (Ask σ ρ × List (Reply σ α))} {L : Ledger σ ρ α}
    (haudit : audit events = some L) :
    Accounts (asked events) (expiries events) (replies events) L := by
  induction events using List.reverseRecOn generalizing L with
  | nil =>
      obtain rfl : new = L := by simpa [audit] using haudit
      exact accounts_new
  | append_singleton events e ih =>
      rw [audit_concat, Option.bind_eq_some_iff] at haudit
      obtain ⟨M, hM, hpost⟩ := haudit
      exact (ih hM).post hpost

end Ledger

end TautShape.Lib
