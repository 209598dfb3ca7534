import TautShape.Held.Streams
/-!
# The readers are a desk

Each function on `Streams` is a turn of the desk that `Streams.desk` shows, under the
policy made of the engine's `resolve`.  The view forgets that a token is an `i64`: all
tokens that were handed out are positive, so nothing is lost.
-/

namespace TautShape.Held

open TautShape.Lib
open TautShape.Log (StopWhen)

variable {ρ α δ : Type}

def HeldRead.kept (held : HeldRead ρ) : Kept ρ := ⟨held.request, held.timerToken.map Int.toNat⟩

theorem HeldRead.kept_timer_eq {held : HeldRead ρ} {token : Int}
    (hpos : ∀ own, held.timerToken = some own → 1 ≤ own) :
    held.kept.timer = some token.toNat ↔ held.timerToken = some token := by
  cases hread : held.timerToken with
  | none => simp [kept, hread]
  | some own =>
      have hown := hpos own hread
      simp only [kept, hread, Option.map_some, Option.some.injEq]
      omega

def Output.reply (streamOf : α → String) : Output α δ → Reply String α
  | .readResponse response => .answer (streamOf response) response
  | .setTimer token _ => .arm token.toNat
  | .cancelTimer token => .disarm token.toNat
  | .producerStop _ | .diagnostic _ => .other

/-- Outputs that are about a read, which a sweep has no others than. -/
def Output.aboutRead : Output α δ → Bool
  | .readResponse _ | .setTimer _ _ | .cancelTimer _ => true
  | .producerStop _ | .diagnostic _ => false

def Output.isDiagnostic : Output α δ → Bool
  | .diagnostic _ => true
  | _ => false

theorem not_diagnostic_of_aboutRead {out : List (Output α δ)}
    (h : ∀ o ∈ out, o.aboutRead = true) : out.any Output.isDiagnostic = false := by
  rw [List.any_eq_false]
  intro o ho
  have habout := h o ho
  cases o <;> simp_all [Output.aboutRead, Output.isDiagnostic]

/-- A negative timeout waits like none, without a timer. -/
def policy (resolve probe : String → ρ → Option α) (timeoutMs : ρ → Option Int) :
    Policy String ρ α where
  answer := resolve
  late := probe
  timed request := ((timeoutMs request).filter (0 < ·)).isSome
  parting _ := false

theorem map_cancelTimer (streamOf : α → String) (held : Option (HeldRead ρ)) :
    (cancelTimer (held.bind HeldRead.timerToken) : List (Output α δ)).map
        (Output.reply streamOf) =
      Desk.giveBack (held.map HeldRead.kept) := by
  cases held with
  | none => rfl
  | some held =>
      obtain ⟨request, token⟩ := held
      cases token <;> rfl

namespace Streams

def desk (t : Streams ρ) : Desk String ρ where
  order := t.order
  kept streamId := (t.heldOf streamId).map HeldRead.kept
  timers := (t.nextToken - 1).toNat

theorem held_of_kept {t : Streams ρ} {streamId : String} {k : Kept ρ}
    (hk : t.desk.kept streamId = some k) :
    ∃ held, t.heldOf streamId = some held ∧ held.request = k.request := by
  have hmap : (t.heldOf streamId).map HeldRead.kept = some k := hk
  obtain ⟨held, hheld, rfl⟩ := Option.map_eq_some_iff.mp hmap
  exact ⟨held, hheld, rfl⟩

structure Wf (t : Streams ρ) : Prop where
  /-- `order` lists the keys of `streams`. -/
  keys : ∀ id, id ∈ t.order ↔ id ∈ t.streams
  first : 1 ≤ t.nextToken
  tokens : ∀ id held token, t.heldOf id = some held → held.timerToken = some token → 1 ≤ token

variable {t : Streams ρ}

theorem wf_new : (new : Streams ρ).Wf := by
  constructor <;> simp [new, heldOf]

theorem desk_new : (new : Streams ρ).desk = Desk.new := by
  simp only [desk, new, Desk.new, heldOf]
  congr 1

@[simp] theorem heldOf_setHeld (id a : String) (held : Option (HeldRead ρ)) :
    (t.setHeld id held).heldOf a = if a = id then held else t.heldOf a := by
  rw [heldOf, setHeld, getElem?_insert]
  simp only [eq_comm (a := id)]
  split <;> rfl

@[simp] theorem setHeld_order (id : String) (held : Option (HeldRead ρ)) :
    (t.setHeld id held).order = t.order := rfl

@[simp] theorem setHeld_nextToken (id : String) (held : Option (HeldRead ρ)) :
    (t.setHeld id held).nextToken = t.nextToken := rfl

theorem mem_setHeld (id a : String) (held : Option (HeldRead ρ)) :
    a ∈ (t.setHeld id held).streams ↔ a = id ∨ a ∈ t.streams := by
  rw [setHeld, Std.ExtTreeMap.mem_insert, Std.LawfulEqCmp.compare_eq_iff_eq, eq_comm]

theorem desk_setHeld (id : String) (held : Option (HeldRead ρ)) :
    (t.setHeld id held).desk = t.desk.put id (held.map HeldRead.kept) := by
  simp only [desk, Desk.put, setHeld_order, setHeld_nextToken, Desk.mk.injEq, and_true, true_and]
  funext a
  rw [heldOf_setHeld, Function.update_apply]
  split <;> rfl

theorem Wf.setHeld (h : t.Wf) {id : String} (hid : id ∈ t.order) {held : Option (HeldRead ρ)}
    (htoken : ∀ read token, held = some read → read.timerToken = some token → 1 ≤ token) :
    (t.setHeld id held).Wf := by
  refine ⟨fun a => ?_, h.first, fun a read token hread ht => ?_⟩
  · rw [mem_setHeld, setHeld_order, h.keys]
    refine (or_iff_right_of_imp ?_).symm
    rintro rfl
    exact (h.keys a).mp hid
  · rw [heldOf_setHeld] at hread
    split at hread
    · exact htoken read token hread ht
    · exact h.tokens a read token hread ht

theorem Wf.clear (h : t.Wf) {id : String} (hid : id ∈ t.order) : (t.setHeld id none).Wf :=
  h.setHeld hid (by simp)

theorem Wf.listed (h : t.Wf) {id : String} {held : HeldRead ρ} (hheld : t.heldOf id = some held) :
    id ∈ t.order := by
  rw [heldOf, Option.join_eq_some_iff] at hheld
  exact (h.keys id).mpr (mem_of_getElem?_eq_some hheld)

/-! ## Reads -/

theorem ensureStream_order (h : t.Wf) (id : String) :
    (t.ensureStream id).order = enrol t.order id := by
  unfold ensureStream enrol
  by_cases hid : id ∈ t.order
  · rw [if_pos (Std.ExtTreeMap.contains_iff_mem.mpr ((h.keys id).mp hid)), if_pos hid]
  · rw [if_neg (by simpa using fun hin => hid ((h.keys id).mpr hin)), if_neg hid]

theorem ensureStream_heldOf (id a : String) :
    (t.ensureStream id).heldOf a = t.heldOf a := by
  unfold ensureStream
  split
  · rfl
  · rename_i hnew
    show (t.setHeld id none).heldOf a = t.heldOf a
    rw [heldOf_setHeld]
    split
    · rename_i heq
      rw [heq, heldOf, Std.ExtTreeMap.getElem?_eq_none (by simpa using hnew)]
      rfl
    · rfl

theorem ensureStream_nextToken (id : String) : (t.ensureStream id).nextToken = t.nextToken := by
  unfold ensureStream
  split <;> rfl

theorem ensureStream_desk (h : t.Wf) (id : String) :
    (t.ensureStream id).desk = { t.desk with order := enrol t.order id } := by
  simp only [desk, ensureStream_order h, ensureStream_heldOf, ensureStream_nextToken]

theorem Wf.ensureStream (h : t.Wf) (id : String) : (t.ensureStream id).Wf := by
  refine ⟨fun a => ?_, ?_, fun a held token hheld => ?_⟩
  · rw [ensureStream_order h, mem_enrol, h.keys]
    unfold Streams.ensureStream
    split
    · rename_i hin
      rw [Std.ExtTreeMap.contains_iff_mem] at hin
      exact or_iff_left_of_imp fun heq => heq ▸ hin
    · exact (or_comm).trans (mem_setHeld id a none).symm
  · rw [ensureStream_nextToken]
    exact h.first
  · rw [ensureStream_heldOf] at hheld
    exact h.tokens a held token hheld

variable {resolve probe : String → ρ → Option α} {timeoutMs : ρ → Option Int}
  {streamOf : α → String}

theorem read_of_answer (id : String) {request : ρ} {response : α}
    (hresolve : resolve id request = some response) :
    (t.read resolve timeoutMs id request : _ × List (Output α δ)) =
      ((t.ensureStream id).setHeld id none,
        cancelTimer ((t.heldOf id).bind HeldRead.timerToken) ++ [.readResponse response]) := by
  simp only [read, hresolve, ensureStream_heldOf]

theorem read_of_timed (id : String) {request : ρ} {ms : Int}
    (hresolve : resolve id request = none)
    (htimed : (timeoutMs request).filter (0 < ·) = some ms) :
    (t.read resolve timeoutMs id request : _ × List (Output α δ)) =
      ({ ((t.ensureStream id).setHeld id none).setHeld id
            (some ⟨request, some t.nextToken⟩) with nextToken := t.nextToken + 1 },
        cancelTimer ((t.heldOf id).bind HeldRead.timerToken) ++ [.setTimer t.nextToken ms]) := by
  simp only [read, hresolve, htimed, ensureStream_heldOf, setHeld_nextToken,
    ensureStream_nextToken]

theorem read_of_untimed (id : String) {request : ρ} (hresolve : resolve id request = none)
    (htimed : (timeoutMs request).filter (0 < ·) = none) :
    (t.read resolve timeoutMs id request : _ × List (Output α δ)) =
      (((t.ensureStream id).setHeld id none).setHeld id (some ⟨request, none⟩),
        cancelTimer ((t.heldOf id).bind HeldRead.timerToken)) := by
  simp only [read, hresolve, htimed, ensureStream_heldOf]

theorem desk_replace (h : t.Wf) (id : String) (held : Option (HeldRead ρ)) :
    (((t.ensureStream id).setHeld id none).setHeld id held).desk =
      { t.desk.put id (held.map HeldRead.kept) with order := enrol t.order id } := by
  rw [desk_setHeld, desk_setHeld, ensureStream_desk h]
  simp only [Desk.put, Function.update_idem]

theorem Wf.nextToken_eq (h : t.Wf) : t.nextToken.toNat = t.desk.timers + 1 := by
  have hfirst := h.first
  simp only [desk]
  omega

variable (probe timeoutMs) in
theorem read_turn (h : t.Wf) (id : String) (request : ρ)
    (hname : ∀ response, resolve id request = some response → streamOf response = id) :
    (t.read (δ := δ) resolve timeoutMs id request).1.desk =
        (t.desk.read (policy resolve probe timeoutMs) id request).1 ∧
      (t.read (δ := δ) resolve timeoutMs id request).2.map (Output.reply streamOf) =
        (t.desk.read (policy resolve probe timeoutMs) id request).2 := by
  have hback : (cancelTimer ((t.heldOf id).bind HeldRead.timerToken) :
      List (Output α δ)).map (Output.reply streamOf) = Desk.giveBack (t.desk.kept id) :=
    map_cancelTimer streamOf (t.heldOf id)
  cases hresolve : resolve id request with
  | some response =>
      rw [read_of_answer id hresolve, Desk.read_of_answer hresolve rfl, List.map_append, hback,
        desk_setHeld, ensureStream_desk h]
      exact ⟨rfl, by rw [List.map_singleton, Output.reply, hname response hresolve]⟩
  | none =>
      cases htimed : (timeoutMs request).filter (0 < ·) with
      | some ms =>
          have htimed' : (policy resolve probe timeoutMs).timed request = true := by
            simp only [policy, htimed, Option.isSome_some]
          rw [read_of_timed id hresolve htimed, Desk.read_of_timed hresolve htimed',
            List.map_append, hback, List.map_singleton, Output.reply, h.nextToken_eq]
          refine ⟨?_, rfl⟩
          have hdesk := desk_replace h id (some ⟨request, some t.nextToken⟩)
          have hnext : (t.nextToken + 1 - 1).toNat = t.desk.timers + 1 := by
            rw [← h.nextToken_eq]
            congr 1
            omega
          rw [Option.map_some, HeldRead.kept, Option.map_some, h.nextToken_eq] at hdesk
          exact congrArg₂ (fun (d : Desk String ρ) n => { d with timers := n }) hdesk hnext
      | none =>
          have htimed' : (policy resolve probe timeoutMs).timed request = false := by
            simp only [policy, htimed, Option.isSome_none]
          rw [read_of_untimed id hresolve htimed, Desk.read_of_untimed hresolve htimed', hback,
            desk_replace h]
          exact ⟨rfl, rfl⟩

theorem Wf.read (h : t.Wf) (id : String) (request : ρ) :
    (t.read (δ := δ) resolve timeoutMs id request).1.Wf := by
  have hid : id ∈ (t.ensureStream id).order := by
    rw [ensureStream_order h]
    exact mem_enrol.mpr (.inr rfl)
  have hclear := (h.ensureStream id).clear hid
  cases hresolve : resolve id request with
  | some response =>
      rw [read_of_answer id hresolve]
      exact hclear
  | none =>
      cases htimed : (timeoutMs request).filter (0 < ·) with
      | some ms =>
          rw [read_of_timed id hresolve htimed]
          have htokens : ∀ read token, some (⟨request, some t.nextToken⟩ : HeldRead ρ) = some read →
              read.timerToken = some token → 1 ≤ token := by
            intro read token hread htoken
            obtain rfl := Option.some.inj hread
            obtain rfl := Option.some.inj htoken
            exact h.first
          have hheld := hclear.setHeld hid htokens
          have hnext := h.first
          exact ⟨hheld.keys, by simp only; omega, hheld.tokens⟩
      | none =>
          rw [read_of_untimed id hresolve htimed]
          exact hclear.setHeld hid fun read token hread htoken => by
            obtain rfl := Option.some.inj hread
            simp at htoken

/-! ## The sweep -/

theorem Wf.answerHeld (h : t.Wf) (id : String) : (answerHeld (δ := δ) resolve t id).1.Wf := by
  unfold Streams.answerHeld
  split
  · exact h
  · rename_i held hheld
    split
    · exact h
    · exact h.clear (h.listed hheld)

variable (probe timeoutMs) in
theorem answerHeld_moves (id : String) :
    (answerHeld (δ := δ) resolve t id).1.desk =
      (t.desk.visit (policy resolve probe timeoutMs) id).1 := by
  cases hheld : t.heldOf id with
  | none => simp only [answerHeld, Desk.visit, hheld, desk, Option.map_none]
  | some held =>
      cases hresolve : resolve id held.request with
      | none =>
          simp only [answerHeld, Desk.visit, hheld, desk, Option.map_some, HeldRead.kept, policy,
            hresolve]
      | some response =>
          simp only [answerHeld, Desk.visit, hheld, hresolve, desk_setHeld]
          simp only [desk, hheld, Option.map_some, HeldRead.kept, policy, hresolve,
            Option.map_none]

theorem answerHeld_replies (hname : ∀ id request response, resolve id request = some response →
    streamOf response = id) (id : String) :
    (answerHeld (δ := δ) resolve t id).2.map (Output.reply streamOf) =
      (t.desk.visit (policy resolve probe timeoutMs) id).2 := by
  cases hheld : t.heldOf id with
  | none => simp only [answerHeld, Desk.visit, hheld, desk, Option.map_none, List.map_nil]
  | some held =>
      cases hresolve : resolve id held.request with
      | none =>
          simp only [answerHeld, Desk.visit, hheld, desk, Option.map_some, HeldRead.kept, policy,
            hresolve, List.map_nil]
      | some response =>
          have hback := map_cancelTimer (δ := δ) streamOf (some held)
          simp only [Option.bind_some, Option.map_some] at hback
          simp only [answerHeld, Desk.visit, hheld, hresolve, desk, Option.map_some, policy,
            List.map_append, hback, List.map_singleton, Output.reply,
            hname id held.request response hresolve]
          simp only [HeldRead.kept, hresolve]

variable (probe timeoutMs) in
theorem answerAllHeld_turn (hname : ∀ id request response, resolve id request = some response →
    streamOf response = id) :
    (t.answerAllHeld (δ := δ) resolve).1.desk =
        (t.desk.wake (policy resolve probe timeoutMs)).1 ∧
      (t.answerAllHeld (δ := δ) resolve).2.map (Output.reply streamOf) =
        (t.desk.wake (policy resolve probe timeoutMs)).2 := by
  have hrun := run_simulates (P := fun _ => True) (answerHeld (δ := δ) resolve)
    (fun _ _ _ => trivial) (fun _ id _ => answerHeld_moves probe timeoutMs id)
    (fun _ id _ => answerHeld_replies hname id) (s := t) trivial t.order
  refine ⟨hrun.1, ?_⟩
  rw [answerAllHeld, List.map_flatten, hrun.2]
  rfl

/-- The sweep, and whatever an engine puts out after it. -/
theorem sweep_turn (before : Policy String ρ α) (hname : ∀ id request response,
      resolve id request = some response → streamOf response = id)
    (hprobe : ∀ id request, (probe id request).isSome = true) (tail : List (Output α δ))
    (htail : (tail.map (Output.reply streamOf)).all Reply.isOther = true) :
    Desk.Turn (policy resolve probe timeoutMs) before (policy resolve probe timeoutMs) t.desk .wake
      (((t.answerAllHeld resolve).2 ++ tail).map (Output.reply streamOf))
      (t.answerAllHeld (δ := δ) resolve).1.desk := by
  obtain ⟨hmoves, hreplied⟩ := answerAllHeld_turn (δ := δ) (t := t) probe timeoutMs hname
  refine ⟨hmoves, ⟨tail.map (Output.reply streamOf), htail, ?_⟩, fun hask => absurd rfl hask,
    fun _ _ _ h => h, fun id k _ => hprobe id k.request⟩
  rw [List.map_append, hreplied]
  rfl

theorem Wf.answerAllHeld (h : t.Wf) : (t.answerAllHeld (δ := δ) resolve).1.Wf :=
  after_induction (Streams.answerHeld resolve) h fun _ id _ ht => ht.answerHeld id

variable (t resolve) in
theorem answerAllHeld_aboutRead :
    ∀ o ∈ (t.answerAllHeld (δ := δ) resolve).2, o.aboutRead = true := by
  refine outputs_forall _ (fun t id o ho => ?_) t t.order
  unfold answerHeld at ho
  split at ho
  · simp at ho
  · rename_i held _
    split at ho
    · simp at ho
    · cases htoken : held.timerToken <;>
        simp only [htoken, cancelTimer, List.nil_append, List.cons_append, List.mem_cons,
          List.not_mem_nil, or_false] at ho
      · exact ho ▸ rfl
      · rcases ho with rfl | rfl <;> rfl

def released (resolve : String → ρ → Option α) (id : String) (held : Option (HeldRead ρ)) :
    List (Output α δ) :=
  match held with
  | none => []
  | some held =>
      match resolve id held.request with
      | none => []
      | some response => cancelTimer held.timerToken ++ [.readResponse response]

theorem sweeps_answerHeld (resolve : String → ρ → Option α) :
    Sweeps (answerHeld (δ := δ) resolve) (fun _ => True) heldOf fun id held =>
      (held.filter fun read => (resolve id read.request).isNone, released resolve id held) := by
  refine ⟨fun _ _ _ => trivial, fun t id _ => ?_, fun t id a _ => ?_⟩
  · unfold answerHeld released
    cases t.heldOf id with
    | none => rfl
    | some held =>
        simp only
        cases resolve id held.request <;> rfl
  · unfold answerHeld
    cases hheld : t.heldOf id with
    | none =>
        simp only [Option.filter_none]
        split
        · rename_i heq
          exact heq ▸ hheld
        · rfl
    | some held =>
        cases hresolve : resolve id held.request with
        | none =>
            simp only [Option.filter_some, hresolve, Option.isNone_none, if_true]
            split
            · rename_i heq
              exact heq ▸ hheld
            · rfl
        | some response =>
            simp [hresolve, Option.filter, eq_comm]

theorem answerAllHeld_outputs (hnodup : t.order.Nodup) :
    (t.answerAllHeld (δ := δ) resolve).2 =
      t.order.flatMap fun id => released resolve id (t.heldOf id) := by
  rw [answerAllHeld, (sweeps_answerHeld resolve).outputs_eq trivial hnodup, List.flatMap_def]

theorem answerAllHeld_heldOf (h : t.Wf) (hnodup : t.order.Nodup) (id : String) :
    (t.answerAllHeld (δ := δ) resolve).1.heldOf id =
      (t.heldOf id).filter fun held => (resolve id held.request).isNone := by
  rw [answerAllHeld, (sweeps_answerHeld (δ := δ) resolve).view_after trivial hnodup]
  split
  · rfl
  · rename_i hout
    cases hheld : t.heldOf id with
    | none => rfl
    | some held => exact absurd (h.listed hheld) hout

/-! ## Ends and timers -/

variable (streamOf) in
theorem endStream_turn (h : t.Wf) (stopWhen : StopWhen) (id : String) :
    (t.endStream (α := α) (δ := δ) stopWhen id).1.desk = (t.desk.leave (α := α) id).1 ∧
      ∃ tail, tail.all Reply.isOther = true ∧
        (t.endStream (α := α) (δ := δ) stopWhen id).2.map (Output.reply streamOf) =
          (t.desk.leave id).2 ++ tail := by
  cases hid : t.streams[id]? with
  | none =>
      have hnone : t.desk.kept id = none := by simp [desk, heldOf, hid]
      have hout : id ∉ t.order := by
        rw [h.keys, Std.ExtTreeMap.mem_iff_isSome_getElem?, hid]
        simp
      simp only [endStream, hid, Desk.leave, Desk.put_self hnone]
      refine ⟨?_, [], rfl, by simp [hnone, Desk.giveBack]⟩
      show t.desk = { t.desk with order := strike t.order id }
      rw [strike_of_not_mem hout]
      rfl
  | some held =>
      have hback : (cancelTimer (held.bind HeldRead.timerToken) :
          List (Output α δ)).map (Output.reply streamOf) = Desk.giveBack (t.desk.kept id) := by
        rw [map_cancelTimer]
        simp [desk, heldOf, hid]
      simp only [endStream, hid, Desk.leave, List.map_append, hback]
      refine ⟨?_, _, ?_, rfl⟩
      · simp only [desk, Desk.put, Desk.mk.injEq, and_true]
        refine ⟨rfl, funext fun a => ?_⟩
        rw [Function.update_apply, heldOf, getElem?_erase]
        simp only [eq_comm (a := id)]
        split <;> rfl
      · split <;> rfl

theorem Wf.endStream (h : t.Wf) (stopWhen : StopWhen) (id : String) :
    (t.endStream (α := α) (δ := δ) stopWhen id).1.Wf := by
  unfold Streams.endStream
  split
  · exact h
  · refine ⟨fun a => ?_, h.first, fun a held token hheld ht => ?_⟩
    · simp only [List.mem_filter, Std.ExtTreeMap.mem_erase, h.keys,
        Std.LawfulEqCmp.compare_eq_iff_eq, ne_eq, decide_eq_true_eq]
      rw [and_comm, eq_comm]
    · rw [heldOf, getElem?_erase] at hheld
      split at hheld
      · simp at hheld
      · exact h.tokens a held token hheld ht

theorem heldOf_of_findTimer {token : Int} {id : String} {held : HeldRead ρ}
    (hfound : t.findTimer token = some (id, held)) :
    t.heldOf id = some held ∧ held.timerToken = some token := by
  obtain ⟨p, hp, hsome⟩ := List.exists_of_findSome?_eq_some hfound
  simp only [Option.map_eq_some_iff, Option.filter_eq_some_iff, decide_eq_true_eq,
    Prod.mk.injEq] at hsome
  obtain ⟨read, ⟨hread, htoken⟩, rfl, rfl⟩ := hsome
  rw [Std.ExtTreeMap.mem_toList_iff_getElem?_eq_some] at hp
  exact ⟨by rw [heldOf, hp, hread]; rfl, htoken⟩

theorem not_heldOf_of_findTimer {token : Int} (hfound : t.findTimer token = none) (id : String)
    (held : HeldRead ρ) (hheld : t.heldOf id = some held) : held.timerToken ≠ some token := by
  intro htoken
  rw [heldOf, Option.join_eq_some_iff] at hheld
  have hnone := List.findSome?_eq_none_iff.mp hfound (id, some held)
    (Std.ExtTreeMap.mem_toList_iff_getElem?_eq_some.mpr hheld)
  simp [Option.filter, htoken] at hnone

theorem Wf.token_eq (h : t.Wf) {id : String} {held : HeldRead ρ} {token : Int}
    (hheld : t.heldOf id = some held) :
    held.kept.timer = some token.toNat ↔ held.timerToken = some token :=
  HeldRead.kept_timer_eq (h.tokens id held · hheld)

variable (resolve timeoutMs) in
theorem timerExpired_turn (h : t.Wf) (hsound : t.desk.Sound)
    (hname : ∀ id request response, probe id request = some response → streamOf response = id)
    (token : Int) :
    (t.timerExpired (δ := δ) probe token).1.desk =
        (t.desk.expire (policy resolve probe timeoutMs) token.toNat).1 ∧
      (t.timerExpired (δ := δ) probe token).2.map (Output.reply streamOf) =
        (t.desk.expire (policy resolve probe timeoutMs) token.toNat).2 := by
  cases hfound : t.findTimer token with
  | none =>
      have hnone : ∀ id k, t.desk.kept id = some k → k.timer ≠ some token.toNat := by
        intro id k hk
        simp only [desk, Option.map_eq_some_iff] at hk
        obtain ⟨held, hheld, rfl⟩ := hk
        rw [ne_eq, h.token_eq hheld]
        exact not_heldOf_of_findTimer hfound id held hheld
      rw [Desk.expire_of_not_kept _ hnone, timerExpired, hfound]
      exact ⟨rfl, rfl⟩
  | some found =>
      obtain ⟨id, held⟩ := found
      obtain ⟨hheld, htoken⟩ := heldOf_of_findTimer hfound
      have hkept : t.desk.kept id = some held.kept := by simp [desk, hheld]
      rw [Desk.expire_of_kept hsound _ hkept ((h.token_eq hheld).mpr htoken), timerExpired, hfound]
      refine ⟨desk_setHeld id none, ?_⟩
      simp only [policy, HeldRead.kept, List.map_map]
      cases hprobe : probe id held.request with
      | none => rfl
      | some response =>
          simp [Output.reply, hname id held.request response hprobe]

theorem Wf.timerExpired (h : t.Wf) (token : Int) :
    (t.timerExpired (δ := δ) probe token).1.Wf := by
  unfold Streams.timerExpired
  split
  · exact h
  · rename_i id held hfound
    exact h.clear (h.listed (heldOf_of_findTimer hfound).1)

end Streams

end TautShape.Held
