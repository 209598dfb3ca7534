import TautShape.Log.Watermark
import TautShape.Lib.Pipes
/-!
# What passes between one stream and the log

Seen from one stream an input does one of two things: the stream is told one answer to
what it asked for, by the window as it is then, or what it asked for is held.
-/

namespace TautShape.Log

open TautShape.Lib

structure Want where
  cursor : Cursor
  limits : Limits
deriving DecidableEq, Repr

def Input.wants : Input → Ask StreamId Want
  | .read id cursor limits _ => .read id ⟨cursor.getD Cursor.start, limits⟩
  | .endStream id => .leave id
  | .timerExpired token => .expire token
  | .push _ | .seal | .close _ => .wake
  | .evict _ => .quiet

namespace Table.Ranked

variable {t : Table} {order : List StreamId}

theorem nodup (h : t.Ranked order) : order.Nodup := by
  refine h.sorted.imp_of_mem fun {a b} ha _ hlt heq => ?_
  obtain ⟨rank, hrank⟩ := Option.isSome_iff_exists.mp ((h.mem_iff a).mp ha)
  exact absurd (hlt rank rank hrank (heq ▸ hrank)) (lt_irrefl rank)

theorem not_held (h : t.Ranked order) {id : StreamId} (habsent : id ∉ order) :
    t.heldOf id = none := by
  have hrank : t.rankOf id = none := by
    rw [h.mem_iff, Bool.not_eq_true, Option.isSome_eq_false_iff, Option.isNone_iff_eq_none] at habsent
    exact habsent
  rw [Table.rankOf, Option.map_eq_none_iff] at hrank
  rw [Table.heldOf, hrank, Option.bind_none]

end Table.Ranked

namespace LogNode

/-- The held reads.  The order of the sweep does not show in one stream. -/
def desk (n : LogNode) : Desk StreamId Want :=
  ⟨[], fun id => (n.sessions.heldOf id).map fun held => ⟨⟨held.cursor, held.limits⟩, held.timer⟩,
    n.nextTimer⟩

theorem desk_new (config : Config) : (new config).desk = Desk.new := by
  simp [desk, new, Desk.new, Table.new, Table.heldOf]

theorem desk_kept (n : LogNode) (id : StreamId) : n.desk.kept id =
    (n.sessions.heldOf id).map fun held => ⟨⟨held.cursor, held.limits⟩, held.timer⟩ := rfl

theorem desk_pending {n : LogNode} {input : Input} {id : StreamId}
    (h : input.wants.request? id = none) :
    n.desk.pending id input.wants =
      (n.sessions.heldOf id).map fun held => ⟨held.cursor, held.limits⟩ := by
  rw [Desk.pending, h, Option.none_or, desk, Option.map_map]
  rfl

/-! ## What a stream is told -/

theorem told_cancelTimer (id : StreamId) (timer : Option TimerToken) :
    Desk.told id ((cancelTimer timer).map Output.reply) = [] := by
  cases timer <;> rfl

theorem told_response (id : StreamId) (r : Response) :
    Desk.told id ([Output.response r].map Output.reply) = if r.streamId = id then [r] else [] :=
  Desk.told_answer id r.streamId r

theorem told_notice (id : StreamId) (input : Input) :
    Desk.told id ((notice input).map Output.reply) = [] := by
  cases input <;> rfl

theorem told_release {n : LogNode} (id s : StreamId) (held : Option HeldRead) :
    Desk.told id ((n.release s held).2.map Output.reply) =
      if s = id then (held.bind fun held => n.answerOf id held.cursor held.limits).toList
      else [] := by
  cases held with
  | none =>
      rw [release]
      split <;> rfl
  | some held =>
      rw [release]
      cases hanswer : n.answerOf s held.cursor held.limits with
      | none =>
          by_cases heq : s = id
          · rw [if_pos heq, Option.bind_some, ← heq, hanswer]
            rfl
          · rw [if_neg heq]
            rfl
      | some response =>
          simp only
          rw [List.map_append, Desk.told_append, told_cancelTimer, List.nil_append, told_response,
            answerOf_stream hanswer]
          by_cases heq : s = id
          · rw [if_pos heq, if_pos heq, Option.bind_some, ← heq, hanswer]
            rfl
          · rw [if_neg heq, if_neg heq]

/-! ## One input -/

def Says (n : LogNode) (id : StreamId) (w : Want) (r : Response) : Prop :=
  Resolves n id w.cursor w.limits r

theorem Says.congr {n m : LogNode} (hwindow : m.window = n.window) {id : StreamId} {w : Want}
    {r : Response} (h : n.Says id w r) : m.Says id w r := by
  rcases h with h | ⟨hhead, hr⟩
  · exact .inl ((answerOf_congr hwindow id w.cursor w.limits).trans h)
  · exact .inr ⟨by rw [hhead, head, head, hwindow], hr⟩

theorem woken_passed {n w : LogNode} {input : Input} (hn : n.sessions.Wf) {order : List StreamId}
    (hranked : n.sessions.Ranked order) (hwoken : n.woken input = some w) (id : StreamId) :
    Desk.Passed ((n.handle input).1.Says id) n.desk id input.wants
      ((n.handle input).1.desk, (n.handle input).2.map Output.reply) := by
  have hsessions := (woken_sessions hwoken).1
  have hrequest : input.wants.request? id = none := by
    cases input <;> first | rfl | simp [woken] at hwoken
  obtain ⟨hout, hheld⟩ := releaseHeld_effect (hsessions ▸ hn) (hsessions ▸ hranked)
  have htold : Desk.told id (w.releaseHeld.2.map Output.reply) =
      ((n.sessions.heldOf id).bind fun held => w.answerOf id held.cursor held.limits).toList := by
    rw [hout, List.map_flatMap, Desk.told_flatMap hranked.nodup fun s hs => ?_]
    · split
      · rw [told_release, if_pos rfl, hsessions]
      · rename_i habsent
        rw [hranked.not_held habsent]
        rfl
    · rw [told_release, if_neg hs]
  have hpending := desk_pending (n := n) hrequest
  rw [handle_woken hwoken]
  have hkept : ∀ s, w.releaseHeld.1.desk.kept s =
      (w.release s (n.sessions.heldOf s)).1.map fun held =>
        ⟨⟨held.cursor, held.limits⟩, held.timer⟩ := by
    intro s
    rw [desk_kept, hheld, hsessions]
  have hreplies : Desk.told id ((w.releaseHeld.2 ++ notice input).map Output.reply) =
      ((n.sessions.heldOf id).bind fun held => w.answerOf id held.cursor held.limits).toList := by
    rw [List.map_append, Desk.told_append, told_notice, List.append_nil, htold]
  cases hsome : n.sessions.heldOf id with
  | none =>
      rw [hsome] at hreplies hpending
      exact .untold hreplies (by rw [hkept, hsome, hpending]; rfl)
  | some held =>
      rw [hsome, Option.bind_some] at hreplies
      rw [hsome, Option.map_some] at hpending
      cases hanswer : w.answerOf id held.cursor held.limits with
      | none =>
          rw [hanswer] at hreplies
          exact .untold hreplies (by rw [hkept, hsome, hpending, release, hanswer]; rfl)
      | some response =>
          rw [hanswer] at hreplies
          refine .told ⟨held.cursor, held.limits⟩ response hpending ?_ hreplies ?_
          · exact Says.congr w.releaseHeld_frame.1 (.inl hanswer)
          · rw [hkept, hsome, release, hanswer]
            rfl

theorem read_passed (n : LogNode) (id s : StreamId) (r : Request) :
    Desk.Passed ((n.onRead s r.cursor r.limits r.timeoutMs).1.Says id) n.desk id
      (.read s ⟨r.position, r.limits⟩)
      ((n.onRead s r.cursor r.limits r.timeoutMs).1.desk,
        (n.onRead s r.cursor r.limits r.timeoutMs).2.map Output.reply) := by
  have hreceives := n.onRead_receives s r
  have hspec := n.receive_spec s r
  have htold : Desk.told id ((n.onRead s r.cursor r.limits r.timeoutMs).2.map Output.reply) =
      Desk.told id ((n.receive s r).out.map Output.reply) := by
    rw [hreceives.emits, List.map_append, Desk.told_append, told_cancelTimer, List.nil_append]
  have hkept : ∀ s', (n.onRead s r.cursor r.limits r.timeoutMs).1.desk.kept s' =
      (if s = s' then (n.receive s r).held else n.sessions.heldOf s').map fun held =>
        ⟨⟨held.cursor, held.limits⟩, held.timer⟩ := by
    intro s'
    rw [desk_kept, hreceives.heldOf]
  by_cases heq : s = id
  · subst heq
    have hpending : n.desk.pending s (.read s ⟨r.position, r.limits⟩) =
        some ⟨r.position, r.limits⟩ := by simp [Desk.pending, Ask.request?]
    have hkept := hkept s
    rw [if_pos rfl] at hkept
    generalize n.receive s r = reception at hspec htold hkept
    cases hspec with
    | answered response hanswer =>
        rw [told_response, if_pos (answerOf_stream hanswer)] at htold
        exact .told _ response hpending (Says.congr hreceives.window (.inl hanswer)) htold
          (by rw [hkept]; rfl)
    | probed hnone =>
        rw [told_response, if_pos rfl] at htold
        refine .told _ _ hpending (Says.congr hreceives.window (.inr ⟨?_, rfl⟩)) htold
          (by rw [hkept]; rfl)
        exact (answerOf_eq_none hnone).2
    | held hnone => exact .untold htold (by rw [hkept, hpending]; rfl)
    | timed hnone ms => exact .untold htold (by rw [hkept, hpending]; rfl)
  · have hrequest : (Ask.read s (⟨r.position, r.limits⟩ : Want)).request? id = none := if_neg heq
    refine Desk.passed_of_kept hrequest ?_ (by rw [hkept, if_neg heq, desk_kept])
    rw [htold]
    generalize n.receive s r = reception at hspec
    cases hspec with
    | answered response hanswer => rw [told_response, if_neg (answerOf_stream hanswer ▸ heq)]
    | probed hnone => rw [told_response, if_neg heq]
    | held hnone => rfl
    | timed hnone ms => rfl

theorem endStream_passed (n : LogNode) {id s : StreamId} (hne : s ≠ id) :
    Desk.Passed ((n.onEndStream s).1.Says id) n.desk id (.leave s)
      ((n.onEndStream s).1.desk, (n.onEndStream s).2.map Output.reply) := by
  obtain ⟨⟨stop, hout, hstop⟩, hheld, -⟩ := n.onEndStream_effect s
  refine Desk.passed_of_kept rfl ?_ ?_
  · have hother : (stop.map Output.reply).all Reply.isOther = true := by
      rw [List.all_map, List.all_eq_true]
      intro o ho
      rw [hstop o ho]
      rfl
    rw [hout, List.map_append, Desk.told_append, told_cancelTimer, List.nil_append,
      Desk.told_other id hother]
  · rw [desk_kept, hheld, if_neg hne, desk_kept]

/-- An input passes every stream that it does not end. -/
theorem handle_passed {n : LogNode} (hn : n.sessions.Wf) (htail : n.Tail) {order : List StreamId}
    (hranked : n.sessions.Ranked order) {input : Input} {id : StreamId}
    (hstays : input.wants ≠ .leave id) :
    Desk.Passed ((n.handle input).1.Says id) n.desk id input.wants
      ((n.handle input).1.desk, (n.handle input).2.map Output.reply) := by
  cases hwoken : n.woken input with
  | some w => exact woken_passed hn hranked hwoken id
  | none =>
      cases input with
      | push payload =>
          rw [handle_unwoken_push hwoken]
          exact Desk.passed_of_kept rfl rfl rfl
      | «seal» => simp [woken] at hwoken
      | close error =>
          rw [handle_unwoken_close hwoken]
          exact Desk.passed_of_kept rfl rfl rfl
      | read s cursor limits timeoutMs => exact n.read_passed id s ⟨cursor, limits, timeoutMs⟩
      | endStream s => exact n.endStream_passed fun heq => hstays (by rw [heq]; rfl)
      | evict upToSeq => exact Desk.passed_of_kept rfl rfl rfl
      | timerExpired token =>
          have hrequest : (Input.timerExpired token).wants.request? id = none := rfl
          rcases onTimerExpired_effect hn token with
            ⟨s, held, hheld, htimer, hout, hstep⟩ | ⟨-, hstep⟩
          · have hkept : ∀ s', (n.handle (.timerExpired token)).1.desk.kept s' =
                (if s = s' then none else n.sessions.heldOf s').map fun held =>
                  ⟨⟨held.cursor, held.limits⟩, held.timer⟩ := by
              intro s'
              rw [handle, hstep, desk_kept, Table.heldOf_clearHeld]
            have htold : Desk.told id ((n.handle (.timerExpired token)).2.map Output.reply) =
                if s = id then [⟨s, [], held.cursor, .wouldBlock, none⟩] else [] := by
              rw [handle, hout]
              exact told_response id _
            by_cases heq : s = id
            · subst heq
              rw [if_pos rfl] at htold
              refine .told ⟨held.cursor, held.limits⟩ _ ?_ (.inr ⟨?_, rfl⟩) htold
                (by rw [hkept, if_pos rfl]; rfl)
              · rw [desk_pending hrequest, hheld, Option.map_some]
              · rw [handle, hstep]
                exact (htail s held hheld).2
            · rw [if_neg heq] at htold
              exact Desk.passed_of_kept hrequest htold (by rw [hkept, if_neg heq, desk_kept])
          · rw [handle, hstep]
            exact Desk.passed_of_kept hrequest rfl rfl

end LogNode

end TautShape.Log
