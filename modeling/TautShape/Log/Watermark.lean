import TautShape.Log.Wakeup
/-!
# Eviction below the watermark

A disciplined run: every stream reads on from its last response, and nothing above
the smallest watermark is evicted.  The watermark of a stream never passes the
cursor it was last given, on whichever path it got it, so no cursor of a stream
expires once it has been answered, and its answers make up one slice of the history.
-/

namespace TautShape.Log

open TautShape.Lib

/-! ## Disciplined runs -/

def answersTo (id : StreamId) (out : List Output) : List Response :=
  (responses out).filter fun r => r.streamId = id

/-- What a stream has been answered since it was created, after one more step. -/
def heard (id : StreamId) (session : List Response) (input : Input) (out : List Output) :
    List Response :=
  if input = .endStream id then [] else session ++ answersTo id out

namespace LogNode

/-- A read continues from the last response of its stream; an eviction stays within the
watermarks. -/
def Permits (n : LogNode) (sessions : StreamId → List Response) : Input → Prop
  | .read id cursor _ _ =>
      ∀ last ∈ (sessions id).getLast?, cursor.getD Cursor.start = last.nextCursor
  | .evict upToSeq => ∃ low ∈ n.minWatermark, upToSeq ≤ low
  | .push _ | .seal | .close _ | .endStream _ | .timerExpired _ => True

instance (n : LogNode) (sessions : StreamId → List Response) :
    (input : Input) → Decidable (n.Permits sessions input)
  | .read id cursor _ _ => inferInstanceAs (Decidable
      (∀ last ∈ (sessions id).getLast?, cursor.getD Cursor.start = last.nextCursor))
  | .evict upToSeq => inferInstanceAs (Decidable (∃ low ∈ n.minWatermark, upToSeq ≤ low))
  | .push _ | .seal | .close _ | .endStream _ | .timerExpired _ => .isTrue trivial

def Disciplined (n : LogNode) (sessions : StreamId → List Response) : List Input → Prop
  | [] => True
  | input :: rest => n.Permits sessions input ∧
      (n.handle input).1.Disciplined
        (fun id => heard id (sessions id) input (n.handle input).2) rest

instance decidableDisciplined (n : LogNode) (sessions : StreamId → List Response) :
    (inputs : List Input) → Decidable (n.Disciplined sessions inputs)
  | [] => .isTrue trivial
  | input :: rest =>
      have := decidableDisciplined (n.handle input).1
        (fun id => heard id (sessions id) input (n.handle input).2) rest
      inferInstanceAs (Decidable (_ ∧ _))

end LogNode

def sessionOf (config : Config) (inputs : List Input) (id : StreamId) : List Response :=
  (trace LogNode.handle (LogNode.new config) inputs).foldl
    (fun session p => heard id session p.1 p.2) []

/-! ## What one answer does -/

/-- What resolving a cursor against a history comes to: the response, and the watermark
that goes with it. -/
inductive Resolved (n : LogNode) (history : List Bytes) (cursor : Cursor) (watermark : Nat)
    (response : Response) : Nat → Prop where
  | data (hrecords : response.records = slice history cursor.seq response.nextCursor.seq)
      (hstate : response.state ≠ .expired) (hle : cursor.seq ≤ response.nextCursor.seq)
      (hhead : response.nextCursor.seq ≤ n.head) (hfloor : n.floor ≤ cursor.seq + 1) :
      Resolved n history cursor watermark response response.nextCursor.seq
  | idle (hrecords : response.records = []) (hstate : response.state ≠ .expired)
      (hnext : response.nextCursor = cursor) (hhead : cursor.seq = n.head) :
      Resolved n history cursor watermark response watermark
  | expired (hout : n.head < cursor.seq ∨ cursor.seq + 1 < n.floor)
      (hhead : response.nextCursor.seq ≤ n.head)
      (hfloor : n.floor ≤ response.nextCursor.seq + 1) :
      Resolved n history cursor watermark response watermark

/-- A response of the window, or `would_block` at the head. -/
def Resolves (n : LogNode) (id : StreamId) (cursor : Cursor) (limits : Limits)
    (response : Response) : Prop :=
  n.answerOf id cursor limits = some response ∨
    cursor.seq = n.head ∧ response = ⟨id, [], cursor, .wouldBlock, none⟩

theorem Resolves.resolved {n : LogNode} {history : List Bytes} (hholds : n.window.Holds history)
    {id : StreamId} {cursor : Cursor} {limits : Limits} {response : Response}
    (h : Resolves n id cursor limits response) (watermark : Nat) :
    Resolved n history cursor watermark response (n.progress cursor limits watermark) := by
  have hlength : n.head = history.length := hholds.head_eq
  have hbound : n.floor ≤ history.length + 1 := hholds.floor_le
  have hspec := n.classify_spec cursor
  rcases h with h | ⟨hhead, rfl⟩
  · unfold LogNode.answerOf at h
    unfold LogNode.progress
    generalize n.classify cursor = resolution at h hspec
    cases hspec with
    | ahead hahead =>
        obtain rfl := Option.some.inj h
        exact .expired (.inl hahead) le_rfl (by simp only; omega)
    | behind hbehind hhead =>
        obtain rfl := Option.some.inj h
        exact .expired (.inr hbehind) (by simp only; omega) (by simp only; omega)
    | data hhead hfloor =>
        obtain rfl := Option.some.inj h
        obtain ⟨hscan, hle, hend⟩ := hholds.scan_slice hfloor (hlength ▸ hhead.le) limits
        exact .data hscan (by simp) hle (by simp only; omega) hfloor
    | terminal hhead state error hstate =>
        obtain rfl := Option.some.inj h
        refine .idle rfl ?_ rfl hhead
        rintro rfl
        simp at hstate
    | caughtUpLive _ _ => simp at h
  · have hsame : n.progress cursor limits watermark = watermark := by
      unfold LogNode.progress
      split
      · rename_i hcase
        rw [hcase] at hspec
        cases hspec with
        | data hlt _ => omega
      · rfl
    rw [hsame]
    exact .idle rfl (by simp) rfl hhead

namespace Resolved

variable {n : LogNode} {history : List Bytes} {cursor : Cursor} {watermark watermark' : Nat}
  {response : Response}

/-- The next cursor is never one that expired. -/
theorem bounds (h : Resolved n history cursor watermark response watermark')
    (hholds : n.window.Holds history) :
    response.nextCursor.seq ≤ n.head ∧ n.floor ≤ response.nextCursor.seq + 1 := by
  have hlength : n.head = history.length := hholds.head_eq
  have hbound : n.floor ≤ history.length + 1 := hholds.floor_le
  cases h with
  | data _ _ hle hhead hfloor => omega
  | idle _ _ hnext hhead =>
      rw [hnext]
      omega
  | expired _ hhead hfloor => exact ⟨hhead, hfloor⟩

theorem watermark_le (h : Resolved n history cursor watermark response watermark')
    (hle : watermark ≤ response.nextCursor.seq) : watermark' ≤ response.nextCursor.seq := by
  cases h with
  | data _ _ _ _ _ => exact le_rfl
  | idle _ _ _ _ => exact hle
  | expired _ _ _ => exact hle

theorem inside (h : Resolved n history cursor watermark response watermark')
    (hhead : cursor.seq ≤ n.head) (hfloor : n.floor ≤ cursor.seq + 1) :
    response.state ≠ .expired ∧ cursor.seq ≤ response.nextCursor.seq ∧
      response.records = slice history cursor.seq response.nextCursor.seq := by
  cases h with
  | data hrecords hstate hle _ _ => exact ⟨hstate, hle, hrecords⟩
  | idle hrecords hstate hnext _ =>
      rw [hrecords, hnext, slice_self]
      exact ⟨hstate, le_rfl, rfl⟩
  | expired hout _ _ => omega

end Resolved

/-! ## Where a stream stands -/

def lastOf (first : Response) (rest : List Response) : Response := rest.getLast?.getD first

/-- A stream after its first response: it got one slice since, and its cursor is inside
the window and not behind its watermark. -/
structure Stands (n : LogNode) (history : List Bytes) (id : StreamId) (first : Response)
    (rest : List Response) : Prop where
  unexpired : ∀ r ∈ rest, r.state ≠ .expired
  received : rest.flatMap Response.records =
    slice history first.nextCursor.seq (lastOf first rest).nextCursor.seq
  first_le : first.nextCursor.seq ≤ (lastOf first rest).nextCursor.seq
  watermark : ∃ watermark, n.sessions.watermarkOf id = some watermark ∧
    watermark ≤ (lastOf first rest).nextCursor.seq
  head : (lastOf first rest).nextCursor.seq ≤ n.head
  floor : n.floor ≤ (lastOf first rest).nextCursor.seq + 1
  held : ∀ held, n.sessions.heldOf id = some held →
    held.cursor = (lastOf first rest).nextCursor

/-- A stream without a response has the watermark it was created with. -/
def Follows (n : LogNode) (history : List Bytes) (id : StreamId) : List Response → Prop
  | [] => ∀ watermark, n.sessions.watermarkOf id = some watermark → watermark = 0
  | first :: rest => Stands n history id first rest

def Continues (session : List Response) (cursor : Cursor) : Prop :=
  ∀ last ∈ session.getLast?, cursor = last.nextCursor

theorem continues_cons {first : Response} {rest : List Response} {cursor : Cursor} :
    Continues (first :: rest) cursor ↔ cursor = (lastOf first rest).nextCursor := by
  simp [Continues, lastOf, List.getLast?_cons]

section

variable {n n' : LogNode} {history : List Bytes} {id : StreamId} {session : List Response}

theorem Follows.held (h : Follows n history id session) {held : HeldRead}
    (hheld : n.sessions.heldOf id = some held) : Continues session held.cursor := by
  cases session with
  | nil => simp [Continues]
  | cons first rest => exact continues_cons.mpr (h.held held hheld)

/-- Neither the reads of others nor a growing history move a stream; an eviction may
raise the floor up to its watermark. -/
theorem Follows.mono (h : Follows n history id session) {later : List Bytes}
    (hholds : n.window.Holds history) (hlater : history <+: later) (hhead : n.head ≤ n'.head)
    (hmark : n'.sessions.watermarkOf id = n.sessions.watermarkOf id)
    (hfloor : ∀ watermark, n.sessions.watermarkOf id = some watermark →
      n'.floor ≤ max n.floor (watermark + 1))
    (hheld : ∀ held, n'.sessions.heldOf id = some held → Continues session held.cursor) :
    Follows n' later id session := by
  cases session with
  | nil =>
      intro watermark hsome
      exact h watermark (hmark ▸ hsome)
  | cons first rest =>
      obtain ⟨watermark, hsome, hle⟩ := h.watermark
      have hbound := h.head
      rw [LogNode.head, hholds.head_eq] at hbound
      have hfloor' := hfloor watermark hsome
      have hold := h.floor
      constructor
      case unexpired => exact h.unexpired
      case received => rw [slice_of_extends hlater hbound, h.received]
      case first_le => exact h.first_le
      case watermark => exact ⟨watermark, hmark ▸ hsome, hle⟩
      case head => exact h.head.trans hhead
      case floor => omega
      case held =>
        intro held hsome'
        exact continues_cons.mp (hheld held hsome')

/-- An answer at the cursor of a session extends it by the slice in between. -/
theorem Follows.answer (h : Follows n history id session) (hholds : n.window.Holds history)
    {cursor : Cursor} {limits : Limits} {response : Response}
    (hresolves : Resolves n id cursor limits response) (hcursor : Continues session cursor)
    (hwindow : n'.window = n.window)
    (hmark : n'.sessions.watermarkOf id =
      some (n.progress cursor limits ((n.sessions.watermarkOf id).getD 0)))
    (hnone : n'.sessions.heldOf id = none) :
    Follows n' history id (session ++ [response]) := by
  have hhead : n'.head = n.head := by rw [LogNode.head, hwindow, LogNode.head]
  have hfloor : n'.floor = n.floor := by rw [LogNode.floor, hwindow, LogNode.floor]
  have hresolved := hresolves.resolved hholds ((n.sessions.watermarkOf id).getD 0)
  generalize n.progress cursor limits _ = watermark' at hmark hresolved
  obtain ⟨hend, hnext⟩ := hresolved.bounds hholds
  cases session with
  | nil =>
      have hzero : (n.sessions.watermarkOf id).getD 0 = 0 := by
        cases hsome : n.sessions.watermarkOf id with
        | none => rfl
        | some watermark => exact h watermark hsome
      rw [hzero] at hresolved
      have hlast : lastOf response [] = response := rfl
      constructor
      case unexpired => simp
      case received => rw [hlast, slice_self, List.flatMap_nil]
      case first_le => exact le_rfl
      case watermark => exact ⟨_, hmark, hresolved.watermark_le (Nat.zero_le _)⟩
      case head => rwa [hlast, hhead]
      case floor => rwa [hlast, hfloor]
      case held => simp [hnone]
  | cons first rest =>
      obtain rfl := continues_cons.mp hcursor
      obtain ⟨watermark, hsome, hle⟩ := h.watermark
      rw [hsome, Option.getD_some] at hresolved
      obtain ⟨hstate, hstep, hrecords⟩ := hresolved.inside h.head h.floor
      have hlast : lastOf first (rest ++ [response]) = response := by simp [lastOf]
      show Stands n' history id first (rest ++ [response])
      constructor
      case unexpired =>
        intro r hr
        rcases List.mem_append.mp hr with hr | hr
        · exact h.unexpired r hr
        · rw [List.mem_singleton] at hr
          exact hr ▸ hstate
      case received =>
        calc (rest ++ [response]).flatMap Response.records
            = rest.flatMap Response.records ++ response.records := by simp
          _ = slice history first.nextCursor.seq (lastOf first rest).nextCursor.seq ++
                slice history (lastOf first rest).nextCursor.seq response.nextCursor.seq := by
              rw [h.received, hrecords]
          _ = slice history first.nextCursor.seq response.nextCursor.seq :=
              slice_append h.first_le hstep
          _ = slice history first.nextCursor.seq
                (lastOf first (rest ++ [response])).nextCursor.seq := by rw [hlast]
      case first_le =>
        rw [hlast]
        exact h.first_le.trans hstep
      case watermark =>
        rw [hlast]
        exact ⟨_, hmark, hresolved.watermark_le (hle.trans hstep)⟩
      case head => rwa [hlast, hhead]
      case floor => rwa [hlast, hfloor]
      case held => simp [hnone]

/-! ## One input -/

theorem answersTo_append (id : StreamId) (out out' : List Output) :
    answersTo id (out ++ out') = answersTo id out ++ answersTo id out' := by
  rw [answersTo, responses_append, List.filter_append]
  rfl

@[simp] theorem answersTo_cancelTimer (id : StreamId) (timer : Option TimerToken) :
    answersTo id (LogNode.cancelTimer timer) = [] := by
  rw [answersTo, responses_cancelTimer, List.filter_nil]

theorem answersTo_response (id : StreamId) (response : Response) :
    answersTo id [.response response] = if response.streamId = id then [response] else [] := by
  simp only [answersTo, responses, List.filterMap_cons, List.filterMap_nil, List.filter_cons,
    List.filter_nil, decide_eq_true_eq]

theorem answerOf_stream {cursor : Cursor} {limits : Limits} {response : Response}
    (h : n.answerOf id cursor limits = some response) : response.streamId = id :=
  LogNode.Answers.stream (r := ⟨some cursor, limits, none⟩) (.inl h)

theorem LogNode.progress_unanswered {cursor : Cursor} {limits : Limits}
    (h : n.answerOf id cursor limits = none) (watermark : Nat) :
    n.progress cursor limits watermark = watermark := by
  unfold LogNode.answerOf at h
  unfold LogNode.progress
  split
  · rename_i hcase
    simp [hcase] at h
  · rfl

theorem Follows.untouched (h : Follows n history id session) (hholds : n.window.Holds history)
    (hwindow : n'.window = n.window)
    (hmark : n'.sessions.watermarkOf id = n.sessions.watermarkOf id)
    (hheld : n'.sessions.heldOf id = n.sessions.heldOf id) : Follows n' history id session := by
  refine h.mono hholds List.prefix_rfl ?_ hmark ?_ ?_
  · rw [LogNode.head, LogNode.head, hwindow]
  · intro watermark _
    rw [LogNode.floor, LogNode.floor, hwindow]
    exact le_max_left _ _
  · intro held hsome
    exact h.held (hheld ▸ hsome)

theorem Follows.parked (h : Follows n history id session) (hholds : n.window.Holds history)
    (hwindow : n'.window = n.window)
    (hmark : n'.sessions.watermarkOf id = some ((n.sessions.watermarkOf id).getD 0))
    (hheld : ∀ held, n'.sessions.heldOf id = some held → Continues session held.cursor) :
    Follows n' history id session := by
  cases session with
  | nil =>
      intro watermark hsome
      obtain rfl := Option.some.inj (hmark.symm.trans hsome)
      cases hold : n.sessions.watermarkOf id with
      | none => rfl
      | some watermark => exact h watermark hold
  | cons first rest =>
      obtain ⟨watermark, hsome, -⟩ := h.watermark
      rw [hsome, Option.getD_some, ← hsome] at hmark
      refine h.mono hholds List.prefix_rfl ?_ hmark ?_ hheld
      · rw [LogNode.head, LogNode.head, hwindow]
      · intro watermark' _
        rw [LogNode.floor, LogNode.floor, hwindow]
        exact le_max_left _ _

theorem Follows.releaseOne (h : Follows n history id session) (hholds : n.window.Holds history)
    (visited : StreamId) :
    Follows (n.releaseOne visited).1 history id
      (session ++ answersTo id (n.releaseOne visited).2) := by
  have hfrees := n.releaseOne_frees visited
  have hmark := hfrees.watermarkOf id
  have hheld := hfrees.heldOf id
  have hquiet : ∀ out, (n.releaseOne visited).2 = out → answersTo id out = [] →
      (n.releaseOne visited).1.sessions.watermarkOf id = n.sessions.watermarkOf id →
      (n.releaseOne visited).1.sessions.heldOf id = n.sessions.heldOf id →
      Follows (n.releaseOne visited).1 history id
        (session ++ answersTo id (n.releaseOne visited).2) := by
    intro out hout hnil hmark' hheld'
    rw [hout, hnil, List.append_nil]
    exact h.untouched hholds hfrees.window hmark' hheld'
  cases hsome : n.sessions.heldOf visited with
  | none =>
      rw [hsome] at hmark hheld
      refine hquiet [] (by rw [hfrees.emits, hsome, LogNode.release]) rfl ?_ ?_
      · rw [hmark]
        split
        · rename_i heq
          rw [← heq]
          exact Option.map_id'
        · rfl
      · rw [hheld]
        split
        · rename_i heq
          rw [← heq, hsome, LogNode.release]
        · rfl
  | some held =>
      rw [hsome] at hmark hheld
      have hemits := hfrees.emits
      rw [hsome, LogNode.release] at hemits
      rw [LogNode.release] at hheld
      cases hanswer : n.answerOf visited held.cursor held.limits with
      | none =>
          rw [hanswer] at hemits hheld
          refine hquiet [] hemits rfl ?_ ?_
          · rw [hmark]
            split
            · rename_i heq
              rw [← heq]
              simp only [Option.elim_some, LogNode.progress_unanswered hanswer, Option.map_id']
            · rfl
          · rw [hheld]
            split
            · rename_i heq
              rw [← heq, hsome]
            · rfl
      | some response =>
          rw [hanswer] at hemits hheld
          have hstream := answerOf_stream hanswer
          by_cases heq : visited = id
          · subst heq
            rw [if_pos rfl] at hmark hheld
            rw [hemits, answersTo_append, answersTo_cancelTimer, answersTo_response,
              if_pos hstream, List.nil_append]
            refine h.answer hholds (.inl hanswer) (h.held hsome) hfrees.window ?_ hheld
            obtain ⟨watermark, hwatermark⟩ := Table.watermarkOf_of_heldOf hsome
            rw [hmark, hwatermark, Option.map_some, Option.getD_some, Option.elim_some]
          · rw [if_neg heq] at hmark hheld
            refine hquiet _ hemits ?_ hmark hheld
            rw [answersTo_append, answersTo_cancelTimer, answersTo_response,
              if_neg (hstream ▸ heq), List.nil_append]

theorem Follows.sweep (h : Follows n history id session) (hholds : n.window.Holds history)
    (ids : List StreamId) :
    Follows (after LogNode.releaseOne n ids) history id
      (session ++ answersTo id (outputs LogNode.releaseOne n ids).flatten) := by
  induction ids generalizing n session with
  | nil => simpa [outputs, answersTo, responses] using h
  | cons visited rest ih =>
      have hwindow := (n.releaseOne_frees visited).window
      rw [outputs, List.flatten_cons, answersTo_append, ← List.append_assoc]
      exact ih (h.releaseOne hholds visited) (hwindow ▸ hholds)

theorem Follows.woken {w : LogNode} {input : Input} (h : Follows n history id session)
    (hholds : n.window.Holds history) (hwoken : n.woken input = some w) {later : List Bytes}
    (hlater : history <+: later) (hholds' : w.window.Holds later) (hfloor : w.floor = n.floor) :
    Follows (n.handle input).1 later id (session ++ answersTo id (n.handle input).2) := by
  have hsessions := (LogNode.woken_sessions hwoken).1
  have hw : Follows w later id session := by
    refine h.mono hholds hlater ?_ (by rw [hsessions]) ?_ ?_
    · rw [LogNode.head, LogNode.head, hholds.head_eq, hholds'.head_eq]
      exact hlater.length_le
    · intro watermark _
      rw [hfloor]
      exact le_max_left _ _
    · intro held hsome
      exact h.held (hsessions ▸ hsome)
  rw [LogNode.handle_woken hwoken, answersTo_append, answersTo, answersTo, responses_notice,
    List.filter_nil, List.append_nil]
  exact hw.sweep hholds' _

theorem Follows.read (h : Follows n history id session) (hholds : n.window.Holds history)
    (reader : StreamId) (r : Request) (hpermits : reader = id → Continues session r.position) :
    Follows (n.onRead reader r.cursor r.limits r.timeoutMs).1 history id
      (session ++ answersTo id (n.onRead reader r.cursor r.limits r.timeoutMs).2) := by
  have hreceives := n.onRead_receives reader r
  have hmark := hreceives.watermarkOf id
  have hheld := hreceives.heldOf id
  have hspec := n.receive_spec reader r
  rw [hreceives.emits, answersTo_append, answersTo_cancelTimer, List.nil_append]
  by_cases heq : reader = id
  · subst heq
    have hcursor := hpermits rfl
    rw [if_pos rfl] at hmark hheld
    generalize n.receive reader r = reception at hspec hheld ⊢
    cases hspec with
    | answered response hanswer =>
        rw [answersTo_response, if_pos (answerOf_stream hanswer)]
        exact h.answer hholds (.inl hanswer) hcursor hreceives.window hmark hheld
    | probed hnone =>
        have hhead := (LogNode.answerOf_eq_none hnone).2
        rw [answersTo_response, if_pos rfl]
        exact h.answer hholds (.inr ⟨hhead, rfl⟩) hcursor hreceives.window hmark hheld
    | held hnone =>
        rw [LogNode.progress_unanswered hnone] at hmark
        refine (List.append_nil session).symm ▸ h.parked hholds hreceives.window hmark ?_
        intro held hsome
        exact Option.some.inj (hheld.symm.trans hsome) ▸ hcursor
    | timed hnone ms =>
        rw [LogNode.progress_unanswered hnone] at hmark
        refine (List.append_nil session).symm ▸ h.parked hholds hreceives.window hmark ?_
        intro held hsome
        exact Option.some.inj (hheld.symm.trans hsome) ▸ hcursor
  · have hnil : answersTo id (n.receive reader r).out = [] := by
      generalize n.receive reader r = reception at hspec ⊢
      cases hspec with
      | answered response hanswer =>
          rw [answersTo_response, if_neg (answerOf_stream hanswer ▸ heq)]
      | probed _ => rw [answersTo_response, if_neg heq]
      | held _ => rfl
      | timed _ ms => rfl
    rw [if_neg heq] at hmark hheld
    rw [hnil, List.append_nil]
    exact h.untouched hholds hreceives.window hmark hheld

/-- A timeout answers at the head, where every held read waits. -/
theorem Follows.timerExpired (h : Follows n history id session) (hn : n.sessions.Wf)
    (htail : n.Tail) (hholds : n.window.Holds history) (token : TimerToken) :
    Follows (n.onTimerExpired token).1 history id
      (session ++ answersTo id (n.onTimerExpired token).2) := by
  rcases LogNode.onTimerExpired_effect hn token with
    ⟨reader, held, hheld, -, hout, hstep⟩ | ⟨-, hstep⟩
  · have hmark := n.sessions.watermarkOf_clearHeld reader id
    have hclear := n.sessions.heldOf_clearHeld reader id
    rw [hout, hstep, answersTo_response]
    by_cases heq : reader = id
    · subst heq
      have hhead := (htail reader held hheld).2
      have hresolves : Resolves n reader held.cursor held.limits
          ⟨reader, [], held.cursor, .wouldBlock, none⟩ := .inr ⟨hhead, rfl⟩
      have hunanswered : n.answerOf reader held.cursor held.limits = none :=
        LogNode.answerOf_at_head hholds (htail reader held hheld).1 hhead reader held.limits
      obtain ⟨watermark, hsome⟩ := Table.watermarkOf_of_heldOf hheld
      rw [if_pos rfl] at hclear ⊢
      refine h.answer hholds hresolves (h.held hheld) rfl ?_ hclear
      rw [hmark, hsome, Option.getD_some, LogNode.progress_unanswered hunanswered]
    · rw [if_neg heq] at hclear ⊢
      rw [List.append_nil]
      exact h.untouched hholds rfl hmark hclear
  · rw [hstep]
    exact (List.append_nil session).symm ▸ h

theorem Follows.endStream (h : Follows n history id session) (hholds : n.window.Holds history)
    (ended : StreamId) :
    Follows (n.onEndStream ended).1 history id
      (heard id session (.endStream ended) (n.onEndStream ended).2) := by
  obtain ⟨⟨stop, hout, hstop⟩, hheld, -, hsessions⟩ := n.onEndStream_effect ended
  have hmark := n.sessions.watermarkOf_remove ended id
  have hquiet : responses stop = [] := by
    refine List.filterMap_eq_nil_iff.mpr fun o ho => ?_
    rw [hstop o ho]
  have hsilent : answersTo id (n.onEndStream ended).2 = [] := by
    rw [hout, answersTo_append, answersTo_cancelTimer, answersTo, hquiet]
    rfl
  rw [← hsessions] at hmark
  by_cases heq : ended = id
  · subst heq
    rw [if_pos rfl] at hmark
    rw [heard, if_pos rfl]
    intro watermark hsome
    simp [hmark] at hsome
  · rw [if_neg heq] at hmark
    rw [heard, if_neg (by simpa using heq), hsilent, List.append_nil]
    exact h.untouched hholds (n.onEndStream_window ended) hmark (by rw [hheld, if_neg heq])

/-- An eviction within the watermarks. -/
theorem Follows.evict (h : Follows n history id session) (hholds : n.window.Holds history)
    {upToSeq low : Nat} (hlow : n.minWatermark = some low) (hle : upToSeq ≤ low) :
    Follows (n.onEvict upToSeq).1 history id session := by
  refine h.mono hholds List.prefix_rfl ?_ rfl ?_ fun held hsome => h.held hsome
  · simp only [LogNode.onEvict, LogNode.head, Window.evict]
    split <;> exact le_rfl
  · intro watermark hsome
    have hwatermark := Table.minWatermark_le hlow hsome
    simp only [LogNode.onEvict, LogNode.floor, Window.evict]
    split
    · exact le_max_left _ _
    · simp only
      split <;> omega

theorem Follows.handle {sessions : StreamId → List Response}
    (h : Follows n history id (sessions id)) (hn : n.sessions.Wf) (htail : n.Tail)
    (hholds : n.window.Holds history) {input : Input} (hpermits : n.Permits sessions input) :
    Follows (n.handle input).1 (history ++ n.accepted input) id
      (heard id (sessions id) input (n.handle input).2) := by
  cases input with
  | push payload =>
      rw [heard, if_neg (by simp), LogNode.accepted]
      by_cases hlive : n.window.lifecycle = .live
      · rw [if_pos hlive]
        have hwoken : n.woken (.push payload) =
            some { n with window := n.window.push payload } := by
          rw [LogNode.woken, if_pos hlive]
        exact h.woken hholds hwoken (List.prefix_append _ _) (hholds.push payload) rfl
      · have hwoken : n.woken (.push payload) = none := by rw [LogNode.woken, if_neg hlive]
        rw [if_neg hlive, List.append_nil, LogNode.handle_unwoken_push hwoken]
        exact (List.append_nil (sessions id)).symm ▸ h
  | «seal» =>
      simp only [heard, reduceCtorEq, if_false, LogNode.accepted, List.append_nil]
      refine h.woken hholds (by rw [LogNode.woken]) List.prefix_rfl hholds.seal ?_
      simp only [LogNode.floor, Window.seal]
      split <;> rfl
  | close error =>
      simp only [heard, reduceCtorEq, if_false, LogNode.accepted, List.append_nil]
      cases hwoken : n.woken (.close error) with
      | none =>
          rw [LogNode.handle_unwoken_close hwoken]
          exact (List.append_nil (sessions id)).symm ▸ h
      | some w =>
          have hwindow : w = { n with window := n.window.close error } := by
            simp only [LogNode.woken] at hwoken
            split at hwoken
            · simp at hwoken
            · simp at hwoken
            · exact (Option.some.inj hwoken).symm
            · exact (Option.some.inj hwoken).symm
          subst hwindow
          refine h.woken hholds hwoken List.prefix_rfl (hholds.close error) ?_
          simp only [LogNode.floor, Window.close]
          split <;> rfl
  | read reader cursor limits timeoutMs =>
      simp only [heard, reduceCtorEq, if_false, LogNode.accepted, List.append_nil]
      refine h.read hholds reader ⟨cursor, limits, timeoutMs⟩ ?_
      rintro rfl
      exact hpermits
  | endStream ended =>
      simp only [LogNode.accepted, List.append_nil]
      exact h.endStream hholds ended
  | timerExpired token =>
      simp only [heard, reduceCtorEq, if_false, LogNode.accepted, List.append_nil]
      exact h.timerExpired hn htail hholds token
  | evict upToSeq =>
      simp only [heard, reduceCtorEq, if_false, LogNode.accepted, List.append_nil]
      obtain ⟨low, hlow, hle⟩ := hpermits
      exact (List.append_nil (sessions id)).symm ▸ h.evict hholds hlow hle

end

/-! ## Whole runs -/

theorem disciplined_concat (n : LogNode) (sessions : StreamId → List Response) (front : List Input)
    (input : Input) :
    n.Disciplined sessions (front ++ [input]) ↔ n.Disciplined sessions front ∧
      (after LogNode.handle n front).Permits (fun id =>
        (trace LogNode.handle n front).foldl (fun session p => heard id session p.1 p.2)
          (sessions id)) input := by
  induction front generalizing n sessions with
  | nil => simp [LogNode.Disciplined, trace]
  | cons first rest ih =>
      rw [List.cons_append, LogNode.Disciplined, ih, LogNode.Disciplined, and_assoc]
      rfl

theorem run_follows (config : Config) (inputs : List Input)
    (hdisciplined : (LogNode.new config).Disciplined (fun _ => []) inputs) (id : StreamId) :
    Follows (run config inputs) (history config inputs) id (sessionOf config inputs id) := by
  induction inputs using List.reverseRecOn with
  | nil =>
      intro watermark hsome
      simp [run, LogNode.new, Table.new, Table.watermarkOf] at hsome
  | append_singleton front input ih =>
      obtain ⟨hfront, hpermits⟩ := (disciplined_concat _ _ front input).mp hdisciplined
      have hsession : sessionOf config (front ++ [input]) id =
          heard id (sessionOf config front id) input ((run config front).handle input).2 := by
        rw [sessionOf, trace_append, List.foldl_append]
        rfl
      rw [run_concat, history_concat, hsession]
      have hfollows : Follows (run config front) (history config front) id
          ((fun id => sessionOf config front id) id) := ih hfront
      exact hfollows.handle (run_wf config front) (run_tail config front)
        (run_holds config front) hpermits

/-- **Eviction below the watermark is safe.**  In a disciplined run no response after the
first one of a live stream is expired; together they are the slice of the history from
the first next cursor to the last, inside the window, and a stream that waits has
everything. -/
theorem watermark_eviction_safe (config : Config) (inputs : List Input)
    (hdisciplined : (LogNode.new config).Disciplined (fun _ => []) inputs) (id : StreamId)
    (first : Response) (rest : List Response)
    (hsession : sessionOf config inputs id = first :: rest) :
    let n := run config inputs
    let last := lastOf first rest
    (∀ r ∈ rest, r.state ≠ .expired) ∧
      rest.flatMap Response.records =
        slice (history config inputs) first.nextCursor.seq last.nextCursor.seq ∧
      last.nextCursor.seq ≤ n.head ∧
      (last.nextCursor.seq < n.head → n.classify last.nextCursor = .data) ∧
      ∀ held, n.sessions.heldOf id = some held → last.nextCursor.seq = n.head := by
  intro n last
  have hfollows := run_follows config inputs hdisciplined id
  rw [hsession] at hfollows
  have hstands : Stands n (history config inputs) id first rest := hfollows
  refine ⟨hstands.unexpired, hstands.received, hstands.head, ?_, ?_⟩
  · intro hlt
    have hfloor : n.floor ≤ last.nextCursor.seq + 1 := hstands.floor
    have hspec := n.classify_spec last.nextCursor
    generalize n.classify last.nextCursor = resolution at hspec ⊢
    cases hspec with
    | data _ _ => rfl
    | ahead hahead => omega
    | behind hbehind _ => omega
    | terminal hhead _ _ _ => omega
    | caughtUpLive hhead _ => omega
  · intro held hheld
    rw [← (run_tail config inputs id held hheld).2, hstands.held held hheld]

/-- Two readers of which one lags, and an eviction up to the watermark of the other. -/
def laggingReader : List Input :=
  [.push [1], .push [2], .read "a" none ⟨some 1, none⟩ none, .read "b" none ⟨none, none⟩ none,
    .evict 1, .push [3], .read "a" (some ⟨1⟩) ⟨none, none⟩ (some 0),
    .read "a" (some ⟨3⟩) ⟨none, none⟩ (some 5)]

theorem watermark_eviction_safe_lagging :
    (LogNode.new ⟨.lastReader⟩).Disciplined (fun _ => []) laggingReader ∧
      [(⟨"a", [⟨2, [2]⟩, ⟨3, [3]⟩], ⟨3⟩, .data, none⟩ : Response)].flatMap Response.records =
        slice (history ⟨.lastReader⟩ laggingReader) 1 3 := by
  have hdisciplined : (LogNode.new ⟨.lastReader⟩).Disciplined (fun _ => []) laggingReader := by
    decide
  exact ⟨hdisciplined, (watermark_eviction_safe ⟨.lastReader⟩ laggingReader hdisciplined "a"
    ⟨"a", [⟨1, [1]⟩], ⟨1⟩, .data, none⟩ _ (by decide)).2.1⟩

end TautShape.Log
