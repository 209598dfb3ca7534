import TautShape.Stream.Effect
/-!
# Turns at the desk

Every input of the stream engine is a turn of the desk.  A read is held only at the head
of a node that may get more, so no held read is ever overtaken by the ring.
-/

namespace TautShape.Stream

open TautShape.Lib TautShape.Held
open TautShape.Log (Bytes StopWhen)

namespace StreamNode

variable {n m : StreamNode}

theorem answer_congr (hresolve : n.resolve = m.resolve) {id : String}
    (hreader : n.readerOf id = m.readerOf id) : n.answer id = m.answer id := by
  funext request
  rw [answer, answer, hresolve, hreader]

theorem readerOf_congr (hhead : n.head = m.head) {id : String}
    (hentry : n.readers[id]? = m.readers[id]?) : n.readerOf id = m.readerOf id := by
  rw [readerOf, readerOf, hhead, hentry]

/-! ## The sweep as a turn -/

theorem answerAllHeld_frame (h : Sweeping m m) :
    m.answerAllHeld.1 = { m with readers := m.answerAllHeld.1.readers } ∧
      m.answerAllHeld.1.Wf := by
  have hafter := (sweeps_answerHeld m).after_keeps h m.order
  exact ⟨hafter.same, hafter.wf⟩

theorem answerAllHeld_readers (h : Sweeping m m) (hsound : m.desk.Sound) (id : String) :
    m.answerAllHeld.1.readers[id]? = (released m id m.readers[id]?).1 := by
  have hview := (sweeps_answerHeld m).view_after h hsound.nodup id
  change m.answerAllHeld.1.readers[id]? =
    if id ∈ m.order then (released m id m.readers[id]?).1 else m.readers[id]? at hview
  rw [hview]
  split
  · rfl
  · rename_i hout
    cases hentry : m.readers[id]? with
    | none => rfl
    | some reader =>
        exact absurd ((h.wf.keys id).mpr ((mem_readers_iff m id).mpr ⟨reader, hentry⟩)) hout

theorem answerAllHeld_outputs (h : Sweeping m m) (hsound : m.desk.Sound) :
    m.answerAllHeld.2 = m.order.flatMap fun id => (released m id m.readers[id]?).2 := by
  rw [List.flatMap_def]
  exact congrArg List.flatten ((sweeps_answerHeld m).outputs_eq h hsound.nodup)

theorem sweep_turn (h : Sweeping m m) (hdesk : m.desk = n.desk) (hsound : n.desk.Sound)
    (tail : List StreamOutput) (htail : (tail.map reply).all Reply.isOther = true) :
    Desk.Turn m.policy n.policy m.answerAllHeld.1.policy n.desk .wake
      ((m.answerAllHeld.2 ++ tail).map reply) m.answerAllHeld.1.desk := by
  rw [← hdesk] at hsound ⊢
  have hreaders := answerAllHeld_readers h hsound
  have hsame := (answerAllHeld_frame h).1
  refine ⟨?_, ⟨tail.map reply, htail, ?_⟩, fun hask => absurd rfl hask, ?_, ?_⟩
  · have hkept : m.answerAllHeld.1.desk.kept = (m.desk.wake m.policy).1.kept := by
      funext id
      rw [Desk.wake_kept hsound, ← (released_turn m id).1, ← hreaders]
      rfl
    have horder : m.answerAllHeld.1.desk.order = m.order := by rw [hsame]; rfl
    have htimers : m.answerAllHeld.1.desk.timers = m.desk.timers := by rw [hsame]; rfl
    calc m.answerAllHeld.1.desk
        = ⟨m.answerAllHeld.1.desk.order, m.answerAllHeld.1.desk.kept,
            m.answerAllHeld.1.desk.timers⟩ := rfl
      _ = ⟨(m.desk.wake m.policy).1.order, (m.desk.wake m.policy).1.kept,
            (m.desk.wake m.policy).1.timers⟩ := by
          rw [horder, hkept, htimers, Desk.wake_order, Desk.wake_timers]
          rfl
  · rw [List.map_append, Desk.serve, Desk.wake_replies hsound, answerAllHeld_outputs h hsound,
      List.map_flatMap]
    congr 2
    funext id
    exact (released_turn m id).2
  · intro id k hk hnone
    have hresolve : m.answerAllHeld.1.resolve = m.resolve := by rw [hsame]; rfl
    have hentry : m.answerAllHeld.1.readers[id]? = m.readers[id]? := by
      simp only [desk, heldOf, hreaders, Option.map_eq_some_iff, Option.bind_eq_some_iff] at hk
      obtain ⟨held, ⟨reader, hreader, hheld⟩, -⟩ := hk
      rw [hreaders, hreader, released_held hreader (by rw [hheld]; rfl)]
    have hhead : m.answerAllHeld.1.head = m.head := by rw [hsame]
    have hanswer := answer_congr hresolve (readerOf_congr hhead hentry)
    exact (congrFun hanswer k.request).trans hnone
  · exact fun id k _ => m.probe_isSome id k.request

/-! ## Reads -/

theorem readerOf_held (n : StreamNode) (id : String) : (n.readerOf id).held = none := by
  unfold readerOf
  split <;> rfl

theorem ensureReader_resolve (n : StreamNode) (id : String) :
    (n.ensureReader id).resolve = n.resolve := by
  unfold ensureReader
  split <;> rfl

theorem ensureReader_entry (n : StreamNode) (id : String) :
    ∃ reader, (n.ensureReader id).readers[id]? = some reader ∧
      { reader with held := none } = n.readerOf id ∧ reader.held = n.heldOf id := by
  unfold ensureReader readerOf heldOf
  by_cases hin : n.readers.contains id
  · rw [if_pos hin]
    obtain ⟨reader, hreader⟩ := exists_getElem?_of_mem (Std.ExtTreeMap.contains_iff_mem.mp hin)
    exact ⟨reader, hreader, by rw [hreader], by rw [hreader]; rfl⟩
  · have hnone : n.readers[id]? = none := Std.ExtTreeMap.getElem?_eq_none (by simpa using hin)
    rw [if_neg hin, hnone]
    refine ⟨⟨n.head, none⟩, ?_, rfl, rfl⟩
    show (n.insertReader id ⟨n.head, none⟩).readers[id]? = _
    rw [readers_insertReader, if_pos rfl]

theorem ensureReader_readers (n : StreamNode) {id a : String} (hne : a ≠ id) :
    (n.ensureReader id).readers[a]? = n.readers[a]? := by
  unfold ensureReader
  split
  · rfl
  · show (n.insertReader id ⟨n.head, none⟩).readers[a]? = _
    rw [readers_insertReader, if_neg hne]

theorem ensureReader_order (h : n.Wf) (id : String) :
    (n.ensureReader id).order = enrol n.order id := by
  unfold ensureReader enrol
  by_cases hid : id ∈ n.order
  · rw [if_pos (Std.ExtTreeMap.contains_iff_mem.mpr ((h.keys id).mp hid)), if_pos hid]
  · rw [if_neg (by simpa using fun hin => hid ((h.keys id).mpr hin)), if_neg hid]

theorem ensureReader_head (n : StreamNode) (id : String) : (n.ensureReader id).head = n.head := by
  unfold ensureReader
  split <;> rfl

theorem ensureReader_nextToken (n : StreamNode) (id : String) :
    (n.ensureReader id).nextToken = n.nextToken := by
  unfold ensureReader
  split <;> rfl

theorem desk_insertReader (n : StreamNode) (id : String) (reader : Reader) :
    (n.insertReader id reader).desk = n.desk.put id (reader.held.map HeldRead.kept) := by
  have hkept : (n.insertReader id reader).desk.kept =
      (n.desk.put id (reader.held.map HeldRead.kept)).kept := by
    ext a
    rw [Desk.put_kept]
    simp only [desk, heldOf_insertReader]
    split <;> rfl
  exact congrArg (fun kept => ({ n.desk with kept := kept } : Desk String Request)) hkept

theorem desk_ensureReader (h : n.Wf) (id : String) :
    (n.ensureReader id).desk = { n.desk with order := enrol n.order id } := by
  have hkept : (n.ensureReader id).desk.kept = n.desk.kept := by
    funext a
    by_cases heq : a = id
    · subst heq
      obtain ⟨reader, hentry, -, hheld⟩ := n.ensureReader_entry a
      calc (n.ensureReader a).desk.kept a
          = ((n.ensureReader a).readers[a]?.bind Reader.held).map HeldRead.kept := rfl
        _ = (n.heldOf a).map HeldRead.kept := by rw [hentry, Option.bind_some, hheld]
    · simp only [desk, heldOf, n.ensureReader_readers heq]
  calc (n.ensureReader id).desk
      = ⟨(n.ensureReader id).order, (n.ensureReader id).desk.kept,
          ((n.ensureReader id).nextToken - 1).toNat⟩ := rfl
    _ = { n.desk with order := enrol n.order id } := by
        rw [ensureReader_order h, hkept, ensureReader_nextToken]
        rfl

theorem desk_forget (n : StreamNode) (id : String) :
    ((n.removeFromMap id).forget id).desk =
      { n.desk.put id none with order := strike n.order id } := by
  have hkept : ((n.removeFromMap id).forget id).desk.kept = (n.desk.put id none).kept := by
    funext a
    rw [Desk.put_kept]
    show ((n.removeFromMap id).heldOf a).map HeldRead.kept = _
    rw [heldOf, readers_removeFromMap]
    split <;> rfl
  exact congrArg (fun kept => (⟨strike n.order id, kept, n.desk.timers⟩ : Desk String Request))
    hkept

/-- A node whose stream was put in order and has this entry now. -/
def seat (n : StreamNode) (id : String) (reader : Reader) : StreamNode :=
  (n.ensureReader id).insertReader id reader

theorem seat_readers (n : StreamNode) (id a : String) (reader : Reader) :
    (n.seat id reader).readers[a]? = if a = id then some reader else n.readers[a]? := by
  rw [seat, readers_insertReader]
  split
  · rfl
  · rename_i hne
    exact n.ensureReader_readers hne

theorem seat_desk (h : n.Wf) (id : String) (reader : Reader) :
    (n.seat id reader).desk =
      { n.desk.put id (reader.held.map HeldRead.kept) with order := enrol n.order id } := by
  rw [seat, desk_insertReader, desk_ensureReader h]
  rfl

inductive ReadDone (n : StreamNode) (id : String) (request : Request) :
    StreamNode × List StreamOutput → Prop
  | dropped (r : StreamReadResponse) (hanswer : n.answer id request = some r)
      (hstate : r.state = .dropped) (stop : List StreamOutput)
      (hstop : ∀ o ∈ stop, o = .producerStop .lastReaderGone) :
      ReadDone n id request
        (((n.ensureReader id).removeFromMap id).forget id,
          cancelTimer ((n.heldOf id).bind HeldRead.timerToken) ++ [.readResponse r] ++ stop)
  | answered (r : StreamReadResponse) (reader : Reader)
      (hanswer : n.resolve id (n.readerOf id) request = (reader, some r))
      (hstate : r.state ≠ .dropped) :
      ReadDone n id request
        (n.seat id reader,
          cancelTimer ((n.heldOf id).bind HeldRead.timerToken) ++ [.readResponse r])
  | timed (ms : Int) (hanswer : n.answer id request = none)
      (htimed : request.timeoutMs.filter (0 < ·) = some ms) :
      ReadDone n id request
        ({ n.seat id { n.readerOf id with held := some ⟨request, some n.nextToken⟩ }
            with nextToken := n.nextToken + 1 },
          cancelTimer ((n.heldOf id).bind HeldRead.timerToken) ++ [.setTimer n.nextToken ms])
  | untimed (hanswer : n.answer id request = none)
      (htimed : request.timeoutMs.filter (0 < ·) = none) :
      ReadDone n id request
        (n.seat id { n.readerOf id with held := some ⟨request, none⟩ },
          cancelTimer ((n.heldOf id).bind HeldRead.timerToken))

theorem resolve_none (n : StreamNode) (id : String) (reader : Reader) (request : Request) :
    (n.resolve id reader request).2 = none → (n.resolve id reader request).1 = reader := by
  unfold resolve
  split
  · exact fun _ => rfl
  · simp only
    split
    · exact fun h => absurd h (by simp)
    · split
      · split <;> exact fun _ => rfl
      · split
        · exact fun _ => rfl
        · split <;> exact fun _ => rfl

theorem stopIfLastReader_mem (n : StreamNode) :
    ∀ o ∈ n.stopIfLastReader, o = .producerStop .lastReaderGone := by
  unfold stopIfLastReader
  split <;> simp

theorem stop_other {stop : List StreamOutput}
    (hstop : ∀ o ∈ stop, o = .producerStop .lastReaderGone) :
    (stop.map reply).all Reply.isOther = true := by
  rw [List.all_map, List.all_eq_true]
  intro o ho
  rw [hstop o ho]
  rfl

theorem read_spec (n : StreamNode) (id : String) (request : Request) :
    ReadDone n id request (n.read id request) := by
  obtain ⟨reader, hentry, hreader, hheld⟩ := n.ensureReader_entry id
  have hresolve : ((n.ensureReader id).removeFromMap id).resolve = n.resolve :=
    n.ensureReader_resolve id
  have htoken : ((n.ensureReader id).removeFromMap id).nextToken = n.nextToken :=
    n.ensureReader_nextToken id
  have hnone := n.resolve_none id (n.readerOf id) request
  rw [read, hentry]
  simp only [hreader, hresolve, hheld, htoken, insert_remove]
  cases hresult : n.resolve id (n.readerOf id) request with
  | mk reader' answer' =>
      rw [hresult] at hnone
      cases answer' with
      | some r =>
          simp only
          split
          · rename_i hstate
            exact .dropped r (by rw [answer, hresult]) hstate _ (stopIfLastReader_mem _)
          · rename_i hstate
            exact .answered r reader' hresult hstate
      | none =>
          obtain rfl := hnone rfl
          have hanswer : n.answer id request = none := by rw [answer, hresult]
          cases htimed : request.timeoutMs.filter (0 < ·) with
          | some ms => exact .timed ms hanswer htimed
          | none => exact .untimed hanswer htimed

theorem forget_desk (h : n.Wf) (id : String) :
    (((n.ensureReader id).removeFromMap id).forget id).desk =
      { n.desk.put id none with order := strike n.order id } := by
  have hstrike : strike (n.ensureReader id).order id = strike n.order id := by
    rw [ensureReader_order h, strike_enrol_self]
  rw [desk_forget, desk_ensureReader h, hstrike]
  rfl

theorem Wf.nextToken_eq (h : n.Wf) : n.nextToken.toNat = n.desk.timers + 1 := by
  have hfirst := h.first
  simp only [desk]
  omega

theorem map_cancel (n : StreamNode) (id : String) :
    (cancelTimer ((n.heldOf id).bind HeldRead.timerToken) : List StreamOutput).map reply =
      Desk.giveBack (n.desk.kept id) :=
  map_cancelTimer StreamReadResponse.streamId (n.heldOf id)

theorem read_moves (h : n.Wf) (id : String) (request : Request) :
    (n.read id request).1.desk = (n.desk.read n.policy id request).1 ∧
      ∃ tail, Desk.Trails n.policy (.read id request) tail ∧
        (n.read id request).2.map reply = (n.desk.read n.policy id request).2 ++ tail := by
  have hspec := n.read_spec id request
  have hback := n.map_cancel id
  generalize n.read id request = result at hspec ⊢
  cases hspec with
  | dropped r hanswer hstate stop hstop =>
      have hname := n.answer_name id request r hanswer
      rw [Desk.read_of_parting hanswer (show parting r = true by simp [parting, hstate]),
        forget_desk h]
      refine ⟨rfl, stop.map reply, ⟨?_, ?_⟩, ?_⟩
      · exact stop_other hstop
      · intro hnone
        exact absurd (hanswer.symm.trans hnone) (by simp)
      · rw [List.map_append, List.map_append, hback, List.map_singleton, reply, Output.reply, hname]
  | answered r reader hanswer hstate =>
      have hsome : n.answer id request = some r := by rw [answer, hanswer]
      have hname := n.answer_name id request r hsome
      have hheld : reader.held = none := by
        have hkeeps := n.resolve_held id (n.readerOf id) request
        rw [hanswer] at hkeeps
        rw [hkeeps, n.readerOf_held id]
      rw [Desk.read_of_answer hsome (show parting r = false by simp [parting, hstate]),
        seat_desk h, hheld]
      refine ⟨rfl, [], ⟨rfl, fun _ => rfl⟩, ?_⟩
      rw [List.map_append, hback, List.map_singleton, reply, Output.reply, hname, List.append_nil]
  | timed ms hanswer htimed =>
      have htimed' : n.policy.timed request = true := by
        simp only [policy, htimed, Option.isSome_some]
      rw [Desk.read_of_timed hanswer htimed']
      refine ⟨?_, [], ⟨rfl, fun _ => rfl⟩, ?_⟩
      · have hdesk := seat_desk h id { n.readerOf id with held := some ⟨request, some n.nextToken⟩ }
        have hnext : (n.nextToken + 1 - 1).toNat = n.desk.timers + 1 := by
          rw [← h.nextToken_eq]
          congr 1
          omega
        rw [Option.map_some, HeldRead.kept, Option.map_some, h.nextToken_eq] at hdesk
        exact congrArg₂ (fun (d : Desk String Request) t => { d with timers := t }) hdesk hnext
      · rw [List.map_append, hback, List.map_singleton, reply, Output.reply, h.nextToken_eq,
          List.append_nil]
  | untimed hanswer htimed =>
      have htimed' : n.policy.timed request = false := by
        simp only [policy, htimed, Option.isSome_none]
      rw [Desk.read_of_untimed hanswer htimed', seat_desk h]
      exact ⟨rfl, [], ⟨rfl, fun _ => rfl⟩, by rw [hback, List.append_nil]⟩

theorem read_frame (n : StreamNode) (id : String) (request : Request) :
    (n.read id request).1.resolve = n.resolve ∧ (n.read id request).1.head = n.head ∧
      ∀ a, a ≠ id → (n.read id request).1.readers[a]? = n.readers[a]? := by
  have hspec := n.read_spec id request
  have hensured := n.ensureReader_resolve id
  have hhead := n.ensureReader_head id
  generalize n.read id request = result at hspec ⊢
  cases hspec with
  | dropped r hanswer hstate stop hstop =>
      refine ⟨hensured, hhead, fun a hne => ?_⟩
      show ((n.ensureReader id).removeFromMap id).readers[a]? = _
      rw [readers_removeFromMap, if_neg hne, n.ensureReader_readers hne]
  | answered r reader hanswer hstate =>
      exact ⟨hensured, hhead, fun a hne => by rw [seat_readers, if_neg hne]⟩
  | timed ms hanswer htimed =>
      refine ⟨hensured, hhead, fun a hne => ?_⟩
      show (n.seat id _).readers[a]? = _
      rw [seat_readers, if_neg hne]
  | untimed hanswer htimed =>
      exact ⟨hensured, hhead, fun a hne => by rw [seat_readers, if_neg hne]⟩

theorem read_readerOf (n : StreamNode) {id : String} {request : Request}
    (hnone : n.answer id request = none) :
    (n.read id request).1.readerOf id = n.readerOf id := by
  have hspec := n.read_spec id request
  have hheld := n.readerOf_held id
  have hseat : ∀ held, (n.seat id { n.readerOf id with held := held }).readerOf id =
      n.readerOf id := by
    intro held
    rw [readerOf_of_entry (by rw [seat_readers, if_pos rfl]), ← hheld]
  generalize n.read id request = result at hspec ⊢
  cases hspec with
  | dropped r hanswer hstate stop hstop => exact absurd (hanswer.symm.trans hnone) (by simp)
  | answered r reader hanswer hstate =>
      rw [answer, hanswer] at hnone
      simp at hnone
  | timed ms hanswer htimed => exact hseat _
  | untimed hanswer htimed => exact hseat _

theorem read_turn (h : n.Wf) (id : String) (request : Request) :
    Desk.Turn n.policy n.policy (n.read id request).1.policy n.desk (.read id request)
      ((n.read id request).2.map reply) (n.read id request).1.desk := by
  obtain ⟨hmoves, hreplied⟩ := n.read_moves h id request
  obtain ⟨hresolve, hhead, hothers⟩ := n.read_frame id request
  refine ⟨hmoves, hreplied, fun _ _ _ _ hnone => hnone, fun a k hk hnone => ?_,
    fun a k _ => n.probe_isSome a k.request⟩
  by_cases heq : a = id
  · subst heq
    cases hanswer : n.answer a request with
    | some r =>
        -- whoever is answered has no read left
        have hgone : (n.desk.read n.policy a request).1.kept a = none := by
          cases hparting : parting r with
          | true => rw [Desk.read_of_parting (P := n.policy) hanswer hparting]; simp
          | false => rw [Desk.read_of_answer (P := n.policy) hanswer hparting]; simp
        rw [hmoves, hgone] at hk
        simp at hk
    | none =>
        have hsame := answer_congr hresolve (n.read_readerOf hanswer)
        exact (congrFun hsame k.request).trans hnone
  · exact (congrFun (answer_congr hresolve (readerOf_congr hhead (hothers a heq)))
      k.request).trans hnone

/-! ## Ends -/

inductive Ended (n : StreamNode) (id : String) : StreamNode × List StreamOutput → Prop
  | absent (hentry : n.readers[id]? = none) : Ended n id (n, [])
  | gone (stop : List StreamOutput) (hstop : ∀ o ∈ stop, o = .producerStop .lastReaderGone) :
      Ended n id ((n.removeFromMap id).forget id,
        cancelTimer ((n.heldOf id).bind HeldRead.timerToken) ++ stop)

theorem endStream_spec (n : StreamNode) (id : String) : Ended n id (n.endStream id) := by
  unfold endStream
  cases hentry : n.readers[id]? with
  | none => exact .absent hentry
  | some reader =>
      have hin : n.readers.contains id = true := by
        rw [Std.ExtTreeMap.contains_iff_mem, mem_readers_iff]
        exact ⟨reader, hentry⟩
      have hheld : n.heldOf id = reader.held := by rw [heldOf, hentry, Option.bind_some]
      simp only [removeReader, hin, if_true, ← hheld]
      exact .gone _ (stopIfLastReader_mem _)

theorem endStream_moves (h : n.Wf) (id : String) :
    (n.endStream id).1.desk = (n.desk.leave (α := StreamReadResponse) id).1 ∧
      ∃ tail : List (Reply String StreamReadResponse), tail.all Reply.isOther = true ∧
        (n.endStream id).2.map reply = (n.desk.leave id).2 ++ tail := by
  have hspec := n.endStream_spec id
  generalize n.endStream id = result at hspec ⊢
  cases hspec with
  | absent hentry =>
      have hnone : n.desk.kept id = none := by simp [desk, heldOf, hentry]
      have hout : id ∉ n.order := by
        rw [h.keys, Std.ExtTreeMap.mem_iff_isSome_getElem?, hentry]
        simp
      rw [Desk.leave, Desk.put_self hnone, hnone]
      refine ⟨?_, [], rfl, rfl⟩
      show n.desk = { n.desk with order := strike n.order id }
      rw [strike_of_not_mem hout]
      rfl
  | gone stop hstop =>
      rw [Desk.leave, desk_forget]
      refine ⟨rfl, stop.map reply, stop_other hstop, ?_⟩
      rw [List.map_append, n.map_cancel id]

theorem endStream_frame (n : StreamNode) (id : String) :
    (n.endStream id).1.resolve = n.resolve ∧ (n.endStream id).1.head = n.head ∧
      (∀ a, a ≠ id → (n.endStream id).1.readers[a]? = n.readers[a]?) ∧
      (n.endStream id).1.readers[id]? = none := by
  have hspec := n.endStream_spec id
  generalize n.endStream id = result at hspec ⊢
  cases hspec with
  | absent hentry => exact ⟨rfl, rfl, fun _ _ => rfl, hentry⟩
  | gone stop hstop =>
      have hreaders : ∀ a, ((n.removeFromMap id).forget id).readers[a]? =
          if a = id then none else n.readers[a]? := fun a => readers_removeFromMap id a
      refine ⟨rfl, rfl, fun a hne => ?_, ?_⟩
      · rw [hreaders, if_neg hne]
      · rw [hreaders, if_pos rfl]

theorem endStream_turn (h : n.Wf) (id : String) :
    Desk.Turn n.policy n.policy (n.endStream id).1.policy n.desk (.leave id)
      ((n.endStream id).2.map reply) (n.endStream id).1.desk := by
  obtain ⟨hmoves, hreplied⟩ := n.endStream_moves h id
  obtain ⟨hresolve, hhead, hothers, hgone⟩ := n.endStream_frame id
  refine ⟨hmoves, hreplied, fun _ _ _ _ hnone => hnone, fun a k hk hnone => ?_,
    fun a k _ => n.probe_isSome a k.request⟩
  by_cases heq : a = id
  · simp [desk, heldOf, heq, hgone] at hk
  · exact (congrFun (answer_congr hresolve (readerOf_congr hhead (hothers a heq)))
      k.request).trans hnone

/-! ## Timers -/

inductive Expired (n : StreamNode) (token : Int) : StreamNode × List StreamOutput → Prop
  | unknown (hnone : ∀ id held, n.heldOf id = some held → held.timerToken ≠ some token) :
      Expired n token (n, [])
  | probed (id : String) (held : HeldRead Request) (hheld : n.heldOf id = some held)
      (htoken : held.timerToken = some token) (reader : Reader) (answer : StreamReadResponse)
      (hprobe : n.resolve id (n.readerOf id) { held.request with timeoutMs := some 0 } =
        (reader, some answer)) (hreader : reader.held = none) :
      Expired n token (n.insertReader id reader, [.readResponse answer])

theorem heldOf_of_findTimer {token : Int} {id : String} {held : HeldRead Request}
    (hfound : n.findTimer token = some (id, held)) :
    n.heldOf id = some held ∧ held.timerToken = some token := by
  obtain ⟨a, -, hsome⟩ := List.exists_of_findSome?_eq_some hfound
  simp only [Option.map_eq_some_iff, Option.filter_eq_some_iff, decide_eq_true_eq,
    Prod.mk.injEq] at hsome
  obtain ⟨read, ⟨hread, htoken⟩, rfl, rfl⟩ := hsome
  exact ⟨hread, htoken⟩

theorem Wf.listed (h : n.Wf) {id : String} {held : HeldRead Request}
    (hheld : n.heldOf id = some held) : id ∈ n.order := by
  rw [heldOf, Option.bind_eq_some_iff] at hheld
  obtain ⟨reader, hreader, -⟩ := hheld
  rw [h.keys, mem_readers_iff]
  exact ⟨reader, hreader⟩

theorem Wf.not_heldOf_of_findTimer (h : n.Wf) {token : Int} (hfound : n.findTimer token = none)
    (id : String) (held : HeldRead Request) (hheld : n.heldOf id = some held) :
    held.timerToken ≠ some token := by
  intro htoken
  have hnone := List.findSome?_eq_none_iff.mp hfound id (h.listed hheld)
  change ((n.heldOf id).filter _).map _ = none at hnone
  rw [hheld] at hnone
  simp [Option.filter, htoken] at hnone

theorem timerExpired_spec (h : n.Wf) (token : Int) : Expired n token (n.timerExpired token) := by
  unfold timerExpired
  cases hfound : n.findTimer token with
  | none => exact .unknown (h.not_heldOf_of_findTimer hfound)
  | some found =>
      obtain ⟨id, held⟩ := found
      obtain ⟨hheld, htoken⟩ := heldOf_of_findTimer hfound
      obtain ⟨reader, hreader, -⟩ := Option.bind_eq_some_iff.mp hheld
      have hremoved : (n.removeFromMap id).resolve = n.resolve := rfl
      have hprobe := n.probe_isSome id held.request
      simp only [hreader, hremoved, insert_remove, ← readerOf_of_entry hreader]
      rw [probe, answer] at hprobe
      cases hresult : n.resolve id (n.readerOf id) { held.request with timeoutMs := some 0 } with
      | mk reader' answer' =>
          obtain ⟨r, rfl⟩ := Option.isSome_iff_exists.mp (hresult ▸ hprobe)
          have hkeeps := n.resolve_held id (n.readerOf id)
            { held.request with timeoutMs := some 0 }
          rw [hresult, n.readerOf_held id] at hkeeps
          exact .probed id held hheld htoken reader' r hresult hkeeps

theorem Wf.token_eq (h : n.Wf) {id : String} {held : HeldRead Request} {token : Int}
    (hheld : n.heldOf id = some held) :
    held.kept.timer = some token.toNat ↔ held.timerToken = some token :=
  HeldRead.kept_timer_eq (h.tokens id held · hheld)

theorem timerExpired_moves (h : n.Wf) (hsound : n.desk.Sound) (token : Int) :
    (n.timerExpired token).1.desk = (n.desk.expire n.policy token.toNat).1 ∧
      (n.timerExpired token).2.map reply = (n.desk.expire n.policy token.toNat).2 := by
  have hspec := timerExpired_spec h token
  generalize n.timerExpired token = result at hspec ⊢
  cases hspec with
  | unknown hnone =>
      have hout : ∀ id k, n.desk.kept id = some k → k.timer ≠ some token.toNat := by
        intro id k hk
        simp only [desk, Option.map_eq_some_iff] at hk
        obtain ⟨held, hheld, rfl⟩ := hk
        rw [ne_eq, h.token_eq hheld]
        exact hnone id held hheld
      rw [Desk.expire_of_not_kept _ hout]
      exact ⟨rfl, rfl⟩
  | probed id held hheld htoken reader answer hprobe hreader =>
      have hkept : n.desk.kept id = some held.kept := by simp [desk, hheld]
      have hlate : n.policy.late id held.kept.request = some answer := by
        calc n.policy.late id held.kept.request
            = (n.resolve id (n.readerOf id) { held.request with timeoutMs := some 0 }).2 := rfl
          _ = some answer := by rw [hprobe]
      have hname := n.answer_name id { held.request with timeoutMs := some 0 } answer hlate
      rw [Desk.expire_of_kept hsound _ hkept ((h.token_eq hheld).mpr htoken), hlate,
        desk_insertReader, hreader]
      refine ⟨rfl, ?_⟩
      rw [List.map_singleton, reply, Output.reply, hname]
      rfl

theorem timerExpired_turn (h : n.Wf) (hsound : n.desk.Sound) (token : Int) :
    Desk.Turn n.policy n.policy (n.timerExpired token).1.policy n.desk (.expire token.toNat)
      ((n.timerExpired token).2.map reply) (n.timerExpired token).1.desk := by
  obtain ⟨hmoves, hreplied⟩ := n.timerExpired_moves h hsound token
  refine ⟨hmoves, ⟨[], rfl, by rw [List.append_nil]; exact hreplied⟩,
    fun _ _ _ _ hnone => hnone, fun a k hk hnone => ?_, fun a k _ => n.probe_isSome a k.request⟩
  have hspec := timerExpired_spec h token
  generalize n.timerExpired token = result at hspec hk ⊢
  cases hspec with
  | unknown _ => exact hnone
  | probed id held hheld htoken reader answer hprobe hreader =>
      by_cases heq : a = id
      · simp [desk, heldOf_insertReader, heq, hreader] at hk
      · have hentry : (n.insertReader id reader).readers[a]? = n.readers[a]? := by
          rw [readers_insertReader, if_neg heq]
        have hreaderOf : (n.insertReader id reader).readerOf a = n.readerOf a :=
          readerOf_congr (n := n.insertReader id reader) (m := n) rfl hentry
        have hsame : (n.insertReader id reader).answer a = n.answer a :=
          answer_congr (n := n.insertReader id reader) (m := n) rfl hreaderOf
        exact (congrFun hsame k.request).trans hnone

end StreamNode

end TautShape.Stream
