import TautShape.Stream.History
/-!
# The places of the readers

What an input tells a reader, and how it moves the reader's place in the log.  A reader is
dropped exactly when its place lies before the ring.
-/

namespace TautShape.Stream

open TautShape.Lib TautShape.Held
open TautShape.Log (Bytes StopWhen)

/-! ## What one stream receives -/

def received (id : String) (out : List StreamOutput) : List StreamReadResponse :=
  out.filterMap fun
    | .readResponse r => if r.streamId = id then some r else none
    | _ => none

theorem received_append (id : String) (front back : List StreamOutput) :
    received id (front ++ back) = received id front ++ received id back := List.filterMap_append

theorem received_cancel (id : String) (token : Option Int) :
    received id (cancelTimer token) = [] := by
  cases token <;> rfl

theorem received_stop (id : String) {stop : List StreamOutput}
    (hstop : ∀ o ∈ stop, o = .producerStop .lastReaderGone) : received id stop = [] := by
  rw [received, List.filterMap_eq_nil_iff]
  intro o ho
  rw [hstop o ho]

theorem received_response (id : String) (r : StreamReadResponse) :
    received id [.readResponse r] = if r.streamId = id then [r] else [] := by
  by_cases heq : r.streamId = id <;> simp [received, heq]

theorem received_eq_told (id : String) (out : List StreamOutput) :
    received id out = Desk.told id (out.map reply) := by
  induction out with
  | nil => rfl
  | cons o rest ih =>
      have hone : received id [o] = Desk.told id [reply o] := by
        cases o with
        | readResponse r =>
            rw [received_response]
            exact (Desk.told_answer id r.streamId r).symm
        | _ => rfl
      calc received id (o :: rest)
          = received id [o] ++ received id rest := received_append id [o] rest
        _ = Desk.told id [reply o] ++ Desk.told id (rest.map reply) := by rw [hone, ih]
        _ = Desk.told id ((o :: rest).map reply) := (Desk.told_append ..).symm

/-! ## A reader's place in the log -/

def joined {α : Type} (id : String) (fresh : α) (now : Option α) : StreamInput → Option α
  | .read streamId _ => if streamId = id then some (now.getD fresh) else now
  | .endStream streamId => if streamId = id then none else now
  | _ => now

/-- What an input does to the place of one reader, and what the reader is told. -/
inductive Moved (log : List (Int × Bytes)) :
    Option Int → List StreamReadResponse → Option Int → Prop
  | silent (place : Option Int) : Moved log place [] place
  | dropped (place : Option Int) (r : StreamReadResponse) (hstate : r.state = .dropped) :
      Moved log place [r] none
  | told (place place' : Int) (r : StreamReadResponse) (hstate : r.state ≠ .dropped)
      (hpos : 0 ≤ place) (hle : place ≤ place') (hend : place' ≤ log.length)
      (hrecords : r.records = (window log place.toNat place'.toNat).map record) :
      Moved log (some place) [r] (some place')

namespace StreamNode

variable {n m : StreamNode} {log : List (Int × Bytes)}

def place (n : StreamNode) (id : String) : Option Int := n.readers[id]?.map Reader.cursor

/-- A reader that is answered moves over the records it gets. -/
theorem moved_of_resolve (hring : Ring log n) (id : String) (reader reader' : Reader)
    (hpos : 0 ≤ reader.cursor) (hle : reader.cursor ≤ n.head) (request : Request)
    (r : StreamReadResponse) (hresult : n.resolve id reader request = (reader', some r))
    (hstate : r.state ≠ .dropped) : Moved log (some reader.cursor) [r] (some reader'.cursor) := by
  have hspec := hring.resolve_spec id reader hpos hle request
  have hhead := hring.head
  rw [hresult] at hspec
  cases hspec with
  | dropped hfar => exact absurd rfl hstate
  | data last hnear hlt hend =>
      refine .told _ _ _ hstate hpos (le_of_lt hlt) (by simp only; omega) ?_
      rw [Int.toNat_natCast]
      rfl
  | idle state error hcursor hdata hdropped =>
      refine .told _ _ _ hstate hpos le_rfl (by omega) ?_
      rw [window_self]
      rfl

theorem received_sweep (h : Sweeping m m) (hsound : m.desk.Sound) (id : String)
    (tail : List StreamOutput) (htail : (tail.map reply).all Reply.isOther = true) :
    received id (m.answerAllHeld.2 ++ tail) =
      ((m.heldOf id).bind fun held => m.answer id held.request).toList := by
  obtain ⟨tail', htail', hreplied⟩ := (sweep_turn h (n := m) rfl hsound tail htail).replied
  have hother : tail'.all Reply.isOther = true := htail'
  rw [received_eq_told, hreplied, Desk.told_append, Desk.told_other id hother, List.append_nil,
    Desk.serve, Desk.told_wake hsound]
  simp only [desk, Option.bind_map]
  rfl

theorem moved_of_sweep (h : Sweeping m m) (hsound : m.desk.Sound) (hring : Ring log m)
    (id : String) (tail : List StreamOutput) (htail : (tail.map reply).all Reply.isOther = true) :
    Moved log (m.place id) (received id (m.answerAllHeld.2 ++ tail))
      (m.answerAllHeld.1.place id) := by
  rw [received_sweep h hsound id tail htail]
  unfold place heldOf
  rw [answerAllHeld_readers h hsound]
  cases hentry : m.readers[id]? with
  | none => exact .silent none
  | some reader =>
      cases hheld : reader.held with
      | none =>
          simp only [released, hheld, Option.bind_some, Option.bind_none, Option.toList_none]
          exact .silent (some reader.cursor)
      | some held =>
          have hplaced := h.wf.placed id reader hentry
          have hnear := m.resolve_near id { reader with held := none }
            (h.near id reader hentry (by rw [hheld]; rfl)) held.request
          have hmoved := fun reader' => moved_of_resolve hring id { reader with held := none }
            reader' hplaced.1 hplaced.2 held.request
          simp only [released, hheld, Option.bind_some, answer, readerOf_of_entry hentry]
          generalize m.resolve id { reader with held := none } held.request = result
            at hnear hmoved ⊢
          obtain ⟨reader', answer⟩ := result
          rcases hnear with ⟨hnone, -⟩ | ⟨r, hsome, hstate, -⟩
          · obtain rfl : answer = none := hnone
            exact .silent (some reader.cursor)
          · obtain rfl : answer = some r := hsome
            exact hmoved reader' r rfl hstate

theorem readerOf_place (n : StreamNode) (id : String) :
    (n.readerOf id).cursor = (n.place id).getD n.head := by
  unfold readerOf place
  cases n.readers[id]? <;> rfl

theorem moved_of_read (h : n.Wf) (hring : Ring log n) (streamId id : String) (request : Request) :
    Moved log (joined id n.head (n.place id) (.read streamId request))
      (received id (n.read streamId request).2) ((n.read streamId request).1.place id) := by
  have hspec := n.read_spec streamId request
  have hothers := (n.read_frame streamId request).2.2
  have hname := n.answer_name streamId request
  have hplaced := h.readerOf_placed streamId
  by_cases heq : streamId = id
  · subst heq
    simp only [joined, if_true, ← readerOf_place]
    have hseat : ∀ reader, (n.seat streamId reader).place streamId = some reader.cursor := by
      intro reader
      rw [place, seat_readers, if_pos rfl, Option.map_some]
    generalize n.read streamId request = result at hspec ⊢
    cases hspec with
    | dropped r hanswer hstate stop hstop =>
        have hgone : (((n.ensureReader streamId).removeFromMap streamId).forget streamId).place
            streamId = none := by
          show ((n.ensureReader streamId).removeFromMap streamId).readers[streamId]?.map _ = none
          rw [readers_removeFromMap, if_pos rfl, Option.map_none]
        rw [received_append, received_append, received_cancel, received_stop streamId hstop,
          received_response, if_pos (hname r hanswer), hgone]
        exact .dropped _ r hstate
    | answered r reader hanswer hstate =>
        have hsome : n.answer streamId request = some r := by rw [answer, hanswer]
        rw [received_append, received_cancel, received_response, if_pos (hname r hsome), hseat]
        exact moved_of_resolve hring streamId _ _ hplaced.1 hplaced.2 request r hanswer hstate
    | timed ms hanswer htimed =>
        rw [received_append, received_cancel]
        exact (hseat _).symm ▸ .silent _
    | untimed hanswer htimed =>
        rw [received_cancel, hseat]
        exact .silent _
  · have hsilent : received id (n.read streamId request).2 = [] := by
      rw [received, List.filterMap_eq_nil_iff]
      intro o ho
      cases o with
      | readResponse r =>
          have hne : r.streamId ≠ id := by
            rw [hname r (n.answer_of_response ho)]
            exact heq
          exact if_neg hne
      | _ => rfl
    have hplace : (n.read streamId request).1.place id = n.place id := by
      rw [place, hothers id (Ne.symm heq), place]
    rw [hsilent, hplace, joined, if_neg heq]
    exact .silent _

theorem moved_of_end (log : List (Int × Bytes)) (n : StreamNode) (streamId id : String) :
    Moved log (joined id n.head (n.place id) (.endStream streamId))
      (received id (n.endStream streamId).2) ((n.endStream streamId).1.place id) := by
  have hspec := n.endStream_spec streamId
  obtain ⟨-, -, hothers, hgone⟩ := n.endStream_frame streamId
  have hsilent : received id (n.endStream streamId).2 = [] := by
    generalize n.endStream streamId = result at hspec ⊢
    cases hspec with
    | absent hentry => rfl
    | gone stop hstop => rw [received_append, received_cancel, received_stop id hstop]; rfl
  have hplace : (n.endStream streamId).1.place id =
      joined id n.head (n.place id) (.endStream streamId) := by
    rw [joined, place]
    split
    · rename_i heq
      rw [← heq, hgone, Option.map_none]
    · rename_i hne
      rw [hothers id (Ne.symm hne), place]
  rw [hsilent, hplace]
  exact .silent _

theorem moved_of_timer (h : n.Wf) (hsettled : n.desk.Settled n.policy) (hring : Ring log n)
    (token : Int) (id : String) :
    Moved log (n.place id) (received id (n.timerExpired token).2)
      ((n.timerExpired token).1.place id) := by
  have hspec := timerExpired_spec h token
  generalize n.timerExpired token = result at hspec ⊢
  cases hspec with
  | unknown hnone => exact .silent _
  | probed streamId held hheld htoken reader r hprobe hreader =>
      have hanswer : n.answer streamId { held.request with timeoutMs := some 0 } = some r := by
        rw [answer, hprobe]
      have hname := n.answer_name streamId _ r hanswer
      have hstate := not_dropped_at_head h (h.held_cursor hsettled hheld) hanswer
      rw [received_response, hname, place, place, readers_insertReader]
      by_cases heq : streamId = id
      · subst heq
        obtain ⟨old, hentry, -⟩ := Option.bind_eq_some_iff.mp hheld
        have hplaced := h.readerOf_placed streamId
        have hmoved := moved_of_resolve hring streamId _ _ hplaced.1 hplaced.2 _ r hprobe hstate
        rw [readerOf_of_entry hentry] at hmoved
        rw [if_pos rfl, if_pos rfl, hentry]
        exact hmoved
      · rw [if_neg heq, if_neg (Ne.symm heq)]
        exact .silent _

/-- An input leaves a reader where it is, drops it, or moves it over what it is told. -/
theorem handle_moved (h : n.Wf) (hsound : n.desk.Sound) (hsettled : n.desk.Settled n.policy)
    (hring : Ring log n) (input : StreamInput) (id : String) :
    Moved (log ++ n.adds input) (joined id n.head (n.place id) input)
      (received id (n.handle input).2) ((n.handle input).1.place id) := by
  have hspec := n.handle_spec input
  generalize n.handle input = result at hspec ⊢
  cases hspec with
  | refused payload hterminal => exact .silent _
  | push payload hopen =>
      have hpushed : Ring (log ++ [(n.head + 1, payload)]) (n.pushed payload) :=
        hring.push payload rfl rfl rfl
      have hmoved := moved_of_sweep (sweeping_pushed h hsettled payload) hsound hpushed id [] rfl
      rw [List.append_nil] at hmoved
      rw [n.adds_push payload hopen]
      exact hmoved
  | again hinput hterminal => rcases hinput with rfl | ⟨error, rfl⟩ <;> exact .silent _
  | «seal» hopen =>
      have hmoved := moved_of_sweep (sweeping_stopped h hsettled true n.isClosed n.closeError)
        hsound (hring.congr rfl rfl rfl) id [] rfl
      rw [List.append_nil] at hmoved
      rw [n.adds_of_none rfl, List.append_nil]
      exact hmoved
  | close error stop hopen =>
      rw [n.adds_of_none rfl, List.append_nil]
      exact moved_of_sweep (sweeping_stopped h hsettled n.isSealed true error) hsound
        (hring.congr rfl rfl rfl) id [.producerStop stop] rfl
  | read streamId request =>
      rw [n.adds_of_none rfl, List.append_nil]
      exact moved_of_read h hring streamId id request
  | endStream streamId => exact moved_of_end _ n streamId id
  | timerExpired token =>
      rw [n.adds_of_none rfl, List.append_nil]
      exact moved_of_timer h hsettled hring token id

/-! ## Dropped reads -/

theorem answer_far (hring : Ring log n) {id : String} {reader : Reader}
    (hentry : n.readers[id]? = some reader)
    (hfar : (n.capacityRecords : Int) < n.head - reader.cursor) (request : Request) :
    n.answer id request = some (response id [] n.head .dropped (some ⟨.slowConsumer, none⟩)) := by
  have hfloor := hring.floor_eq
  have hhead := hring.head
  rw [answer, resolve, readerOf_of_entry hentry, if_pos]
  simp only
  omega

theorem response_of_answer {id : String} {request : Request} {r : StreamReadResponse}
    (hanswer : n.answer id request = some r) :
    .readResponse r ∈ (n.handle (.read id request)).2 := by
  have hspec := n.read_spec id request
  show .readResponse r ∈ (n.read id request).2
  generalize n.read id request = result at hspec ⊢
  cases hspec with
  | dropped r' hsome hstate stop hstop =>
      obtain rfl := Option.some.inj (hanswer.symm.trans hsome)
      simp
  | answered r' reader hsome hstate =>
      have hsame : n.answer id request = some r' := by rw [answer, hsome]
      obtain rfl := Option.some.inj (hanswer.symm.trans hsame)
      simp
  | timed ms hnone htimed => exact absurd (hanswer.symm.trans hnone) (by simp)
  | untimed hnone htimed => exact absurd (hanswer.symm.trans hnone) (by simp)

theorem dropped_iff (h : n.Wf) (hsound : n.desk.Sound) (hsettled : n.desk.Settled n.policy)
    (hring : Ring log n) (input : StreamInput) (r : StreamReadResponse)
    (hr : .readResponse r ∈ (n.handle input).2) :
    r.state = .dropped ↔ ∃ reader, n.readers[r.streamId]? = some reader ∧
      (n.capacityRecords : Int) < (n.handle input).1.head - reader.cursor := by
  have hhead := hring.head
  have hcapacity := n.capacity_pos
  have hafter := (handle_stored h hsettled hring input).ring.head
  rw [List.length_append] at hafter
  constructor
  · intro hdropped
    obtain ⟨-, request, rfl⟩ := dropped_of_read h hsound hsettled input r hr hdropped
    rw [n.adds_of_none rfl] at hafter
    have hanswer := n.answer_of_response hr
    have hplaced := h.readerOf_placed r.streamId
    have hspec := hring.resolve_spec r.streamId _ hplaced.1 hplaced.2 request
    have hfar : (n.capacityRecords : Int) < n.head - (n.readerOf r.streamId).cursor := by
      rw [answer] at hanswer
      generalize n.resolve r.streamId (n.readerOf r.streamId) request = result at hspec hanswer
      cases hspec with
      | dropped hfar => exact hfar
      | data last hnear hlt hle =>
          exact absurd (Option.some.inj hanswer ▸ hdropped) (by simp [response])
      | idle state error hcursor hdata hstate =>
          exact absurd (Option.some.inj hanswer ▸ hdropped) (by simpa [response] using hstate)
      | waits hcursor hopen htimeout => simp at hanswer
    cases hentry : n.readers[r.streamId]? with
    | none =>
        have hnew : (n.readerOf r.streamId).cursor = n.head := by rw [readerOf, hentry]
        omega
    | some reader =>
        rw [readerOf_of_entry hentry] at hfar
        refine ⟨reader, rfl, ?_⟩
        simp only [List.length_nil] at hafter hfar
        omega
  · intro hfar
    obtain ⟨reader, hentry, hlag⟩ := hfar
    rcases response_source h hsound hsettled input r hr with
      ⟨request, rfl, hanswer⟩ | ⟨⟨held, hheld⟩, -⟩
    · rw [n.adds_of_none rfl, List.length_nil] at hafter
      rw [answer_far hring hentry (by omega) request] at hanswer
      rw [← Option.some.inj hanswer]
      rfl
    · -- who was held stood at the head, which moves by one record at most
      have hcursor := h.held_cursor hsettled hheld
      rw [readerOf_of_entry hentry] at hcursor
      have hone : (n.adds input).length ≤ 1 := by
        unfold adds
        split
        · exact Nat.zero_le 1
        · cases input.payload? <;> simp
      simp only at hcursor
      omega

theorem gone_of_dropped (h : n.Wf) (hsound : n.desk.Sound) (hsettled : n.desk.Settled n.policy)
    (hring : Ring log n) (input : StreamInput) (r : StreamReadResponse)
    (hr : .readResponse r ∈ (n.handle input).2) (hdropped : r.state = .dropped) :
    r.streamId ∉ (n.handle input).1.order ∧ r.streamId ∉ (n.handle input).1.readers := by
  have hmoved := handle_moved h hsound hsettled hring input r.streamId
  have hreceived : r ∈ received r.streamId (n.handle input).2 :=
    List.mem_filterMap.mpr ⟨_, hr, if_pos rfl⟩
  have hplace : (n.handle input).1.place r.streamId = none := by
    generalize received r.streamId (n.handle input).2 = told at hmoved hreceived
    generalize (n.handle input).1.place r.streamId = place at hmoved ⊢
    generalize joined r.streamId n.head (n.place r.streamId) input = start at hmoved
    cases hmoved with
    | silent => simp at hreceived
    | dropped _ r' hstate => rfl
    | told _ _ r' hstate =>
        rw [List.mem_singleton] at hreceived
        exact absurd (hreceived ▸ hdropped) hstate
  have hout : r.streamId ∉ (n.handle input).1.readers := by
    rw [place, Option.map_eq_none_iff] at hplace
    rw [Std.ExtTreeMap.mem_iff_isSome_getElem?, hplace]
    simp
  have hkeys := (handle_wf h hsettled input).keys r.streamId
  exact ⟨fun hin => hout (hkeys.mp hin), hout⟩

end StreamNode

end TautShape.Stream
