import TautShape.Stream.Turns
/-!
# The held reads of the stream engine

`handle_spec` says once what an input can do.  A reader that waits has been told
everything, so a push finds it one record behind: it is answered that record, and never
dropped.
-/

namespace TautShape.Stream

open TautShape.Lib TautShape.Held
open TautShape.Log (Bytes StopWhen)

namespace StreamNode

variable {n m : StreamNode}

/-! ## One input -/

def pushed (n : StreamNode) (payload : Bytes) : StreamNode :=
  { n with
    head := n.head + 1
    payloads := if (n.payloads.insert (n.head + 1) payload).size > n.capacityRecords then
        (n.payloads.insert (n.head + 1) payload).erase (n.head + 1 - n.capacityRecords)
      else n.payloads.insert (n.head + 1) payload }

inductive Handled (n : StreamNode) : StreamInput → StreamNode × List StreamOutput → Prop
  | refused (payload : Bytes) (hterminal : (n.isSealed || n.isClosed) = true) :
      Handled n (.push payload) (n, [.diagnostic ⟨.warn, .pushAfterTerminal⟩])
  | push (payload : Bytes) (hopen : n.isSealed = false ∧ n.isClosed = false) :
      Handled n (.push payload) (n.pushed payload).answerAllHeld
  /-- A second seal or close. -/
  | again {input : StreamInput} (hinput : input = .seal ∨ ∃ error, input = .close error)
      (hterminal : (n.isSealed || n.isClosed) = true) : Handled n input (n, [])
  | «seal» (hopen : n.isSealed = false ∧ n.isClosed = false) :
      Handled n .seal { n with isSealed := true : StreamNode }.answerAllHeld
  | close (error : Option StreamError) (stop : StopReason) (hopen : n.isClosed = false) :
      Handled n (.close error)
        ({ n with isClosed := true, closeError := error : StreamNode }.answerAllHeld.1,
          { n with isClosed := true, closeError := error : StreamNode }.answerAllHeld.2 ++
            [.producerStop stop])
  | read (streamId : String) (request : Request) :
      Handled n (.read streamId request) (n.read streamId request)
  | endStream (streamId : String) : Handled n (.endStream streamId) (n.endStream streamId)
  | timerExpired (token : Int) : Handled n (.timerExpired token) (n.timerExpired token)

theorem handle_spec (n : StreamNode) (input : StreamInput) : Handled n input (n.handle input) := by
  cases input with
  | push payload =>
      rw [handle, push]
      split
      · rename_i hterminal
        exact .refused payload hterminal
      · rename_i hopen
        exact .push payload (by simpa using hopen)
  | «seal» =>
      rw [handle, StreamNode.seal]
      split
      · rename_i hterminal
        exact .again (.inl rfl) hterminal
      · rename_i hopen
        exact .seal (by simpa using hopen)
  | close error =>
      rw [handle, StreamNode.close]
      split
      · rename_i hclosed
        exact .again (.inr ⟨error, rfl⟩) (by simp [hclosed])
      · rename_i hopen
        exact .close error _ (by simpa using hopen)
  | read streamId request => exact .read streamId request
  | endStream streamId => exact .endStream streamId
  | timerExpired token => exact .timerExpired token

/-! ## Well-formed nodes -/

theorem Wf.ensureReader (h : n.Wf) (id : String) : (n.ensureReader id).Wf := by
  obtain ⟨log, hring⟩ := h.ring
  have hhead := hring.head
  have hold : ∀ (a : String) (reader : Reader), (n.ensureReader id).readers[a]? = some reader →
      n.readers[a]? = some reader ∨ reader = ⟨n.head, none⟩ := by
    intro a reader hreader
    unfold StreamNode.ensureReader at hreader
    split at hreader
    · exact .inl hreader
    · change (n.insertReader id ⟨n.head, none⟩).readers[a]? = some reader at hreader
      rw [readers_insertReader] at hreader
      split at hreader
      · exact .inr (Option.some.inj hreader).symm
      · exact .inl hreader
  refine ⟨fun a => ?_, ?_, fun a held token hheld htoken => ?_, ⟨log, ?_⟩, fun a reader hr => ?_⟩
  · rw [ensureReader_order h, mem_enrol, h.keys, mem_readers_iff, mem_readers_iff]
    by_cases heq : a = id
    · subst heq
      obtain ⟨reader, hentry, -⟩ := n.ensureReader_entry a
      exact iff_of_true (.inr rfl) ⟨reader, hentry⟩
    · rw [n.ensureReader_readers heq]
      simp [heq]
  · rw [ensureReader_nextToken]
    exact h.first
  · obtain ⟨reader, hreader, hread⟩ := Option.bind_eq_some_iff.mp hheld
    rcases hold a reader hreader with hsame | hnew
    · exact h.tokens a held token (by rw [heldOf, hsame]; exact hread) htoken
    · simp [hnew] at hread
  · unfold StreamNode.ensureReader
    split <;> exact hring.congr rfl rfl rfl
  · rw [ensureReader_head]
    rcases hold a reader hr with hsame | hnew
    · exact h.placed a reader hsame
    · rw [hnew]
      constructor <;> simp only <;> omega

theorem Wf.forget (h : n.Wf) (id : String) : ((n.removeFromMap id).forget id).Wf := by
  obtain ⟨log, hring⟩ := h.ring
  have hold : ∀ {a : String} {reader : Reader},
      ((n.removeFromMap id).forget id).readers[a]? = some reader → n.readers[a]? = some reader := by
    intro a reader hreader
    change (n.removeFromMap id).readers[a]? = some reader at hreader
    rw [readers_removeFromMap] at hreader
    split at hreader
    · simp at hreader
    · exact hreader
  refine ⟨fun a => ?_, h.first, fun a held token hheld htoken => ?_,
    ⟨log, hring.congr rfl rfl rfl⟩, fun a reader hr => h.placed a reader (hold hr)⟩
  · show a ∈ strike n.order id ↔ a ∈ n.readers.erase id
    simp only [mem_strike, h.keys, Std.ExtTreeMap.mem_erase, Std.LawfulEqCmp.compare_eq_iff_eq,
      ne_eq]
    rw [and_comm, eq_comm]
  · obtain ⟨reader, hreader, hread⟩ := Option.bind_eq_some_iff.mp hheld
    exact h.tokens a held token (by rw [heldOf, hold hreader]; exact hread) htoken

theorem Wf.withToken (h : n.Wf) {token : Int} (hfirst : 1 ≤ token) :
    { n with nextToken := token }.Wf := by
  obtain ⟨log, hring⟩ := h.ring
  exact ⟨h.keys, hfirst, h.tokens, ⟨log, hring.congr rfl rfl rfl⟩, h.placed⟩

theorem Wf.seat (h : n.Wf) (id : String) {reader : Reader}
    (hplaced : 0 ≤ reader.cursor ∧ reader.cursor ≤ n.head)
    (htoken : ∀ held token, reader.held = some held → held.timerToken = some token → 1 ≤ token) :
    (n.seat id reader).Wf := by
  have hid : id ∈ (n.ensureReader id).order := by
    rw [ensureReader_order h, mem_enrol]
    exact .inr rfl
  exact (h.ensureReader id).insertReader hid (by rw [ensureReader_head]; exact hplaced) htoken

theorem Wf.read (h : n.Wf) (id : String) (request : Request) : (n.read id request).1.Wf := by
  have hspec := n.read_spec id request
  generalize n.read id request = result at hspec ⊢
  cases hspec with
  | dropped r hanswer hstate stop hstop => exact (h.ensureReader id).forget id
  | answered r reader hanswer hstate =>
      have hplaced := h.resolve_placed id request
      have hheld := n.resolve_held id (n.readerOf id) request
      rw [hanswer] at hplaced hheld
      refine h.seat id hplaced fun held token hread => ?_
      rw [hheld, n.readerOf_held id] at hread
      simp at hread
  | timed ms hanswer htimed =>
      have hfirst := h.first
      have hseat : (n.seat id
          { n.readerOf id with held := some ⟨request, some n.nextToken⟩ }).Wf := by
        refine h.seat id (h.readerOf_placed id) fun held token hread htoken => ?_
        obtain rfl := Option.some.inj hread
        obtain rfl := Option.some.inj htoken
        exact hfirst
      exact hseat.withToken (by omega)
  | untimed hanswer htimed =>
      refine h.seat id (h.readerOf_placed id) fun held token hread htoken => ?_
      obtain rfl := Option.some.inj hread
      simp at htoken

theorem Wf.endStream (h : n.Wf) (id : String) : (n.endStream id).1.Wf := by
  have hspec := n.endStream_spec id
  generalize n.endStream id = result at hspec ⊢
  cases hspec with
  | absent hentry => exact h
  | gone stop hstop => exact h.forget id

theorem Wf.timerExpired (h : n.Wf) (token : Int) : (n.timerExpired token).1.Wf := by
  have hspec := timerExpired_spec h token
  generalize n.timerExpired token = result at hspec ⊢
  cases hspec with
  | unknown hnone => exact h
  | probed id held hheld htoken reader answer hprobe hreader =>
      have hplaced := h.resolve_placed id { held.request with timeoutMs := some 0 }
      rw [hprobe] at hplaced
      refine h.insertReader (h.listed hheld) hplaced fun read token hread => ?_
      simp [hreader] at hread

/-! ## The sweeps -/

theorem held_at_head (h : n.Wf) (hsettled : n.desk.Settled n.policy) {id : String}
    {reader : Reader} (hentry : n.readers[id]? = some reader)
    (hheld : reader.held.isSome = true) :
    n.isSealed = false ∧ n.isClosed = false ∧ reader.cursor = n.head := by
  obtain ⟨held, hread⟩ := Option.isSome_iff_exists.mp hheld
  have hkept : n.desk.kept id = some held.kept := by simp [desk, heldOf, hentry, hread]
  obtain ⟨hcursor, hsealed, hclosed⟩ := h.waiting (hsettled id held.kept hkept)
  rw [readerOf_of_entry hentry] at hcursor
  exact ⟨hsealed, hclosed, hcursor⟩

/-- A ring overtakes no reader that is at most one record behind. -/
theorem sweeping_of_near (h : m.Wf) (hnear : ∀ (id : String) (reader : Reader),
    m.readers[id]? = some reader → reader.held.isSome = true → m.head - 1 ≤ reader.cursor) :
    Sweeping m m := by
  refine ⟨h, rfl, fun id reader hentry hheld => ?_⟩
  obtain ⟨log, hring⟩ := h.ring
  have hfloor := hring.floor_eq
  have hhead := hring.head
  have hcapacity := m.capacity_pos
  have hone := hnear id reader hentry hheld
  have hplaced := h.placed id reader hentry
  omega

theorem sweeping_pushed (h : n.Wf) (hsettled : n.desk.Settled n.policy) (payload : Bytes) :
    Sweeping (n.pushed payload) (n.pushed payload) := by
  obtain ⟨log, hring⟩ := h.ring
  have hwf : (n.pushed payload).Wf := by
    refine ⟨h.keys, h.first, h.tokens, ⟨_, hring.push payload rfl rfl rfl⟩, ?_⟩
    intro id reader hreader
    have hplaced := h.placed id reader hreader
    simp only [pushed]
    omega
  refine sweeping_of_near hwf fun id reader hentry hheld => ?_
  have hcursor := (held_at_head h hsettled hentry hheld).2.2
  simp only [pushed]
  omega

theorem sweeping_stopped (h : n.Wf) (hsettled : n.desk.Settled n.policy) (isSealed isClosed : Bool)
    (closeError : Option StreamError) :
    Sweeping { n with isSealed := isSealed, isClosed := isClosed, closeError := closeError }
      { n with isSealed := isSealed, isClosed := isClosed, closeError := closeError } := by
  obtain ⟨log, hring⟩ := h.ring
  have hwf : { n with
      isSealed := isSealed, isClosed := isClosed, closeError := closeError : StreamNode }.Wf :=
    ⟨h.keys, h.first, h.tokens, ⟨log, hring.congr rfl rfl rfl⟩, h.placed⟩
  refine sweeping_of_near hwf fun id reader hentry hheld => ?_
  have hcursor := (held_at_head h hsettled hentry hheld).2.2
  show n.head - 1 ≤ reader.cursor
  omega

theorem handle_wf (h : n.Wf) (hsettled : n.desk.Settled n.policy) (input : StreamInput) :
    (n.handle input).1.Wf := by
  have hspec := n.handle_spec input
  generalize n.handle input = result at hspec ⊢
  cases hspec with
  | refused payload hterminal => exact h
  | push payload hopen => exact (answerAllHeld_frame (sweeping_pushed h hsettled payload)).2
  | again hinput hterminal => exact h
  | «seal» hopen =>
      exact (answerAllHeld_frame (sweeping_stopped h hsettled true n.isClosed n.closeError)).2
  | close error stop hopen =>
      exact (answerAllHeld_frame (sweeping_stopped h hsettled n.isSealed true error)).2
  | read streamId request => exact h.read streamId request
  | endStream streamId => exact h.endStream streamId
  | timerExpired token => exact h.timerExpired token

theorem handle_turn (h : n.Wf) (hsound : n.desk.Sound) (hsettled : n.desk.Settled n.policy)
    (input : StreamInput) :
    ∃ P : Policy String Request StreamReadResponse, P.parting = parting ∧
      Desk.Turn P n.policy (n.handle input).1.policy n.desk input.ask
        ((n.handle input).2.map reply) (n.handle input).1.desk := by
  have hspec := n.handle_spec input
  generalize n.handle input = result at hspec ⊢
  cases hspec with
  | refused payload hterminal => exact ⟨n.policy, rfl, hsettled.idle_turn n.probe_isSome rfl⟩
  | push payload hopen =>
      have hturn := sweep_turn (sweeping_pushed h hsettled payload) (n := n) rfl hsound [] rfl
      rw [List.append_nil] at hturn
      exact ⟨_, rfl, hturn⟩
  | again hinput hterminal =>
      have hask : input.ask = .wake := by
        rcases hinput with rfl | ⟨error, rfl⟩ <;> rfl
      rw [hask]
      exact ⟨n.policy, rfl, hsettled.idle_turn n.probe_isSome rfl⟩
  | «seal» hopen =>
      have hturn := sweep_turn (sweeping_stopped h hsettled true n.isClosed n.closeError) (n := n)
        rfl hsound [] rfl
      rw [List.append_nil] at hturn
      exact ⟨_, rfl, hturn⟩
  | close error stop hopen =>
      have hturn := sweep_turn (sweeping_stopped h hsettled n.isSealed true error) (n := n) rfl
        hsound [.producerStop stop] rfl
      exact ⟨_, rfl, hturn⟩
  | read streamId request => exact ⟨n.policy, rfl, n.read_turn h streamId request⟩
  | endStream streamId => exact ⟨n.policy, rfl, endStream_turn h streamId⟩
  | timerExpired token => exact ⟨n.policy, rfl, timerExpired_turn h hsound token⟩

end StreamNode

/-- The engine serves its readers as a desk does. -/
theorem serves : Desk.Serves StreamNode.handle StreamNode.desk StreamNode.policy StreamInput.ask
    reply parting StreamNode.Wf :=
  ⟨fun _ input h _ hsettled => StreamNode.handle_wf h hsettled input,
    fun _ input h hsound hsettled => StreamNode.handle_turn h hsound hsettled input⟩

def exchange (capacityRecords : Nat) (capacity_pos : 0 < capacityRecords) (stopWhen : StopWhen)
    (inputs : List StreamInput) :
    List (Ask String Request × List (Reply String StreamReadResponse)) :=
  Desk.exchange StreamNode.handle StreamInput.ask reply
    (StreamNode.new capacityRecords capacity_pos stopWhen) inputs

theorem run_stands (capacityRecords : Nat) (capacity_pos : 0 < capacityRecords)
    (stopWhen : StopWhen) (inputs : List StreamInput) :
    Desk.Stands StreamNode.desk StreamNode.policy parting StreamNode.Wf
      (exchange capacityRecords capacity_pos stopWhen inputs)
      (run capacityRecords capacity_pos stopWhen inputs) :=
  serves.run (StreamNode.desk_new capacityRecords capacity_pos stopWhen)
    (StreamNode.wf_new capacityRecords capacity_pos stopWhen) inputs

/-! ## Pushes -/

def pushNotice (record : StreamRecord) (streamId : String) (held : HeldRead Request) :
    List StreamOutput :=
  cancelTimer held.timerToken ++
    [.readResponse (response streamId [record] record.seq .data none)]

namespace StreamNode

variable {n m : StreamNode}

theorem resolve_pushed (h : n.Wf) (payload : Bytes) (id : String) (reader : Reader)
    (hcursor : reader.cursor = n.head) (request : Request) :
    (n.pushed payload).resolve id reader request =
      ({ reader with cursor := n.head + 1 },
        some (response id [⟨n.head + 1, payload⟩] (n.head + 1) .data none)) := by
  obtain ⟨log, hring⟩ := h.ring
  have hhead := hring.head
  have hcapacity := n.capacity_pos
  have hpushed : Ring (log ++ [(n.head + 1, payload)]) (n.pushed payload) :=
    hring.push payload rfl rfl rfl
  have hspec := hpushed.resolve_spec id reader (by omega)
    (by simp only [pushed]; omega) request
  have hpushedHead : (n.pushed payload).head = n.head + 1 := rfl
  have hsameCapacity : (n.pushed payload).capacityRecords = n.capacityRecords := rfl
  generalize (n.pushed payload).resolve id reader request = result at hspec ⊢
  cases hspec with
  | dropped hfar => omega
  | data last hnear hlt hle =>
      have hlast : last = log.length + 1 := by
        rw [List.length_append, List.length_singleton] at hle
        omega
      have hstart : reader.cursor.toNat = log.length := by omega
      have hwindow : window (log ++ [(n.head + 1, payload)]) log.length (log.length + 1) =
          [(n.head + 1, payload)] := by
        have hfull := window_full (log ++ [(n.head + 1, payload)]) log.length
        rw [List.length_append, List.length_singleton, List.drop_left] at hfull
        exact hfull
      have hseq : ((log.length + 1 : Nat) : Int) = n.head + 1 := by omega
      rw [hlast, hstart, hwindow, hseq]
      rfl
  | idle state error hat hdata hdropped => omega
  | waits hat hopen htimeout => omega

/-- A push answers the held readers with the new record, in the order of their creation,
and moves no other reader. -/
theorem push_answers (h : n.Wf) (hsound : n.desk.Sound) (hsettled : n.desk.Settled n.policy)
    (payload : Bytes) (hsealed : n.isSealed = false) (hclosed : n.isClosed = false) :
    (n.handle (.push payload)).2 = n.order.flatMap (fun id =>
        ((n.heldOf id).map (pushNotice ⟨n.head + 1, payload⟩ id)).getD []) ∧
      ∀ id : String, (n.handle (.push payload)).1.readers[id]? =
        n.readers[id]?.map fun reader =>
          if reader.held.isSome then ⟨n.head + 1, none⟩ else reader := by
  have hsweep := sweeping_pushed h hsettled payload
  have hhandle : n.handle (.push payload) = (n.pushed payload).answerAllHeld := by
    rw [handle, push, if_neg (by simp [hsealed, hclosed])]
    rfl
  have hreleased : ∀ id : String, released (n.pushed payload) id n.readers[id]? =
      (n.readers[id]?.map (fun reader =>
          if reader.held.isSome then ⟨n.head + 1, none⟩ else reader),
        ((n.heldOf id).map (pushNotice ⟨n.head + 1, payload⟩ id)).getD []) := by
    intro id
    cases hentry : n.readers[id]? with
    | none => simp [released, heldOf, hentry]
    | some reader =>
        cases hheld : reader.held with
        | none => simp [released, heldOf, hentry, hheld]
        | some held =>
            have hcursor := (held_at_head h hsettled hentry (by rw [hheld]; rfl)).2.2
            have hresolve := resolve_pushed h payload id { reader with held := none }
              hcursor held.request
            simp only [released, heldOf, hentry, hheld, hresolve, Option.bind_some,
              Option.map_some, Option.isSome_some, if_true, Option.getD_some, pushNotice]
  rw [hhandle]
  constructor
  · rw [answerAllHeld_outputs hsweep hsound]
    apply List.flatMap_congr
    intro id _
    exact congrArg Prod.snd (hreleased id)
  · intro id
    rw [answerAllHeld_readers hsweep hsound]
    exact congrArg Prod.fst (hreleased id)

/-! ## Dropped readers -/

theorem not_dropped_at_head (h : n.Wf) {id : String} (hcursor : (n.readerOf id).cursor = n.head)
    {request : Request} {r : StreamReadResponse} (hanswer : n.answer id request = some r) :
    r.state ≠ .dropped := by
  obtain ⟨log, hring⟩ := h.ring
  have hfloor := hring.floor_eq
  have hnear := n.resolve_near id (n.readerOf id) (by omega) request
  rw [answer] at hanswer
  rcases hnear with ⟨hnone, -⟩ | ⟨r', hsome, hstate, -⟩
  · rw [hnone] at hanswer
    simp at hanswer
  · rw [hsome] at hanswer
    exact Option.some.inj hanswer ▸ hstate

theorem swept_response (h : Sweeping m m) (hsound : m.desk.Sound) {r : StreamReadResponse}
    (hr : .readResponse r ∈ m.answerAllHeld.2) :
    (∃ held, m.heldOf r.streamId = some held) ∧ r.state ≠ .dropped := by
  rw [answerAllHeld_outputs h hsound, List.mem_flatMap] at hr
  obtain ⟨id, -, hout⟩ := hr
  unfold released at hout
  split at hout
  · simp at hout
  · rename_i reader hentry
    split at hout
    · simp at hout
    · rename_i held hheld
      have hnear := h.near id reader hentry (by rw [hheld]; rfl)
      have hcases := m.resolve_near id { reader with held := none } hnear held.request
      have hname := m.answer_name id held.request
      rw [answer, readerOf_of_entry hentry] at hname
      split at hout
      · simp at hout
      · rename_i reader' response hresult
        rw [hresult] at hcases hname
        have hsame : r = response := by
          cases htoken : held.timerToken <;> simpa [htoken, cancelTimer] using hout
        rw [hsame, hname response rfl]
        constructor
        · exact ⟨held, by rw [heldOf, hentry, Option.bind_some, hheld]⟩
        · rcases hcases with ⟨hnone, -⟩ | ⟨r', hsome, hstate, -⟩
          · simp at hnone
          · exact Option.some.inj hsome ▸ hstate

theorem readResponse_of_cancel {token : Option Int} {r : StreamReadResponse}
    (h : .readResponse r ∈ (cancelTimer token : List StreamOutput)) : False := by
  cases token <;> simp [cancelTimer] at h

/-- The response to a read is the answer to it. -/
theorem answer_of_response (n : StreamNode) {id : String} {request : Request}
    {r : StreamReadResponse} (hr : .readResponse r ∈ (n.read id request).2) :
    n.answer id request = some r := by
  have hspec := n.read_spec id request
  have hcancel : .readResponse r ∉
      (cancelTimer ((n.heldOf id).bind HeldRead.timerToken) : List StreamOutput) :=
    readResponse_of_cancel
  generalize n.read id request = result at hspec hr
  cases hspec with
  | dropped r' hanswer hstate stop hstop =>
      rw [List.append_assoc, List.mem_append, List.mem_append] at hr
      rcases hr with hin | hin | hin
      · exact absurd hin hcancel
      · obtain rfl : r = r' := by simpa using hin
        exact hanswer
      · simpa using hstop _ hin
  | answered r' reader hanswer hstate =>
      have hin := (List.mem_append.mp hr).resolve_left hcancel
      obtain rfl : r = r' := by simpa using hin
      rw [answer, hanswer]
  | timed ms hanswer htimed =>
      have hin := (List.mem_append.mp hr).resolve_left hcancel
      simp at hin
  | untimed hanswer htimed => exact absurd hr hcancel

theorem Wf.held_cursor (h : n.Wf) (hsettled : n.desk.Settled n.policy) {id : String}
    {held : HeldRead Request} (hheld : n.heldOf id = some held) :
    (n.readerOf id).cursor = n.head := by
  obtain ⟨reader, hentry, hread⟩ := Option.bind_eq_some_iff.mp hheld
  rw [readerOf_of_entry hentry]
  exact (held_at_head h hsettled hentry (by rw [hread]; rfl)).2.2

theorem response_source (h : n.Wf) (hsound : n.desk.Sound) (hsettled : n.desk.Settled n.policy)
    (input : StreamInput) (r : StreamReadResponse) (hr : .readResponse r ∈ (n.handle input).2) :
    (∃ request, input = .read r.streamId request ∧ n.answer r.streamId request = some r) ∨
      ((∃ held, n.heldOf r.streamId = some held) ∧ r.state ≠ .dropped) := by
  have hspec := n.handle_spec input
  generalize n.handle input = result at hspec hr
  cases hspec with
  | refused payload hterminal => simp at hr
  | push payload hopen =>
      have hswept := swept_response (sweeping_pushed h hsettled payload) hsound hr
      exact .inr hswept
  | again hinput hterminal => simp at hr
  | «seal» hopen =>
      have hswept := swept_response (sweeping_stopped h hsettled true n.isClosed n.closeError)
        hsound hr
      exact .inr hswept
  | close error stop hopen =>
      have hin := (List.mem_append.mp hr).resolve_right (by simp)
      have hswept := swept_response (sweeping_stopped h hsettled n.isSealed true error) hsound hin
      exact .inr hswept
  | read id request =>
      have hanswer := n.answer_of_response hr
      obtain rfl := n.answer_name id request r hanswer
      exact .inl ⟨request, rfl, hanswer⟩
  | endStream id =>
      have hspec := n.endStream_spec id
      generalize n.endStream id = result at hspec hr
      cases hspec with
      | absent hentry => simp at hr
      | gone stop hstop =>
          rcases List.mem_append.mp hr with hcancel | hin
          · exact (readResponse_of_cancel hcancel).elim
          · simpa using hstop _ hin
  | timerExpired token =>
      have hspec := timerExpired_spec h token
      generalize n.timerExpired token = result at hspec hr
      cases hspec with
      | unknown hnone => simp at hr
      | probed id held hheld htoken reader answer hprobe hreader =>
          obtain rfl : r = answer := by simpa using hr
          have hanswer : n.answer id { held.request with timeoutMs := some 0 } = some r := by
            rw [StreamNode.answer, hprobe]
          have hstate := not_dropped_at_head h (h.held_cursor hsettled hheld) hanswer
          rw [n.answer_name id _ r hanswer]
          exact .inr ⟨⟨held, hheld⟩, hstate⟩

/-- Only a read that comes in can be answered Dropped, and not that of a held reader. -/
theorem dropped_of_read (h : n.Wf) (hsound : n.desk.Sound) (hsettled : n.desk.Settled n.policy)
    (input : StreamInput) (r : StreamReadResponse) (hr : .readResponse r ∈ (n.handle input).2)
    (hdropped : r.state = .dropped) :
    n.heldOf r.streamId = none ∧ ∃ request, input = .read r.streamId request := by
  rcases response_source h hsound hsettled input r hr with ⟨request, hread, hanswer⟩ | ⟨-, hstate⟩
  · refine ⟨?_, request, hread⟩
    cases hheld : n.heldOf r.streamId with
    | none => rfl
    | some held =>
        exact absurd hdropped (not_dropped_at_head h (h.held_cursor hsettled hheld) hanswer)
  · exact absurd hdropped hstate

end StreamNode

/-! ## Whole runs -/

/-- **The held reads of the stream engine.**  `order` lists the readers without
repetition; who holds a read stands at the head of a node that may get more; a push
answers every held read with the new record, in the order of creation; no held read is
answered Dropped, on time or late; and every run is accounted for. -/
theorem reader_protocol (capacityRecords : Nat) (capacity_pos : 0 < capacityRecords)
    (stopWhen : StopWhen) (inputs : List StreamInput) :
    let n := run capacityRecords capacity_pos stopWhen inputs
    let events := exchange capacityRecords capacity_pos stopWhen inputs
    (n.order = roster (events.map (Desk.presence parting)) ∧ n.order.Nodup ∧
      ∀ id, id ∈ n.order ↔ id ∈ n.readers) ∧
    (∀ (id : String) (reader : Reader), n.readers[id]? = some reader →
      reader.held.isSome = true →
        n.isSealed = false ∧ n.isClosed = false ∧ reader.cursor = n.head) ∧
    (∀ payload, n.isSealed = false → n.isClosed = false →
      (n.handle (.push payload)).2 = n.order.flatMap (fun id =>
          ((n.heldOf id).map (pushNotice ⟨n.head + 1, payload⟩ id)).getD []) ∧
        ∀ id : String, (n.handle (.push payload)).1.readers[id]? =
          n.readers[id]?.map fun reader =>
            if reader.held.isSome then ⟨n.head + 1, none⟩ else reader) ∧
    (∀ input r, .readResponse r ∈ (n.handle input).2 → r.state = .dropped →
      n.heldOf r.streamId = none ∧ ∃ request, input = .read r.streamId request) ∧
    ∃ L : Ledger String Request StreamReadResponse, Ledger.audit events = some L ∧
      L.Accounts (Ledger.asked events) (Ledger.expiries events) (Ledger.replies events) ∧
      ∀ id, (n.heldOf id).map HeldRead.kept = (L.waiting id).map Desk.parked := by
  intro n events
  have hstands := run_stands capacityRecords capacity_pos stopWhen inputs
  refine ⟨⟨hstands.order, hstands.sound.nodup, hstands.inv.keys⟩, ?_, ?_, ?_, hstands.accounts⟩
  · intro id reader hentry hheld
    exact StreamNode.held_at_head hstands.inv hstands.settled hentry hheld
  · intro payload hsealed hclosed
    exact StreamNode.push_answers hstands.inv hstands.sound hstands.settled payload hsealed hclosed
  · intro input r hr hdropped
    exact StreamNode.dropped_of_read hstands.inv hstands.sound hstands.settled input r hr hdropped

/-- Two readers are told one record, the elder first. -/
theorem reader_protocol_two :
    let n := run 1 Nat.one_pos .lastReader
      [.read "b" ⟨none, none, none⟩, .read "a" ⟨none, none, some 5⟩]
    (n.handle (.push [7])).2 = [.readResponse (response "b" [⟨1, [7]⟩] 1 .data none),
      .cancelTimer 1, .readResponse (response "a" [⟨1, [7]⟩] 1 .data none)] := by
  intro n
  have hpush := (reader_protocol 1 Nat.one_pos .lastReader
    [.read "b" ⟨none, none, none⟩, .read "a" ⟨none, none, some 5⟩]).2.2.1 [7] (by decide)
    (by decide)
  exact hpush.1.trans (by decide)

end TautShape.Stream
