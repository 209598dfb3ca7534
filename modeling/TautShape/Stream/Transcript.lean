import TautShape.Stream.Delivery
/-!
# What a reader can tell

The responses to one stream, as a reader of them sees it: each says where it ends, and
begins where the one before it ended, or later if that one said Dropped.
-/

namespace TautShape.Stream

open TautShape.Lib TautShape.Held
open TautShape.Log (Bytes StopWhen)

/-! ## Where a response leaves its reader -/

namespace StreamNode

variable {n m : StreamNode} {log : List (Int × Bytes)}

theorem resolve_position {id : String} {reader reader' : Reader} {request : Request}
    {r : StreamReadResponse} (h : n.resolve id reader request = (reader', some r)) :
    (r.state = .dropped → r.records = [] ∧ r.nextPosition.seq = n.head) ∧
      (r.state ≠ .dropped → r.nextPosition.seq = reader'.cursor) := by
  have hplaced : ∀ {moved : Reader} {records : List StreamRecord} {state : StreamState}
      {error : Option StreamError}, state ≠ .dropped →
      (moved, some (response id records moved.cursor state error)) = (reader', some r) →
      (r.state = .dropped → r.records = [] ∧ r.nextPosition.seq = n.head) ∧
        (r.state ≠ .dropped → r.nextPosition.seq = reader'.cursor) := by
    intro moved records state error hstate heq
    simp only [Prod.mk.injEq, Option.some.injEq] at heq
    obtain ⟨rfl, rfl⟩ := heq
    exact ⟨fun hdropped => absurd hdropped hstate, fun _ => rfl⟩
  unfold resolve at h
  split at h
  · simp only [Prod.mk.injEq, Option.some.injEq] at h
    obtain ⟨rfl, rfl⟩ := h
    exact ⟨fun _ => ⟨rfl, rfl⟩, fun hstate => absurd rfl hstate⟩
  simp only at h
  split at h
  · exact hplaced (by simp) h
  split at h
  · split at h
    · exact hplaced (by simp) h
    · exact hplaced (by simp) h
  split at h
  · exact hplaced (by simp) h
  split at h
  · exact hplaced (by simp) h
  · simp at h

theorem resolve_open {id : String} {reader reader' : Reader} {request : Request}
    {r : StreamReadResponse} (hopen : n.isSealed = false ∧ n.isClosed = false)
    (h : n.resolve id reader request = (reader', some r)) :
    r.state = .data ∨ r.state = .wouldBlock ∨ r.state = .dropped := by
  have hstate : ∀ {moved : Reader} {records : List StreamRecord} {position : Int}
      {state : StreamState} {error : Option StreamError},
      (moved, some (response id records position state error)) = (reader', some r) →
      r.state = state := by
    intro moved records position state error heq
    simp only [Prod.mk.injEq, Option.some.injEq] at heq
    obtain ⟨rfl, rfl⟩ := heq
    rfl
  unfold resolve at h
  rw [hopen.1, hopen.2] at h
  split at h
  · exact .inr (.inr (hstate h))
  simp only [Bool.false_eq_true, if_false] at h
  split at h
  · exact .inl (hstate h)
  split at h
  · exact .inr (.inl (hstate h))
  · simp at h

/-- A response as the answer of a store, which the node that is left has too. -/
structure Answers (log : List (Int × Bytes)) (n : StreamNode) (r : StreamReadResponse)
    (m : StreamNode) (reader reader' : Reader) (request : Request) : Prop where
  ring : Ring log m
  head : m.head = n.head
  terminal : (m.isSealed || m.isClosed) = (n.isSealed || n.isClosed)
  placed : 0 ≤ reader.cursor ∧ reader.cursor ≤ m.head
  resolves : m.resolve r.streamId reader request = (reader', some r)
  moved : r.state ≠ .dropped → n.place r.streamId = some reader'.cursor

theorem answers_of_sweep (h : Sweeping m m) (hsound : m.desk.Sound) (hring : Ring log m)
    {r : StreamReadResponse} (hr : .readResponse r ∈ m.answerAllHeld.2) :
    ∃ reader reader' request, Answers log m.answerAllHeld.1 r m reader reader' request := by
  have hframe := (answerAllHeld_frame h).1
  rw [answerAllHeld_outputs h hsound, List.mem_flatMap] at hr
  obtain ⟨id, -, hr⟩ := hr
  have hafter := answerAllHeld_readers h hsound id
  cases hentry : m.readers[id]? with
  | none => simp [hentry, released] at hr
  | some reader =>
      cases hheld : reader.held with
      | none => simp [hentry, released, hheld] at hr
      | some held =>
          have hname := m.answer_name id held.request
          rw [answer, readerOf_of_entry hentry] at hname
          cases hresult : m.resolve id { reader with held := none } held.request with
          | mk reader' answer' =>
              rw [hresult] at hname
              cases answer' with
              | none => simp [hentry, released, hheld, hresult] at hr
              | some r' =>
                  simp only [hentry, released, hheld, hresult] at hr hafter
                  obtain rfl : r = r' := by
                    rcases List.mem_append.mp hr with hin | hin
                    · exact (readResponse_of_cancel hin).elim
                    · simpa using hin
                  obtain rfl := hname r rfl
                  refine ⟨{ reader with held := none }, reader', held.request, hring, ?_, ?_,
                    h.wf.placed r.streamId reader hentry, hresult, fun _ => ?_⟩
                  · rw [hframe]
                  · rw [hframe]
                  · rw [place, hafter, Option.map_some]

/-- Every response is an answer of a store that took the input's record, if it had one. -/
theorem handle_answers (h : n.Wf) (hsound : n.desk.Sound) (hsettled : n.desk.Settled n.policy)
    (hring : Ring log n) (input : StreamInput) {r : StreamReadResponse}
    (hr : .readResponse r ∈ (n.handle input).2) :
    ∃ m reader reader' request,
      Answers (log ++ n.adds input) (n.handle input).1 r m reader reader' request := by
  have hspec := n.handle_spec input
  generalize n.handle input = result at hspec hr ⊢
  cases hspec with
  | refused payload hterminal => simp at hr
  | push payload hopen =>
      have hpushed : Ring (log ++ [(n.head + 1, payload)]) (n.pushed payload) :=
        hring.push payload rfl rfl rfl
      rw [n.adds_push payload hopen]
      exact ⟨_, answers_of_sweep (sweeping_pushed h hsettled payload) hsound hpushed hr⟩
  | again hinput hterminal => simp at hr
  | «seal» hopen =>
      rw [n.adds_of_none rfl, List.append_nil]
      exact ⟨_, answers_of_sweep (sweeping_stopped h hsettled true n.isClosed n.closeError) hsound
        (hring.congr rfl rfl rfl) hr⟩
  | close error stop hopen =>
      have hin := (List.mem_append.mp hr).resolve_right (by simp)
      rw [n.adds_of_none rfl, List.append_nil]
      exact ⟨_, answers_of_sweep (sweeping_stopped h hsettled n.isSealed true error) hsound
        (hring.congr rfl rfl rfl) hin⟩
  | read id request =>
      have hanswer := n.answer_of_response hr
      obtain rfl := n.answer_name id request r hanswer
      have hspec := n.read_spec r.streamId request
      have hstore := n.read_store r.streamId request
      rw [n.adds_of_none rfl, List.append_nil]
      cases hresult : n.resolve r.streamId (n.readerOf r.streamId) request with
      | mk reader' answer' =>
          obtain rfl : answer' = some r := by rw [answer, hresult] at hanswer; exact hanswer
          refine ⟨n, n.readerOf r.streamId, reader', request, hring, ?_, ?_,
            h.readerOf_placed r.streamId, hresult, fun hstate => ?_⟩
          · rw [hstore]
          · rw [hstore]
          · generalize n.read r.streamId request = result at hspec ⊢
            cases hspec with
            | dropped r' hsome hdropped stop hstop =>
                obtain rfl := Option.some.inj (hanswer.symm.trans hsome)
                exact absurd hdropped hstate
            | answered r' reader hsame hlive =>
                obtain ⟨rfl, -⟩ := Prod.mk.inj (hresult.symm.trans hsame)
                rw [place, seat_readers, if_pos rfl, Option.map_some]
            | timed ms hnone htimed => exact absurd (hanswer.symm.trans hnone) (by simp)
            | untimed hnone htimed => exact absurd (hanswer.symm.trans hnone) (by simp)
  | endStream id =>
      have hspec := n.endStream_spec id
      generalize n.endStream id = result at hspec hr
      cases hspec with
      | absent hentry => simp at hr
      | gone stop hstop =>
          rcases List.mem_append.mp hr with hcancel | hin
          · exact (readResponse_of_cancel hcancel).elim
          · simpa using hstop _ hin
  | timerExpired token =>
      have hspec := timerExpired_spec h token
      rw [n.adds_of_none rfl, List.append_nil]
      generalize n.timerExpired token = result at hspec hr ⊢
      cases hspec with
      | unknown hnone => simp at hr
      | probed id held hheld htoken reader answer hprobe hreader =>
          obtain rfl : r = answer := by simpa using hr
          have hanswer : n.answer id { held.request with timeoutMs := some 0 } = some r := by
            rw [StreamNode.answer, hprobe]
          obtain rfl := n.answer_name id _ r hanswer
          refine ⟨n, n.readerOf r.streamId, reader, _, hring, rfl, rfl,
            h.readerOf_placed r.streamId, hprobe, fun _ => ?_⟩
          rw [place, readers_insertReader, if_pos rfl, Option.map_some]

theorem Answers.position {r : StreamReadResponse} {reader reader' : Reader} {request : Request}
    (h : Answers log n r m reader reader' request) :
    (r.state = .dropped → r.records = [] ∧ r.nextPosition.seq = log.length) ∧
      (r.state ≠ .dropped → n.place r.streamId = some r.nextPosition.seq) := by
  obtain ⟨hdropped, hplaced⟩ := resolve_position h.resolves
  refine ⟨fun hstate => ?_, fun hstate => ?_⟩
  · rw [← h.ring.head]
    exact hdropped hstate
  · rw [h.moved hstate, hplaced hstate]

theorem Answers.ended {r : StreamReadResponse} {reader reader' : Reader} {request : Request}
    (h : Answers log n r m reader reader' request) (hdata : r.state ≠ .data)
    (hblock : r.state ≠ .wouldBlock) (hdropped : r.state ≠ .dropped) :
    (n.isSealed || n.isClosed) = true ∧ r.nextPosition.seq = log.length := by
  have hresolves := h.resolves
  have hspec := h.ring.resolve_spec r.streamId reader h.placed.1 h.placed.2 request
  rw [hresolves] at hspec
  rw [← h.terminal, ← h.ring.head]
  generalize hanswer : (reader', some r) = answer at hspec
  cases hspec with
  | dropped hfar =>
      obtain ⟨-, hr⟩ := Prod.mk.inj hanswer
      exact absurd (congrArg StreamReadResponse.state (Option.some.inj hr)) hdropped
  | data last hnear hlt hle =>
      obtain ⟨-, hr⟩ := Prod.mk.inj hanswer
      exact absurd (congrArg StreamReadResponse.state (Option.some.inj hr)) hdata
  | waits hcursor hopen htimeout => simp at hanswer
  | idle state error hcursor hstate hlive =>
      obtain ⟨rfl, -⟩ := Prod.mk.inj hanswer
      refine ⟨?_, ?_⟩
      · by_contra hopen
        rw [Bool.not_eq_true, Bool.or_eq_false_iff] at hopen
        rcases resolve_open hopen hresolves with h | h | h
        · exact hdata h
        · exact hblock h
        · exact hdropped h
      · rw [(resolve_position hresolves).2 hdropped, ← hcursor]

end StreamNode

/-! ## One response after another -/

def StreamReadResponse.first (r : StreamReadResponse) : Int :=
  r.nextPosition.seq - r.records.length

/-- A response carries what the log has between the positions that it begins and ends at. -/
structure Spans (log : List (Int × Bytes)) (r : StreamReadResponse) : Prop where
  nonneg : 0 ≤ r.first
  bound : r.nextPosition.seq ≤ log.length
  records : r.records = (window log r.first.toNat r.nextPosition.seq.toNat).map record
  dropped : r.state = .dropped → r.records = []

/-- What may come next: no record twice, and none left out unless the reader was dropped. -/
def Next (r r' : StreamReadResponse) : Prop :=
  r.nextPosition.seq ≤ r'.first ∧
    (r.state ≠ .dropped → r'.state ≠ .dropped → r'.first = r.nextPosition.seq)

/-- The responses to one stream, and the place of its reader. -/
structure Spells (log : List (Int × Bytes)) (responses : List StreamReadResponse)
    (place : Option Int) : Prop where
  spans : ∀ r ∈ responses, Spans log r
  chain : responses.IsChain Next
  stays : ∀ r, responses.getLast? = some r → r.state ≠ .dropped → place = some r.nextPosition.seq
  behind : ∀ r p, responses.getLast? = some r → place = some p → r.nextPosition.seq ≤ p
  placed : ∀ p, place = some p → 0 ≤ p ∧ p ≤ log.length

theorem Spans.append {log : List (Int × Bytes)} {r : StreamReadResponse} (h : Spans log r)
    (more : List (Int × Bytes)) : Spans (log ++ more) r := by
  have hbound := h.bound
  refine ⟨h.nonneg, ?_, ?_, h.dropped⟩
  · rw [List.length_append]
    omega
  · rw [window_of_append (by omega)]
    exact h.records

namespace Spells

variable {log : List (Int × Bytes)} {responses : List StreamReadResponse} {place : Option Int}

theorem append (h : Spells log responses place) (more : List (Int × Bytes)) :
    Spells (log ++ more) responses place := by
  refine ⟨fun r hr => (h.spans r hr).append more, h.chain, h.stays, h.behind, fun p hp => ?_⟩
  obtain ⟨hpos, hle⟩ := h.placed p hp
  rw [List.length_append]
  omega

theorem joined (h : Spells log responses place) {head : Int} (hhead : head = log.length)
    {id : String} {input : StreamInput} (hend : input ≠ .endStream id) :
    Spells log responses (joined id head place input) := by
  have hread : Spells log responses (some (place.getD head)) := by
    cases hplace : place with
    | some p =>
        rw [Option.getD_some, ← hplace]
        exact h
    | none =>
        subst hplace
        have hfresh : ∀ p, some ((none : Option Int).getD head) = some p → p = log.length :=
          fun p hp => (Option.some.inj hp).symm.trans hhead
        refine ⟨h.spans, h.chain, fun r hr hstate => ?_, fun r p hr hp => ?_, fun p hp => ?_⟩
        · exact absurd (h.stays r hr hstate) (by simp)
        · rw [hfresh p hp]
          exact (h.spans r (List.mem_of_getLast? hr)).bound
        · rw [hfresh p hp]
          omega
  cases input with
  | read streamId request =>
      simp only [Stream.joined]
      split
      · exact hread
      · exact h
  | endStream streamId =>
      have hne : streamId ≠ id := fun heq => hend (by rw [heq])
      simp only [Stream.joined, if_neg hne]
      exact h
  | _ => exact h

theorem concat (h : Spells log responses place) {r : StreamReadResponse} (hspans : Spans log r)
    {p : Int} (hp : place = some p)
    (hfirst : if r.state = .dropped then p ≤ r.first else r.first = p) {place' : Option Int}
    (hplace' : place' = if r.state = .dropped then none else some r.nextPosition.seq) :
    Spells log (responses ++ [r]) place' := by
  have hle : r.first ≤ r.nextPosition.seq := by
    rw [StreamReadResponse.first]
    omega
  have hnonneg := hspans.nonneg
  have hbound := hspans.bound
  refine ⟨fun r' hr' => ?_, ?_, fun r' hr' hstate => ?_, fun r' p' hr' hp' => ?_,
    fun p' hp' => ?_⟩
  · rcases List.mem_append.mp hr' with hr' | hr'
    · exact h.spans r' hr'
    · rw [List.mem_singleton.mp hr']
      exact hspans
  · refine List.isChain_append.mpr ⟨h.chain, List.isChain_singleton r, fun last hlast r' hr' => ?_⟩
    obtain rfl : r = r' := by simpa using hr'
    have hbehind := h.behind last p hlast hp
    refine ⟨?_, fun hlive hstate => ?_⟩
    · split at hfirst <;> omega
    · rw [if_neg hstate] at hfirst
      rw [hfirst]
      exact Option.some.inj (hp.symm.trans (h.stays last hlast hlive))
  · obtain rfl : r = r' := by simpa using hr'
    rw [hplace', if_neg hstate]
  · obtain rfl : r = r' := by simpa using hr'
    rw [hplace'] at hp'
    split at hp'
    · simp at hp'
    · exact (Option.some.inj hp').le
  · rw [hplace'] at hp'
    split at hp'
    · simp at hp'
    · obtain rfl := Option.some.inj hp'
      omega

theorem moved (h : Spells log responses place) {told : List StreamReadResponse}
    {place' : Option Int} (hmoved : Moved log place told place')
    (hplace : told ≠ [] → place.isSome = true)
    (htells : ∀ r ∈ told, (r.state = .dropped → r.records = [] ∧ r.nextPosition.seq = log.length) ∧
      (r.state ≠ .dropped → place' = some r.nextPosition.seq)) :
    Spells log (responses ++ told) place' := by
  cases hmoved with
  | silent =>
      rw [List.append_nil]
      exact h
  | dropped _ r hstate =>
      obtain ⟨p, rfl⟩ := Option.isSome_iff_exists.mp (hplace (by simp))
      obtain ⟨hrecords, hnext⟩ := (htells r (by simp)).1 hstate
      obtain ⟨hpos, hle⟩ := h.placed p rfl
      have hfirst : r.first = log.length := by
        rw [StreamReadResponse.first, hrecords, hnext]
        simp
      refine h.concat ⟨by omega, by omega, ?_, fun _ => hrecords⟩ rfl ?_ (by rw [if_pos hstate])
      · rw [hfirst, hnext, window_self, hrecords]
        rfl
      · rw [if_pos hstate]
        omega
  | told start _ r hstate hpos hle hend hrecords =>
      have hnext := Option.some.inj ((htells r (by simp)).2 hstate)
      subst hnext
      have hlength : (r.records.length : Int) = r.nextPosition.seq - start := by
        rw [hrecords, List.length_map, window_length (by omega)]
        omega
      have hfirst : r.first = start := by
        rw [StreamReadResponse.first]
        omega
      refine h.concat ⟨by omega, hend, ?_, fun hdropped => absurd hdropped hstate⟩ rfl ?_
        (by rw [if_neg hstate])
      · rw [hfirst]
        exact hrecords
      · rw [if_neg hstate]
        exact hfirst

theorem numbers (hnumbered : Numbered Prod.fst log) {r : StreamReadResponse} (h : Spans log r) :
    r.records.map StreamRecord.seq =
      (List.range r.records.length).map fun i : Nat => r.first + 1 + i := by
  have hnonneg := h.nonneg
  have hbound := h.bound
  have hlength : r.nextPosition.seq.toNat - r.first.toNat = r.records.length := by
    rw [StreamReadResponse.first] at hnonneg ⊢
    omega
  have hwindow := hnumbered.map_window r.first.toNat
    (show r.nextPosition.seq.toNat ≤ log.length by omega)
  calc r.records.map StreamRecord.seq
      = (window log r.first.toNat r.nextPosition.seq.toNat).map Prod.fst := by
        conv_lhs => rw [h.records]
        rw [List.map_map]
        rfl
    _ = (List.range r.records.length).map fun i : Nat => r.first + 1 + i := by
        rw [hwindow, hlength, Int.toNat_of_nonneg hnonneg]

theorem between (hnumbered : Numbered Prod.fst log) {r : StreamReadResponse} (h : Spans log r)
    {seq : Int} (hseq : seq ∈ r.records.map StreamRecord.seq) :
    r.first < seq ∧ seq ≤ r.nextPosition.seq := by
  rw [numbers hnumbered h, List.mem_map] at hseq
  obtain ⟨i, hi, rfl⟩ := hseq
  rw [List.mem_range] at hi
  rw [StreamReadResponse.first]
  omega

/-- No record comes twice, and none after a later one. -/
theorem increasing (hnumbered : Numbered Prod.fst log) (hspans : ∀ r ∈ responses, Spans log r)
    (hchain : responses.IsChain Next) :
    ((responses.flatMap StreamReadResponse.records).map StreamRecord.seq).Pairwise (· < ·) ∧
      ∀ last, responses.getLast? = some last →
        ∀ seq ∈ (responses.flatMap StreamReadResponse.records).map StreamRecord.seq,
          seq ≤ last.nextPosition.seq := by
  induction responses using List.reverseRecOn with
  | nil => exact ⟨List.Pairwise.nil, by simp⟩
  | append_singleton front r ih =>
      have hr := hspans r (by simp)
      obtain ⟨hfront, -, hnext⟩ := List.isChain_append.mp hchain
      obtain ⟨hpairwise, hbelow⟩ := ih (fun r' hr' => hspans r' (List.mem_append_left _ hr')) hfront
      have hold : ∀ seq ∈ (front.flatMap StreamReadResponse.records).map StreamRecord.seq,
          seq ≤ r.first := by
        intro seq hseq
        cases hlast : front.getLast? with
        | none => simp [List.getLast?_eq_none_iff.mp hlast] at hseq
        | some last =>
            have hle := hbelow last hlast seq hseq
            have hstep := (hnext last hlast r (by simp)).1
            omega
      have hmine : (r.records.map StreamRecord.seq).Pairwise (· < ·) := by
        rw [numbers hnumbered hr, List.pairwise_map]
        exact List.pairwise_lt_range.imp fun hlt => by omega
      rw [List.flatMap_append, List.flatMap_singleton, List.map_append]
      refine ⟨List.pairwise_append.mpr ⟨hpairwise, hmine, fun seq hseq seq' hseq' => ?_⟩,
        fun last hlast seq hseq => ?_⟩
      · have hle := hold seq hseq
        have hlt := (between hnumbered hr hseq').1
        omega
      · obtain rfl : r = last := by simpa using hlast
        rcases List.mem_append.mp hseq with hseq | hseq
        · have hle := hold seq hseq
          rw [StreamReadResponse.first] at hle
          omega
        · exact (between hnumbered hr hseq).2

/-- A reader that is never dropped gets one part of the log, without a gap. -/
theorem contiguous (hspans : ∀ r ∈ responses, Spans log r) (hchain : responses.IsChain Next)
    (hlive : ∀ r ∈ responses, r.state ≠ .dropped) {first last : StreamReadResponse}
    (hfirst : responses.head? = some first) (hlast : responses.getLast? = some last) :
    first.first ≤ last.nextPosition.seq ∧
      responses.flatMap StreamReadResponse.records =
        (window log first.first.toNat last.nextPosition.seq.toNat).map record := by
  induction responses using List.reverseRecOn generalizing last with
  | nil => simp at hfirst
  | append_singleton front r ih =>
      obtain rfl : r = last := by simpa using hlast
      have hr := hspans r (by simp)
      have hle : r.first ≤ r.nextPosition.seq := by
        rw [StreamReadResponse.first]
        omega
      obtain ⟨hfront, -, hnext⟩ := List.isChain_append.mp hchain
      rw [List.flatMap_append, List.flatMap_singleton]
      cases hprevious : front.getLast? with
      | none =>
          obtain rfl := List.getLast?_eq_none_iff.mp hprevious
          obtain rfl : r = first := by simpa using hfirst
          exact ⟨hle, hr.records⟩
      | some previous =>
          have hin := List.mem_of_getLast? hprevious
          obtain ⟨hbegins, hrecords⟩ := ih (fun r' hr' => hspans r' (List.mem_append_left _ hr'))
            hfront (fun r' hr' => hlive r' (List.mem_append_left _ hr'))
            (by rw [List.head?_append_of_ne_nil _ (List.ne_nil_of_mem hin)] at hfirst; exact hfirst)
            hprevious
          have hstep := (hnext previous hprevious r (by simp)).2
            (hlive previous (List.mem_append_left _ hin)) (hlive r (by simp))
          have hbound := hr.bound
          refine ⟨by omega, ?_⟩
          rw [hrecords, hr.records, ← List.map_append, hstep,
            window_append (by omega) (by omega) (by omega)]

end Spells

/-! ## Runs -/

theorem joined_isSome {id : String} {head : Int} {place : Option Int} {input : StreamInput}
    (h : (∃ request, input = .read id request) ∨ place.isSome = true)
    (hend : input ≠ .endStream id) : (joined id head place input).isSome = true := by
  rcases h with ⟨request, rfl⟩ | hplace
  · simp [joined]
  · cases input with
    | read streamId request =>
        simp only [joined]
        split
        · rfl
        · exact hplace
    | endStream streamId =>
        have hne : streamId ≠ id := fun heq => hend (by rw [heq])
        rw [joined, if_neg hne]
        exact hplace
    | _ => exact hplace

theorem mem_received {id : String} {out : List StreamOutput} {r : StreamReadResponse}
    (h : r ∈ received id out) : .readResponse r ∈ out ∧ r.streamId = id := by
  obtain ⟨o, ho, hsome⟩ := List.mem_filterMap.mp h
  cases o with
  | readResponse r' =>
      simp only at hsome
      split at hsome
      · obtain rfl := Option.some.inj hsome
        exact ⟨ho, by assumption⟩
      · simp at hsome
  | _ => simp at hsome

def emitted (capacityRecords : Nat) (capacity_pos : 0 < capacityRecords) (stopWhen : StopWhen)
    (inputs : List StreamInput) : List StreamOutput :=
  (outputs StreamNode.handle (StreamNode.new capacityRecords capacity_pos stopWhen) inputs).flatten

theorem emitted_concat (capacityRecords : Nat) (capacity_pos : 0 < capacityRecords)
    (stopWhen : StopWhen) (front : List StreamInput) (input : StreamInput) :
    emitted capacityRecords capacity_pos stopWhen (front ++ [input]) =
      emitted capacityRecords capacity_pos stopWhen front ++
        ((run capacityRecords capacity_pos stopWhen front).handle input).2 := by
  rw [emitted, outputs_append, List.flatten_append, ← emitted]
  simp [outputs, run]

/-- The responses of a run to a stream that is never ended. -/
theorem run_spells (capacityRecords : Nat) (capacity_pos : 0 < capacityRecords)
    (stopWhen : StopWhen) {inputs : List StreamInput} {id : String}
    (hend : .endStream id ∉ inputs) :
    Spells (logOf (accepted inputs))
      (received id (emitted capacityRecords capacity_pos stopWhen inputs))
      ((run capacityRecords capacity_pos stopWhen inputs).place id) := by
  induction inputs using List.reverseRecOn with
  | nil =>
      refine ⟨by simp [emitted, outputs, received], List.IsChain.nil,
        by simp [emitted, outputs, received], by simp [emitted, outputs, received], fun p hp => ?_⟩
      simp [run, after, StreamNode.place, StreamNode.new] at hp
  | append_singleton front input ih =>
      rw [List.mem_append, List.mem_singleton, not_or] at hend
      obtain ⟨hring, -, hterminal⟩ := run_ring capacityRecords capacity_pos stopWhen front
      have hstands := run_stands capacityRecords capacity_pos stopWhen front
      have hlog := logOf_accepted_concat hterminal hring input
      have hmoved := StreamNode.handle_moved hstands.inv hstands.sound hstands.settled hring
        input id
      have hstored := StreamNode.handle_stored hstands.inv hstands.settled hring input
      rw [run_concat, hlog, emitted_concat, received_append]
      refine (((ih hend.1).joined hring.head (Ne.symm hend.2)).append _).moved hmoved
        (fun hne => ?_) fun r hr => ?_
      · obtain ⟨r, hr⟩ := List.exists_mem_of_ne_nil _ hne
        obtain ⟨hout, rfl⟩ := mem_received hr
        refine joined_isSome ?_ (Ne.symm hend.2)
        rcases StreamNode.response_source hstands.inv hstands.sound hstands.settled input r hout with
          ⟨request, hread, -⟩ | ⟨⟨held, hheld⟩, -⟩
        · exact .inl ⟨request, hread⟩
        · obtain ⟨reader, hreader, -⟩ := Option.bind_eq_some_iff.mp hheld
          exact .inr (by rw [StreamNode.place, hreader]; rfl)
      · obtain ⟨hout, rfl⟩ := mem_received hr
        obtain ⟨m, reader, reader', request, hanswers⟩ := StreamNode.handle_answers hstands.inv
          hstands.sound hstands.settled hring input hout
        exact hanswers.position

theorem accepted_append (front more : List StreamInput) :
    ∃ later, accepted (front ++ more) = accepted front ++ later ∧
      (front.any StreamInput.ends = true → later = []) := by
  refine intake_append (fun i hi => ?_) front more
  cases i <;> simp_all [StreamInput.ends, StreamInput.payload?]

/-- A response that ends its stream is at the end of all that was pushed and ever will be. -/
theorem run_ended (capacityRecords : Nat) (capacity_pos : 0 < capacityRecords)
    (stopWhen : StopWhen) (inputs : List StreamInput) {r : StreamReadResponse}
    (hr : .readResponse r ∈ emitted capacityRecords capacity_pos stopWhen inputs)
    (hdata : r.state ≠ .data) (hblock : r.state ≠ .wouldBlock) (hdropped : r.state ≠ .dropped) :
    inputs.any StreamInput.ends = true ∧ r.nextPosition.seq = (accepted inputs).length := by
  induction inputs using List.reverseRecOn with
  | nil => simp [emitted, outputs] at hr
  | append_singleton front input ih =>
      obtain ⟨hring, -, hterminal⟩ := run_ring capacityRecords capacity_pos stopWhen front
      rw [emitted_concat, List.mem_append] at hr
      rcases hr with hold | hnew
      · obtain ⟨hends, hposition⟩ := ih hold
        obtain ⟨later, haccepted, hnone⟩ := accepted_append front [input]
        rw [haccepted, hnone hends, List.append_nil, List.any_append, hends]
        exact ⟨rfl, hposition⟩
      · have hstands := run_stands capacityRecords capacity_pos stopWhen front
        obtain ⟨m, reader, reader', request, hanswers⟩ := StreamNode.handle_answers hstands.inv
          hstands.sound hstands.settled hring input hnew
        obtain ⟨hends, hposition⟩ := hanswers.ended hdata hblock hdropped
        have hlast := (run_ring capacityRecords capacity_pos stopWhen (front ++ [input])).2.2
        rw [run_concat, hends] at hlast
        rw [← logOf_accepted_concat hterminal hring, logOf_length] at hposition
        exact ⟨hlast.symm, hposition⟩

end TautShape.Stream
