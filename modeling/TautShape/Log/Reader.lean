import TautShape.Log.Passage
import TautShape.Log.Eviction
/-!
# A reader of a log that is evicted under it

A stream whose reads each begin where its last response left it, in a run that evicts
whatever and whenever it likes.  Its responses are slices of the history that meet, and
what an expired cursor passes over has been evicted.
-/

namespace TautShape.Log

open TautShape.Lib

/-! ## Reads that begin where the last one ended -/

def answered (config : Config) (inputs : List Input) (id : StreamId) : List Response :=
  answersTo id (outputs LogNode.handle (LogNode.new config) inputs).flatten

def position (start : Nat) (rs : List Response) : Nat :=
  (rs.getLast?.map fun r => r.nextCursor.seq).getD start

/-- An input that reads the stream, if it does, from this position on. -/
def Input.Begins (id : StreamId) (start : Nat) : Input → Prop
  | .read s cursor _ _ => s = id → (cursor.getD Cursor.start).seq = start
  | _ => True

instance (id : StreamId) (start : Nat) : (input : Input) → Decidable (input.Begins id start)
  | .read s cursor _ _ =>
      inferInstanceAs (Decidable (s = id → (cursor.getD Cursor.start).seq = start))
  | .push _ | .seal | .close _ | .endStream _ | .timerExpired _ | .evict _ => .isTrue trivial

namespace LogNode

/-- The stream is never ended, and every read of it begins where its last response ended. -/
def Threaded (id : StreamId) : LogNode → Nat → List Input → Prop
  | _, _, [] => True
  | n, start, input :: rest => (input ≠ .endStream id ∧ input.Begins id start) ∧
      Threaded id (n.handle input).1 (position start (answersTo id (n.handle input).2)) rest

instance decidableThreaded (id : StreamId) :
    (n : LogNode) → (start : Nat) → (inputs : List Input) → Decidable (n.Threaded id start inputs)
  | _, _, [] => .isTrue trivial
  | n, start, input :: rest =>
      have := decidableThreaded id (n.handle input).1
        (position start (answersTo id (n.handle input).2)) rest
      inferInstanceAs (Decidable (_ ∧ _))

end LogNode

theorem position_append (start : Nat) (front back : List Response) :
    position (position start front) back = position start (front ++ back) := by
  cases hback : back.getLast? with
  | none =>
      rw [List.getLast?_eq_none_iff.mp hback, List.append_nil]
      rfl
  | some r => simp [position, List.getLast?_append, hback]

theorem position_concat (start : Nat) (rs : List Response) (r : Response) :
    position start (rs ++ [r]) = r.nextCursor.seq := by
  simp [position]

theorem threaded_concat {id : StreamId} (n : LogNode) (start : Nat) (front : List Input)
    (input : Input) : n.Threaded id start (front ++ [input]) ↔
      n.Threaded id start front ∧ input ≠ .endStream id ∧
        input.Begins id (position start (answersTo id (outputs LogNode.handle n front).flatten)) := by
  induction front generalizing n start with
  | nil => simp [LogNode.Threaded, outputs, answersTo, responses, position]
  | cons first rest ih =>
      rw [List.cons_append, LogNode.Threaded, ih, LogNode.Threaded, and_assoc, position_append]
      have houtputs : (outputs LogNode.handle n (first :: rest)).flatten =
          (n.handle first).2 ++ (outputs LogNode.handle (n.handle first).1 rest).flatten := rfl
      rw [houtputs, answersTo_append]
      simp only [and_assoc]

theorem answered_concat (config : Config) (front : List Input) (input : Input) (id : StreamId) :
    answered config (front ++ [input]) id =
      answered config front id ++ answersTo id ((run config front).handle input).2 := by
  rw [answered, outputs_append, List.flatten_append, answersTo_append]
  simp [outputs, answered, run]

theorem answersTo_eq_told (id : StreamId) (out : List Output) :
    answersTo id out = Desk.told id (out.map Output.reply) := by
  induction out with
  | nil => rfl
  | cons o rest ih =>
      have hone : answersTo id [o] = Desk.told id [o.reply] := by
        cases o with
        | response r => rw [answersTo_response, Output.reply, Desk.told_answer]
        | _ => rfl
      calc answersTo id (o :: rest) = answersTo id [o] ++ answersTo id rest :=
            answersTo_append id [o] rest
        _ = Desk.told id [o.reply] ++ Desk.told id (rest.map Output.reply) := by rw [hone, ih]
        _ = Desk.told id ((o :: rest).map Output.reply) := (Desk.told_append id [o.reply] _).symm

/-! ## What a response carries -/

/-- A response to a reader at a position: the slice from there to its next cursor, or, when
the position expired, the next cursor below the floor. -/
def Carries (h : List Bytes) (floor start : Nat) (r : Response) : Prop :=
  if r.state = .expired then
    r.records = [] ∧ start < r.nextCursor.seq ∧ r.nextCursor.seq < floor
  else start ≤ r.nextCursor.seq ∧ r.records = slice h start r.nextCursor.seq

/-- The responses of a reader.  Only a first position that is beyond the head is taken back. -/
structure Reader (h : List Bytes) (floor start : Nat) (rs : List Response) : Prop where
  first : ∀ r, rs.head? = some r → Carries h floor start r ∨
    r.state = .expired ∧ r.records = [] ∧ r.nextCursor.seq < start
  chain : rs.IsChain fun r r' => Carries h floor r.nextCursor.seq r'
  inside : ∀ r ∈ rs, r.nextCursor.seq ≤ h.length

variable {h later : List Bytes} {floor floor' start : Nat} {r : Response} {rs : List Response}

theorem Carries.mono (hcarries : Carries h floor start r) (hlater : h <+: later)
    (hfloor : floor ≤ floor') (hinside : r.nextCursor.seq ≤ h.length) :
    Carries later floor' start r := by
  unfold Carries at hcarries ⊢
  split at hcarries
  · rename_i hexpired
    rw [if_pos hexpired]
    exact ⟨hcarries.1, hcarries.2.1, hcarries.2.2.trans_le hfloor⟩
  · rename_i hexpired
    rw [if_neg hexpired, slice_of_extends hlater hinside]
    exact hcarries

theorem Carries.le (hcarries : Carries h floor start r) : start ≤ r.nextCursor.seq := by
  unfold Carries at hcarries
  split at hcarries
  · exact hcarries.2.1.le
  · exact hcarries.1

theorem Reader.mono (hreader : Reader h floor start rs) (hlater : h <+: later)
    (hfloor : floor ≤ floor') : Reader later floor' start rs := by
  refine ⟨fun r hr => ?_, ?_, fun r hr => (hreader.inside r hr).trans hlater.length_le⟩
  · have hinside := hreader.inside r (List.mem_of_mem_head? hr)
    exact (hreader.first r hr).imp_left fun hcarries => hcarries.mono hlater hfloor hinside
  · refine hreader.chain.imp_of_mem_imp fun r r' _ hr' hcarries => ?_
    exact hcarries.mono hlater hfloor (hreader.inside r' hr')

theorem Reader.left_of_append {more : List Response}
    (hreader : Reader h floor start (rs ++ more)) : Reader h floor start rs := by
  refine ⟨fun r hr => hreader.first r ?_, hreader.chain.left_of_append,
    fun r hr => hreader.inside r (List.mem_append_left _ hr)⟩
  cases rs with
  | nil => simp at hr
  | cons first rest => exact hr

theorem Reader.concat (hreader : Reader h floor start rs)
    (hfirst : rs = [] → Carries h floor start r ∨
      r.state = .expired ∧ r.records = [] ∧ r.nextCursor.seq < start)
    (hnext : rs ≠ [] → Carries h floor (position start rs) r)
    (hinside : r.nextCursor.seq ≤ h.length) : Reader h floor start (rs ++ [r]) := by
  refine ⟨fun r' hr' => ?_, ?_, fun r' hr' => ?_⟩
  · cases rs with
    | nil =>
        obtain rfl : r = r' := by simpa using hr'
        exact hfirst rfl
    | cons r₀ rest => exact hreader.first r' hr'
  · refine List.isChain_append.mpr ⟨hreader.chain, List.isChain_singleton r,
      fun last hlast r' hr' => ?_⟩
    obtain rfl : r = r' := by simpa using hr'
    have hne : rs ≠ [] := by
      rintro rfl
      simp at hlast
    have hcarries := hnext hne
    rw [position, hlast] at hcarries
    exact hcarries
  · rcases List.mem_append.mp hr' with hr' | hr'
    · exact hreader.inside r' hr'
    · rw [List.mem_singleton.mp hr']
      exact hinside

/-- Over a log that evicts nothing, a reader from the beginning gets everything up to where
it stands. -/
theorem Reader.whole (hreader : Reader h 0 0 rs) :
    rs.flatMap Response.records = slice h 0 (position 0 rs) := by
  induction rs using List.reverseRecOn with
  | nil => exact (slice_self h 0).symm
  | append_singleton front r ih =>
      have hfront := ih hreader.left_of_append
      have hcarries : Carries h 0 (position 0 front) r := by
        cases hlast : front.getLast? with
        | none =>
            obtain rfl := List.getLast?_eq_none_iff.mp hlast
            exact (hreader.first r rfl).resolve_right fun hback => by omega
        | some last =>
            have hchain := (List.isChain_append.mp hreader.chain).2.2 last hlast r rfl
            rw [position, hlast]
            exact hchain
      have hstep := hcarries.le
      rw [List.flatMap_append, hfront, List.flatMap_singleton, position_concat]
      unfold Carries at hcarries
      split at hcarries
      · omega
      · rw [hcarries.2, slice_append (Nat.zero_le _) hstep]

theorem Resolves.carries {n : LogNode} (hholds : n.window.Holds h) {id : StreamId}
    {cursor : Cursor} {limits : Limits} (hresolves : Resolves n id cursor limits r) :
    r.nextCursor.seq ≤ h.length ∧ (Carries h n.floor cursor.seq r ∨
      h.length < cursor.seq ∧ r.state = .expired ∧ r.records = [] ∧
        r.nextCursor.seq < cursor.seq) := by
  have hlength : n.head = h.length := hholds.head_eq
  have hbound : n.floor ≤ h.length + 1 := hholds.floor_le
  have hspec := n.classify_spec cursor
  rcases hresolves with hanswer | ⟨hhead, rfl⟩
  · unfold LogNode.answerOf at hanswer
    generalize n.classify cursor = resolution at hanswer hspec
    cases hspec with
    | ahead hahead =>
        obtain rfl := Option.some.inj hanswer
        exact ⟨hlength.le, .inr ⟨by omega, rfl, rfl, hahead⟩⟩
    | behind hbehind hhead =>
        obtain rfl := Option.some.inj hanswer
        refine ⟨by simp only; omega, .inl ?_⟩
        rw [Carries, if_pos rfl]
        exact ⟨rfl, by simp only; omega, by simp only; omega⟩
    | data hhead hfloor =>
        obtain rfl := Option.some.inj hanswer
        obtain ⟨hscan, hle, hend⟩ := hholds.scan_slice hfloor (hlength ▸ hhead.le) limits
        refine ⟨hend, .inl ?_⟩
        rw [Carries, if_neg (by simp)]
        exact ⟨hle, hscan⟩
    | terminal hhead state error hstate =>
        obtain rfl := Option.some.inj hanswer
        refine ⟨by simp only; omega, .inl ?_⟩
        rw [Carries, if_neg]
        · exact ⟨le_rfl, (slice_self h cursor.seq).symm⟩
        · rintro rfl
          simp at hstate
    | caughtUpLive _ _ => simp at hanswer
  · refine ⟨by simp only; omega, .inl ?_⟩
    rw [Carries, if_neg (by simp)]
    exact ⟨le_rfl, (slice_self h cursor.seq).symm⟩

/-! ## Runs -/

structure Reads (config : Config) (inputs : List Input) (id : StreamId) (start : Nat) : Prop where
  reader : Reader (history config inputs) (run config inputs).floor start
    (answered config inputs id)
  held : ∀ held, (run config inputs).sessions.heldOf id = some held →
    held.cursor.seq = position start (answered config inputs id)

theorem Reader.position_le (hreader : Reader h floor start rs) (hne : rs ≠ []) :
    position start rs ≤ h.length := by
  obtain ⟨last, hlast⟩ := Option.ne_none_iff_exists'.mp (mt List.getLast?_eq_none_iff.mp hne)
  rw [position, hlast]
  exact hreader.inside last (List.mem_of_getLast? hlast)

theorem Reader.told (hreader : Reader h floor start rs) {n : LogNode} (hholds : n.window.Holds later)
    (hlater : h <+: later) (hfloor : floor ≤ n.floor) {id : StreamId} {w : Want}
    (hcursor : w.cursor.seq = position start rs) (htells : n.Says id w r) :
    Reader later n.floor start (rs ++ [r]) := by
  obtain ⟨hinside, hcarries⟩ := Resolves.carries hholds htells
  rw [hcursor] at hcarries
  refine (hreader.mono hlater hfloor).concat (fun hnil => ?_) (fun hne => ?_) hinside
  · subst hnil
    exact hcarries.imp_right fun hback => hback.2
  · refine hcarries.resolve_right fun hback => ?_
    have hle := (hreader.position_le hne).trans hlater.length_le
    omega

theorem run_reads (config : Config) (id : StreamId) (start : Nat) (inputs : List Input)
    (hthreaded : (LogNode.new config).Threaded id start inputs) :
    Reads config inputs id start := by
  induction inputs using List.reverseRecOn with
  | nil =>
      refine ⟨⟨by simp [answered, outputs, answersTo, responses],
        by simp [answered, outputs, answersTo, responses],
        by simp [answered, outputs, answersTo, responses]⟩, fun held hheld => ?_⟩
      simp [run, LogNode.new, Table.new, Table.heldOf] at hheld
  | append_singleton front input ih =>
      obtain ⟨hfront, hend, hbegins⟩ := (threaded_concat _ start front input).mp hthreaded
      have hold := ih hfront
      have hstays : input.wants ≠ .leave id := by
        cases input <;> simp_all [Input.wants]
      have hlater : history config front <+: history config (front ++ [input]) :=
        history_extends config (List.prefix_append front [input])
      have hfloor := run_floor_le config front input
      have hholds := run_holds config (front ++ [input])
      have hpassed := LogNode.handle_passed (run_wf config front) (run_tail config front)
        (run_ranked config front) hstays
      -- What the stream waits for begins where it stands.
      have hpending : ∀ w, (run config front).desk.pending id input.wants = some w →
          w.cursor.seq = position start (answered config front id) := by
        intro w hw
        rcases Option.or_eq_some_iff.mp hw with hrequest | ⟨-, hkept⟩
        · cases input with
          | read s cursor limits timeoutMs =>
              simp only [Input.wants, Ask.request?] at hrequest
              split at hrequest
              · rename_i heq
                obtain rfl := Option.some.inj hrequest
                exact hbegins heq
              · simp at hrequest
          | _ => simp [Input.wants, Ask.request?] at hrequest
        · rw [LogNode.desk_kept, Option.map_map] at hkept
          obtain ⟨held, hheld, rfl⟩ := Option.map_eq_some_iff.mp hkept
          exact hold.held held hheld
      have hwindow := run_concat config front input
      rw [← hwindow] at hpassed
      have hheldOf : ∀ held, (run config (front ++ [input])).sessions.heldOf id = some held →
          ((run config (front ++ [input])).desk.kept id).map Kept.request =
            some ⟨held.cursor, held.limits⟩ := by
        intro held hheld
        rw [LogNode.desk_kept, hheld]
        rfl
      cases hpassed with
      | told w r hw htells htold hkept =>
          rw [← answersTo_eq_told] at htold
          refine ⟨?_, fun held hheld => ?_⟩
          · rw [answered_concat, htold]
            exact hold.reader.told hholds hlater hfloor (hpending w hw) htells
          · have hsome := hheldOf held hheld
            have hnone : (run config (front ++ [input])).desk.kept id = none := hkept
            rw [hnone] at hsome
            simp at hsome
      | untold htold hkept =>
          rw [← answersTo_eq_told] at htold
          refine ⟨?_, fun held hheld => ?_⟩
          · rw [answered_concat, htold, List.append_nil]
            exact hold.reader.mono hlater hfloor
          · rw [answered_concat, htold, List.append_nil]
            exact hpending _ (hkept.symm.trans (hheldOf held hheld))

theorem run_floor_of_not_evict (config : Config) {inputs : List Input}
    (hkept : ∀ i ∈ inputs, ∀ upToSeq, i ≠ .evict upToSeq) : (run config inputs).floor = 0 := by
  induction inputs using List.reverseRecOn with
  | nil => rfl
  | append_singleton front input ih =>
      have hfront := ih fun i hi => hkept i (List.mem_append_left _ hi)
      obtain ⟨L, -, hbooks, -⟩ := run_books config front
      rw [run_concat, LogNode.floor, hbooks.window_handle input, Window.floor_react]
      cases input with
      | evict upToSeq => exact absurd rfl (hkept _ (by simp) upToSeq)
      | _ => exact hfront

/-! ## What a reader misses -/

/-- Everything between two positions of a reader comes in order and at most once, and what
does not come was evicted. -/
theorem chain_records {first : Response}
    (hchain : (first :: rs).IsChain fun r r' => Carries h floor r.nextCursor.seq r') :
    first.nextCursor.seq ≤ position first.nextCursor.seq rs ∧
      (rs.flatMap Response.records).Sublist
        (slice h first.nextCursor.seq (position first.nextCursor.seq rs)) ∧
      ∀ record ∈ slice h first.nextCursor.seq (position first.nextCursor.seq rs),
        floor ≤ record.seq → record ∈ rs.flatMap Response.records := by
  induction rs generalizing first with
  | nil =>
      have hsame : position first.nextCursor.seq [] = first.nextCursor.seq := rfl
      rw [hsame, slice_self]
      exact ⟨le_rfl, List.Sublist.refl _, by simp⟩
  | cons r rest ih =>
      rw [List.isChain_cons_cons] at hchain
      obtain ⟨hcarries, hrest⟩ := hchain
      obtain ⟨hle, hsublist, hmissed⟩ := ih hrest
      have hlast : position first.nextCursor.seq (r :: rest) = position r.nextCursor.seq rest :=
        (position_append first.nextCursor.seq [r] rest).symm
      have hstep := hcarries.le
      rw [hlast, List.flatMap_cons, ← slice_append hstep hle]
      unfold Carries at hcarries
      split at hcarries
      · obtain ⟨hnone, -, hevicted⟩ := hcarries
        rw [hnone, List.nil_append]
        refine ⟨hstep.trans hle, hsublist.trans (List.sublist_append_right _ _),
          fun record hrecord hfloor => ?_⟩
        rcases List.mem_append.mp hrecord with hrecord | hrecord
        · have hseq := (seq_of_mem_slice hrecord).2
          omega
        · exact hmissed record hrecord hfloor
      · obtain ⟨-, hrecords⟩ := hcarries
        rw [hrecords]
        refine ⟨hstep.trans hle, (List.Sublist.refl _).append hsublist,
          fun record hrecord hfloor => ?_⟩
        rcases List.mem_append.mp hrecord with hrecord | hrecord
        · exact List.mem_append_left _ hrecord
        · exact List.mem_append_right _ (hmissed record hrecord hfloor)

/-- **Eviction under a reader.**  A reader that goes on from each of its responses, whatever
is pushed and evicted meanwhile and whatever others do, gets every record after its first
response in order and at most once, up to where it stands, and what it does not get has been
evicted; what it waits for is what was pushed since. -/
theorem reader_misses_evicted (config : Config) (inputs : List Input) (id : StreamId) (start : Nat)
    (hthreaded : (LogNode.new config).Threaded id start inputs) (first : Response)
    (rest : List Response) (hanswered : answered config inputs id = first :: rest) :
    let n := run config inputs
    let since := slice (history config inputs) first.nextCursor.seq
      (position first.nextCursor.seq rest)
    (rest.flatMap Response.records).Sublist since ∧
    (∀ record ∈ since, record ∉ rest.flatMap Response.records → record.seq < n.floor) ∧
    (first.state ≠ .expired →
      first.records = slice (history config inputs) start first.nextCursor.seq) ∧
    position first.nextCursor.seq rest ≤ n.head ∧
    ∀ held, n.sessions.heldOf id = some held →
      held.cursor.seq = n.head ∧ position first.nextCursor.seq rest = n.head := by
  intro n since
  obtain ⟨hreader, hheld⟩ := run_reads config id start inputs hthreaded
  rw [hanswered] at hreader hheld
  obtain ⟨-, hsublist, hmissed⟩ := chain_records hreader.chain
  have hlast : position start (first :: rest) = position first.nextCursor.seq rest :=
    (position_append start [first] rest).symm
  have hhead : n.head = (history config inputs).length := (run_holds config inputs).head_eq
  refine ⟨hsublist, fun record hrecord habsent => ?_, fun hexpired => ?_, ?_, fun held hsome => ?_⟩
  · by_contra hfloor
    exact habsent (hmissed record hrecord (not_lt.mp hfloor))
  · rcases hreader.first first rfl with hcarries | hback
    · rw [Carries, if_neg hexpired] at hcarries
      exact hcarries.2
    · exact absurd hback.1 hexpired
  · rw [hhead, ← hlast]
    exact hreader.position_le (by simp)
  · have htail := (run_tail config inputs id held hsome).2
    have hwas := hheld held hsome
    rw [hlast] at hwas
    exact ⟨htail, hwas.symm.trans htail⟩

/-- A reader that is overtaken by an eviction. -/
theorem reader_misses_evicted_overtaken :
    let inputs : List Input := [.push [1], .read "s" none ⟨none, none⟩ none, .push [2], .push [3],
      .push [4], .evict 3, .read "s" (some ⟨1⟩) ⟨none, none⟩ none,
      .read "s" (some ⟨3⟩) ⟨none, none⟩ none]
    answered ⟨.lastReader⟩ inputs "s" = [⟨"s", [⟨1, [1]⟩], ⟨1⟩, .data, none⟩,
      ⟨"s", [], ⟨3⟩, .expired, none⟩, ⟨"s", [⟨4, [4]⟩], ⟨4⟩, .data, none⟩] ∧
      [(⟨4, [4]⟩ : Record)].Sublist (slice (history ⟨.lastReader⟩ inputs) 1 4) := by
  intro inputs
  have hmisses := reader_misses_evicted ⟨.lastReader⟩ inputs "s" 0 (by decide)
    ⟨"s", [⟨1, [1]⟩], ⟨1⟩, .data, none⟩
    [⟨"s", [], ⟨3⟩, .expired, none⟩, ⟨"s", [⟨4, [4]⟩], ⟨4⟩, .data, none⟩] (by decide)
  exact ⟨by decide, hmisses.1⟩

end TautShape.Log
