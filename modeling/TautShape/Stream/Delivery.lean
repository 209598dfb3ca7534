import TautShape.Stream.Places
/-!
# Delivery

A reader stays from the read that creates it until it is dropped or ended.  `follow` keeps
what it was given during that stay, by looking at the outputs alone; it is a stretch of
the log of all pushes, which begins at the head that the reader found.
-/

namespace TautShape.Stream

open TautShape.Lib TautShape.Held
open TautShape.Log (Bytes StopWhen)

/-- One stay of a reader: the head that it found, and the records it was given since. -/
structure Stay where
  birth : Int
  delivered : List StreamRecord
deriving DecidableEq, Repr

def Stay.next (id : String) (head : Int) (stay : Option Stay) (input : StreamInput)
    (out : List StreamOutput) : Option Stay :=
  if (received id out).any fun r => r.state = .dropped then none
  else (joined id ⟨head, []⟩ stay input).map fun stay =>
    { stay with
      delivered := stay.delivered ++ (received id out).flatMap StreamReadResponse.records }

def follow (id : String) (s : StreamNode × Option Stay) (input : StreamInput) :
    StreamNode × Option Stay :=
  ((s.1.handle input).1, Stay.next id s.1.head s.2 input (s.1.handle input).2)

def stayOf (capacityRecords : Nat) (capacity_pos : 0 < capacityRecords) (stopWhen : StopWhen)
    (id : String) (inputs : List StreamInput) : Option Stay :=
  (inputs.foldl (follow id) (StreamNode.new capacityRecords capacity_pos stopWhen, none)).2

theorem follow_fst (id : String) (s : StreamNode × Option Stay) (inputs : List StreamInput) :
    (inputs.foldl (follow id) s).1 = after StreamNode.handle s.1 inputs := by
  induction inputs generalizing s with
  | nil => rfl
  | cons input rest ih => exact ih (follow id s input)

theorem stayOf_concat (capacityRecords : Nat) (capacity_pos : 0 < capacityRecords)
    (stopWhen : StopWhen) (id : String) (front : List StreamInput) (input : StreamInput) :
    let n := run capacityRecords capacity_pos stopWhen front
    stayOf capacityRecords capacity_pos stopWhen id (front ++ [input]) =
      Stay.next id n.head (stayOf capacityRecords capacity_pos stopWhen id front) input
        (n.handle input).2 := by
  simp only [stayOf, List.foldl_append, List.foldl_cons, List.foldl_nil, follow, follow_fst, run]

/-! ## Stays in the log -/

/-- A stay as a stretch of the log, which ends at the reader's place. -/
inductive Follows (log : List (Int × Bytes)) : Option Stay → Option Int → Prop
  | away : Follows log none none
  | there (stay : Stay) (hbirth : 0 ≤ stay.birth)
      (hend : stay.birth + stay.delivered.length ≤ log.length)
      (hdelivered : stay.delivered = (window log stay.birth.toNat
        (stay.birth.toNat + stay.delivered.length)).map record) :
      Follows log (some stay) (some (stay.birth + stay.delivered.length))

namespace Follows

variable {log : List (Int × Bytes)} {stay : Option Stay} {place : Option Int}

theorem fresh {head : Int} (hhead : head = log.length) :
    Follows log (some ⟨head, []⟩) (some head) := by
  have hpos : 0 ≤ head := by omega
  have hthere : Follows log (some ⟨head, []⟩) (some (head + (0 : Nat))) :=
    .there ⟨head, []⟩ hpos (by simp only [List.length_nil]; omega) (by
      rw [List.length_nil, Nat.add_zero, window_self, List.map_nil])
  rw [Nat.cast_zero, Int.add_zero] at hthere
  exact hthere

theorem joined (h : Follows log stay place) {head : Int} (hhead : head = log.length)
    (id : String) (input : StreamInput) :
    Follows log (joined id ⟨head, []⟩ stay input) (joined id head place input) := by
  cases input with
  | read streamId request =>
      simp only [Stream.joined]
      split
      · cases h with
        | away => exact fresh hhead
        | there stay hbirth hend hdelivered => exact .there stay hbirth hend hdelivered
      · exact h
  | endStream streamId =>
      simp only [Stream.joined]
      split
      · exact .away
      · exact h
  | _ => exact h

theorem append (h : Follows log stay place) (more : List (Int × Bytes)) :
    Follows (log ++ more) stay place := by
  cases h with
  | away => exact .away
  | there stay hbirth hend hdelivered =>
      refine .there stay hbirth ?_ ?_
      · rw [List.length_append]
        omega
      · rw [window_of_append (by omega)]
        exact hdelivered

theorem moved (h : Follows log stay place) {told : List StreamReadResponse} {place' : Option Int}
    (hmoved : Moved log place told place') :
    Follows log (if told.any fun r => r.state = .dropped then none
      else stay.map fun stay =>
        { stay with delivered := stay.delivered ++ told.flatMap StreamReadResponse.records })
      place' := by
  cases hmoved with
  | silent =>
      simp only [List.any_nil, Bool.false_eq_true, if_false, List.flatMap_nil, List.append_nil]
      rw [Option.map_id']
      exact h
  | dropped _ r hstate =>
      rw [List.any_cons, List.any_nil, Bool.or_false, decide_eq_true hstate, if_pos rfl]
      exact .away
  | told start stop r hstate hpos hle hend hrecords =>
      cases h with
      | there stay hbirth hlast hdelivered =>
          have hlength : r.records.length =
              stop.toNat - (stay.birth + stay.delivered.length).toNat := by
            rw [hrecords, List.length_map, window_length (by omega)]
          have hstop : stop = stay.birth + (stay.delivered ++ r.records).length := by
            rw [List.length_append, hlength]
            omega
          have hstart : (stay.birth + stay.delivered.length).toNat =
              stay.birth.toNat + stay.delivered.length := by omega
          have hall : stay.delivered ++ r.records = (window log stay.birth.toNat
              (stay.birth.toNat + (stay.delivered ++ r.records).length)).map record := by
            have hto : stay.birth.toNat + (stay.delivered ++ r.records).length = stop.toNat := by
              omega
            calc stay.delivered ++ r.records
                = (window log stay.birth.toNat (stay.birth.toNat + stay.delivered.length) ++
                    window log (stay.birth.toNat + stay.delivered.length) stop.toNat).map
                      record := by
                  rw [List.map_append, ← hdelivered, hrecords, hstart]
              _ = (window log stay.birth.toNat stop.toNat).map record := by
                  rw [window_append (by omega) (by omega) (by omega)]
              _ = _ := by rw [hto]
          rw [List.any_cons, List.any_nil, Bool.or_false, decide_eq_false hstate,
            if_neg Bool.false_ne_true, List.flatMap_singleton, Option.map_some, hstop]
          exact .there ⟨stay.birth, stay.delivered ++ r.records⟩ hbirth (by
            simp only
            omega) hall

end Follows

theorem run_follows (capacityRecords : Nat) (capacity_pos : 0 < capacityRecords)
    (stopWhen : StopWhen) (inputs : List StreamInput) (id : String) :
    Follows (logOf (accepted inputs)) (stayOf capacityRecords capacity_pos stopWhen id inputs)
      ((run capacityRecords capacity_pos stopWhen inputs).place id) := by
  induction inputs using List.reverseRecOn with
  | nil => exact .away
  | append_singleton front input ih =>
      obtain ⟨hring, -, hterminal⟩ := run_ring capacityRecords capacity_pos stopWhen front
      have hstands := run_stands capacityRecords capacity_pos stopWhen front
      have hmoved := StreamNode.handle_moved hstands.inv hstands.sound hstands.settled hring
        input id
      rw [run_concat, stayOf_concat, logOf_accepted_concat hterminal hring]
      exact ((ih.joined hring.head id input).append _).moved hmoved

theorem mem_logOf {pushed : List Bytes} {p : Int × Bytes} (h : p ∈ logOf pushed) :
    pushed[(p.1 - 1).toNat]? = some p.2 := by
  rw [logOf, List.mem_map] at h
  obtain ⟨⟨payload, i⟩, hin, rfl⟩ := h
  have hget := List.mem_zipIdx_iff_getElem?.mp hin
  have hindex : ((i : Int) + 1 - 1).toNat = i := by omega
  rw [hindex]
  exact hget

/-- What was delivered during a stay is what was pushed, one record after another. -/
structure Stay.Faithful (pushed : List Bytes) (stay : Stay) : Prop where
  birth : 0 ≤ stay.birth
  consecutive : stay.delivered.map StreamRecord.seq =
    (List.range stay.delivered.length).map fun i : Nat => stay.birth + 1 + i
  payloads : ∀ r ∈ stay.delivered, pushed[(r.seq - 1).toNat]? = some r.payload

theorem Follows.faithful {pushed : List Bytes} {stay : Stay} {place : Option Int}
    (h : Follows (logOf pushed) (some stay) place) :
    place = some (stay.birth + stay.delivered.length) ∧
      stay.birth + stay.delivered.length ≤ pushed.length ∧ stay.Faithful pushed := by
  cases h with
  | there _ hbirth hend hdelivered =>
      rw [logOf_length] at hend
      refine ⟨rfl, hend, hbirth, ?_, ?_⟩
      · have hin : stay.birth.toNat + stay.delivered.length ≤ (logOf pushed).length := by
          rw [logOf_length]
          omega
        have hwindow := (logOf_numbered pushed).map_window stay.birth.toNat hin
        have hlength : stay.birth.toNat + stay.delivered.length - stay.birth.toNat =
            stay.delivered.length := by omega
        calc stay.delivered.map StreamRecord.seq
            = (window (logOf pushed) stay.birth.toNat
                (stay.birth.toNat + stay.delivered.length)).map Prod.fst := by
              conv_lhs => rw [hdelivered]
              rw [List.map_map]
              rfl
          _ = (List.range stay.delivered.length).map fun i : Nat => stay.birth + 1 + i := by
              rw [hwindow, hlength, Int.toNat_of_nonneg hbirth]
      · intro r hr
        rw [hdelivered, List.mem_map] at hr
        obtain ⟨p, hp, rfl⟩ := hr
        exact mem_logOf (List.mem_of_mem_take (List.mem_of_mem_drop hp))

/-! ## Whole runs -/

/-- A read of a reader that the ring has left behind is answered Dropped, and no other is. -/
theorem StreamNode.read_dropped_iff {n : StreamNode} {log : List (Int × Bytes)} (h : n.Wf)
    (hsound : n.desk.Sound) (hsettled : n.desk.Settled n.policy) (hring : Ring log n)
    (id : String) (request : Request) :
    (∃ r, .readResponse r ∈ (n.handle (.read id request)).2 ∧ r.state = .dropped) ↔
      ∃ reader, n.readers[id]? = some reader ∧
        (n.capacityRecords : Int) < n.head - reader.cursor := by
  have hhead : (n.handle (.read id request)).1.head = n.head := (n.read_frame id request).2.1
  constructor
  · intro hdropped
    obtain ⟨r, hr, hstate⟩ := hdropped
    have hname := n.answer_name id request r (n.answer_of_response hr)
    have hfar := (dropped_iff h hsound hsettled hring (.read id request) r hr).mp hstate
    rw [hname, hhead] at hfar
    exact hfar
  · intro hfar
    obtain ⟨reader, hentry, hlag⟩ := hfar
    have hanswer := answer_far hring hentry hlag request
    exact ⟨_, response_of_answer hanswer, rfl⟩

/-- **Delivery.**  The ring holds the last pushes, as many as it has room for.  A stream
has a reader exactly during its stay, and was given then, one after another, the records
pushed since it came.  A read is answered Dropped exactly if the ring has left its reader
behind, and the reader is gone then. -/
theorem delivery_law (capacityRecords : Nat) (capacity_pos : 0 < capacityRecords)
    (stopWhen : StopWhen) (inputs : List StreamInput) :
    let n := run capacityRecords capacity_pos stopWhen inputs
    let pushed := accepted inputs
    (n.head = pushed.length ∧
      n.payloads.toList = (logOf pushed).drop (pushed.length - capacityRecords) ∧
      (n.payloads.size : Int) = min n.head capacityRecords ∧
      n.floor = n.head - min n.head capacityRecords + 1) ∧
    (∀ id, match stayOf capacityRecords capacity_pos stopWhen id inputs with
      | none => id ∉ n.readers
      | some stay => stay.Faithful pushed ∧ stay.birth + stay.delivered.length ≤ n.head ∧
          ∃ reader, n.readers[id]? = some reader ∧
            reader.cursor = stay.birth + stay.delivered.length) ∧
    (∀ id request,
      (∃ r, .readResponse r ∈ (n.handle (.read id request)).2 ∧ r.state = .dropped) ↔
        ∃ reader, n.readers[id]? = some reader ∧
          (capacityRecords : Int) < n.head - reader.cursor) ∧
    ∀ input r, .readResponse r ∈ (n.handle input).2 →
      let n' := (n.handle input).1
      (r.state = .dropped ↔ ∃ reader, n.readers[r.streamId]? = some reader ∧
        (capacityRecords : Int) < n'.head - reader.cursor) ∧
      (r.state = .dropped → r.streamId ∉ n'.order ∧ r.streamId ∉ n'.readers) := by
  intro n pushed
  obtain ⟨hring, hcapacity, -⟩ := run_ring capacityRecords capacity_pos stopWhen inputs
  obtain ⟨hwf, hsound, hsettled, -, -⟩ := run_stands capacityRecords capacity_pos stopWhen inputs
  have hlength : (logOf pushed).length = pushed.length := logOf_length pushed
  have hhead : n.head = pushed.length := hring.head.trans (congrArg Nat.cast hlength)
  have hcapacity' : n.capacityRecords = capacityRecords := hcapacity
  refine ⟨⟨hhead, ?_, ?_, ?_⟩, ?_, ?_, ?_⟩
  · rw [hring.payloads, hcapacity, hlength]
  · rw [hring.size_eq, hcapacity, hlength, hhead, Nat.cast_min]
  · rw [hring.floor_eq, hcapacity, hlength, hhead, Nat.cast_min]
  · intro id
    have hfollows := run_follows capacityRecords capacity_pos stopWhen inputs id
    cases hstay : stayOf capacityRecords capacity_pos stopWhen id inputs with
    | none =>
        rw [hstay] at hfollows
        have hnone : n.readers[id]? = none := by
          generalize hplace : n.place id = place at hfollows
          cases hfollows with
          | away => exact Option.map_eq_none_iff.mp hplace
        rw [Std.ExtTreeMap.mem_iff_isSome_getElem?, hnone]
        simp
    | some stay =>
        rw [hstay] at hfollows
        obtain ⟨hplace, hle, hfaithful⟩ := hfollows.faithful
        obtain ⟨reader, hentry, hcursor⟩ := Option.map_eq_some_iff.mp hplace
        refine ⟨hfaithful, ?_, reader, hentry, hcursor⟩
        rw [hhead]
        exact hle
  · intro id request
    rw [← hcapacity']
    exact StreamNode.read_dropped_iff hwf hsound hsettled hring id request
  · intro input r hr
    rw [← hcapacity']
    exact ⟨StreamNode.dropped_iff hwf hsound hsettled hring input r hr,
      StreamNode.gone_of_dropped hwf hsound hsettled hring input r hr⟩

/-- With room for one record, a reader that misses two pushes is dropped. -/
theorem delivery_law_overtaken :
    let n := run 1 Nat.one_pos .lastReader
      [.read "s" ⟨none, none, some 0⟩, .push [1], .push [2]]
    ∃ r, .readResponse r ∈ (n.handle (.read "s" ⟨none, none, none⟩)).2 ∧ r.state = .dropped := by
  intro n
  have hreads := (delivery_law 1 Nat.one_pos .lastReader
    [.read "s" ⟨none, none, some 0⟩, .push [1], .push [2]]).2.2.1
  exact (hreads "s" ⟨none, none, none⟩).mpr ⟨⟨0, none⟩, by decide, by decide⟩

/-- A reader that takes one record at a time, and comes back after it was dropped. -/
example : stayOf 1 Nat.one_pos .lastReader "s"
    [.push [1], .read "s" ⟨none, none, some 0⟩, .push [2], .push [3],
      .read "s" ⟨some 1, none, none⟩, .read "s" ⟨some 1, none, none⟩, .push [4]] =
    some ⟨3, [⟨4, [4]⟩]⟩ := by
  decide

end TautShape.Stream
