import TautShape.Atom.Protocol
/-!
# What the reader of an atom has

A reader that asks with the version it was given last.  Replacements may coalesce between
two of its reads, but what it gets is the latest value, and it is told that there is
nothing new only when it has that value.
-/

namespace TautShape.Atom

open TautShape.Lib TautShape.Held
open TautShape.Log (Bytes StopWhen)

def heard (stopWhen : StopWhen) (streamId : String) (inputs : List AtomInput) :
    List AtomReadResponse :=
  Desk.told streamId (Ledger.replies (exchange stopWhen inputs))

def lastVersion (responses : List AtomReadResponse) : Option AtomVersion :=
  responses.getLast?.map AtomReadResponse.nextVersion

def lastValue (responses : List AtomReadResponse) : Option AtomValue :=
  (responses.filterMap AtomReadResponse.value).getLast?

def dataVersions (responses : List AtomReadResponse) : List Int :=
  (responses.filter (·.state = .data)).map (·.nextVersion.version)

def latest (payloads : List Bytes) : Option AtomValue :=
  payloads.getLast?.map (⟨payloads.length, ·⟩)

/-- Every read of the stream carries the version that its reader was given last. -/
def Threads (stopWhen : StopWhen) (streamId : String) (inputs : List AtomInput) : Prop :=
  ∀ front request, front ++ [.read streamId request] <+: inputs →
    request.version = lastVersion (heard stopWhen streamId front)

/-! ## One response -/

/-- A response that is right once these payloads were taken: the last of them to a reader
that lacks it, and otherwise nothing. -/
structure Right (payloads : List Bytes) (known : Int) (r : AtomReadResponse) : Prop where
  nextVersion : r.nextVersion = ⟨payloads.length⟩
  data : r.state = .data → known < payloads.length ∧ r.value = latest payloads
  same : r.state ≠ .data → payloads.length ≤ known ∧ r.value = none

theorem AtomNode.resolve_right {n : AtomNode} {payloads : List Bytes}
    (hversion : n.version = payloads.length) (hpayload : n.payload = payloads.getLast?)
    {atomId streamId : String} {known : Int} {timeoutMs : Option Int} {r : AtomReadResponse}
    (hr : n.resolve atomId streamId known timeoutMs = some r) : Right payloads known r := by
  unfold AtomNode.resolve at hr
  rw [hversion, hpayload] at hr
  split at hr
  · rename_i hbehind
    obtain rfl := Option.some.inj hr
    exact ⟨rfl, fun _ => ⟨hbehind, rfl⟩, fun hstate => absurd rfl hstate⟩
  · rename_i hknown
    obtain ⟨state, hstate, rfl⟩ := Option.map_eq_some_iff.mp hr
    have hnodata : state ≠ .data := by
      rintro rfl
      split_ifs at hstate <;> grind
    exact ⟨rfl, fun hdata => absurd hdata hnodata, fun _ => ⟨by omega, rfl⟩⟩

theorem latest_isSome {payloads : List Bytes} (h : payloads ≠ []) :
    ∃ payload, payloads.getLast? = some payload ∧
      latest payloads = some ⟨payloads.length, payload⟩ := by
  have hlast := List.getLast?_eq_some_getLast h
  exact ⟨payloads.getLast h, hlast, by rw [latest, hlast, Option.map_some]⟩

/-! ## What a reader has -/

/-- The version that a reader which was told this asks with, as the node takes it. -/
def knownFrom (responses : List AtomReadResponse) : Int :=
  ((lastVersion responses).map AtomVersion.version).getD 0

theorem knownFrom_concat (responses : List AtomReadResponse) (r : AtomReadResponse) :
    knownFrom (responses ++ [r]) = r.nextVersion.version := by
  simp [knownFrom, lastVersion]

theorem dataVersions_concat (responses : List AtomReadResponse) (r : AtomReadResponse) :
    dataVersions (responses ++ [r]) =
      dataVersions responses ++ if r.state = .data then [r.nextVersion.version] else [] := by
  rw [dataVersions, List.filter_append, List.map_append, dataVersions]
  by_cases h : r.state = .data <;> simp [h]

theorem lastValue_concat (responses : List AtomReadResponse) (r : AtomReadResponse) :
    lastValue (responses ++ [r]) = r.value.or (lastValue responses) := by
  rw [lastValue, List.filterMap_append, List.getLast?_append, lastValue]
  cases hvalue : r.value <;> simp [hvalue]

/-- A reader that was told this has the value of the version it asks with. -/
structure Follows (payloads : List Bytes) (responses : List AtomReadResponse) : Prop where
  first : 0 ≤ knownFrom responses
  bound : knownFrom responses ≤ payloads.length
  value : lastValue responses = latest (payloads.take (knownFrom responses).toNat)
  increasing : (dataVersions responses).Pairwise (· < ·)
  below : ∀ version ∈ dataVersions responses, version ≤ knownFrom responses

theorem follows_nil : Follows [] [] := by
  constructor <;> simp [knownFrom, lastVersion, lastValue, latest, dataVersions]

theorem Follows.mono {payloads : List Bytes} {responses : List AtomReadResponse}
    (h : Follows payloads responses) (more : List Bytes) :
    Follows (payloads ++ more) responses := by
  have hbound := h.bound
  refine { h with bound := ?_, value := ?_ }
  · rw [List.length_append]
    omega
  · rw [List.take_append_of_le_length (by omega)]
    exact h.value

theorem Follows.has_latest {payloads : List Bytes} {responses : List AtomReadResponse}
    (h : Follows payloads responses) (hknown : payloads.length ≤ knownFrom responses) :
    lastValue responses = latest payloads := by
  have hbound := h.bound
  calc lastValue responses = latest (payloads.take (knownFrom responses).toNat) := h.value
    _ = latest payloads := by rw [List.take_of_length_le (by omega)]

/-- A right response to the version that the reader knows. -/
theorem Follows.told {payloads : List Bytes} {responses : List AtomReadResponse}
    (h : Follows payloads responses) {r : AtomReadResponse}
    (hr : Right payloads (knownFrom responses) r) : Follows payloads (responses ++ [r]) := by
  have hknown : knownFrom (responses ++ [r]) = payloads.length := by
    rw [knownFrom_concat, hr.nextVersion]
  constructor
  case first => omega
  case bound => omega
  case value =>
    rw [hknown, Int.toNat_natCast, List.take_length, lastValue_concat]
    by_cases hstate : r.state = .data
    · obtain ⟨hbehind, hvalue⟩ := hr.data hstate
      have hfirst := h.first
      have hne : payloads ≠ [] := by
        rintro rfl
        simp at hbehind
        omega
      obtain ⟨payload, -, hlatest⟩ := latest_isSome hne
      rw [hvalue, hlatest, Option.some_or]
    · obtain ⟨hsame, hvalue⟩ := hr.same hstate
      rw [hvalue, Option.none_or]
      exact h.has_latest hsame
  case increasing =>
    rw [dataVersions_concat]
    split
    · rename_i hstate
      apply List.pairwise_append.mpr
      refine ⟨h.increasing, List.pairwise_singleton _ _, fun version hversion last hlast => ?_⟩
      obtain rfl := List.mem_singleton.mp hlast
      have hle := h.below version hversion
      have hlt := (hr.data hstate).1
      rw [hr.nextVersion]
      show version < (payloads.length : Int)
      omega
    · rw [List.append_nil]
      exact h.increasing
  case below =>
    intro version hversion
    rw [dataVersions_concat, List.mem_append] at hversion
    rw [hknown]
    rcases hversion with hold | hnew
    · have hle := h.below version hold
      have hbound := h.bound
      omega
    · split at hnew
      · rw [List.mem_singleton.mp hnew, hr.nextVersion]
      · simp at hnew

/-! ## Runs -/

theorem mem_told {streamId : String} {out : List AtomOutput} {r : AtomReadResponse} :
    r ∈ Desk.told streamId (out.map reply) ↔ .readResponse r ∈ out ∧ r.streamId = streamId := by
  rw [Desk.told, List.filterMap_map, List.filterMap_filterMap, List.mem_filterMap]
  constructor
  · rintro ⟨o, ho, hr⟩
    cases o with
    | readResponse a =>
        by_cases hname : a.streamId = streamId
        · obtain rfl : a = r := by simpa [reply, Output.reply, Reply.answer?, hname] using hr
          exact ⟨ho, hname⟩
        · simp [reply, Output.reply, Reply.answer?, hname] at hr
    | _ => simp [reply, Output.reply, Reply.answer?] at hr
  · rintro ⟨hr, rfl⟩
    exact ⟨.readResponse r, hr, by simp [reply, Output.reply, Reply.answer?]⟩

theorem heard_concat (stopWhen : StopWhen) (streamId : String) (front : List AtomInput)
    (input : AtomInput) :
    heard stopWhen streamId (front ++ [input]) = heard stopWhen streamId front ++
      Desk.told streamId (((run stopWhen front).handle input).2.map reply) := by
  rw [heard, exchange, Desk.exchange_concat, Ledger.replies, List.flatMap_append, Desk.told_append]
  simp only [List.flatMap_cons, List.flatMap_nil, List.append_nil]
  rfl

/-- A response answers the read that comes in or one that was held, and is right then. -/
theorem response_right (stopWhen : StopWhen) (front : List AtomInput) (input : AtomInput)
    {streamId : String} {r : AtomReadResponse}
    (hr : r ∈ Desk.told streamId (((run stopWhen front).handle input).2.map reply)) :
    ∃ request : Request, (input = .read streamId request ∨
        ∃ held, (run stopWhen front).readers.heldOf streamId = some held ∧
          held.request = request) ∧
      Right (accepted (front ++ [input])) request.known r := by
  have hstands := run_stands stopWhen front
  have houtcome := (AtomNode.handle_turn hstands.inv hstands.sound hstands.settled input).outcome
    hstands.sound streamId
  obtain ⟨request, hsource, hanswer⟩ := (houtcome.heard hr).source
  obtain ⟨hversion, hpayload, -⟩ := run_replaced stopWhen (front ++ [input])
  refine ⟨request, ?_, ?_⟩
  · rcases hsource with hask | ⟨k, hk, rfl⟩
    · cases input with
      | read id asked =>
          obtain ⟨rfl, rfl⟩ := Ask.read.inj hask
          exact .inl rfl
      | _ => simp [AtomInput.ask] at hask
    · exact .inr (Streams.held_of_kept hk)
  · rw [run_concat] at hversion hpayload
    rcases hanswer with hanswer | hlate
    · exact AtomNode.resolve_right hversion hpayload hanswer
    · exact AtomNode.resolve_right hversion hpayload hlate

structure Tracks (payloads : List Bytes) (responses : List AtomReadResponse) (streamId : String)
    (n : AtomNode) : Prop where
  follows : Follows payloads responses
  held : ∀ held, n.readers.heldOf streamId = some held →
    held.request.version = lastVersion responses

/-- Whoever threads its versions asks with the one that it knows. -/
theorem Tracks.known {stopWhen : StopWhen} {front : List AtomInput} {input : AtomInput}
    {streamId : String} {responses : List AtomReadResponse}
    (h : Tracks (accepted front) responses streamId (run stopWhen front))
    (hthreads : ∀ request, input = .read streamId request →
      request.version = lastVersion responses) {request : Request}
    (hsource : input = .read streamId request ∨
      ∃ held, (run stopWhen front).readers.heldOf streamId = some held ∧
        held.request = request) : request.known = knownFrom responses := by
  have hversion : request.version = lastVersion responses := by
    rcases hsource with hread | ⟨held, hheld, rfl⟩
    · exact hthreads request hread
    · exact h.held held hheld
  rw [Request.known, hversion, knownFrom]

theorem run_tracks (stopWhen : StopWhen) (streamId : String) {inputs : List AtomInput}
    (hthreads : Threads stopWhen streamId inputs) :
    Tracks (accepted inputs) (heard stopWhen streamId inputs) streamId (run stopWhen inputs) := by
  induction inputs using List.reverseRecOn with
  | nil =>
      refine ⟨follows_nil, fun held hheld => ?_⟩
      simp [run, AtomNode.new, Streams.new, Streams.heldOf] at hheld
  | append_singleton front input ih =>
      have htracks := ih fun front' request hfront =>
        hthreads front' request (hfront.trans (List.prefix_append front [input]))
      have hlast : ∀ request, input = .read streamId request →
          request.version = lastVersion (heard stopWhen streamId front) := by
        rintro request rfl
        exact hthreads front request List.prefix_rfl
      have hstands := run_stands stopWhen front
      have hfollows : Follows (accepted (front ++ [input])) (heard stopWhen streamId front) := by
        rw [accepted_concat]
        exact htracks.follows.mono _
      rw [run_concat, heard_concat]
      have houtcome := (AtomNode.handle_turn hstands.inv hstands.sound hstands.settled
        input).outcome hstands.sound streamId
      cases houtcome with
      | told r hheard htold hkept =>
          obtain ⟨request, hsource, hright⟩ := response_right stopWhen front input
            (htold ▸ List.mem_singleton_self r)
          rw [htracks.known hlast hsource] at hright
          rw [htold]
          refine ⟨hfollows.told hright, fun held hheld => ?_⟩
          simp [Streams.desk, hheld] at hkept
      | untold htold hkept =>
          rw [htold, List.append_nil]
          refine ⟨hfollows, fun held hheld => ?_⟩
          have hnow : ((run stopWhen front).handle input).1.readers.desk.kept streamId =
              some held.kept := by simp [Streams.desk, hheld]
          rcases hkept held.kept hnow with hold | hnew
          · obtain ⟨held', hheld', hrequest⟩ := Streams.held_of_kept hold
            show held.kept.request.version = _
            rw [← hrequest]
            exact htracks.held held' hheld'
          · cases input with
            | read id request =>
                obtain ⟨rfl, rfl⟩ := Ask.read.inj hnew
                exact hlast _ rfl
            | _ => simp [AtomInput.ask] at hnew

theorem held_asked (stopWhen : StopWhen) (inputs : List AtomInput) {streamId : String}
    {held : HeldRead Request} (hheld : (run stopWhen inputs).readers.heldOf streamId = some held) :
    .read streamId held.request ∈ inputs := by
  obtain ⟨L, -, haccounts, hkept⟩ := (run_stands stopWhen inputs).accounts
  have hwaits : (L.waiting streamId).map Desk.parked = some held.kept := by
    rw [← hkept]
    simp [Streams.desk, hheld]
  obtain ⟨w, hw, hparked⟩ := Option.map_eq_some_iff.mp hwaits
  have hasked := List.mem_of_getElem? (haccounts.waiting_asked streamId w hw)
  have hrequest : w.request = held.request := congrArg Kept.request hparked
  rw [hrequest] at hasked
  obtain ⟨input, hmem, hask⟩ := Desk.exchange_asked hasked
  cases input with
  | read id request =>
      obtain ⟨rfl, rfl⟩ := Ask.read.inj hask
      exact hmem
  | _ => simp [AtomInput.ask] at hask

/-- **The latest state.**  Where no read carries a negative version, no held read could be
answered and data is the latest value at the version that counts the replacements; a
reader that threads its versions gets increasing ones, and is told that there is nothing
new only when it has the latest value; and every run is accounted for. -/
theorem latest_state_protocol (stopWhen : StopWhen) (inputs : List AtomInput)
    (hreads : ∀ streamId request, .read streamId request ∈ inputs → 0 ≤ request.known) :
    let n := run stopWhen inputs
    let events := exchange stopWhen inputs
    (∀ id held, n.readers.heldOf id = some held →
      n.resolve held.request.atomId id held.request.known held.request.timeoutMs = none) ∧
    (∀ front input r, front ++ [input] <+: inputs →
      .readResponse r ∈ ((run stopWhen front).handle input).2 → r.state = .data →
        let payloads := accepted (front ++ [input])
        ∃ payload, payloads.getLast? = some payload ∧
          r.value = some ⟨payloads.length, payload⟩ ∧ r.nextVersion = ⟨payloads.length⟩) ∧
    (∀ streamId, Threads stopWhen streamId inputs →
      (dataVersions (heard stopWhen streamId inputs)).Pairwise (· < ·) ∧
      ∀ front input r, front ++ [input] <+: inputs → r.streamId = streamId →
        .readResponse r ∈ ((run stopWhen front).handle input).2 → r.state ≠ .data →
          lastValue (heard stopWhen streamId front) = latest (accepted (front ++ [input]))) ∧
    ∃ L : Ledger String Request AtomReadResponse, Ledger.audit events = some L ∧
      L.Accounts (Ledger.asked events) (Ledger.expiries events) (Ledger.replies events) ∧
      ∀ id, (n.readers.heldOf id).map HeldRead.kept = (L.waiting id).map Desk.parked := by
  intro n events
  have hstands := run_stands stopWhen inputs
  refine ⟨?_, ?_, ?_, hstands.accounts⟩
  · intro id held hheld
    exact hstands.settled id held.kept (by simp [n, Streams.desk, hheld])
  · intro front input r hfront hr hstate payloads
    obtain ⟨request, hsource, hright⟩ := response_right stopWhen front input
      (mem_told.mpr ⟨hr, rfl⟩)
    have hmem : .read r.streamId request ∈ inputs := by
      rcases hsource with rfl | ⟨held, hheld, rfl⟩
      · exact hfront.subset (List.mem_append_right front (List.mem_singleton_self _))
      · exact hfront.subset (List.mem_append_left _ (held_asked stopWhen front hheld))
    have hknown := hreads r.streamId request hmem
    obtain ⟨hbehind, hvalue⟩ := hright.data hstate
    have hne : payloads ≠ [] := fun hnil => by
      have hlength : payloads.length = 0 := by rw [hnil, List.length_nil]
      have hbehind' : request.known < (payloads.length : Int) := hbehind
      omega
    obtain ⟨payload, hlast, hlatest⟩ := latest_isSome hne
    exact ⟨payload, hlast, hvalue.trans hlatest, hright.nextVersion⟩
  · intro streamId hthreads
    refine ⟨(run_tracks stopWhen streamId hthreads).follows.increasing, ?_⟩
    rintro front input r hfront rfl hr hstate
    have hthreads' : Threads stopWhen r.streamId front := fun front' request hfirst =>
      hthreads front' request (hfirst.trans ((List.prefix_append front [input]).trans hfront))
    have htracks := run_tracks stopWhen r.streamId hthreads'
    obtain ⟨request, hsource, hright⟩ := response_right stopWhen front input
      (mem_told.mpr ⟨hr, rfl⟩)
    have hlast : ∀ request, input = .read r.streamId request →
        request.version = lastVersion (heard stopWhen r.streamId front) := by
      rintro request rfl
      exact hthreads front request hfront
    rw [htracks.known hlast hsource] at hright
    have hfollows : Follows (accepted (front ++ [input])) (heard stopWhen r.streamId front) := by
      rw [accepted_concat]
      exact htracks.follows.mono _
    exact hfollows.has_latest (hright.same hstate).1

/-- Two replacements between the reads of a reader, which gets the second of them. -/
theorem latest_state_protocol_coalesced :
    let inputs : List AtomInput := [.replace [1], .read "s" ⟨"a", none, none⟩, .replace [2],
      .replace [3], .read "s" ⟨"a", some ⟨1⟩, none⟩, .read "s" ⟨"a", some ⟨3⟩, some 0⟩]
    heard .lastReader "s" inputs =
        [⟨"a", "s", some ⟨1, [1]⟩, ⟨1⟩, .data, none⟩, ⟨"a", "s", some ⟨3, [3]⟩, ⟨3⟩, .data, none⟩,
          ⟨"a", "s", none, ⟨3⟩, .wouldBlock, none⟩] ∧
      ∃ L : Ledger String Request AtomReadResponse,
        Ledger.audit (exchange .lastReader inputs) = some L ∧
        ∀ id, ((run .lastReader inputs).readers.heldOf id).map HeldRead.kept =
          (L.waiting id).map Desk.parked := by
  intro inputs
  have hprotocol := latest_state_protocol .lastReader inputs fun streamId request hread => by
    simp only [inputs, List.mem_cons, reduceCtorEq, AtomInput.read.injEq, List.not_mem_nil,
      false_or, or_false] at hread
    rcases hread with ⟨-, rfl⟩ | ⟨-, rfl⟩ | ⟨-, rfl⟩ <;> decide
  obtain ⟨L, haudit, -, hkept⟩ := hprotocol.2.2.2
  exact ⟨by decide, L, haudit, hkept⟩

end TautShape.Atom
