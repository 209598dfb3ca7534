import TautShape.Tool.DriveClient
import TautShape.Atom.Freshness
/-!
# The atom client

The reading side of the tool against an atom node: a read for each stream, and another one
with the version it was given for as long as there is data.  Both run at their own pace,
and the node is prompted by its producer script.  The frames are their decoded messages:
the node reads inputs and writes outputs, so a tag that neither may send does not come up.
-/

namespace TautShape.AtomTool

open TautShape.Lib TautShape.Atom TautShape.Held
open TautShape.DriveClient (Exit Fair)
open TautShape.Log (Bytes StopWhen)

structure ClientOpts where
  atomId : String
  streamIds : List String
  «from» : Int
  timeoutMs : Option Int

/-- The two collections of `drive_client`. -/
structure Client where
  versions : BTreeMap String Int
  active : BTreeSet String

variable (opts : ClientOpts)

def writeRead (streamId : String) (version : Int) : AtomInput :=
  .read streamId ⟨opts.atomId, some ⟨version⟩, opts.timeoutMs⟩

def loop (c : Client) (written : List AtomInput) : Party Client Exit × List AtomInput :=
  DriveClient.loop Client.active (fun c => if c.versions.isEmpty then "empty" else "done") c written

def Client.new : Client :=
  let versions : BTreeMap String Int :=
    Std.ExtTreeMap.ofList (opts.streamIds.map (·, opts.from)) compare
  ⟨versions, Std.ExtTreeSet.ofList versions.keys compare⟩

def start : Party Client Exit × List AtomInput :=
  let c := Client.new opts
  loop c (c.versions.toList.map fun p => writeRead opts p.1 p.2)

/-- The body of the loop, on one frame. -/
def receive (c : Client) : AtomOutput → Party Client Exit × List AtomInput
  | .readResponse response =>
      if !c.active.contains response.streamId then (.stopped c .refused, [])
      else
        let c := { c with
          versions := c.versions.insert response.streamId response.nextVersion.version }
        match response.state with
        | .data => loop c [writeRead opts response.streamId response.nextVersion.version]
        | .wouldBlock | .eof | .closed | .failed =>
            loop { c with active := c.active.erase response.streamId } []
  | .setTimer _ _ | .cancelTimer _ | .producerStop _ | .diagnostic _ => loop c []

/-- The read that the client wrote last for a stream. -/
def asks (c : Client) (streamId : String) : Option Request :=
  c.versions[streamId]?.map fun version => ⟨opts.atomId, some ⟨version⟩, opts.timeoutMs⟩

abbrev expects (c : Client) (streamId : String) : Option Request :=
  DriveClient.expects Client.active (asks opts) c streamId

/-- What the node reads from its script, beside the reads of the client: what the producer
does, and timers that run out. -/
def prompts : AtomInput → Bool
  | .replace _ | .seal | .close _ | .timerExpired _ => true
  | .read _ _ | .endStream _ => false

def session (stopWhen : StopWhen) (moves : List (Move AtomInput)) :
    Link Client Exit AtomNode AtomInput AtomOutput :=
  (Link.opening (start opts) (AtomNode.new stopWhen)).run AtomNode.handle (receive opts) moves

abbrev heard (streamId : String) (out : List AtomOutput) : List AtomReadResponse :=
  DriveClient.heard AtomReadResponse.streamId streamId out

variable {opts}

/-! ## What the node tells a client -/

/-- The version that the client asks with was its first one, or it was given it. -/
def May (opts : ClientOpts) (fed : List AtomInput) (_ : String) (r : Request) : Prop :=
  r.known ≤ opts.from ∨ r.known ≤ (accepted fed).length

/-- A response that is right at its time, and the node at its end if it says so. -/
structure Told (opts : ClientOpts) (front : List AtomInput) (r : Request) (a : AtomReadResponse) :
    Prop where
  right : Right (accepted front) r.known a
  ended : a.state ≠ .data → a.state ≠ .wouldBlock → front.any AtomInput.ends = true
  known : r.known ≤ opts.from ∨ r.known ≤ (accepted front).length

theorem resolve_ended {n : AtomNode} {atomId streamId : String} {version : Int}
    {timeoutMs : Option Int} {a : AtomReadResponse}
    (h : n.resolve atomId streamId version timeoutMs = some a) (hdata : a.state ≠ .data)
    (hblock : a.state ≠ .wouldBlock) : (n.isSealed || n.isClosed) = true := by
  unfold AtomNode.resolve at h
  split at h
  · obtain rfl := Option.some.inj h
    exact absurd rfl hdata
  · obtain ⟨state, hstate, rfl⟩ := Option.map_eq_some_iff.mp h
    by_cases hclosed : n.isClosed = true
    · simp [hclosed]
    · by_cases hsealed : n.isSealed = true
      · simp [hsealed]
      · rw [if_neg hclosed, if_neg hsealed] at hstate
        split_ifs at hstate
        obtain rfl := Option.some.inj hstate
        exact absurd rfl hblock

theorem honest (opts : ClientOpts) (stopWhen : StopWhen) :
    Link.Honest AtomNode.handle (fun n => n.readers.desk) AtomInput.ask Atom.reply
      (AtomNode.new stopWhen) (May opts) (fun front _ r a => Told opts front r a) := by
  refine Link.honest_of_turns fun front input => ?_
  have hstands := run_stands stopWhen front
  refine ⟨hstands.sound, _, _, _,
    AtomNode.handle_turn hstands.inv hstands.sound hstands.settled input, ?_⟩
  intro s r a hmay hanswer
  obtain ⟨hversion, hpayload, hterminal⟩ := run_replaced stopWhen (front ++ [input])
  rw [run_concat] at hversion hpayload hterminal
  have hresolve : ∃ timeoutMs, ((run stopWhen front).handle input).1.resolve r.atomId s r.known
      timeoutMs = some a := by
    rcases hanswer with hanswer | hlate
    · exact ⟨_, hanswer⟩
    · exact ⟨_, hlate⟩
  obtain ⟨timeoutMs, hresolve⟩ := hresolve
  refine ⟨AtomNode.resolve_right hversion hpayload hresolve, fun hdata hblock => ?_, hmay⟩
  rw [← hterminal]
  exact resolve_ended hresolve hdata hblock

/-! ## What the client has -/

/-- What the client has of a stream that it was told this about, at the version it asks with. -/
structure Follows (first : Int) (payloads : List Bytes) (responses : List AtomReadResponse)
    (version : Int) : Prop where
  nonneg : 0 ≤ version
  bound : version ≤ first ∨ version ≤ payloads.length
  value : first < version → lastValue responses = latest (payloads.take version.toNat)
  increasing : (first :: dataVersions responses).Pairwise (· < ·)
  below : ∀ v ∈ dataVersions responses, v ≤ version

theorem Follows.mono {first version : Int} {payloads : List Bytes}
    {responses : List AtomReadResponse} (h : Follows first payloads responses version)
    (more : List Bytes) : Follows first (payloads ++ more) responses version := by
  refine { h with bound := ?_, value := fun hfirst => ?_ }
  · rw [List.length_append]
    have hbound := h.bound
    omega
  · have hbound := h.bound
    rw [List.take_append_of_le_length (by omega)]
    exact h.value hfirst

theorem follows_new {first : Int} (hfirst : 0 ≤ first) : Follows first [] [] first := by
  constructor <;> simp [dataVersions, hfirst]

/-- Data that is right for the payloads that there were at its time. -/
theorem Follows.data {first version : Int} {payloads more : List Bytes}
    {responses : List AtomReadResponse}
    (h : Follows first (payloads ++ more) responses version) (hfirst : first ≤ version)
    {a : AtomReadResponse} (hright : Right payloads version a) (hdata : a.state = .data) :
    Follows first (payloads ++ more) (responses ++ [a]) a.nextVersion.version ∧
      first ≤ a.nextVersion.version := by
  have hnext : a.nextVersion.version = payloads.length := by rw [hright.nextVersion]
  obtain ⟨hbehind, hvalue⟩ := hright.data hdata
  have hversions : dataVersions (responses ++ [a]) =
      dataVersions responses ++ [a.nextVersion.version] := by
    rw [dataVersions_concat, if_pos hdata]
  have hnonneg := h.nonneg
  refine ⟨⟨?_, ?_, fun _ => ?_, ?_, ?_⟩, by omega⟩
  · omega
  · rw [List.length_append]
    omega
  · have hne : payloads ≠ [] := by
      rintro rfl
      simp at hbehind
      omega
    obtain ⟨payload, -, hlatest⟩ := latest_isSome hne
    rw [hnext, Int.toNat_natCast, List.take_left, lastValue_concat, hvalue, hlatest, Option.some_or]
  · rw [hversions, ← List.cons_append, List.pairwise_append]
    refine ⟨h.increasing, List.pairwise_singleton _ _, fun v hv last hlast => ?_⟩
    obtain rfl := List.mem_singleton.mp hlast
    rcases List.mem_cons.mp hv with rfl | hv
    · omega
    · have hle := h.below v hv
      omega
  · intro v hv
    rw [hversions, List.mem_append, List.mem_singleton] at hv
    rcases hv with hv | rfl
    · have hle := h.below v hv
      omega
    · exact le_refl _

theorem Follows.nothing {first version : Int} {payloads more : List Bytes}
    {responses : List AtomReadResponse}
    (h : Follows first (payloads ++ more) responses version) (hfirst : first ≤ version)
    {a : AtomReadResponse} (hright : Right payloads version a) (hdata : a.state ≠ .data)
    (hknown : version ≤ first ∨ version ≤ payloads.length) :
    Follows first (payloads ++ more) (responses ++ [a]) a.nextVersion.version := by
  have hnext : a.nextVersion.version = payloads.length := by rw [hright.nextVersion]
  obtain ⟨hsame, hvalue⟩ := hright.same hdata
  have hversions : dataVersions (responses ++ [a]) = dataVersions responses := by
    rw [dataVersions_concat, if_neg hdata, List.append_nil]
  have hlast : lastValue (responses ++ [a]) = lastValue responses := by
    rw [lastValue_concat, hvalue, Option.none_or]
  have hincreasing := h.increasing
  rcases hknown with hknown | hknown
  · -- The client began above the node and was given nothing.
    have hnone : ∀ v, v ∉ dataVersions responses := by
      intro v hv
      have hlt := (List.pairwise_cons.mp hincreasing).1 v hv
      have hle := h.below v hv
      omega
    refine ⟨by omega, .inl (by omega), fun hlt => by omega, ?_, ?_⟩
    · rw [hversions]
      exact hincreasing
    · intro v hv
      rw [hversions] at hv
      exact absurd hv (hnone v)
  · have heq : a.nextVersion.version = version := by omega
    rw [heq]
    refine ⟨h.nonneg, h.bound, fun hlt => ?_, ?_, ?_⟩
    · rw [hlast]
      exact h.value hlt
    · rw [hversions]
      exact hincreasing
    · rw [hversions]
      exact h.below
/-! ## Every frame -/

def Rested (fed : List AtomInput) (responses : List AtomReadResponse) (version : Int) : Prop :=
  ∃ a, responses.getLast? = some a ∧ a.state ≠ .data ∧ a.nextVersion.version = version ∧
    (a.state ≠ .wouldBlock → fed.any AtomInput.ends = true ∧ version = (accepted fed).length)

structure Has (opts : ClientOpts) (fed : List AtomInput) (taken : List AtomOutput) (c : Client) :
    Prop where
  named : ∀ s, s ∈ c.versions ↔ s ∈ opts.streamIds
  listed : ∀ s, s ∈ c.active → s ∈ c.versions
  follows : ∀ (s : String) v, c.versions[s]? = some v →
    Follows opts.from (accepted fed) (heard s taken) v
  awake : ∀ (s : String) v, s ∈ c.active → c.versions[s]? = some v → opts.from ≤ v
  rest : ∀ (s : String) v, c.versions[s]? = some v → s ∉ c.active → Rested fed (heard s taken) v

theorem accepted_append (fed more : List AtomInput) :
    ∃ later, accepted (fed ++ more) = accepted fed ++ later ∧
      (fed.any AtomInput.ends = true → later = []) := by
  refine intake_append (fun i hi => ?_) fed more
  cases i <;> simp_all [AtomInput.ends, AtomInput.payload?]

theorem Rested.append {fed : List AtomInput} {responses : List AtomReadResponse} {version : Int}
    (h : Rested fed responses version) (more : List AtomInput) :
    Rested (fed ++ more) responses version := by
  obtain ⟨a, hlast, hdata, hversion, hended⟩ := h
  refine ⟨a, hlast, hdata, hversion, fun hblock => ?_⟩
  obtain ⟨hends, hlength⟩ := hended hblock
  obtain ⟨later, heq, hnone⟩ := accepted_append fed more
  rw [heq, hnone hends, List.append_nil, List.any_append, hends]
  exact ⟨rfl, hlength⟩

theorem Has.append {fed : List AtomInput} {taken : List AtomOutput} {c : Client}
    (h : Has opts fed taken c) (more : List AtomInput) : Has opts (fed ++ more) taken c := by
  obtain ⟨later, heq, -⟩ := accepted_append fed more
  refine { h with follows := fun s v hv => ?_, rest := fun s v hv hs => (h.rest s v hv hs).append more }
  rw [heq]
  exact (h.follows s v hv).mono later

theorem Has.skip {fed : List AtomInput} {taken : List AtomOutput} {c : Client}
    (h : Has opts fed taken c) {o : AtomOutput} (ho : ∀ s a, Atom.reply o ≠ .answer s a) :
    Has opts fed (taken ++ [o]) c := by
  have hsame : ∀ s, heard s (taken ++ [o]) = heard s taken := by
    intro s
    calc heard s (taken ++ [o]) = heard s taken ++ heard s [o] :=
          DriveClient.heard_concat s taken o
      _ = heard s taken ++ [] := congrArg _ (DriveClient.heard_of_not_answer ho s)
      _ = heard s taken := List.append_nil _
  refine { h with follows := fun s v hv => ?_, rest := fun s v hv hs => ?_ }
  · rw [hsame]
    exact h.follows s v hv
  · rw [hsame]
    exact h.rest s v hv hs

def Client.answered (c : Client) (a : AtomReadResponse) : Client where
  versions := c.versions.insert a.streamId a.nextVersion.version
  active := if a.state = .data then c.active else c.active.erase a.streamId

theorem receive_answered {c : Client} {a : AtomReadResponse} (h : a.streamId ∈ c.active) :
    receive opts c (.readResponse a) = loop (c.answered a)
      (if a.state = .data then [writeRead opts a.streamId a.nextVersion.version] else []) := by
  have hcontains : c.active.contains a.streamId = true := Std.ExtTreeSet.mem_iff_contains.mp h
  rw [receive, hcontains, if_neg (by simp), Client.answered]
  cases a.state <;> rfl

theorem Has.answered {fed : List AtomInput} {taken : List AtomOutput} {c : Client}
    (h : Has opts fed taken c) {a : AtomReadResponse} {version : Int}
    (hactive : a.streamId ∈ c.active) (hversion : c.versions[a.streamId]? = some version)
    {front : List AtomInput} (hfront : front <+: fed) {r : Request} (hr : r.known = version)
    (htold : Told opts front r a) : Has opts fed (taken ++ [.readResponse a]) (c.answered a) := by
  obtain ⟨more, rfl⟩ := hfront
  obtain ⟨later, haccepted, hnone⟩ := accepted_append front more
  have hright := htold.right
  have hknown := htold.known
  rw [hr] at hright hknown
  have hfirst := h.awake a.streamId version hactive hversion
  have hfollows := h.follows a.streamId version hversion
  rw [haccepted] at hfollows
  have hheard : ∀ s, heard s (taken ++ [.readResponse a]) =
      heard s taken ++ if a.streamId = s then [a] else [] := by
    intro s
    calc heard s (taken ++ [.readResponse a]) = heard s taken ++ heard s [.readResponse a] :=
          DriveClient.heard_concat s taken _
      _ = _ := congrArg _ (DriveClient.heard_response s a)
  have hversions : ∀ s : String, (c.answered a).versions[s]? =
      if a.streamId = s then some a.nextVersion.version else c.versions[s]? :=
    fun s => getElem?_insert _ _ s _
  have hactives : ∀ s, s ∈ (c.answered a).active → s ∈ c.active := by
    intro s hs
    rw [Client.answered] at hs
    split at hs
    · exact hs
    · exact Std.ExtTreeSet.mem_of_mem_erase hs
  constructor
  case named =>
    intro s
    rw [← h.named s, Client.answered, Std.ExtTreeMap.mem_insert,
      Std.LawfulEqCmp.compare_eq_iff_eq, or_iff_right_iff_imp]
    rintro rfl
    exact h.listed _ hactive
  case listed =>
    intro s hs
    rw [Client.answered, Std.ExtTreeMap.mem_insert]
    exact .inr (h.listed s (hactives s hs))
  case follows =>
    intro s v hv
    rw [hversions] at hv
    rw [hheard, haccepted]
    split at hv
    · rename_i heq
      subst heq
      obtain rfl := Option.some.inj hv
      rw [if_pos rfl]
      by_cases hdata : a.state = .data
      · exact (hfollows.data hfirst hright hdata).1
      · exact hfollows.nothing hfirst hright hdata hknown
    · rename_i hne
      rw [if_neg hne, List.append_nil, ← haccepted]
      exact h.follows s v hv
  case awake =>
    intro s v hs hv
    rw [hversions] at hv
    split at hv
    · rename_i heq
      subst heq
      obtain rfl := Option.some.inj hv
      by_cases hdata : a.state = .data
      · exact (hfollows.data hfirst hright hdata).2
      · rw [Client.answered, if_neg hdata, Std.ExtTreeSet.mem_erase] at hs
        exact absurd Std.ReflCmp.compare_self hs.1
    · exact h.awake s v (hactives s hs) hv
  case rest =>
    intro s v hv hs
    rw [hversions] at hv
    rw [hheard]
    split at hv
    · rename_i heq
      subst heq
      obtain rfl := Option.some.inj hv
      rw [if_pos rfl]
      by_cases hdata : a.state = .data
      · rw [Client.answered, if_pos hdata] at hs
        exact absurd hactive hs
      · refine ⟨a, List.getLast?_concat, hdata, rfl, fun hblock => ?_⟩
        have hends := htold.ended hdata hblock
        rw [haccepted, hnone hends, List.append_nil, List.any_append, hends, hright.nextVersion]
        exact ⟨rfl, rfl⟩
    · rename_i hne
      rw [if_neg hne, List.append_nil]
      refine h.rest s v hv fun hin => hs ?_
      rw [Client.answered]
      split
      · exact hin
      · rw [Std.ExtTreeSet.mem_erase, ne_eq, Std.LawfulEqCmp.compare_eq_iff_eq]
        exact ⟨hne, hin⟩

theorem goes_skip {fed : List AtomInput} {taken : List AtomOutput} {c : Client}
    (h : Has opts fed taken c) :
    Link.Goes AtomInput.ask (expects opts) (Fair Client.active) (Has opts) (May opts) fed taken
      (expects opts c) (loop c []) :=
  DriveClient.goes_on h

theorem known_of_expects {c : Client} {s : String} {r : Request}
    (h : expects opts c s = some r) : s ∈ c.active ∧ c.versions[s]? = some r.known := by
  obtain ⟨hactive, hasks⟩ := DriveClient.active_of_expects h
  obtain ⟨version, hversion, rfl⟩ := Option.map_eq_some_iff.mp hasks
  exact ⟨hactive, hversion⟩

theorem expects_answered {c : Client} {a : AtomReadResponse} (hactive : a.streamId ∈ c.active)
    (s : String) : expects opts (c.answered a) s =
      if s = a.streamId then
        if a.state = .data then some ⟨opts.atomId, some a.nextVersion, opts.timeoutMs⟩ else none
      else expects opts c s := by
  have hasks : asks opts (c.answered a) s =
      if a.streamId = s then some ⟨opts.atomId, some a.nextVersion, opts.timeoutMs⟩
      else asks opts c s := by
    rw [asks, Client.answered, getElem?_insert]
    split <;> rfl
  by_cases heq : s = a.streamId
  · subst heq
    rw [if_pos rfl]
    by_cases hdata : a.state = .data
    · have hstays : a.streamId ∈ (c.answered a).active := by
        rwa [Client.answered, if_pos hdata]
      rw [if_pos hdata, expects, DriveClient.expects_of_active hstays, hasks, if_pos rfl]
    · have hleaves : a.streamId ∉ (c.answered a).active := by
        rw [Client.answered, if_neg hdata, DriveClient.mem_erase_active]
        exact fun hin => hin.1 rfl
      rw [if_neg hdata, expects, DriveClient.expects_of_not_active hleaves]
  · rw [if_neg heq]
    refine DriveClient.expects_congr ?_ ?_
    · rw [Client.answered]
      split
      · rfl
      · rw [DriveClient.mem_erase_active, and_iff_right (Ne.symm heq)]
    · rw [hasks, if_neg (Ne.symm heq)]

theorem posts_writeRead (s streamId : String) (version : Int) :
    Link.posts AtomInput.ask s [writeRead opts streamId version] =
      if streamId = s then [⟨opts.atomId, some ⟨version⟩, opts.timeoutMs⟩] else [] := by
  by_cases heq : streamId = s <;>
    simp [Link.posts, writeRead, AtomInput.ask, Ask.request?, heq]

theorem polls (opts : ClientOpts) : Link.Polls (receive opts) AtomInput.ask Atom.reply
    (expects opts) (Fair Client.active) (Has opts) (May opts) (fun front _ r a => Told opts front r a) := by
  refine ⟨fun fed more taken c h => h.append more, fun fed more s r h => ?_, ?_, ?_⟩
  · obtain ⟨later, heq, -⟩ := accepted_append fed more
    rw [May, heq, List.length_append]
    exact h.imp_right fun hle => by omega
  · intro fed taken c o s a r hhas hreply hexpects hright
    obtain ⟨front, hfront, htold⟩ := hright
    obtain ⟨hactive, hversion⟩ := known_of_expects hexpects
    cases o with
    | readResponse response =>
        obtain ⟨rfl, rfl⟩ := Reply.answer.inj hreply
        rw [receive_answered hactive]
        refine DriveClient.goes_loop (fun i hi => ?_) (hhas.answered hactive hversion hfront rfl htold)
          fun s => ?_
        · split at hi
          · obtain rfl := List.mem_singleton.mp hi
            exact ⟨_, _, rfl⟩
          · simp at hi
        · show Renews _ _ (expects opts (c.answered response) s) _
          rw [expects_answered hactive]
          by_cases hdata : response.state = .data
          · simp only [if_pos hdata, posts_writeRead]
            by_cases heq : s = response.streamId
            · rw [if_pos heq, if_pos heq, if_pos heq.symm]
              refine .asks _ (.inr ?_)
              obtain ⟨more, rfl⟩ := hfront
              obtain ⟨later, haccepted, -⟩ := accepted_append front more
              rw [haccepted, List.length_append]
              show response.nextVersion.version ≤ _
              rw [htold.right.nextVersion]
              simp
            · rw [if_neg heq, if_neg heq, if_neg (Ne.symm heq)]
              exact .same _
          · simp only [if_neg hdata]
            exact .same _
    | _ => simp [Atom.reply, Output.reply] at hreply
  · intro fed taken c o hhas hreply
    cases o with
    | readResponse response => exact absurd rfl (hreply response.streamId response)
    | _ => exact goes_skip (hhas.skip hreply)

theorem new_versions (opts : ClientOpts) (s : String) : (Client.new opts).versions[s]? =
    if s ∈ opts.streamIds then some opts.from else none :=
  getElem?_ofList_const opts.streamIds opts.from s

theorem new_active (opts : ClientOpts) (s : String) : s ∈ (Client.new opts).active ↔ s ∈ (Client.new opts).versions := by
  show s ∈ Std.ExtTreeSet.ofList (Client.new opts).versions.keys compare ↔ _
  rw [Std.ExtTreeSet.mem_ofList, List.contains_iff_mem, Std.ExtTreeMap.mem_keys]

theorem goes_start (hfirst : 0 ≤ opts.from) :
    Link.Goes AtomInput.ask (expects opts) (Fair Client.active) (Has opts) (May opts) [] []
      (fun _ => none) (start opts) := by
  have hentry := new_versions opts
  have hactive := new_active opts
  unfold start
  generalize Client.new opts = c at hentry hactive
  have hfrom : ∀ (s : String) v, c.versions[s]? = some v → v = opts.from := by
    intro s v hv
    rw [hentry] at hv
    split at hv
    · exact (Option.some.inj hv).symm
    · simp at hv
  refine DriveClient.goes_loop (fun i hi => ?_)
    ⟨fun s => ?_, fun s hs => (hactive s).mp hs, ?_, ?_, ?_⟩ fun s => ?_
  · obtain ⟨p, -, rfl⟩ := List.mem_map.mp hi
    exact ⟨_, _, rfl⟩
  · rw [Std.ExtTreeMap.mem_iff_isSome_getElem?, hentry]
    split <;> simp_all
  · intro s v hv
    obtain rfl := hfrom s v hv
    exact follows_new hfirst
  · intro s v _ hv
    exact (hfrom s v hv).ge
  · intro s v hv hs
    exact absurd ((hactive s).mpr (mem_of_getElem?_eq_some hv)) hs
  · have hothers : ∀ p : String × Int, p.1 ≠ s →
        ((fun i => (AtomInput.ask i).request? s) ∘ fun p => writeRead opts p.1 p.2) p = none :=
      fun p hp => if_neg hp
    rw [Link.posts, List.filterMap_map, filterMap_toList c.versions hothers]
    cases hv : c.versions[s]? with
    | none =>
        have hnot : s ∉ c.active := by
          rw [hactive, Std.ExtTreeMap.mem_iff_isSome_getElem?, hv]
          simp
        rw [DriveClient.expects_of_not_active hnot]
        exact .same none
    | some v =>
        have hin := (hactive s).mpr (mem_of_getElem?_eq_some hv)
        obtain rfl := hfrom s v hv
        have hpost : ((AtomInput.ask (writeRead opts s opts.from)).request? s) =
            some ⟨opts.atomId, some ⟨opts.from⟩, opts.timeoutMs⟩ := if_pos rfl
        rw [DriveClient.expects_of_active hin, asks, hv, Option.bind_some, Function.comp_apply, hpost]
        exact .asks _ (.inl le_rfl)

theorem session_converses (hfirst : 0 ≤ opts.from) (stopWhen : StopWhen)
    {moves : List (Move AtomInput)} (hmoves : ∀ i, .prompt i ∈ moves → prompts i = true) :
    Link.Converses (fun n : AtomNode => n.readers.desk) AtomInput.ask Atom.reply (expects opts)
      (Fair Client.active) (Has opts) (May opts) (fun front _ r a => Told opts front r a)
      (session opts stopWhen moves) := by
  refine Link.run_converses (t := AtomNode.new stopWhen) ?_ (honest opts stopWhen) (polls opts)
    (goes_start hfirst) fun i hi => ?_
  · exact Streams.desk_new
  have hprompts := hmoves i hi
  cases i <;> simp_all [prompts, AtomInput.ask]

theorem session_node (opts : ClientOpts) (stopWhen : StopWhen) (moves : List (Move AtomInput)) :
    (session opts stopWhen moves).node = run stopWhen (session opts stopWhen moves).fed :=
  (Link.run_recorded (start opts) (AtomNode.new stopWhen) moves).node

abbrev outstanding (l : Link Client Exit AtomNode AtomInput AtomOutput) (s : String) : Nat :=
  DriveClient.outstanding AtomInput.ask AtomReadResponse.streamId
    (fun n => n.readers.heldOf) l s

/-- When nothing is in the pipes the node holds a read of every stream that the client reads,
and what it holds has no answer yet. -/
theorem held_at_rest {opts : ClientOpts} (hfirst : 0 ≤ opts.from) {stopWhen : StopWhen}
    {moves : List (Move AtomInput)} (hmoves : ∀ i, .prompt i ∈ moves → prompts i = true)
    {l : Link Client Exit AtomNode AtomInput AtomOutput} (hl : session opts stopWhen moves = l)
    {c : Client} (hc : l.client = .running c) (hup : l.up = []) (hdown : l.down = []) (s : String)
    (hs : s ∈ c.active) :
    ∃ held version, l.node.readers.heldOf s = some held ∧ c.versions[s]? = some version ∧
      held.request = ⟨opts.atomId, some ⟨version⟩, opts.timeoutMs⟩ ∧
      l.node.answer s held.request = none := by
  subst hl
  obtain ⟨⟨hhas, -⟩, hstanding⟩ := (session_converses hfirst stopWhen hmoves).running c hc
  obtain ⟨version, hversion⟩ := exists_getElem?_of_mem (hhas.listed s hs)
  have hrest := DriveClient.held_of_rest (fun n : AtomNode => n.readers.heldOf) (hstanding s) hup hdown
  rw [DriveClient.expects_of_active hs, asks, hversion] at hrest
  obtain ⟨held, hheld, hrequest⟩ := Option.map_eq_some_iff.mp hrest
  refine ⟨held, version, hheld, hversion, hrequest, ?_⟩
  rw [session_node] at hheld ⊢
  have hsettled := (run_stands stopWhen (session opts stopWhen moves).fed).settled s held.kept
  exact hsettled (by simp [Streams.desk, hheld])

/-- **Catching up.**  A stream of the client is given data at rising versions above the one
that it began with, and has the payload of the version it asks with.  When the client has
ended, each of its streams was told last that nothing new had come in time, or has the last
payload of a node that takes no other; and while it waits, a stream that it still reads has
the last payload as soon as nothing is in the pipes. -/
theorem atom_client_catches_up (opts : ClientOpts) (hfirst : 0 ≤ opts.from) (stopWhen : StopWhen)
    (moves : List (Move AtomInput)) (hmoves : ∀ i, .prompt i ∈ moves → prompts i = true) :
    let l := session opts stopWhen moves
    (∀ s ∈ opts.streamIds, ∃ version, l.client.state.versions[s]? = some version ∧
      (opts.from :: dataVersions (heard s l.taken)).Pairwise (· < ·) ∧
      (opts.from < version →
        lastValue (heard s l.taken) = latest ((accepted l.fed).take version.toNat))) ∧
    (∀ c state, l.client = .stopped c (.finalLine state) → ∀ s ∈ opts.streamIds,
      ∃ a, (heard s l.taken).getLast? = some a ∧ (a.state = .wouldBlock ∨
        l.fed.any AtomInput.ends = true ∧ a.nextVersion.version = (accepted l.fed).length ∧
        (opts.from < (accepted l.fed).length →
          lastValue (heard s l.taken) = latest (accepted l.fed)))) ∧
    (∀ c, l.client = .running c → l.up = [] → l.down = [] → ∀ s ∈ c.active,
      opts.from < (accepted l.fed).length →
        lastValue (heard s l.taken) = latest (accepted l.fed)) := by
  intro l
  have hconverses := session_converses hfirst stopWhen hmoves
  have hhas := hconverses.known
  refine ⟨fun s hs => ?_, fun c state hc s hs => ?_, fun c hc hup hdown s hs hlt => ?_⟩
  · obtain ⟨version, hversion⟩ := exists_getElem?_of_mem ((hhas.named s).mpr hs)
    have hfollows := hhas.follows s version hversion
    exact ⟨version, hversion, hfollows.increasing, hfollows.value⟩
  · obtain ⟨hhas, hfair⟩ := hconverses.stopped c (.finalLine state) hc
    obtain ⟨version, hversion⟩ := exists_getElem?_of_mem ((hhas.named s).mpr hs)
    obtain ⟨a, hlast, hdata, rfl, hended⟩ := hhas.rest s version hversion
      (DriveClient.not_active hfair s)
    refine ⟨a, hlast, ?_⟩
    by_cases hblock : a.state = .wouldBlock
    · exact .inl hblock
    · obtain ⟨hends, hlength⟩ := hended hblock
      refine .inr ⟨hends, hlength, fun hlt => ?_⟩
      have hvalue := (hhas.follows s _ hversion).value (hlength ▸ hlt)
      rwa [hlength, Int.toNat_natCast, List.take_length] at hvalue
  · obtain ⟨held, version, -, hversion, hrequest, hwaits⟩ :=
      held_at_rest hfirst hmoves rfl hc hup hdown s hs
    obtain ⟨⟨hhas, -⟩, -⟩ := hconverses.running c hc
    have hfollows := hhas.follows s version hversion
    have hle := AtomNode.known_of_held hwaits
    obtain ⟨hnode, -⟩ := run_replaced stopWhen l.fed
    have hsame : l.node = run stopWhen l.fed := session_node opts stopWhen moves
    rw [hrequest, hsame, hnode] at hle
    have hknown : ((accepted l.fed).length : Int) ≤ version := hle
    have hbound : version ≤ opts.from ∨ version ≤ (accepted l.fed).length := hfollows.bound
    have heq : version = (accepted l.fed).length := by omega
    have hvalue := hfollows.value (heq ▸ hlt)
    rwa [heq, Int.toNat_natCast, List.take_length] at hvalue

/-- A client that is told of a payload and then of the end. -/
theorem atom_client_catches_up_closed :
    let opts : ClientOpts := ⟨"a", ["s"], 0, none⟩
    let l := session opts .lastReader
      [.prompt (.replace [7]), .serve, .hear, .prompt (.close none), .serve, .hear, .hear]
    l.client.outcome = some (.finalLine "done") ∧
      lastValue (heard "s" l.taken) = some ⟨1, [7]⟩ ∧
      ∀ c state, l.client = .stopped c (.finalLine state) → ∀ s ∈ opts.streamIds,
        ∃ a, (heard s l.taken).getLast? = some a ∧ (a.state = .wouldBlock ∨
          l.fed.any AtomInput.ends = true ∧ a.nextVersion.version = (accepted l.fed).length ∧
          (opts.from < (accepted l.fed).length →
            lastValue (heard s l.taken) = latest (accepted l.fed))) := by
  intro opts l
  have hcatches := atom_client_catches_up opts (by decide) .lastReader
    [.prompt (.replace [7]), .serve, .hear, .prompt (.close none), .serve, .hear, .hear]
    (by simp [prompts])
  exact ⟨by decide, by decide, hcatches.2.1⟩

end TautShape.AtomTool
