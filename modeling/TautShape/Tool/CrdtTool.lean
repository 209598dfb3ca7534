import TautShape.Crdt.AntiEntropy
import TautShape.Lib.Pipes
/-!
# The replica client

`client` of the tool against a crdt node.  The client applies its script to a node of its
own and writes it to the other one, and then reads at its own clock until an answer has
nothing more for it.  Both run at their own pace, and others write to the node meanwhile.
The frames are their decoded messages; the text profile of the final line is left out.
-/

namespace TautShape.CrdtTool

open TautShape.Lib TautShape.Crdt

/-- The script is the decoded one. -/
structure ClientOpts extends Crdt.ClientOpts where
  replicaScript : List CrdtInput

/-- What the final line keeps of a diagnostic. -/
structure Mark where
  code : String
  origin : Option String
  seq : Option Int
deriving DecidableEq, Repr

instance : Ord Mark :=
  ⟨compareLex (compareOn Mark.code) (compareLex (compareOn Mark.origin) (compareOn Mark.seq))⟩

instance : Std.TransOrd Mark :=
  inferInstanceAs (Std.TransCmp
    (compareLex (compareOn Mark.code) (compareLex (compareOn Mark.origin) (compareOn Mark.seq))))

def diagName : CrdtDiagCode → String
  | .applyAfterTerminal => "apply_after_terminal"
  | .invalidOperation => "invalid_operation"
  | .equivocation => "equivocation"
  | .bootstrapConflict => "bootstrap_conflict"
  | .pendingBoundExceeded => "pending_bound_exceeded"

def collectOne (target : BTreeSet Mark) : CrdtOutput → BTreeSet Mark
  | .diagnostic value => target.insert ⟨diagName value.code, value.origin, value.seq⟩
  | .readResponse _ => target

def collect (target : BTreeSet Mark) (outputs : List CrdtOutput) : BTreeSet Mark :=
  outputs.foldl collectOne target

structure Client where
  node : CrdtNode
  diagnostics : BTreeSet Mark

def Client.new : Client := ⟨CrdtNode.new 1024, ∅⟩

/-- An input of the client's own node. -/
def Client.handle (c : Client) (input : CrdtInput) : Client :=
  let (node, outputs) := c.node.handle input
  ⟨node, collect c.diagnostics outputs⟩

def Client.handleAll (c : Client) (inputs : List CrdtInput) : Client :=
  inputs.foldl Client.handle c

/-- A script that is refused, or the final line. -/
inductive Exit where
  | refused
  | final (clock : CrdtClock) (ops : List CrdtOp) (diagnostics : List Mark)
deriving DecidableEq, Repr

variable (opts : ClientOpts)

/-- The script up to an input that a replica script may not have. -/
def written : List CrdtInput := opts.replicaScript.takeWhile CrdtInput.isLocal

def start : Party Client Exit × List CrdtInput :=
  let c := Client.new.handleAll (written opts)
  if written opts = opts.replicaScript then
    (.running c, written opts ++ [.read (sendRead opts.toClientOpts c.node)])
  else (.stopped c .refused, written opts)

def final (c : Client) : Exit :=
  .final c.node.clockMessage c.node.operations c.diagnostics.toList

def receive (c : Client) : CrdtOutput → Party Client Exit × List CrdtInput
  | .diagnostic value =>
      (.running { c with diagnostics := collect c.diagnostics [.diagnostic value] }, [])
  | .readResponse response =>
      let c := c.handleAll (bootstrapInputs response.bootstrap ++ deliveries response.ops)
      if response.state.continues then
        (.running c, [.read (sendRead opts.toClientOpts c.node)])
      else (.stopped c (final c), [])

def session (maxPending : Nat) (moves : List (Move CrdtInput)) :
    Link Client Exit CrdtNode CrdtInput CrdtOutput :=
  (Link.opening (start opts) (CrdtNode.new maxPending)).run CrdtNode.handle (receive opts) moves

def isRead : CrdtInput → Bool
  | .read _ => true
  | _ => false

def responses (out : List CrdtOutput) : List CrdtReadResponse :=
  out.filterMap fun
    | .readResponse response => some response
    | .diagnostic _ => none

/-- The reads that are on their way to the node or answered on the way back. -/
def outstanding (l : Link Client Exit CrdtNode CrdtInput CrdtOutput) : Nat :=
  l.up.countP isRead + (responses l.down).length

def prompted (moves : List (Move CrdtInput)) : List CrdtInput :=
  moves.filterMap fun
    | .prompt i => some i
    | .serve | .hear => none

/-- What the client applied of what it was answered. -/
def received (out : List CrdtOutput) : List CrdtInput :=
  (responses out).flatMap fun r => bootstrapInputs r.bootstrap ++ deliveries r.ops

variable {opts}

/-! ## The replica -/

/-- The node of the client after what it was told. -/
def replica (opts : ClientOpts) (taken : List CrdtOutput) : CrdtNode :=
  run 1024 (written opts ++ received taken)

theorem handleAll_node (c : Client) (inputs : List CrdtInput) :
    (c.handleAll inputs).node = after CrdtNode.handle c.node inputs := by
  induction inputs generalizing c with
  | nil => rfl
  | cons input rest ih => exact ih (c.handle input)

theorem written_local (opts : ClientOpts) {i : CrdtInput} (hi : i ∈ written opts) : i.isLocal = true :=
  List.mem_takeWhile_imp hi

theorem isRead_of_local {i : CrdtInput} (hi : i.isLocal = true) : isRead i = false := by
  cases i <;> first | rfl | simp [CrdtInput.isLocal] at hi

theorem mem_received {out : List CrdtOutput} {i : CrdtInput} (hi : i ∈ received out) :
    ∃ r ∈ responses out, i ∈ bootstrapInputs r.bootstrap ++ deliveries r.ops :=
  List.mem_flatMap.mp hi

theorem received_local {out : List CrdtOutput} {i : CrdtInput} (hi : i ∈ received out) :
    i.isLocal = true := by
  obtain ⟨r, -, hi⟩ := mem_received hi
  rcases List.mem_append.mp hi with hi | hi
  · obtain ⟨b, -, rfl⟩ := List.mem_map.mp hi
    rfl
  · obtain ⟨op, -, rfl⟩ := List.mem_map.mp hi
    rfl

theorem replica_inv (opts : ClientOpts) (taken : List CrdtOutput) : (replica opts taken).Inv :=
  run_inv 1024 _

theorem replica_open (opts : ClientOpts) (taken : List CrdtOutput) : (replica opts taken).Open := by
  refine run_local_open fun i hi => ?_
  rcases List.mem_append.mp hi with hi | hi
  · exact written_local opts hi
  · exact received_local hi

theorem responses_append (front back : List CrdtOutput) :
    responses (front ++ back) = responses front ++ responses back :=
  List.filterMap_append ..

theorem responses_handle (n : CrdtNode) {i : CrdtInput} (hi : isRead i = false) :
    responses (n.handle i).2 = [] := by
  cases i with
  | apply op =>
      rw [CrdtNode.handle_apply]
      have hspec := n.apply_spec op
      generalize n.apply op = result at hspec ⊢
      cases hspec with
      | equivocation _ _ _ _ => dsimp only; split <;> rfl
      | _ => rfl
  | installBootstrap b =>
      rw [CrdtNode.handle_installBootstrap]
      have hspec := n.installBootstrap_spec b
      generalize n.installBootstrap b = result at hspec ⊢
      cases hspec <;> rfl
  | read request => simp [isRead] at hi
  | _ => rfl

theorem received_response (taken : List CrdtOutput) (r : CrdtReadResponse) :
    received (taken ++ [.readResponse r]) =
      received taken ++ (bootstrapInputs r.bootstrap ++ deliveries r.ops) := by
  rw [received, responses_append, List.flatMap_append]
  exact congrArg _ (List.append_nil _)

theorem replica_response (taken : List CrdtOutput) (r : CrdtReadResponse) :
    Crdt.receive r (replica opts taken) = replica opts (taken ++ [.readResponse r]) := by
  rw [replica, replica, received_response, ← List.append_assoc]
  exact (after_append CrdtNode.handle _ _ _).symm

theorem replica_diagnostic (taken : List CrdtOutput) (d : CrdtDiagnostic) :
    replica opts (taken ++ [.diagnostic d]) = replica opts taken := by
  rw [replica, replica, received, responses_append]
  exact congrArg (fun l => run 1024 (written opts ++ l)) (congrArg _ (List.append_nil _))

/-! ## The answers -/

/-- Only a cursor that the node does not know is an invalid one. -/
theorem answer_invalid_iff (opts : Crdt.ClientOpts) (server : CrdtNode) {node : CrdtNode}
    (hnode : node.Inv) :
    (answer opts server node).state = .invalidCursor ↔ ¬ server.CursorKnown node.clock := by
  have hrequest : CrdtNode.requestCursor (sendRead opts node) = some node.clock :=
    clockMap_clockValue hnode.clock_canonical
  have hspec := server.read_spec (sendRead opts node)
  have hdrained := CrdtNode.drainedResponse_state server (sendRead opts node)
  rw [answer]
  generalize server.read (sendRead opts node) = response at hspec ⊢
  cases hspec with
  | malformed h => simp [hrequest] at h
  | ahead cursor hcursor h =>
      obtain rfl : node.clock = cursor := by simpa [hrequest] using hcursor
      exact iff_of_true rfl h
  | rebased cursor hcursor hknown _ _ _ =>
      obtain rfl : node.clock = cursor := by simpa [hrequest] using hcursor
      simp [CrdtNode.response, hknown]
  | data cursor hcursor hknown _ _ =>
      obtain rfl : node.clock = cursor := by simpa [hrequest] using hcursor
      simp [CrdtNode.response, hknown]
  | rebasedDrained cursor hcursor hknown _ _ _ _ =>
      obtain rfl : node.clock = cursor := by simpa [hrequest] using hcursor
      simp [hdrained.2.2, hknown]
  | drained cursor hcursor hknown _ _ =>
      obtain rfl : node.clock = cursor := by simpa [hrequest] using hcursor
      simp [hdrained.2.2, hknown]

/-- An answer to the clock of a node, at a time when the script had arrived. -/
def Given (opts : ClientOpts) (maxPending : Nat) (fed : List CrdtInput) (r : CrdtReadResponse)
    (node : CrdtNode) : Prop :=
  ∃ front, front <+: fed ∧ (written opts).Sublist front ∧
    r = answer opts.toClientOpts (run maxPending front) node

theorem Given.append {maxPending : Nat} {fed : List CrdtInput} {r : CrdtReadResponse}
    {node : CrdtNode} (h : Given opts maxPending fed r node) (more : List CrdtInput) :
    Given opts maxPending (fed ++ more) r node := by
  obtain ⟨front, hfront, hscript, hr⟩ := h
  exact ⟨front, hfront.trans (List.prefix_append fed more), hscript, hr⟩

/-- The read of a running client comes after what is left of its script, or its answer is
the one response on the way back. -/
inductive Place (opts : ClientOpts) (maxPending : Nat)
    (l : Link Client Exit CrdtNode CrdtInput CrdtOutput) (node : CrdtNode) : Prop where
  | asked (handed rest : List CrdtInput) (hscript : written opts = handed ++ rest)
      (hup : l.up = rest ++ [.read (sendRead opts.toClientOpts node)])
      (hfed : handed.Sublist l.fed) (hdown : responses l.down = [])
  | answered (r : CrdtReadResponse) (hgiven : Given opts maxPending l.fed r node)
      (hup : l.up = []) (hdown : responses l.down = [r])

inductive Stops (opts : ClientOpts) (maxPending : Nat)
    (l : Link Client Exit CrdtNode CrdtInput CrdtOutput) (c : Client) : Exit → Prop where
  | refused (h : written opts ≠ opts.replicaScript) : Stops opts maxPending l c .refused
  | final (r : CrdtReadResponse) (hwhole : written opts = opts.replicaScript)
      (hlast : (responses l.taken).getLast? = some r) (hgiven : Given opts maxPending l.fed r c.node)
      (hstop : r.state.continues = false) : Stops opts maxPending l c (final c)

section Place

variable {maxPending : Nat} {l : Link Client Exit CrdtNode CrdtInput CrdtOutput} {node : CrdtNode}

theorem Place.outstanding (h : Place opts maxPending l node) : outstanding l = 1 := by
  rw [CrdtTool.outstanding]
  cases h with
  | asked handed rest hscript hup hfed hdown =>
      have hrest : rest.countP isRead = 0 := by
        rw [List.countP_eq_zero]
        intro i hi
        have hlocal : i.isLocal = true :=
          written_local opts (hscript ▸ List.mem_append_right handed hi)
        simp [isRead_of_local hlocal]
      rw [hup, hdown, List.countP_append, hrest]
      rfl
  | answered r hgiven hup hdown =>
      rw [hup, hdown]
      rfl

theorem Place.prompt (h : Place opts maxPending l node) {i : CrdtInput} (hi : isRead i = false) :
    Place opts maxPending (l.feed CrdtNode.handle i) node := by
  have hdown' : responses (l.feed CrdtNode.handle i).down = responses l.down := by
    show responses (l.down ++ (l.node.handle i).2) = _
    rw [responses_append, responses_handle l.node hi, List.append_nil]
  cases h with
  | asked handed rest hscript hup hfed hdown =>
      exact .asked handed rest hscript hup (hfed.trans (List.sublist_append_left l.fed [i]))
        (hdown'.trans hdown)
  | answered r hgiven hup hdown =>
      exact .answered r (hgiven.append [i]) hup (hdown'.trans hdown)

theorem Place.serve (h : Place opts maxPending l node)
    (hrecorded : l.Recorded CrdtNode.handle (CrdtNode.new maxPending)) {i : CrdtInput}
    {rest : List CrdtInput} (hup : l.up = i :: rest) :
    Place opts maxPending ({ l with up := rest }.feed CrdtNode.handle i) node := by
  have hdown' : ∀ i, responses ({ l with up := rest }.feed CrdtNode.handle i).down =
      responses l.down ++ responses (l.node.handle i).2 :=
    fun i => responses_append l.down _
  cases h with
  | answered r hgiven hup' hdown => simp [hup'] at hup
  | asked handed left hscript hup' hfed hdown =>
      rw [hup'] at hup
      cases left with
      | nil =>
          -- the read itself, answered from all that the node has read
          obtain ⟨rfl, rfl⟩ := List.cons.inj hup
          refine .answered _ ⟨l.fed, List.prefix_append l.fed _, ?_, rfl⟩ rfl ?_
          · rw [hscript, List.append_nil]
            exact hfed
          · rw [hdown', hdown, run, ← hrecorded.node]
            rfl
      | cons j left =>
          obtain ⟨rfl, rfl⟩ := List.cons.inj hup
          have hlocal : j.isLocal = true := written_local opts (by simp [hscript])
          refine .asked (handed ++ [j]) left ?_ rfl (hfed.append (List.Sublist.refl [j])) ?_
          · rw [hscript, List.append_assoc]
            rfl
          · rw [hdown', hdown, responses_handle l.node (isRead_of_local hlocal)]
            rfl

theorem Stops.append {c : Client} {e : Exit} (h : Stops opts maxPending l c e) (i : CrdtInput)
    (up : List CrdtInput) :
    Stops opts maxPending ({ l with up := up }.feed CrdtNode.handle i) c e := by
  cases h with
  | refused hne => exact .refused hne
  | final r hwhole hlast hgiven hstop => exact .final r hwhole hlast (hgiven.append [i]) hstop

end Place

/-! ## Where each key has one operation -/

/-- Each key comes with one operation, and there is no bootstrap. -/
structure Single (inputs : List CrdtInput) : Prop where
  keys : OneOpPerKey inputs
  plain : ∀ b, .installBootstrap b ∉ inputs

/-- The inputs that are no reads are some of these. -/
def Within (offered inputs : List CrdtInput) : Prop :=
  ∀ i ∈ inputs, isRead i = true ∨ i ∈ offered

section Single

variable {offered inputs : List CrdtInput}

theorem Within.applied (h : Within offered inputs) {op : CrdtOp} (hop : op ∈ appliedOps inputs) :
    op ∈ appliedOps offered := by
  rw [mem_appliedOps] at hop ⊢
  exact (h _ hop).resolve_left (by simp [isRead])

theorem Within.oneOpPerKey (h : Within offered inputs) (hkeys : OneOpPerKey offered) :
    OneOpPerKey inputs :=
  fun a ha b hb => hkeys a (h.applied ha) b (h.applied hb)

theorem Within.bootstrap (h : Within offered inputs) (hsingle : Single offered)
    (maxPending : Nat) : (run maxPending inputs).bootstrap = none := by
  refine after_induction CrdtNode.handle (P := fun n => n.bootstrap = none) rfl fun n i hi hn => ?_
  cases i with
  | apply op => exact (n.apply_bootstrap op).trans hn
  | installBootstrap b =>
      exact absurd ((h _ hi).resolve_left (by simp [isRead])) (hsingle.plain b)
  | «seal» => simp only [CrdtNode.handle]; split <;> exact hn
  | close error => simp only [CrdtNode.handle]; split <;> exact hn
  | read request => exact hn

theorem Within.floor (h : Within offered inputs) (hsingle : Single offered) (maxPending : Nat) :
    (run maxPending inputs).floor = ∅ :=
  (run_inv maxPending inputs).unbootstrapped (h.bootstrap hsingle maxPending)

theorem Within.integrated_le (h : Within offered inputs) (maxPending : Nat) :
    (run maxPending inputs).integrated.size ≤ (appliedOps offered).length := by
  have hsubperm : (run maxPending inputs).integrated.toList.Subperm
      ((appliedOps offered).map key) := by
    refine List.subperm_of_subset (toList_nodup _) fun k hk => ?_
    have hinv := run_inv maxPending inputs
    obtain ⟨op, hop⟩ := exists_getElem?_of_mem (hinv.stored k (Std.ExtTreeSet.mem_toList.mp hk))
    obtain rfl := hinv.keyed k op hop
    exact List.mem_map_of_mem (h.applied (run_stored_mem maxPending inputs _ op hop))
  simpa using hsubperm.length_le

theorem Within.agrees {inputs' : List CrdtInput} (h : Within offered inputs)
    (h' : Within offered inputs') (hkeys : OneOpPerKey offered) (maxPending maxPending' : Nat) :
    ∀ op ∈ (run maxPending inputs).operations, ∀ held,
      (run maxPending' inputs').ops[key op]? = some held → held = op := by
  intro op hop held hheld
  obtain ⟨k, -, hstored⟩ := CrdtNode.mem_operations.mp hop
  have hkey := (run_inv maxPending' inputs').keyed _ held hheld
  exact hkeys held (h'.applied (run_stored_mem _ _ _ held hheld)) op
    (h.applied (run_stored_mem _ _ k op hstored)) hkey.symm

theorem Within.answered (h : Within offered inputs) (hsingle : Single offered) (maxPending : Nat)
    (opts : Crdt.ClientOpts) {node : CrdtNode} (hnode : node.Inv) :
    Within offered (bootstrapInputs (answer opts (run maxPending inputs) node).bootstrap ++
      deliveries (answer opts (run maxPending inputs) node).ops) := by
  have hnone : (answer opts (run maxPending inputs) node).bootstrap = none := by
    have hplain := h.bootstrap hsingle maxPending
    cases answer_spec opts (run_inv maxPending inputs) hnode with
    | install _ _ _ b hb _ _ => simp [hplain] at hb
    | data _ _ _ _ hbootstrap _ => exact hbootstrap
    | ahead _ _ hbootstrap _ => exact hbootstrap
    | drained _ _ _ _ hbootstrap _ => exact hbootstrap
  rw [hnone]
  intro i hi
  obtain ⟨op, hop, rfl⟩ := List.mem_map.mp hi
  obtain ⟨k, -, hstored⟩ := CrdtNode.mem_operations.mp (CrdtNode.read_ops_subset hop)
  exact .inr (mem_appliedOps.mp (h.applied (run_stored_mem maxPending inputs k op hstored)))

theorem Within.grows {inputs' : List CrdtInput} (h : Within offered inputs)
    (h' : Within offered inputs') (hsingle : Single offered) {maxPending maxPending' : Nat}
    {opts : Crdt.ClientOpts} (hopen : (run maxPending' inputs').Open)
    (hlive : continues opts (run maxPending inputs) (run maxPending' inputs') = true)
    (hfloor : (syncRound opts (run maxPending inputs) (run maxPending' inputs')).floor = ∅) :
    (run maxPending' inputs').integrated.size <
      (syncRound opts (run maxPending inputs) (run maxPending' inputs')).integrated.size := by
  have hsame : (run maxPending' inputs').floor = (run maxPending inputs).floor :=
    (h'.floor hsingle maxPending').trans (h.floor hsingle maxPending).symm
  exact round_integrates (run_inv maxPending inputs) (run_inv maxPending' inputs') hopen hsame
    (run_grounded maxPending (h.oneOpPerKey hsingle.keys))
    (h.agrees h' hsingle.keys maxPending maxPending')
    (hfloor.trans (h'.floor hsingle maxPending').symm) hlive

end Single

/-! ## The conversation -/

/-- What holds at every moment, where the script and the prompts are some of the offered
inputs. -/
structure Reading (opts : ClientOpts) (maxPending : Nat) (offered : List CrdtInput)
    (l : Link Client Exit CrdtNode CrdtInput CrdtOutput) : Prop where
  recorded : l.Recorded CrdtNode.handle (CrdtNode.new maxPending)
  fed : Within offered l.fed
  up : Within offered l.up
  node_eq : l.client.state.node = replica opts l.taken
  heard : ∀ r ∈ responses l.taken, ∃ node : CrdtNode, node.Inv ∧ Given opts maxPending l.fed r node
  running : ∀ c, l.client = .running c →
    written opts = opts.replicaScript ∧ Place opts maxPending l c.node
  stopped : ∀ c e, l.client = .stopped c e → Stops opts maxPending l c e
  grown : Single offered → (responses l.taken).length ≤
    (replica opts l.taken).integrated.size + l.client.outcome.toList.length

theorem Within.of_given {offered fed : List CrdtInput} (h : Within offered fed)
    (hsingle : Single offered) {maxPending : Nat} {r : CrdtReadResponse} {node : CrdtNode}
    (hnode : node.Inv) (hgiven : Given opts maxPending fed r node) :
    Within offered (bootstrapInputs r.bootstrap ++ deliveries r.ops) := by
  obtain ⟨front, hfront, -, rfl⟩ := hgiven
  exact Within.answered (fun i hi => h i (hfront.subset hi)) hsingle maxPending _ hnode

namespace Reading

variable {maxPending : Nat} {offered : List CrdtInput}
  {l : Link Client Exit CrdtNode CrdtInput CrdtOutput}

theorem feed (h : Reading opts maxPending offered l) {i : CrdtInput} {rest : List CrdtInput}
    (hi : isRead i = true ∨ i ∈ offered) (hrest : Within offered rest)
    (hplace : ∀ node, Place opts maxPending l node →
      Place opts maxPending ({ l with up := rest }.feed CrdtNode.handle i) node) :
    Reading opts maxPending offered ({ l with up := rest }.feed CrdtNode.handle i) where
  recorded := Link.Recorded.feed (l := { l with up := rest })
    ⟨h.recorded.node, h.recorded.sent⟩ i
  fed := by
    intro j hj
    rcases List.mem_append.mp hj with hj | hj
    · exact h.fed j hj
    · rwa [List.mem_singleton.mp hj]
  up := hrest
  node_eq := h.node_eq
  heard := by
    intro r hr
    obtain ⟨node, hnode, hgiven⟩ := h.heard r hr
    exact ⟨node, hnode, hgiven.append [i]⟩
  running := fun c hc => ⟨(h.running c hc).1, hplace c.node (h.running c hc).2⟩
  stopped := fun c e hc => (h.stopped c e hc).append i rest
  grown := h.grown

theorem diagnosed (h : Reading opts maxPending offered l) {c : Client} {d : CrdtDiagnostic}
    {rest : List CrdtOutput} (hc : l.client = .running c) (hdown : l.down = .diagnostic d :: rest) :
    Reading opts maxPending offered
      { l with
        client := (receive opts c (.diagnostic d)).1
        up := l.up ++ (receive opts c (.diagnostic d)).2
        down := rest
        taken := l.taken ++ [.diagnostic d] } := by
  have htaken : responses (l.taken ++ [.diagnostic d]) = responses l.taken := by
    rw [responses_append]
    exact List.append_nil _
  have hup : l.up ++ (receive opts c (.diagnostic d)).2 = l.up := List.append_nil _
  have hnode : c.node = replica opts l.taken := by
    rw [← h.node_eq, hc]
    rfl
  rw [hup]
  refine ⟨h.recorded.listen hdown, h.fed, h.up, ?_, ?_, fun c' hc' => ?_, fun c' e hc' => ?_,
    fun hsingle => ?_⟩
  · rw [replica_diagnostic]
    exact hnode
  · rw [htaken]
    exact h.heard
  · obtain ⟨hwhole, hplace⟩ := h.running c hc
    obtain rfl : _ = c' := Party.running.inj hc'
    refine ⟨hwhole, ?_⟩
    cases hplace with
    | asked handed left hscript hup hfed hnone =>
        rw [hdown] at hnone
        exact .asked handed left hscript hup hfed hnone
    | answered r hgiven hup hone =>
        rw [hdown] at hone
        exact .answered r hgiven hup hone
  · simp [receive] at hc'
  · have hgrown := h.grown hsingle
    rw [hc] at hgrown
    rw [htaken, replica_diagnostic]
    exact hgrown

theorem answer_given (h : Reading opts maxPending offered l) {c : Client} {r : CrdtReadResponse}
    {rest : List CrdtOutput} (hc : l.client = .running c)
    (hdown : l.down = .readResponse r :: rest) :
    Given opts maxPending l.fed r c.node ∧ l.up = [] ∧ responses rest = [] := by
  have hresponses : responses l.down = r :: responses rest := by
    rw [hdown]
    rfl
  cases (h.running c hc).2 with
  | asked handed left hscript hup hfed hnone => simp [hresponses] at hnone
  | answered r' hgiven hup hone =>
      obtain ⟨rfl, hnone⟩ := List.cons.inj (hresponses.symm.trans hone)
      exact ⟨hgiven, hup, hnone⟩

theorem replica_within (h : Reading opts maxPending offered l)
    (hscript : ∀ i ∈ opts.replicaScript, i ∈ offered) (hsingle : Single offered) :
    Within offered (written opts ++ received l.taken) := by
  intro i hi
  rcases List.mem_append.mp hi with hi | hi
  · exact .inr (hscript i ((List.takeWhile_sublist _).subset hi))
  · obtain ⟨r, hr, hi⟩ := mem_received hi
    obtain ⟨node, hnode, hgiven⟩ := h.heard r hr
    exact h.fed.of_given hsingle hnode hgiven i hi

/-- A response that the client follows with another read has integrated an operation. -/
theorem grows (h : Reading opts maxPending offered l)
    (hscript : ∀ i ∈ opts.replicaScript, i ∈ offered) (hsingle : Single offered)
    {r : CrdtReadResponse} (hgiven : Given opts maxPending l.fed r (replica opts l.taken))
    (hlive : r.state.continues = true) :
    (replica opts l.taken).integrated.size <
      (replica opts (l.taken ++ [.readResponse r])).integrated.size := by
  have hnext : Within offered (written opts ++ received (l.taken ++ [.readResponse r])) := by
    rw [received_response, ← List.append_assoc]
    intro i hi
    rcases List.mem_append.mp hi with hi | hi
    · exact h.replica_within hscript hsingle i hi
    · exact h.fed.of_given hsingle (replica_inv opts l.taken) hgiven i hi
  have hfloor := hnext.floor hsingle 1024
  obtain ⟨front, hfront, -, rfl⟩ := hgiven
  rw [← replica, ← replica_response] at hfloor
  rw [← replica_response]
  exact Within.grows (fun i hi => h.fed i (hfront.subset hi)) (h.replica_within hscript hsingle)
    hsingle (replica_open opts l.taken) hlive hfloor

theorem responded (h : Reading opts maxPending offered l)
    (hscript : ∀ i ∈ opts.replicaScript, i ∈ offered) {c : Client} {r : CrdtReadResponse}
    {rest : List CrdtOutput} (hc : l.client = .running c)
    (hdown : l.down = .readResponse r :: rest) :
    Reading opts maxPending offered
      { l with
        client := (receive opts c (.readResponse r)).1
        up := l.up ++ (receive opts c (.readResponse r)).2
        down := rest
        taken := l.taken ++ [.readResponse r] } := by
  obtain ⟨hgiven, hup, hnone⟩ := h.answer_given hc hdown
  have hnode : c.node = replica opts l.taken := by
    rw [← h.node_eq, hc]
    rfl
  have htaken : responses (l.taken ++ [.readResponse r]) = responses l.taken ++ [r] :=
    responses_append _ _
  generalize hnext : c.handleAll (bootstrapInputs r.bootstrap ++ deliveries r.ops) = c'
  have hnode' : c'.node = replica opts (l.taken ++ [.readResponse r]) := by
    rw [← hnext, handleAll_node, ← replica_response, ← hnode]
    rfl
  have hheard : ∀ r' ∈ responses (l.taken ++ [.readResponse r]),
      ∃ node : CrdtNode, node.Inv ∧ Given opts maxPending l.fed r' node := by
    intro r' hr'
    rw [htaken] at hr'
    rcases List.mem_append.mp hr' with hr' | hr'
    · exact h.heard r' hr'
    · obtain rfl := List.mem_singleton.mp hr'
      exact ⟨c.node, hnode ▸ replica_inv opts l.taken, hgiven⟩
  have hcount : (responses (l.taken ++ [.readResponse r])).length =
      (responses l.taken).length + 1 := by
    rw [htaken, List.length_append]
    rfl
  have hgrown : Single offered →
      (responses l.taken).length ≤ (replica opts l.taken).integrated.size := by
    intro hsingle
    have hold := h.grown hsingle
    rwa [hc] at hold
  have hwhole := (h.running c hc).1
  cases hlive : r.state.continues with
  | true =>
      have hreceive : receive opts c (.readResponse r) =
          (.running c', [.read (sendRead opts.toClientOpts c'.node)]) := by
        simp only [receive, hnext, hlive, if_true]
      rw [hreceive, hup]
      refine ⟨h.recorded.listen hdown, h.fed, fun i hi => ?_, hnode', hheard, fun c'' hc'' => ?_,
        fun c'' e hc'' => by simp at hc'', fun hsingle => ?_⟩
      · obtain rfl := List.mem_singleton.mp hi
        exact .inl rfl
      · obtain rfl := Party.running.inj hc''
        obtain ⟨front, hfront, hwritten, -⟩ := hgiven
        exact ⟨hwhole, .asked (written opts) [] (List.append_nil _).symm rfl
          (hwritten.trans hfront.sublist) hnone⟩
      · have hlt := h.grows hscript hsingle (hnode ▸ hgiven) hlive
        have hle := hgrown hsingle
        rw [hcount]
        exact Nat.le_add_right_of_le (Nat.succ_le_of_lt (hle.trans_lt hlt))
  | false =>
      have hreceive : receive opts c (.readResponse r) = (.stopped c' (final c'), []) := by
        simp [receive, hnext, hlive]
      have hsame : c'.node = c.node := by
        obtain ⟨front, -, -, rfl⟩ := hgiven
        rw [hnode', ← replica_response, ← hnode]
        exact syncRound_idle (run_inv maxPending front) (hnode ▸ replica_inv opts l.taken) hlive
      rw [hreceive, hup]
      refine ⟨h.recorded.listen hdown, h.fed, fun i hi => by simp at hi, hnode', hheard,
        fun c'' hc'' => by simp at hc'', fun c'' e hc'' => ?_, fun hsingle => ?_⟩
      · obtain ⟨rfl, rfl⟩ := Party.stopped.inj hc''
        refine .final r hwhole ?_ (hsame ▸ hgiven) hlive
        show (responses (l.taken ++ [.readResponse r])).getLast? = some r
        rw [htaken]
        exact List.getLast?_concat
      · have hle := hgrown hsingle
        rw [hcount, ← hnode', hsame, hnode]
        exact Nat.add_le_add_right hle 1

end Reading

theorem opening_reading (opts : ClientOpts) (maxPending : Nat) {offered : List CrdtInput}
    (hscript : ∀ i ∈ opts.replicaScript, i ∈ offered) :
    Reading opts maxPending offered (Link.opening (start opts) (CrdtNode.new maxPending)) := by
  have hwritten : Within offered (written opts) :=
    fun i hi => .inr (hscript i ((List.takeWhile_sublist _).subset hi))
  have hnode : (Client.new.handleAll (written opts)).node = replica opts [] := by
    rw [handleAll_node, replica]
    exact congrArg (run 1024) (List.append_nil _).symm
  have hempty : Within offered [] := fun i hi => by simp at hi
  have hsilent : ∀ r ∈ responses [], ∃ node : CrdtNode,
      node.Inv ∧ Given opts maxPending [] r node :=
    fun r hr => by simp [responses] at hr
  rw [start]
  by_cases hwhole : written opts = opts.replicaScript
  · simp only [if_pos hwhole]
    refine ⟨⟨rfl, rfl⟩, hempty, fun i hi => ?_, hnode, hsilent, fun c hc => ?_,
      fun c e hc => by simp [Link.opening] at hc, fun _ => Nat.zero_le _⟩
    · rcases List.mem_append.mp hi with hi | hi
      · exact hwritten i hi
      · obtain rfl := List.mem_singleton.mp hi
        exact .inl rfl
    · obtain rfl := Party.running.inj hc
      exact ⟨hwhole, .asked [] (written opts) rfl rfl (List.nil_sublist _) rfl⟩
  · simp only [if_neg hwhole]
    refine ⟨⟨rfl, rfl⟩, hempty, hwritten, hnode, hsilent,
      fun c hc => by simp [Link.opening] at hc, fun c e hc => ?_, fun _ => Nat.zero_le _⟩
    obtain ⟨rfl, rfl⟩ := Party.stopped.inj hc
    exact .refused hwhole

theorem mem_prompted {moves : List (Move CrdtInput)} {i : CrdtInput} (hi : .prompt i ∈ moves) :
    i ∈ prompted moves :=
  List.mem_filterMap.mpr ⟨_, hi, rfl⟩

theorem session_reading (opts : ClientOpts) (maxPending : Nat) {moves : List (Move CrdtInput)}
    (hmoves : ∀ i, .prompt i ∈ moves → isRead i = false) :
    Reading opts maxPending (opts.replicaScript ++ prompted moves)
      (session opts maxPending moves) := by
  have hscript : ∀ i ∈ opts.replicaScript, i ∈ opts.replicaScript ++ prompted moves :=
    fun i hi => List.mem_append_left _ hi
  have hallowed : ∀ i, .prompt i ∈ moves →
      isRead i = false ∧ i ∈ opts.replicaScript ++ prompted moves :=
    fun i hi => ⟨hmoves i hi, List.mem_append_right _ (mem_prompted hi)⟩
  refine Link.run_induction (opening_reading opts maxPending hscript) (fun l i rest h hup => ?_)
    (fun l i h hi => ?_) (fun l c o rest h hc hdown => ?_) hallowed
  · have hi := h.up i (by simp [hup])
    refine h.feed hi (fun j hj => h.up j ?_) fun node hplace => hplace.serve h.recorded hup
    rw [hup]
    exact List.mem_cons_of_mem i hj
  · exact h.feed (.inr hi.2) h.up fun node hplace => hplace.prompt hi.1
  · cases o with
    | diagnostic d => exact h.diagnosed hc hdown
    | readResponse r => exact h.responded hscript hc hdown

/-! ## The session -/

/-- **The replica client.**  Whatever the pace of the two and whatever else is applied,
sealed and closed meanwhile: while the client runs exactly one read of it is under way, so
it never waits with empty pipes; its node is the one of its script and of what it was
answered; and it ends with its clock at the one the node had when it had read the whole
script, or with a cursor that the node did not know. -/
theorem crdt_session (opts : ClientOpts) (maxPending : Nat) (moves : List (Move CrdtInput))
    (hmoves : ∀ i, .prompt i ∈ moves → isRead i = false) :
    let l := session opts maxPending moves
    (∀ c, l.client = .running c → outstanding l = 1) ∧
    l.client.state.node = run 1024 (written opts ++ received l.taken) ∧
    (∀ c, l.client = .stopped c .refused → written opts ≠ opts.replicaScript) ∧
    ∀ c clock ops diagnostics, l.client = .stopped c (.final clock ops diagnostics) →
      clock = c.node.clockMessage ∧ ops = c.node.operations ∧
      ∃ front last, front <+: l.fed ∧ opts.replicaScript.Sublist front ∧
        (responses l.taken).getLast? = some last ∧
        (last.state = .invalidCursor ∧ ¬ (run maxPending front).CursorKnown c.node.clock ∨
          last.state ≠ .invalidCursor ∧ clock = (run maxPending front).clockMessage) := by
  intro l
  have hreading : Reading opts maxPending _ l := session_reading opts maxPending hmoves
  refine ⟨fun c hc => (hreading.running c hc).2.outstanding, hreading.node_eq, fun c hc => ?_,
    fun c clock ops diagnostics hc => ?_⟩
  · cases hreading.stopped c _ hc with
    | refused hne => exact hne
  · cases hreading.stopped c _ hc with
    | final r hwhole hlast hgiven hstop =>
        obtain ⟨front, hfront, hwritten, rfl⟩ := hgiven
        have hnode : c.node.Inv := by
          have heq := hreading.node_eq
          rw [hc] at heq
          exact heq ▸ replica_inv opts l.taken
        refine ⟨rfl, rfl, front, _, hfront, hwhole ▸ hwritten, hlast, ?_⟩
        have hinvalid := answer_invalid_iff opts.toClientOpts (run maxPending front) hnode
        cases answer_spec opts.toClientOpts (run_inv maxPending front) hnode with
        | install hstate _ _ _ _ _ _ => simp [hstate, CrdtState.continues] at hstop
        | data hstate _ _ _ _ _ => simp [hstate, CrdtState.continues] at hstop
        | ahead _ hahead _ _ => exact .inl ⟨hinvalid.mpr hahead, hahead⟩
        | drained _ hknown habove hempty _ _ =>
            refine .inr ⟨fun hstate => hinvalid.mp hstate hknown, ?_⟩
            rw [CrdtNode.clockMessage, CrdtNode.clockMessage,
              clock_eq_of_drained (run_inv maxPending front) hnode hknown habove hempty]

/-- A node that was sealed before the script arrived does not know the clock of the client. -/
theorem crdt_session_sealed :
    let op : CrdtOp := ⟨"a", 1, ⟨[]⟩, []⟩
    let opts : ClientOpts := { crdtId := "doc", streamId := "s", replicaScript := [.apply op] }
    let l := session opts 8 [.prompt .seal, .serve, .serve, .hear, .hear]
    l.client.outcome =
        some (.final ⟨[⟨"a", 1⟩]⟩ [op] [⟨"apply_after_terminal", some "a", some 1⟩]) ∧
      ∀ c clock ops diagnostics, l.client = .stopped c (.final clock ops diagnostics) →
        clock = c.node.clockMessage ∧ ops = c.node.operations ∧
        ∃ front last, front <+: l.fed ∧ opts.replicaScript.Sublist front ∧
          (responses l.taken).getLast? = some last ∧
          (last.state = .invalidCursor ∧ ¬ (run 8 front).CursorKnown c.node.clock ∨
            last.state ≠ .invalidCursor ∧ clock = (run 8 front).clockMessage) := by
  intro op opts l
  have hsession := crdt_session opts 8 [.prompt .seal, .serve, .serve, .hear, .hear]
    (by simp [isRead])
  exact ⟨by decide +kernel, hsession.2.2.2⟩

/-- **Convergence.**  Where each key comes with one operation and nobody brings a bootstrap,
each response but the last one makes the client integrate something, so that it reads at
most once for each operation and once more, however the inputs are spread over the run; and
it ends with the operations that the node had integrated when it had read the whole script,
unless it was ahead of the node. -/
theorem crdt_client_converges (opts : ClientOpts) (maxPending : Nat)
    (moves : List (Move CrdtInput)) (hmoves : ∀ i, .prompt i ∈ moves → isRead i = false)
    (hkeys : OneOpPerKey (opts.replicaScript ++ prompted moves))
    (hplain : ∀ b, .installBootstrap b ∉ opts.replicaScript ++ prompted moves) :
    let l := session opts maxPending moves
    (responses l.taken).length ≤
        (appliedOps (opts.replicaScript ++ prompted moves)).length + 1 ∧
      ∀ c clock ops diagnostics, l.client = .stopped c (.final clock ops diagnostics) →
        (∃ last, (responses l.taken).getLast? = some last ∧ last.state = .invalidCursor) ∨
        ∃ front, front <+: l.fed ∧ opts.replicaScript.Sublist front ∧
          clock = (run maxPending front).clockMessage ∧ ops = (run maxPending front).operations := by
  intro l
  have hsingle : Single (opts.replicaScript ++ prompted moves) := ⟨hkeys, hplain⟩
  have hreading : Reading opts maxPending _ l := session_reading opts maxPending hmoves
  have hwithin := hreading.replica_within (fun i hi => List.mem_append_left _ hi) hsingle
  refine ⟨?_, fun c clock ops diagnostics hc => ?_⟩
  · have hgrown := hreading.grown hsingle
    have hbound := hwithin.integrated_le 1024
    have houtcome : l.client.outcome.toList.length ≤ 1 := by
      cases l.client.outcome <;> simp
    exact hgrown.trans (Nat.add_le_add hbound houtcome)
  · cases hreading.stopped c _ hc with
    | final r hwhole hlast hgiven hstop =>
        obtain ⟨front, hfront, hwritten, rfl⟩ := hgiven
        have hfed : Within (opts.replicaScript ++ prompted moves) front :=
          fun i hi => hreading.fed i (hfront.subset hi)
        have hnode : c.node = replica opts l.taken := by
          rw [← hreading.node_eq, hc]
          rfl
        have hserver := run_inv maxPending front
        rw [hnode] at hlast hstop ⊢
        have hinv := replica_inv opts l.taken
        have hinvalid := answer_invalid_iff opts.toClientOpts (run maxPending front) hinv
        cases answer_spec opts.toClientOpts hserver hinv with
        | install hstate _ _ _ _ _ _ => simp [hstate, CrdtState.continues] at hstop
        | data hstate _ _ _ _ _ => simp [hstate, CrdtState.continues] at hstop
        | ahead _ hahead _ _ => exact .inl ⟨_, hlast, hinvalid.mpr hahead⟩
        | drained _ hknown habove hempty _ _ =>
            have hclock := clock_eq_of_drained hserver hinv hknown habove hempty
            have hfloor : (replica opts l.taken).floor = (run maxPending front).floor :=
              (hwithin.floor hsingle 1024).trans (hfed.floor hsingle maxPending).symm
            refine .inr ⟨front, hfront, hwhole ▸ hwritten, ?_, ?_⟩
            · rw [CrdtNode.clockMessage, CrdtNode.clockMessage, hclock]
            · exact operations_eq_of_agrees hserver hinv hfloor hclock
                (hfed.agrees hwithin hkeys maxPending 1024)

/-- An operation that arrives between two reads is the answer of the second one. -/
theorem crdt_client_converges_meanwhile :
    let a : CrdtOp := ⟨"a", 1, ⟨[]⟩, []⟩
    let b : CrdtOp := ⟨"b", 1, ⟨[⟨"a", 1⟩]⟩, []⟩
    let c : CrdtOp := ⟨"b", 2, ⟨[]⟩, []⟩
    let opts : ClientOpts := { crdtId := "doc", streamId := "s", replicaScript := [.apply a] }
    let moves : List (Move CrdtInput) := [.prompt (.apply b), .serve, .serve,
      .prompt (.apply c), .hear, .serve, .hear, .serve, .hear]
    let l := session opts 8 moves
    l.client.outcome = some (.final ⟨[⟨"a", 1⟩, ⟨"b", 2⟩]⟩ [a, b, c] []) ∧
      (responses l.taken).length ≤ 4 ∧
      ∀ c clock ops diagnostics, l.client = .stopped c (.final clock ops diagnostics) →
        (∃ last, (responses l.taken).getLast? = some last ∧ last.state = .invalidCursor) ∨
        ∃ front, front <+: l.fed ∧ opts.replicaScript.Sublist front ∧
          clock = (run 8 front).clockMessage ∧ ops = (run 8 front).operations := by
  intro a b c opts moves l
  have hconverges := crdt_client_converges opts 8 moves (by simp [moves, isRead]) (by decide)
    (by simp [opts, moves, prompted])
  exact ⟨by decide +kernel, hconverges⟩

end TautShape.CrdtTool
