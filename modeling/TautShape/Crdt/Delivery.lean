import TautShape.Crdt.Read
import TautShape.Lib.Closure
/-!
# Causal integration as a least set

Each operation is a rule: its key may be integrated once the keys of its
predecessor and of its dependencies are, those at or below the floor counting as
given.  Readiness is the premise test of that rule, so the drain loop computes
the least set closed under the rules of what is stored.
-/

namespace TautShape.Crdt

open TautShape.Lib

/-- The rule an operation contributes over a floor. -/
def causalRule (floor : ClockMap) (op : CrdtOp) : Rule OpKey where
  premises := {k | floor.getD k.origin 0 < k.seq ∧
    (k = ⟨op.origin, op.seq - 1⟩ ∨ ∃ e ∈ op.deps.entries, k = ⟨e.origin, e.seq⟩)}
  conclusion := key op

def causalRules (floor : ClockMap) (ops : Set CrdtOp) : Set (Rule OpKey) :=
  {r | ∃ op ∈ ops, floor.getD op.origin 0 < op.seq ∧ r = causalRule floor op}

theorem causalRules_mono {floor : ClockMap} {ops ops' : Set CrdtOp} (h : ops ⊆ ops') :
    causalRules floor ops ⊆ causalRules floor ops' := by
  rintro r ⟨op, hop, habove, rfl⟩
  exact ⟨op, h hop, habove, rfl⟩

namespace CrdtNode

def integratedSet (n : CrdtNode) : Set OpKey := {k | k ∈ n.integrated}

def storedSet (n : CrdtNode) : Set CrdtOp := {op | ∃ k : OpKey, n.ops[k]? = some op}

theorem ready_iff_premises {n : CrdtNode} (hn : Wf n) {op : CrdtOp}
    (hvalid : valid op = true) :
    n.ready op = true ↔ (causalRule n.floor op).premises ⊆ n.integratedSet := by
  rw [ready_iff hvalid]
  constructor
  · rintro ⟨hseq, hdeps⟩ ⟨o, s⟩ ⟨habove, hk⟩
    refine (hn.contiguous o s).mpr ⟨habove, ?_⟩
    rcases hk with hk | ⟨e, he, hk⟩
    · obtain ⟨rfl, rfl⟩ := OpKey.mk.inj hk
      omega
    · obtain ⟨rfl, rfl⟩ := OpKey.mk.inj hk
      exact hdeps e he
  · intro hpremises
    -- a key is covered by the clock through the floor or through the integrated set
    have hcovered : ∀ o s, (o = op.origin ∧ s = op.seq - 1 ∨
        ∃ e ∈ op.deps.entries, o = e.origin ∧ s = e.seq) → s ≤ n.clock.getD o 0 := by
      intro o s hk
      by_cases habove : n.floor.getD o 0 < s
      · have hmem : (⟨o, s⟩ : OpKey) ∈ n.integratedSet :=
          hpremises ⟨habove, by simpa using hk⟩
        exact ((hn.contiguous o s).mp hmem).2
      · exact (not_lt.mp habove).trans (hn.floor_le o)
    have hprev := hcovered op.origin (op.seq - 1) (.inl ⟨rfl, rfl⟩)
    refine ⟨by omega, fun e he => ?_⟩
    exact hcovered e.origin e.seq (.inr ⟨e, he, rfl, rfl⟩)

/-- Completeness of the loop: what it leaves is closed under the stored rules. -/
theorem Inv.integrated_closed {n : CrdtNode} (hn : Inv n) :
    Closed (causalRules n.floor n.storedSet) n.integratedSet := by
  rintro r ⟨op, ⟨k, hop⟩, -, rfl⟩ hpremises
  have hready := (ready_iff_premises hn.toWf (hn.all_valid k op hop)).mpr hpremises
  by_contra hnew
  have hk := hn.keyed k op hop
  rw [hn.not_ready hop (hk ▸ hnew)] at hready
  simp at hready

theorem Inv.derivable_subset {n : CrdtNode} (hn : Inv n) :
    derivable (causalRules n.floor n.storedSet) ⊆ n.integratedSet :=
  TautShape.Lib.derivable_subset hn.integrated_closed

/-- Soundness of the loop: it stays inside every set closed under the stored rules. -/
theorem drain_subset_closed {n : CrdtNode} (hn : Wf n) {ops : Set CrdtOp} {s : Set OpKey}
    (hops : n.storedSet ⊆ ops) (hs : Closed (causalRules n.floor ops) s)
    (hsub : n.integratedSet ⊆ s) : n.drain.integratedSet ⊆ s := by
  have hkept : n.drain.ops = n.ops ∧ n.drain.floor = n.floor ∧ n.drain.integratedSet ⊆ s := by
    refine drain_induction (P := fun m => m.ops = n.ops ∧ m.floor = n.floor ∧
      m.integratedSet ⊆ s) hn ⟨rfl, rfl, hsub⟩ ?_
    rintro m _ hm ⟨hmops, hmfloor, hmsub⟩ ⟨k, op, hop, -, hready⟩
    have hvalid := hm.all_valid k op hop
    have hmem : op ∈ ops := hops ⟨k, hmops ▸ hop⟩
    have habove := hm.above k op hop
    have hpremises := (ready_iff_premises hm hvalid).mp hready
    rw [hmfloor] at habove hpremises
    have hkey : key op ∈ s := hs _ ⟨op, hmem, habove, rfl⟩ (hpremises.trans hmsub)
    rw [integrate_eq hop]
    refine ⟨hmops, hmfloor, ?_⟩
    intro k' hk'
    rcases (mem_insert_set _ _ _).mp hk' with rfl | hk'
    · exact hm.keyed _ op hop ▸ hkey
    · exact hmsub hk'
  exact hkept.2.2

end CrdtNode

/-! ## Deliveries without a dropped operation -/

def CrdtOutput.exceedsPendingBound : CrdtOutput → Bool
  | .diagnostic d => d.code == .pendingBoundExceeded
  | .readResponse _ => false

def PendingBoundFree (outs : List CrdtOutput) : Prop :=
  ∀ out ∈ outs, out.exceedsPendingBound = false

instance (outs : List CrdtOutput) : Decidable (PendingBoundFree outs) :=
  inferInstanceAs (Decidable (∀ out ∈ outs, _))

/-- What a node holds after operations `l` were delivered above floor `f` and none of
them was dropped. -/
structure Delivered (f : ClockMap) (l : List CrdtOp) (n : CrdtNode) : Prop where
  inv : n.Inv
  floor_eq : n.floor = f
  unsealed : n.sealed = false
  unclosed : n.closed = false
  stored_mem : ∀ (k : OpKey) (op : CrdtOp), n.ops[k]? = some op → op ∈ l
  stored_le : ∀ op ∈ l, CrdtNode.valid op = true → f.getD op.origin 0 < op.seq →
    ∃ least : CrdtOp, n.ops[key op]? = some least ∧
      (compare (variant least) (variant op)).isLE = true
  integrated_sub : n.integratedSet ⊆ derivable (causalRules f {op | op ∈ l})
  equivocated_sound : ∀ k ∈ n.equivocated, ∃ a ∈ l, ∃ b ∈ l, key a = k ∧ key b = k ∧ a ≠ b
  equivocated_complete : ∀ op ∈ l, CrdtNode.valid op = true → f.getD op.origin 0 < op.seq →
    key op ∈ n.equivocated ∨ n.ops[key op]? = some op

theorem variant_le_of_not_lt {a b : CrdtOp}
    (h : (compare (variant a) (variant b)).isLT = false) :
    (compare (variant b) (variant a)).isLE = true := by
  have hswap : compare (variant b) (variant a) = (compare (variant a) (variant b)).swap :=
    Std.OrientedCmp.eq_swap
  rw [hswap]
  cases hcompare : compare (variant a) (variant b) <;> simp_all

theorem delivered_nil {n : CrdtNode} (hn : n.Inv) (hsealed : n.sealed = false)
    (hclosed : n.closed = false) (hops : n.ops = ∅) (hequivocated : n.equivocated = ∅) :
    Delivered n.floor [] n := by
  have hempty := CrdtNode.not_mem_integrated_of_empty hn.toWf hops
  refine ⟨hn, rfl, hsealed, hclosed, ?_, by simp, ?_, ?_, by simp⟩
  · simp [hops]
  · intro k hk
    exact absurd hk (hempty k)
  · simp [hequivocated]

theorem Delivered.derivable_concat {f : ClockMap} {l : List CrdtOp} {n : CrdtNode}
    (h : Delivered f l n) (op : CrdtOp) :
    n.integratedSet ⊆ derivable (causalRules f {a | a ∈ l ++ [op]}) := by
  refine h.integrated_sub.trans (derivable_mono (causalRules_mono ?_))
  exact fun a ha => List.mem_append_left _ ha

theorem Delivered.sound_concat {f : ClockMap} {l : List CrdtOp} {n : CrdtNode}
    (h : Delivered f l n) (op : CrdtOp) :
    ∀ k ∈ n.equivocated, ∃ a ∈ l ++ [op], ∃ b ∈ l ++ [op], key a = k ∧ key b = k ∧ a ≠ b := by
  intro k hk
  obtain ⟨a, ha, b, hb, hab⟩ := h.equivocated_sound k hk
  exact ⟨a, List.mem_append_left _ ha, b, List.mem_append_left _ hb, hab⟩

theorem Delivered.skip {f : ClockMap} {l : List CrdtOp} {n : CrdtNode} (h : Delivered f l n)
    {op : CrdtOp} (hop : CrdtNode.valid op = true → f.getD op.origin 0 < op.seq →
      n.ops[key op]? = some op) : Delivered f (l ++ [op]) n where
  inv := h.inv
  floor_eq := h.floor_eq
  unsealed := h.unsealed
  unclosed := h.unclosed
  stored_mem k a ha := List.mem_append_left _ (h.stored_mem k a ha)
  stored_le := by
    intro a ha hvalid habove
    rcases List.mem_append.mp ha with ha | ha
    · exact h.stored_le a ha hvalid habove
    · obtain rfl := List.mem_singleton.mp ha
      exact ⟨a, hop hvalid habove, by simp⟩
  integrated_sub := h.derivable_concat op
  equivocated_sound := h.sound_concat op
  equivocated_complete := by
    intro a ha hvalid habove
    rcases List.mem_append.mp ha with ha | ha
    · exact h.equivocated_complete a ha hvalid habove
    · obtain rfl := List.mem_singleton.mp ha
      exact .inr (hop hvalid habove)

theorem Delivered.drain {f : ClockMap} {l : List CrdtOp} {m : CrdtNode} (hm : m.Wf)
    (hinv : m.drain.Inv) (hfloor : m.floor = f) (hsealed : m.sealed = false)
    (hclosed : m.closed = false)
    (hmem : ∀ (k : OpKey) (op : CrdtOp), m.ops[k]? = some op → op ∈ l)
    (hle : ∀ op ∈ l, CrdtNode.valid op = true → f.getD op.origin 0 < op.seq →
      ∃ least : CrdtOp, m.ops[key op]? = some least ∧
        (compare (variant least) (variant op)).isLE = true)
    (hsub : m.integratedSet ⊆ derivable (causalRules f {op | op ∈ l}))
    (hsound : ∀ k ∈ m.equivocated, ∃ a ∈ l, ∃ b ∈ l, key a = k ∧ key b = k ∧ a ≠ b)
    (hcomplete : ∀ op ∈ l, CrdtNode.valid op = true → f.getD op.origin 0 < op.seq →
      key op ∈ m.equivocated ∨ m.ops[key op]? = some op) : Delivered f l m.drain := by
  refine ⟨hinv, by simpa using hfloor, by simpa using hsealed, by simpa using hclosed,
    by simpa using hmem, by simpa using hle, ?_, by simpa using hsound, by simpa using hcomplete⟩
  have hstored : m.storedSet ⊆ {op | op ∈ l} := by
    rintro op ⟨k, hop⟩
    exact hmem k op hop
  exact CrdtNode.drain_subset_closed hm hstored (hfloor ▸ derivable_closed _) hsub

theorem Delivered.settle {f : ClockMap} {l : List CrdtOp} {n : CrdtNode} (h : Delivered f l n)
    {op previous : CrdtOp} (hadmits : n.Admits op) (hop : n.ops[key op]? = some previous)
    (hne : previous ≠ op) : Delivered f (l ++ [op]) (n.settle op previous).drain := by
  have hmem : ∀ a, a ∈ l → a ∈ l ++ [op] := fun a ha => List.mem_append_left _ ha
  refine Delivered.drain (h.inv.toWf.settle hadmits previous)
    (h.inv.settle hadmits hop) h.floor_eq h.unsealed h.unclosed ?_ ?_ ?_ ?_ ?_
  · intro k a ha
    rw [CrdtNode.settle_getElem?] at ha
    split at ha
    · obtain rfl : op = a := by simpa using ha
      simp
    · exact hmem a (h.stored_mem k a ha)
  · -- the smaller of the two variants is stored
    have hwinner : ∃ least : CrdtOp, (n.settle op previous).ops[key op]? = some least ∧
        (compare (variant least) (variant op)).isLE = true ∧
        (compare (variant least) (variant previous)).isLE = true := by
      rw [CrdtNode.settle_getElem?]
      by_cases hless : (compare (variant op) (variant previous)).isLT = true
      · refine ⟨op, by simp [hless], by simp, ?_⟩
        exact Ordering.isLE_of_eq_lt (by simpa using hless)
      · refine ⟨previous, by simp [hless, hop], ?_, by simp⟩
        exact variant_le_of_not_lt (Bool.not_eq_true _ ▸ hless)
    obtain ⟨least, hleast, hleOp, hlePrevious⟩ := hwinner
    intro a ha hvalid habove
    rcases List.mem_append.mp ha with ha | ha
    · obtain ⟨old, hold, hle⟩ := h.stored_le a ha hvalid habove
      by_cases heq : key op = key a
      · rw [← heq, hop] at hold
        obtain rfl : previous = old := by simpa using hold
        exact ⟨least, heq ▸ hleast, Std.TransCmp.isLE_trans hlePrevious hle⟩
      · refine ⟨old, ?_, hle⟩
        rw [CrdtNode.settle_getElem?, if_neg (fun hboth => heq hboth.2)]
        exact hold
    · obtain rfl := List.mem_singleton.mp ha
      exact ⟨least, hleast, hleOp⟩
  · exact h.derivable_concat op
  · intro k hk
    rcases (mem_insert_set _ _ _).mp hk with rfl | hk
    · have hkeyed := h.inv.keyed _ _ hop
      exact ⟨previous, hmem _ (h.stored_mem _ _ hop), op, by simp, hkeyed.symm, rfl, hne⟩
    · exact h.sound_concat op k hk
  · intro a ha hvalid habove
    by_cases heq : key op = key a
    · exact .inl ((mem_insert_set _ _ _).mpr (.inl heq))
    rcases List.mem_append.mp ha with ha | ha
    · rw [CrdtNode.settle_getElem?, if_neg (fun hboth => heq hboth.2)]
      exact (h.equivocated_complete a ha hvalid habove).imp_left fun hk =>
        (mem_insert_set _ _ _).mpr (.inr hk)
    · obtain rfl := List.mem_singleton.mp ha
      exact absurd rfl heq

theorem Delivered.store {f : ClockMap} {l : List CrdtOp} {n : CrdtNode} (h : Delivered f l n)
    {op : CrdtOp} (hadmits : n.Admits op) (hop : n.ops[key op]? = none)
    (hroom : n.ready op = true ∨ n.ops.size - n.integrated.size < n.maxPending) :
    Delivered f (l ++ [op]) (n.store op).drain := by
  have hlookup : ∀ k : OpKey, (n.store op).ops[k]? = if key op = k then some op else n.ops[k]? :=
    fun k => getElem?_insert _ _ _ _
  have hkept : ∀ {k : OpKey} {a : CrdtOp}, n.ops[k]? = some a →
      (n.store op).ops[k]? = some a := by
    intro k a ha
    have hne : key op ≠ k := by
      rintro rfl
      simp [hop] at ha
    rw [hlookup, if_neg hne, ha]
  have hnew : (n.store op).ops[key op]? = some op := by rw [hlookup, if_pos rfl]
  refine Delivered.drain (h.inv.toWf.store hadmits) (h.inv.store hadmits hop hroom)
    h.floor_eq h.unsealed h.unclosed ?_ ?_ ?_ ?_ ?_
  · intro k a ha
    rw [hlookup] at ha
    split at ha
    · obtain rfl : op = a := by simpa using ha
      simp
    · exact List.mem_append_left _ (h.stored_mem k a ha)
  · intro a ha hvalid habove
    rcases List.mem_append.mp ha with ha | ha
    · obtain ⟨old, hold, hle⟩ := h.stored_le a ha hvalid habove
      exact ⟨old, hkept hold, hle⟩
    · obtain rfl := List.mem_singleton.mp ha
      exact ⟨a, hnew, by simp⟩
  · exact h.derivable_concat op
  · exact h.sound_concat op
  · intro a ha hvalid habove
    rcases List.mem_append.mp ha with ha | ha
    · exact (h.equivocated_complete a ha hvalid habove).imp_right hkept
    · obtain rfl := List.mem_singleton.mp ha
      exact .inr hnew

/-- One delivery that is not dropped. -/
theorem Delivered.apply {f : ClockMap} {l : List CrdtOp} {n : CrdtNode} (h : Delivered f l n)
    (op : CrdtOp) (hfree : PendingBoundFree (n.apply op).2) :
    Delivered f (l ++ [op]) (n.apply op).1 := by
  have hspec := n.apply_spec op
  generalize n.apply op = result at hspec hfree ⊢
  cases hspec with
  | terminal hterminal => simp [h.unsealed, h.unclosed] at hterminal
  | invalid _ _ hinvalid => exact h.skip fun hvalid => by simp [hinvalid] at hvalid
  | belowFloor _ _ hbelow =>
      exact h.skip fun _ habove => absurd (h.floor_eq ▸ hbelow) (not_le.mpr habove)
  | duplicate _ hop => exact h.skip fun _ _ => hop
  | equivocation hadmits previous hop hne => exact h.settle hadmits hop hne
  | overflow _ _ _ _ =>
      simp [PendingBoundFree, CrdtOutput.exceedsPendingBound, CrdtNode.diagnostic] at hfree
  | stored hadmits hop hroom => exact h.store hadmits hop hroom

theorem Delivered.stored_of_unique {f : ClockMap} {l : List CrdtOp} {n : CrdtNode}
    (h : Delivered f l n) {op : CrdtOp} (hop : op ∈ l) (hvalid : CrdtNode.valid op = true)
    (habove : f.getD op.origin 0 < op.seq)
    (hunique : ∀ other ∈ l, key other = key op → other = op) :
    n.ops[key op]? = some op := by
  obtain ⟨least, hleast, -⟩ := h.stored_le op hop hvalid habove
  have heq := hunique least (h.stored_mem _ _ hleast) (h.inv.keyed _ _ hleast).symm
  exact heq ▸ hleast

theorem Delivered.run {f : ClockMap} {n : CrdtNode} (h : Delivered f [] n) (l : List CrdtOp)
    (hfree : PendingBoundFree (outputs CrdtNode.handle n (deliveries l)).flatten) :
    Delivered f l (after CrdtNode.handle n (deliveries l)) := by
  induction l using List.reverseRecOn with
  | nil => exact h
  | append_singleton front op ih =>
      rw [deliveries, List.map_append, outputs_append, List.flatten_append] at hfree
      rw [deliveries, List.map_append, after_append]
      refine (ih fun out hout => hfree out (List.mem_append_left _ hout)).apply op ?_
      intro out hout
      refine hfree out (List.mem_append_right _ ?_)
      rw [List.map_singleton, outputs, outputs, List.flatten_singleton]
      exact hout

/-! ## Where deliveries start -/

/-- The floor a first bootstrap leaves; a bootstrap whose clock does not parse is refused. -/
def bootstrapClock (b : Option CrdtBootstrap) : ClockMap :=
  (b.bind fun b => clockMap b.clock).getD ∅

theorem delivered_start (maxPending : Nat) (b : Option CrdtBootstrap) :
    Delivered (bootstrapClock b) [] (run maxPending (bootstrapInputs b)) := by
  have hinv := run_inv maxPending (bootstrapInputs b)
  cases b with
  | none => exact delivered_nil hinv rfl rfl rfl rfl
  | some b =>
      cases hparsed : clockMap b.clock with
      | none =>
          have hrun : run maxPending (bootstrapInputs (some b)) = CrdtNode.new maxPending := by
            simp [run, bootstrapInputs, CrdtNode.handle, CrdtNode.installBootstrap, hparsed,
              CrdtNode.new]
          have hfloor : bootstrapClock (some b) = ∅ := by simp [bootstrapClock, hparsed]
          rw [hrun, hfloor]
          exact delivered_nil (CrdtNode.inv_new maxPending) rfl rfl rfl rfl
      | some parsed =>
          have hrun : run maxPending (bootstrapInputs (some b)) =
              { CrdtNode.new maxPending with
                floor := parsed, clock := parsed, bootstrap := some b } := by
            simp [run, bootstrapInputs, CrdtNode.handle, CrdtNode.installBootstrap, hparsed,
              CrdtNode.new]
          have hfloor : bootstrapClock (some b) = parsed := by simp [bootstrapClock, hparsed]
          rw [hrun] at hinv ⊢
          rw [hfloor]
          exact delivered_nil hinv rfl rfl rfl rfl

/-- Deliveries to a replica that may have installed a bootstrap first. -/
theorem delivered_run {maxPending : Nat} {b : Option CrdtBootstrap} {l : List CrdtOp}
    (hfree : PendingBoundFree (emitted maxPending (bootstrapInputs b ++ deliveries l))) :
    Delivered (bootstrapClock b) l (run maxPending (bootstrapInputs b ++ deliveries l)) := by
  rw [emitted, outputs_append, List.flatten_append] at hfree
  rw [run, after_append]
  exact (delivered_start maxPending b).run l fun out hout =>
    hfree out (List.mem_append_right _ hout)

end TautShape.Crdt
