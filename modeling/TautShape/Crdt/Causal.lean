import TautShape.Crdt.Read
/-!
# Causal delivery

An operation is integrated only when the clock covers its dependencies.  The one
step that breaks this is an equivocating delivery for a key that is integrated
already: it may swap in a smaller variant, whose dependencies are not tested
again.  `causally_safe_iff` says that nothing else can go wrong.
-/

namespace TautShape.Crdt

open TautShape.Lib

namespace CrdtNode

/-- Every operation the node shows, through `operations` or in the answer to any
read, has its dependencies covered by the node's clock. -/
def CausallySafe (n : CrdtNode) : Prop :=
  ∀ op, (op ∈ n.operations ∨ ∃ request, op ∈ (n.read request).ops) → DepsCovered n.clock op

/-- The same over the store, which is what a step can be followed through. -/
def IntegratedCovered (n : CrdtNode) : Prop :=
  ∀ k ∈ n.integrated, ∀ op : CrdtOp, n.ops[k]? = some op → DepsCovered n.clock op

theorem causallySafe_iff_covered {n : CrdtNode} : n.CausallySafe ↔ n.IntegratedCovered := by
  constructor
  · intro h k hk op hop
    exact h op (.inl (mem_operations.mpr ⟨k, hk, hop⟩))
  · intro h op hop
    have hmem : op ∈ n.operations := hop.elim id fun ⟨_, hread⟩ => read_ops_subset hread
    obtain ⟨k, hk, hstored⟩ := mem_operations.mp hmem
    exact h k hk op hstored

/-- The delivery that swaps the stored variant of an integrated key for a smaller
one whose dependencies the clock does not cover. -/
def SwapsUncovered (n : CrdtNode) (input : CrdtInput) : Prop :=
  ∃ op previous, input = .apply op ∧ Admits n op ∧ key op ∈ n.integrated ∧
    n.ops[key op]? = some previous ∧
    (compare (variant op) (variant previous)).isLT = true ∧ ¬ DepsCovered n.clock op

/-- The drain loop only integrates covered operations. -/
theorem IntegratedCovered.drain {n : CrdtNode} (hn : Wf n) (h : n.IntegratedCovered) :
    n.drain.IntegratedCovered := by
  refine drain_induction hn h ?_
  rintro m m' hm hcovered ⟨k, op, hop, hnew, hready⟩
  have hle := (Integrates.mk k op hop hnew hready).clock_le hm
  intro k' hk' op' hop'
  rw [integrate_eq hop] at hk' hop'
  rcases (mem_insert_set _ _ _).mp hk' with rfl | hk'
  · -- the operation that was just integrated
    have heq : op = op' := by simpa [hop] using hop'
    exact heq ▸ ((ready_iff (hm.all_valid _ _ hop)).mp hready).2.mono hle
  · exact (hcovered k' hk' op' hop').mono hle

theorem IntegratedCovered.settle {n : CrdtNode} {op previous : CrdtOp}
    (h : n.IntegratedCovered) (hadmits : Admits n op) (hop : n.ops[key op]? = some previous)
    (hswap : ¬ n.SwapsUncovered (.apply op)) : (n.settle op previous).IntegratedCovered := by
  intro k hk op' hop'
  simp only [CrdtNode.settle] at hk hop' ⊢
  split at hop'
  · rename_i hsmaller
    rw [getElem?_insert] at hop'
    split at hop'
    · rename_i heq
      subst heq
      obtain rfl : op = op' := by simpa using hop'
      by_contra hnot
      exact hswap ⟨op, previous, rfl, hadmits, hk, hop, hsmaller, hnot⟩
    · exact h k hk op' hop'
  · exact h k hk op' hop'

theorem IntegratedCovered.store {n : CrdtNode} {op : CrdtOp} (h : n.IntegratedCovered)
    (hn : Wf n) (hop : n.ops[key op]? = none) : (n.store op).IntegratedCovered := by
  intro k hk op' hop'
  simp only [CrdtNode.store] at hk hop' ⊢
  rw [getElem?_insert] at hop'
  split at hop'
  · rename_i heq
    subst heq
    obtain ⟨previous, hprevious⟩ := exists_getElem?_of_mem (hn.stored _ hk)
    rw [hop] at hprevious
    simp at hprevious
  · exact h k hk op' hop'

/-- Any step but an uncovered swap keeps the integrated operations covered. -/
theorem IntegratedCovered.handle {n : CrdtNode} (hn : Inv n) (h : n.IntegratedCovered)
    {input : CrdtInput} (hswap : ¬ n.SwapsUncovered input) :
    (n.handle input).1.IntegratedCovered := by
  cases input with
  | apply op =>
      rw [handle_apply]
      have hspec := n.apply_spec op
      generalize n.apply op = result at hspec ⊢
      cases hspec with
      | equivocation hadmits previous hop _ =>
          exact (h.settle hadmits hop hswap).drain (hn.toWf.settle hadmits previous)
      | stored hadmits hop _ => exact (h.store hn.toWf hop).drain (hn.toWf.store hadmits)
      | _ => exact h
  | installBootstrap b =>
      rw [handle_installBootstrap]
      have hspec := n.installBootstrap_spec b
      generalize n.installBootstrap b = result at hspec ⊢
      cases hspec with
      | installed _ _ _ hempty =>
          intro k hk
          exact absurd hk (not_mem_integrated_of_empty hn.toWf hempty k)
      | _ => exact h
  | «seal» => simp only [CrdtNode.handle]; split <;> exact h
  | close error => simp only [CrdtNode.handle]; split <;> exact h
  | read request => exact h

theorem settle_readyKeys {n : CrdtNode} (hn : Inv n) {op previous : CrdtOp}
    (hk : key op ∈ n.integrated) : (n.settle op previous).readyKeys = [] := by
  refine List.eq_nil_iff_forall_not_mem.mpr fun k hmem => ?_
  obtain ⟨hnew, op', hop', hready⟩ := mem_readyKeys.mp hmem
  simp only [CrdtNode.settle] at hnew hop'
  have hne : key op ≠ k := fun heq => hnew (heq ▸ hk)
  have hold : n.ops[k]? = some op' := by
    split at hop'
    · rwa [getElem?_insert, if_neg hne] at hop'
    · exact hop'
  have hready : n.ready op' = true := hready
  rw [hn.not_ready hold hnew] at hready
  simp at hready

/-- An uncovered swap does leave an uncovered operation behind. -/
theorem not_covered_of_swap {n : CrdtNode} (hn : Inv n) {input : CrdtInput}
    (hswap : n.SwapsUncovered input) : ¬ (n.handle input).1.IntegratedCovered := by
  obtain ⟨op, previous, rfl, hadmits, hk, hop, hsmaller, hnot⟩ := hswap
  have hne : previous ≠ op := by
    rintro rfl
    simp at hsmaller
  have hresult : (n.apply op).1 = n.settle op previous := by
    generalize happly : n.apply op = result
    have hspec := n.apply_spec op
    rw [happly] at hspec
    cases hspec with
    | terminal h => simp [hadmits.unsealed, hadmits.unclosed] at h
    | invalid _ _ h => simp [hadmits.valid] at h
    | belowFloor _ _ h => exact absurd hadmits.above (not_lt.mpr h)
    | duplicate _ h => simp_all
    | equivocation _ previous' h _ =>
        obtain rfl : previous = previous' := by simpa [hop] using h
        exact drain_eq_self (settle_readyKeys hn hk)
    | overflow _ h _ _ => simp_all
    | stored _ h _ => simp_all
  intro hcovered
  rw [handle_apply, hresult] at hcovered
  refine hnot (hcovered (key op) hk op ?_)
  simp [CrdtNode.settle, hsmaller]

end CrdtNode

/-- **Causal delivery safety.**  Along a run every state shows only operations whose
dependencies its clock covers, exactly when no delivery of the run swaps an
uncovered variant into an integrated key. -/
theorem causally_safe_iff (maxPending : Nat) (inputs : List CrdtInput) :
    (∀ front, front <+: inputs → (run maxPending front).CausallySafe) ↔
      ∀ front input, front ++ [input] <+: inputs →
        ¬ (run maxPending front).SwapsUncovered input := by
  constructor
  · intro hsafe front input hfront hswap
    have hafter := CrdtNode.causallySafe_iff_covered.mp (hsafe _ hfront)
    rw [run, after_concat] at hafter
    exact CrdtNode.not_covered_of_swap (run_inv maxPending front) hswap hafter
  · intro hnone front hfront
    rw [CrdtNode.causallySafe_iff_covered]
    refine after_history CrdtNode.handle (P := fun _ n => n.IntegratedCovered) front ?_ ?_
    · intro k hk
      simp [CrdtNode.new] at hk
    · intro front' input hfront' hcovered
      exact hcovered.handle (run_inv maxPending front') (hnone front' input (hfront'.trans hfront))

/-- An integrated operation whose smaller variant arrives later waits for `b`, but is
shown all the same. -/
theorem uncovered_after_swap :
    ¬ (run 8 [.apply ⟨"c", 1, ⟨[]⟩, []⟩, .apply ⟨"a", 1, ⟨[⟨"c", 1⟩]⟩, []⟩,
      .apply ⟨"a", 1, ⟨[⟨"b", 5⟩]⟩, []⟩]).CausallySafe := by
  intro hsafe
  have hcovered := hsafe ⟨"a", 1, ⟨[⟨"b", 5⟩]⟩, []⟩ (.inl (by decide))
  exact absurd hcovered (by decide)

end TautShape.Crdt
