import TautShape.Value.Node
/-!
# Agreement of registers

When two registers that were given the same writes, in any order and any number of
times, read the same without a diagnostic.  The duplicate test of `set` passes over the
lamport, which the winner comparison of `read` starts with: registers agree exactly
when the key of the greatest write was never used with another lamport.
-/

namespace TautShape.Value

open TautShape.Lib
open TautShape.Crdt (OpKey)

/-- A delivery of all the writes, in some order, with arbitrary duplications. -/
def Redelivers (ops l : List ValueSet) : Prop := ops.Subperm l ∧ ∀ op ∈ l, op ∈ ops

instance (ops l : List ValueSet) : Decidable (Redelivers ops l) :=
  inferInstanceAs (Decidable (_ ∧ _))

theorem Redelivers.mem_iff {ops l : List ValueSet} (h : Redelivers ops l) (op : ValueSet) :
    op ∈ l ↔ op ∈ ops :=
  ⟨h.2 op, fun hop => h.1.subset hop⟩

theorem redelivers_cons {ops : List ValueSet} {op : ValueSet} (hop : op ∈ ops) :
    Redelivers ops (op :: ops) := by
  refine ⟨(List.sublist_cons_self op ops).subperm, fun a ha => ?_⟩
  rcases List.mem_cons.mp ha with rfl | ha
  · exact hop
  · exact ha

def Silent (l : List ValueSet) : Prop :=
  ∀ o ∈ reported l, o ≠ .diagnostic ⟨.error, .equivocation⟩

instance (l : List ValueSet) : Decidable (Silent l) :=
  inferInstanceAs (Decidable (∀ o ∈ reported l, o ≠ .diagnostic ⟨.error, .equivocation⟩))

/-- Writes of one key carry the same payload and the same predecessor. -/
def Unforked (ops : List ValueSet) : Prop :=
  ∀ a ∈ ops, ∀ b ∈ ops, key a = key b → a.payload = b.payload ∧ a.prev = b.prev

/-- Every write that shares the key of a greatest write has its lamport. -/
def WinnerSettled (ops : List ValueSet) : Prop :=
  ∀ top ∈ ops, (∀ a ∈ ops, (winnerOrder a top).isLE = true) →
    ∀ a ∈ ops, key a = key top → a.lamport = top.lamport

/-! ## Silence -/

theorem ValueNode.set_silent_iff (n : ValueNode) (op : ValueSet) :
    (∀ o ∈ (n.set op).2, o ≠ .diagnostic ⟨.error, .equivocation⟩) ↔
      ∀ prior, n.ops[key op]? = some prior → prior.payload = op.payload ∧ prior.prev = op.prev := by
  unfold set
  cases hprior : n.ops[key op]? with
  | none => simp
  | some prior =>
      simp only [Option.some.injEq, forall_eq']
      split
      · rename_i hfork
        simp only [List.mem_singleton, forall_eq, ne_eq, not_true_eq_false, false_iff]
        rintro ⟨hpayload, hprev⟩
        exact hfork.elim (fun h => h hpayload) fun h => h hprev
      · rename_i hsame
        simp only [List.not_mem_nil, IsEmpty.forall_iff, implies_true, true_iff]
        push Not at hsame
        exact hsame

/-- A delivery is silent exactly when nothing in it is forked. -/
theorem silent_iff (l : List ValueSet) : Silent l ↔ Unforked l := by
  induction l using List.reverseRecOn with
  | nil => simp [Silent, Unforked, reported, outputs]
  | append_singleton front op ih =>
      have hstep : Silent (front ++ [op]) ↔ Silent front ∧
          ∀ prior, front.find? (fun a => key a = key op) = some prior →
            prior.payload = op.payload ∧ prior.prev = op.prev := by
        rw [Silent, reported_concat, ← deliver_getElem?, ← ValueNode.set_silent_iff]
        simp only [List.mem_append, or_imp, forall_and]
        rfl
      rw [hstep, ih]
      constructor
      · rintro ⟨hfront, hnew⟩
        -- the first write of the key agrees with the new one, and with all in between
        have hagree : ∀ a ∈ front, key a = key op → a.payload = op.payload ∧ a.prev = op.prev := by
          intro a ha hkey
          cases hfind : front.find? (fun b => key b = key op) with
          | none =>
              have habsent := List.find?_eq_none.mp hfind a ha
              simp [hkey] at habsent
          | some prior =>
              have hprior : key prior = key op := by simpa using List.find?_some hfind
              have hmem := List.mem_of_find?_eq_some hfind
              obtain ⟨hpayload, hprev⟩ := hnew prior hfind
              obtain ⟨hpayload', hprev'⟩ := hfront a ha prior hmem (hkey.trans hprior.symm)
              exact ⟨hpayload'.trans hpayload, hprev'.trans hprev⟩
        intro a ha b hb hkey
        rw [List.mem_append, List.mem_singleton] at ha hb
        rcases ha with hina | heqa <;> rcases hb with hinb | heqb
        · exact hfront a hina b hinb hkey
        · rw [heqb] at hkey ⊢
          exact hagree a hina hkey
        · rw [heqa] at hkey ⊢
          obtain ⟨hpayload, hprev⟩ := hagree b hinb hkey.symm
          exact ⟨hpayload.symm, hprev.symm⟩
        · rw [heqa, heqb]
          exact ⟨rfl, rfl⟩
      · intro hall
        constructor
        · intro a ha b hb
          exact hall a (List.mem_append_left _ ha) b (List.mem_append_left _ hb)
        · intro prior hfind
          have hkey : key prior = key op := by simpa using List.find?_some hfind
          exact hall prior (List.mem_append_left _ (List.mem_of_find?_eq_some hfind)) op
            (List.mem_append_right _ (List.mem_singleton_self op)) hkey

theorem Unforked.redelivers {ops l : List ValueSet} (hl : Redelivers ops l) :
    Unforked l ↔ Unforked ops := by
  simp only [Unforked, hl.mem_iff]

/-! ## The winner -/

theorem mem_values {l : List ValueSet} {op : ValueSet} :
    op ∈ (deliver l).ops.toList.map Prod.snd ↔
      l.find? (fun a => key a = key op) = some op := by
  rw [List.mem_map]
  constructor
  · rintro ⟨⟨k, op'⟩, hmem, rfl⟩
    rw [Std.ExtTreeMap.mem_toList_iff_getElem?_eq_some, deliver_getElem?] at hmem
    have hkey : key op' = k := by simpa using List.find?_some hmem
    simp only [hkey]
    exact hmem
  · intro hfind
    refine ⟨(key op, op), ?_, rfl⟩
    rw [Std.ExtTreeMap.mem_toList_iff_getElem?_eq_some, deliver_getElem?]
    exact hfind

theorem winner_mem {l : List ValueSet} {op : ValueSet} (h : (deliver l).winner = some op) :
    l.find? (fun a => key a = key op) = some op :=
  mem_values.mp (mem_of_maxBy h)

/-- A greatest write that came first among those of its key wins. -/
theorem winner_eq {l : List ValueSet} {top : ValueSet}
    (hfirst : l.find? (fun a => key a = key top) = some top)
    (hgreatest : ∀ a ∈ l, (winnerOrder a top).isLE = true) : (deliver l).winner = some top := by
  refine maxBy_eq_some (mem_values.mpr hfirst) fun a ha hne => ?_
  have hfind := mem_values.mp ha
  have hle := hgreatest a (List.mem_of_find?_eq_some hfind)
  cases hcase : winnerOrder a top with
  | lt => rfl
  | gt => simp [hcase] at hle
  | eq =>
      -- equal in the order means of one key, and each key is kept once
      have hkey := (winnerOrder_eq_eq hcase).1
      simp only [hkey] at hfind
      exact absurd (Option.some.inj (hfind.symm.trans hfirst)) hne

theorem read_congr {n m : ValueNode} (h : n.winner = m.winner) (request : ValueReadRequest) :
    n.read request = m.read request := by
  unfold ValueNode.read
  rw [h]

theorem read_winner (n : ValueNode) (request : ValueReadRequest) :
    (n.read request).winner =
      n.winner.map fun op => ⟨op.origin, op.seq, op.lamport⟩ := by
  unfold ValueNode.read
  cases n.winner <;> rfl

theorem Unforked.eq_of_key {ops : List ValueSet} (h : Unforked ops) {a b : ValueSet}
    (ha : a ∈ ops) (hb : b ∈ ops) (hkey : key a = key b) (hlamport : a.lamport = b.lamport) :
    a = b := by
  obtain ⟨hpayload, hprev⟩ := h a ha b hb hkey
  obtain ⟨horigin, hseq⟩ := OpKey.mk.inj hkey
  cases a
  cases b
  simp_all

/-- Where the winner is settled, every silent delivery finds it. -/
theorem winner_of_settled {ops l : List ValueSet} (hl : Redelivers ops l) (hsilent : Silent l)
    (hsettled : WinnerSettled ops) {top : ValueSet} (htop : top ∈ ops)
    (hgreatest : ∀ a ∈ ops, (winnerOrder a top).isLE = true) :
    (deliver l).winner = some top := by
  have hunforked := (Unforked.redelivers hl).mp ((silent_iff l).mp hsilent)
  refine winner_eq ?_ fun a ha => hgreatest a (hl.2 a ha)
  cases hfind : l.find? (fun a => key a = key top) with
  | none =>
      have habsent := List.find?_eq_none.mp hfind top ((hl.mem_iff top).mpr htop)
      simp at habsent
  | some first =>
      have hkey : key first = key top := by simpa using List.find?_some hfind
      have hmem := hl.2 first (List.mem_of_find?_eq_some hfind)
      rw [hunforked.eq_of_key hmem htop hkey (hsettled top htop hgreatest first hmem hkey)]

/-- **Agreement of the register.**  Any two silent deliveries of the same writes read the
same exactly when some key is forked, which every delivery reports, or every write that
shares the key of the greatest one has its lamport. -/
theorem agreement_iff (ops : List ValueSet) :
    (∀ l l', Redelivers ops l → Redelivers ops l' → Silent l → Silent l' →
        ∀ request, (deliver l).read request = (deliver l').read request) ↔
      (Unforked ops → WinnerSettled ops) := by
  constructor
  · intro hsame hunforked top htop hgreatest a ha hkey
    -- a delivery that starts with the greatest write against one that starts with the other
    have hsilent : ∀ l, Redelivers ops l → Silent l := fun l hl =>
      (silent_iff l).mpr ((Unforked.redelivers hl).mpr hunforked)
    have hwinner : (deliver (top :: ops)).winner = some top := by
      refine winner_eq ?_ fun b hb => hgreatest b ((redelivers_cons htop).2 b hb)
      rw [List.find?_cons_of_pos (by simp)]
    have hread := hsame _ _ (redelivers_cons htop) (redelivers_cons ha)
      (hsilent _ (redelivers_cons htop)) (hsilent _ (redelivers_cons ha)) ⟨"", ""⟩
    have hstamp := congrArg ValueReadResponse.winner hread
    rw [read_winner, read_winner, hwinner, Option.map_some, eq_comm, Option.map_eq_some_iff]
      at hstamp
    obtain ⟨op, hop, hstamp⟩ := hstamp
    obtain ⟨horigin, hseq, hlamport⟩ := ValueStamp.mk.inj hstamp
    have hkey' : key a = key op := by rw [hkey, key, key, horigin, hseq]
    have hfind := winner_mem hop
    rw [List.find?_cons_of_pos (by simpa using hkey')] at hfind
    rw [Option.some.inj hfind, hlamport]
  · intro hcondition l l' hl hl' hsilent hsilent'
    have hunforked := (Unforked.redelivers hl).mp ((silent_iff l).mp hsilent)
    have hsettled := hcondition hunforked
    refine read_congr ?_
    by_cases hnil : ops = []
    · obtain rfl : l = [] := List.eq_nil_iff_forall_not_mem.mpr fun a ha => by
        simpa [hnil] using hl.2 a ha
      obtain rfl : l' = [] := List.eq_nil_iff_forall_not_mem.mpr fun a ha => by
        simpa [hnil] using hl'.2 a ha
      rfl
    · obtain ⟨top, htop, hgreatest⟩ := exists_greatest winnerOrder hnil
      rw [winner_of_settled hl hsilent hsettled htop hgreatest,
        winner_of_settled hl' hsilent' hsettled htop hgreatest]

/-- One key with two lamports and another key in between: no order reports anything, and
the two orders of the forked key elect different winners. -/
theorem silent_divergence :
    let low : ValueSet := ⟨"a", 1, 1, none, [120]⟩
    let high : ValueSet := ⟨"a", 1, 3, none, [120]⟩
    let other : ValueSet := ⟨"b", 1, 2, none, [121]⟩
    Redelivers [low, high, other] [low, high, other] ∧
      Redelivers [low, high, other] [high, low, other] ∧
      Silent [low, high, other] ∧ Silent [high, low, other] ∧
      (deliver [low, high, other]).read ⟨"v", "s"⟩ =
        ⟨"v", "s", some [121], some ⟨"b", 1, 2⟩, .data⟩ ∧
      (deliver [high, low, other]).read ⟨"v", "s"⟩ =
        ⟨"v", "s", some [120], some ⟨"a", 1, 3⟩, .data⟩ := by
  decide

end TautShape.Value
