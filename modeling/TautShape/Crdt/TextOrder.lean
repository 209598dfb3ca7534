import TautShape.Crdt.TextForest
/-!
# The order of the text

Every atom that is attached is put out once, at whatever place its parents give it; a
tree is put out in preorder, and a cycle is reported under its least name.
-/

namespace TautShape.Crdt.Text

open TautShape.Lib Relation

/-! ## Diagnostics that are no cycle -/

def Plain (diagnostic : String) : Prop := ∀ id, diagnostic ≠ "cycle:" ++ id

theorem plain_of_head {diagnostic : String} (h : diagnostic.toList.head? ≠ some 'c') :
    Plain diagnostic := by
  rintro id rfl
  simp [String.toList_append] at h

/-- Nothing that is wrong with a payload or a parent reads like a cycle. -/
def AllPlain (diagnostics : BTreeSet String) : Prop := ∀ d ∈ diagnostics, Plain d

theorem AllPlain.insert {diagnostics : BTreeSet String} (h : AllPlain diagnostics) {d : String}
    (hd : d.toList.head? ≠ some 'c') : AllPlain (diagnostics.insert d) := by
  intro d' hd'
  rcases (mem_insert_set diagnostics d d').mp hd' with rfl | hold
  · exact plain_of_head hd
  · exact h d' hold

namespace Collected

variable {c : Collected}

theorem plain_addRow (h : AllPlain c.diagnostics) (row : Json) :
    AllPlain (c.addRow row).diagnostics := by
  unfold addRow
  split
  · exact h
  · exact h.insert (by decide)

theorem plain_addBootstrap (h : AllPlain c.diagnostics) (bootstrap : CrdtBootstrap) :
    AllPlain (c.addBootstrap bootstrap).diagnostics := by
  unfold addBootstrap
  split
  · rename_i rows hrows
    clear hrows
    induction rows generalizing c with
    | nil => exact h
    | cons row rows ih => exact ih (plain_addRow h row)
  · exact h.insert (by decide)

theorem plain_insertAtom (h : AllPlain c.diagnostics) (atomId : String) (candidate : Atom) :
    AllPlain (c.insertAtom atomId candidate).diagnostics := by
  have hdiagnose : AllPlain (c.diagnose ("atom_equivocation:" ++ atomId)).diagnostics :=
    h.insert (by simp [String.toList_append])
  unfold insertAtom
  split
  · split
    · dsimp only
      split
      · exact hdiagnose
      · exact hdiagnose
    · exact h
  · exact h

theorem plain_addOp (h : AllPlain c.diagnostics) (op : CrdtOp) :
    AllPlain (c.addOp op).diagnostics := by
  have hinvalid : AllPlain (c.diagnose
      ("invalid_payload:" ++ op.origin ++ ":" ++ toString op.seq)).diagnostics :=
    h.insert (by simp [String.toList_append])
  unfold addOp
  split
  · exact hinvalid
  · dsimp only
    split
    · exact h
    · split
      · split
        · exact plain_insertAtom h _ _
        · exact hinvalid
      · exact hinvalid

end Collected

theorem plain_collect (n : CrdtNode) : AllPlain (collect n).diagnostics := by
  have hfold : ∀ (ops : List CrdtOp) (c : Collected), AllPlain c.diagnostics →
      AllPlain (ops.foldl Collected.addOp c).diagnostics := by
    intro ops
    induction ops with
    | nil => exact fun c h => h
    | cons op ops ih => exact fun c h => ih _ (Collected.plain_addOp h op)
  apply hfold
  have hempty : AllPlain Collected.empty.diagnostics := by simp [AllPlain, Collected.empty]
  cases n.bootstrap with
  | none => exact hempty
  | some bootstrap => exact Collected.plain_addBootstrap hempty bootstrap

theorem plain_linkAll {c : Collected} (h : AllPlain c.diagnostics) : AllPlain (linkAll c).2 := by
  have hfold : ∀ (entries : List (String × Atom)) (s : Linking), AllPlain s.2 →
      AllPlain (entries.foldl (link c.atoms) s).2 := by
    intro entries
    induction entries with
    | nil => exact fun s h => h
    | cons entry entries ih =>
        intro s hs
        apply ih
        unfold link
        split
        · exact hs.insert (by simp [String.toList_append])
        · exact hs
  exact hfold _ _ h

/-! ## What the calls before one reach -/

namespace Collected

variable {c : Collected}

/-- No root is a linked atom, so the calls before that of one include all roots. -/
theorem split_linked {id : String} (hid : id ∈ c.linked) {pre post : List String}
    (hsplit : c.roots ++ c.linked = pre ++ id :: post) :
    ∃ front, pre = c.roots ++ front ∧ c.linked = front ++ id :: post := by
  rcases List.append_eq_append_iff.mp hsplit with hfront | ⟨back, hroots, hback⟩
  · exact hfront
  · cases back with
    | nil =>
        rw [List.append_nil] at hroots
        exact ⟨[], by rw [hroots, List.append_nil], hback.symm⟩
    | cons b back =>
        obtain ⟨rfl, -⟩ := List.cons.inj hback
        have hroot : id ∈ c.roots := by
          rw [hroots]
          simp
        exact absurd rfl ((List.nodup_append.mp c.tops_nodup).2.2 id hroot id hid)

theorem mem_before {id : String} (hid : id ∈ c.linked) {pre post : List String}
    (hsplit : c.roots ++ c.linked = pre ++ id :: post) (u : String) :
    u ∈ pre ↔ u ∈ c.roots ∨ u ∈ c.linked ∧ u < id := by
  obtain ⟨front, rfl, hlinked⟩ := split_linked hid hsplit
  have hsorted := c.linked_ascending
  rw [hlinked] at hsorted ⊢
  obtain ⟨-, hrest, hfront⟩ := List.pairwise_append.mp hsorted
  rw [List.mem_append]
  apply or_congr_right
  constructor
  · intro hin
    exact ⟨List.mem_append_left _ hin, hfront u hin id List.mem_cons_self⟩
  · rintro ⟨hin, hlt⟩
    rcases List.mem_append.mp hin with hin | hin
    · exact hin
    rcases List.mem_cons.mp hin with rfl | hin
    · exact absurd hlt (lt_irrefl u)
    · exact absurd ((List.pairwise_cons.mp hrest).1 u hin) hlt.asymm

theorem linked_of_after {id parent : String} {atom : Atom} (hatom : c.atoms[id]? = some atom)
    (h : c.Linked id parent) : atom.after = some parent := by
  have hafter := h.1
  rwa [hatom, Option.bind_some] at hafter

theorem Linked.isLinked {id parent : String} (h : c.Linked id parent) : id ∈ c.linked :=
  mem_linked.mpr ⟨parent, h⟩

theorem Cyclic.isLinked {id : String} (h : c.Cyclic id) : id ∈ c.linked := by
  obtain ⟨parent, hparent, -⟩ := TransGen.head'_iff.mp h
  exact hparent.isLinked

theorem Cyclic.above {id other : String} (h : c.Cyclic id)
    (habove : ReflTransGen c.Linked id other) : c.Cyclic other := by
  have hback := OnCycle.above (single_parent c) (onCycle_iff.mpr h) (above_iff.mpr habove)
  exact TransGen.trans_right (above_iff.mp hback) (TransGen.trans_left h habove)

theorem root_above {root other : String} (hroot : root ∈ c.roots)
    (habove : ReflTransGen c.Linked root other) : other = root := by
  obtain ⟨atom, hatom, hnone⟩ := mem_roots.mp hroot
  rcases ReflTransGen.cases_head habove with heq | ⟨parent, hparent, -⟩
  · exact heq.symm
  · have hafter := hparent.1
    simp [hatom, hnone] at hafter

theorem rooted_iff {id : String} :
    c.Rooted id ↔ ∃ root ∈ c.roots, ReflTransGen c.Linked id root := by
  constructor
  · rintro ⟨root, atom, habove, hatom, hnone⟩
    exact ⟨root, mem_roots.mpr ⟨atom, hatom, hnone⟩, habove⟩
  · rintro ⟨root, hroot, habove⟩
    obtain ⟨atom, hatom, hnone⟩ := mem_roots.mp hroot
    exact ⟨root, atom, habove, hatom, hnone⟩

theorem Cyclic.not_rooted {id : String} (h : c.Cyclic id) : ¬ c.Rooted id := by
  rw [rooted_iff]
  rintro ⟨root, hroot, habove⟩
  obtain ⟨parent, hparent, hback⟩ := TransGen.head'_iff.mp (h.above habove)
  obtain ⟨atom, hatom, hnone⟩ := mem_roots.mp hroot
  have hafter := hparent.1
  simp [hatom, hnone] at hafter

variable {E C : List String}

/-- A cycle is come back to at the least of its names. -/
theorem again_iff_least (h : Visits c.childrenOf ∅ ∅ (c.roots ++ c.linked) E C) (id : String) :
    id ∈ C ↔ c.Cyclic id ∧ ∀ other, ReflTransGen c.Linked id other → id ≤ other := by
  rw [h.again_iff (single_parent c), onCycle_iff]
  apply and_congr_right
  intro hcyclic
  have hid := hcyclic.isLinked
  constructor
  · rintro ⟨pre, post, hsplit, hbefore⟩ other habove
    by_contra hlt
    have hother := (hcyclic.above habove).isLinked
    have hpre : other ∈ pre := (mem_before hid hsplit other).mpr (.inr ⟨hother, not_le.mp hlt⟩)
    exact hbefore other hpre (above_iff.mpr habove)
  · intro hleast
    obtain ⟨pre, post, hsplit⟩ := List.append_of_mem (List.mem_append_right c.roots hid)
    refine ⟨pre, post, hsplit, fun u hu habove => ?_⟩
    have habove := above_iff.mp habove
    rcases (mem_before hid hsplit u).mp hu with hroot | ⟨-, hlt⟩
    · exact hcyclic.not_rooted (rooted_iff.mpr ⟨u, hroot, habove⟩)
    · exact absurd (hleast u habove) (not_le.mpr hlt)

theorem mem_entered (h : Visits c.childrenOf ∅ ∅ (c.roots ++ c.linked) E C) (id : String) :
    id ∈ E ↔ c.Attached id := by
  constructor
  · intro hin
    obtain ⟨top, htop, habove⟩ := h.reached id hin
    rcases ReflTransGen.cases_head habove with rfl | ⟨parent, hparent, -⟩
    · exact attached_iff.mpr htop
    · exact attached_iff.mpr (List.mem_append_right _ (parent_iff.mp hparent).isLinked)
  · intro hattached
    simpa using h.called id (attached_iff.mp hattached)

/-- Where every chain ends at a root, the order is the preorder. -/
theorem entered_preorder (h : Visits c.childrenOf ∅ ∅ (c.roots ++ c.linked) E C)
    (hrooted : ∀ id ∈ c.atoms, c.Rooted id) {depth : Nat} (hdepth : c.atoms.size ≤ depth) :
    E = c.roots.flatMap (preorder c.childrenOf depth) := by
  have hforest : ∀ id, ¬ OnCycle c.childrenOf id := by
    intro id hcycle
    have hcyclic := onCycle_iff.mp hcycle
    obtain ⟨parent, hparent, -⟩ := TransGen.head'_iff.mp hcyclic
    exact hcyclic.not_rooted (hrooted id hparent.mem)
  have hattached := mem_entered h
  obtain ⟨E₁, C₁, E₂, C₂, rfl, -, hroots, hlinked⟩ := h.of_append
  have hbound := c.names_ncard_le ∅
  have hpreorder : E₁ = c.roots.flatMap (preorder c.childrenOf depth) := by
    apply hroots.eq_preorder (single_parent c) hforest _ c.names_finite
      (fun _ _ _ h => children_mem h) (fun x hx => tops_mem (List.mem_append_left _ hx))
      (by simp) _ (by omega)
    · exact fun x => (listed_ascending _).imp fun h => h.ne
    · have hnodup : c.roots.Nodup := (listed_ascending _).imp fun h => h.ne
      apply hnodup.imp_of_mem
      intro x x' hx hx' hne y hy hy'
      rcases hy.total (single_parent c) hy' with habove | habove
      · exact hne (root_above hx (above_iff.mp habove)).symm
      · exact hne (root_above hx' (above_iff.mp habove))
  -- the roots reach everything, so the second loop enters nothing
  have hnothing : E₂ = [] := by
    apply List.eq_nil_iff_forall_not_mem.mpr
    intro y hy
    obtain ⟨atom, hatom, -⟩ := (hattached y).mp (List.mem_append_right E₁ hy)
    obtain ⟨root, hroot, habove⟩ := rooted_iff.mp (hrooted y (mem_of_getElem?_eq_some hatom))
    have hin : y ∈ E₁ := hroots.mem_iff.mpr ⟨root, hroot, above_iff.mpr habove⟩
    exact (hlinked.fresh y hy).2 (.inr hin)
  rw [hnothing, List.append_nil, hpreorder]

/-- An atom comes after its parent exactly if something above it was called before it. -/
theorem after_parent_iff (h : Visits c.childrenOf ∅ ∅ (c.roots ++ c.linked) E C)
    {parent id : String} (hlinked : c.Linked id parent) :
    [parent, id].Sublist E ↔
      c.Rooted id ∨ ∃ other, TransGen c.Linked id other ∧ c.Attached other ∧ other < id := by
  have hid := hlinked.isLinked
  obtain ⟨pre, post, hsplit⟩ := List.append_of_mem (List.mem_append_right c.roots hid)
  have hbefore := mem_before hid hsplit
  have hpre : id ∉ pre := by
    rw [hbefore]
    rintro (hroot | ⟨-, hlt⟩)
    · exact (List.nodup_append.mp c.tops_nodup).2.2 id hroot id hid rfl
    · exact lt_irrefl id hlt
  rw [hsplit] at h
  rw [h.after_parent_iff (single_parent c) hpre (parent_iff.mpr hlinked), rooted_iff]
  constructor
  · rintro ⟨u, hu, habove⟩
    have habove := above_iff.mp habove
    rcases (hbefore u).mp hu with hroot | ⟨hin, hlt⟩
    · exact .inl ⟨u, hroot, habove⟩
    · have hstrict := (reflTransGen_iff_eq_or_transGen.mp habove).resolve_left hlt.ne
      exact .inr ⟨u, hstrict, attached_iff.mpr (List.mem_append_right _ hin), hlt⟩
  · rintro (⟨root, hroot, habove⟩ | ⟨other, hstrict, hattached, hlt⟩)
    · exact ⟨root, (hbefore root).mpr (.inl hroot), above_iff.mpr habove⟩
    · refine ⟨other, (hbefore other).mpr ?_, above_iff.mpr hstrict.to_reflTransGen⟩
      rcases List.mem_append.mp (attached_iff.mp hattached) with hroot | hin
      · exact .inl hroot
      · exact .inr ⟨hin, hlt⟩

end Collected

/-! ## The projection -/

/-- What the traversal ends in, at any depth that is great enough. -/
theorem traverse_spec (n : CrdtNode) :
    ∃ E C, Visits (collect n).childrenOf ∅ ∅ ((collect n).roots ++ (collect n).linked) E C ∧
      ∀ depth, (collect n).atoms.size < depth →
        traverse depth n = some ((VisitState.start (collect n)).advance (collect n) E C) := by
  obtain ⟨E, C, hsearch⟩ := (collect n).exists_search
  exact ⟨E, C, hsearch, fun depth hdepth => traverse_eq n hsearch hdepth⟩

theorem kept_iff {c : Collected} {id : String} :
    (!c.deleted.contains id) = true ↔ id ∉ c.deleted := by
  rw [Bool.not_eq_true', Bool.eq_false_iff]
  rfl

theorem start_pushed (c : Collected) (E C : List String) :
    ((VisitState.start c).advance c E C).pushed = E.filter (!c.deleted.contains ·) := by
  rw [VisitState.advance, VisitState.start, List.nil_append]

theorem start_cycle {c : Collected} (hplain : AllPlain c.diagnostics) (E C : List String)
    (id : String) :
    "cycle:" ++ id ∈ ((VisitState.start c).advance c E C).diagnostics ↔ id ∈ C := by
  rw [VisitState.advance, VisitState.start, Std.ExtTreeSet.mem_insertMany_list,
    List.contains_iff_mem, List.mem_map]
  constructor
  · rintro (hold | ⟨id', hin, heq⟩)
    · exact absurd rfl (plain_linkAll hplain _ hold id)
    · rwa [← (String.append_right_inj "cycle:").mp heq]
  · exact fun hin => .inr ⟨id, hin, rfl⟩

/-- **The text projection.**  At any depth beyond the number of the atoms the traversal
ends, always with the same result.  The text is that of the atoms that contribute, each
once; where every chain of parents ends at a root, they stand in preorder; and a cycle is
reported under the least of its names. -/
theorem text_projection (n : CrdtNode) :
    let c := collect n
    ∃ s : VisitState,
      (∀ depth, c.atoms.size < depth → traverse depth n = some s ∧
        projectText depth n = some ⟨s.output, s.diagnostics.toList⟩) ∧
      (s.output = String.join (s.pushed.map c.textOf) ∧ s.pushed.Nodup ∧
        ∀ id, id ∈ s.pushed ↔ c.Contributes id) ∧
      ((∀ id ∈ c.atoms, c.Rooted id) → ∀ depth, c.atoms.size ≤ depth →
        s.pushed = (c.roots.flatMap (preorder c.childrenOf depth)).filter
          (!c.deleted.contains ·)) ∧
      ∀ id, "cycle:" ++ id ∈ s.diagnostics.toList ↔
        c.Cyclic id ∧ ∀ other, ReflTransGen c.Linked id other → id ≤ other := by
  intro c
  obtain ⟨E, C, hsearch, htraverse⟩ := traverse_spec n
  refine ⟨_, fun depth hdepth => ⟨htraverse depth hdepth, ?_⟩, ⟨?_, ?_, ?_⟩, ?_, ?_⟩
  · rw [projectText, htraverse depth hdepth]
    rfl
  · rw [start_pushed, VisitState.advance, VisitState.start, String.empty_append]
  · rw [start_pushed]
    exact hsearch.nodup.filter _
  · intro id
    rw [start_pushed, List.mem_filter, Collected.mem_entered hsearch, Collected.Contributes,
      kept_iff]
  · intro hrooted depth hdepth
    rw [start_pushed, Collected.entered_preorder hsearch hrooted hdepth]
  · intro id
    rw [Std.ExtTreeSet.mem_toList, start_cycle (plain_collect n),
      Collected.again_iff_least hsearch]

/-- **The order of the text.**  Of two atoms that contribute, one after the other, the
second is put out behind the first exactly if its chain of parents ends at a root, or
something above it that is attached has a lesser name. -/
theorem text_order_iff (n : CrdtNode) (parent id : String)
    (hparent : (collect n).Contributes parent) (hid : (collect n).Contributes id)
    (hlinked : (collect n).Linked id parent) :
    let c := collect n
    ∃ s : VisitState, (∀ depth, c.atoms.size < depth → traverse depth n = some s) ∧
      ([parent, id].Sublist s.pushed ↔
        c.Rooted id ∨ ∃ other, TransGen c.Linked id other ∧ c.Attached other ∧ other < id) := by
  intro c
  obtain ⟨E, C, hsearch, htraverse⟩ := traverse_spec n
  refine ⟨_, htraverse, ?_⟩
  rw [start_pushed, ← Collected.after_parent_iff hsearch hlinked]
  constructor
  · exact fun hsub => hsub.trans List.filter_sublist
  · intro hsub
    have hkept : [parent, id].filter (!c.deleted.contains ·) = [parent, id] := by
      apply List.filter_eq_self.mpr
      intro x hx
      rcases List.mem_pair.mp hx with rfl | rfl
      · exact kept_iff.mpr hparent.2
      · exact kept_iff.mpr hid.2
    rw [← hkept]
    exact hsub.filter _

def insertion (seq : Int) (atomId : String) (after : Option String) (text : String) : CrdtInput :=
  .apply ⟨"w", seq, ⟨[]⟩, encodeTextInsert atomId after text⟩

/-- An atom below a root. -/
theorem text_order_iff_rooted :
    let n := run 8 [insertion 1 "p" none "P", insertion 2 "c" (some "p") "C"]
    let c := collect n
    ∃ s : VisitState, (∀ depth, c.atoms.size < depth → traverse depth n = some s) ∧
      (["p", "c"].Sublist s.pushed ↔
        c.Rooted "c" ∨ ∃ other, TransGen c.Linked "c" other ∧ c.Attached other ∧ other < "c") := by
  intro n c
  have hparent : c.atoms["p"]? = some ⟨none, "P", ("w", 1)⟩ := by decide
  have hid : c.atoms["c"]? = some ⟨some "p", "C", ("w", 2)⟩ := by decide
  have hmem : "p" ∈ c.atoms := mem_of_getElem?_eq_some hparent
  apply text_order_iff n "p" "c" ⟨⟨_, hparent, by simp⟩, by decide⟩
  · refine ⟨⟨_, hid, fun parent h => ?_⟩, by decide⟩
    obtain rfl := Option.some.inj h
    exact hmem
  · exact ⟨by rw [hid]; rfl, hmem⟩

/-- Two atoms below one whose own parent is missing: the second is put out first, for its
name is the lesser one. -/
theorem text_order_reversed :
    let n := run 8 [insertion 1 "z" (some "q") "Z", insertion 2 "b" (some "z") "B",
      insertion 3 "a" (some "b") "A"]
    let c := collect n
    (c.Contributes "b" ∧ c.Contributes "a" ∧ c.Linked "a" "b" ∧ ¬ c.Cyclic "b" ∧ ¬ c.Cyclic "a") ∧
      ∃ s, traverse 4 n = some s ∧ s.output = "AB" ∧ ¬ ["b", "a"].Sublist s.pushed := by
  intro n c
  have hz : c.atoms["z"]? = some ⟨some "q", "Z", ("w", 1)⟩ := by decide
  have hb : c.atoms["b"]? = some ⟨some "z", "B", ("w", 2)⟩ := by decide
  have ha : c.atoms["a"]? = some ⟨some "b", "A", ("w", 3)⟩ := by decide
  have hq : "q" ∉ c.atoms := by decide
  have hzmem : "z" ∈ c.atoms := mem_of_getElem?_eq_some hz
  have hbmem : "b" ∈ c.atoms := mem_of_getElem?_eq_some hb
  have habove : ∀ id, ReflTransGen c.Linked "b" id → id = "b" ∨ id = "z" := by
    intro id h
    rcases ReflTransGen.cases_head h with heq | ⟨parent, hparent, h⟩
    · exact .inl heq.symm
    obtain rfl := Option.some.inj (Collected.linked_of_after hb hparent)
    rcases ReflTransGen.cases_head h with heq | ⟨parent, hparent, h⟩
    · exact .inr heq.symm
    obtain rfl := Option.some.inj (Collected.linked_of_after hz hparent)
    exact absurd hparent.2 hq
  refine ⟨⟨⟨⟨_, hb, ?_⟩, by decide⟩, ⟨⟨_, ha, ?_⟩, by decide⟩, ⟨by rw [ha]; rfl, hbmem⟩, ?_, ?_⟩,
    ?_⟩
  · intro parent h
    obtain rfl := Option.some.inj h
    exact hzmem
  · intro parent h
    obtain rfl := Option.some.inj h
    exact hbmem
  · intro h
    obtain ⟨parent, hparent, h⟩ := TransGen.head'_iff.mp h
    obtain rfl := Option.some.inj (Collected.linked_of_after hb hparent)
    rcases ReflTransGen.cases_head h with heq | ⟨parent, hparent, -⟩
    · exact absurd heq (by decide)
    obtain rfl := Option.some.inj (Collected.linked_of_after hz hparent)
    exact hq hparent.2
  · intro h
    obtain ⟨parent, hparent, h⟩ := TransGen.head'_iff.mp h
    obtain rfl := Option.some.inj (Collected.linked_of_after ha hparent)
    rcases habove "a" h with heq | heq
    · exact absurd heq (by decide)
    · exact absurd heq (by decide)
  · have hrun : (traverse 4 n).map (fun s => (s.output, s.pushed)) = some ("AB", ["a", "b"]) := by
      decide
    obtain ⟨s, hs, hresult⟩ := Option.map_eq_some_iff.mp hrun
    obtain ⟨houtput, hpushed⟩ := Prod.mk.inj hresult
    refine ⟨s, hs, houtput, ?_⟩
    rw [hpushed]
    decide

end TautShape.Crdt.Text
