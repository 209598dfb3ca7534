import TautShape.Crdt.Text
import TautShape.Lib.Traversal
/-!
# The forest of the atoms

What the atoms of a text say about its order, and that the traversal of `project_text`
is a depth-first search of it: `traverse_eq`.
-/

namespace TautShape.Crdt.Text

open TautShape.Lib Relation

namespace Collected

/-! ## Parents -/

/-- `parent` is the winning atom that `id` comes after. -/
def Linked (c : Collected) (id parent : String) : Prop :=
  c.atoms[id]?.bind Atom.after = some parent ∧ parent ∈ c.atoms

/-- A winning atom that names no parent, or a winning one. -/
def Attached (c : Collected) (id : String) : Prop :=
  ∃ atom, c.atoms[id]? = some atom ∧ ∀ parent, atom.after = some parent → parent ∈ c.atoms

def Contributes (c : Collected) (id : String) : Prop := c.Attached id ∧ id ∉ c.deleted

/-- The chain of parents ends at an atom that names none. -/
def Rooted (c : Collected) (id : String) : Prop :=
  ∃ root atom, ReflTransGen c.Linked id root ∧ c.atoms[root]? = some atom ∧ atom.after = none

def Cyclic (c : Collected) (id : String) : Prop := TransGen c.Linked id id

def textOf (c : Collected) (id : String) : String := (c.atoms[id]?.map Atom.text).getD ""

/-! ## The lists that the traversal goes through -/

def roots (c : Collected) : List String :=
  (c.atoms.toList.filter fun p => p.2.after = none).map Prod.fst

def childrenOf (c : Collected) (parent : String) : List String :=
  (c.atoms.toList.filter fun p => p.2.after = some parent ∧ c.atoms.contains parent).map Prod.fst

def isLinked (c : Collected) (id : String) : Bool :=
  (c.atoms[id]?.bind Atom.after).any fun parent => c.atoms.contains parent

def linked (c : Collected) : List String := c.atoms.keys.filter c.isLinked

variable {c : Collected}

theorem mem_atoms {id : String} : id ∈ c.atoms ↔ ∃ atom, c.atoms[id]? = some atom :=
  ⟨exists_getElem?_of_mem, fun ⟨_, h⟩ => mem_of_getElem?_eq_some h⟩

theorem mem_listed {p : String × Atom → Bool} {id : String} :
    id ∈ (c.atoms.toList.filter p).map Prod.fst ↔
      ∃ atom, c.atoms[id]? = some atom ∧ p (id, atom) := by
  simp only [List.mem_map, List.mem_filter]
  constructor
  · rintro ⟨⟨id', atom⟩, ⟨hmem, hp⟩, rfl⟩
    exact ⟨atom, Std.ExtTreeMap.mem_toList_iff_getElem?_eq_some.mp hmem, hp⟩
  · rintro ⟨atom, hatom, hp⟩
    exact ⟨(id, atom), ⟨Std.ExtTreeMap.mem_toList_iff_getElem?_eq_some.mpr hatom, hp⟩, rfl⟩

theorem mem_roots {id : String} :
    id ∈ c.roots ↔ ∃ atom, c.atoms[id]? = some atom ∧ atom.after = none := by
  rw [roots, mem_listed]
  simp

theorem parent_iff {id parent : String} : Parent c.childrenOf id parent ↔ c.Linked id parent := by
  rw [Parent, childrenOf, mem_listed, Linked, Option.bind_eq_some_iff]
  simp [← exists_and_right, and_assoc]

theorem above_iff {id top : String} : Above c.childrenOf id top ↔ ReflTransGen c.Linked id top := by
  have heq : Parent c.childrenOf = c.Linked := by
    ext id parent
    exact parent_iff
  rw [Above, heq]

theorem onCycle_iff {id : String} : OnCycle c.childrenOf id ↔ c.Cyclic id := by
  have heq : Parent c.childrenOf = c.Linked := by
    ext id parent
    exact parent_iff
  rw [OnCycle, heq, Cyclic]

theorem single_parent (c : Collected) : SingleParent c.childrenOf := by
  intro id parent parent' h h'
  have hlinked := parent_iff.mp h
  have hlinked' := parent_iff.mp h'
  exact Option.some.inj (hlinked.1.symm.trans hlinked'.1)

theorem isLinked_iff {id : String} : c.isLinked id = true ↔ ∃ parent, c.Linked id parent := by
  simp [isLinked, Linked, Option.any_eq_true]

theorem Linked.mem {id parent : String} (h : c.Linked id parent) : id ∈ c.atoms := by
  obtain ⟨atom, hatom, -⟩ := Option.bind_eq_some_iff.mp h.1
  exact mem_of_getElem?_eq_some hatom

theorem mem_linked {id : String} : id ∈ c.linked ↔ ∃ parent, c.Linked id parent := by
  rw [linked, List.mem_filter, isLinked_iff, Std.ExtTreeMap.mem_keys, and_iff_right_of_imp]
  exact fun ⟨_, h⟩ => h.mem

theorem attached_iff {id : String} : c.Attached id ↔ id ∈ c.roots ++ c.linked := by
  rw [List.mem_append, mem_roots, mem_linked]
  constructor
  · rintro ⟨atom, hatom, hparent⟩
    cases hafter : atom.after with
    | none => exact .inl ⟨atom, hatom, hafter⟩
    | some parent =>
        refine .inr ⟨parent, ?_, hparent parent hafter⟩
        rw [hatom, Option.bind_some, hafter]
  · rintro (⟨atom, hatom, hafter⟩ | ⟨parent, hafter, hparent⟩)
    · exact ⟨atom, hatom, fun parent h => by simp [hafter] at h⟩
    · obtain ⟨atom, hatom, hafter⟩ := Option.bind_eq_some_iff.mp hafter
      refine ⟨atom, hatom, fun parent' h => ?_⟩
      obtain rfl := Option.some.inj (hafter.symm.trans h)
      exact hparent

theorem keys_ascending (c : Collected) : c.atoms.keys.Pairwise (· < ·) :=
  Std.ExtTreeMap.ordered_keys.imp compare_lt_iff_lt.mp

theorem listed_ascending (p : String × Atom → Bool) :
    ((c.atoms.toList.filter p).map Prod.fst).Pairwise (· < ·) := by
  apply List.Pairwise.sublist _ c.keys_ascending
  rw [← Std.ExtTreeMap.map_fst_toList_eq_keys]
  exact List.filter_sublist.map Prod.fst

theorem linked_ascending (c : Collected) : c.linked.Pairwise (· < ·) :=
  c.keys_ascending.sublist List.filter_sublist

theorem tops_nodup (c : Collected) : (c.roots ++ c.linked).Nodup := by
  apply List.Nodup.append
  · exact (listed_ascending _).imp fun h => h.ne
  · exact c.linked_ascending.imp fun h => h.ne
  · intro id hroot hlinked
    obtain ⟨atom, hatom, hnone⟩ := mem_roots.mp hroot
    obtain ⟨parent, hafter, -⟩ := mem_linked.mp hlinked
    simp [hatom, hnone] at hafter

def names (c : Collected) : Set String := {id | id ∈ c.atoms}

theorem names_eq (c : Collected) : c.names = (c.atoms.keys.toFinset : Set String) := by
  ext id
  simp [names]

theorem names_finite (c : Collected) : c.names.Finite := by
  rw [names_eq]
  exact Finset.finite_toSet _

theorem names_ncard_le (c : Collected) (V : Set String) : (c.names \ V).ncard ≤ c.atoms.size := by
  calc (c.names \ V).ncard ≤ c.names.ncard := Set.ncard_le_ncard Set.sdiff_subset c.names_finite
    _ = c.atoms.keys.toFinset.card := by rw [names_eq, Set.ncard_coe_finset]
    _ ≤ c.atoms.keys.length := List.toFinset_card_le _
    _ = c.atoms.size := Std.ExtTreeMap.length_keys

theorem children_mem {id parent : String} (h : id ∈ c.childrenOf parent) : id ∈ c.atoms :=
  (parent_iff.mp h).mem

theorem tops_mem {id : String} (h : id ∈ c.roots ++ c.linked) : id ∈ c.atoms := by
  obtain ⟨atom, hatom, -⟩ := attached_iff.mpr h
  exact mem_of_getElem?_eq_some hatom

/-- The search that the traversal is. -/
theorem exists_search (c : Collected) :
    ∃ E C, Visits c.childrenOf ∅ ∅ (c.roots ++ c.linked) E C :=
  Visits.exists_of_finite c.names_finite (fun _ _ _ h => children_mem h) ∅ ∅ _ fun _ h => tops_mem h

end Collected

/-! ## The children that the source lists -/

theorem linkAll_children (c : Collected) (k : Option String) :
    (linkAll c).1.getD k [] = (c.atoms.toList.filter fun p =>
      p.2.after = k ∧ ¬ p.2.after.any fun parent => !c.atoms.contains parent).map Prod.fst := by
  have hloop : ∀ (entries : List (String × Atom)) (s : Linking),
      (entries.foldl (link c.atoms) s).1.getD k [] = s.1.getD k [] ++ (entries.filter fun p =>
        p.2.after = k ∧ ¬ p.2.after.any fun parent => !c.atoms.contains parent).map Prod.fst := by
    intro entries
    induction entries with
    | nil => simp
    | cons entry rest ih =>
        intro s
        rw [List.foldl_cons, ih, link]
        split
        · rename_i hmissing
          simp [hmissing]
        · rename_i hthere
          rw [Std.ExtTreeMap.getD_insert]
          by_cases hk : entry.2.after = k
          · subst hk
            simp [hthere]
          · simp [hk]
  rw [linkAll, hloop, Std.ExtTreeMap.getD_empty, List.nil_append]

theorem linkAll_roots (c : Collected) : (linkAll c).1.getD none [] = c.roots := by
  rw [linkAll_children, Collected.roots]
  congr 1
  apply List.filter_congr
  rintro ⟨id, atom⟩ -
  cases atom.after <;> simp

theorem linkAll_childrenOf (c : Collected) (parent : String) :
    (linkAll c).1.getD (some parent) [] = c.childrenOf parent := by
  rw [linkAll_children, Collected.childrenOf]
  congr 1
  apply List.filter_congr
  rintro ⟨id, atom⟩ -
  cases hafter : atom.after with
  | none => simp
  | some parent' =>
      by_cases heq : parent' = parent
      · subst heq
        simp
      · simp [heq]

/-! ## The traversal -/

/-- A search that entered `E` and came back to `C`. -/
def VisitState.advance (s : VisitState) (c : Collected) (E C : List String) : VisitState where
  diagnostics := s.diagnostics.insertMany (C.map ("cycle:" ++ ·))
  visiting := s.visiting
  visited := s.visited.insertMany E
  output := s.output ++ String.join ((E.filter (!c.deleted.contains ·)).map c.textOf)
  pushed := s.pushed ++ E.filter (!c.deleted.contains ·)

section Traversal

variable {c : Collected} {s : VisitState}

theorem VisitState.advance_nil (s : VisitState) (c : Collected) : s.advance c [] [] = s := by
  simp [VisitState.advance]

theorem VisitState.advance_advance (s : VisitState) (c : Collected) (E C E' C' : List String) :
    (s.advance c E C).advance c E' C' = s.advance c (E ++ E') (C ++ C') := by
  rw [VisitState.advance, VisitState.advance, VisitState.advance, VisitState.mk.injEq]
  refine ⟨?_, rfl, ?_, ?_, ?_⟩
  · apply Std.ExtTreeSet.ext_mem
    intro d
    simp [or_assoc]
  · apply Std.ExtTreeSet.ext_mem
    intro id
    simp [or_assoc]
  · rw [List.filter_append, List.map_append, String.join_append, String.append_assoc]
  · rw [List.filter_append, List.append_assoc]

def graphOf (c : Collected) : Graph := ⟨c.atoms, (linkAll c).1, c.deleted⟩

def VisitState.enter (s : VisitState) (c : Collected) (id : String) : VisitState where
  diagnostics := s.diagnostics
  visiting := s.visiting.insert id
  visited := s.visited
  output := s.output ++ String.join (([id].filter (!c.deleted.contains ·)).map c.textOf)
  pushed := s.pushed ++ [id].filter (!c.deleted.contains ·)

def VisitState.leave (s : VisitState) (id : String) : VisitState :=
  { s with visiting := s.visiting.erase id, visited := s.visited.insert id }

theorem VisitState.mem_enter {id id' : String} :
    id' ∈ (s.enter c id).visiting ↔ id' = id ∨ id' ∈ s.visiting := by
  rw [VisitState.enter, Std.ExtTreeSet.mem_insert, Std.LawfulEqCmp.compare_eq_iff_eq, eq_comm]

theorem VisitState.leave_enter {id : String} (hopen : id ∉ s.visiting) (c : Collected)
    (E C : List String) :
    ((s.enter c id).advance c E C).leave id = s.advance c (id :: E) C := by
  rw [VisitState.leave, VisitState.advance, VisitState.enter, VisitState.advance,
    VisitState.mk.injEq]
  refine ⟨rfl, ?_, ?_, ?_, ?_⟩
  · apply Std.ExtTreeSet.ext_mem
    intro id'
    simp only [Std.ExtTreeSet.mem_erase, Std.ExtTreeSet.mem_insert,
      Std.LawfulEqCmp.compare_eq_iff_eq, ne_eq]
    constructor
    · rintro ⟨hne, heq | hin⟩
      · exact absurd heq hne
      · exact hin
    · intro hin
      exact ⟨fun heq => hopen (heq ▸ hin), .inr hin⟩
  · apply Std.ExtTreeSet.ext_mem
    intro id'
    simp only [Std.ExtTreeSet.mem_insert, Std.LawfulEqCmp.compare_eq_iff_eq,
      Std.ExtTreeSet.mem_insertMany_list, List.contains_iff_mem, List.mem_cons,
      eq_comm (a := id)]
    exact or_left_comm
  · rw [String.append_assoc, ← String.join_append, ← List.map_append, ← List.filter_append]
    rfl
  · rw [List.append_assoc, ← List.filter_append]
    rfl

theorem visit_again {depth : Nat} {id : String} (hopen : id ∈ s.visiting) :
    (graphOf c).visit (depth + 1) s id = some (s.advance c [] [id]) := by
  have hdiagnostics : s.diagnostics.insertMany [("cycle:" ++ id)] =
      s.diagnostics.insert ("cycle:" ++ id) := by
    apply Std.ExtTreeSet.ext_mem
    intro d
    simp [eq_comm]
  have hcontains : s.visiting.contains id = true := hopen
  simp [Graph.visit, hcontains, VisitState.advance, hdiagnostics]

theorem visit_done {depth : Nat} {id : String} (hopen : id ∉ s.visiting) (hdone : id ∈ s.visited) :
    (graphOf c).visit (depth + 1) s id = some s := by
  have hcontains : s.visiting.contains id = false := Bool.eq_false_iff.mpr hopen
  have hcontains' : s.visited.contains id = true := hdone
  simp [Graph.visit, hcontains, hcontains']

theorem visit_enter (depth : Nat) {id : String} (hid : id ∈ c.atoms) (hopen : id ∉ s.visiting)
    (hdone : id ∉ s.visited) :
    (graphOf c).visit (depth + 1) s id =
      ((c.childrenOf id).foldlM ((graphOf c).visit depth) (s.enter c id)).map (·.leave id) := by
  obtain ⟨atom, hatom⟩ := Collected.mem_atoms.mp hid
  have hcontains : s.visiting.contains id = false := Bool.eq_false_iff.mpr hopen
  have hcontains' : s.visited.contains id = false := Bool.eq_false_iff.mpr hdone
  have hopened : (graphOf c).push { s with visiting := s.visiting.insert id } id =
      some (s.enter c id) := by
    by_cases hdeleted : c.deleted.contains id = true
    · simp [hdeleted, VisitState.enter, Graph.push, graphOf]
    · simp [hdeleted, VisitState.enter, Graph.push, graphOf, hatom, Collected.textOf]
  have hchildren : (graphOf c).children.getD (some id) [] = c.childrenOf id :=
    linkAll_childrenOf c id
  simp only [Graph.visit, hcontains, hcontains', hopened, hchildren, Bool.false_eq_true, if_false]
  show ((c.childrenOf id).foldlM ((graphOf c).visit depth) (s.enter c id)).bind _ = _
  cases (c.childrenOf id).foldlM ((graphOf c).visit depth) (s.enter c id) <;> rfl

theorem visit_calls {V D : Set String} {xs E C : List String}
    (h : Visits c.childrenOf V D xs E C) {depth : Nat} (hdepth : (c.names \ V).ncard < depth)
    (hxs : ∀ x ∈ xs, x ∈ c.atoms) {s : VisitState} (hV : ∀ x, x ∈ s.visiting ↔ x ∈ V)
    (hD : ∀ x, x ∈ s.visited ↔ x ∈ D) :
    xs.foldlM ((graphOf c).visit depth) s = some (s.advance c E C) := by
  induction h generalizing depth s with
  | nil V D => rw [List.foldlM_nil, s.advance_nil]; rfl
  | @again V D x xs E C hopen rest ih =>
      obtain ⟨d, rfl⟩ : ∃ d, depth = d + 1 := ⟨depth - 1, by omega⟩
      rw [List.foldlM_cons, visit_again ((hV x).mpr hopen)]
      have hrest := ih hdepth (fun y hy => hxs y (List.mem_cons_of_mem x hy))
        (s := s.advance c [] [x]) hV (by simpa [VisitState.advance] using hD)
      rw [VisitState.advance_advance] at hrest
      exact hrest
  | @done V D x xs E C hopen hdone rest ih =>
      obtain ⟨d, rfl⟩ : ∃ d, depth = d + 1 := ⟨depth - 1, by omega⟩
      rw [List.foldlM_cons, visit_done (mt (hV x).mp hopen) ((hD x).mpr hdone)]
      exact ih hdepth (fun y hy => hxs y (List.mem_cons_of_mem x hy)) hV hD
  | @enter V D x xs E C E' C' hopen hdone inner rest ihinner ihrest =>
      obtain ⟨d, rfl⟩ : ∃ d, depth = d + 1 := ⟨depth - 1, by omega⟩
      have hx : x ∈ c.atoms := hxs x List.mem_cons_self
      have hlt := closing_lt c.names_finite (x := x) hx hopen
      have hshallow : (c.names \ insert x V).ncard < d := by omega
      have hinner := ihinner hshallow (fun y hy => Collected.children_mem hy)
        (s := s.enter c x) (fun y => by rw [VisitState.mem_enter, hV, Set.mem_insert_iff]) hD
      have hvisit : (graphOf c).visit (d + 1) s x = some (s.advance c (x :: E) C) := by
        rw [visit_enter d hx (mt (hV x).mp hopen) (mt (hD x).mp hdone), hinner, Option.map_some,
          VisitState.leave_enter (mt (hV x).mp hopen)]
      have hrest := ihrest hdepth (fun y hy => hxs y (List.mem_cons_of_mem x hy))
        (s := s.advance c (x :: E) C) hV (fun y => by simp [VisitState.advance, hD])
      rw [List.foldlM_cons, hvisit]
      rw [VisitState.advance_advance, List.cons_append] at hrest
      exact hrest

theorem visitLeftover_linked {depth : Nat} {id : String} (hlinked : c.isLinked id = true)
    (hopen : id ∉ s.visiting) :
    (graphOf c).visitLeftover (depth + 1) s id = (graphOf c).visit (depth + 1) s id := by
  rw [Graph.visitLeftover]
  split
  · rfl
  · rename_i hvisited
    have hdone : id ∈ s.visited := by
      by_contra hnew
      have hcontains : s.visited.contains id = false := Bool.eq_false_iff.mpr hnew
      exact hvisited ⟨by rw [hcontains, Bool.not_false], hlinked⟩
    rw [visit_done hopen hdone]

theorem visitLeftover_other {depth : Nat} {id : String} (hother : ¬ c.isLinked id = true) :
    (graphOf c).visitLeftover depth s id = some s := by
  rw [Graph.visitLeftover, if_neg]
  exact fun h => hother h.2

theorem visit_leftovers {D : Set String} {ids E C : List String}
    (h : Visits c.childrenOf ∅ D (ids.filter c.isLinked) E C) {depth : Nat}
    (hdepth : c.atoms.size < depth) {s : VisitState} (hV : ∀ x, x ∉ s.visiting)
    (hD : ∀ x, x ∈ s.visited ↔ x ∈ D) :
    ids.foldlM ((graphOf c).visitLeftover depth) s = some (s.advance c E C) := by
  have hbound : (c.names \ ∅).ncard < depth := (c.names_ncard_le ∅).trans_lt hdepth
  induction ids generalizing D E C s with
  | nil =>
      cases h
      rw [List.foldlM_nil, s.advance_nil]
      rfl
  | cons id ids ih =>
      rw [List.foldlM_cons]
      by_cases hlinked : c.isLinked id = true
      · rw [List.filter_cons_of_pos hlinked] at h
        obtain ⟨E₁, C₁, E₂, C₂, rfl, rfl, hcall, hrest⟩ :=
          (show Visits c.childrenOf _ _ ([id] ++ _) E C from h).of_append
        have hid : id ∈ c.atoms := by
          obtain ⟨parent, hparent⟩ := Collected.isLinked_iff.mp hlinked
          exact hparent.mem
        have hvisit := visit_calls hcall hbound
          (by simpa using hid) (s := s) (by simpa using hV) hD
        have hnew : (graphOf c).visitLeftover depth s id = some (s.advance c E₁ C₁) := by
          obtain ⟨d, rfl⟩ : ∃ d, depth = d + 1 := ⟨depth - 1, by omega⟩
          rw [visitLeftover_linked hlinked (hV id), ← hvisit]
          simp
        have hdone := ih hrest (s := s.advance c E₁ C₁) hV
          (fun y => by simp [VisitState.advance, hD])
        rw [hnew]
        rw [VisitState.advance_advance] at hdone
        exact hdone
      · rw [List.filter_cons_of_neg hlinked] at h
        rw [visitLeftover_other hlinked]
        exact ih h hV hD

def VisitState.start (c : Collected) : VisitState := ⟨(linkAll c).2, ∅, ∅, "", []⟩

/-- The traversal is a search from the roots and the linked atoms, at any depth that is
greater than the number of the atoms. -/
theorem traverse_eq (n : CrdtNode) {E C : List String}
    (h : Visits (collect n).childrenOf ∅ ∅ ((collect n).roots ++ (collect n).linked) E C)
    {depth : Nat} (hdepth : (collect n).atoms.size < depth) :
    traverse depth n = some ((VisitState.start (collect n)).advance (collect n) E C) := by
  generalize hc : collect n = c at h hdepth
  obtain ⟨E₁, C₁, E₂, C₂, rfl, rfl, hroots, hlinked⟩ := h.of_append
  have hbound : (c.names \ ∅).ncard < depth := (c.names_ncard_le ∅).trans_lt hdepth
  have hfirst := visit_calls hroots hbound
    (fun x hx => Collected.tops_mem (List.mem_append_left _ hx)) (s := VisitState.start c)
    (by simp [VisitState.start]) (by simp [VisitState.start])
  have hsecond := visit_leftovers hlinked hdepth (s := (VisitState.start c).advance c E₁ C₁)
    (by simp [VisitState.advance, VisitState.start])
    (fun y => by simp [VisitState.advance, VisitState.start])
  rw [VisitState.advance_advance] at hsecond
  rw [← linkAll_roots] at hfirst
  simp only [traverse, hc]
  show (((linkAll c).1.getD none []).foldlM ((graphOf c).visit depth) (VisitState.start c)).bind
    (c.atoms.keys.foldlM ((graphOf c).visitLeftover depth)) = _
  rw [hfirst, Option.bind_some, hsecond]

end Traversal

end TautShape.Crdt.Text
