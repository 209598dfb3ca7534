import Mathlib.Data.Set.Card
import Mathlib.Logic.Relation
/-!
# Depth-first search

A search keeps the nodes that are open, those between the call that is running and its
top, and those that are done.  `Visits` is what a list of calls enters and what it comes
back to while it is open.  The second half is about forests and cycles: graphs in which
no node is a child of two.
-/

namespace TautShape.Lib

open Relation

variable {α : Type*}

/-- Calls to the nodes of `xs` in turn, while the nodes of `V` are open and those of `D`
are done: they enter `E` in this order and come back to the open nodes `C`. -/
inductive Visits (children : α → List α) : Set α → Set α → List α → List α → List α → Prop
  | nil (V D : Set α) : Visits children V D [] [] []
  | again {V D : Set α} {x : α} {xs E C : List α} (hopen : x ∈ V)
      (rest : Visits children V D xs E C) : Visits children V D (x :: xs) E (x :: C)
  | done {V D : Set α} {x : α} {xs E C : List α} (hopen : x ∉ V) (hdone : x ∈ D)
      (rest : Visits children V D xs E C) : Visits children V D (x :: xs) E C
  | enter {V D : Set α} {x : α} {xs E C E' C' : List α} (hopen : x ∉ V) (hdone : x ∉ D)
      (inner : Visits children (insert x V) D (children x) E C)
      (rest : Visits children V (D ∪ {y | y ∈ x :: E}) xs E' C') :
      Visits children V D (x :: xs) (x :: (E ++ E')) (C ++ C')

def Parent (children : α → List α) (y x : α) : Prop := y ∈ children x

def Above (children : α → List α) (y x : α) : Prop := ReflTransGen (Parent children) y x

variable {children : α → List α}

theorem Above.refl (x : α) : Above children x x := ReflTransGen.refl

theorem Above.child {x y c : α} (h : Above children y x) (hc : c ∈ children y) :
    Above children c x := ReflTransGen.head hc h

theorem closing_lt {S : Set α} (hS : S.Finite) {V : Set α} {x : α} (hx : x ∈ S) (hopen : x ∉ V) :
    (S \ insert x V).ncard < (S \ V).ncard := by
  apply Set.ncard_lt_ncard _ (hS.sdiff)
  constructor
  · exact Set.sdiff_subset_sdiff_right (Set.subset_insert x V)
  · intro hsubset
    exact (hsubset ⟨hx, hopen⟩).2 (Set.mem_insert x V)

namespace Visits

variable {V D : Set α} {xs E C : List α}

/-- On finitely many nodes every search comes to an end. -/
theorem exists_of_finite {S : Set α} (hS : S.Finite) (hclosed : ∀ x ∈ S, ∀ y ∈ children x, y ∈ S)
    (V D : Set α) (xs : List α) (hxs : ∀ x ∈ xs, x ∈ S) : ∃ E C, Visits children V D xs E C := by
  induction hn : (S \ V).ncard using Nat.strong_induction_on generalizing V D xs with
  | _ n ih =>
      induction xs generalizing D with
      | nil => exact ⟨[], [], .nil V D⟩
      | cons x xs ihxs =>
          have hx : x ∈ S := hxs x List.mem_cons_self
          have hrest : ∀ y ∈ xs, y ∈ S := fun y hy => hxs y (List.mem_cons_of_mem x hy)
          by_cases hopen : x ∈ V
          · obtain ⟨E, C, hvisits⟩ := ihxs D hrest
            exact ⟨E, x :: C, .again hopen hvisits⟩
          · by_cases hdone : x ∈ D
            · obtain ⟨E, C, hvisits⟩ := ihxs D hrest
              exact ⟨E, C, .done hopen hdone hvisits⟩
            · obtain ⟨E, C, hinner⟩ := ih _ (hn ▸ closing_lt hS hx hopen) (insert x V) D
                (children x) (hclosed x hx) rfl
              obtain ⟨E', C', hvisits⟩ := ihxs (D ∪ {y | y ∈ x :: E}) hrest
              exact ⟨x :: (E ++ E'), C ++ C', .enter hopen hdone hinner hvisits⟩

/-! ## What is entered -/

theorem fresh (h : Visits children V D xs E C) : ∀ y ∈ E, y ∉ V ∧ y ∉ D := by
  induction h with
  | nil V D => simp
  | again hopen rest ih => exact ih
  | done hopen hdone rest ih => exact ih
  | enter hopen hdone inner rest ihinner ihrest =>
      intro y hy
      rcases List.mem_cons.mp hy with rfl | hy
      · exact ⟨hopen, hdone⟩
      rcases List.mem_append.mp hy with hin | hin
      · exact ⟨fun hV => (ihinner y hin).1 (Set.mem_insert_of_mem _ hV), (ihinner y hin).2⟩
      · exact ⟨(ihrest y hin).1, fun hD => (ihrest y hin).2 (.inl hD)⟩

/-- No node is entered twice. -/
theorem nodup (h : Visits children V D xs E C) : E.Nodup := by
  induction h with
  | nil V D => exact List.nodup_nil
  | again hopen rest ih => exact ih
  | done hopen hdone rest ih => exact ih
  | @enter V D x xs E C E' C' hopen hdone inner rest ihinner ihrest =>
      have hx : x ∉ E := fun hin => (inner.fresh x hin).1 (Set.mem_insert x V)
      have hE' : ∀ y ∈ E', y ∉ x :: E := fun y hy hin => (rest.fresh y hy).2 (.inr hin)
      apply List.nodup_cons.mpr
      constructor
      · rw [List.mem_append, not_or]
        exact ⟨hx, fun hin => hE' x hin List.mem_cons_self⟩
      · apply List.Nodup.append ihinner ihrest
        exact fun y hy hy' => hE' y hy' (List.mem_cons_of_mem x hy)

theorem called (h : Visits children V D xs E C) : ∀ x ∈ xs, x ∈ V ∨ x ∈ D ∨ x ∈ E := by
  induction h with
  | nil V D => simp
  | @again V D x xs E C hopen rest ih =>
      intro y hy
      rcases List.mem_cons.mp hy with rfl | hy
      · exact .inl hopen
      · exact ih y hy
  | @done V D x xs E C hopen hdone rest ih =>
      intro y hy
      rcases List.mem_cons.mp hy with rfl | hy
      · exact .inr (.inl hdone)
      · exact ih y hy
  | @enter V D x xs E C E' C' hopen hdone inner rest ihinner ihrest =>
      intro y hy
      rcases List.mem_cons.mp hy with rfl | hy
      · exact .inr (.inr List.mem_cons_self)
      · rcases ihrest y hy with hV | (hD | hin) | hin
        · exact .inl hV
        · exact .inr (.inl hD)
        · refine .inr (.inr ?_)
          rcases List.mem_cons.mp hin with rfl | hin
          · exact List.mem_cons_self
          · exact List.mem_cons_of_mem x (List.mem_append_left E' hin)
        · exact .inr (.inr (List.mem_cons_of_mem x (List.mem_append_right E hin)))

theorem closed (h : Visits children V D xs E C) :
    ∀ y ∈ E, ∀ c ∈ children y, c ∈ V ∨ c ∈ D ∨ c ∈ E := by
  induction h with
  | nil V D => simp
  | again hopen rest ih => exact ih
  | done hopen hdone rest ih => exact ih
  | @enter V D x xs E C E' C' hopen hdone inner rest ihinner ihrest =>
      -- in the inner search `x` is open, and here it is entered
      have hlift : ∀ c, c ∈ insert x V ∨ c ∈ D ∨ c ∈ E → c ∈ V ∨ c ∈ D ∨ c ∈ x :: (E ++ E') := by
        rintro c ((rfl | hV) | hD | hin)
        · exact .inr (.inr List.mem_cons_self)
        · exact .inl hV
        · exact .inr (.inl hD)
        · exact .inr (.inr (List.mem_cons_of_mem x (List.mem_append_left E' hin)))
      intro y hy c hc
      rcases List.mem_cons.mp hy with rfl | hy
      · exact hlift c (inner.called c hc)
      rcases List.mem_append.mp hy with hin | hin
      · exact hlift c (ihinner y hin c hc)
      · rcases ihrest y hin c hc with hV | (hD | hin) | hin
        · exact .inl hV
        · exact .inr (.inl hD)
        · rcases List.mem_cons.mp hin with rfl | hin
          · exact .inr (.inr List.mem_cons_self)
          · exact hlift c (.inr (.inr hin))
        · exact .inr (.inr (List.mem_cons_of_mem x (List.mem_append_right E hin)))

/-- Whatever is entered is below a call. -/
theorem reached (h : Visits children V D xs E C) : ∀ y ∈ E, ∃ x ∈ xs, Above children y x := by
  induction h with
  | nil V D => simp
  | @again V D x xs E C hopen rest ih =>
      intro y hy
      obtain ⟨top, htop, habove⟩ := ih y hy
      exact ⟨top, List.mem_cons_of_mem x htop, habove⟩
  | @done V D x xs E C hopen hdone rest ih =>
      intro y hy
      obtain ⟨top, htop, habove⟩ := ih y hy
      exact ⟨top, List.mem_cons_of_mem x htop, habove⟩
  | @enter V D x xs E C E' C' hopen hdone inner rest ihinner ihrest =>
      intro y hy
      rcases List.mem_cons.mp hy with rfl | hy
      · exact ⟨y, List.mem_cons_self, .refl y⟩
      rcases List.mem_append.mp hy with hin | hin
      · obtain ⟨c, hc, habove⟩ := ihinner y hin
        exact ⟨x, List.mem_cons_self, ReflTransGen.tail habove hc⟩
      · obtain ⟨top, htop, habove⟩ := ihrest y hin
        exact ⟨top, List.mem_cons_of_mem x htop, habove⟩

/-- A search from nothing enters what is below its calls. -/
theorem mem_iff (h : Visits children ∅ ∅ xs E C) {y : α} :
    y ∈ E ↔ ∃ x ∈ xs, Above children y x := by
  constructor
  · exact h.reached y
  · rintro ⟨x, hx, habove⟩
    have hentered : x ∈ E := by simpa using h.called x hx
    unfold Above at habove
    induction habove using ReflTransGen.head_induction_on with
    | refl => exact hentered
    | head hchild _ ih => simpa using h.closed _ ih _ hchild

theorem of_append {ys : List α} (h : Visits children V D (xs ++ ys) E C) :
    ∃ E₁ C₁ E₂ C₂, E = E₁ ++ E₂ ∧ C = C₁ ++ C₂ ∧ Visits children V D xs E₁ C₁ ∧
      Visits children V (D ∪ {y | y ∈ E₁}) ys E₂ C₂ := by
  induction xs generalizing D E C with
  | nil =>
      refine ⟨[], [], E, C, rfl, rfl, .nil V D, ?_⟩
      simpa using h
  | cons x xs ih =>
      cases h with
      | again hopen rest =>
          obtain ⟨E₁, C₁, E₂, C₂, rfl, rfl, hfront, hback⟩ := ih rest
          exact ⟨E₁, x :: C₁, E₂, C₂, rfl, rfl, .again hopen hfront, hback⟩
      | done hopen hdone rest =>
          obtain ⟨E₁, C₁, E₂, C₂, rfl, rfl, hfront, hback⟩ := ih rest
          exact ⟨E₁, C₁, E₂, C₂, rfl, rfl, .done hopen hdone hfront, hback⟩
      | @enter _ _ _ _ F B E' C' hopen hdone inner rest =>
          obtain ⟨E₁, C₁, E₂, C₂, rfl, rfl, hfront, hback⟩ := ih rest
          refine ⟨x :: (F ++ E₁), B ++ C₁, E₂, C₂, ?_, ?_, .enter hopen hdone inner hfront, ?_⟩
          · rw [List.cons_append, List.append_assoc]
          · rw [List.append_assoc]
          · convert hback using 1
            ext y
            simp [or_assoc]

theorem again_split (h : Visits children V D xs E C) {c : α} (hc : c ∈ C) :
    ∃ pre x post E₁ C₁ E₂ C₂, xs = pre ++ x :: post ∧ Visits children V D pre E₁ C₁ ∧
      Visits children V (D ∪ {y | y ∈ E₁}) [x] E₂ C₂ ∧ c ∈ C₂ := by
  induction xs using List.reverseRecOn generalizing E C with
  | nil =>
      cases h
      simp at hc
  | append_singleton xs x ih =>
      obtain ⟨E₁, C₁, E₂, C₂, -, rfl, hfront, hlast⟩ := h.of_append
      rcases List.mem_append.mp hc with hin | hin
      · obtain ⟨pre, x', post, E₃, C₃, E₄, C₄, rfl, hpre, hcall, hmem⟩ := ih hfront hin
        refine ⟨pre, x', post ++ [x], E₃, C₃, E₄, C₄, ?_, hpre, hcall, hmem⟩
        rw [List.append_assoc, List.cons_append]
      · exact ⟨xs, x, [], E₁, C₁, E₂, C₂, rfl, hfront, hlast, hin⟩

end Visits

/-! ## Graphs in which a node has one parent -/

def SingleParent (children : α → List α) : Prop :=
  ∀ y x x', y ∈ children x → y ∈ children x' → x = x'

def OnCycle (children : α → List α) (x : α) : Prop := TransGen (Parent children) x x

def preorder (children : α → List α) : Nat → α → List α
  | 0, _ => []
  | depth + 1, x => x :: (children x).flatMap (preorder children depth)

theorem Above.onCycle {y c : α} (h : Above children y c) (hc : c ∈ children y) :
    OnCycle children c := TransGen.head' hc h

theorem Above.total (hsingle : SingleParent children) {y x x' : α} (h : Above children y x)
    (h' : Above children y x') : Above children x x' ∨ Above children x' x :=
  ReflTransGen.total_of_right_unique (fun _ _ _ hx hx' => hsingle _ _ _ hx hx') h h'

theorem OnCycle.above (hsingle : SingleParent children) {c x : α} (hcycle : OnCycle children c)
    (h : Above children c x) : Above children x c := by
  unfold Above at h
  induction h with
  | refl => exact .refl c
  | tail _ hparent ih =>
      have hround : TransGen (Parent children) _ c := TransGen.trans_right ih hcycle
      obtain ⟨next, hnext, habove⟩ := TransGen.head'_iff.mp hround
      rwa [hsingle _ _ _ hparent hnext]

namespace Visits

variable {V D : Set α} {xs E C : List α}

/-- Coming back to a node: it was open before, or it was called and entered, and then
called again by something below it. -/
theorem again_cases (hsingle : SingleParent children) (h : Visits children V D xs E C) :
    ∀ c ∈ C, (c ∈ V ∧ (c ∈ xs ∨ ∃ y ∈ E, c ∈ children y)) ∨
      (c ∈ xs ∧ c ∈ E ∧ ∃ y ∈ E, c ∈ children y) := by
  induction h with
  | nil V D => simp
  | @again V D x xs E C hopen rest ih =>
      intro c hc
      rcases List.mem_cons.mp hc with rfl | hc
      · exact .inl ⟨hopen, .inl List.mem_cons_self⟩
      · rcases ih c hc with ⟨hV, hcall | hchild⟩ | ⟨hcall, hchild⟩
        · exact .inl ⟨hV, .inl (List.mem_cons_of_mem x hcall)⟩
        · exact .inl ⟨hV, .inr hchild⟩
        · exact .inr ⟨List.mem_cons_of_mem x hcall, hchild⟩
  | @done V D x xs E C hopen hdone rest ih =>
      intro c hc
      rcases ih c hc with ⟨hV, hcall | hchild⟩ | ⟨hcall, hchild⟩
      · exact .inl ⟨hV, .inl (List.mem_cons_of_mem x hcall)⟩
      · exact .inl ⟨hV, .inr hchild⟩
      · exact .inr ⟨List.mem_cons_of_mem x hcall, hchild⟩
  | @enter V D x xs E C E' C' hopen hdone inner rest ihinner ihrest =>
      have hin : ∀ y ∈ E, y ∈ x :: (E ++ E') := fun y hy =>
        List.mem_cons_of_mem x (List.mem_append_left E' hy)
      have hin' : ∀ y ∈ E', y ∈ x :: (E ++ E') := fun y hy =>
        List.mem_cons_of_mem x (List.mem_append_right E hy)
      intro c hc
      rcases List.mem_append.mp hc with hc | hc
      · -- in the inner search only the children of `x` are called
        rcases ihinner c hc with ⟨hV, hchild⟩ | ⟨hcall, -, y, hy, hchild⟩
        · have hparent : ∃ y ∈ x :: (E ++ E'), c ∈ children y := by
            rcases hchild with hcall | ⟨y, hy, hchild⟩
            · exact ⟨x, List.mem_cons_self, hcall⟩
            · exact ⟨y, hin y hy, hchild⟩
          rcases hV with rfl | hV
          · exact .inr ⟨List.mem_cons_self, List.mem_cons_self, hparent⟩
          · exact .inl ⟨hV, .inr hparent⟩
        · obtain rfl := hsingle c y x hchild hcall
          exact absurd (Set.mem_insert y V) (inner.fresh y hy).1
      · rcases ihrest c hc with ⟨hV, hcall | ⟨y, hy, hchild⟩⟩ | ⟨hcall, hc', y, hy, hchild⟩
        · exact .inl ⟨hV, .inl (List.mem_cons_of_mem x hcall)⟩
        · exact .inl ⟨hV, .inr ⟨y, hin' y hy, hchild⟩⟩
        · exact .inr ⟨List.mem_cons_of_mem x hcall, hin' c hc', y, hin' y hy, hchild⟩

/-- Every call of an open node comes back to it. -/
theorem again_of_open (h : Visits children V D xs E C) {c : α} (hc : c ∈ V)
    (hcalled : c ∈ xs ∨ ∃ y ∈ E, c ∈ children y) : c ∈ C := by
  induction h with
  | nil V D => simp at hcalled
  | @again V D x xs E C hopen rest ih =>
      rcases hcalled with hcall | hchild
      · rcases List.mem_cons.mp hcall with rfl | hcall
        · exact List.mem_cons_self
        · exact List.mem_cons_of_mem x (ih hc (.inl hcall))
      · exact List.mem_cons_of_mem x (ih hc (.inr hchild))
  | @done V D x xs E C hopen hdone rest ih =>
      rcases hcalled with hcall | hchild
      · rcases List.mem_cons.mp hcall with rfl | hcall
        · exact absurd hc hopen
        · exact ih hc (.inl hcall)
      · exact ih hc (.inr hchild)
  | @enter V D x xs E C E' C' hopen hdone inner rest ihinner ihrest =>
      have hinner := ihinner (Set.mem_insert_of_mem x hc)
      rcases hcalled with hcall | ⟨y, hy, hchild⟩
      · rcases List.mem_cons.mp hcall with rfl | hcall
        · exact absurd hc hopen
        · exact List.mem_append_right C (ihrest hc (.inl hcall))
      · rcases List.mem_cons.mp hy with rfl | hy
        · exact List.mem_append_left C' (hinner (.inl hchild))
        rcases List.mem_append.mp hy with hin | hin
        · exact List.mem_append_left C' (hinner (.inr ⟨y, hin, hchild⟩))
        · exact List.mem_append_right C (ihrest hc (.inr ⟨y, hin, hchild⟩))

/-- A search from nothing comes back to the nodes of cycles that no call before reached. -/
theorem again_iff (hsingle : SingleParent children) (h : Visits children ∅ ∅ xs E C) {c : α} :
    c ∈ C ↔ OnCycle children c ∧
      ∃ pre post, xs = pre ++ c :: post ∧ ∀ u ∈ pre, ¬ Above children c u := by
  constructor
  · intro hc
    obtain ⟨pre, x, post, E₁, C₁, E₂, C₂, hxs, hpre, hcall, hmem⟩ := h.again_split hc
    rcases hcall.again_cases hsingle c hmem with ⟨hV, -⟩ | ⟨hx, hentered, y, hy, hchild⟩
    · simp at hV
    obtain rfl := List.mem_singleton.mp hx
    obtain ⟨top, htop, habove⟩ := hcall.reached y hy
    obtain rfl := List.mem_singleton.mp htop
    refine ⟨habove.onCycle hchild, pre, post, hxs, fun u hu hbefore => ?_⟩
    exact (hcall.fresh top hentered).2 (.inr (hpre.mem_iff.mpr ⟨u, hu, hbefore⟩))
  · rintro ⟨hcycle, pre, post, rfl, hbefore⟩
    rw [List.append_cons] at h
    obtain ⟨F, B, E₂, C₂, -, rfl, hfront, -⟩ := h.of_append
    obtain ⟨E₁, C₁, E₃, C₃, rfl, rfl, hpre, hcall⟩ := hfront.of_append
    have hold : ∀ y, Above children c y → y ∉ E₁ := by
      intro y hy hin
      obtain ⟨u, hu, habove⟩ := hpre.reached y hin
      exact hbefore u hu (hy.trans habove)
    -- the parent of `c` is below it, so it is entered while `c` is open
    obtain ⟨y, hchild, habove⟩ := TransGen.head'_iff.mp hcycle
    have hentered : y ∈ E₁ ++ E₃ := hfront.mem_iff.mpr ⟨c, by simp, habove⟩
    have hy : y ∈ E₃ := (List.mem_append.mp hentered).resolve_left
      (hold y (ReflTransGen.single hchild))
    apply List.mem_append_left C₂
    apply List.mem_append_right C₁
    cases hcall with
    | again hopen rest => simp at hopen
    | done hopen hdone rest =>
        rcases hdone with hdone | hdone
        · simp at hdone
        · exact absurd hdone (hold c (Above.refl c))
    | @enter _ _ _ _ E C E' C' hopen hdone inner rest =>
        apply List.mem_append_left C'
        apply inner.again_of_open (Set.mem_insert c ∅)
        cases rest
        rw [List.append_nil] at hy
        rcases List.mem_cons.mp hy with rfl | hy
        · exact .inl hchild
        · exact .inr ⟨y, hy, hchild⟩

/-! ## Order -/

theorem after_parent (h : Visits children V D xs E C) :
    ∀ c ∈ E, c ∈ xs ∨ ∃ p, c ∈ children p ∧ [p, c].Sublist E := by
  induction h with
  | nil V D => simp
  | @again V D x xs E C hopen rest ih =>
      intro c hc
      exact (ih c hc).imp_left (List.mem_cons_of_mem x)
  | @done V D x xs E C hopen hdone rest ih =>
      intro c hc
      exact (ih c hc).imp_left (List.mem_cons_of_mem x)
  | @enter V D x xs E C E' C' hopen hdone inner rest ihinner ihrest =>
      intro c hc
      rcases List.mem_cons.mp hc with rfl | hc
      · exact .inl List.mem_cons_self
      rcases List.mem_append.mp hc with hin | hin
      · rcases ihinner c hin with hcall | ⟨p, hchild, hafter⟩
        · refine .inr ⟨x, hcall, ?_⟩
          apply List.Sublist.cons_cons
          exact List.singleton_sublist.mpr (List.mem_append_left E' hin)
        · refine .inr ⟨p, hchild, ?_⟩
          exact (hafter.trans (List.sublist_append_left E E')).cons x
      · rcases ihrest c hin with hcall | ⟨p, hchild, hafter⟩
        · exact .inl (List.mem_cons_of_mem x hcall)
        · refine .inr ⟨p, hchild, ?_⟩
          exact (hafter.trans (List.sublist_append_right E E')).cons x

/-- In a search from nothing a node comes after its parent exactly if a call before its
own reached it. -/
theorem after_parent_iff (hsingle : SingleParent children) {pre post : List α} {p c : α}
    (h : Visits children ∅ ∅ (pre ++ c :: post) E C) (hpre : c ∉ pre) (hchild : c ∈ children p) :
    [p, c].Sublist E ↔ ∃ u ∈ pre, Above children c u := by
  obtain ⟨E₁, C₁, E₂, C₂, rfl, -, hfront, hback⟩ := h.of_append
  have hnodup := h.nodup
  rw [← hfront.mem_iff]
  constructor
  · intro hsub
    by_contra hnew
    -- `c` is entered by its own call, and its parent later
    cases hback with
    | again hopen rest => simp at hopen
    | done hopen hdone rest =>
        rcases hdone with hdone | hdone
        · simp at hdone
        · exact hnew hdone
    | @enter _ _ _ _ E C E' C' hopen hdone inner rest =>
        obtain ⟨l₁, l₂, hl, hsub₁, hsub₂⟩ := List.sublist_append_iff.mp hsub
        have hlast : c ∉ E ++ E' := by
          have htail := (List.nodup_append.mp hnodup).2.1
          exact (List.nodup_cons.mp htail).1
        have hp : p ∈ E₁ := by
          cases l₁ with
          | nil =>
              rw [List.nil_append] at hl
              subst hl
              have hin : c ∈ E ++ E' := by
                cases hsub₂ with
                | cons _ hsub => exact hsub.subset (by simp)
                | cons_cons _ hsub => exact hsub.subset (by simp)
              exact absurd hin hlast
          | cons a l₁ =>
              obtain ⟨rfl, -⟩ := List.cons.inj hl
              exact hsub₁.subset List.mem_cons_self
        obtain ⟨u, hu, habove⟩ := hfront.reached p hp
        exact hnew (hfront.mem_iff.mpr ⟨u, hu, habove.child hchild⟩)
  · intro hin
    rcases hfront.after_parent c hin with hcall | ⟨p', hchild', hafter⟩
    · exact absurd hcall hpre
    · obtain rfl := hsingle c p p' hchild hchild'
      exact hafter.trans (List.sublist_append_left E₁ E₂)

/-! ## Forests -/

theorem children_apart (hsingle : SingleParent children) (hforest : ∀ x, ¬ OnCycle children x)
    {x : α} (hnodup : (children x).Nodup) :
    (children x).Pairwise fun c c' => ∀ y, Above children y c → ¬ Above children y c' := by
  -- one of the two would be above the other, and so above their parent
  have hline : ∀ c c', c ∈ children x → c' ∈ children x → c ≠ c' → ¬ Above children c c' := by
    intro c c' hc hc' hne habove
    rcases ReflTransGen.cases_head habove with rfl | ⟨p, hp, habove⟩
    · exact hne rfl
    · obtain rfl := hsingle c p x hp hc
      exact hforest c' (Above.onCycle habove hc')
  apply hnodup.imp_of_mem
  intro c c' hc hc' hne y hy hy'
  rcases hy.total hsingle hy' with habove | habove
  · exact hline c c' hc hc' hne habove
  · exact hline c' c hc' hc hne.symm habove

/-- In a forest the calls go through their trees in preorder. -/
theorem eq_preorder (hsingle : SingleParent children) (hforest : ∀ x, ¬ OnCycle children x)
    (hnodup : ∀ x, (children x).Nodup) {S : Set α} (hS : S.Finite)
    (hclosed : ∀ x ∈ S, ∀ y ∈ children x, y ∈ S) (h : Visits children V D xs E C)
    (hxs : ∀ x ∈ xs, x ∈ S) (hfresh : ∀ x ∈ xs, ∀ y, Above children y x → y ∉ V ∧ y ∉ D)
    (hapart : xs.Pairwise fun c c' => ∀ y, Above children y c → ¬ Above children y c')
    {depth : Nat} (hdepth : (S \ V).ncard ≤ depth) :
    E = xs.flatMap (preorder children depth) := by
  induction h generalizing depth with
  | nil V D => rfl
  | @again V D x xs E C hopen rest ih =>
      exact absurd hopen (hfresh x List.mem_cons_self x (Above.refl x)).1
  | @done V D x xs E C hopen hdone rest ih =>
      exact absurd hdone (hfresh x List.mem_cons_self x (Above.refl x)).2
  | @enter V D x xs E C E' C' hopen hdone inner rest ihinner ihrest =>
      have hx : x ∈ S := hxs x List.mem_cons_self
      obtain ⟨hhead, htail⟩ := List.pairwise_cons.mp hapart
      have hlt := closing_lt hS hx hopen
      obtain ⟨d, rfl⟩ : ∃ d, depth = d + 1 := ⟨depth - 1, by omega⟩
      have hE : E = (children x).flatMap (preorder children d) := by
        apply ihinner (hclosed x hx) _ (children_apart hsingle hforest (hnodup x)) (by omega)
        intro c hc y hy
        have hbelow : Above children y x := ReflTransGen.tail hy hc
        obtain ⟨hV, hD⟩ := hfresh x List.mem_cons_self y hbelow
        refine ⟨?_, hD⟩
        rintro (rfl | hin)
        · exact hforest c (Above.onCycle hy hc)
        · exact hV hin
      have hE' : E' = xs.flatMap (preorder children (d + 1)) := by
        apply ihrest (fun y hy => hxs y (List.mem_cons_of_mem x hy)) _ htail hdepth
        intro c hc y hy
        obtain ⟨hV, hD⟩ := hfresh c (List.mem_cons_of_mem x hc) y hy
        refine ⟨hV, ?_⟩
        rintro (hin | hin)
        · exact hD hin
        -- what was entered below `x` is not below another call
        · refine hhead c hc y ?_ hy
          rcases List.mem_cons.mp hin with rfl | hin
          · exact Above.refl _
          · obtain ⟨c', hc', habove⟩ := inner.reached y hin
            exact ReflTransGen.tail habove hc'
      rw [hE, hE', List.flatMap_cons, preorder, List.cons_append]

end Visits

end TautShape.Lib
