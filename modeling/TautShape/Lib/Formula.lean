import Mathlib
/-!
# Formulas and what some false atoms settle

Formulas over atoms with conjunctions and disjunctions of any length.  When some
atoms are known to be false and nothing is known of the others, a formula can be
settled from its shape: a conjunction is false once a member is, and a negation
turns the value asked for around, so that below it the connectives change places.
-/

namespace TautShape.Lib

/-- A `not` holds as many members as were written; only one is meaningful. -/
inductive Formula (α : Type*) where
  | atom (arg : α)
  | all (args : List (Formula α))
  | any (args : List (Formula α))
  | not (args : List (Formula α))

namespace Formula

variable {α : Type*}

/-- Induction over a formula and its lists of members. -/
theorem members_induction {P : Formula α → Prop} (atom : ∀ arg, P (.atom arg))
    (all : ∀ args, (∀ p ∈ args, P p) → P (.all args))
    (any : ∀ args, (∀ p ∈ args, P p) → P (.any args))
    (not : ∀ args, (∀ p ∈ args, P p) → P (.not args)) (p : Formula α) : P p := by
  refine @Formula.rec α P (fun args => ∀ p ∈ args, P p) atom all any not ?_ ?_ p
  · simp
  · intro p rest hp hrest
    exact List.forall_mem_cons.mpr ⟨hp, hrest⟩

mutual

def holds (v : α → Bool) : Formula α → Bool
  | .atom arg => v arg
  | .all args => allHold v args
  | .any args => anyHolds v args
  | .not [p] => !holds v p
  | .not _ => false

def allHold (v : α → Bool) : List (Formula α) → Bool
  | [] => true
  | p :: rest => holds v p && allHold v rest

def anyHolds (v : α → Bool) : List (Formula α) → Bool
  | [] => false
  | p :: rest => holds v p || anyHolds v rest

end

@[simp] theorem allHold_eq (v : α → Bool) (args : List (Formula α)) :
    allHold v args = args.all (holds v) := by
  induction args with
  | nil => rfl
  | cons p rest ih => rw [allHold, ih, List.all_cons]

@[simp] theorem anyHolds_eq (v : α → Bool) (args : List (Formula α)) :
    anyHolds v args = args.any (holds v) := by
  induction args with
  | nil => rfl
  | cons p rest ih => rw [anyHolds, ih, List.any_cons]

mutual

/-- Whether the atoms in `off` being false is enough, by the shape of a formula, to
give it the value `b`. -/
def settled (off : α → Bool) (b : Bool) : Formula α → Bool
  | .atom arg => !b && off arg
  | .all args => if b then !args.isEmpty && allSettled off b args else anySettled off b args
  | .any args => !args.isEmpty && allSettled off b args
  | .not [p] => settled off (!b) p
  | .not _ => false

def allSettled (off : α → Bool) (b : Bool) : List (Formula α) → Bool
  | [] => true
  | p :: rest => settled off b p && allSettled off b rest

def anySettled (off : α → Bool) (b : Bool) : List (Formula α) → Bool
  | [] => false
  | p :: rest => settled off b p || anySettled off b rest

end

@[simp] theorem allSettled_eq (off : α → Bool) (b : Bool) (args : List (Formula α)) :
    allSettled off b args = args.all (settled off b) := by
  induction args with
  | nil => rfl
  | cons p rest ih => rw [allSettled, ih, List.all_cons]

@[simp] theorem anySettled_eq (off : α → Bool) (b : Bool) (args : List (Formula α)) :
    anySettled off b args = args.any (settled off b) := by
  induction args with
  | nil => rfl
  | cons p rest ih => rw [anySettled, ih, List.any_cons]

theorem settled_not {off : α → Bool} {b : Bool} {args : List (Formula α)}
    (h : settled off b (.not args) = true) : ∃ p, args = [p] ∧ settled off (!b) p = true := by
  cases args with
  | nil => simp [settled] at h
  | cons p rest =>
      cases rest with
      | nil => exact ⟨p, rfl, h⟩
      | cons q rest => simp [settled] at h

mutual

/-- The three-valued reading: whether a formula is known to have the value `b` when the
atoms in `off` are false and the others unknown. -/
def known (off : α → Bool) (b : Bool) : Formula α → Bool
  | .atom arg => !b && off arg
  | .all args => if b then allKnown off b args else anyKnown off b args
  | .any args => if b then anyKnown off b args else allKnown off b args
  | .not [p] => known off (!b) p
  | .not _ => !b

def allKnown (off : α → Bool) (b : Bool) : List (Formula α) → Bool
  | [] => true
  | p :: rest => known off b p && allKnown off b rest

def anyKnown (off : α → Bool) (b : Bool) : List (Formula α) → Bool
  | [] => false
  | p :: rest => known off b p || anyKnown off b rest

end

@[simp] theorem allKnown_eq (off : α → Bool) (b : Bool) (args : List (Formula α)) :
    allKnown off b args = args.all (known off b) := by
  induction args with
  | nil => rfl
  | cons p rest ih => rw [allKnown, ih, List.all_cons]

@[simp] theorem anyKnown_eq (off : α → Bool) (b : Bool) (args : List (Formula α)) :
    anyKnown off b args = args.any (known off b) := by
  induction args with
  | nil => rfl
  | cons p rest ih => rw [anyKnown, ih, List.any_cons]

theorem known_of_settled {off : α → Bool} (p : Formula α) :
    ∀ b, settled off b p = true → known off b p = true := by
  induction p using members_induction with
  | atom arg =>
      intro b hsettled
      exact hsettled
  | all args ih =>
      intro b hsettled
      cases b with
      | true =>
          rw [settled, if_pos rfl, allSettled_eq, Bool.and_eq_true, List.all_eq_true] at hsettled
          rw [known, if_pos rfl, allKnown_eq, List.all_eq_true]
          intro p hp
          exact ih p hp true (hsettled.2 p hp)
      | false =>
          rw [settled, if_neg Bool.false_ne_true, anySettled_eq, List.any_eq_true] at hsettled
          obtain ⟨p, hp, hfalse⟩ := hsettled
          rw [known, if_neg Bool.false_ne_true, anyKnown_eq, List.any_eq_true]
          exact ⟨p, hp, ih p hp false hfalse⟩
  | any args ih =>
      intro b hsettled
      rw [settled, allSettled_eq, Bool.and_eq_true, List.all_eq_true] at hsettled
      cases b with
      | true =>
          -- one settled member would do; there is a first one
          cases args with
          | nil => simp at hsettled
          | cons p rest =>
              have hp : p ∈ p :: rest := List.mem_cons_self
              rw [known, if_pos rfl, anyKnown_eq, List.any_eq_true]
              exact ⟨p, hp, ih p hp true (hsettled.2 p hp)⟩
      | false =>
          rw [known, if_neg Bool.false_ne_true, allKnown_eq, List.all_eq_true]
          intro p hp
          exact ih p hp false (hsettled.2 p hp)
  | not args ih =>
      intro b hsettled
      obtain ⟨p, rfl, hone⟩ := settled_not hsettled
      rw [known]
      exact ih p (List.mem_singleton_self p) _ hone

theorem holds_not_of_ne {v : α → Bool} {args : List (Formula α)}
    (hnone : ¬∃ p, args = [p]) : holds v (.not args) = false :=
  holds.eq_5 v args fun p hp => hnone ⟨p, hp⟩

theorem known_not_of_ne {off : α → Bool} {b : Bool} {args : List (Formula α)}
    (hnone : ¬∃ p, args = [p]) : known off b (.not args) = !b :=
  known.eq_5 off b args fun p hp => hnone ⟨p, hp⟩

/-- What is known holds wherever those atoms are false. -/
theorem holds_of_known {off v : α → Bool} (hoff : ∀ arg, off arg = true → v arg = false)
    (p : Formula α) : ∀ b, known off b p = true → holds v p = b := by
  induction p using members_induction with
  | atom arg =>
      intro b hknown
      rw [known, Bool.and_eq_true, Bool.not_eq_true'] at hknown
      rw [holds, hoff arg hknown.2, hknown.1]
  | all args ih =>
      intro b hknown
      rw [holds, allHold_eq]
      cases b with
      | true =>
          rw [known, if_pos rfl, allKnown_eq, List.all_eq_true] at hknown
          rw [List.all_eq_true]
          intro p hp
          exact ih p hp true (hknown p hp)
      | false =>
          rw [known, if_neg Bool.false_ne_true, anyKnown_eq, List.any_eq_true] at hknown
          obtain ⟨p, hp, hfalse⟩ := hknown
          rw [List.all_eq_false]
          exact ⟨p, hp, by rw [ih p hp false hfalse]; decide⟩
  | any args ih =>
      intro b hknown
      rw [holds, anyHolds_eq]
      cases b with
      | true =>
          rw [known, if_pos rfl, anyKnown_eq, List.any_eq_true] at hknown
          obtain ⟨p, hp, htrue⟩ := hknown
          rw [List.any_eq_true]
          exact ⟨p, hp, ih p hp true htrue⟩
      | false =>
          rw [known, if_neg Bool.false_ne_true, allKnown_eq, List.all_eq_true] at hknown
          rw [List.any_eq_false]
          intro p hp
          rw [ih p hp false (hknown p hp)]
          decide
  | not args ih =>
      intro b hknown
      by_cases hone : ∃ p, args = [p]
      · obtain ⟨p, rfl⟩ := hone
        rw [known] at hknown
        rw [holds, ih p (List.mem_singleton_self p) _ hknown, Bool.not_not]
      · rw [known_not_of_ne hone, Bool.not_eq_true'] at hknown
        rw [holds_not_of_ne hone, hknown]

/-! ## Read-once formulas -/

mutual

def atoms : Formula α → List α
  | .atom arg => [arg]
  | .all args => atomsOf args
  | .any args => atomsOf args
  | .not args => atomsOf args

def atomsOf : List (Formula α) → List α
  | [] => []
  | p :: rest => atoms p ++ atomsOf rest

end

@[simp] theorem atomsOf_eq (args : List (Formula α)) : atomsOf args = args.flatMap atoms := by
  induction args with
  | nil => rfl
  | cons p rest ih => rw [atomsOf, ih, List.flatMap_cons]

def ReadOnce (off : α → Bool) (p : Formula α) : Prop :=
  (p.atoms.filter fun arg => !off arg).Nodup

instance [DecidableEq α] (off : α → Bool) (p : Formula α) : Decidable (p.ReadOnce off) :=
  inferInstanceAs (Decidable (List.Nodup _))

theorem holds_congr {v w : α → Bool} (p : Formula α) :
    (∀ arg ∈ p.atoms, v arg = w arg) → holds v p = holds w p := by
  have hmember : ∀ {args : List (Formula α)}, (∀ arg ∈ args.flatMap atoms, v arg = w arg) →
      ∀ p ∈ args, ∀ arg ∈ p.atoms, v arg = w arg := by
    intro args hvw p hp arg harg
    exact hvw arg (List.mem_flatMap.mpr ⟨p, hp, harg⟩)
  induction p using members_induction with
  | atom arg =>
      intro hvw
      exact hvw arg (List.mem_singleton_self arg)
  | all args ih =>
      intro hvw
      rw [atoms, atomsOf_eq] at hvw
      rw [holds, holds, allHold_eq, allHold_eq]
      rw [Bool.eq_iff_iff, List.all_eq_true, List.all_eq_true]
      exact forall₂_congr fun p hp => by rw [ih p hp (hmember hvw p hp)]
  | any args ih =>
      intro hvw
      rw [atoms, atomsOf_eq] at hvw
      rw [holds, holds, anyHolds_eq, anyHolds_eq]
      rw [Bool.eq_iff_iff, List.any_eq_true, List.any_eq_true]
      exact exists_congr fun p => and_congr_right fun hp => by rw [ih p hp (hmember hvw p hp)]
  | not args ih =>
      intro hvw
      by_cases hone : ∃ p, args = [p]
      · obtain ⟨p, rfl⟩ := hone
        have hp : p ∈ [p] := List.mem_singleton_self p
        rw [atoms, atomsOf_eq] at hvw
        rw [holds, holds, ih p hp (hmember hvw p hp)]
      · rw [holds_not_of_ne hone, holds_not_of_ne hone]

/-- Values for the members one by one are put together into values for all of them: an
atom of two members is false for both. -/
theorem exists_forall_holds {off : α → Bool} {b : Bool} (args : List (Formula α))
    (honce : ((args.flatMap atoms).filter fun arg => !off arg).Nodup)
    (hone : ∀ p ∈ args, ∃ v : α → Bool, (∀ arg, off arg = true → v arg = false) ∧
      holds v p = b) :
    ∃ v : α → Bool, (∀ arg, off arg = true → v arg = false) ∧ ∀ p ∈ args, holds v p = b := by
  classical
  induction args with
  | nil => exact ⟨fun _ => false, fun _ _ => rfl, by simp⟩
  | cons p rest ih =>
      rw [List.flatMap_cons, List.filter_append, List.nodup_append] at honce
      obtain ⟨-, hrest, hapart⟩ := honce
      obtain ⟨v, hv, hp⟩ := hone p List.mem_cons_self
      obtain ⟨w, hw, hall⟩ := ih hrest fun q hq => hone q (List.mem_cons_of_mem p hq)
      refine ⟨fun arg => if arg ∈ p.atoms then v arg else w arg, ?_, ?_⟩
      · intro arg harg
        simp only [hv arg harg, hw arg harg, ite_self]
      · refine List.forall_mem_cons.mpr ⟨?_, ?_⟩
        · rw [← hp]
          exact holds_congr p fun arg harg => if_pos harg
        · intro q hq
          rw [← hall q hq]
          refine holds_congr q fun arg harg => ?_
          by_cases hshared : arg ∈ p.atoms
          · have hoff : off arg = true := by
              by_contra hunknown
              have hnot : (!off arg) = true := by simpa using hunknown
              refine hapart arg (List.mem_filter.mpr ⟨hshared, hnot⟩) arg ?_ rfl
              exact List.mem_filter.mpr ⟨List.mem_flatMap.mpr ⟨q, hq, harg⟩, hnot⟩
            rw [if_pos hshared, hv arg hoff, hw arg hoff]
          · exact if_neg hshared

theorem ReadOnce.member {off : α → Bool} {args : List (Formula α)}
    (honce : ((args.flatMap atoms).filter fun arg => !off arg).Nodup) {p : Formula α}
    (hp : p ∈ args) : p.ReadOnce off := by
  obtain ⟨before, after, rfl⟩ := List.append_of_mem hp
  rw [List.flatMap_append, List.flatMap_cons, List.filter_append, List.filter_append] at honce
  exact (List.nodup_append.mp (List.nodup_append.mp honce).2.1).1

/-- **The three-valued reading is exact on read-once formulas**: what it does not know has
the other value for some values of the atoms. -/
theorem exists_holds_of_not_known {off : α → Bool} (p : Formula α) :
    ∀ b, p.ReadOnce off → known off b p = false →
      ∃ v : α → Bool, (∀ arg, off arg = true → v arg = false) ∧ holds v p = !b := by
  induction p using members_induction with
  | atom arg =>
      intro b _ hunknown
      refine ⟨fun arg => !b && !off arg, ?_, ?_⟩
      · intro arg harg
        simp [harg]
      · rw [known] at hunknown
        rw [holds]
        cases b <;> simp_all
  | all args ih =>
      intro b honce hunknown
      rw [ReadOnce, atoms, atomsOf_eq] at honce
      cases b with
      | true =>
          rw [known, if_pos rfl, allKnown_eq, List.all_eq_false] at hunknown
          obtain ⟨p, hp, hunknown⟩ := hunknown
          obtain ⟨v, hv, hfalse⟩ := ih p hp true (.member honce hp) (by simpa using hunknown)
          refine ⟨v, hv, ?_⟩
          rw [holds, allHold_eq, Bool.not_true, List.all_eq_false]
          exact ⟨p, hp, by rw [hfalse]; decide⟩
      | false =>
          rw [known, if_neg Bool.false_ne_true, anyKnown_eq, List.any_eq_false] at hunknown
          obtain ⟨v, hv, hall⟩ := exists_forall_holds args honce fun p hp =>
            ih p hp false (.member honce hp) (by simpa using hunknown p hp)
          exact ⟨v, hv, by rw [holds, allHold_eq, Bool.not_false, List.all_eq_true]; exact hall⟩
  | any args ih =>
      intro b honce hunknown
      rw [ReadOnce, atoms, atomsOf_eq] at honce
      cases b with
      | true =>
          rw [known, if_pos rfl, anyKnown_eq, List.any_eq_false] at hunknown
          obtain ⟨v, hv, hall⟩ := exists_forall_holds args honce fun p hp =>
            ih p hp true (.member honce hp) (by simpa using hunknown p hp)
          refine ⟨v, hv, ?_⟩
          rw [holds, anyHolds_eq, Bool.not_true, List.any_eq_false]
          intro p hp
          rw [hall p hp]
          decide
      | false =>
          rw [known, if_neg Bool.false_ne_true, allKnown_eq, List.all_eq_false] at hunknown
          obtain ⟨p, hp, hunknown⟩ := hunknown
          obtain ⟨v, hv, htrue⟩ := ih p hp false (.member honce hp) (by simpa using hunknown)
          refine ⟨v, hv, ?_⟩
          rw [holds, anyHolds_eq, Bool.not_false, List.any_eq_true]
          exact ⟨p, hp, htrue⟩
  | not args ih =>
      intro b honce hunknown
      rw [ReadOnce, atoms, atomsOf_eq] at honce
      by_cases hone : ∃ p, args = [p]
      · obtain ⟨p, rfl⟩ := hone
        have hp : p ∈ [p] := List.mem_singleton_self p
        rw [known] at hunknown
        obtain ⟨v, hv, hvalue⟩ := ih p hp _ (.member honce hp) hunknown
        exact ⟨v, hv, by rw [holds, hvalue, Bool.not_not]⟩
      · rw [known_not_of_ne hone, Bool.not_eq_false'] at hunknown
        refine ⟨fun _ => false, fun _ _ => rfl, ?_⟩
        rw [holds_not_of_ne hone, hunknown, Bool.not_true]

end Formula
end TautShape.Lib
