import TautShape.Lib.Formula
/-!
# The test-only exemption of the process-globals guard

The guard skips code whose `cfg` predicate implies a test build.  Two functions answer
for a predicate and for its negation and call each other at every `not`, but both of
them take the connectives the same way round: under a `not`, one member of an `all`
that holds in production is taken for the whole `all` holding there.
-/

namespace TautShape.Scripts

open TautShape.Lib

/-- A predicate as `parse_pred` builds it, over the texts of its atoms. -/
abbrev Cfg := Formula (List Char)

/-! ## The guard -/

def isTestAtom (testFeatures : List (List Char)) (arg : List Char) : Bool :=
  arg == "test".toList ||
    ("feature=".toList.isPrefixOf arg && testFeatures.contains (arg.drop 8))

mutual

def impliesTest (testFeatures : List (List Char)) : Cfg → Bool
  | .atom arg => isTestAtom testFeatures arg
  | .all args => anyImpliesTest testFeatures args
  | .any args => !args.isEmpty && allImplyTest testFeatures args
  | .not [p] => impliesNotTest testFeatures p
  | .not _ => false

def impliesNotTest (testFeatures : List (List Char)) : Cfg → Bool
  | .atom _ => false
  | .all args => anyImpliesNotTest testFeatures args
  | .any args => !args.isEmpty && allImplyNotTest testFeatures args
  | .not [p] => impliesTest testFeatures p
  | .not _ => false

def anyImpliesTest (testFeatures : List (List Char)) : List Cfg → Bool
  | [] => false
  | p :: rest => impliesTest testFeatures p || anyImpliesTest testFeatures rest

def allImplyTest (testFeatures : List (List Char)) : List Cfg → Bool
  | [] => true
  | p :: rest => impliesTest testFeatures p && allImplyTest testFeatures rest

def anyImpliesNotTest (testFeatures : List (List Char)) : List Cfg → Bool
  | [] => false
  | p :: rest => impliesNotTest testFeatures p || anyImpliesNotTest testFeatures rest

def allImplyNotTest (testFeatures : List (List Char)) : List Cfg → Bool
  | [] => true
  | p :: rest => impliesNotTest testFeatures p && allImplyNotTest testFeatures rest

end

/-- The code whose predicates the guard looks at: what a `cfg` attribute stands on, the
block of a `cfg_if!` branch after the branches `prior`, and its last `else` block. -/
inductive Guarded where
  | item (pred : Cfg)
  | branch (prior : List Cfg) (pred : Cfg)
  | otherwise (prior : List Cfg)

def Guarded.condition : Guarded → Cfg
  | .item pred => pred
  | .branch prior pred => .all (prior.map (fun p => .not [p]) ++ [pred])
  | .otherwise prior => .all (prior.map fun p => .not [p])

def Guarded.exempted (testFeatures : List (List Char)) (g : Guarded) : Bool :=
  impliesTest testFeatures g.condition

/-- Both functions in one: `false` asks whether a predicate fails in production, `true`
whether it holds there. -/
def implies (testFeatures : List (List Char)) (b : Bool) (p : Cfg) : Bool :=
  if b then impliesNotTest testFeatures p else impliesTest testFeatures p

@[simp] theorem anyImpliesTest_eq (testFeatures : List (List Char)) (args : List Cfg) :
    anyImpliesTest testFeatures args = args.any (impliesTest testFeatures) := by
  induction args with
  | nil => rfl
  | cons p rest ih => rw [anyImpliesTest, ih, List.any_cons]

@[simp] theorem allImplyTest_eq (testFeatures : List (List Char)) (args : List Cfg) :
    allImplyTest testFeatures args = args.all (impliesTest testFeatures) := by
  induction args with
  | nil => rfl
  | cons p rest ih => rw [allImplyTest, ih, List.all_cons]

@[simp] theorem anyImpliesNotTest_eq (testFeatures : List (List Char)) (args : List Cfg) :
    anyImpliesNotTest testFeatures args = args.any (impliesNotTest testFeatures) := by
  induction args with
  | nil => rfl
  | cons p rest ih => rw [anyImpliesNotTest, ih, List.any_cons]

@[simp] theorem allImplyNotTest_eq (testFeatures : List (List Char)) (args : List Cfg) :
    allImplyNotTest testFeatures args = args.all (impliesNotTest testFeatures) := by
  induction args with
  | nil => rfl
  | cons p rest ih => rw [allImplyNotTest, ih, List.all_cons]

theorem implies_all (testFeatures : List (List Char)) (b : Bool) (args : List Cfg) :
    implies testFeatures b (.all args) = args.any (implies testFeatures b) := by
  cases b with
  | true => exact anyImpliesNotTest_eq testFeatures args
  | false => exact anyImpliesTest_eq testFeatures args

theorem implies_any (testFeatures : List (List Char)) (b : Bool) (args : List Cfg) :
    implies testFeatures b (.any args) =
      (!args.isEmpty && args.all (implies testFeatures b)) := by
  cases b with
  | true =>
      show impliesNotTest testFeatures (.any args) = _
      rw [impliesNotTest, allImplyNotTest_eq]
      rfl
  | false =>
      show impliesTest testFeatures (.any args) = _
      rw [impliesTest, allImplyTest_eq]
      rfl

theorem implies_not (testFeatures : List (List Char)) (b : Bool) (p : Cfg) :
    implies testFeatures b (.not [p]) = implies testFeatures (!b) p := by
  cases b <;> rfl

/-! ## Production builds -/

abbrev Configuration := List Char → Bool

def Production (testFeatures : List (List Char)) (c : Configuration) : Prop :=
  c "test".toList = false ∧ ∀ f ∈ testFeatures, c ("feature=".toList ++ f) = false

/-- Whether the compiler keeps the code: of a `cfg_if!` it takes the first branch whose
predicate holds. -/
def Guarded.compiled (c : Configuration) : Guarded → Bool
  | .item pred => pred.holds c
  | .branch prior pred => !(prior.any fun p => p.holds c) && pred.holds c
  | .otherwise prior => !(prior.any fun p => p.holds c)

theorem Guarded.holds_condition (c : Configuration) (g : Guarded) :
    g.condition.holds c = g.compiled c := by
  have hnone : ∀ prior : List Cfg,
      (prior.map fun p => Formula.not [p]).all (Formula.holds c) =
        !(prior.any fun p => p.holds c) := by
    intro prior
    induction prior with
    | nil => rfl
    | cons p prior ih =>
        rw [List.map_cons, List.all_cons, ih, List.any_cons, Bool.not_or, Formula.holds]
  cases g with
  | item pred => rfl
  | branch prior pred =>
      rw [condition, Formula.holds, Formula.allHold_eq, List.all_append, hnone, compiled]
      simp
  | otherwise prior => rw [condition, Formula.holds, Formula.allHold_eq, hnone, compiled]

theorem holds_isTestAtom {testFeatures : List (List Char)} {c : Configuration}
    (hc : Production testFeatures c) (arg : List Char)
    (htest : isTestAtom testFeatures arg = true) : c arg = false := by
  rw [isTestAtom, Bool.or_eq_true, beq_iff_eq, Bool.and_eq_true, List.contains_iff_mem,
    List.isPrefixOf_iff_prefix] at htest
  rcases htest with rfl | ⟨⟨f, rfl⟩, hmem⟩
  · exact hc.1
  · exact hc.2 f hmem

/-! ## Where the guard slips -/

mutual

/-- Whether the guard gives a predicate the value `b` by way of an `all` that it takes to
hold on account of some of its members, though not all of them are settled. -/
def slips (off : List Char → Bool) (b : Bool) : Cfg → Bool
  | .atom _ => false
  | .all args =>
      if b then anyTaken off b args && !(args.all fun p => p.settled off b)
      else anySlips off b args
  | .any args => allTaken off b args && anySlips off b args
  | .not [p] => slips off (!b) p
  | .not _ => false

def anySlips (off : List Char → Bool) (b : Bool) : List Cfg → Bool
  | [] => false
  | p :: rest => slips off b p || anySlips off b rest

def anyTaken (off : List Char → Bool) (b : Bool) : List Cfg → Bool
  | [] => false
  | p :: rest => p.settled off b || slips off b p || anyTaken off b rest

def allTaken (off : List Char → Bool) (b : Bool) : List Cfg → Bool
  | [] => true
  | p :: rest => (p.settled off b || slips off b p) && allTaken off b rest

end

@[simp] theorem anySlips_eq (off : List Char → Bool) (b : Bool) (args : List Cfg) :
    anySlips off b args = args.any (slips off b) := by
  induction args with
  | nil => rfl
  | cons p rest ih => rw [anySlips, ih, List.any_cons]

@[simp] theorem anyTaken_eq (off : List Char → Bool) (b : Bool) (args : List Cfg) :
    anyTaken off b args = args.any fun p => p.settled off b || slips off b p := by
  induction args with
  | nil => rfl
  | cons p rest ih => rw [anyTaken, ih, List.any_cons]

@[simp] theorem allTaken_eq (off : List Char → Bool) (b : Bool) (args : List Cfg) :
    allTaken off b args = args.all fun p => p.settled off b || slips off b p := by
  induction args with
  | nil => rfl
  | cons p rest ih => rw [allTaken, ih, List.all_cons]

/-- The guard's answer is settled by the shape of the predicate or rests on a slip. -/
theorem implies_iff (testFeatures : List (List Char)) (p : Cfg) : ∀ b,
    implies testFeatures b p = true ↔
      p.settled (isTestAtom testFeatures) b = true ∨ slips (isTestAtom testFeatures) b p = true := by
  induction p using Formula.members_induction with
  | atom arg =>
      intro b
      cases b <;> simp [implies, impliesTest, impliesNotTest, Formula.settled, slips]
  | all args ih =>
      intro b
      have htaken : (args.any (implies testFeatures b) = true) ↔
          (args.any fun p => p.settled (isTestAtom testFeatures) b ||
            slips (isTestAtom testFeatures) b p) = true := by
        simp only [List.any_eq_true, Bool.or_eq_true]
        exact exists_congr fun p => and_congr_right fun hp => ih p hp b
      rw [implies_all, htaken, Formula.settled, slips]
      cases b with
      | false => simp [and_or_left, exists_or]
      | true =>
          -- with every member settled nothing slips, otherwise the guard only asks for one
          by_cases hall : args.all (fun p => p.settled (isTestAtom testFeatures) true) = true
          · cases args with
            | nil => simp
            | cons p rest =>
                have hp := List.all_eq_true.mp hall p List.mem_cons_self
                simp [hall, hp]
          · simp [hall]
  | any args ih =>
      intro b
      have htaken : (args.all (implies testFeatures b) = true) ↔
          (args.all fun p => p.settled (isTestAtom testFeatures) b ||
            slips (isTestAtom testFeatures) b p) = true := by
        simp only [List.all_eq_true, Bool.or_eq_true]
        exact forall_congr' fun p => imp_congr_right fun hp => ih p hp b
      rw [implies_any, Bool.and_eq_true, htaken, Formula.settled, slips]
      simp only [Formula.allSettled_eq, allTaken_eq, anySlips_eq, Bool.and_eq_true]
      constructor
      · rintro ⟨hsome, hall⟩
        by_cases hslip : args.any (slips (isTestAtom testFeatures) b) = true
        · exact .inr ⟨hall, hslip⟩
        · left
          refine ⟨hsome, List.all_eq_true.mpr fun p hp => ?_⟩
          have hp' := List.all_eq_true.mp hall p hp
          rw [Bool.or_eq_true] at hp'
          exact hp'.resolve_right fun h => hslip (List.any_eq_true.mpr ⟨p, hp, h⟩)
      · rintro (⟨hsome, hall⟩ | ⟨hall, hslip⟩)
        · refine ⟨hsome, List.all_eq_true.mpr fun p hp => ?_⟩
          rw [List.all_eq_true.mp hall p hp, Bool.true_or]
        · obtain ⟨p, hp, -⟩ := List.any_eq_true.mp hslip
          refine ⟨?_, hall⟩
          rw [Bool.not_eq_true', List.isEmpty_eq_false_iff]
          exact List.ne_nil_of_mem hp
  | not args ih =>
      intro b
      cases args with
      | nil => cases b <;> simp [implies, impliesTest, impliesNotTest, Formula.settled, slips]
      | cons p rest =>
          cases rest with
          | nil =>
              rw [implies_not, Formula.settled, slips]
              exact ih p (List.mem_singleton_self p) _
          | cons q rest =>
              cases b <;> simp [implies, impliesTest, impliesNotTest, Formula.settled, slips]

/-! ## The exemption -/

/-- Code that the guard exempts is compiled in no production build. -/
def Sound (testFeatures : List (List Char)) (g : Guarded) : Prop :=
  g.exempted testFeatures = true → ∀ c, Production testFeatures c → g.compiled c = false

/-- The guard takes the code for test-only by way of a slip, and the test atoms being
false does not decide its predicate. -/
def Guarded.misread (testFeatures : List (List Char)) (g : Guarded) : Bool :=
  slips (isTestAtom testFeatures) false g.condition &&
    !g.condition.known (isTestAtom testFeatures) false

theorem Guarded.exempted_iff (testFeatures : List (List Char)) (g : Guarded) :
    g.exempted testFeatures = true ↔
      g.condition.settled (isTestAtom testFeatures) false = true ∨
        slips (isTestAtom testFeatures) false g.condition = true :=
  implies_iff testFeatures g.condition false

theorem sound_of_not_misread {testFeatures : List (List Char)} {g : Guarded}
    (hread : g.misread testFeatures = false) : Sound testFeatures g := by
  intro hexempted c hc
  have hknown : g.condition.known (isTestAtom testFeatures) false = true := by
    rcases (g.exempted_iff testFeatures).mp hexempted with hsettled | hslip
    · exact Formula.known_of_settled g.condition false hsettled
    · rw [Guarded.misread, hslip, Bool.true_and, Bool.not_eq_false'] at hread
      exact hread
  rw [← g.holds_condition]
  exact Formula.holds_of_known (holds_isTestAtom hc) g.condition false hknown

/-- A misread predicate that names no other atom twice holds in some production build. -/
theorem not_sound_of_misread {testFeatures : List (List Char)} {g : Guarded}
    (honce : g.condition.ReadOnce (isTestAtom testFeatures))
    (hread : g.misread testFeatures = true) : ¬ Sound testFeatures g := by
  intro hsound
  rw [Guarded.misread, Bool.and_eq_true, Bool.not_eq_true'] at hread
  obtain ⟨c, hoff, hholds⟩ := Formula.exists_holds_of_not_known g.condition false honce hread.2
  have hc : Production testFeatures c :=
    ⟨hoff _ (by simp [isTestAtom]), fun f hf => hoff _ (by simp [isTestAtom, hf])⟩
  have hcompiled := hsound ((g.exempted_iff testFeatures).mpr (.inr hread.1)) c hc
  rw [← g.holds_condition, hholds] at hcompiled
  exact Bool.noConfusion hcompiled

/-- **The exemption is sound where the guard does not misread the predicate**, and, for
predicates that name every atom but the test atoms once, only there.  Whether a misread
predicate that repeats its atoms can hold is a question of satisfiability. -/
theorem exemption_sound_iff (testFeatures : List (List Char)) (g : Guarded) :
    (g.misread testFeatures = false → Sound testFeatures g) ∧
      (g.condition.ReadOnce (isTestAtom testFeatures) →
        (Sound testFeatures g ↔ g.misread testFeatures = false)) := by
  refine ⟨sound_of_not_misread, fun honce => ⟨fun hsound => ?_, sound_of_not_misread⟩⟩
  by_contra hread
  rw [Bool.not_eq_false] at hread
  exact not_sound_of_misread honce hread hsound

/-- The guard reads `all(test, unix)` rightly and `not(all(not(test), unix))` wrongly. -/
theorem exemption_sound_iff_unix :
    Sound [] (.item (.all [.atom "test".toList, .atom "unix".toList])) ∧
      ¬ Sound [] (.item (.not [.all [.not [.atom "test".toList], .atom "unix".toList]])) := by
  refine ⟨(exemption_sound_iff [] _).1 (by decide), fun hsound => ?_⟩
  have hread := ((exemption_sound_iff [] _).2 (by decide)).mp hsound
  revert hread
  decide

/-- Over `not(all(not(test), f))` the guard is right exactly if every production build has
`f`, so no condition on the tree short of deciding validity is exact for all predicates. -/
theorem sound_negated_all_iff (testFeatures : List (List Char)) (f : Cfg) :
    Sound testFeatures (.item (.not [.all [.not [.atom "test".toList], f]])) ↔
      ∀ c, Production testFeatures c → f.holds c = true := by
  have hexempted : Guarded.exempted testFeatures
      (.item (.not [.all [.not [.atom "test".toList], f]])) = true := by
    simp [Guarded.exempted, Guarded.condition, impliesTest, impliesNotTest, isTestAtom]
  have hcompiled : ∀ c, Production testFeatures c →
      Guarded.compiled c (.item (.not [.all [.not [.atom "test".toList], f]])) = !f.holds c := by
    intro c hc
    simp only [Guarded.compiled, Formula.holds, Formula.allHold, hc.1, Bool.not_false,
      Bool.true_and, Bool.and_true]
  constructor
  · intro hsound c hc
    have hoff := hsound hexempted c hc
    rw [hcompiled c hc, Bool.not_eq_false'] at hoff
    exact hoff
  · intro hvalid _ c hc
    rw [hcompiled c hc, hvalid c hc, Bool.not_true]

/-- The `else` block of a `cfg_if!` whose one branch is for `all(not(test), unix)`. -/
def unixElse : Guarded :=
  .otherwise [.all [.not [.atom "test".toList], .atom "unix".toList]]

/-- The block is exempted, and a production build that is not for unix compiles it. -/
theorem negated_all_exempted :
    unixElse.exempted [] = true ∧ Production [] (fun _ => false) ∧
      unixElse.compiled (fun _ => false) = true ∧
      ¬ ∀ testFeatures g, Sound testFeatures g := by
  have hexempted : unixElse.exempted [] = true := by decide
  have hproduction : Production [] (fun _ => false) := ⟨rfl, by simp⟩
  have hcompiled : unixElse.compiled (fun _ => false) = true := by decide
  refine ⟨hexempted, hproduction, hcompiled, fun hsound => ?_⟩
  have hoff := hsound [] unixElse hexempted _ hproduction
  exact Bool.false_ne_true (hoff.symm.trans hcompiled)

end TautShape.Scripts
