import TautShape.Lib.OrderedMap
/-!
# Fields listed by their keys

An ordered map that has to be a plain list: the bindings in ascending order.  A binding
goes in between the smaller keys and the larger ones, in the place of the one with its key
if there is one.
-/

namespace TautShape.Lib

variable {κ ν : Type} [Ord κ]

structure Lists (fields listed : List (κ × ν)) : Prop where
  ascending : Ascending listed
  perm : listed.Perm fields

theorem Lists.nil : Lists ([] : List (κ × ν)) [] := ⟨List.Pairwise.nil, List.Perm.refl _⟩

theorem takeWhile_eq_filter {α : Type} {r : α → α → Prop} {t : α → Bool} {l : List α}
    (hl : l.Pairwise r) (ht : ∀ a b, r a b → t b = true → t a = true) :
    l.takeWhile t = l.filter t ∧ l.dropWhile t = l.filter fun a => !t a := by
  induction l with
  | nil => exact ⟨rfl, rfl⟩
  | cons a l ih =>
      rw [List.pairwise_cons] at hl
      obtain ⟨htake, hdrop⟩ := ih hl.2
      by_cases ha : t a = true
      · simp [ha, htake, hdrop]
      · have hnone : ∀ b ∈ l, t b = false := by
          intro b hb
          by_contra hne
          exact ha (ht a b (hl.1 b hb) (by simpa using hne))
        have hfilter : l.filter t = [] := by simpa using hnone
        have hall : (l.filter fun a => !t a) = l := by simpa using hnone
        simp [ha, hfilter, hall]

variable [Std.TransOrd κ]

theorem Lists.eq {fields listed other : List (κ × ν)} (h : Lists fields listed)
    (hother : Lists fields other) : listed = other := by
  apply List.Perm.eq_of_pairwise _ h.ascending hother.ascending (h.perm.trans hother.perm.symm)
  intro a b _ _ hlt hgt
  have hswap : compare b.1 a.1 = (compare a.1 b.1).swap := Std.OrientedCmp.eq_swap
  rw [hgt, hlt] at hswap
  exact absurd hswap (by simp)

/-! ## Setting a field -/

/-- `insert`, which replaces the value of a key that is there. -/
def setField (fields : List (κ × ν)) (key : κ) (value : ν) : List (κ × ν) :=
  fields.takeWhile (fun p => (compare p.1 key).isLT) ++ (key, value) ::
    fields.dropWhile fun p => (compare p.1 key).isLE

theorem setField_eq {fields : List (κ × ν)} (h : Ascending fields) (key : κ) (value : ν) :
    setField fields key value = fields.filter (fun p => (compare p.1 key).isLT) ++ (key, value) ::
      fields.filter fun p => !(compare p.1 key).isLE := by
  have hlt : ∀ a b : κ × ν, compare a.1 b.1 = .lt → (compare b.1 key).isLT = true →
      (compare a.1 key).isLT = true := by
    intro a b hab hb
    rw [Ordering.isLT_iff_eq_lt] at hb ⊢
    exact Std.TransCmp.lt_trans hab hb
  have hle : ∀ a b : κ × ν, compare a.1 b.1 = .lt → (compare b.1 key).isLE = true →
      (compare a.1 key).isLE = true := by
    intro a b hab hb
    have hboth : compare a.1 key = .lt := Std.TransCmp.lt_of_lt_of_isLE hab hb
    rw [hboth]
    rfl
  rw [setField, (takeWhile_eq_filter h hlt).1, (takeWhile_eq_filter h hle).2]

theorem Ascending.setField {fields : List (κ × ν)} (h : Ascending fields) (key : κ) (value : ν) :
    Ascending (setField fields key value) := by
  have hsmaller : ∀ p ∈ fields.filter fun p => (compare p.1 key).isLT, compare p.1 key = .lt := by
    intro p hp
    rw [List.mem_filter, Ordering.isLT_iff_eq_lt] at hp
    exact hp.2
  have hlarger : ∀ p ∈ fields.filter fun p => !(compare p.1 key).isLE, compare key p.1 = .lt := by
    intro p hp
    rw [List.mem_filter, Bool.not_eq_true'] at hp
    have hswap : compare key p.1 = (compare p.1 key).swap := Std.OrientedCmp.eq_swap
    rw [hswap]
    cases hcmp : compare p.1 key with
    | gt => rfl
    | lt =>
        rw [hcmp] at hp
        exact absurd hp.2 (by decide)
    | eq =>
        rw [hcmp] at hp
        exact absurd hp.2 (by decide)
  rw [setField_eq h]
  apply List.pairwise_append.mpr
  refine ⟨h.filter _, List.pairwise_cons.mpr ⟨hlarger, h.filter _⟩, ?_⟩
  intro p hp q hq
  rcases List.mem_cons.mp hq with rfl | hq
  · exact hsmaller p hp
  · exact Std.TransCmp.lt_trans (hsmaller p hp) (hlarger q hq)

/-! ## Inserting a field -/

variable [Std.LawfulEqOrd κ]

theorem compare_eq_lt_of_not {a b : κ} (hlt : compare a b ≠ .lt) (hne : a ≠ b) :
    compare b a = .lt := by
  have hswap : compare b a = (compare a b).swap := Std.OrientedCmp.eq_swap
  rw [hswap]
  cases h : compare a b with
  | lt => exact absurd h hlt
  | eq => exact absurd (Std.LawfulEqCmp.eq_of_compare h) hne
  | gt => rfl

theorem Lists.insert {fields listed : List (κ × ν)} (h : Lists fields listed) {key : κ}
    (hkey : ∀ p ∈ listed, p.1 ≠ key) (value : ν) :
    Lists (fields ++ [(key, value)])
      (listed.takeWhile (fun p => (compare p.1 key).isLT) ++ (key, value) ::
        listed.dropWhile fun p => (compare p.1 key).isLT) := by
  have hdown : ∀ a b : κ × ν, compare a.1 b.1 = .lt → (compare b.1 key).isLT = true →
      (compare a.1 key).isLT = true := by
    intro a b hab hb
    rw [Ordering.isLT_iff_eq_lt] at hb ⊢
    exact Std.TransCmp.lt_trans hab hb
  obtain ⟨htake, hdrop⟩ := takeWhile_eq_filter h.ascending hdown
  rw [htake, hdrop]
  have hsmaller : ∀ p ∈ listed.filter fun p => (compare p.1 key).isLT, compare p.1 key = .lt := by
    intro p hp
    rw [List.mem_filter, Ordering.isLT_iff_eq_lt] at hp
    exact hp.2
  have hlarger : ∀ p ∈ listed.filter fun p => !(compare p.1 key).isLT, compare key p.1 = .lt := by
    intro p hp
    rw [List.mem_filter, Bool.not_eq_true', Bool.eq_false_iff, Ne, Ordering.isLT_iff_eq_lt] at hp
    exact compare_eq_lt_of_not hp.2 (hkey p hp.1)
  constructor
  · apply List.pairwise_append.mpr
    refine ⟨h.ascending.filter _, List.pairwise_cons.mpr ⟨hlarger, h.ascending.filter _⟩, ?_⟩
    intro p hp q hq
    rw [List.mem_cons] at hq
    rcases hq with rfl | hq
    · exact hsmaller p hp
    · exact Std.TransCmp.lt_trans (hsmaller p hp) (hlarger q hq)
  · calc
      List.Perm _ ((key, value) :: (listed.filter (fun p => (compare p.1 key).isLT) ++
          listed.filter fun p => !(compare p.1 key).isLT)) := List.perm_middle
      List.Perm _ ((key, value) :: listed) := (List.filter_append_perm _ _).cons _
      List.Perm _ ((key, value) :: fields) := h.perm.cons _
      List.Perm _ (fields ++ [(key, value)]) := (List.perm_append_singleton _ _).symm

/-! ## Looking a field up -/

theorem lookup_filter_key [DecidableEq κ] (l : List (κ × ν)) (keep : κ → Bool) (k : κ) :
    (l.filter fun p => keep p.1).lookup k = if keep k then l.lookup k else none := by
  induction l with
  | nil => simp
  | cons p l ih =>
      cases p with
      | mk a v =>
          by_cases hk : k = a
          · subst hk
            cases hkeep : keep k with
            | true => simp [hkeep]
            | false =>
                rw [hkeep] at ih
                simpa [hkeep] using ih
          · have hother : (k == a) = false := beq_false_of_ne hk
            cases hkeep : keep a with
            | true => simp [hkeep, List.lookup_cons, hother, ih]
            | false => simp [hkeep, List.lookup_cons, hother, ih]

theorem lookup_setField [DecidableEq κ] {fields : List (κ × ν)} (h : Ascending fields)
    (key : κ) (value : ν) (k : κ) :
    (setField fields key value).lookup k = if k = key then some value else fields.lookup k := by
  rw [setField_eq h, List.lookup_append,
    lookup_filter_key fields (fun a => (compare a key).isLT), List.lookup_cons,
    lookup_filter_key fields (fun a => !(compare a key).isLE)]
  by_cases hk : k = key
  · subst hk
    simp [Std.ReflCmp.compare_self]
  · have hother : (k == key) = false := beq_false_of_ne hk
    cases hcmp : compare k key with
    | lt => simp [hk, hother]
    | eq => exact absurd (Std.LawfulEqCmp.eq_of_compare hcmp) hk
    | gt => simp [hk, hother]

end TautShape.Lib
