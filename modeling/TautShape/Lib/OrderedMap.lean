import Mathlib
/-!
# Ordered maps and sets

`BTreeMap` and `BTreeSet` are read as the extensional tree maps and sets of the
standard library.  The facts below are the ones about whole maps that the
engines rest on: a sorted list with the right members is the listing of a map,
and a set of keys of a map is no larger than the map.
-/

namespace TautShape.Lib

/-- An ordered map; two of them are equal when their lookups agree. -/
abbrev BTreeMap (κ ν : Type) [Ord κ] : Type := Std.ExtTreeMap κ ν compare

abbrev BTreeSet (κ : Type) [Ord κ] : Type := Std.ExtTreeSet κ compare

variable {κ ν : Type} [Ord κ]

def Ascending (l : List (κ × ν)) : Prop :=
  l.Pairwise fun a b => compare a.1 b.1 = .lt

variable [Std.TransOrd κ]

theorem Ascending.nodup {l : List (κ × ν)} (hl : Ascending l) : l.Nodup := by
  refine List.Pairwise.imp ?_ hl
  rintro a b hlt rfl
  simp [Std.ReflOrd.compare_self] at hlt

theorem ascending_toList (m : BTreeMap κ ν) : Ascending m.toList :=
  Std.ExtTreeMap.ordered_keys_toList

theorem mem_of_getElem?_eq_some {m : BTreeMap κ ν} {k : κ} {v : ν} (h : m[k]? = some v) :
    k ∈ m := by
  rw [Std.ExtTreeMap.mem_iff_isSome_getElem?, h]
  rfl

theorem exists_getElem?_of_mem {m : BTreeMap κ ν} {k : κ} (h : k ∈ m) :
    ∃ v, m[k]? = some v :=
  ⟨m[k], Std.ExtTreeMap.getElem?_eq_some_getElem h⟩

variable [Std.LawfulEqOrd κ]

theorem getElem?_insert [DecidableEq κ] (m : BTreeMap κ ν) (k a : κ) (v : ν) :
    (m.insert k v)[a]? = if k = a then some v else m[a]? := by
  simp only [Std.ExtTreeMap.getElem?_insert, Std.LawfulEqCmp.compare_eq_iff_eq]

theorem getElem?_erase [DecidableEq κ] (m : BTreeMap κ ν) (k a : κ) :
    (m.erase k)[a]? = if k = a then none else m[a]? := by
  simp only [Std.ExtTreeMap.getElem?_erase, Std.LawfulEqCmp.compare_eq_iff_eq]

theorem mem_insert_set (s : BTreeSet κ) (k a : κ) : a ∈ s.insert k ↔ k = a ∨ a ∈ s := by
  rw [Std.ExtTreeSet.mem_insert, Std.LawfulEqCmp.compare_eq_iff_eq]

/-- An ascending list with exactly the bindings of `m` is the listing of `m`. -/
theorem toList_eq_of_ascending {m : BTreeMap κ ν} {l : List (κ × ν)} (hl : Ascending l)
    (hmem : ∀ k v, m[k]? = some v ↔ (k, v) ∈ l) : m.toList = l := by
  have hperm : m.toList.Perm l := by
    rw [List.perm_ext_iff_of_nodup (ascending_toList m).nodup hl.nodup]
    rintro ⟨k, v⟩
    rw [Std.ExtTreeMap.mem_toList_iff_getElem?_eq_some, hmem]
  refine hperm.eq_of_pairwise ?_ (ascending_toList m) hl
  intro a b _ _ hab hba
  rw [Std.OrientedCmp.gt_of_lt hab] at hba
  exact absurd hba (by decide)

def keyLe (a b : κ × ν) : Bool := (compare a.1 b.1).isLE

theorem ascending_mergeSort {l : List (κ × ν)} (hl : l.Pairwise fun a b => a.1 ≠ b.1) :
    Ascending (l.mergeSort keyLe) := by
  have htrans : ∀ a b c : κ × ν, keyLe a b → keyLe b c → keyLe a c :=
    fun _ _ _ hab hbc => Std.TransCmp.isLE_trans hab hbc
  have htotal : ∀ a b : κ × ν, keyLe a b || keyLe b a := by
    intro a b
    have hswap : compare b.1 a.1 = (compare a.1 b.1).swap := Std.OrientedCmp.eq_swap
    rw [keyLe, keyLe, hswap]
    cases compare a.1 b.1 <;> rfl
  have hsorted := List.pairwise_mergeSort htrans htotal l
  have hne : (l.mergeSort keyLe).Pairwise fun a b => a.1 ≠ b.1 :=
    (List.mergeSort_perm l keyLe).symm.pairwise hl fun hab => Ne.symm hab
  refine (hsorted.and hne).imp ?_
  rintro a b ⟨hle, hne⟩
  cases hcmp : compare a.1 b.1 with
  | lt => rfl
  | eq => exact absurd (Std.LawfulEqCmp.eq_of_compare hcmp) hne
  | gt => simp [keyLe, hcmp] at hle

omit [Ord κ] [Std.TransOrd κ] [Std.LawfulEqOrd κ] in
theorem eq_toList_of_nodup {l : List κ} {o : Option κ} (hnodup : l.Nodup)
    (hmem : ∀ k, k ∈ l ↔ o = some k) : l = o.toList := by
  have hperm : l.Perm o.toList := by
    apply (List.perm_ext_iff_of_nodup hnodup _).mpr
    · intro k
      rw [hmem, Option.mem_toList]
    · cases o <;> simp
  cases o with
  | none => exact List.perm_nil.mp hperm
  | some k => exact List.perm_singleton.mp hperm

theorem toList_nodup (s : BTreeSet κ) : s.toList.Nodup := by
  refine List.Pairwise.imp ?_ (Std.ExtTreeSet.ordered_toList (t := s))
  rintro a b hlt rfl
  simp at hlt

theorem set_size_le {s t : BTreeSet κ} (hsub : ∀ k ∈ s, k ∈ t) : s.size ≤ t.size := by
  have hsubperm : s.toList.Subperm t.toList := by
    refine List.subperm_of_subset (toList_nodup s) fun k hk => ?_
    exact Std.ExtTreeSet.mem_toList.mpr (hsub k (Std.ExtTreeSet.mem_toList.mp hk))
  simpa using hsubperm.length_le

theorem set_size_lt {s t : BTreeSet κ} (hsub : ∀ k ∈ s, k ∈ t) {k : κ} (ht : k ∈ t)
    (hs : k ∉ s) : s.size < t.size := by
  have hle : (s.insert k).size ≤ t.size := by
    refine set_size_le fun a ha => ?_
    rcases (mem_insert_set s k a).mp ha with rfl | ha
    · exact ht
    · exact hsub a ha
  rw [Std.ExtTreeSet.size_insert, if_neg (by simpa using hs)] at hle
  omega

theorem toList_subperm_keys {s : BTreeSet κ} {m : BTreeMap κ ν} (hsub : ∀ k ∈ s, k ∈ m) :
    s.toList.Subperm m.keys := by
  refine List.subperm_of_subset (toList_nodup s) fun k hk => ?_
  exact Std.ExtTreeMap.mem_keys.mpr (hsub k (Std.ExtTreeSet.mem_toList.mp hk))

theorem size_le_of_subset {s : BTreeSet κ} {m : BTreeMap κ ν} (hsub : ∀ k ∈ s, k ∈ m) :
    s.size ≤ m.size := by
  simpa using (toList_subperm_keys hsub).length_le

theorem keys_nodup (m : BTreeMap κ ν) : m.keys.Nodup := by
  refine List.Pairwise.imp ?_ (Std.ExtTreeMap.ordered_keys (t := m))
  rintro a b hlt rfl
  simp at hlt

theorem size_eq_length {m : BTreeMap κ ν} {l : List κ} (hnodup : l.Nodup)
    (hmem : ∀ k, k ∈ l ↔ k ∈ m) : m.size = l.length := by
  have hperm : l.Perm m.keys := by
    rw [List.perm_ext_iff_of_nodup hnodup (keys_nodup m)]
    intro k
    rw [hmem, Std.ExtTreeMap.mem_keys]
  rw [hperm.length_eq, Std.ExtTreeMap.length_keys]

omit [Std.LawfulEqOrd κ] in
theorem isEmpty_iff_nil {m : BTreeMap κ ν} {l : List κ} (hmem : ∀ k, k ∈ l ↔ k ∈ m) :
    m.isEmpty = true ↔ l = [] := by
  rw [Std.ExtTreeMap.isEmpty_iff, Std.ExtTreeMap.eq_empty_iff_forall_not_mem,
    List.eq_nil_iff_forall_not_mem]
  exact forall_congr' fun k => not_congr (hmem k).symm

theorem length_filter_not_mem {s : BTreeSet κ} {m : BTreeMap κ ν} (hsub : ∀ k ∈ s, k ∈ m) :
    (m.toList.filter fun p => !s.contains p.1).length + s.size = m.size := by
  have hkeys : (m.keys.filter fun k => s.contains k).Perm s.toList := by
    rw [List.perm_ext_iff_of_nodup ((keys_nodup m).filter _) (toList_nodup s)]
    intro k
    simp only [List.mem_filter, Std.ExtTreeMap.mem_keys, Std.ExtTreeSet.contains_iff_mem,
      Std.ExtTreeSet.mem_toList, and_iff_right_iff_imp]
    exact hsub k
  have hinside : (m.toList.filter fun p => s.contains p.1).length = s.size := by
    have hlength := hkeys.length_eq
    rw [← Std.ExtTreeMap.map_fst_toList_eq_keys, List.filter_map, List.length_map,
      Std.ExtTreeSet.length_toList] at hlength
    exact hlength
  have hsplit := List.length_eq_length_filter_add (l := m.toList) fun p => s.contains p.1
  rw [Std.ExtTreeMap.length_toList, hinside] at hsplit
  omega

/-! ## Maps and sets from lists -/

theorem getElem?_ofList_const [DecidableEq κ] (keys : List κ) (v : ν) (a : κ) :
    (Std.ExtTreeMap.ofList (keys.map (·, v)) compare)[a]? = if a ∈ keys then some v else none := by
  rw [Std.ExtTreeMap.ofList_eq_foldl]
  induction keys using List.reverseRecOn with
  | nil => simp
  | append_singleton front k ih =>
      rw [List.map_append, List.foldl_append, List.map_singleton, List.foldl_cons, List.foldl_nil,
        getElem?_insert, ih]
      by_cases heq : k = a <;> grind

omit [Ord κ] [Std.TransOrd κ] [Std.LawfulEqOrd κ] in
theorem filterMap_eq_toList {β γ : Type} {l : List β} (hnodup : l.Nodup) {b : β} (hb : b ∈ l)
    {f : β → Option γ} (hf : ∀ b' ∈ l, b' ≠ b → f b' = none) : l.filterMap f = (f b).toList := by
  obtain ⟨front, back, rfl⟩ := List.append_of_mem hb
  have hnot := (List.nodup_middle.mp hnodup).notMem
  have hnone : ∀ b' ∈ front ++ back, f b' = none := by
    intro b' hb'
    refine hf b' ?_ fun heq => hnot (heq ▸ hb')
    rw [List.mem_append] at hb' ⊢
    exact hb'.imp_right (List.mem_cons_of_mem b)
  have hfront : front.filterMap f = [] :=
    List.filterMap_eq_nil_iff.mpr fun b' hb' => hnone b' (List.mem_append_left _ hb')
  have hback : back.filterMap f = [] :=
    List.filterMap_eq_nil_iff.mpr fun b' hb' => hnone b' (List.mem_append_right _ hb')
  rw [List.filterMap_append, hfront, List.nil_append, List.filterMap_cons, hback]
  cases f b <;> rfl

theorem filterMap_toList {β : Type} (m : BTreeMap κ ν) {f : κ × ν → Option β}
    {k : κ} (hf : ∀ p, p.1 ≠ k → f p = none) :
    m.toList.filterMap f = (m[k]?.bind fun v => f (k, v)).toList := by
  cases hentry : m[k]? with
  | none =>
      refine List.filterMap_eq_nil_iff.mpr fun p hp => hf p fun heq => ?_
      rw [Std.ExtTreeMap.mem_toList_iff_getElem?_eq_some, heq, hentry] at hp
      simp at hp
  | some v =>
      refine filterMap_eq_toList (ascending_toList m).nodup
        (Std.ExtTreeMap.mem_toList_iff_getElem?_eq_some.mpr hentry) fun p hp hne => hf p fun heq => ?_
      rw [Std.ExtTreeMap.mem_toList_iff_getElem?_eq_some, heq, hentry] at hp
      exact hne (Prod.ext heq (Option.some.inj hp).symm)

end TautShape.Lib
