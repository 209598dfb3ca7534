import TautShape.Lib.Fields
/-!
# Timetables

Entries that fall due at a count, each with its items.  Woven into a sequence of events, the
items of an entry stand behind as many events as its count calls for.  A stable sort lists
the entries in the order in which they fall due.
-/

namespace TautShape.Lib

section timetable

variable {ι α : Type} (count : ι → Nat) (items : ι → List α) (l : List ι)

/-- The items due at a count, in the order in which the entries are given. -/
def itemsAt (k : Nat) : List α := (l.filter fun a => count a = k).flatMap items

def lastCount : Nat := l.foldr (fun a n => max (count a) n) 0

def itemsFrom (k : Nat) : List α :=
  (List.range' k (lastCount count l + 1 - k)).flatMap (itemsAt count items l)

/-- From a count on, each event behind the items due at its count, and what is never due at
the end. -/
def weave (k : Nat) : List α → List α
  | [] => itemsFrom count items l k
  | event :: rest => itemsAt count items l k ++ event :: weave (k + 1) rest

/-! ## Counts -/

theorem le_lastCount {a : ι} (ha : a ∈ l) : count a ≤ lastCount count l := by
  induction l with
  | nil => simp at ha
  | cons b l ih =>
      unfold lastCount
      rw [List.foldr_cons]
      rcases List.mem_cons.mp ha with rfl | ha
      · exact Nat.le_max_left _ _
      · exact Nat.le_trans (ih ha) (Nat.le_max_right _ _)

theorem lastCount_lt {bound : Nat} (hpos : 0 < bound) (h : ∀ a ∈ l, count a < bound) :
    lastCount count l < bound := by
  induction l with
  | nil => exact hpos
  | cons b l ih =>
      rw [List.forall_mem_cons] at h
      exact Nat.max_lt.mpr ⟨h.1, ih h.2⟩

theorem itemsAt_of_last_lt {k : Nat} (h : lastCount count l < k) :
    itemsAt count items l k = [] := by
  have hfilter : (l.filter fun a => count a = k) = [] := by
    rw [List.filter_eq_nil_iff]
    intro a ha hk
    have hle := le_lastCount count l ha
    rw [decide_eq_true_eq] at hk
    omega
  rw [itemsAt, hfilter, List.flatMap_nil]

theorem itemsFrom_of_last_lt {k : Nat} (h : lastCount count l < k) :
    itemsFrom count items l k = [] := by
  have hnone : lastCount count l + 1 - k = 0 := by omega
  rw [itemsFrom, hnone, List.range'_zero, List.flatMap_nil]

theorem itemsFrom_succ (k : Nat) :
    itemsFrom count items l k = itemsAt count items l k ++ itemsFrom count items l (k + 1) := by
  by_cases hk : lastCount count l < k
  · rw [itemsFrom_of_last_lt count items l hk, itemsAt_of_last_lt count items l hk,
      itemsFrom_of_last_lt count items l (Nat.lt_succ_of_lt hk), List.append_nil]
  · have hlength : lastCount count l + 1 - k = (lastCount count l + 1 - (k + 1)) + 1 := by omega
    rw [itemsFrom, hlength, List.range'_succ, List.flatMap_cons]
    rfl

/-! ## The stable sort -/

def sortedByCount : List ι := l.mergeSort fun a b => count a ≤ count b

theorem count_le_trans (a b c : ι) (hab : decide (count a ≤ count b) = true)
    (hbc : decide (count b ≤ count c) = true) : decide (count a ≤ count c) = true := by
  rw [decide_eq_true_eq] at hab hbc ⊢
  omega

theorem count_le_total (a b : ι) :
    (decide (count a ≤ count b) || decide (count b ≤ count a)) = true := by
  rw [Bool.or_eq_true, decide_eq_true_eq, decide_eq_true_eq]
  omega

theorem sorted_sortedByCount : (sortedByCount count l).Pairwise fun a b => count a ≤ count b := by
  have hsorted := List.pairwise_mergeSort (count_le_trans count) (count_le_total count) l
  exact hsorted.imp fun h => by simpa using h

/-- Entries of one count stay in the order in which they are given. -/
theorem filter_sortedByCount (k : Nat) :
    (sortedByCount count l).filter (fun a => count a = k) = l.filter fun a => count a = k := by
  have hpairwise : (l.filter fun a => count a = k).Pairwise
      fun a b => decide (count a ≤ count b) = true := by
    apply List.pairwise_of_forall_mem_list
    intro a ha b hb
    have hka := of_decide_eq_true (List.mem_filter.mp ha).2
    have hkb := of_decide_eq_true (List.mem_filter.mp hb).2
    rw [decide_eq_true_eq]
    omega
  have hsublist := List.sublist_mergeSort (count_le_trans count) (count_le_total count) hpairwise
    List.filter_sublist
  have hkept := hsublist.filter fun a => decide (count a = k)
  rw [List.filter_filter] at hkept
  simp only [Bool.and_self] at hkept
  have hperm := (List.mergeSort_perm l fun a b => decide (count a ≤ count b)).filter
    fun a => decide (count a = k)
  exact (hkept.eq_of_length hperm.length_eq.symm).symm

section cut

variable (k : Nat)

theorem takeWhile_eq_filter_count :
    ((sortedByCount count l).filter fun a => k ≤ count a).takeWhile (fun a => count a ≤ k) =
        ((sortedByCount count l).filter fun a => k ≤ count a).filter (fun a => count a ≤ k) ∧
      ((sortedByCount count l).filter fun a => k ≤ count a).dropWhile (fun a => count a ≤ k) =
        ((sortedByCount count l).filter fun a => k ≤ count a).filter fun a => !(count a ≤ k) := by
  apply takeWhile_eq_filter ((sorted_sortedByCount count l).filter fun a => k ≤ count a)
  intro a b hab hb
  rw [decide_eq_true_eq] at hb ⊢
  omega

theorem takeWhile_sortedByCount :
    ((sortedByCount count l).filter fun a => k ≤ count a).takeWhile (fun a => count a ≤ k) =
      l.filter fun a => count a = k := by
  rw [(takeWhile_eq_filter_count count l k).1, List.filter_filter, ← filter_sortedByCount]
  apply List.filter_congr
  intro a _
  rw [Bool.eq_iff_iff]
  simp only [Bool.and_eq_true, decide_eq_true_eq]
  omega

theorem dropWhile_sortedByCount :
    ((sortedByCount count l).filter fun a => k ≤ count a).dropWhile (fun a => count a ≤ k) =
      (sortedByCount count l).filter fun a => k < count a := by
  rw [(takeWhile_eq_filter_count count l k).2, List.filter_filter]
  apply List.filter_congr
  intro a _
  rw [Bool.eq_iff_iff]
  simp only [Bool.and_eq_true, Bool.not_eq_true', decide_eq_false_iff_not, decide_eq_true_eq]
  omega

theorem filter_le_sortedByCount :
    (sortedByCount count l).filter (fun a => k ≤ count a) =
      l.filter (fun a => count a = k) ++ (sortedByCount count l).filter fun a => k < count a := by
  rw [← takeWhile_sortedByCount, ← dropWhile_sortedByCount, List.takeWhile_append_dropWhile]

end cut

theorem filter_eq_nil_of_last_lt {k : Nat} (h : lastCount count l < k) :
    ((sortedByCount count l).filter fun a => k ≤ count a) = [] := by
  rw [List.filter_eq_nil_iff]
  intro a ha hle
  have hmem : a ∈ l := (List.mergeSort_perm l _).mem_iff.mp ha
  have hlast := le_lastCount count l hmem
  rw [decide_eq_true_eq] at hle
  omega

theorem flatMap_sortedByCount (k : Nat) :
    ((sortedByCount count l).filter fun a => k ≤ count a).flatMap items =
      itemsFrom count items l k := by
  generalize hleft : lastCount count l + 1 - k = left
  induction left generalizing k with
  | zero =>
      have hk : lastCount count l < k := by omega
      rw [filter_eq_nil_of_last_lt count l hk, List.flatMap_nil,
        itemsFrom_of_last_lt count items l hk]
  | succ left ih =>
      calc
        _ = itemsAt count items l k ++
            ((sortedByCount count l).filter fun a => k < count a).flatMap items := by
          rw [filter_le_sortedByCount, List.flatMap_append]
          rfl
        _ = itemsAt count items l k ++ itemsFrom count items l (k + 1) := by
          rw [← ih (k + 1) (by omega)]
          rfl
        _ = itemsFrom count items l k := (itemsFrom_succ count items l k).symm

/-! ## Nothing is lost, nothing comes twice -/

theorem itemsFrom_zero_perm : (itemsFrom count items l 0).Perm (l.flatMap items) := by
  have hall : ((sortedByCount count l).filter fun a => 0 ≤ count a) = sortedByCount count l := by
    simp
  rw [← flatMap_sortedByCount, hall]
  exact (List.mergeSort_perm l _).flatMap_right items

theorem weave_perm_itemsFrom (k : Nat) (events : List α) :
    (weave count items l k events).Perm (events ++ itemsFrom count items l k) := by
  induction events generalizing k with
  | nil => exact List.Perm.refl _
  | cons event rest ih =>
      have hrest := (ih (k + 1)).cons event
      calc
        (itemsAt count items l k ++ event :: weave count items l (k + 1) rest).Perm
            (itemsAt count items l k ++ event :: (rest ++ itemsFrom count items l (k + 1))) :=
          hrest.append_left _
        List.Perm _ (event :: rest ++ (itemsAt count items l k ++
            itemsFrom count items l (k + 1))) := by
          have hswap := List.perm_append_comm_assoc (itemsAt count items l k) (event :: rest)
            (itemsFrom count items l (k + 1))
          simpa using hswap
        _ = _ := by rw [← itemsFrom_succ]

/-- The events and the items of all entries, each once. -/
theorem weave_perm (events : List α) :
    (weave count items l 0 events).Perm (events ++ l.flatMap items) :=
  (weave_perm_itemsFrom count items l 0 events).trans
    ((itemsFrom_zero_perm count items l).append_left events)

end timetable

end TautShape.Lib
