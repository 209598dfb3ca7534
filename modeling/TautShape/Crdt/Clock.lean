import TautShape.Crdt.Types
/-!
# Clocks

A clock travels as a list of entries and lives in the engine as a map.
`clockMap` accepts exactly the ascending lists of positive entries, and on those
it is inverse to `clockValue`.
-/

namespace TautShape.Crdt

open TautShape.Lib

abbrev ClockMap : Type := BTreeMap String Int

/-- The loop of `clock_map`: `previous` is the origin of the last entry, `result`
what has been inserted so far. -/
def clockMapLoop : List CrdtClockEntry → Option String → ClockMap → Option ClockMap
  | [], _, result => some result
  | entry :: rest, previous, result =>
      if entry.origin.isEmpty || decide (entry.seq ≤ 0) ||
          previous.any (fun origin => decide (entry.origin ≤ origin)) then
        none
      else
        clockMapLoop rest (some entry.origin) (result.insert entry.origin entry.seq)

def clockMap (clock : CrdtClock) : Option ClockMap :=
  clockMapLoop clock.entries none ∅

def clockValue (clock : ClockMap) : CrdtClock where
  entries := (clock.toList.filter fun p => decide (0 < p.2)).map fun p => ⟨p.1, p.2⟩

def key (op : CrdtOp) : OpKey := ⟨op.origin, op.seq⟩

/-- What tells two operations of one key apart, ordered by dependencies and then
by payload. -/
structure Variant where
  deps : List OpKey
  payload : Bytes
deriving DecidableEq, Repr

instance : Ord Variant := ⟨compareLex (compareOn Variant.deps) (compareOn Variant.payload)⟩

instance : Std.TransOrd Variant :=
  inferInstanceAs (Std.TransCmp (compareLex (compareOn Variant.deps) (compareOn Variant.payload)))

instance : Std.LawfulEqOrd Variant where
  eq_of_compare {a b} h := by
    obtain ⟨hdeps, hpayload⟩ := compareLex_eq_eq.mp h
    cases a
    cases b
    simp_all [compareOn]

/-- The source unwraps the parse with `expect`; `Crdt.Panic` shows that it is only
reached with an operation whose dependencies parse. -/
def variant (op : CrdtOp) : Variant where
  deps := ((clockMap op.deps).getD ∅).toList.map fun p => ⟨p.1, p.2⟩
  payload := op.payload

/-! ## What the loop accepts -/

/-- Positive entries with nonempty origins, in strictly ascending order. -/
structure CanonicalEntries (entries : List CrdtClockEntry) : Prop where
  ascending : entries.Pairwise fun a b => a.origin < b.origin
  positive : ∀ e ∈ entries, e.origin ≠ "" ∧ 0 < e.seq

def CanonicalMap (clock : ClockMap) : Prop :=
  ∀ o s, clock[o]? = some s → o ≠ "" ∧ 0 < s

theorem clockMapLoop_eq_some {entries : List CrdtClockEntry} {previous : Option String}
    {result m : ClockMap} (h : clockMapLoop entries previous result = some m) :
    CanonicalEntries entries ∧ (∀ e ∈ entries, ∀ o ∈ previous, o < e.origin) ∧
      m = entries.foldl (fun m e => m.insert e.origin e.seq) result := by
  induction entries generalizing previous result with
  | nil =>
      simp only [clockMapLoop, Option.some.injEq] at h
      exact ⟨⟨.nil, by simp⟩, by simp, h.symm⟩
  | cons entry rest ih =>
      rw [clockMapLoop] at h
      split at h
      · simp at h
      · rename_i hguard
        simp only [Bool.or_eq_true, decide_eq_true_eq, String.isEmpty_iff, Option.any_eq_true,
          not_or, not_exists, not_and, not_le] at hguard
        obtain ⟨⟨horigin, hseq⟩, hprevious⟩ := hguard
        obtain ⟨hcanonical, habove, hm⟩ := ih h
        refine ⟨⟨?_, ?_⟩, ?_, hm⟩
        · refine List.pairwise_cons.mpr ⟨?_, hcanonical.ascending⟩
          intro e he
          exact habove e he _ rfl
        · rintro e (_ | ⟨_, he⟩)
          · exact ⟨horigin, hseq⟩
          · exact hcanonical.positive e he
        · rintro e (_ | ⟨_, he⟩) o ho
          · exact hprevious o ho
          · exact (hprevious o ho).trans (habove e he _ rfl)

theorem clockMapLoop_isSome {entries : List CrdtClockEntry} {previous : Option String}
    (result : ClockMap) (hentries : CanonicalEntries entries)
    (habove : ∀ e ∈ entries, ∀ o ∈ previous, o < e.origin) :
    (clockMapLoop entries previous result).isSome := by
  induction entries generalizing previous result with
  | nil => rfl
  | cons entry rest ih =>
      obtain ⟨horigin, hseq⟩ := hentries.positive entry (by simp)
      have hlater := List.pairwise_cons.mp hentries.ascending
      have hprevious : previous.any (fun o => decide (entry.origin ≤ o)) = false := by
        cases previous with
        | none => rfl
        | some o => simpa using habove entry (by simp) o rfl
      rw [clockMapLoop, if_neg (by simp [horigin, hseq, hprevious])]
      refine ih _ ⟨hlater.2, fun e he => hentries.positive e (List.mem_cons_of_mem _ he)⟩ ?_
      intro e he o ho
      rw [Option.mem_some_iff] at ho
      exact ho ▸ hlater.1 e he

theorem getElem?_foldl_insert {entries : List CrdtClockEntry} {result : ClockMap}
    (hascending : entries.Pairwise fun a b => a.origin < b.origin) (o : String) (s : Int) :
    (entries.foldl (fun m e => m.insert e.origin e.seq) result)[o]? = some s ↔
      ⟨o, s⟩ ∈ entries ∨ (result[o]? = some s ∧ ∀ e ∈ entries, e.origin ≠ o) := by
  induction entries generalizing result with
  | nil => simp
  | cons entry rest ih =>
      obtain ⟨hlater, hrest⟩ := List.pairwise_cons.mp hascending
      rw [List.foldl_cons, ih hrest, getElem?_insert]
      have hhead : (⟨o, s⟩ : CrdtClockEntry) = entry ↔ entry.origin = o ∧ entry.seq = s := by
        cases entry
        simp [eq_comm]
      rw [List.mem_cons, hhead, List.forall_mem_cons]
      by_cases heq : entry.origin = o
      · -- the head binds `o`, so no later entry does
        have hnone : ∀ e ∈ rest, e.origin ≠ o := fun e he => heq ▸ (hlater e he).ne'
        have hmem : (⟨o, s⟩ : CrdtClockEntry) ∉ rest := fun h => hnone _ h rfl
        simp only [heq, hmem, if_true, Option.some.injEq, true_and, ne_eq, not_true_eq_false,
          false_and, and_false, or_false, false_or]
        exact and_iff_left hnone
      · simp only [heq, if_false, false_and, false_or, ne_eq, not_false_eq_true, true_and]

theorem clockMap_eq_some {clock : CrdtClock} {m : ClockMap} (h : clockMap clock = some m) :
    CanonicalEntries clock.entries ∧ ∀ o s, m[o]? = some s ↔ ⟨o, s⟩ ∈ clock.entries := by
  obtain ⟨hcanonical, -, rfl⟩ := clockMapLoop_eq_some h
  refine ⟨hcanonical, fun o s => ?_⟩
  rw [getElem?_foldl_insert hcanonical.ascending]
  simp

theorem clockMap_canonical {clock : CrdtClock} {m : ClockMap} (h : clockMap clock = some m) :
    CanonicalMap m := by
  obtain ⟨hcanonical, hlookup⟩ := clockMap_eq_some h
  intro o s hos
  exact hcanonical.positive _ ((hlookup o s).mp hos)

theorem clockMap_toList {clock : CrdtClock} {m : ClockMap} (h : clockMap clock = some m) :
    m.toList = clock.entries.map fun e => (e.origin, e.seq) := by
  obtain ⟨hcanonical, hlookup⟩ := clockMap_eq_some h
  refine toList_eq_of_ascending ?_ ?_
  · refine List.pairwise_map.mpr (hcanonical.ascending.imp ?_)
    intro a b hab
    exact compare_lt_iff_lt.mpr hab
  · intro o s
    rw [hlookup, List.mem_map]
    constructor
    · intro hmem
      exact ⟨_, hmem, rfl⟩
    · rintro ⟨e, he, heq⟩
      cases heq
      exact he

/-! ## The two directions are inverse -/

theorem clockValue_entries {clock : ClockMap} (h : CanonicalMap clock) :
    (clockValue clock).entries = clock.toList.map fun p => ⟨p.1, p.2⟩ := by
  have hall : clock.toList.filter (fun p => decide (0 < p.2)) = clock.toList := by
    rw [List.filter_eq_self]
    rintro ⟨o, s⟩ hmem
    exact decide_eq_true (h o s (Std.ExtTreeMap.mem_toList_iff_getElem?_eq_some.mp hmem)).2
  rw [clockValue, hall]

theorem clockMap_clockValue {clock : ClockMap} (h : CanonicalMap clock) :
    clockMap (clockValue clock) = some clock := by
  have hentries := clockValue_entries h
  have hcanonical : CanonicalEntries (clockValue clock).entries := by
    rw [hentries]
    refine ⟨List.pairwise_map.mpr ((ascending_toList clock).imp ?_), ?_⟩
    · intro a b hab
      exact compare_lt_iff_lt.mp hab
    · rintro e he
      obtain ⟨⟨o, s⟩, hmem, rfl⟩ := List.mem_map.mp he
      exact h o s (Std.ExtTreeMap.mem_toList_iff_getElem?_eq_some.mp hmem)
  have hsome : (clockMap (clockValue clock)).isSome :=
    clockMapLoop_isSome ∅ hcanonical (by simp)
  obtain ⟨m, hm⟩ := Option.isSome_iff_exists.mp hsome
  have htoList : m.toList = clock.toList := by
    rw [clockMap_toList hm, hentries, List.map_map]
    exact List.map_id _
  rw [hm, Std.ExtTreeMap.toList_inj.mp htoList]

theorem CanonicalMap.ext {a b : ClockMap} (ha : CanonicalMap a) (hb : CanonicalMap b)
    (h : ∀ o, a.getD o 0 = b.getD o 0) : a = b := by
  ext o : 1
  have ho := h o
  rw [Std.ExtTreeMap.getD_eq_getD_getElem?, Std.ExtTreeMap.getD_eq_getD_getElem?] at ho
  cases haso : a[o]? with
  | none =>
      cases hbso : b[o]? with
      | none => rfl
      | some s =>
          have hpos := (hb o s hbso).2
          simp only [haso, hbso, Option.getD_none, Option.getD_some] at ho
          omega
  | some s =>
      cases hbso : b[o]? with
      | none =>
          have hpos := (ha o s haso).2
          simp only [haso, hbso, Option.getD_none, Option.getD_some] at ho
          omega
      | some t => simpa [haso, hbso] using ho

theorem CanonicalMap.getD_nonneg {m : ClockMap} (h : CanonicalMap m) (o : String) :
    0 ≤ m.getD o 0 := by
  rw [Std.ExtTreeMap.getD_eq_getD_getElem?]
  cases hos : m[o]? with
  | none => simp
  | some s => exact (h o s hos).2.le

/-! ## Operations and their variants -/

theorem variant_deps {op : CrdtOp} {deps : ClockMap} (h : clockMap op.deps = some deps) :
    (variant op).deps = op.deps.entries.map fun e => ⟨e.origin, e.seq⟩ := by
  simp [variant, h, clockMap_toList h]

/-- Among operations whose dependencies parse, key and variant say everything. -/
theorem eq_of_key_of_variant {a b : CrdtOp} {depsA depsB : ClockMap}
    (ha : clockMap a.deps = some depsA) (hb : clockMap b.deps = some depsB)
    (hkey : key a = key b) (hvariant : variant a = variant b) : a = b := by
  have hdeps : (variant a).deps = (variant b).deps := congrArg Variant.deps hvariant
  rw [variant_deps ha, variant_deps hb] at hdeps
  have hentries : a.deps.entries = b.deps.entries := by
    refine List.map_injective_iff.mpr ?_ hdeps
    intro x y hxy
    cases x
    cases y
    simpa using hxy
  have hpayload : a.payload = b.payload := congrArg Variant.payload hvariant
  obtain ⟨originA, seqA, ⟨entriesA⟩, payloadA⟩ := a
  obtain ⟨originB, seqB, ⟨entriesB⟩, payloadB⟩ := b
  simp_all [key]

end TautShape.Crdt
