import TautShape.Log.Types
/-!
# The record window

The store core of a log: a dense run of numbered records with a head and a floor.
Against the list of everything ever pushed, the window is the part above the
floor, a scan is a slice that starts at the cursor, and eviction only moves the
floor.
-/

namespace TautShape.Log

inductive Lifecycle where
  | live
  | sealed
  | closed
  | failed (error : Error)
deriving DecidableEq, Repr

structure Window where
  records : List Record
  head : Nat
  floor : Nat
  lifecycle : Lifecycle

namespace Window

def new : Window where
  records := []
  head := 0
  floor := 0
  lifecycle := .live

def push (w : Window) (payload : Bytes) : Window :=
  { w with head := w.head + 1, records := w.records ++ [⟨w.head + 1, payload⟩] }

def «seal» (w : Window) : Window :=
  match w.lifecycle with
  | .live => { w with lifecycle := .sealed }
  | _ => w

def close (w : Window) (error : Option Error) : Window :=
  match w.lifecycle with
  | .live | .sealed =>
      { w with lifecycle := match error with
          | none => .closed
          | some e => .failed e }
  | _ => w

def saturatingAdd (a b : Nat) : Nat := min (a + b) (2 ^ 64 - 1)

/-- The loop of `scan` over the candidates, with what was taken, the last sequence
number and the payload bytes so far. -/
def scanLoop (limits : Limits) : List Record → List Record → Nat → Nat → List Record × Nat
  | [], out, last, _ => (out, last)
  | record :: rest, out, last, bytes =>
      if limits.maxRecords.any fun maxr => decide (maxr.toNat ≤ out.length) then
        (out, last)
      else
        match limits.maxBytes with
        | some maxb =>
            let nextBytes := saturatingAdd bytes record.payload.length
            if !out.isEmpty && decide (maxb.toNat < nextBytes) then
              (out, last)
            else
              scanLoop limits rest (out ++ [record]) record.seq nextBytes
        | none => scanLoop limits rest (out ++ [record]) record.seq bytes

def scan (w : Window) (start : Nat) (limits : Limits) : List Record × Nat :=
  match w.records with
  | [] => ([], start)
  | front :: _ =>
      let first := if front.seq ≤ start then start - front.seq + 1 else 0
      scanLoop limits (w.records.drop first) [] start 0

def evict (w : Window) (upToSeq : Nat) : Window :=
  if upToSeq = 0 then
    w
  else
    let evictedThrough := min upToSeq w.head
    { w with
      records := w.records.dropWhile fun record => decide (record.seq ≤ upToSeq)
      floor := if w.floor < evictedThrough + 1 then evictedThrough + 1 else w.floor }

end Window

/-! ## The pushed records -/

def numbered (history : List Bytes) : List Record := history.mapIdx fun i p => ⟨i + 1, p⟩

def slice (history : List Bytes) (lo hi : Nat) : List Record :=
  ((numbered history).take hi).drop lo

@[simp] theorem length_numbered (history : List Bytes) :
    (numbered history).length = history.length := by
  simp [numbered]

theorem numbered_concat (history : List Bytes) (payload : Bytes) :
    numbered (history ++ [payload]) = numbered history ++ [⟨history.length + 1, payload⟩] := by
  simp [numbered, List.mapIdx_append]

theorem seq_of_getElem? {history : List Bytes} {i : Nat} {record : Record}
    (h : (numbered history)[i]? = some record) : record.seq = i + 1 := by
  rw [numbered, List.getElem?_mapIdx, Option.map_eq_some_iff] at h
  obtain ⟨p, -, rfl⟩ := h
  rfl

theorem length_slice (history : List Bytes) (lo hi : Nat) :
    (slice history lo hi).length = min hi history.length - lo := by
  rw [slice, List.length_drop, List.length_take, length_numbered]

theorem slice_self (history : List Bytes) (lo : Nat) : slice history lo lo = [] := by
  rw [slice, List.drop_eq_nil_iff]
  simp

theorem slice_succ {history : List Bytes} {lo hi : Nat} {record : Record} (hle : lo ≤ hi)
    (h : (numbered history)[hi]? = some record) :
    slice history lo (hi + 1) = slice history lo hi ++ [record] := by
  have hlt : hi < (numbered history).length := (List.getElem?_eq_some_iff.mp h).1
  rw [slice, slice, List.take_add_one, h, Option.toList_some, List.drop_append_of_le_length]
  rw [List.length_take]
  omega

theorem slice_append {history : List Bytes} {lo mid hi : Nat} (hlo : lo ≤ mid) (hhi : mid ≤ hi) :
    slice history lo mid ++ slice history mid hi = slice history lo hi := by
  have hmid : (numbered history).take mid = ((numbered history).take hi).take mid := by
    rw [List.take_take, Nat.min_eq_left hhi]
  rw [slice, slice, slice, hmid]
  generalize (numbered history).take hi = l
  conv_rhs => rw [← List.take_append_drop mid l, List.drop_append]
  congr 1
  by_cases hshort : l.length ≤ mid
  · rw [List.drop_eq_nil_of_le hshort, List.drop_nil]
  · have hlength : (l.take mid).length = mid := by
      rw [List.length_take]
      omega
    rw [hlength, Nat.sub_eq_zero_of_le hlo, List.drop_zero]

/-- A slice does not see what is pushed above it. -/
theorem slice_of_extends {history later : List Bytes} {lo hi : Nat} (hfront : history <+: later)
    (hhi : hi ≤ history.length) : slice later lo hi = slice history lo hi := by
  obtain ⟨rest, rfl⟩ := hfront
  rw [slice, slice, numbered, List.mapIdx_append, List.take_append_of_le_length]
  · rfl
  · simpa using hhi

/-! ## The window against the pushed records -/

namespace Window

/-- The window holds the records above its floor of everything pushed so far. -/
structure Holds (w : Window) (history : List Bytes) : Prop where
  head_eq : w.head = history.length
  floor_le : w.floor ≤ history.length + 1
  records_eq : w.records = (numbered history).drop (w.floor - 1)

theorem holds_new : new.Holds [] := ⟨rfl, Nat.zero_le _, rfl⟩

theorem Holds.push {w : Window} {history : List Bytes} (h : w.Holds history) (payload : Bytes) :
    (w.push payload).Holds (history ++ [payload]) := by
  have hfloor := h.floor_le
  constructor
  case head_eq =>
    simp [Window.push, h.head_eq]
  case floor_le =>
    simp only [Window.push, List.length_append, List.length_singleton]
    omega
  case records_eq =>
    rw [numbered_concat, List.drop_append_of_le_length]
    · simp [Window.push, h.records_eq, h.head_eq]
    · rw [length_numbered]
      simp only [Window.push]
      omega

theorem Holds.seal {w : Window} {history : List Bytes} (h : w.Holds history) :
    w.seal.Holds history := by
  unfold Window.seal
  split
  · exact { h with }
  · exact h

theorem Holds.close {w : Window} {history : List Bytes} (h : w.Holds history)
    (error : Option Error) : (w.close error).Holds history := by
  unfold Window.close
  split
  · exact { h with }
  · exact { h with }
  · exact h

/-- Dropping the records up to a number from a numbered tail moves the tail's start. -/
theorem dropWhile_numbered (history : List Bytes) (start upTo : Nat) :
    ((numbered history).drop start).dropWhile (fun record => decide (record.seq ≤ upTo)) =
      (numbered history).drop (max start upTo) := by
  induction hrest : (numbered history).drop start generalizing start with
  | nil =>
      have hlength := List.drop_eq_nil_iff.mp hrest
      rw [List.dropWhile_nil, List.drop_eq_nil_of_le (hlength.trans (le_max_left _ _))]
  | cons record rest ih =>
      have hseq : record.seq = start + 1 := by
        have hget : (numbered history)[start]? = some record := by
          rw [← Nat.add_zero start, ← List.getElem?_drop, hrest]
          rfl
        exact seq_of_getElem? hget
      have hnext : (numbered history).drop (start + 1) = rest := by
        rw [← List.drop_drop, hrest]
        rfl
      rw [List.dropWhile_cons]
      by_cases hle : record.seq ≤ upTo
      · rw [if_pos (by simpa using hle), ih (start + 1) hnext]
        congr 1
        omega
      · rw [if_neg (by simpa using hle), ← hrest]
        congr 1
        omega

theorem Holds.evict {w : Window} {history : List Bytes} (h : w.Holds history) (upToSeq : Nat) :
    (w.evict upToSeq).Holds history := by
  have hfloor := h.floor_le
  unfold Window.evict
  split
  · exact h
  · refine ⟨h.head_eq, ?_, ?_⟩
    · rw [h.head_eq]
      simp only
      split <;> omega
    · rw [h.records_eq, dropWhile_numbered, h.head_eq]
      simp only
      by_cases hbeyond : history.length ≤ upToSeq
      · -- everything goes, whether the floor moves or was past the head already
        rw [List.drop_eq_nil_of_le, List.drop_eq_nil_of_le]
        · rw [length_numbered]
          split <;> omega
        · rw [length_numbered]
          omega
      · congr 1
        split <;> omega

/-! ## Scans -/

theorem scanLoop_slice (limits : Limits) {history : List Bytes} (start : Nat) :
    ∀ {rest : List Record} (last bytes : Nat), rest = (numbered history).drop last →
      start ≤ last → last ≤ history.length →
      ∃ next, scanLoop limits rest (slice history start last) last bytes =
        (slice history start next, next) ∧ last ≤ next ∧ next ≤ history.length := by
  intro rest
  induction rest with
  | nil =>
      intro last bytes _ _ hlast
      exact ⟨last, rfl, le_rfl, hlast⟩
  | cons record rest ih =>
      intro last bytes hrest hstart hlast
      have hget : (numbered history)[last]? = some record := by
        rw [← Nat.add_zero last, ← List.getElem?_drop, ← hrest]
        rfl
      have hlt : last < history.length := by
        have hbound := (List.getElem?_eq_some_iff.mp hget).1
        rwa [length_numbered] at hbound
      have htail : rest = (numbered history).drop (last + 1) := by
        rw [← List.drop_drop, ← hrest]
        rfl
      have htake : slice history start last ++ [record] = slice history start record.seq := by
        rw [seq_of_getElem? hget, slice_succ hstart hget]
      have hseq := seq_of_getElem? hget
      have hmore : ∀ bytes', ∃ next,
          scanLoop limits rest (slice history start last ++ [record]) record.seq bytes' =
            (slice history start next, next) ∧ last ≤ next ∧ next ≤ history.length := by
        intro bytes'
        rw [htake, hseq]
        obtain ⟨next, hloop, hle, hbound⟩ := ih (last + 1) bytes' htail (by omega) hlt
        exact ⟨next, hloop, by omega, hbound⟩
      have hstop : ∃ next, (slice history start last, last) = (slice history start next, next) ∧
          last ≤ next ∧ next ≤ history.length := ⟨last, rfl, le_rfl, hlast⟩
      rw [scanLoop]
      split
      · exact hstop
      · split
        · simp only
          split
          · exact hstop
          · exact hmore _
        · exact hmore _

theorem Holds.scan_drop {w : Window} {history : List Bytes} (h : w.Holds history) {start : Nat}
    (hfloor : w.floor ≤ start + 1) (limits : Limits) :
    w.scan start limits = scanLoop limits ((numbered history).drop start) [] start 0 := by
  have hrecords := h.records_eq
  unfold Window.scan
  split
  · rename_i hnil
    rw [hnil] at hrecords
    have hlength := List.drop_eq_nil_iff.mp hrecords.symm
    rw [List.drop_eq_nil_of_le (by omega), scanLoop]
  · rename_i front rest hcons
    have hfront : front.seq = w.floor - 1 + 1 := by
      have hget : (numbered history)[w.floor - 1]? = some front := by
        rw [← Nat.add_zero (w.floor - 1), ← List.getElem?_drop, ← hrecords, hcons]
        rfl
      exact seq_of_getElem? hget
    -- the index computed from the front's number leads to the record after the cursor
    simp only
    rw [hrecords, List.drop_drop]
    congr 2
    split <;> omega

/-- A scan from a cursor that is neither expired nor ahead returns a slice. -/
theorem Holds.scan_slice {w : Window} {history : List Bytes} (h : w.Holds history) {start : Nat}
    (hfloor : w.floor ≤ start + 1) (hstart : start ≤ history.length) (limits : Limits) :
    (w.scan start limits).1 = slice history start (w.scan start limits).2 ∧
      start ≤ (w.scan start limits).2 ∧ (w.scan start limits).2 ≤ history.length := by
  rw [h.scan_drop hfloor]
  obtain ⟨next, hloop, hle, hbound⟩ :=
    scanLoop_slice limits start start 0 rfl le_rfl hstart
  rw [slice_self] at hloop
  rw [hloop]
  exact ⟨rfl, hle, hbound⟩

/-- A scan moves on exactly when there is something to return and the limits let the
first record through: a byte bound always does, a record bound of zero does not. -/
theorem Holds.scan_moves {w : Window} {history : List Bytes} (h : w.Holds history) {start : Nat}
    (hfloor : w.floor ≤ start + 1) (hstart : start < history.length) (limits : Limits) :
    start < (w.scan start limits).2 ↔ limits.maxRecords ≠ some 0 := by
  have hlength : start < (numbered history).length := by simpa using hstart
  rw [h.scan_drop hfloor, List.drop_eq_getElem_cons hlength]
  have hget : (numbered history)[start]? = some (numbered history)[start] :=
    List.getElem?_eq_getElem hlength
  have hseq := seq_of_getElem? hget
  have hmoves : ∀ bytes, start <
      (scanLoop limits ((numbered history).drop (start + 1)) ([] ++ [(numbered history)[start]])
        (numbered history)[start].seq bytes).2 := by
    intro bytes
    have hone : [] ++ [(numbered history)[start]] = slice history start (start + 1) := by
      rw [slice_succ le_rfl hget, slice_self]
    rw [hone, hseq]
    obtain ⟨next, hloop, hle, -⟩ :=
      scanLoop_slice limits start (start + 1) bytes rfl (Nat.le_succ _) hstart
    rw [hloop]
    simp only
    omega
  have hzero : (limits.maxRecords.any fun maxr => decide (maxr.toNat ≤ ([] : List Record).length)) =
      true ↔ limits.maxRecords = some 0 := by
    cases limits.maxRecords with
    | none => simp
    | some maxr =>
        rw [Option.any_some, decide_eq_true_eq, List.length_nil, Nat.le_zero, Option.some.injEq]
        exact ⟨fun h0 => UInt32.toNat_inj.mp h0, fun h0 => h0 ▸ rfl⟩
  rw [scanLoop]
  by_cases hnone : limits.maxRecords = some 0
  · rw [if_pos (hzero.mpr hnone)]
    simp [hnone]
  · rw [if_neg (mt hzero.mp hnone)]
    refine iff_of_true ?_ hnone
    split
    · simpa using hmoves _
    · exact hmoves _

end Window

end TautShape.Log
