import TautShape.Log.Window
import TautShape.Lib.Greedy
/-!
# The scan against the plain one

`scan` computes where it starts from the number of the front record and takes records
until a limit stops it.  The plain scan looks at every record that is retained and takes
the longest prefix within the limits of those above the cursor.
-/

namespace TautShape.Log

open TautShape.Lib

/-! ## The plain scan -/

def payloadBytes (records : List Record) : Nat :=
  (records.map fun record => record.payload.length).sum

/-- The bytes are counted in a `u64`, and one record is let through whatever its size. -/
def Within (limits : Limits) (records : List Record) : Prop :=
  (∀ maxr ∈ limits.maxRecords, records.length ≤ maxr.toNat) ∧
    ∀ maxb ∈ limits.maxBytes,
      records.length = 1 ∨ min (payloadBytes records) (2 ^ 64 - 1) ≤ maxb.toNat

instance (limits : Limits) : DecidablePred (Within limits) := fun _ =>
  inferInstanceAs (Decidable (_ ∧ _))

/-- The number of the last of some records that are above `start`. -/
def lastSeq (start : Nat) (records : List Record) : Nat :=
  ((records.getLast?).map Record.seq).getD start

def above (start : Nat) (records : List Record) : List Record :=
  records.filter fun record => decide (start < record.seq)

def Window.plainScan (w : Window) (start : Nat) (limits : Limits) : List Record × Nat :=
  let taken := longest (Within limits) (above start w.records)
  (taken, lastSeq start taken)

/-! ## The scan with its checks -/

inductive Panic where
  | subtractOverflow
  | addOverflow
  | indexOutOfBounds
  | debugAssert (message : String)
deriving DecidableEq, Repr

/-- `u64` subtraction. -/
def subChecked (a b : Nat) : Except Panic Nat :=
  if a < b then .error .subtractOverflow else .ok (a - b)

def addChecked (a b : Nat) : Except Panic Nat :=
  if 2 ^ 64 ≤ a + b then .error .addOverflow else .ok (a + b)

namespace Window

/-- `self.records[i]` -/
def recordAt (w : Window) (i : Nat) : Except Panic Record :=
  match w.records[i]? with
  | some record => .ok record
  | none => .error .indexOutOfBounds

/-- The loop of `scan` over the indices. -/
def scanIndices (w : Window) (start : Nat) (limits : Limits) :
    List Nat → List Record → Nat → Nat → Except Panic (List Record × Nat)
  | [], out, last, _ => .ok (out, last)
  | i :: rest, out, last, bytes => do
      let record ← w.recordAt i
      if record.seq ≤ start then
        .error (.debugAssert "dense-sequence invariant violated")
      else if limits.maxRecords.any fun maxr => decide (maxr.toNat ≤ out.length) then
        .ok (out, last)
      else
        match limits.maxBytes with
        | some maxb =>
            let nextBytes := saturatingAdd bytes record.payload.length
            if !out.isEmpty && decide (maxb.toNat < nextBytes) then
              .ok (out, last)
            else
              w.scanIndices start limits rest (out ++ [record]) record.seq nextBytes
        | none => w.scanIndices start limits rest (out ++ [record]) record.seq bytes

def startIndex (front : Record) (start : Nat) : Except Panic Nat := do
  if front.seq ≤ start then
    addChecked (← subChecked start front.seq) 1
  else
    return 0

def scanChecked (w : Window) (start : Nat) (limits : Limits) :
    Except Panic (List Record × Nat) :=
  match w.records with
  | [] => .ok ([], start)
  | front :: _ => do
      let first ← startIndex front start
      w.scanIndices start limits (List.range' first (w.records.length - first)) [] start 0

end Window

/-! ## Within the limits -/

theorem payloadBytes_concat (records : List Record) (record : Record) :
    payloadBytes (records ++ [record]) = payloadBytes records + record.payload.length := by
  simp [payloadBytes]

theorem payloadBytes_mono {front records : List Record} (h : front <+: records) :
    payloadBytes front ≤ payloadBytes records := by
  obtain ⟨rest, rfl⟩ := h
  simp [payloadBytes]

theorem within_nil (limits : Limits) : Within limits [] := by
  constructor
  · intro maxr _
    exact Nat.zero_le _
  · intro maxb _
    exact .inr (Nat.zero_le _)

/-- Fewer records are within the limits too. -/
theorem Within.of_front {limits : Limits} {front records : List Record}
    (hfront : front <+: records) (h : Within limits records) : Within limits front := by
  have hlength := hfront.length_le
  have hbytes := payloadBytes_mono hfront
  constructor
  · intro maxr hmaxr
    exact hlength.trans (h.1 maxr hmaxr)
  · intro maxb hmaxb
    rcases h.2 maxb hmaxb with hone | hwithin
    · rcases Nat.eq_zero_or_pos front.length with hzero | hpos
      · rw [List.length_eq_zero_iff.mp hzero]
        exact .inr (Nat.zero_le _)
      · exact .inl (by omega)
    · exact .inr (by omega)

theorem within_concat {limits : Limits} {out : List Record} {record : Record}
    (hrecords : ∀ maxr ∈ limits.maxRecords, out.length < maxr.toNat)
    (hbytes : ∀ maxb ∈ limits.maxBytes,
      out = [] ∨ min (payloadBytes (out ++ [record])) (2 ^ 64 - 1) ≤ maxb.toNat) :
    Within limits (out ++ [record]) := by
  constructor
  · intro maxr hmaxr
    rw [List.length_append]
    exact hrecords maxr hmaxr
  · intro maxb hmaxb
    rcases hbytes maxb hmaxb with rfl | hwithin
    · exact .inl rfl
    · exact .inr hwithin

section

variable {limits : Limits} {out : List Record} {record : Record}

theorem lt_of_not_full
    (h : ¬(limits.maxRecords.any fun maxr => decide (maxr.toNat ≤ out.length)) = true) :
    ∀ maxr ∈ limits.maxRecords, out.length < maxr.toNat := by
  intro maxr hmaxr
  have hsome : limits.maxRecords = some maxr := hmaxr
  simpa [hsome] using h

theorem not_within_of_full
    (h : (limits.maxRecords.any fun maxr => decide (maxr.toNat ≤ out.length)) = true) :
    ¬Within limits (out ++ [record]) := by
  intro hwithin
  cases hmaxr : limits.maxRecords with
  | none => simp [hmaxr] at h
  | some maxr =>
      have hlength := hwithin.1 maxr hmaxr
      rw [List.length_append, List.length_singleton] at hlength
      have hle : maxr.toNat ≤ out.length := by simpa [hmaxr] using h
      omega

theorem le_of_not_over {bytes maxb : Nat}
    (h : ¬(!out.isEmpty && decide (maxb < bytes)) = true) : out = [] ∨ bytes ≤ maxb := by
  cases out with
  | nil => exact .inl rfl
  | cons _ _ => exact .inr (by simpa using h)

theorem not_within_of_over {maxb : UInt64} (hmaxb : limits.maxBytes = some maxb)
    (h : (!out.isEmpty && decide (maxb.toNat <
      min (payloadBytes (out ++ [record])) (2 ^ 64 - 1))) = true) :
    ¬Within limits (out ++ [record]) := by
  intro hwithin
  rw [Bool.and_eq_true, decide_eq_true_eq] at h
  rcases hwithin.2 maxb hmaxb with hone | hle
  · cases out with
    | nil => cases h.1
    | cons _ _ => simp at hone
  · exact absurd h.2 (Nat.not_lt.mpr hle)

end

theorem saturatingAdd_min (a b : Nat) :
    Window.saturatingAdd (min a (2 ^ 64 - 1)) b = min (a + b) (2 ^ 64 - 1) := by
  unfold Window.saturatingAdd
  omega

theorem lastSeq_concat (start : Nat) (records : List Record) (record : Record) :
    lastSeq start (records ++ [record]) = record.seq := by
  rw [lastSeq, List.getLast?_concat]
  rfl

namespace Window

variable {limits : Limits} {start : Nat}

/-- From what is within the limits the loop goes on to the longest prefix that is. -/
theorem scanLoop_longest {rest out : List Record} {bytes : Nat} (hout : Within limits out)
    (hbytes : limits.maxBytes.isSome = true → bytes = min (payloadBytes out) (2 ^ 64 - 1)) :
    scanLoop limits rest out (lastSeq start out) bytes =
      (longest (Within limits) (out ++ rest),
        lastSeq start (longest (Within limits) (out ++ rest))) := by
  have hdown : ∀ front records, front <+: records → Within limits records → Within limits front :=
    fun _ _ hfront hwithin => hwithin.of_front hfront
  induction rest generalizing out bytes with
  | nil =>
      rw [longest_eq hdown hout (by simp), scanLoop]
  | cons record rest ih =>
      -- the loop stops where the next record is not within the limits
      have hstop : ¬Within limits (out ++ [record]) →
          longest (Within limits) (out ++ record :: rest) = out := by
        intro hover
        apply longest_eq hdown hout
        rintro x ⟨⟩
        exact hover
      have hmore : ∀ bytes', Within limits (out ++ [record]) →
          (limits.maxBytes.isSome = true →
            bytes' = min (payloadBytes (out ++ [record])) (2 ^ 64 - 1)) →
          scanLoop limits rest (out ++ [record]) record.seq bytes' =
            (longest (Within limits) (out ++ record :: rest),
              lastSeq start (longest (Within limits) (out ++ record :: rest))) := by
        intro bytes' hwithin hbytes'
        have hnext := ih hwithin hbytes'
        rw [lastSeq_concat, List.append_assoc] at hnext
        exact hnext
      rw [scanLoop]
      by_cases hfull : (limits.maxRecords.any fun maxr => decide (maxr.toNat ≤ out.length)) = true
      · rw [if_pos hfull, hstop (not_within_of_full hfull)]
      rw [if_neg hfull]
      have hrecords := lt_of_not_full hfull
      cases hmaxb : limits.maxBytes with
      | none =>
          apply hmore
          · exact within_concat hrecords (by simp [hmaxb])
          · simp [hmaxb]
      | some maxb =>
          have hnext : saturatingAdd bytes record.payload.length =
              min (payloadBytes (out ++ [record])) (2 ^ 64 - 1) := by
            rw [hbytes (by rw [hmaxb]; rfl), saturatingAdd_min, payloadBytes_concat]
          simp only
          rw [hnext]
          by_cases hover : (!out.isEmpty && decide (maxb.toNat <
              min (payloadBytes (out ++ [record])) (2 ^ 64 - 1))) = true
          · rw [if_pos hover, hstop (not_within_of_over hmaxb hover)]
          · rw [if_neg hover]
            apply hmore
            · apply within_concat hrecords
              intro maxb' hmaxb'
              obtain rfl := Option.some.inj (hmaxb.symm.trans hmaxb')
              exact le_of_not_over hover
            · exact fun _ => rfl

/-! ## The records above the cursor -/

theorem seq_of_mem_drop {history : List Bytes} {m : Nat} {record : Record}
    (h : record ∈ (numbered history).drop m) : m < record.seq := by
  obtain ⟨i, hget⟩ := List.mem_iff_getElem?.mp h
  rw [List.getElem?_drop] at hget
  have hseq := seq_of_getElem? hget
  omega

theorem above_append (start : Nat) (front back : List Record) :
    above start (front ++ back) = above start front ++ above start back :=
  List.filter_append ..

theorem above_numbered (history : List Bytes) (lo start : Nat) :
    above start ((numbered history).drop lo) = (numbered history).drop (max lo start) := by
  have hsplit := List.takeWhile_append_dropWhile
    (p := fun record : Record => decide (record.seq ≤ start)) (l := (numbered history).drop lo)
  rw [dropWhile_numbered] at hsplit
  have hfront : above start (((numbered history).drop lo).takeWhile
      fun record => decide (record.seq ≤ start)) = [] := by
    apply List.filter_eq_nil_iff.mpr
    intro record hrecord
    have hle := List.mem_takeWhile_imp hrecord
    simpa using hle
  have hbehind : above start ((numbered history).drop (max lo start)) =
      (numbered history).drop (max lo start) := by
    apply List.filter_eq_self.mpr
    intro record hrecord
    have hlt := seq_of_mem_drop hrecord
    rw [decide_eq_true_eq]
    omega
  calc above start ((numbered history).drop lo)
      = above start (((numbered history).drop lo).takeWhile
          fun record => decide (record.seq ≤ start)) ++
        above start ((numbered history).drop (max lo start)) := by
          rw [← above_append, hsplit]
    _ = (numbered history).drop (max lo start) := by rw [hfront, hbehind, List.nil_append]

theorem Holds.front_seq {w : Window} {history : List Bytes} (h : w.Holds history)
    {front : Record} {rest : List Record} (hcons : w.records = front :: rest) :
    front.seq = w.floor - 1 + 1 := by
  have hget : (numbered history)[w.floor - 1]? = some front := by
    rw [← Nat.add_zero (w.floor - 1), ← List.getElem?_drop, ← h.records_eq, hcons]
    rfl
  exact seq_of_getElem? hget

/-- The index that `scan` computes from the number of the front record. -/
def firstIndex (front : Record) (start : Nat) : Nat :=
  if front.seq ≤ start then start - front.seq + 1 else 0

theorem Holds.drop_firstIndex {w : Window} {history : List Bytes} (h : w.Holds history)
    {front : Record} {rest : List Record} (hcons : w.records = front :: rest) (start : Nat) :
    w.records.drop (firstIndex front start) = above start w.records := by
  have hfront := h.front_seq hcons
  have hindex : w.floor - 1 + firstIndex front start = max (w.floor - 1) start := by
    unfold firstIndex
    split <;> omega
  rw [h.records_eq, List.drop_drop, hindex, above_numbered]

theorem Holds.scan_above {w : Window} {history : List Bytes} (h : w.Holds history) (start : Nat)
    (limits : Limits) :
    w.scan start limits = scanLoop limits (above start w.records) [] start 0 := by
  unfold Window.scan
  split
  · rename_i hnil
    rw [hnil]
    rfl
  · rename_i front rest hcons
    rw [← h.drop_firstIndex hcons]
    rfl

/-- On a window that holds what was pushed, the scan is the plain one. -/
theorem Holds.scan_eq {w : Window} {history : List Bytes} (h : w.Holds history) (start : Nat)
    (limits : Limits) : w.scan start limits = w.plainScan start limits := by
  rw [h.scan_above]
  exact scanLoop_longest (within_nil limits) fun _ => rfl

/-! ## The checks -/

/-- The indices behind `first` lead to the records behind it. -/
theorem scanIndices_eq {w : Window} {first : Nat} {out : List Record} {last bytes : Nat}
    (habove : ∀ record ∈ w.records.drop first, start < record.seq) :
    w.scanIndices start limits (List.range' first (w.records.length - first)) out last bytes =
      .ok (scanLoop limits (w.records.drop first) out last bytes) := by
  induction hleft : w.records.length - first generalizing first out last bytes with
  | zero =>
      rw [List.drop_eq_nil_of_le (by omega)]
      rfl
  | succ left ih =>
      have hlt : first < w.records.length := by omega
      have hdrop := List.drop_eq_getElem_cons hlt
      have hrecord : w.recordAt first = .ok w.records[first] := by
        rw [recordAt, List.getElem?_eq_getElem hlt]
      have hseq : ¬w.records[first].seq ≤ start := by
        apply Nat.not_le.mpr
        apply habove
        rw [hdrop]
        exact List.mem_cons_self
      have hmore : ∀ record ∈ w.records.drop (first + 1), start < record.seq := by
        intro record hmem
        apply habove
        rw [hdrop]
        exact List.mem_cons_of_mem _ hmem
      rw [hdrop, List.range'_succ, scanIndices, scanLoop, hrecord]
      simp only [bind, Except.bind, if_neg hseq]
      by_cases hfull : (limits.maxRecords.any fun maxr => decide (maxr.toNat ≤ out.length)) = true
      · rw [if_pos hfull, if_pos hfull]
      rw [if_neg hfull, if_neg hfull]
      have hrest : w.records.length - (first + 1) = left := by omega
      cases hmaxb : limits.maxBytes with
      | none => exact ih hmore hrest
      | some maxb =>
          simp only
          by_cases hover : (!out.isEmpty && decide (maxb.toNat <
              saturatingAdd bytes w.records[first].payload.length)) = true
          · rw [if_pos hover, if_pos hover]
          · rw [if_neg hover, if_neg hover]
            exact ih hmore hrest

/-- No subtraction, addition, index or assertion fails. -/
theorem Holds.scanChecked_eq {w : Window} {history : List Bytes} (h : w.Holds history)
    (hstart : start < 2 ^ 64) : w.scanChecked start limits = .ok (w.scan start limits) := by
  unfold scanChecked
  split
  · rename_i hnil
    rw [scan, hnil]
  · rename_i front rest hcons
    have hfront := h.front_seq hcons
    have hfirst : startIndex front start = .ok (firstIndex front start) := by
      unfold startIndex firstIndex
      by_cases hle : front.seq ≤ start
      · have hsub : subChecked start front.seq = .ok (start - front.seq) := if_neg (by omega)
        have hadd : addChecked (start - front.seq) 1 = .ok (start - front.seq + 1) :=
          if_neg (by omega)
        rw [if_pos hle, if_pos hle, hsub]
        exact hadd
      · rw [if_neg hle, if_neg hle]
        rfl
    have habove : ∀ record ∈ w.records.drop (firstIndex front start), start < record.seq := by
      intro record hrecord
      rw [h.drop_firstIndex hcons] at hrecord
      simpa using (List.mem_filter.mp hrecord).2
    rw [hfirst]
    show w.scanIndices start limits _ [] start 0 = _
    rw [scanIndices_eq habove, h.drop_firstIndex hcons, h.scan_above]

end Window

/-! ## Windows that can be reached -/

inductive WindowOp where
  | push (payload : Bytes)
  | evict (upToSeq : Nat)
deriving DecidableEq, Repr

namespace Window

def apply (w : Window) : WindowOp → Window
  | .push payload => w.push payload
  | .evict upToSeq => w.evict upToSeq

def reached (ops : List WindowOp) : Window := ops.foldl apply new

theorem reached_holds (ops : List WindowOp) : ∃ history, (reached ops).Holds history := by
  induction ops using List.reverseRecOn with
  | nil => exact ⟨[], holds_new⟩
  | append_singleton ops op ih =>
      obtain ⟨history, h⟩ := ih
      rw [reached, List.foldl_append]
      cases op with
      | push payload => exact ⟨history ++ [payload], h.push payload⟩
      | evict upToSeq => exact ⟨history, h.evict upToSeq⟩

/-- On every window that pushes and evictions lead to, from every `u64` and under every
limits, the scan returns and it returns what the plain one returns. -/
theorem scan_is_plain (ops : List WindowOp) (start : UInt64) (limits : Limits) :
    (reached ops).scanChecked start.toNat limits = .ok ((reached ops).scan start.toNat limits) ∧
      (reached ops).scan start.toNat limits = (reached ops).plainScan start.toNat limits := by
  obtain ⟨history, h⟩ := reached_holds ops
  exact ⟨h.scanChecked_eq start.toNat_lt, h.scan_eq _ _⟩

end Window

end TautShape.Log
