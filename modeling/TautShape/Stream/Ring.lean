import TautShape.Stream.Node
import TautShape.Lib.Numbered
/-!
# The ring

The ring keeps the end of the log of all pushes: as many records as it has room for.  A
read finds there everything after the reader's cursor, unless the cursor lies before the
ring.
-/

namespace TautShape.Stream

open TautShape.Lib TautShape.Held
open TautShape.Log (Bytes)

/-- Payloads with the sequence numbers they were pushed under. -/
def logOf (pushed : List Bytes) : List (Int × Bytes) :=
  pushed.zipIdx.map fun p => ((p.2 : Int) + 1, p.1)

def record (p : Int × Bytes) : StreamRecord := ⟨p.1, p.2⟩

theorem logOf_length (pushed : List Bytes) : (logOf pushed).length = pushed.length := by
  rw [logOf, List.length_map, List.length_zipIdx]

theorem logOf_numbered (pushed : List Bytes) : Numbered Prod.fst (logOf pushed) := by
  intro i hi
  simp [logOf]

theorem logOf_concat (pushed : List Bytes) (payload : Bytes) :
    logOf (pushed ++ [payload]) = logOf pushed ++ [((pushed.length : Int) + 1, payload)] := by
  simp [logOf, List.zipIdx_append]

structure Ring (log : List (Int × Bytes)) (n : StreamNode) : Prop where
  numbered : Numbered Prod.fst log
  head : n.head = log.length
  payloads : n.payloads.toList = log.drop (log.length - n.capacityRecords)

theorem ascending_of_pairwise {l : List (Int × Bytes)}
    (h : l.Pairwise fun a b => a.1 < b.1) : Ascending l :=
  h.imp fun hlt => Std.compare_eq_lt.mpr hlt

namespace Ring

variable {log : List (Int × Bytes)} {n : StreamNode}

theorem congr (h : Ring log n) {m : StreamNode} (hhead : m.head = n.head)
    (hpayloads : m.payloads = n.payloads) (hcapacity : m.capacityRecords = n.capacityRecords) :
    Ring log m := by
  refine ⟨h.numbered, ?_, ?_⟩
  · rw [hhead]
    exact h.head
  · rw [hpayloads, hcapacity]
    exact h.payloads

theorem getElem?_iff (h : Ring log n) (k : Int) (v : Bytes) :
    n.payloads[k]? = some v ↔
      (k, v) ∈ log ∧ ((log.length - n.capacityRecords : Nat) : Int) < k := by
  rw [← Std.ExtTreeMap.mem_toList_iff_getElem?_eq_some, h.payloads, h.numbered.mem_drop]

/-- The ring holds the last records, as many as it has room for. -/
theorem size_eq (h : Ring log n) : n.payloads.size = min log.length n.capacityRecords := by
  rw [← Std.ExtTreeMap.length_toList, h.payloads, List.length_drop]
  omega

theorem floor_eq (h : Ring log n) :
    n.floor = n.head - (min log.length n.capacityRecords : Nat) + 1 := by
  have hcapacity := n.capacity_pos
  have hfirst : (log.drop (log.length - n.capacityRecords)).head? =
      log[log.length - n.capacityRecords]? := List.head?_drop
  rw [StreamNode.floor, h.payloads, hfirst]
  cases hget : log[log.length - n.capacityRecords]? with
  | none =>
      have hlength := List.getElem?_eq_none_iff.mp hget
      have hhead := h.head
      simp only
      omega
  | some p =>
      obtain ⟨hlt, hp⟩ := List.getElem?_eq_some_iff.mp hget
      have hnum := h.numbered _ hlt
      have hhead := h.head
      rw [hp] at hnum
      simp only
      omega

theorem range_eq (h : Ring log n) {cursor : Int} (hpos : 0 ≤ cursor)
    (hfloor : n.floor - 1 ≤ cursor) : n.range (cursor + 1) = log.drop cursor.toNat := by
  have heq := h.floor_eq
  have hhead := h.head
  have hle : log.length - n.capacityRecords ≤ cursor.toNat := by omega
  have hcursor : ((cursor.toNat : Nat) : Int) = cursor := Int.toNat_of_nonneg hpos
  rw [StreamNode.range, h.payloads, ← h.numbered.filter_drop hle, hcursor]

theorem push (h : Ring log n) (payload : Bytes) {m : StreamNode}
    (hhead : m.head = n.head + 1) (hcapacity : m.capacityRecords = n.capacityRecords)
    (hpayloads : m.payloads =
      if (n.payloads.insert (n.head + 1) payload).size > n.capacityRecords then
        (n.payloads.insert (n.head + 1) payload).erase (n.head + 1 - n.capacityRecords)
      else n.payloads.insert (n.head + 1) payload) :
    Ring (log ++ [(n.head + 1, payload)]) m := by
  have hlength := h.head
  have hnumbered : Numbered Prod.fst (log ++ [(n.head + 1, payload)]) :=
    h.numbered.concat (by simp only; omega)
  have hcapacity_pos := n.capacity_pos
  refine ⟨hnumbered, ?_, ?_⟩
  · rw [hhead, List.length_append, List.length_singleton]
    omega
  -- the new key is above all keys of the ring
  have hnew : n.head + 1 ∉ n.payloads := by
    intro hin
    obtain ⟨v, hv⟩ := exists_getElem?_of_mem hin
    have hmem := ((h.getElem?_iff _ _).mp hv).1
    have hle := (h.numbered.num_le hmem).2
    simp only at hle
    omega
  have hsize : (n.payloads.insert (n.head + 1) payload).size =
      min log.length n.capacityRecords + 1 := by
    rw [Std.ExtTreeMap.size_insert, if_neg (by rwa [Std.ExtTreeMap.contains_iff_mem]), h.size_eq]
  have hinsert : ∀ k v, (n.payloads.insert (n.head + 1) payload)[k]? = some v ↔
      (k, v) ∈ log ++ [(n.head + 1, payload)] ∧
        ((log.length - n.capacityRecords : Nat) : Int) < k := by
    intro k v
    rw [getElem?_insert, List.mem_append, List.mem_singleton, Prod.mk.injEq]
    by_cases heq : n.head + 1 = k
    · have hout : (k, v) ∉ log := by
        intro hmem
        have hle := (h.numbered.num_le hmem).2
        simp only at hle
        omega
      rw [if_pos heq]
      simp only [hout, false_or, Option.some.injEq, heq, true_and]
      refine ⟨fun hv => ⟨hv.symm, by omega⟩, fun hv => hv.1.symm⟩
    · rw [if_neg heq, h.getElem?_iff]
      simp only [Ne.symm heq, false_and, or_false]
  refine toList_eq_of_ascending ?_ fun k v => ?_
  · exact ascending_of_pairwise (hnumbered.pairwise_lt.sublist (List.drop_sublist _ _))
  rw [hnumbered.mem_drop, hpayloads, hcapacity, hsize, List.length_append, List.length_singleton]
  split
  · rw [getElem?_erase]
    by_cases heq : n.head + 1 - n.capacityRecords = k
    · rw [if_pos heq]
      simp only [reduceCtorEq, false_iff, not_and, not_lt]
      omega
    · rw [if_neg heq, hinsert]
      refine and_congr_right fun hmem => ?_
      omega
  · rw [hinsert]
    refine and_congr_right fun hmem => ?_
    have hpos := (hnumbered.num_le hmem).1
    simp only at hpos
    omega

end Ring

/-! ## Reads -/

/-- The loop takes a stretch of what it is given, and at least one record of it. -/
theorem collect_eq (maxRecords maxBytes : Option Int) (l : List (Int × Bytes))
    (records : List StreamRecord) (used : Int) :
    ∃ k ≤ l.length, collect maxRecords maxBytes l records used =
      records ++ (l.take k).map record ∧ (records = [] → l ≠ [] → 1 ≤ k) := by
  induction l generalizing records used with
  | nil => exact ⟨0, le_rfl, by simp [collect], fun _ hl => absurd rfl hl⟩
  | cons p rest ih =>
      obtain ⟨seq, payload⟩ := p
      rw [collect]
      split
      · rename_i hfull
        refine ⟨0, Nat.zero_le _, by simp, fun hnil => ?_⟩
        -- with no record yet a limit on their number does not stop the loop
        subst hnil
        cases maxRecords with
        | none => simp at hfull
        | some limit =>
            simp only [Option.any_some, List.length_nil, Nat.cast_zero, Bool.and_eq_true,
              decide_eq_true_eq] at hfull
            omega
      · split
        · rename_i hfull
          refine ⟨0, Nat.zero_le _, by simp, fun hnil => ?_⟩
          subst hnil
          cases maxBytes <;> simp at hfull
        · obtain ⟨k, hk, heq, -⟩ := ih (records ++ [⟨seq, payload⟩]) (used + payload.length)
          refine ⟨k + 1, Nat.succ_le_succ hk, ?_, fun _ _ => Nat.succ_pos k⟩
          rw [heq, List.take_succ_cons, List.map_cons, List.append_assoc]
          rfl

inductive Resolved (log : List (Int × Bytes)) (n : StreamNode) (streamId : String)
    (reader : Reader) (request : Request) : Reader × Option StreamReadResponse → Prop
  | dropped (hfar : (n.capacityRecords : Int) < n.head - reader.cursor) :
      Resolved log n streamId reader request
        (reader, some (response streamId [] n.head .dropped (some ⟨.slowConsumer, none⟩)))
  | data (last : Nat) (hnear : n.head - reader.cursor ≤ n.capacityRecords)
      (hlt : reader.cursor < last) (hle : last ≤ log.length) :
      Resolved log n streamId reader request
        ({ reader with cursor := last },
          some (response streamId ((window log reader.cursor.toNat last).map record) last .data
            none))
  | idle (state : StreamState) (error : Option StreamError) (hcursor : reader.cursor = n.head)
      (hdata : state ≠ .data) (hdropped : state ≠ .dropped) :
      Resolved log n streamId reader request
        (reader, some (response streamId [] reader.cursor state error))
  | waits (hcursor : reader.cursor = n.head) (hopen : n.isSealed = false ∧ n.isClosed = false)
      (htimeout : request.timeoutMs ≠ some 0) :
      Resolved log n streamId reader request (reader, none)

theorem Ring.resolve_spec {log : List (Int × Bytes)} {n : StreamNode} (h : Ring log n)
    (streamId : String) (reader : Reader) (hpos : 0 ≤ reader.cursor)
    (hle : reader.cursor ≤ n.head) (request : Request) :
    Resolved log n streamId reader request (n.resolve streamId reader request) := by
  have hfloor := h.floor_eq
  have hhead := h.head
  unfold StreamNode.resolve
  split
  · rename_i hlt
    refine .dropped ?_
    omega
  rename_i hnear
  simp only [h.range_eq hpos (by omega)]
  obtain ⟨k, hk, hcollect, hone⟩ := collect_eq request.maxRecords request.maxBytes
    (log.drop reader.cursor.toNat) [] 0
  rw [hcollect, List.nil_append]
  rw [List.length_drop] at hk
  by_cases hend : reader.cursor = n.head
  · have hnil : log.drop reader.cursor.toNat = [] := by
      rw [List.drop_eq_nil_iff]
      omega
    simp only [hnil, List.take_nil, List.map_nil, List.getLast?_nil]
    split
    · split
      · exact .idle _ _ hend (by simp) (by simp)
      · exact .idle _ _ hend (by simp) (by simp)
    · rename_i hclosed
      split
      · exact .idle _ _ hend (by simp) (by simp)
      · rename_i hsealed
        split
        · exact .idle _ _ hend (by simp) (by simp)
        · rename_i htimeout
          exact .waits hend ⟨by simpa using hsealed, by simpa using hclosed⟩ htimeout
  · have hrest : log.drop reader.cursor.toNat ≠ [] := by
      rw [ne_eq, List.drop_eq_nil_iff]
      omega
    have hk1 := hone rfl hrest
    have hwindow : (log.drop reader.cursor.toNat).take k =
        window log reader.cursor.toNat (reader.cursor.toNat + k) := by
      rw [window, List.drop_take]
      congr 1
      omega
    have hlast : ((window log reader.cursor.toNat (reader.cursor.toNat + k)).map record).getLast? =
        (log[reader.cursor.toNat + k - 1]?).map record := by
      rw [List.getLast?_eq_getElem?, List.length_map, window_length (by omega), List.getElem?_map,
        window, List.getElem?_drop, List.getElem?_take_of_lt (by omega)]
      congr 2
      omega
    have hin : reader.cursor.toNat + k - 1 < log.length := by omega
    have hseq := h.numbered _ hin
    rw [hwindow, hlast, List.getElem?_eq_getElem hin, Option.map_some]
    have hcursor : (log[reader.cursor.toNat + k - 1]).1 =
        ((reader.cursor.toNat + k : Nat) : Int) := by
      rw [hseq]
      omega
    simp only [record, hcursor]
    exact .data (reader.cursor.toNat + k) (by omega) (by omega) (by omega)

theorem ring_new (capacityRecords : Nat) (capacity_pos : 0 < capacityRecords)
    (stopWhen : Log.StopWhen) : Ring [] (StreamNode.new capacityRecords capacity_pos stopWhen) :=
  ⟨numbered_nil, rfl, by simp [StreamNode.new]⟩

end TautShape.Stream
