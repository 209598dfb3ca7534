import TautShape.Tool.Json
import TautShape.Tool.Base64
import TautShape.Crdt.Overflow
/-!
# Operations and bootstraps as JSON

The part of `crdt_json.rs` that reads and writes what the CRDT replicates.  What is written
is read back.  A payload that is read is the one its text was written for exactly where the
text ends evenly, so a text that was cut is read as a shorter payload.
-/

namespace TautShape.Tool.CrdtJson

open TautShape.Lib TautShape.Crdt TautShape.Tool.Base64

/-! ## Reading -/

/-- `Json::get`, or the message that names the field. -/
def required (value : Json) (field : String) : Except String Json :=
  (value.get field).elim (.error ("missing `" ++ field ++ "`")) .ok

def requiredString (value : Json) (field : String) : Except String String := do
  let v ← required value field
  v.asStr.elim (.error ("`" ++ field ++ "` must be a string")) .ok

def requiredI64 (value : Json) (field : String) : Except String Int := do
  let v ← required value field
  v.asI64.elim (.error ("`" ++ field ++ "` must be an i64")) .ok

def entryFromJson (entry : Json) : Except String CrdtClockEntry := do
  return ⟨← requiredString entry "origin", ← requiredI64 entry "seq"⟩

def clockFromJson (value : Json) : Except String CrdtClock := do
  let v ← required value "entries"
  let entries ← v.asArr.elim (.error "clock entries must be an array") .ok
  return ⟨← entries.mapM entryFromJson⟩

def requiredBytes (value : Json) (field message : String) : Except String Bytes := do
  let v ← required value field
  (v.asStr.bind base64Decode).elim (.error message) .ok

def opFromJson (value : Json) : Except String CrdtOp := do
  return {
    origin := ← requiredString value "origin"
    seq := ← requiredI64 value "seq"
    deps := ← clockFromJson (← required value "deps")
    payload := ← requiredBytes value "payload" "invalid op payload" }

def bootstrapFromJson (value : Json) : Except String CrdtBootstrap := do
  return {
    clock := ← clockFromJson (← required value "clock")
    state := ← requiredBytes value "state" "invalid bootstrap state" }

/-! ## Writing -/

def obj (pairs : List (String × Json)) : Json :=
  .obj (pairs.foldl (fun fields pair => Json.insertField fields pair.1 pair.2) [])

def i64Str (v : Int) : Json := .str (toString v)

def entryToJson (entry : CrdtClockEntry) : Json :=
  obj [("origin", .str entry.origin), ("seq", i64Str entry.seq)]

def clockToJson (clock : CrdtClock) : Json :=
  obj [("entries", .arr (clock.entries.map entryToJson))]

def opToJson (op : CrdtOp) : Json :=
  obj [("origin", .str op.origin), ("seq", i64Str op.seq), ("deps", clockToJson op.deps),
    ("payload", .str (base64Encode op.payload))]

def bootstrapToJson (value : CrdtBootstrap) : Json :=
  obj [("clock", clockToJson value.clock), ("state", .str (base64Encode value.state))]

/-! ## Objects -/

theorem ascending_fold (pairs : List (String × Json)) :
    Ascending (pairs.foldl (fun fields pair => Json.insertField fields pair.1 pair.2) []) := by
  induction pairs using List.reverseRecOn with
  | nil => exact List.Pairwise.nil
  | append_singleton pairs pair ih =>
      rw [List.foldl_append]
      exact ih.setField pair.1 pair.2

/-- Of the pairs with a key the last one counts. -/
theorem get_obj (pairs : List (String × Json)) (key : String) :
    (obj pairs).get key = pairs.reverse.lookup key := by
  change (pairs.foldl (fun fields pair => Json.insertField fields pair.1 pair.2) []).lookup key = _
  induction pairs using List.reverseRecOn with
  | nil => rfl
  | append_singleton pairs pair ih =>
      have hset := lookup_setField (ascending_fold pairs) pair.1 pair.2 key
      rw [List.foldl_append, List.reverse_append]
      change (setField _ pair.1 pair.2).lookup key = (pair :: pairs.reverse).lookup key
      rw [hset, ih, List.lookup_cons]
      by_cases hkey : key = pair.1
      · rw [if_pos hkey, hkey]
        simp
      · rw [if_neg hkey, beq_false_of_ne hkey]

/-! ## Numbers -/

theorem digit_of_mem {n : Nat} {c : Char} (hc : c ∈ Nat.toDigits 10 n) : '0' ≤ c ∧ c ≤ '9' := by
  have hdigit := Nat.isDigit_of_mem_toDigits (by decide) (by decide) hc
  rw [Char.isDigit, Bool.and_eq_true, decide_eq_true_eq, decide_eq_true_eq] at hdigit
  exact hdigit

theorem decimal_toDigits (n : Nat) : Json.decimal (Nat.toDigits 10 n) = some n := by
  have hvalue : (Nat.toDigits 10 n).foldl (fun n c => n * 10 + (c.toNat - 0x30)) 0 = n := by
    calc
      (Nat.toDigits 10 n).foldl (fun n c => n * 10 + (c.toNat - 0x30)) 0 =
          Nat.ofDigitChars 10 (Nat.toDigits 10 n) 0 := by
        unfold Nat.ofDigitChars
        congr 1
        funext m c
        rw [Nat.mul_comm]
        rfl
      _ = n := Nat.ofDigitChars_ten_toDigits
  unfold Json.decimal
  rw [hvalue, if_neg]
  rw [not_or, not_not, List.all_eq_true, List.isEmpty_iff]
  refine ⟨Nat.toDigits_ne_nil, ?_⟩
  intro c hc
  exact decide_eq_true (digit_of_mem hc)

def decimalText (v : Int) : List Char :=
  if v < 0 then '-' :: Nat.toDigits 10 v.natAbs else Nat.toDigits 10 v.natAbs

theorem toList_toString (v : Int) : (toString v).toList = decimalText v := by
  rw [Int.toString_eq_repr, Int.repr_eq_if, decimalText]
  by_cases hneg : v < 0
  · have hle : ¬ 0 ≤ v := by omega
    have habs : (-v).toNat = v.natAbs := by omega
    rw [if_neg hle, if_pos hneg, String.toList_append, Nat.toList_repr, habs]
    rfl
  · have hle : 0 ≤ v := by omega
    have habs : v.toNat = v.natAbs := by omega
    rw [if_pos hle, if_neg hneg, Nat.toList_repr, habs]

theorem isWhitespace_decimalText (v : Int) : ∀ c ∈ decimalText v, Json.isWhitespace c = false := by
  have hdigit : ∀ c : Char, '0' ≤ c ∧ c ≤ '9' → Json.isWhitespace c = false := by
    intro c hc
    have hlow : 0x30 ≤ c.toNat := hc.1
    have hhigh : c.toNat ≤ 0x39 := hc.2
    simp [Json.isWhitespace]
    omega
  intro c hc
  unfold decimalText at hc
  split at hc
  · rcases List.mem_cons.mp hc with rfl | hc
    · decide
    · exact hdigit c (digit_of_mem hc)
  · exact hdigit c (digit_of_mem hc)

theorem trim_toString (v : Int) : Json.trim (toString v) = decimalText v := by
  have hspace := isWhitespace_decimalText v
  have hkeep : ∀ l : List Char, (∀ c ∈ l, Json.isWhitespace c = false) →
      l.dropWhile Json.isWhitespace = l := by
    intro l hl
    cases l with
    | nil => rfl
    | cons c l => rw [List.dropWhile_cons_of_neg (by simp [hl c (by simp)])]
  unfold Json.trim
  rw [toList_toString, hkeep _ hspace, hkeep _ (fun c hc => hspace c (List.mem_reverse.mp hc)),
    List.reverse_reverse]

theorem parseI64_digits {l : List Char} (h : ∀ c ∈ l, '0' ≤ c ∧ c ≤ '9') :
    Json.parseI64 l = ((Json.decimal l).map Int.ofNat).bind fun n =>
      if -2 ^ 63 ≤ n ∧ n < 2 ^ 63 then some n else none := by
  unfold Json.parseI64
  split
  case h_1 digits => exact absurd (h '-' List.mem_cons_self) (by decide)
  case h_2 digits => exact absurd (h '+' List.mem_cons_self) (by decide)
  case h_3 digits _ _ => rfl

theorem parseI64_negative {l : List Char} {n : Nat} (h : Json.decimal l = some n) :
    Json.parseI64 ('-' :: l) =
      if -2 ^ 63 ≤ -(n : Int) ∧ -(n : Int) < 2 ^ 63 then some (-(n : Int)) else none := by
  unfold Json.parseI64
  split
  case h_1 digits heq =>
      rw [List.cons.injEq] at heq
      rw [← heq.2, h]
      rfl
  case h_2 digits heq => exact absurd (List.cons.inj heq).1 (by decide)
  case h_3 digits hminus _ => exact absurd rfl (hminus l)

theorem asI64_i64Str {v : Int} (hv : IsI64 v) : (i64Str v).asI64 = some v := by
  have hdigits : ∀ c ∈ Nat.toDigits 10 v.natAbs, '0' ≤ c ∧ c ≤ '9' := fun c hc => digit_of_mem hc
  change Json.parseI64 (Json.trim (toString v)) = some v
  rw [trim_toString, decimalText]
  by_cases hneg : v < 0
  · have habs : -(v.natAbs : Int) = v := by omega
    rw [if_pos hneg]
    rw [parseI64_negative (decimal_toDigits v.natAbs), habs]
    exact if_pos hv
  · have habs : Int.ofNat v.natAbs = v := Int.natAbs_of_nonneg (Int.not_lt.mp hneg)
    rw [if_neg hneg, parseI64_digits hdigits, decimal_toDigits, Option.map_some, habs]
    exact if_pos hv

/-! ## Fields read back -/

section fields

variable {pairs : List (String × Json)} {field : String}

theorem required_obj {v : Json} (h : pairs.reverse.lookup field = some v) :
    required (obj pairs) field = .ok v := by
  rw [required, get_obj, h]
  rfl

theorem requiredString_obj {text : String} (h : pairs.reverse.lookup field = some (.str text)) :
    requiredString (obj pairs) field = .ok text := by
  rw [requiredString, required_obj h]
  rfl

theorem requiredI64_obj {v : Int} (h : pairs.reverse.lookup field = some (i64Str v))
    (hv : IsI64 v) : requiredI64 (obj pairs) field = .ok v := by
  rw [requiredI64, required_obj h]
  change (i64Str v).asI64.elim _ _ = _
  rw [asI64_i64Str hv]
  rfl

theorem requiredBytes_obj {b : Bytes} (message : String)
    (h : pairs.reverse.lookup field = some (.str (base64Encode b))) :
    requiredBytes (obj pairs) field message = .ok b := by
  obtain ⟨xs, spare, -, hs, hregroups, hspare⟩ := exists_symbols b
  have hb : base64Decode (base64Encode b) = some b :=
    base64Decode_eq_some.mpr ⟨xs, spare, 0, hs, hregroups, by omega⟩
  rw [requiredBytes, required_obj h]
  change (base64Decode (base64Encode b)).elim _ _ = _
  rw [hb]
  rfl

end fields

/-! ## Messages read back -/

theorem entryFromJson_entryToJson {entry : CrdtClockEntry} (h : IsI64 entry.seq) :
    entryFromJson (entryToJson entry) = .ok entry := by
  have horigin : requiredString (entryToJson entry) "origin" = .ok entry.origin :=
    requiredString_obj (by simp [List.lookup_cons])
  have hseq : requiredI64 (entryToJson entry) "seq" = .ok entry.seq :=
    requiredI64_obj (by simp) h
  rw [entryFromJson, horigin, hseq]
  rfl

theorem mapM_entryFromJson {entries : List CrdtClockEntry} (h : ∀ e ∈ entries, IsI64 e.seq) :
    (entries.map entryToJson).mapM entryFromJson = .ok entries := by
  induction entries with
  | nil => rfl
  | cons entry rest ih =>
      rw [List.forall_mem_cons] at h
      rw [List.map_cons, List.mapM_cons, entryFromJson_entryToJson h.1, ih h.2]
      rfl

theorem clockFromJson_clockToJson {clock : CrdtClock} (h : clock.InI64) :
    clockFromJson (clockToJson clock) = .ok clock := by
  have hentries : required (clockToJson clock) "entries" =
      .ok (.arr (clock.entries.map entryToJson)) := required_obj (by simp)
  rw [clockFromJson, hentries]
  change ((clock.entries.map entryToJson).mapM entryFromJson >>= _) = _
  rw [mapM_entryFromJson h]
  rfl

theorem opFromJson_opToJson {op : CrdtOp} (hseq : IsI64 op.seq) (hdeps : op.deps.InI64) :
    opFromJson (opToJson op) = .ok op := by
  have horigin : requiredString (opToJson op) "origin" = .ok op.origin :=
    requiredString_obj (by simp [List.lookup_cons])
  have hseq' : requiredI64 (opToJson op) "seq" = .ok op.seq :=
    requiredI64_obj (by simp [List.lookup_cons]) hseq
  have hclock : required (opToJson op) "deps" = .ok (clockToJson op.deps) :=
    required_obj (by simp [List.lookup_cons])
  have hpayload : requiredBytes (opToJson op) "payload" "invalid op payload" = .ok op.payload :=
    requiredBytes_obj _ (by simp)
  rw [opFromJson, horigin, hseq', hclock, hpayload]
  change (clockFromJson (clockToJson op.deps) >>= _) = _
  rw [clockFromJson_clockToJson hdeps]
  rfl

theorem bootstrapFromJson_bootstrapToJson {value : CrdtBootstrap} (h : value.clock.InI64) :
    bootstrapFromJson (bootstrapToJson value) = .ok value := by
  have hclock : required (bootstrapToJson value) "clock" = .ok (clockToJson value.clock) :=
    required_obj (by simp [List.lookup_cons])
  have hstate : requiredBytes (bootstrapToJson value) "state" "invalid bootstrap state" =
      .ok value.state := requiredBytes_obj _ (by simp)
  rw [bootstrapFromJson, hclock, hstate]
  change (clockFromJson (clockToJson value.clock) >>= _) = _
  rw [clockFromJson_clockToJson h]
  rfl

/-! ## Payloads that were cut -/

theorem requiredBytes_ok {value : Json} {field message : String} {b : Bytes}
    (h : requiredBytes value field message = .ok b) :
    ∃ text, value.get field = some (.str text) ∧ base64Decode text = some b := by
  obtain ⟨v, hv, htext⟩ := ok_of_bind h
  have hget : value.get field = some v := by
    unfold required at hv
    cases hget : value.get field with
    | none =>
        rw [hget] at hv
        exact absurd hv (by simp)
    | some w =>
        rw [hget] at hv
        exact congrArg some (Except.ok.inj hv)
  cases v with
  | str text =>
      change (base64Decode text).elim _ _ = _ at htext
      cases hb : base64Decode text with
      | none =>
          rw [hb] at htext
          exact absurd htext (by simp)
      | some c =>
          rw [hb] at htext
          exact ⟨text, hget, congrArg some (Except.ok.inj htext) ▸ hb⟩
  | _ => exact absurd htext (by simp [Json.asStr])

theorem requiredBytes_of_opFromJson {value : Json} {op : CrdtOp}
    (h : opFromJson value = .ok op) :
    requiredBytes value "payload" "invalid op payload" = .ok op.payload := by
  obtain ⟨origin, -, h⟩ := ok_of_bind h
  obtain ⟨seq, -, h⟩ := ok_of_bind h
  obtain ⟨depsValue, -, h⟩ := ok_of_bind h
  obtain ⟨deps, -, h⟩ := ok_of_bind h
  obtain ⟨payload, hpayload, h⟩ := ok_of_bind h
  rw [hpayload, ← Except.ok.inj h]

/-- The text of a payload that was read says the whole payload exactly if it ends evenly. -/
theorem payload_whole_iff {value : Json} {op : CrdtOp} (h : opFromJson value = .ok op) :
    ∃ text, value.get "payload" = some (.str text) ∧
      (stripped text = unpadded (base64Encode op.payload) ↔ EndsEvenly (stripped text)) := by
  obtain ⟨text, hget, hb⟩ := requiredBytes_ok (requiredBytes_of_opFromJson h)
  exact ⟨text, hget, eq_unpadded_iff_endsEvenly hb⟩

end TautShape.Tool.CrdtJson
