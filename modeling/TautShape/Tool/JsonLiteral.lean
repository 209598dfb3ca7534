import TautShape.Tool.Json
/-!
# String literals of the tool's reader

Which literals the reader takes, what it makes of them, and where it subtracts below zero.
It takes more than RFC 8259 derives: a plus sign among the digits of an escape, and after a
high surrogate any unit that is not below the low ones.
-/

namespace TautShape.Tool

open TautShape.Lib TautShape.Lib.Utf8 TautShape.Lib.JsonGrammar
open TautShape.Log (Bytes)

/-! ## Escapes -/

def unitOf (b : Bytes) : Option Nat :=
  if b.length = 4 then
    (String.fromUTF8? ⟨b.toArray⟩).bind fun hs => JsonParser.u16FromHex hs.toUTF8.data.toList
  else none

def LooseEscape : List UInt8 → Char → Prop := Escaped unitOf fun low => 0xdc00 ≤ low

/-- An escaped high surrogate and an escaped unit below the low surrogates. -/
inductive Underflow : List UInt8 → Prop
  | pair {bytes more : List UInt8} {high low : Nat} (hhigh : unitOf bytes = some high)
      (hlow : unitOf more = some low) (hge : 0xd800 ≤ high) (hle : high ≤ 0xdbff)
      (hlt : low < 0xdc00) : Underflow (bytes ++ 0x5c :: 0x75 :: more)

/-- Between quotes anything but quotes and backslashes stands for itself. -/
def looseLiteral : List UInt8 → List Char → Prop := Pieces (fun _ => True) LooseEscape

/-- A literal of RFC 8259, control characters allowed. -/
def strictLiteral : List UInt8 → List Char → Prop := Pieces (fun _ => True) WellFormedEscape

namespace JsonParser

/-! ## Steps of a parser -/

/-- `size` bytes in all, of which `s` are left. -/
def on {α : Type} (p : JsonParser α) (size : Nat) (s : Bytes) : Except Fault (α × Bytes) :=
  (p.run size).run s

section steps

variable {α β : Type} {n : Nat} {s t : Bytes}

theorem on_bind {p : JsonParser α} {f : α → JsonParser β} :
    (p >>= f).on n s = (p.on n s).bind fun r => (f r.1).on n r.2 := rfl

theorem on_bind_ok {p : JsonParser α} {f : α → JsonParser β} {a : α} (h : p.on n s = .ok (a, t)) :
    (p >>= f).on n s = (f a).on n t := by
  rw [on_bind, h]
  rfl

theorem on_bind_error {p : JsonParser α} {f : α → JsonParser β} {e : Fault}
    (h : p.on n s = .error e) : (p >>= f).on n s = .error e := by
  rw [on_bind, h]
  rfl

@[simp] theorem on_pure (a : α) : (pure a : JsonParser α).on n s = .ok (a, s) := rfl

@[simp] theorem on_throw (e : Fault) : (throw e : JsonParser α).on n s = .error e := rfl

@[simp] theorem on_fail (message : String) :
    (fail message : JsonParser α).on n s = .error (.error message) := rfl

@[simp] theorem on_get : (get : JsonParser Bytes).on n s = .ok (s, s) := rfl

@[simp] theorem on_read : (read : JsonParser Nat).on n s = .ok (n, s) := rfl

@[simp] theorem on_peek : peek.on n s = .ok (s.head?, s) := rfl

@[simp] theorem on_advance (count : Nat) : (advance count).on n s = .ok ((), s.drop count) := rfl

@[simp] theorem on_modify (f : Bytes → Bytes) :
    (modify f : JsonParser PUnit).on n s = .ok (.unit, f s) := rfl

@[simp] theorem on_skipWs : skipWs.on n s = .ok ((), s.dropWhile isSpace) := rfl

@[simp] theorem on_next_cons (missing : String) (byte : UInt8) :
    (next missing).on n (byte :: s) = .ok (byte, s) := rfl

/-- A parser ends with a message, with something read, or in a subtraction below zero. -/
def EndsAs (r : Except Fault (α × Bytes)) (reads : α → Bytes → Prop) (sinks : Prop) : Prop :=
  (∃ message, r = .error (.error message)) ∨ (∃ a u, r = .ok (a, u) ∧ reads a u) ∨
    (r = .error .overflow ∧ sinks)

variable {reads : α → Bytes → Prop} {sinks : Prop}

theorem EndsAs.message (message : String) :
    EndsAs (.error (.error message) : Except Fault (α × Bytes)) reads sinks :=
  .inl ⟨message, rfl⟩

theorem EndsAs.ok {a : α} (h : reads a s) : EndsAs (.ok (a, s)) reads sinks :=
  .inr (.inl ⟨a, s, rfl, h⟩)

theorem EndsAs.imp {r : Except Fault (α × Bytes)} {reads' : α → Bytes → Prop} {sinks' : Prop}
    (h : EndsAs r reads sinks) (hreads : ∀ a u, reads a u → reads' a u)
    (hsinks : sinks → sinks') : EndsAs r reads' sinks' := by
  rcases h with hmessage | ⟨a, u, hok, hr⟩ | ⟨hoverflow, hs⟩
  · exact .inl hmessage
  · exact .inr (.inl ⟨a, u, hok, hreads a u hr⟩)
  · exact .inr (.inr ⟨hoverflow, hsinks hs⟩)

theorem EndsAs.bind {p : JsonParser α} {f : α → JsonParser β} {reads' : β → Bytes → Prop}
    {sinks' : Prop} (h : EndsAs (p.on n s) reads sinks) (hsinks : sinks → sinks')
    (hf : ∀ a u, reads a u → EndsAs ((f a).on n u) reads' sinks') :
    EndsAs ((p >>= f).on n s) reads' sinks' := by
  rcases h with ⟨message, hmessage⟩ | ⟨a, u, hok, hr⟩ | ⟨hoverflow, hs⟩
  · exact .inl ⟨message, on_bind_error hmessage⟩
  · rw [on_bind_ok hok]
    exact hf a u hr
  · exact .inr (.inr ⟨on_bind_error hoverflow, hsinks hs⟩)

end steps

/-! ## Units -/

theorem unitOf_length {b : Bytes} {v : Nat} (h : unitOf b = some v) : b.length = 4 := by
  unfold unitOf at h
  split at h
  case isTrue hlength => exact hlength
  case isFalse => exact absurd h (by simp)

theorem on_hex4_append {n : Nat} {b t : Bytes} (hb : b.length = 4) :
    hex4.on n (b ++ t) =
      (unitOf b).elim (.error (.error "bad \\u hex")) fun v => .ok (v, t) := by
  have htake : (b ++ t).take 4 = b := List.take_left' hb
  have hdrop : (b ++ t).drop 4 = t := List.drop_left' hb
  have hlength : ¬ b.length < 4 := by omega
  unfold hex4 unitOf
  rw [on_bind_ok on_get, htake, if_neg hlength, if_pos hb]
  cases (String.fromUTF8? ⟨b.toArray⟩).bind fun hs => u16FromHex hs.toUTF8.data.toList with
  | none => exact on_fail "bad \\u hex"
  | some v =>
      have hrun : (advance 4 >>= fun _ => pure v : JsonParser Nat).on n (b ++ t) =
          .ok (v, (b ++ t).drop 4) := on_bind_ok (on_advance 4)
      exact hrun.trans (by rw [hdrop]; rfl)

theorem on_hex4_short {n : Nat} {s : Bytes} (hs : s.length < 4) :
    hex4.on n s = .error (.error "short \\u escape") := by
  have htake : (s.take 4).length < 4 := by
    rw [List.length_take]
    omega
  unfold hex4
  rw [on_bind_ok on_get, if_pos htake]
  rfl

theorem split_four (s : Bytes) : s.length < 4 ∨ ∃ b t, s = b ++ t ∧ b.length = 4 := by
  by_cases hs : s.length < 4
  · exact .inl hs
  · refine .inr ⟨s.take 4, s.drop 4, (List.take_append_drop 4 s).symm, ?_⟩
    rw [List.length_take]
    omega

theorem on_hex4 {n v : Nat} {s t : Bytes} :
    hex4.on n s = .ok (v, t) ↔ ∃ b, s = b ++ t ∧ unitOf b = some v := by
  constructor
  · intro h
    rcases split_four s with hs | ⟨b, u, rfl, hb⟩
    · rw [on_hex4_short hs] at h
      exact absurd h (by simp)
    · rw [on_hex4_append hb] at h
      cases hunit : unitOf b with
      | none =>
          rw [hunit] at h
          exact absurd h (by simp)
      | some w =>
          rw [hunit, Option.elim_some, Except.ok.injEq, Prod.mk.injEq] at h
          obtain ⟨rfl, rfl⟩ := h
          exact ⟨b, rfl, hunit⟩
  · rintro ⟨b, rfl, hb⟩
    rw [on_hex4_append (unitOf_length hb), hb, Option.elim_some]

/-! ## Escapes -/

theorem charFromU32_eq_some {v : Nat} {c : Char} :
    charFromU32 v = some c ↔ v.isValidChar ∧ c = Char.ofNat v := by
  unfold charFromU32
  by_cases h : v.isValidChar
  · have hof : Char.ofNat v = Char.ofNatAux v h := by simp [Char.ofNat, h]
    simp [h, hof, eq_comm]
  · simp [h]

theorem shift_pairValue {high low : Nat} :
    0x10000 + ((high - 0xd800) <<< 10) + (low - 0xdc00) = pairValue high low := by
  unfold pairValue
  rw [Nat.shiftLeft_eq]

theorem take_two {s : Bytes} {a b : UInt8} (h : s.take 2 = [a, b]) : s = a :: b :: s.drop 2 := by
  rw [← List.take_append_drop 2 s, h]
  rfl

section unicode

variable {n high low : Nat} {s t u : Bytes}

theorem on_unicodeEscape_lone (hhigh : hex4.on n s = .ok (high, t)) (hge : 0xd800 ≤ high)
    (hle : high ≤ 0xdbff) (ht : t.take 2 ≠ [0x5c, 0x75]) :
    unicodeEscape.on n s = .error (.error "lone high surrogate") := by
  unfold unicodeEscape
  rw [on_bind_ok hhigh, if_pos ⟨hge, hle⟩, on_bind_ok on_get, if_neg ht, on_fail]

theorem on_unicodeEscape_high (hhigh : hex4.on n s = .ok (high, 0x5c :: 0x75 :: u))
    (hge : 0xd800 ≤ high) (hle : high ≤ 0xdbff) :
    unicodeEscape.on n s =
      (hex4 >>= fun lo => subU16 lo 0xdc00 >>= fun low =>
        (charFromU32 (0x10000 + ((high - 0xd800) <<< 10) + low)).elim (fail "bad surrogate")
          pure).on n u := by
  have htake : List.take 2 (0x5c :: 0x75 :: u) = [0x5c, 0x75] := rfl
  unfold unicodeEscape
  rw [on_bind_ok hhigh, if_pos ⟨hge, hle⟩, on_bind_ok on_get, if_pos htake,
    on_bind_ok (on_advance 2)]
  congr 2
  funext lo
  congr 1
  funext low
  cases charFromU32 (0x10000 + ((high - 0xd800) <<< 10) + low) with
  | none => rfl
  | some c => rfl

theorem on_unicodeEscape_overflow (hhigh : hex4.on n s = .ok (high, 0x5c :: 0x75 :: u))
    (hge : 0xd800 ≤ high) (hle : high ≤ 0xdbff) (hlow : hex4.on n u = .ok (low, t))
    (hlt : low < 0xdc00) : unicodeEscape.on n s = .error .overflow := by
  have hsub : (subU16 low 0xdc00).on n t = .error .overflow := by
    unfold subU16
    rw [if_neg (by omega), on_throw]
  rw [on_unicodeEscape_high hhigh hge hle, on_bind_ok hlow, on_bind_error hsub]

theorem on_unicodeEscape_pair (hhigh : hex4.on n s = .ok (high, 0x5c :: 0x75 :: u))
    (hge : 0xd800 ≤ high) (hle : high ≤ 0xdbff) (hlow : hex4.on n u = .ok (low, t))
    (hdc : 0xdc00 ≤ low) :
    unicodeEscape.on n s = (charFromU32 (pairValue high low)).elim
      (.error (.error "bad surrogate")) fun c => .ok (c, t) := by
  have hsub : (subU16 low 0xdc00).on n t = .ok (low - 0xdc00, t) := by
    unfold subU16
    rw [if_pos hdc, on_pure]
  rw [on_unicodeEscape_high hhigh hge hle, on_bind_ok hlow, on_bind_ok hsub, shift_pairValue]
  cases charFromU32 (pairValue high low) with
  | none => rfl
  | some c => rfl

theorem on_unicodeEscape_other (hn : hex4.on n s = .ok (low, t))
    (hother : ¬ (0xd800 ≤ low ∧ low ≤ 0xdbff)) :
    unicodeEscape.on n s = (charFromU32 low).elim (.error (.error "bad \\u escape"))
      fun c => .ok (c, t) := by
  unfold unicodeEscape
  rw [on_bind_ok hn, if_neg hother]
  cases charFromU32 low with
  | none => rfl
  | some c => rfl

end unicode

theorem on_unicodeEscape {b : Bytes} {c : Char} (h : LooseEscape b c) (n : Nat) (t : Bytes) :
    unicodeEscape.on n (b ++ t) = .ok (c, t) := by
  cases h with
  | @unit b v hunit hvalid =>
      have hv : hex4.on n (b ++ t) = .ok (v, t) := on_hex4.mpr ⟨b, rfl, hunit⟩
      have hother : ¬ (0xd800 ≤ v ∧ v ≤ 0xdbff) := by
        unfold Nat.isValidChar at hvalid
        omega
      rw [on_unicodeEscape_other hv hother, charFromU32_eq_some.mpr ⟨hvalid, rfl⟩,
        Option.elim_some]
  | @pair b e high low hhigh hlow hge hle hcompletes hvalid =>
      have hv : hex4.on n (b ++ 0x5c :: 0x75 :: e ++ t) =
          .ok (high, 0x5c :: 0x75 :: (e ++ t)) := on_hex4.mpr ⟨b, by simp, hhigh⟩
      have hw : hex4.on n (e ++ t) = .ok (low, t) := on_hex4.mpr ⟨e, rfl, hlow⟩
      have hsome : charFromU32 (pairValue high low) = some (Char.ofNat (pairValue high low)) :=
        charFromU32_eq_some.mpr ⟨hvalid, by rfl⟩
      rw [on_unicodeEscape_pair hv hge hle hw hcompletes, hsome, Option.elim_some]

theorem on_unicodeEscape_underflow {b : Bytes} (h : Underflow b) (n : Nat) (t : Bytes) :
    unicodeEscape.on n (b ++ t) = .error .overflow := by
  cases h with
  | @pair b e high low hhigh hlow hge hle hlt =>
      have hv : hex4.on n (b ++ 0x5c :: 0x75 :: e ++ t) =
          .ok (high, 0x5c :: 0x75 :: (e ++ t)) := on_hex4.mpr ⟨b, by simp, hhigh⟩
      have hw : hex4.on n (e ++ t) = .ok (low, t) := on_hex4.mpr ⟨e, rfl, hlow⟩
      exact on_unicodeEscape_overflow hv hge hle hw hlt

theorem pair_cases {n high : Nat} {b : Bytes} (u : Bytes) (hhigh : unitOf b = some high)
    (hge : 0xd800 ≤ high) (hle : high ≤ 0xdbff) :
    (∃ message, unicodeEscape.on n (b ++ 0x5c :: 0x75 :: u) = .error (.error message)) ∨
      (∃ e t c, u = e ++ t ∧ LooseEscape (b ++ 0x5c :: 0x75 :: e) c) ∨
        ∃ e t, u = e ++ t ∧ Underflow (b ++ 0x5c :: 0x75 :: e) := by
  have hhex : hex4.on n (b ++ 0x5c :: 0x75 :: u) = .ok (high, 0x5c :: 0x75 :: u) :=
    on_hex4.mpr ⟨b, rfl, hhigh⟩
  have hrun := on_unicodeEscape_high hhex hge hle
  rcases split_four u with hu | ⟨e, t, rfl, he⟩
  · left
    rw [hrun]
    exact ⟨_, on_bind_error (on_hex4_short hu)⟩
  have hhex' := on_hex4_append (n := n) (t := t) he
  cases hunit : unitOf e with
  | none =>
      left
      rw [hunit] at hhex'
      rw [hrun]
      exact ⟨_, on_bind_error hhex'⟩
  | some low =>
      rw [hunit] at hhex'
      by_cases hlow : low < 0xdc00
      · exact .inr (.inr ⟨e, t, rfl, .pair hhigh hunit hge hle hlow⟩)
      · have hdc : 0xdc00 ≤ low := by omega
        cases hchar : charFromU32 (pairValue high low) with
        | none =>
            left
            exact ⟨_, by rw [on_unicodeEscape_pair hhex hge hle hhex' hdc, hchar]; rfl⟩
        | some c =>
            obtain ⟨hvalid, hc⟩ := charFromU32_eq_some.mp hchar
            have hescape : LooseEscape _ (Char.ofNat (pairValue high low)) :=
              .pair hhigh hunit hge hle hdc hvalid
            exact .inr (.inl ⟨e, t, _, rfl, hescape⟩)

/-- What `unicode_escape` makes of any bytes. -/
theorem unicodeEscape_cases (n : Nat) (s : Bytes) :
    (∃ message, unicodeEscape.on n s = .error (.error message)) ∨
      (∃ b t c, s = b ++ t ∧ LooseEscape b c) ∨ ∃ b t, s = b ++ t ∧ Underflow b := by
  rcases split_four s with hs | ⟨b, t, rfl, hb⟩
  · left
    exact ⟨_, on_bind_error (on_hex4_short hs)⟩
  have hhex := on_hex4_append (n := n) (t := t) hb
  cases hunit : unitOf b with
  | none =>
      left
      rw [hunit] at hhex
      exact ⟨_, on_bind_error hhex⟩
  | some v =>
      rw [hunit] at hhex
      by_cases hhigh : 0xd800 ≤ v ∧ v ≤ 0xdbff
      · by_cases ht : t.take 2 = [0x5c, 0x75]
        · have htail := take_two ht
          rw [htail]
          rcases pair_cases (t.drop 2) hunit hhigh.1 hhigh.2 with
            hmessage | ⟨e, r, c, hr, he⟩ | ⟨e, r, hr, he⟩
          · exact .inl hmessage
          · exact .inr (.inl ⟨b ++ 0x5c :: 0x75 :: e, r, c, by rw [hr]; simp, he⟩)
          · exact .inr (.inr ⟨b ++ 0x5c :: 0x75 :: e, r, by rw [hr]; simp, he⟩)
        · left
          exact ⟨_, on_unicodeEscape_lone hhex hhigh.1 hhigh.2 ht⟩
      · cases hchar : charFromU32 v with
        | none =>
            left
            exact ⟨_, by rw [on_unicodeEscape_other hhex hhigh, hchar]; rfl⟩
        | some c =>
            obtain ⟨hvalid, rfl⟩ := charFromU32_eq_some.mp hchar
            exact .inr (.inl ⟨b, t, _, rfl, .unit hunit hvalid⟩)

theorem on_escape_short {e : UInt8} {c : Char} (h : Short e c) (n : Nat) (t : Bytes) :
    escape.on n (e :: t) = .ok (c, t) := by
  cases h <;> rfl

theorem escape_cases (n : Nat) (s : Bytes) :
    (∃ message, escape.on n s = .error (.error message)) ∨
      (∃ e t c, s = e :: t ∧ Short e c) ∨ ∃ t, s = 0x75 :: t := by
  cases s with
  | nil => exact .inl ⟨_, rfl⟩
  | cons e t =>
      by_cases hshort : ∃ c, Short e c
      · obtain ⟨c, hc⟩ := hshort
        exact .inr (.inl ⟨e, t, c, rfl, hc⟩)
      by_cases hunicode : e = 0x75
      · exact .inr (.inr ⟨t, by rw [hunicode]⟩)
      left
      have hrun : escape.on n (e :: t) =
          (fail ("unknown escape \\" ++ (Char.ofUInt8 e).toString) : JsonParser Char).on n t := by
        unfold escape
        rw [on_bind_ok (on_next_cons _ e)]
        split
        case h_9 => exact absurd rfl hunicode
        case h_10 => rfl
        all_goals exact absurd ⟨_, by constructor⟩ hshort
      exact ⟨_, hrun⟩

/-! ## Characters -/

def Fresh (s : Bytes) : Prop := ∀ byte ∈ s.head?, ¬ IsContinuation byte

theorem fresh_cons {byte : UInt8} {s : Bytes} (h : ¬ IsContinuation byte) : Fresh (byte :: s) := by
  simpa [Fresh] using h

theorem fresh_dropWhile (s : Bytes) :
    Fresh (s.dropWhile fun c => decide (IsContinuation c)) := by
  intro byte hbyte
  have hhead := List.head?_dropWhile_not (fun c => decide (IsContinuation c)) s
  rw [Option.mem_def.mp hbyte] at hhead
  simpa using hhead

theorem on_chunk {n : Nat} {c : Char} {byte : UInt8} {rest t : Bytes}
    (hbytes : encodeChar c = byte :: rest) (ht : Fresh t) :
    (chunk byte).on n (rest ++ t) = .ok (String.ofList [c], t) := by
  obtain ⟨b, bs, hb, -, hcont⟩ := exists_encodeChar_eq_cons c
  rw [hbytes, List.cons.injEq] at hb
  obtain ⟨rfl, rfl⟩ := hb
  have htake := takeWhile_continuation hcont ht
  have hdrop : (rest ++ t).dropWhile (fun c => decide (IsContinuation c)) = t := by
    have hsplit := List.takeWhile_append_dropWhile (p := fun c => decide (IsContinuation c))
      (l := rest ++ t)
    rw [htake] at hsplit
    exact List.append_cancel_left hsplit
  have hdecode : String.fromUTF8? ⟨(byte :: rest).toArray⟩ = some (String.ofList [c]) := by
    rw [← hbytes]
    simpa using fromUTF8_encode [c]
  unfold chunk
  rw [on_bind_ok on_get, on_bind_ok (on_modify _), htake, hdrop, hdecode]
  rfl

theorem chunk_cases (n : Nat) (byte : UInt8) (s : Bytes) :
    (∃ message, (chunk byte).on n s = .error (.error message)) ∨
      ∃ c rest t, encodeChar c = byte :: rest ∧ s = rest ++ t ∧ Fresh t := by
  cases hdecode : String.fromUTF8?
      ⟨(byte :: s.takeWhile fun c => decide (IsContinuation c)).toArray⟩ with
  | none =>
      left
      refine ⟨"invalid utf8 in string", ?_⟩
      unfold chunk
      rw [on_bind_ok on_get, on_bind_ok (on_modify _), hdecode, on_fail]
  | some text =>
      right
      have hbytes := eq_encode_of_fromUTF8 hdecode
      have hcont : ∀ b ∈ s.takeWhile (fun c => decide (IsContinuation c)), IsContinuation b :=
        fun b hb => by simpa using List.mem_takeWhile_imp hb
      obtain ⟨c, hc⟩ := eq_singleton_of_continuation hbytes.symm hcont
      rw [hc, encode_cons, encode_nil, List.append_nil] at hbytes
      exact ⟨c, _, _, hbytes.symm, List.takeWhile_append_dropWhile.symm, fresh_dropWhile s⟩

/-! ## Literals -/

section round

variable {n fuel : Nat} {out : List Char} {t : Bytes}

theorem on_characters_quote :
    (characters (fuel + 1) out).on n (0x22 :: t) = .ok (String.ofList out, t) := rfl

theorem on_characters_escape :
    (characters (fuel + 1) out).on n (0x5c :: t) =
      (escape >>= fun c => characters fuel (out ++ [c])).on n t := rfl

theorem on_characters_chunk {byte : UInt8} (hquote : byte ≠ 0x22) (hbackslash : byte ≠ 0x5c) :
    (characters (fuel + 1) out).on n (byte :: t) =
      (chunk byte >>= fun text => characters fuel (out ++ text.toList)).on n t := by
  rw [characters, on_bind_ok (on_next_cons _ byte), if_neg hquote, if_neg hbackslash]

end round

theorem first_ne {c : Char} {byte : UInt8} {rest : Bytes} (hbytes : encodeChar c = byte :: rest) :
    (c ≠ '"' ∧ c ≠ '\\') ↔ (byte ≠ 0x22 ∧ byte ≠ 0x5c) := by
  have hascii : ∀ b : UInt8, b < 0x80 → (byte = b ↔ c = Char.ofUInt8 b) := by
    intro b hb
    constructor
    · rintro rfl
      exact (encodeChar_eq_of_low hbytes hb).1
    · rintro rfl
      rw [encodeChar_ofUInt8 hb, List.cons.injEq] at hbytes
      exact hbytes.1.symm
  rw [Ne, Ne, Ne, Ne, hascii 0x22 (by decide), hascii 0x5c (by decide)]
  exact Iff.rfl

theorem on_characters_piece {n fuel : Nat} {out : List Char} {b t : Bytes} {c : Char}
    (hpiece : Piece (fun _ => True) LooseEscape b c) (ht : Fresh t) :
    (characters (fuel + 1) out).on n (b ++ t) = (characters fuel (out ++ [c])).on n t := by
  cases hpiece with
  | @short byte _ hshort =>
      have hescape : escape.on n (byte :: t) = .ok (c, t) := on_escape_short hshort n t
      exact on_characters_escape.trans (on_bind_ok hescape)
  | @unicode e _ hunicode =>
      have hescape : escape.on n (0x75 :: e ++ t) = .ok (c, t) := on_unicodeEscape hunicode n t
      exact on_characters_escape.trans (on_bind_ok hescape)
  | plain _ hquote hbackslash =>
      obtain ⟨byte, rest, hbytes, -, -⟩ := exists_encodeChar_eq_cons c
      obtain ⟨hquote, hbackslash⟩ := (first_ne hbytes).mp ⟨hquote, hbackslash⟩
      rw [hbytes, List.cons_append, on_characters_chunk hquote hbackslash,
        on_bind_ok (on_chunk hbytes ht), String.toList_ofList]

theorem fresh_piece {b t : Bytes} {c : Char} (hpiece : Piece (fun _ => True) LooseEscape b c) :
    Fresh (b ++ t) := by
  cases hpiece with
  | short => exact fresh_cons (by decide)
  | unicode => exact fresh_cons (by decide)
  | plain =>
      obtain ⟨byte, rest, hbytes, hfirst, -⟩ := exists_encodeChar_eq_cons c
      rw [hbytes]
      exact fresh_cons hfirst

theorem fresh_pieces {b t : Bytes} {cs : List Char} (h : looseLiteral b cs) (ht : Fresh t) :
    Fresh (b ++ t) := by
  cases h with
  | nil => exact ht
  | cons hpiece _ =>
      rw [List.append_assoc]
      exact fresh_piece hpiece

theorem on_characters {b : Bytes} {cs : List Char} (h : looseLiteral b cs) (n fuel : Nat)
    (out : List Char) {t : Bytes} (ht : Fresh t) :
    (characters (fuel + cs.length) out).on n (b ++ t) = (characters fuel (out ++ cs)).on n t := by
  induction h generalizing out with
  | nil => rw [List.append_nil]; rfl
  | @cons b rest c cs hpiece hrest ih =>
      calc
        _ = (characters (fuel + cs.length + 1) out).on n (b ++ (rest ++ t)) := by
            rw [List.append_assoc]; rfl
        _ = (characters (fuel + cs.length) (out ++ [c])).on n (rest ++ t) :=
            on_characters_piece hpiece (fresh_pieces hrest ht)
        _ = (characters fuel (out ++ [c] ++ cs)).on n t := ih (out ++ [c])
        _ = (characters fuel (out ++ c :: cs)).on n t := by rw [List.append_assoc]; rfl

/-- A literal that the reader goes through up to an escape that underflows. -/
def Sinks (s : Bytes) : Prop :=
  ∃ b cs e t, s = b ++ 0x5c :: 0x75 :: e ++ t ∧ looseLiteral b cs ∧ Underflow e

theorem characters_cases (n fuel : Nat) (out : List Char) (s : Bytes) :
    (∃ message, (characters (fuel + 1) out).on n s = .error (.error message)) ∨
      (∃ t, s = 0x22 :: t) ∨
        (∃ b c t, s = b ++ t ∧ Piece (fun _ => True) LooseEscape b c ∧
          (characters (fuel + 1) out).on n s = (characters fuel (out ++ [c])).on n t) ∨
            ∃ e t, s = 0x5c :: 0x75 :: e ++ t ∧ Underflow e := by
  cases s with
  | nil => exact .inl ⟨_, rfl⟩
  | cons byte s =>
      by_cases hquote : byte = 0x22
      · exact .inr (.inl ⟨s, by rw [hquote]⟩)
      by_cases hbackslash : byte = 0x5c
      · subst hbackslash
        rw [on_characters_escape]
        rcases escape_cases n s with ⟨message, h⟩ | ⟨e, t, c, rfl, hshort⟩ | ⟨t, rfl⟩
        · exact .inl ⟨message, on_bind_error h⟩
        · have hrun := on_escape_short hshort n t
          exact .inr (.inr (.inl ⟨[0x5c, e], c, t, rfl, .short hshort, on_bind_ok hrun⟩))
        · rcases unicodeEscape_cases n t with ⟨message, h⟩ | ⟨b, u, c, rfl, hb⟩ | ⟨e, u, rfl, he⟩
          · have hrun : escape.on n (0x75 :: t) = .error (.error message) := h
            exact .inl ⟨message, on_bind_error hrun⟩
          · have hrun : escape.on n (0x75 :: (b ++ u)) = .ok (c, u) := on_unicodeEscape hb n u
            exact .inr (.inr (.inl ⟨0x5c :: 0x75 :: b, c, u, rfl, .unicode hb, on_bind_ok hrun⟩))
          · exact .inr (.inr (.inr ⟨e, u, rfl, he⟩))
      · rw [on_characters_chunk hquote hbackslash]
        rcases chunk_cases n byte s with ⟨message, h⟩ | ⟨c, rest, t, hbytes, rfl, ht⟩
        · exact .inl ⟨message, on_bind_error h⟩
        · obtain ⟨hne, hne'⟩ := (first_ne hbytes).mpr ⟨hquote, hbackslash⟩
          have hrun := on_bind_ok (f := fun text => characters fuel (out ++ text.toList))
            (on_chunk (n := n) hbytes ht)
          rw [String.toList_ofList] at hrun
          refine .inr (.inr (.inl ⟨encodeChar c, c, t, ?_, .plain trivial hne hne', hrun⟩))
          rw [hbytes, List.cons_append]

/-- What `characters` makes of any bytes, with the fuel it is given. -/
theorem characters_spec (n : Nat) {fuel : Nat} (out : List Char) (s : Bytes)
    (hfuel : s.length < fuel) :
    EndsAs ((characters fuel out).on n s)
      (fun v t => ∃ b cs, s = b ++ 0x22 :: t ∧ looseLiteral b cs ∧ v = String.ofList (out ++ cs))
      (Sinks s) := by
  induction fuel generalizing out s with
  | zero => exact absurd hfuel (by omega)
  | succ fuel ih =>
      rcases characters_cases n fuel out s with
        hmessage | ⟨t, rfl⟩ | ⟨b, c, t, rfl, hpiece, hrun⟩ | ⟨e, t, rfl, he⟩
      · exact .inl hmessage
      · rw [on_characters_quote]
        exact .ok ⟨[], [], rfl, .nil, by rw [List.append_nil]⟩
      · have hlength : t.length < fuel := by
          have hpos := hpiece.length_pos
          rw [List.length_append] at hfuel
          omega
        rw [hrun]
        apply (ih (out ++ [c]) t hlength).imp
        · rintro v u ⟨e, cs, rfl, he, rfl⟩
          exact ⟨b ++ e, c :: cs, by simp, .cons hpiece he, by simp⟩
        · rintro ⟨e, cs, x, u, rfl, he, hx⟩
          exact ⟨b ++ e, c :: cs, x, u, by simp, .cons hpiece he, hx⟩
      · have hrun : escape.on n (0x75 :: (e ++ t)) = .error .overflow :=
          on_unicodeEscape_underflow he n t
        have hround : (characters (fuel + 1) out).on n (0x5c :: 0x75 :: e ++ t) =
            .error .overflow := on_characters_escape.trans (on_bind_error hrun)
        exact .inr (.inr ⟨hround, [], [], e, t, rfl, .nil, he⟩)

/-- A closed literal is read. -/
theorem on_characters_closed {n fuel : Nat} {b t : Bytes} {cs : List Char}
    (h : looseLiteral b cs) (hfuel : cs.length < fuel) (out : List Char) :
    (characters fuel out).on n (b ++ 0x22 :: t) = .ok (String.ofList (out ++ cs), t) := by
  obtain ⟨k, rfl⟩ : ∃ k, fuel = k + 1 + cs.length := ⟨fuel - cs.length - 1, by omega⟩
  rw [on_characters h n (k + 1) out (fresh_cons (by decide)), on_characters_quote]

/-- A literal that sinks ends the reader in an underflow. -/
theorem on_characters_sinks {n fuel : Nat} {s : Bytes} (h : Sinks s) (hfuel : s.length < fuel)
    (out : List Char) : (characters fuel out).on n s = .error .overflow := by
  obtain ⟨b, cs, e, t, rfl, hb, he⟩ := h
  have hlength := hb.length_le
  obtain ⟨k, rfl⟩ : ∃ k, fuel = k + 1 + cs.length :=
    ⟨fuel - cs.length - 1, by simp at hfuel; omega⟩
  have hrun : escape.on n (0x75 :: (e ++ t)) = .error .overflow :=
    on_unicodeEscape_underflow he n t
  rw [List.append_assoc, List.cons_append,
    on_characters hb n (k + 1) out (fresh_cons (by decide))]
  exact on_characters_escape.trans (on_bind_error hrun)

end JsonParser

end TautShape.Tool
