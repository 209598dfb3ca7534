import TautShape.Crdt.TextParser
import TautShape.Lib.JsonGrammar
import TautShape.Lib.Fields
/-!
# What the text profile's parser accepts

The parser accepts exactly the texts of its dialect of JSON: RFC 8259 without numbers and
without repeated keys, in which a form feed counts as white space.  It is the form feed
that sets it apart from other readers.
-/

namespace TautShape.Crdt.Text

open TautShape.Lib TautShape.Lib.Utf8 TautShape.Lib.JsonGrammar

/-! ## The dialect -/

def IsPlain (c : Char) : Prop := 0x20 ≤ c.toNat

def literalOf : List UInt8 → List Char → Prop := Pieces IsPlain WellFormedEscape

/-- The scalars; numbers are not among them. -/
inductive Scalar : List UInt8 → Json → Prop
  | null : Scalar [0x6e, 0x75, 0x6c, 0x6c] .null
  | true : Scalar [0x74, 0x72, 0x75, 0x65] (.bool true)
  | false : Scalar [0x66, 0x61, 0x6c, 0x73, 0x65] (.bool false)

/-- No key repeats, and the value lists the fields by their keys. -/
def ObjectOf (fields : List (String × Json)) (value : Json) : Prop :=
  (fields.map Prod.fst).Nodup ∧ ∃ listed, value = .object listed ∧ Lists fields listed

def dialect (space : UInt8 → Prop) : Dialect Json where
  space := space
  literal := literalOf
  scalar := Scalar
  string := .string
  array := .array
  object := ObjectOf

/-- RFC 8259 without numbers and repeated keys. -/
def PayloadText : List UInt8 → Json → Prop := JsonGrammar.Text (dialect IsSpace)

abbrev lax : Dialect Json := dialect fun byte => IsSpace byte ∨ byte = 0x0c

def LaxText : List UInt8 → Json → Prop := JsonGrammar.Text lax

namespace Parser

/-! ## Steps of a parser -/

section steps

variable {α β : Type} {s s' : Bytes}

theorem run_bind_of_eq {p : Parser α} {f : α → Parser β} {a : α} (h : p.run s = some (a, s')) :
    (p >>= f).run s = (f a).run s' := by
  rw [StateT.run_bind, h]
  rfl

theorem run_bind_eq_some {p : Parser α} {f : α → Parser β} {r : β × Bytes} :
    (p >>= f).run s = some r ↔ ∃ a t, p.run s = some (a, t) ∧ (f a).run t = some r := by
  rw [StateT.run_bind, Option.bind_eq_bind, Option.bind_eq_some_iff]
  constructor
  · rintro ⟨⟨a, t⟩, hp, hf⟩
    exact ⟨a, t, hp, hf⟩
  · rintro ⟨a, t, hp, hf⟩
    exact ⟨(a, t), hp, hf⟩

theorem run_unless {t : Prop} [Decidable t] {f : Unit → Parser β} {r : β × Bytes} :
    (if t then failure >>= f else f ()).run s = some r ↔ ¬ t ∧ (f ()).run s = some r := by
  by_cases ht : t
  · simp [ht]
  · simp [ht]

@[simp] theorem run_failure : (failure : Parser α).run s = none := rfl

@[simp] theorem run_return (a : α) : (pure a : Parser α).run s = some (a, s) := rfl

@[simp] theorem run_get : (get : Parser Bytes).run s = some (s, s) := rfl

@[simp] theorem run_set (t : Bytes) : (set t : Parser PUnit).run s = some (.unit, t) := rfl

@[simp] theorem run_advance (count : Nat) : (advance count).run s = some ((), s.drop count) := rfl

@[simp] theorem run_peek : peek.run s = some (s.head?, s) := rfl

@[simp] theorem run_ws : ws.run s = some ((), s.dropWhile isAsciiWhitespace) := rfl

@[simp] theorem run_next_nil : next.run [] = none := rfl

@[simp] theorem run_next_cons (byte : UInt8) : next.run (byte :: s) = some (byte, s) := rfl

end steps

theorem run_next_eq_some {s s' : Bytes} {byte : UInt8} :
    next.run s = some (byte, s') ↔ s = byte :: s' := by
  cases s with
  | nil => simp
  | cons b rest => simp [Prod.ext_iff]

theorem run_take {s s' : Bytes} {byte : UInt8} :
    (take byte).run s = some ((), s') ↔ s.dropWhile isAsciiWhitespace = byte :: s' := by
  unfold take
  rw [run_bind_of_eq run_ws, run_bind_of_eq run_peek]
  cases s.dropWhile isAsciiWhitespace with
  | nil => simp
  | cons b rest =>
      by_cases hb : b = byte
      · simp [hb, Prod.ext_iff]
      · simp [hb]

/-! ## Escapes -/

theorem run_hexDigits_succ (count value : Nat) (byte : UInt8) (s : Bytes) :
    (hexDigits (count + 1) value).run (byte :: s) =
      (JsonGrammar.hexDigit byte).bind fun digit =>
        (hexDigits count (value * 16 + digit)).run s := by
  rw [hexDigits, run_bind_of_eq (run_next_cons byte)]
  cases JsonGrammar.hexDigit byte with
  | none => rfl
  | some digit => rfl

theorem run_hexDigits_nil (count value : Nat) : (hexDigits (count + 1) value).run [] = none := rfl

theorem run_hex4_cons (a b c d : UInt8) (s : Bytes) :
    hex4.run (a :: b :: c :: d :: s) = (fourDigits [a, b, c, d]).map fun n => (n, s) := by
  simp only [hex4, run_hexDigits_succ, fourDigits, Option.bind_eq_bind]
  cases JsonGrammar.hexDigit a <;> cases JsonGrammar.hexDigit b <;>
    cases JsonGrammar.hexDigit c <;> cases JsonGrammar.hexDigit d <;> simp [hexDigits]

theorem run_hex4 {s s' : Bytes} {n : Nat} :
    hex4.run s = some (n, s') ↔ ∃ b, s = b ++ s' ∧ fourDigits b = some n := by
  constructor
  · intro h
    rcases s with _ | ⟨a, _ | ⟨b, _ | ⟨c, _ | ⟨d, s⟩⟩⟩⟩
    case cons.cons.cons.cons =>
        rw [run_hex4_cons, Option.map_eq_some_iff] at h
        obtain ⟨m, hm, heq⟩ := h
        rw [Prod.mk.injEq] at heq
        obtain ⟨rfl, rfl⟩ := heq
        exact ⟨[a, b, c, d], rfl, hm⟩
    all_goals
      simp only [hex4, run_hexDigits_succ, run_hexDigits_nil, Option.bind_fun_none] at h
      exact absurd h (by simp)
  · rintro ⟨b, rfl, hb⟩
    have hlength := (fourDigits_spec hb).1
    obtain ⟨w, x, y, z, rfl⟩ := List.length_eq_four.mp hlength
    rw [List.cons_append, List.cons_append, List.cons_append, List.cons_append, List.nil_append,
      run_hex4_cons, hb]
    rfl

theorem run_charFromU32 {s s' : Bytes} {n : Nat} {c : Char} :
    (charFromU32 n).run s = some (c, s') ↔ n.isValidChar ∧ c = Char.ofNat n ∧ s = s' := by
  unfold charFromU32
  by_cases h : n.isValidChar
  · have hof : Char.ofNat n = Char.ofNatAux n h := by simp [Char.ofNat, h]
    simp [h, hof, Prod.ext_iff, eq_comm]
  · simp [h]

theorem shift_pairValue {high low : Nat} (hlow : 0xdc00 ≤ low) :
    0x10000 + ((high - 0xd800) <<< 10) + low - 0xdc00 = pairValue high low := by
  unfold pairValue
  rw [Nat.shiftLeft_eq]
  omega

theorem take_two {s : Bytes} {a b : UInt8} (h : s.take 2 = [a, b]) :
    s = a :: b :: s.drop 2 := by
  rw [← List.take_append_drop 2 s, h]
  rfl

theorem run_unicodeEscape_high {s s' t : Bytes} {high : Nat} {c : Char}
    (hhigh : hex4.run s = some (high, t)) (hge : 0xd800 ≤ high) (hle : high ≤ 0xdbff) :
    unicodeEscape.run s = some (c, s') ↔
      ∃ low u, t = 0x5c :: 0x75 :: u ∧ hex4.run u = some (low, s') ∧ IsLowSurrogate low ∧
        c = Char.ofNat (pairValue high low) := by
  unfold unicodeEscape
  rw [run_bind_of_eq hhigh, if_pos ⟨hge, hle⟩, run_bind_of_eq run_get, run_unless, not_not]
  constructor
  · rintro ⟨htake, hrest⟩
    rw [run_bind_of_eq (run_advance 2)] at hrest
    obtain ⟨low, u, hlow, hrest⟩ := run_bind_eq_some.mp hrest
    rw [run_unless, not_not] at hrest
    obtain ⟨hsurrogate, hrest⟩ := hrest
    rw [shift_pairValue hsurrogate.1] at hrest
    obtain ⟨-, hc, rfl⟩ := run_charFromU32.mp hrest
    exact ⟨low, t.drop 2, take_two htake, hlow, hsurrogate, hc⟩
  · rintro ⟨low, u, rfl, hlow, hsurrogate, hc⟩
    refine ⟨rfl, ?_⟩
    rw [run_bind_of_eq (run_advance 2)]
    apply run_bind_eq_some.mpr
    refine ⟨low, s', hlow, ?_⟩
    rw [run_unless, not_not]
    refine ⟨hsurrogate, ?_⟩
    rw [shift_pairValue hsurrogate.1]
    exact run_charFromU32.mpr ⟨isValidChar_pairValue hge hle hsurrogate, hc, rfl⟩

theorem run_unicodeEscape_other {s t : Bytes} {n : Nat} (hn : hex4.run s = some (n, t))
    (hother : ¬ (0xd800 ≤ n ∧ n ≤ 0xdbff)) :
    unicodeEscape.run s = (charFromU32 n).run t := by
  unfold unicodeEscape
  rw [run_bind_of_eq hn, if_neg hother]

theorem run_unicodeEscape {s s' : Bytes} {c : Char} :
    unicodeEscape.run s = some (c, s') ↔ ∃ b, s = b ++ s' ∧ WellFormedEscape b c := by
  constructor
  · intro h
    obtain ⟨n, t, hn, -⟩ := run_bind_eq_some.mp h
    by_cases hhigh : 0xd800 ≤ n ∧ n ≤ 0xdbff
    · obtain ⟨low, u, rfl, hlow, hsurrogate, hc⟩ :=
        (run_unicodeEscape_high hn hhigh.1 hhigh.2).mp h
      obtain ⟨b, rfl, hb⟩ := run_hex4.mp hn
      obtain ⟨e, rfl, he⟩ := run_hex4.mp hlow
      have hvalid := isValidChar_pairValue hhigh.1 hhigh.2 hsurrogate
      rw [hc]
      exact ⟨b ++ 0x5c :: 0x75 :: e, by simp, .pair hb he hhigh.1 hhigh.2 hsurrogate hvalid⟩
    · rw [run_unicodeEscape_other hn hhigh] at h
      obtain ⟨hvalid, rfl, rfl⟩ := run_charFromU32.mp h
      obtain ⟨b, rfl, hb⟩ := run_hex4.mp hn
      exact ⟨b, rfl, .unit hb hvalid⟩
  · rintro ⟨b, rfl, hb⟩
    cases hb with
    | @unit b n hunit hvalid =>
        have hn : hex4.run (b ++ s') = some (n, s') := run_hex4.mpr ⟨b, rfl, hunit⟩
        have hother : ¬ (0xd800 ≤ n ∧ n ≤ 0xdbff) := by
          unfold Nat.isValidChar at hvalid
          omega
        rw [run_unicodeEscape_other hn hother]
        exact run_charFromU32.mpr ⟨hvalid, rfl, rfl⟩
    | @pair b e high low hhigh hlow hge hle hcompletes hvalid =>
        have hn : hex4.run (b ++ 0x5c :: 0x75 :: e ++ s') =
            some (high, 0x5c :: 0x75 :: (e ++ s')) := run_hex4.mpr ⟨b, by simp, hhigh⟩
        apply (run_unicodeEscape_high hn hge hle).mpr
        exact ⟨low, e ++ s', rfl, run_hex4.mpr ⟨e, rfl, hlow⟩, hcompletes, rfl⟩

theorem run_escape {s s' : Bytes} {c : Char} :
    escape.run s = some (c, s') ↔
      (∃ byte, s = byte :: s' ∧ Short byte c) ∨
        ∃ b, s = 0x75 :: b ++ s' ∧ WellFormedEscape b c := by
  constructor
  · intro h
    obtain ⟨byte, t, hnext, hrest⟩ := run_bind_eq_some.mp h
    rw [run_next_eq_some] at hnext
    subst hnext
    split at hrest
    case h_9 =>
        right
        obtain ⟨b, rfl, hb⟩ := run_unicodeEscape.mp hrest
        exact ⟨b, rfl, hb⟩
    case h_10 => exact absurd hrest (by simp)
    all_goals
      left
      rw [run_return, Option.some_inj, Prod.mk.injEq] at hrest
      obtain ⟨rfl, rfl⟩ := hrest
      exact ⟨_, rfl, by constructor⟩
  · rintro (⟨byte, rfl, hshort⟩ | ⟨b, rfl, hb⟩)
    · cases hshort <;> rfl
    · exact run_unicodeEscape.mpr ⟨b, rfl, hb⟩

/-! ## Characters -/

theorem run_character {s s' : Bytes} {c : Char} :
    character.run s = some (c, s') ↔ Valid s ∧ s = encodeChar c ++ s' := by
  unfold character
  rw [run_bind_of_eq run_get]
  constructor
  · intro h
    split at h
    case h_1 => exact absurd h (by simp)
    case h_2 text htext =>
        have hs := eq_encode_of_fromUTF8 htext
        split at h
        case h_1 => exact absurd h (by simp)
        case h_2 character rest heq =>
            rw [run_bind_of_eq (run_advance _), run_return, Option.some_inj, Prod.mk.injEq] at h
            obtain ⟨rfl, hrest⟩ := h
            rw [heq, encode_cons] at hs
            rw [hs, ← length_encodeChar, List.drop_left] at hrest
            subst hrest
            exact ⟨⟨character :: rest, hs⟩, hs⟩
  · rintro ⟨hvalid, rfl⟩
    obtain ⟨cs, rfl⟩ := hvalid.of_encodeChar_append
    rw [← encode_cons, fromUTF8_encode]
    simp only [String.toList_ofList]
    rw [run_bind_of_eq (run_advance _), run_return, encode_cons, ← length_encodeChar,
      List.drop_left]

theorem ascii_plain_iff : ∀ byte : UInt8, byte < 0x80 →
    ((0x20 ≤ (Char.ofUInt8 byte).toNat ∧ Char.ofUInt8 byte ≠ '"' ∧ Char.ofUInt8 byte ≠ '\\') ↔
      (byte ≠ 0x22 ∧ byte ≠ 0x5c ∧ ¬ byte ≤ 0x1f)) := by
  decide +kernel

theorem high_bounds : ∀ byte : UInt8, ¬ byte ≤ 0x7f →
    0x80 ≤ byte ∧ byte ≠ 0x22 ∧ byte ≠ 0x5c ∧ ¬ byte ≤ 0x1f := by
  decide +kernel

theorem low_iff : ∀ byte : UInt8, byte ≤ 0x7f ↔ byte < 0x80 := by
  decide +kernel

/-- A plain character is one byte that the loop takes as it is, or begins above ASCII. -/
theorem plain_cases {c : Char} (hplain : IsPlain c) (hquote : c ≠ '"') (hbackslash : c ≠ '\\') :
    (∃ byte, encodeChar c = [byte] ∧ c = Char.ofUInt8 byte ∧ byte ≤ 0x7f ∧ byte ≠ 0x22 ∧
        byte ≠ 0x5c ∧ ¬ byte ≤ 0x1f) ∨
      ∃ byte rest, encodeChar c = byte :: rest ∧ ¬ byte ≤ 0x7f := by
  obtain ⟨byte, rest, hbytes, -, -⟩ := exists_encodeChar_eq_cons c
  by_cases hbyte : byte ≤ 0x7f
  · left
    have hlt := (low_iff byte).mp hbyte
    obtain ⟨rfl, rfl⟩ := encodeChar_eq_of_low hbytes hlt
    have hbounds := (ascii_plain_iff byte hlt).mp ⟨hplain, hquote, hbackslash⟩
    exact ⟨byte, hbytes, rfl, hbyte, hbounds⟩
  · right
    exact ⟨byte, rest, hbytes, hbyte⟩

theorem plain_of_high {c : Char} {byte : UInt8} {rest : Bytes}
    (hbytes : encodeChar c = byte :: rest) (hhigh : ¬ byte ≤ 0x7f) :
    IsPlain c ∧ c ≠ '"' ∧ c ≠ '\\' := by
  have hc : 0x80 ≤ c.toNat := by
    by_contra hlow
    have hlt : c.toNat < 0x80 := by omega
    rw [encodeChar_ascii hlt, List.cons.injEq] at hbytes
    have hbyte : byte.toNat = c.toNat := by
      rw [← hbytes.1]
      exact Nat.mod_eq_of_lt (Nat.lt_of_lt_of_le hlt (by decide))
    rw [low_iff, UInt8.lt_iff_toNat_lt, hbyte] at hhigh
    exact hhigh hlt
  refine ⟨?_, ?_, ?_⟩
  · unfold IsPlain
    omega
  · rintro rfl
    exact absurd hc (by decide)
  · rintro rfl
    exact absurd hc (by decide)

/-! ## Literals -/

section round

variable {fuel : Nat} {output : List Char} {s : Bytes} {byte : UInt8}

theorem run_characters_quote :
    (characters (fuel + 1) output).run (0x22 :: s) = some (String.ofList output, s) := rfl

theorem run_characters_escape :
    (characters (fuel + 1) output).run (0x5c :: s) =
      (escape >>= fun c => characters fuel (output ++ [c])).run s := rfl

theorem run_characters_ascii (hlow : byte ≤ 0x7f) (hquote : byte ≠ 0x22)
    (hbackslash : byte ≠ 0x5c) (hcontrol : ¬ byte ≤ 0x1f) :
    (characters (fuel + 1) output).run (byte :: s) =
      (characters fuel (output ++ [Char.ofUInt8 byte])).run s := by
  rw [characters, run_bind_of_eq run_get, run_bind_of_eq (run_next_cons byte), if_neg hquote,
    if_neg hbackslash, if_neg hcontrol, if_pos hlow]

theorem run_characters_high (hhigh : ¬ byte ≤ 0x7f) :
    (characters (fuel + 1) output).run (byte :: s) =
      (character >>= fun c => characters fuel (output ++ [c])).run (byte :: s) := by
  obtain ⟨-, hquote, hbackslash, hcontrol⟩ := high_bounds byte hhigh
  rw [characters, run_bind_of_eq run_get, run_bind_of_eq (run_next_cons byte), if_neg hquote,
    if_neg hbackslash, if_neg hcontrol, if_neg hhigh, run_bind_of_eq (run_set _)]

theorem run_characters_control (hquote : byte ≠ 0x22) (hbackslash : byte ≠ 0x5c)
    (hcontrol : byte ≤ 0x1f) : (characters (fuel + 1) output).run (byte :: s) = none := by
  rw [characters, run_bind_of_eq run_get, run_bind_of_eq (run_next_cons byte), if_neg hquote,
    if_neg hbackslash, if_pos hcontrol, run_failure]

end round

theorem characters_cases {fuel : Nat} {output : List Char} {s s' : Bytes} {value : String}
    (hround : (characters (fuel + 1) output).run s = some (value, s')) :
    (s = 0x22 :: s' ∧ value = String.ofList output) ∨
      ∃ b c t, s = b ++ t ∧ Piece IsPlain WellFormedEscape b c ∧
        (characters fuel (output ++ [c])).run t = some (value, s') := by
  cases s with
  | nil => exact absurd hround (by simp [characters])
  | cons byte t =>
      by_cases hquote : byte = 0x22
      · left
        subst hquote
        rw [run_characters_quote, Option.some_inj, Prod.mk.injEq] at hround
        exact ⟨by rw [hround.2], hround.1.symm⟩
      by_cases hbackslash : byte = 0x5c
      · right
        subst hbackslash
        rw [run_characters_escape] at hround
        obtain ⟨c, u, hescape, hrest⟩ := run_bind_eq_some.mp hround
        rcases run_escape.mp hescape with ⟨byte, rfl, hshort⟩ | ⟨b, rfl, hb⟩
        · exact ⟨[0x5c, byte], c, u, rfl, .short hshort, hrest⟩
        · exact ⟨0x5c :: 0x75 :: b, c, u, rfl, .unicode hb, hrest⟩
      by_cases hcontrol : byte ≤ 0x1f
      · rw [run_characters_control hquote hbackslash hcontrol] at hround
        exact absurd hround (by simp)
      right
      by_cases hlow : byte ≤ 0x7f
      · rw [run_characters_ascii hlow hquote hbackslash hcontrol] at hround
        have hlt := (low_iff byte).mp hlow
        obtain ⟨hplain, hne, hne'⟩ := (ascii_plain_iff byte hlt).mpr ⟨hquote, hbackslash, hcontrol⟩
        have hpiece : Piece IsPlain WellFormedEscape _ _ := .plain hplain hne hne'
        rw [encodeChar_ofUInt8 hlt] at hpiece
        exact ⟨[byte], Char.ofUInt8 byte, t, rfl, hpiece, hround⟩
      · rw [run_characters_high hlow] at hround
        obtain ⟨c, u, hcharacter, hrest⟩ := run_bind_eq_some.mp hround
        obtain ⟨-, hbytes⟩ := run_character.mp hcharacter
        obtain ⟨b, bs, hc, -, -⟩ := exists_encodeChar_eq_cons c
        have hfirst : byte = b := by
          rw [hc, List.cons_append, List.cons.injEq] at hbytes
          exact hbytes.1
        obtain ⟨hplain, hne, hne'⟩ := plain_of_high hc (hfirst ▸ hlow)
        exact ⟨encodeChar c, c, u, hbytes, .plain hplain hne hne', hrest⟩

theorem run_characters_piece {fuel : Nat} {output : List Char} {b s : Bytes} {c : Char}
    (hpiece : Piece IsPlain WellFormedEscape b c) (hvalid : Valid (b ++ s)) :
    (characters (fuel + 1) output).run (b ++ s) = (characters fuel (output ++ [c])).run s := by
  cases hpiece with
  | @short byte _ hshort =>
      have hescape : escape.run (byte :: s) = some (c, s) :=
        run_escape.mpr (.inl ⟨byte, rfl, hshort⟩)
      exact run_characters_escape.trans (run_bind_of_eq hescape)
  | @unicode e _ hunicode =>
      have hescape : escape.run (0x75 :: e ++ s) = some (c, s) :=
        run_escape.mpr (.inr ⟨e, rfl, hunicode⟩)
      exact run_characters_escape.trans (run_bind_of_eq hescape)
  | plain hplain hquote hbackslash =>
      rcases plain_cases hplain hquote hbackslash with
        ⟨byte, hbytes, rfl, hlow, hquote, hbackslash, hcontrol⟩ | ⟨byte, rest, hbytes, hhigh⟩
      · rw [hbytes]
        exact run_characters_ascii hlow hquote hbackslash hcontrol
      · have hcharacter : character.run (encodeChar c ++ s) = some (c, s) :=
          run_character.mpr ⟨hvalid, rfl⟩
        rw [hbytes] at hcharacter ⊢
        exact (run_characters_high hhigh).trans (run_bind_of_eq hcharacter)

theorem valid_literal {b : Bytes} {cs : List Char} (h : literalOf b cs) : Valid b :=
  Pieces.valid (fun _ _ hescape byte hmem => (hescape.ascii byte hmem).2) h

theorem valid_cons {byte : UInt8} {s : Bytes} (hbyte : byte < 0x80) (hs : Valid s) :
    Valid (byte :: s) := by
  have hone : Valid [byte] := valid_of_ascii (by simpa using hbyte)
  exact hone.append hs

theorem run_characters {b s : Bytes} {cs : List Char} (h : literalOf b cs) (hs : Valid s)
    {fuel : Nat} (hfuel : b.length < fuel) (output : List Char) :
    (characters fuel output).run (b ++ 0x22 :: s) = some (String.ofList (output ++ cs), s) := by
  induction h generalizing fuel output with
  | nil =>
      obtain ⟨fuel, rfl⟩ := Nat.exists_eq_add_one.mpr hfuel
      rw [List.nil_append, run_characters_quote, List.append_nil]
  | @cons b rest c cs hpiece hrest ih =>
      obtain ⟨fuel, rfl⟩ := Nat.exists_eq_add_one.mpr (Nat.zero_lt_of_lt hfuel)
      have hvalid : Valid (b ++ (rest ++ 0x22 :: s)) := by
        rw [← List.append_assoc]
        exact (valid_literal (.cons hpiece hrest)).append (valid_cons (by decide) hs)
      have hlength : rest.length < fuel := by
        have hpos : 0 < b.length := hpiece.length_pos
        rw [List.length_append] at hfuel
        omega
      rw [List.append_assoc, run_characters_piece hpiece hvalid, ih hlength, List.append_assoc]
      rfl

theorem characters_sound {fuel : Nat} {output : List Char} {s s' : Bytes} {value : String}
    (h : (characters fuel output).run s = some (value, s')) :
    ∃ b cs, s = b ++ 0x22 :: s' ∧ literalOf b cs ∧ value = String.ofList (output ++ cs) := by
  induction fuel generalizing output s with
  | zero => exact absurd h (by simp [characters])
  | succ fuel ih =>
      rcases characters_cases h with ⟨rfl, rfl⟩ | ⟨b, c, t, rfl, hpiece, hrest⟩
      · exact ⟨[], [], rfl, .nil, by simp⟩
      · obtain ⟨e, cs, rfl, hliteral, rfl⟩ := ih hrest
        exact ⟨b ++ e, c :: cs, by simp, .cons hpiece hliteral, by simp⟩

/-! ## White space -/

theorem isAsciiWhitespace_iff {byte : UInt8} :
    isAsciiWhitespace byte = true ↔ IsSpace byte ∨ byte = 0x0c := by
  simp only [isAsciiWhitespace, IsSpace, Bool.or_eq_true, decide_eq_true_eq]
  tauto

theorem spaces_takeWhile (s : Bytes) : Spaces lax (s.takeWhile isAsciiWhitespace) := by
  intro byte hmem
  exact isAsciiWhitespace_iff.mp (List.mem_takeWhile_imp hmem)

def Dark (s : Bytes) : Prop := ∀ byte ∈ s.head?, isAsciiWhitespace byte = false

theorem dark_cons {byte : UInt8} {s : Bytes} (h : isAsciiWhitespace byte = false) :
    Dark (byte :: s) := by
  simpa [Dark] using h

theorem dropWhile_spaces {w s : Bytes} (hw : Spaces lax w) (hs : Dark s) :
    (w ++ s).dropWhile isAsciiWhitespace = s := by
  rw [List.dropWhile_append_of_pos fun byte hmem => isAsciiWhitespace_iff.mpr (hw byte hmem)]
  cases s with
  | nil => rfl
  | cons byte s =>
      have hbyte : isAsciiWhitespace byte = false := hs byte (by simp)
      simp [hbyte]

theorem run_take_spaces {w s : Bytes} {byte : UInt8} (hw : Spaces lax w)
    (hbyte : isAsciiWhitespace byte = false) : (take byte).run (w ++ byte :: s) = some ((), s) :=
  run_take.mpr (dropWhile_spaces hw (dark_cons hbyte))

theorem split_spaces (s : Bytes) :
    ∃ w t, s.dropWhile isAsciiWhitespace = t ∧ s = w ++ t ∧ Spaces lax w :=
  ⟨s.takeWhile isAsciiWhitespace, s.dropWhile isAsciiWhitespace, rfl,
    List.takeWhile_append_dropWhile.symm, spaces_takeWhile s⟩

theorem exists_spaces {s t : Bytes} (h : s.dropWhile isAsciiWhitespace = t) :
    ∃ w, s = w ++ t ∧ Spaces lax w := by
  obtain ⟨w, r, rfl, hs, hw⟩ := split_spaces s
  exact ⟨w, by rw [← h]; exact hs, hw⟩

theorem run_stringValue {w b s : Bytes} {cs : List Char} (hw : Spaces lax w)
    (h : literalOf b cs) (hs : Valid s) :
    stringValue.run (w ++ 0x22 :: b ++ 0x22 :: s) = some (String.ofList cs, s) := by
  have htake : (take 0x22).run (w ++ 0x22 :: b ++ 0x22 :: s) = some ((), b ++ 0x22 :: s) := by
    rw [List.append_assoc]
    exact run_take_spaces hw (by decide)
  unfold stringValue
  rw [run_bind_of_eq htake, run_bind_of_eq run_get]
  exact run_characters h hs (by simp) []

theorem stringValue_sound {s s' : Bytes} {value : String}
    (h : stringValue.run s = some (value, s')) :
    ∃ w b cs, s = w ++ 0x22 :: b ++ 0x22 :: s' ∧ Spaces lax w ∧ literalOf b cs ∧
      value = String.ofList cs := by
  obtain ⟨_, t, htake, hrest⟩ := run_bind_eq_some.mp h
  rw [run_bind_of_eq run_get] at hrest
  obtain ⟨b, cs, rfl, hliteral, rfl⟩ := characters_sound hrest
  obtain ⟨w, rfl, hw⟩ := exists_spaces (run_take.mp htake)
  exact ⟨w, b, cs, by simp, hw, hliteral, rfl⟩

end Parser

end TautShape.Crdt.Text
