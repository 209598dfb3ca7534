import TautShape.Log.Types
import TautShape.Lib.Numerals
import TautShape.Lib.Utf8
/-!
# Base64

The two base64 functions of `json.rs`.  An encoding regroups the bits of its bytes, padded
with zeros to a whole number of symbols.  The decoder regroups the bits of its symbols and
drops what does not fill a byte, whether those are padding bits or not.
-/

namespace TautShape.Tool.Base64

open TautShape.Lib TautShape.Lib.Utf8
open TautShape.Log (Bytes)

/-! ## The encoder -/

/-- `B64`, the standard alphabet. -/
def b64 : List Char :=
  "ABCDEFGHIJKLMNOPQRSTUVWXYZabcdefghijklmnopqrstuvwxyz0123456789+/".toList

theorem length_b64 : b64.length = 64 := by decide

theorem toNat_and_0x3f (n : UInt32) : (n &&& 0x3f).toNat = n.toNat % 64 := by
  rw [UInt32.toNat_and]
  exact Nat.and_two_pow_sub_one_eq_mod n.toNat 6

theorem index_lt (n : UInt32) : (n &&& 0x3f).toNat < b64.length := by
  rw [toNat_and_0x3f, length_b64]
  omega

/-- `B64[(n & 0x3f) as usize] as char` -/
def symbol (n : UInt32) : Char := b64.get ⟨(n &&& 0x3f).toNat, index_lt n⟩

/-- `data.chunks(3)` -/
def chunks : Bytes → List Bytes
  | a :: b :: c :: rest => [a, b, c] :: chunks rest
  | [] => []
  | chunk => [chunk]

/-- The body of the loop; a chunk is not empty. -/
def encodeChunk (chunk : Bytes) : List Char :=
  let n : UInt32 := (chunk.getD 0 0).toUInt32 <<< 16 ||| (chunk.getD 1 0).toUInt32 <<< 8 |||
    (chunk.getD 2 0).toUInt32
  [symbol (n >>> 18), symbol (n >>> 12),
    if chunk.length > 1 then symbol (n >>> 6) else '=',
    if chunk.length > 2 then symbol n else '=']

def base64Encode (data : Bytes) : String := String.ofList ((chunks data).flatMap encodeChunk)

/-! ## The decoder -/

def isAsciiWhitespace (byte : UInt8) : Bool :=
  byte = 0x20 || byte = 0x09 || byte = 0x0a || byte = 0x0c || byte = 0x0d

def val (c : UInt8) : Option UInt32 :=
  if 0x41 ≤ c ∧ c ≤ 0x5a then some (c - 0x41).toUInt32
  else if 0x61 ≤ c ∧ c ≤ 0x7a then some (c - 0x61 + 26).toUInt32
  else if 0x30 ≤ c ∧ c ≤ 0x39 then some (c - 0x30 + 52).toUInt32
  else if c = 0x2b then some 62
  else if c = 0x2f then some 63
  else none

structure Decoder where
  acc : UInt32
  nbits : UInt32
  out : Bytes

def isSkipped (b : UInt8) : Bool := b = 0x3d || isAsciiWhitespace b

/-- The body of the loop.  The accumulator is never masked: what is shifted out is lost. -/
def decodeByte (d : Decoder) (b : UInt8) : Option Decoder :=
  if isSkipped b then some d
  else (val b).map fun v =>
    let acc := d.acc <<< 6 ||| v
    let nbits := d.nbits + 6
    if 8 ≤ nbits then
      ⟨acc, nbits - 8, d.out ++ [((acc >>> (nbits - 8)) &&& 0xff).toUInt8]⟩
    else ⟨acc, nbits, d.out⟩

def base64Decode (s : String) : Option Bytes :=
  (s.toUTF8.data.toList.foldlM decodeByte ⟨0, 0, []⟩).map Decoder.out

example : base64Encode [0x68, 0x65, 0x6c, 0x6c, 0x6f] = "aGVsbG8=" := by decide +kernel

/-! ## The table -/

def letter (i : Nat) : Char := b64.getD i '='

theorem symbol_eq (n : UInt32) : symbol n = letter (n.toNat % 64) := by
  have hlt := index_lt n
  have hindex := toNat_and_0x3f n
  unfold symbol letter
  rw [← hindex, List.getD_eq_getElem _ _ hlt, List.get_eq_getElem]

theorem val_letter : ∀ i < 64, val (letter i).toUInt8 = some (UInt32.ofNat i) := by
  decide +kernel

theorem letter_ascii : ∀ i < 64, (letter i).toNat < 0x80 := by decide +kernel

theorem not_isSkipped_letter : ∀ i < 64, isSkipped (letter i).toUInt8 = false := by
  decide +kernel

theorem idxOf_letter : ∀ i < 64, b64.idxOf (letter i) = i := by decide +kernel

theorem letter_of_val : ∀ b : UInt8,
    (val b).all fun v => decide (v.toNat < 64 ∧ letter v.toNat = Char.ofUInt8 b) := by
  decide +kernel

theorem letter_mem {i : Nat} (hi : i < 64) : letter i ∈ b64 := by
  have hlt : i < b64.length := by rw [length_b64]; exact hi
  unfold letter
  rw [List.getD_eq_getElem _ _ hlt]
  exact List.getElem_mem hlt

theorem exists_letter {c : Char} (hc : c ∈ b64) : ∃ i < 64, letter i = c := by
  have hlt : b64.idxOf c < b64.length := List.idxOf_lt_length_iff.mpr hc
  refine ⟨b64.idxOf c, length_b64 ▸ hlt, ?_⟩
  unfold letter
  rw [List.getD_eq_getElem _ _ hlt]
  exact List.getElem_idxOf hlt

/-! ## A chunk -/

/-- The number that the encoder cuts into symbols. -/
theorem toNat_join (a b c : UInt8) :
    (a.toUInt32 <<< 16 ||| b.toUInt32 <<< 8 ||| c.toUInt32).toNat =
      2 ^ 16 * a.toNat + 2 ^ 8 * b.toNat + c.toNat := by
  have ha := a.toNat_lt
  have hb := b.toNat_lt
  have hc := c.toNat_lt
  have hshift16 : (a.toUInt32 <<< 16).toNat = 2 ^ 16 * a.toNat := by
    rw [UInt32.toNat_shiftLeft, UInt8.toNat_toUInt32, Nat.shiftLeft_eq]
    change a.toNat * 2 ^ 16 % 2 ^ 32 = _
    omega
  have hshift8 : (b.toUInt32 <<< 8).toNat = 2 ^ 8 * b.toNat := by
    rw [UInt32.toNat_shiftLeft, UInt8.toNat_toUInt32, Nat.shiftLeft_eq]
    change b.toNat * 2 ^ 8 % 2 ^ 32 = _
    omega
  have hhigh : 2 ^ 16 * a.toNat ||| 2 ^ 8 * b.toNat = 2 ^ 8 * (2 ^ 8 * a.toNat + b.toNat) := by
    rw [← Nat.two_pow_add_eq_or_of_lt (by omega)]
    omega
  rw [UInt32.toNat_or, UInt32.toNat_or, hshift16, hshift8, UInt8.toNat_toUInt32, hhigh,
    ← Nat.two_pow_add_eq_or_of_lt (by omega)]
  omega

theorem symbol_shiftRight (n k : UInt32) (hk : k.toNat < 32) :
    symbol (n >>> k) = letter (n.toNat / 2 ^ k.toNat % 64) := by
  rw [symbol_eq, UInt32.toNat_shiftRight, Nat.shiftRight_eq_div_pow, Nat.mod_eq_of_lt hk]

/-- The values of the symbols of a chunk of three bytes, a missing byte being zero. -/
def groups (a b c : Nat) : List Nat :=
  [a / 4, a % 4 * 16 + b / 16, b % 16 * 4 + c / 64, c % 64]

/-- The symbols of a chunk before the padding takes the place of the last ones. -/
theorem symbols_join (a b c : UInt8) :
    let n := a.toUInt32 <<< 16 ||| b.toUInt32 <<< 8 ||| c.toUInt32
    [symbol (n >>> 18), symbol (n >>> 12), symbol (n >>> 6), symbol n] =
      (groups a.toNat b.toNat c.toNat).map letter := by
  intro n
  have hn : n.toNat = 2 ^ 16 * a.toNat + 2 ^ 8 * b.toNat + c.toNat := toNat_join a b c
  have ha := a.toNat_lt
  have hb := b.toNat_lt
  have hc := c.toNat_lt
  have h18 : n.toNat / 2 ^ 18 % 64 = a.toNat / 4 := by omega
  have h12 : n.toNat / 2 ^ 12 % 64 = a.toNat % 4 * 16 + b.toNat / 16 := by omega
  have h6 : n.toNat / 2 ^ 6 % 64 = b.toNat % 16 * 4 + c.toNat / 64 := by omega
  have h0 : n.toNat % 64 = c.toNat % 64 := by omega
  rw [symbol_shiftRight n 18 (by decide), symbol_shiftRight n 12 (by decide),
    symbol_shiftRight n 6 (by decide), symbol_eq]
  change [letter (n.toNat / 2 ^ 18 % 64), letter (n.toNat / 2 ^ 12 % 64),
    letter (n.toNat / 2 ^ 6 % 64), letter (n.toNat % 64)] = _
  rw [h18, h12, h6, h0]
  rfl

theorem groups_lt {a b c : Nat} (ha : a < 256) (hb : b < 256) (hc : c < 256) :
    ∀ x ∈ groups a b c, x < 2 ^ 6 := by
  simp [groups]
  omega

theorem regroups_three {a b c : Nat} (ha : a < 256) (hb : b < 256) (hc : c < 256) :
    Regroups 6 8 (groups a b c) [a, b, c] 0 0 where
  left_lt := groups_lt ha hb hc
  right_lt := by simp [ha, hb, hc]
  length_eq := rfl
  value_eq := by
    simp [groups, numeral, Nat.ofDigits]
    omega
  rest_lt := by decide

theorem regroups_two {a b : Nat} (ha : a < 256) (hb : b < 256) :
    Regroups 6 8 ((groups a b 0).take 3) [a, b] 2 0 where
  left_lt := fun x hx => groups_lt ha hb (by decide) x (List.mem_of_mem_take hx)
  right_lt := by simp [ha, hb]
  length_eq := rfl
  value_eq := by
    simp [groups, numeral, Nat.ofDigits]
    omega
  rest_lt := by decide

theorem regroups_one {a : Nat} (ha : a < 256) :
    Regroups 6 8 ((groups a 0 0).take 2) [a] 4 0 where
  left_lt := fun x hx => groups_lt ha (by decide) (by decide) x (List.mem_of_mem_take hx)
  right_lt := by simp [ha]
  length_eq := rfl
  value_eq := by
    simp [groups, numeral, Nat.ofDigits]
    omega
  rest_lt := by decide

/-! ## What an encoding is -/

def unpadded (s : String) : List Char := s.toList.filter (· ≠ '=')

def isPadding (c : Char) : Bool :=
  c = '=' || c = ' ' || c = '\t' || c = '\n' || c = '\x0c' || c = '\r'

def stripped (s : String) : List Char := s.toList.filter fun c => !isPadding c

theorem encodeChunk_three (a b c : UInt8) :
    encodeChunk [a, b, c] = (groups a.toNat b.toNat c.toNat).map letter :=
  symbols_join a b c

theorem encodeChunk_two (a b : UInt8) :
    encodeChunk [a, b] = ((groups a.toNat b.toNat 0).take 3).map letter ++ ['='] := by
  have hsymbols := congrArg (List.take 3) (symbols_join a b 0)
  rw [List.map_take]
  exact congrArg (· ++ ['=']) hsymbols

theorem encodeChunk_one (a : UInt8) :
    encodeChunk [a] = ((groups a.toNat 0 0).take 2).map letter ++ ['=', '='] := by
  have hsymbols := congrArg (List.take 2) (symbols_join a 0 0)
  rw [List.map_take]
  exact congrArg (· ++ ['=', '=']) hsymbols

/-- The symbols of an encoding regroup its bytes, and the bits left over are zero. -/
theorem exists_encoding (data : Bytes) :
    ∃ xs spare, Regroups 6 8 xs (data.map UInt8.toNat) spare 0 ∧ spare < 6 ∧
      ∃ pad, (base64Encode data).toList = xs.map letter ++ List.replicate pad '=' := by
  unfold base64Encode
  rw [String.toList_ofList]
  induction data using chunks.induct with
  | case1 a b c rest ih =>
      obtain ⟨xs, spare, h, hspare, pad, hpad⟩ := ih
      have hblock := regroups_three a.toNat_lt b.toNat_lt c.toNat_lt
      refine ⟨groups a.toNat b.toNat c.toNat ++ xs, spare, hblock.append h, hspare, pad, ?_⟩
      rw [chunks, List.flatMap_cons, encodeChunk_three, hpad, List.map_append,
        List.append_assoc]
  | case2 => exact ⟨[], 0, Regroups.nil 6 8, by decide, 0, rfl⟩
  | case3 chunk hthree hnil =>
      cases chunk with
      | nil => exact absurd rfl hnil
      | cons a rest =>
          cases rest with
          | nil =>
              refine ⟨_, 4, regroups_one a.toNat_lt, by decide, 2, ?_⟩
              change List.flatMap encodeChunk [[a]] = _
              rw [List.flatMap_singleton, encodeChunk_one]
              rfl
          | cons b more =>
              cases more with
              | nil =>
                  refine ⟨_, 2, regroups_two a.toNat_lt b.toNat_lt, by decide, 1, ?_⟩
                  change List.flatMap encodeChunk [[a, b]] = _
                  rw [List.flatMap_singleton, encodeChunk_two]
                  rfl
              | cons c rest => exact absurd rfl (hthree a b c rest)

/-! ## What the decoder reads -/

theorem isSkipped_ofUInt8 : ∀ b : UInt8, isPadding (Char.ofUInt8 b) = isSkipped b := by
  decide +kernel

theorem isSkipped_ascii : ∀ b : UInt8, isSkipped b → b < 0x80 := by decide +kernel

theorem ascii_of_isPadding {c : Char} (hc : isPadding c) : c.toNat < 0x80 := by
  unfold isPadding at hc
  simp only [Bool.or_eq_true, decide_eq_true_eq] at hc
  rcases hc with ((((rfl | rfl) | rfl) | rfl) | rfl) | rfl <;> decide

theorem isSkipped_of_mem {c : Char} {b : UInt8} (hb : b ∈ encodeChar c) :
    isSkipped b = isPadding c := by
  cases hskip : isSkipped b with
  | true =>
      have hc := eq_ofUInt8_of_mem hb (isSkipped_ascii b hskip)
      rw [hc, isSkipped_ofUInt8, hskip]
  | false =>
      cases hpad : isPadding c with
      | false => rfl
      | true =>
          have hlow := ascii_of_isPadding hpad
          have hchar : Char.ofUInt8 c.toUInt8 = c := by
            apply Char.toNat_inj.mp
            rw [toNat_ofUInt8]
            change c.toNat % 256 = c.toNat
            omega
          rw [encodeChar_ascii hlow, List.mem_singleton] at hb
          rw [hb, ← isSkipped_ofUInt8, hchar, hpad] at hskip
          exact absurd hskip (by decide)

theorem filter_encode (cs : List Char) :
    (encode cs).filter (fun b => !isSkipped b) = encode (cs.filter fun c => !isPadding c) := by
  induction cs with
  | nil => rfl
  | cons c cs ih =>
      rw [encode_cons, List.filter_append, ih]
      cases hpad : isPadding c with
      | true =>
          have hnone : (encodeChar c).filter (fun b => !isSkipped b) = [] := by
            rw [List.filter_eq_nil_iff]
            intro b hb
            rw [isSkipped_of_mem hb, hpad]
            decide
          rw [hnone, List.filter_cons_of_neg (by simp [hpad]), List.nil_append]
      | false =>
          have hall : (encodeChar c).filter (fun b => !isSkipped b) = encodeChar c := by
            rw [List.filter_eq_self]
            intro b hb
            rw [isSkipped_of_mem hb, hpad]
            decide
          rw [hall, List.filter_cons_of_pos (by simp [hpad]), encode_cons]

theorem foldlM_filter (d : Decoder) (bs : Bytes) :
    bs.foldlM decodeByte d = (bs.filter fun b => !isSkipped b).foldlM decodeByte d := by
  induction bs generalizing d with
  | nil => rfl
  | cons b bs ih =>
      cases hskip : isSkipped b with
      | true =>
          have hstep : decodeByte d b = some d := if_pos hskip
          rw [List.foldlM_cons, hstep, List.filter_cons_of_neg (by simp [hskip])]
          exact ih d
      | false =>
          rw [List.filter_cons_of_pos (by simp [hskip]), List.foldlM_cons, List.foldlM_cons]
          congr 1
          funext d'
          exact ih d'

theorem base64Decode_eq (s : String) :
    base64Decode s = ((encode (stripped s)).foldlM decodeByte ⟨0, 0, []⟩).map Decoder.out := by
  unfold base64Decode stripped
  rw [data_toUTF8, foldlM_filter, filter_encode]

/-! ## The loop -/

/-- The variables after symbols with the values `xs`: the bits left over are the last ones
of the accumulator. -/
structure Decoder.Holds (d : Decoder) (xs : List Nat) : Prop where
  regroups : Regroups 6 8 xs (d.out.map UInt8.toNat) d.nbits.toNat
    (d.acc.toNat % 2 ^ d.nbits.toNat)
  nbits_lt : d.nbits.toNat < 8

theorem toNat_shift_or (acc v : UInt32) (hv : v.toNat < 64) :
    (acc <<< 6 ||| v).toNat = 2 ^ 6 * (acc.toNat % 2 ^ 26) + v.toNat := by
  have hshift : (acc <<< 6).toNat = 2 ^ 6 * (acc.toNat % 2 ^ 26) := by
    rw [UInt32.toNat_shiftLeft, Nat.shiftLeft_eq]
    change acc.toNat * 2 ^ 6 % 2 ^ 32 = _
    omega
  rw [UInt32.toNat_or, hshift, ← Nat.two_pow_add_eq_or_of_lt hv]

/-- Fewer than 26 bits are wanted of an accumulator, and they survive the shift. -/
theorem toNat_shift_or_mod (acc v : UInt32) (hv : v.toNat < 64) {n : Nat} (hn : n ≤ 26) :
    (acc <<< 6 ||| v).toNat % 2 ^ (n + 6) = acc.toNat % 2 ^ n * 2 ^ 6 + v.toNat := by
  have hpow : 2 ^ (n + 6) = 2 ^ 6 * 2 ^ n := by rw [Nat.pow_add, Nat.mul_comm]
  have hlow : (2 ^ 6 * (acc.toNat % 2 ^ 26) + v.toNat) % 2 ^ 6 = v.toNat := by omega
  have hhigh : (2 ^ 6 * (acc.toNat % 2 ^ 26) + v.toNat) / 2 ^ 6 = acc.toNat % 2 ^ 26 := by omega
  rw [toNat_shift_or acc v hv, hpow, Nat.mod_mul, hlow, hhigh,
    Nat.mod_mod_of_dvd _ (Nat.pow_dvd_pow 2 hn)]
  omega

theorem toNat_byte (acc k : UInt32) (hk : k.toNat < 32) :
    ((acc >>> k) &&& 0xff).toUInt8.toNat = acc.toNat % 2 ^ (k.toNat + 8) / 2 ^ k.toNat := by
  have hmask : ((acc >>> k) &&& 0xff).toNat = acc.toNat / 2 ^ k.toNat % 2 ^ 8 := by
    rw [UInt32.toNat_and, UInt32.toNat_shiftRight, Nat.mod_eq_of_lt hk,
      Nat.shiftRight_eq_div_pow]
    exact Nat.and_two_pow_sub_one_eq_mod _ 8
  rw [UInt32.toNat_toUInt8, hmask, Nat.mod_mod, Nat.pow_add, Nat.mod_mul_right_div_self]

namespace Decoder

variable {d : Decoder} {xs : List Nat}

theorem holds_init : Holds ⟨0, 0, []⟩ [] where
  regroups := Regroups.nil 6 8
  nbits_lt := by decide

theorem Holds.decodeByte (h : d.Holds xs) {b : UInt8} {v : UInt32} (hskip : isSkipped b = false)
    (hval : val b = some v) (hv : v.toNat < 64) :
    ∃ d', decodeByte d b = some d' ∧ d'.Holds (xs ++ [v.toNat]) := by
  have hnbits := h.nbits_lt
  have hsum : (d.nbits + 6).toNat = d.nbits.toNat + 6 := by
    rw [UInt32.toNat_add]
    change (d.nbits.toNat + 6) % 2 ^ 32 = _
    omega
  have htake := h.regroups.take (x := v.toNat) hv
  rw [← toNat_shift_or_mod d.acc v hv (by omega)] at htake
  unfold Base64.decodeByte
  rw [hskip, hval, if_neg (by decide), Option.map_some]
  dsimp only
  by_cases hfull : 8 ≤ d.nbits + 6
  · have hge : 8 ≤ d.nbits.toNat + 6 := by
      rw [UInt32.le_iff_toNat_le, hsum] at hfull
      exact hfull
    have hdiff : (d.nbits + 6 - 8).toNat = d.nbits.toNat + 6 - 8 := by
      rw [UInt32.toNat_sub_of_le _ _ hfull, hsum]
      rfl
    have hk : (d.nbits + 6 - 8).toNat + 8 = d.nbits.toNat + 6 := by omega
    rw [← hk] at htake
    have hgive := htake.give
    rw [Nat.mod_mod_of_dvd _ (Nat.pow_dvd_pow 2 (Nat.le_add_right _ 8)),
      ← toNat_byte _ _ (by omega)] at hgive
    rw [if_pos hfull]
    refine ⟨_, rfl, ?_, ?_⟩
    · rw [List.map_append]
      exact hgive
    · change (d.nbits + 6 - 8).toNat < 8
      omega
  · have hlt : d.nbits.toNat + 6 < 8 := by
      rw [UInt32.le_iff_toNat_le, hsum] at hfull
      exact Nat.lt_of_not_le hfull
    rw [← hsum] at htake hlt
    rw [if_neg hfull]
    exact ⟨_, rfl, htake, hlt⟩

end Decoder

/-! ## Texts in the alphabet -/

theorem encode_letters {xs : List Nat} (hxs : ∀ x ∈ xs, x < 64) :
    encode (xs.map letter) = xs.map fun x => (letter x).toUInt8 := by
  induction xs with
  | nil => rfl
  | cons x xs ih =>
      rw [List.forall_mem_cons] at hxs
      rw [List.map_cons, encode_cons, encodeChar_ascii (letter_ascii x hxs.1), ih hxs.2]
      rfl

theorem foldlM_letters {d : Decoder} {xs ys : List Nat} (h : d.Holds xs)
    (hys : ∀ y ∈ ys, y < 64) :
    ∃ d', (encode (ys.map letter)).foldlM decodeByte d = some d' ∧ d'.Holds (xs ++ ys) := by
  rw [encode_letters hys]
  induction ys generalizing d xs with
  | nil => exact ⟨d, rfl, by rw [List.append_nil]; exact h⟩
  | cons y ys ih =>
      rw [List.forall_mem_cons] at hys
      have hvalue : (UInt32.ofNat y).toNat = y := by
        apply UInt32.toNat_ofNat_of_lt'
        change y < 2 ^ 32
        omega
      have hlt : (UInt32.ofNat y).toNat < 64 := by rw [hvalue]; exact hys.1
      obtain ⟨d', hd', hnext⟩ :=
        h.decodeByte (not_isSkipped_letter y hys.1) (val_letter y hys.1) hlt
      obtain ⟨e, he, hrest⟩ := ih hnext hys.2
      refine ⟨e, ?_, ?_⟩
      · rw [List.map_cons, List.foldlM_cons, hd']
        exact he
      · rw [hvalue, List.append_assoc] at hrest
        exact hrest

theorem exists_letters {cs : List Char} (hcs : ∀ c ∈ cs, c ∈ b64) :
    ∃ xs : List Nat, cs = xs.map letter ∧ ∀ x ∈ xs, x < 64 := by
  induction cs with
  | nil => exact ⟨[], rfl, by simp⟩
  | cons c cs ih =>
      rw [List.forall_mem_cons] at hcs
      obtain ⟨x, hx, rfl⟩ := exists_letter hcs.1
      obtain ⟨xs, rfl, hxs⟩ := ih hcs.2
      exact ⟨x :: xs, rfl, List.forall_mem_cons.mpr ⟨hx, hxs⟩⟩

/-! ## Texts outside the alphabet -/

theorem val_eq_none {c : Char} (hc : c ∉ b64) {b : UInt8} (hb : b ∈ encodeChar c) :
    val b = none := by
  cases hval : val b with
  | none => rfl
  | some v =>
      have hletter := letter_of_val b
      rw [hval, Option.all_some, decide_eq_true_eq] at hletter
      have hlow := letter_ascii v.toNat hletter.1
      rw [hletter.2, toNat_ofUInt8] at hlow
      have heq := eq_ofUInt8_of_mem hb (UInt8.lt_iff_toNat_lt.mpr hlow)
      rw [← hletter.2] at heq
      exact absurd (heq ▸ letter_mem hletter.1) hc

theorem foldlM_eq_none {bs : Bytes} {b : UInt8} (hb : b ∈ bs) (hskip : isSkipped b = false)
    (hval : val b = none) (d : Decoder) : bs.foldlM decodeByte d = none := by
  induction bs generalizing d with
  | nil => exact absurd hb (by simp)
  | cons a bs ih =>
      rw [List.foldlM_cons]
      rcases List.mem_cons.mp hb with rfl | hb
      · have hfail : decodeByte d b = none := by
          unfold decodeByte
          rw [hskip, hval]
          rfl
        rw [hfail]
        rfl
      · cases decodeByte d a with
        | none => rfl
        | some d' => exact ih hb d'

/-- A character outside the alphabet is refused. -/
theorem base64Decode_eq_none {s : String} {c : Char} (hmem : c ∈ stripped s) (hc : c ∉ b64) :
    base64Decode s = none := by
  have hpad : isPadding c = false := by
    unfold stripped at hmem
    simpa using (List.mem_filter.mp hmem).2
  obtain ⟨b, rest, hb, -⟩ := exists_encodeChar_eq_cons c
  have hfirst : b ∈ encodeChar c := by rw [hb]; exact List.mem_cons_self
  have hbytes : b ∈ encode (stripped s) := List.mem_flatMap.mpr ⟨c, hmem, hfirst⟩
  have hskip : isSkipped b = false := (isSkipped_of_mem hfirst).trans hpad
  rw [base64Decode_eq, foldlM_eq_none hbytes hskip (val_eq_none hc hfirst)]
  rfl

/-! ## What the decoder accepts -/

theorem exists_decoding {s : String} {xs : List Nat} (hs : stripped s = xs.map letter)
    (hxs : ∀ x ∈ xs, x < 64) :
    ∃ b spare rest, base64Decode s = some b ∧
      Regroups 6 8 xs (b.map UInt8.toNat) spare rest ∧ spare < 8 := by
  obtain ⟨d, hd, h⟩ := foldlM_letters Decoder.holds_init hxs
  rw [List.nil_append] at h
  refine ⟨d.out, _, _, ?_, h.regroups, h.nbits_lt⟩
  rw [base64Decode_eq, hs, hd]
  rfl

theorem toNat_map_injective {b c : Bytes} (h : b.map UInt8.toNat = c.map UInt8.toNat) : b = c :=
  List.map_injective_iff.mpr (fun _ _ => UInt8.toNat_inj.mp) h

/-- Decoded are the texts in the alphabet, to the bytes that their bits begin with. -/
theorem base64Decode_eq_some {s : String} {b : Bytes} :
    base64Decode s = some b ↔ ∃ xs spare rest, stripped s = xs.map letter ∧
      Regroups 6 8 xs (b.map UInt8.toNat) spare rest ∧ spare < 8 := by
  constructor
  · intro h
    have hall : ∀ c ∈ stripped s, c ∈ b64 := by
      intro c hmem
      by_contra hc
      rw [base64Decode_eq_none hmem hc] at h
      exact absurd h (by simp)
    obtain ⟨xs, hs, hxs⟩ := exists_letters hall
    obtain ⟨b', spare, rest, hb', hregroups, hspare⟩ := exists_decoding hs hxs
    rw [h, Option.some_inj] at hb'
    subst hb'
    exact ⟨xs, spare, rest, hs, hregroups, hspare⟩
  · rintro ⟨xs, spare, rest, hs, h, hspare⟩
    obtain ⟨b', spare', rest', hb', h', hspare'⟩ := exists_decoding hs h.left_lt
    have heq := (h.right_unique h' hspare hspare').1
    rw [hb', toNat_map_injective heq]

theorem exists_symbols (data : Bytes) :
    ∃ xs spare, unpadded (base64Encode data) = xs.map letter ∧
      stripped (base64Encode data) = xs.map letter ∧
      Regroups 6 8 xs (data.map UInt8.toNat) spare 0 ∧ spare < 6 := by
  obtain ⟨xs, spare, h, hspare, pad, hpad⟩ := exists_encoding data
  have hequals : ∀ i < 64, letter i ≠ '=' ∧ isPadding (letter i) = false := by decide +kernel
  have hunpadded : (xs.map letter).filter (· ≠ '=') = xs.map letter := by
    rw [List.filter_eq_self]
    intro c hc
    obtain ⟨x, hx, rfl⟩ := List.mem_map.mp hc
    exact decide_eq_true (hequals x (h.left_lt x hx)).1
  have hstripped : (xs.map letter).filter (fun c => !isPadding c) = xs.map letter := by
    rw [List.filter_eq_self]
    intro c hc
    obtain ⟨x, hx, rfl⟩ := List.mem_map.mp hc
    rw [(hequals x (h.left_lt x hx)).2]
    rfl
  refine ⟨xs, spare, ?_, ?_, h, hspare⟩
  · rw [unpadded, hpad, List.filter_append, hunpadded, List.filter_replicate_of_neg (by decide),
      List.append_nil]
  · rw [stripped, hpad, List.filter_append, hstripped, List.filter_replicate_of_neg (by decide),
      List.append_nil]

/-- A payload comes back as it was encoded. -/
theorem base64Decode_base64Encode (b : Bytes) : base64Decode (base64Encode b) = some b := by
  obtain ⟨xs, spare, -, hs, h, hspare⟩ := exists_symbols b
  exact base64Decode_eq_some.mpr ⟨xs, spare, 0, hs, h, by omega⟩

/-! ## Malformed texts -/

/-- No symbol stands alone, and the bits of the last one after the last byte are zero. -/
def EndsEvenly (cs : List Char) : Prop :=
  cs.length % 4 ≠ 1 ∧ ∀ c ∈ cs.getLast?, b64.idxOf c % 2 ^ (6 * cs.length % 8) = 0

theorem idxOf_letters {xs : List Nat} (hxs : ∀ x ∈ xs, x < 64) :
    (xs.map letter).map b64.idxOf = xs := by
  rw [List.map_map]
  exact (List.map_congr_left fun x hx => idxOf_letter x (hxs x hx)).trans (List.map_id' xs)

theorem letters_injective {xs ys : List Nat} (hxs : ∀ x ∈ xs, x < 64) (hys : ∀ y ∈ ys, y < 64)
    (h : xs.map letter = ys.map letter) : xs = ys := by
  rw [← idxOf_letters hxs, h, idxOf_letters hys]

/-- The bits left over are those of the last symbol. -/
theorem rest_eq_zero_iff {xs ys : List Nat} {spare rest : Nat} (h : Regroups 6 8 xs ys spare rest)
    (hspare : spare < 8) :
    rest = 0 ↔ ∀ c ∈ (xs.map letter).getLast?,
      b64.idxOf c % 2 ^ (6 * (xs.map letter).length % 8) = 0 := by
  have hlength := h.length_eq
  have hrest := h.rest_lt
  rw [List.length_map, ← h.spare_eq hspare]
  induction xs using List.reverseRecOn with
  | nil =>
      have hzero : spare = 0 := by
        rw [List.length_nil] at hlength
        omega
      subst hzero
      constructor
      · intro _ c hc
        exact absurd hc (by simp)
      · intro _
        omega
  | append_singleton xs x _ =>
      have hx : x < 64 := h.left_lt x (by simp)
      have heven : spare ≤ 6 := by omega
      rw [h.rest_eq heven, List.map_append, List.map_singleton, List.getLast?_concat]
      constructor
      · intro hzero c hc
        rw [Option.mem_some_iff] at hc
        rw [← hc, idxOf_letter x hx]
        exact hzero
      · intro hlast
        have hzero := hlast (letter x) rfl
        rw [idxOf_letter x hx] at hzero
        exact hzero

theorem eq_unpadded_iff {s : String} {b : Bytes} {xs : List Nat} {spare rest : Nat}
    (hs : stripped s = xs.map letter) (h : Regroups 6 8 xs (b.map UInt8.toNat) spare rest)
    (hspare : spare < 8) :
    stripped s = unpadded (base64Encode b) ↔ spare < 6 ∧ rest = 0 := by
  obtain ⟨ys, spare', hunpadded, -, h', hspare'⟩ := exists_symbols b
  rw [hs, hunpadded]
  constructor
  · intro hletters
    have heq := letters_injective h.left_lt h'.left_lt hletters
    subst heq
    have hunique := h.right_unique h' hspare (by omega)
    rw [hunique.2.1]
    exact ⟨hspare', hunique.2.2⟩
  · rintro ⟨hlt, rfl⟩
    have hlength := h.length_eq
    have hlength' := h'.length_eq
    have heq : spare = spare' := by omega
    subst heq
    rw [h.left_unique h' (by decide)]

/-- What is decoded is encoded by the text that it was read from exactly if that ends evenly. -/
theorem eq_unpadded_iff_endsEvenly {s : String} {b : Bytes} (hb : base64Decode s = some b) :
    stripped s = unpadded (base64Encode b) ↔ EndsEvenly (stripped s) := by
  obtain ⟨xs, spare, rest, hs, h, hspare⟩ := base64Decode_eq_some.mp hb
  have hzero := rest_eq_zero_iff h hspare
  have hlength := h.length_eq
  have hsize : (stripped s).length = xs.length := by rw [hs, List.length_map]
  have hsix : (stripped s).length % 4 ≠ 1 ↔ spare < 6 := by omega
  rw [← hs] at hzero
  rw [eq_unpadded_iff hs h hspare, EndsEvenly, ← hzero, hsix]

theorem exists_decoded {s : String} (hall : ∀ c ∈ stripped s, c ∈ b64) :
    ∃ b, base64Decode s = some b := by
  obtain ⟨xs, hs, hxs⟩ := exists_letters hall
  obtain ⟨b, spare, rest, hb, -, -⟩ := exists_decoding hs hxs
  exact ⟨b, hb⟩

/-- Malformed texts are refused, and what is accepted is an encoding, exactly where a
character is outside the alphabet or the text ends evenly. -/
theorem refuses_malformed_iff (s : String) :
    ((∀ b, base64Decode s = some b → stripped s = unpadded (base64Encode b)) ∧
      ((∃ c ∈ stripped s, c ∉ b64) ∨ (stripped s).length % 4 = 1 → base64Decode s = none)) ↔
      (∃ c ∈ stripped s, c ∉ b64) ∨ EndsEvenly (stripped s) := by
  by_cases hbad : ∃ c ∈ stripped s, c ∉ b64
  · obtain ⟨c, hmem, hc⟩ := hbad
    have hnone := base64Decode_eq_none hmem hc
    refine iff_of_true ⟨?_, fun _ => hnone⟩ (.inl ⟨c, hmem, hc⟩)
    intro b hb
    rw [hnone] at hb
    exact absurd hb (by simp)
  · have hall : ∀ c ∈ stripped s, c ∈ b64 := by
      intro c hmem
      by_contra hc
      exact hbad ⟨c, hmem, hc⟩
    obtain ⟨b, hb⟩ := exists_decoded hall
    have hiff := eq_unpadded_iff_endsEvenly hb
    rw [or_iff_right hbad, or_iff_right hbad, hb]
    constructor
    · intro h
      exact hiff.mp (h.1 b rfl)
    · intro heven
      constructor
      · intro c hc
        rw [Option.some_inj] at hc
        rw [← hc]
        exact hiff.mpr heven
      · intro hone
        exact absurd hone heven.1

/-- A lone symbol decodes to nothing at all. -/
theorem lone_symbol_accepted :
    stripped "Z" = ['Z'] ∧ base64Decode "Z" = some [] ∧
      ¬ ∀ s : String,
        (∀ b, base64Decode s = some b → stripped s = unpadded (base64Encode b)) ∧
          ((∃ c ∈ stripped s, c ∉ b64) ∨ (stripped s).length % 4 = 1 →
            base64Decode s = none) := by
  have hlone : stripped "Z" = ['Z'] := by decide +kernel
  have haccepted : base64Decode "Z" = some [] := by decide +kernel
  refine ⟨hlone, haccepted, fun h => ?_⟩
  have hnone := (h "Z").2 (.inr (by rw [hlone]; rfl))
  exact Option.some_ne_none [] (haccepted.symm.trans hnone)

end TautShape.Tool.Base64
