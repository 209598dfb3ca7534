import Mathlib
/-!
# UTF-8 on lists of bytes

The bytes of a list of characters, and what a reader that looks at one byte at a time can
tell of them: where a character begins, how far it goes, and which bytes stand for
themselves.
-/

namespace TautShape.Lib.Utf8

abbrev encodeChar (c : Char) : List UInt8 := String.utf8EncodeChar c

def encode (cs : List Char) : List UInt8 := cs.flatMap encodeChar

def Valid (bytes : List UInt8) : Prop := ∃ cs, bytes = encode cs

/-- `0b10xxxxxx`, a byte that does not begin a character. -/
def IsContinuation (byte : UInt8) : Prop := byte &&& 0xc0 = 0x80

instance (byte : UInt8) : Decidable (IsContinuation byte) :=
  inferInstanceAs (Decidable (byte &&& 0xc0 = 0x80))

@[simp] theorem encode_nil : encode [] = [] := rfl

@[simp] theorem encode_cons (c : Char) (cs : List Char) :
    encode (c :: cs) = encodeChar c ++ encode cs := rfl

@[simp] theorem encode_append (cs ds : List Char) : encode (cs ++ ds) = encode cs ++ encode ds :=
  List.flatMap_append

theorem encode_flatMap {α : Type} (l : List α) (f : α → List Char) :
    encode (l.flatMap f) = l.flatMap fun a => encode (f a) :=
  List.flatMap_assoc

theorem Valid.nil : Valid [] := ⟨[], rfl⟩

theorem Valid.append {bytes more : List UInt8} (hbytes : Valid bytes) (hmore : Valid more) :
    Valid (bytes ++ more) := by
  obtain ⟨cs, rfl⟩ := hbytes
  obtain ⟨ds, rfl⟩ := hmore
  exact ⟨cs ++ ds, (encode_append cs ds).symm⟩

theorem valid_encodeChar (c : Char) : Valid (encodeChar c) := ⟨[c], by simp⟩

/-! ## The bytes of one character -/

theorem length_encodeChar (c : Char) : (encodeChar c).length = c.utf8Size :=
  String.length_utf8EncodeChar c

theorem continuation_mask : ∀ byte : UInt8, IsContinuation (byte &&& 0x3f ||| 0x80) := by
  decide +kernel

theorem not_continuation_of_first :
    ∀ byte : UInt8, byte.IsUTF8FirstByte → ¬ IsContinuation byte := by
  decide +kernel

/-- All bytes of a character but the first are continuation bytes. -/
theorem continuation_tail (c : Char) : ∀ byte ∈ (encodeChar c).tail, IsContinuation byte := by
  have hpos := c.utf8Size_pos
  have hle := c.utf8Size_le_four
  have hsize : c.utf8Size = 1 ∨ c.utf8Size = 2 ∨ c.utf8Size = 3 ∨ c.utf8Size = 4 := by omega
  rcases hsize with h | h | h | h
  · simp [encodeChar, String.utf8EncodeChar_eq_singleton h]
  · simp [encodeChar, String.utf8EncodeChar_eq_cons_cons h, continuation_mask]
  · simp [encodeChar, String.utf8EncodeChar_eq_cons_cons_cons h, continuation_mask]
  · simp [encodeChar, String.utf8EncodeChar_eq_cons_cons_cons_cons h, continuation_mask]

theorem exists_encodeChar_eq_cons (c : Char) :
    ∃ byte rest, encodeChar c = byte :: rest ∧ ¬ IsContinuation byte ∧
      ∀ b ∈ rest, IsContinuation b := by
  cases h : encodeChar c with
  | nil => exact absurd h String.utf8EncodeChar_ne_nil
  | cons byte rest =>
      have hlt : 0 < (encodeChar c).length := by simp [h]
      have hfirst : ((encodeChar c)[0]).IsUTF8FirstByte :=
        UInt8.isUTF8FirstByte_getElem_zero_utf8EncodeChar
      have hbyte : byte.IsUTF8FirstByte := by simpa only [h, List.getElem_cons_zero] using hfirst
      have htail := continuation_tail c
      rw [h] at htail
      exact ⟨byte, rest, rfl, not_continuation_of_first byte hbyte, htail⟩

theorem utf8Size_eq_one {c : Char} (hc : c.toNat < 0x80) : c.utf8Size = 1 := by
  rw [Char.utf8Size_eq_one_iff, UInt32.le_iff_toNat_le]
  exact Nat.le_of_lt_succ hc

theorem encodeChar_ascii {c : Char} (hc : c.toNat < 0x80) : encodeChar c = [c.toUInt8] :=
  String.utf8EncodeChar_eq_singleton (utf8Size_eq_one hc)

theorem toNat_ofUInt8 (byte : UInt8) : (Char.ofUInt8 byte).toNat = byte.toNat := by
  unfold Char.ofUInt8 Char.toNat
  simp

theorem encodeChar_ofUInt8 {byte : UInt8} (hbyte : byte < 0x80) :
    encodeChar (Char.ofUInt8 byte) = [byte] := by
  have hlt : (Char.ofUInt8 byte).toNat < 0x80 := by
    rw [toNat_ofUInt8]
    exact UInt8.lt_iff_toNat_lt.mp hbyte
  rw [encodeChar_ascii hlt]
  congr 1
  apply UInt8.toNat_inj.mp
  change (Char.ofUInt8 byte).toNat % 256 = byte.toNat
  rw [toNat_ofUInt8]
  exact Nat.mod_eq_of_lt byte.toNat_lt

theorem mask_high : ∀ byte : UInt8,
    0x80 ≤ (byte &&& 0x1f ||| 0xc0) ∧ 0x80 ≤ (byte &&& 0x0f ||| 0xe0) ∧
      0x80 ≤ (byte &&& 0x07 ||| 0xf0) := by
  decide +kernel

theorem high_of_encodeChar {c : Char} {byte : UInt8} {rest : List UInt8} (hc : 0x80 ≤ c.toNat)
    (h : encodeChar c = byte :: rest) : 0x80 ≤ byte := by
  have hpos := c.utf8Size_pos
  have hle := c.utf8Size_le_four
  have hone : c.utf8Size ≠ 1 := by
    intro hsize
    rw [Char.utf8Size_eq_one_iff, UInt32.le_iff_toNat_le] at hsize
    have hval : c.val.toNat ≤ 127 := hsize
    have htoNat : c.toNat = c.val.toNat := rfl
    omega
  have hsize : c.utf8Size = 2 ∨ c.utf8Size = 3 ∨ c.utf8Size = 4 := by omega
  rcases hsize with hs | hs | hs
  · rw [encodeChar, String.utf8EncodeChar_eq_cons_cons hs, List.cons.injEq] at h
    exact h.1 ▸ (mask_high _).1
  · rw [encodeChar, String.utf8EncodeChar_eq_cons_cons_cons hs, List.cons.injEq] at h
    exact h.1 ▸ (mask_high _).2.1
  · rw [encodeChar, String.utf8EncodeChar_eq_cons_cons_cons_cons hs, List.cons.injEq] at h
    exact h.1 ▸ (mask_high _).2.2

theorem encodeChar_eq_of_low {c : Char} {byte : UInt8} {rest : List UInt8}
    (h : encodeChar c = byte :: rest) (hbyte : byte < 0x80) :
    c = Char.ofUInt8 byte ∧ rest = [] := by
  have hlow : c.toNat < 0x80 := by
    by_contra hc
    have hge := high_of_encodeChar (by omega) h
    exact absurd hbyte (UInt8.not_lt.mpr hge)
  rw [encodeChar_ascii hlow, List.cons.injEq] at h
  refine ⟨?_, h.2.symm⟩
  apply Char.toNat_inj.mp
  rw [toNat_ofUInt8, ← h.1]
  change c.toNat = c.toNat % 256
  omega

theorem high_of_continuation : ∀ byte : UInt8, IsContinuation byte → 0x80 ≤ byte := by
  decide +kernel

theorem eq_ofUInt8_of_mem {c : Char} {byte : UInt8} (hmem : byte ∈ encodeChar c)
    (hbyte : byte < 0x80) : c = Char.ofUInt8 byte := by
  obtain ⟨b, rest, hb, -, hcont⟩ := exists_encodeChar_eq_cons c
  rw [hb, List.mem_cons] at hmem
  rcases hmem with heq | hmem
  · rw [← heq] at hb
    exact (encodeChar_eq_of_low hb hbyte).1
  · have hhigh := high_of_continuation byte (hcont byte hmem)
    exact absurd hbyte (UInt8.not_lt.mpr hhigh)

/-- Bytes of ASCII are UTF-8. -/
theorem valid_of_ascii {bytes : List UInt8} (h : ∀ byte ∈ bytes, byte < 0x80) : Valid bytes := by
  induction bytes with
  | nil => exact Valid.nil
  | cons byte rest ih =>
      have hbyte : byte < 0x80 := h byte (by simp)
      have hrest : Valid rest := ih fun b hb => h b (by simp [hb])
      have hone := valid_encodeChar (Char.ofUInt8 byte)
      rw [encodeChar_ofUInt8 hbyte] at hone
      exact hone.append hrest

/-! ## Decoding -/

theorem data_toUTF8 (s : String) : s.toUTF8.data.toList = encode s.toList := by
  rw [String.toUTF8_eq_toByteArray, ← String.utf8Encode_toList, List.utf8Encode,
    List.data_toByteArray]
  rfl

theorem toByteArray_encode (cs : List Char) : (⟨(encode cs).toArray⟩ : ByteArray) =
    cs.utf8Encode := by
  apply ByteArray.ext
  rw [List.utf8Encode, List.data_toByteArray]
  rfl

theorem fromUTF8_encode (cs : List Char) :
    String.fromUTF8? ⟨(encode cs).toArray⟩ = some (String.ofList cs) := by
  have hvalid : (cs.utf8Encode).IsValidUTF8 := ByteArray.isValidUTF8_utf8Encode
  rw [toByteArray_encode, String.fromUTF8?, dif_pos hvalid, Option.some_inj,
    ← String.toByteArray_inj, String.toByteArray_ofList]
  rfl

theorem eq_encode_of_fromUTF8 {bytes : List UInt8} {s : String}
    (h : String.fromUTF8? ⟨bytes.toArray⟩ = some s) : bytes = encode s.toList := by
  unfold String.fromUTF8? at h
  split at h
  case isTrue hvalid =>
      rw [Option.some_inj] at h
      have harray : s.toByteArray = ⟨bytes.toArray⟩ := by rw [← h]; rfl
      rw [← data_toUTF8, String.toUTF8_eq_toByteArray, harray]
  case isFalse => exact absurd h (by simp)

/-! ## One character off the front -/

theorem Valid.of_encodeChar_append {c : Char} {rest : List UInt8}
    (h : Valid (encodeChar c ++ rest)) : Valid rest := by
  obtain ⟨cs, hcs⟩ := h
  have harray : [c].utf8Encode ++ ⟨rest.toArray⟩ = cs.utf8Encode := by
    rw [← toByteArray_encode cs, ← hcs, List.utf8Encode_singleton]
    apply ByteArray.ext
    rw [ByteArray.data_append, List.data_toByteArray]
    simp
  have hvalid : ([c].utf8Encode ++ ⟨rest.toArray⟩ : ByteArray).IsValidUTF8 := by
    rw [harray]
    exact ByteArray.isValidUTF8_utf8Encode
  rw [ByteArray.isValidUTF8_utf8Encode_singleton_append_iff] at hvalid
  have hsome : String.fromUTF8? ⟨rest.toArray⟩ = some (String.fromUTF8 ⟨rest.toArray⟩ hvalid) :=
    dif_pos hvalid
  exact ⟨_, eq_encode_of_fromUTF8 hsome⟩

/-- No character begins with the bytes of another. -/
theorem encodeChar_append_inj {c d : Char} {rest more : List UInt8}
    (h : encodeChar c ++ rest = encodeChar d ++ more) : c = d ∧ rest = more := by
  have harray : (encodeChar c).toByteArray ++ rest.toByteArray =
      (encodeChar d).toByteArray ++ more.toByteArray := by
    rw [← List.toByteArray_append, ← List.toByteArray_append, h]
  have hc := ByteArray.utf8DecodeChar?_utf8EncodeChar_append (b := rest.toByteArray) (c := c)
  rw [harray, ByteArray.utf8DecodeChar?_utf8EncodeChar_append, Option.some_inj] at hc
  subst hc
  exact ⟨rfl, List.append_cancel_left h⟩

theorem eq_singleton_of_continuation {cs : List Char} {byte : UInt8} {rest : List UInt8}
    (h : encode cs = byte :: rest) (hrest : ∀ b ∈ rest, IsContinuation b) : ∃ c, cs = [c] := by
  cases cs with
  | nil => simp at h
  | cons c cs =>
      cases cs with
      | nil => exact ⟨c, rfl⟩
      | cons d ds =>
          obtain ⟨b, bs, hb, -, -⟩ := exists_encodeChar_eq_cons c
          obtain ⟨e, es, he, hnot, -⟩ := exists_encodeChar_eq_cons d
          rw [encode_cons, encode_cons, hb, he, List.cons_append, List.cons.injEq] at h
          have hmem : e ∈ rest := by
            rw [← h.2]
            simp
          exact absurd (hrest e hmem) hnot

theorem takeWhile_continuation {cont rest : List UInt8} (hcont : ∀ b ∈ cont, IsContinuation b)
    (hrest : ∀ b ∈ rest.head?, ¬ IsContinuation b) :
    (cont ++ rest).takeWhile (fun b => decide (IsContinuation b)) = cont := by
  rw [List.takeWhile_append_of_pos (by simpa using hcont)]
  cases rest with
  | nil => simp
  | cons b rest =>
      have hb : ¬ IsContinuation b := hrest b (by simp)
      simp [hb]

end TautShape.Lib.Utf8
