import TautShape.Lib.Utf8
/-!
# The grammar of JSON texts

What RFC 8259 derives, over bytes, with the meaning of each phrase beside its bytes.  A
dialect fills in what readers differ in: which bytes are white space, what stands between
quotes, which scalars there are, and what the fields of an object make.
-/

namespace TautShape.Lib.JsonGrammar

open Utf8

/-! ## String literals -/

inductive Short : UInt8 → Char → Prop
  | quote : Short 0x22 '"'
  | backslash : Short 0x5c '\\'
  | slash : Short 0x2f '/'
  | backspace : Short 0x62 '\x08'
  | formFeed : Short 0x66 '\x0c'
  | newline : Short 0x6e '\n'
  | carriageReturn : Short 0x72 '\r'
  | tab : Short 0x74 '\t'

/-- One character of a string literal; `unicode` reads what follows `\u`. -/
inductive Piece (plain : Char → Prop) (unicode : List UInt8 → Char → Prop) :
    List UInt8 → Char → Prop
  | plain {c : Char} (hplain : plain c) (hquote : c ≠ '"') (hbackslash : c ≠ '\\') :
      Piece plain unicode (encodeChar c) c
  | short {byte : UInt8} {c : Char} (hshort : Short byte c) : Piece plain unicode [0x5c, byte] c
  | unicode {bytes : List UInt8} {c : Char} (hunicode : unicode bytes c) :
      Piece plain unicode (0x5c :: 0x75 :: bytes) c

inductive Pieces (plain : Char → Prop) (unicode : List UInt8 → Char → Prop) :
    List UInt8 → List Char → Prop
  | nil : Pieces plain unicode [] []
  | cons {bytes rest : List UInt8} {c : Char} {cs : List Char}
      (hpiece : Piece plain unicode bytes c) (hrest : Pieces plain unicode rest cs) :
      Pieces plain unicode (bytes ++ rest) (c :: cs)

def hexDigit (byte : UInt8) : Option Nat :=
  if 0x30 ≤ byte ∧ byte ≤ 0x39 then some (byte.toNat - 0x30)
  else if 0x61 ≤ byte ∧ byte ≤ 0x66 then some (byte.toNat - 0x61 + 10)
  else if 0x41 ≤ byte ∧ byte ≤ 0x46 then some (byte.toNat - 0x41 + 10)
  else none

def fourDigits : List UInt8 → Option Nat
  | [a, b, c, d] => do
      return (((← hexDigit a) * 16 + (← hexDigit b)) * 16 + (← hexDigit c)) * 16 + (← hexDigit d)
  | _ => none

def pairValue (high low : Nat) : Nat := 0x10000 + (high - 0xd800) * 0x400 + (low - 0xdc00)

/-- What follows `\u`: one unit, or a high surrogate with the unit that completes it. -/
inductive Escaped (unit : List UInt8 → Option Nat) (completes : Nat → Prop) :
    List UInt8 → Char → Prop
  | unit {bytes : List UInt8} {n : Nat} (hunit : unit bytes = some n) (hvalid : n.isValidChar) :
      Escaped unit completes bytes (Char.ofNat n)
  | pair {bytes more : List UInt8} {high low : Nat} (hhigh : unit bytes = some high)
      (hlow : unit more = some low) (hge : 0xd800 ≤ high) (hle : high ≤ 0xdbff)
      (hcompletes : completes low) (hvalid : (pairValue high low).isValidChar) :
      Escaped unit completes (bytes ++ 0x5c :: 0x75 :: more) (Char.ofNat (pairValue high low))

def IsLowSurrogate (n : Nat) : Prop := 0xdc00 ≤ n ∧ n ≤ 0xdfff

/-- RFC 8259, section 7. -/
def WellFormedEscape : List UInt8 → Char → Prop := Escaped fourDigits IsLowSurrogate

/-- White space of RFC 8259. -/
def IsSpace (byte : UInt8) : Prop := byte = 0x20 ∨ byte = 0x09 ∨ byte = 0x0a ∨ byte = 0x0d

section literal

variable {plain : Char → Prop} {unicode other : List UInt8 → Char → Prop}

theorem Piece.imp {bytes : List UInt8} {c : Char} (h : ∀ b e, unicode b e → other b e)
    (hpiece : Piece plain unicode bytes c) : Piece plain other bytes c := by
  cases hpiece with
  | plain hplain hquote hbackslash => exact .plain hplain hquote hbackslash
  | short hshort => exact .short hshort
  | unicode hunicode => exact .unicode (h _ _ hunicode)

theorem Pieces.imp {bytes : List UInt8} {cs : List Char} (h : ∀ b e, unicode b e → other b e)
    (hpieces : Pieces plain unicode bytes cs) : Pieces plain other bytes cs := by
  induction hpieces with
  | nil => exact .nil
  | cons hpiece _ ih => exact .cons (hpiece.imp h) ih

theorem Pieces.append {bytes more : List UInt8} {cs ds : List Char}
    (hpieces : Pieces plain unicode bytes cs) (hmore : Pieces plain unicode more ds) :
    Pieces plain unicode (bytes ++ more) (cs ++ ds) := by
  induction hpieces with
  | nil => exact hmore
  | cons hpiece _ ih =>
      rw [List.append_assoc]
      exact .cons hpiece ih

theorem Piece.length_pos {bytes : List UInt8} {c : Char} (h : Piece plain unicode bytes c) :
    0 < bytes.length := by
  cases h with
  | plain =>
      rw [length_encodeChar]
      exact Char.utf8Size_pos c
  | short => simp
  | unicode => simp

theorem Pieces.length_le {bytes : List UInt8} {cs : List Char}
    (h : Pieces plain unicode bytes cs) : cs.length ≤ bytes.length := by
  induction h with
  | nil => simp
  | cons hpiece _ ih =>
      have hpos := hpiece.length_pos
      rw [List.length_append, List.length_cons]
      omega

theorem Short.byte_lt {byte : UInt8} {c : Char} (h : Short byte c) :
    byte ≠ 0x0c ∧ byte < 0x80 := by
  cases h <;> decide

theorem Pieces.forall_mem {P : UInt8 → Prop} {bytes : List UInt8} {cs : List Char}
    (h : ∀ b c, Piece plain unicode b c → ∀ byte ∈ b, P byte)
    (hpieces : Pieces plain unicode bytes cs) : ∀ byte ∈ bytes, P byte := by
  induction hpieces with
  | nil => simp
  | cons hpiece _ ih =>
      intro byte hmem
      rw [List.mem_append] at hmem
      exact hmem.elim (h _ _ hpiece byte) (ih byte)

theorem Pieces.valid {bytes : List UInt8} {cs : List Char}
    (h : ∀ b c, unicode b c → ∀ byte ∈ b, byte < 0x80)
    (hpieces : Pieces plain unicode bytes cs) : Valid bytes := by
  induction hpieces with
  | nil => exact Valid.nil
  | cons hpiece _ ih =>
      apply Valid.append _ ih
      cases hpiece with
      | plain => exact valid_encodeChar _
      | short hshort =>
          apply valid_of_ascii
          simpa using hshort.byte_lt.2
      | unicode hunicode =>
          apply valid_of_ascii
          simpa using h _ _ hunicode

/-- A writer that puts out a piece for every character puts out a literal. -/
theorem pieces_of_writer {write : Char → List UInt8}
    (h : ∀ c, Piece plain unicode (write c) c) (cs : List Char) :
    Pieces plain unicode (cs.flatMap write) cs := by
  induction cs with
  | nil => exact .nil
  | cons c cs ih => exact .cons (h c) ih

end literal

section unambiguous

variable {plain : Char → Prop} {unicode : List UInt8 → Char → Prop}

/-- No escape begins with the bytes of another. -/
def PrefixFree (unicode : List UInt8 → Char → Prop) : Prop :=
  ∀ a b s t c d, unicode a c → unicode b d → a ++ s = b ++ t → a = b

theorem not_plain_backslash {c : Char} (hc : c ≠ '\\') (s rest : List UInt8) :
    encodeChar c ++ s ≠ 0x5c :: rest := by
  intro h
  obtain ⟨byte, more, hbytes, -, -⟩ := exists_encodeChar_eq_cons c
  rw [hbytes, List.cons_append, List.cons.injEq] at h
  have hlow : byte < 0x80 := by rw [h.1]; decide
  have heq := (encodeChar_eq_of_low hbytes hlow).1
  rw [h.1] at heq
  exact hc heq

theorem Piece.append_inj (hfree : PrefixFree unicode) {a b s t : List UInt8} {c d : Char}
    (ha : Piece plain unicode a c) (hb : Piece plain unicode b d) (h : a ++ s = b ++ t) :
    a = b := by
  cases ha with
  | plain _ _ hc =>
      cases hb with
      | plain => rw [(encodeChar_append_inj h).1]
      | short | unicode => exact absurd h (not_plain_backslash hc _ _)
  | short ha =>
      cases hb with
      | plain _ _ hd => exact absurd h.symm (not_plain_backslash hd _ _)
      | short => simp_all
      | unicode =>
          simp only [List.cons_append, List.cons.injEq, true_and] at h
          rw [h.1] at ha
          cases ha
  | unicode ha =>
      cases hb with
      | plain _ _ hd => exact absurd h.symm (not_plain_backslash hd _ _)
      | short hb =>
          simp only [List.cons_append, List.cons.injEq, true_and] at h
          rw [← h.1] at hb
          cases hb
      | unicode hb =>
          simp only [List.cons_append, List.cons.injEq, true_and] at h
          rw [hfree _ _ _ _ _ _ ha hb h]

end unambiguous

/-! ## Four digits -/

theorem hexDigit_lt {byte : UInt8} {n : Nat} (h : hexDigit byte = some n) :
    n < 16 ∧ 0x30 ≤ byte ∧ byte < 0x80 := by
  revert n
  revert byte
  decide +kernel

theorem fourDigits_spec {bytes : List UInt8} {n : Nat} (h : fourDigits bytes = some n) :
    bytes.length = 4 ∧ n < 0x10000 ∧ ∀ byte ∈ bytes, 0x30 ≤ byte ∧ byte < 0x80 := by
  unfold fourDigits at h
  split at h
  case h_1 a b c d =>
      simp only [Option.bind_eq_bind, Option.bind_eq_some_iff, Option.pure_def, Option.some_inj]
        at h
      obtain ⟨na, ha, nb, hb, nc, hc, nd, hd, hn⟩ := h
      have := hexDigit_lt ha
      have := hexDigit_lt hb
      have := hexDigit_lt hc
      have := hexDigit_lt hd
      refine ⟨rfl, by omega, ?_⟩
      simp [*]
  case h_2 => exact absurd h (by simp)

theorem isValidChar_pairValue {high low : Nat} (hge : 0xd800 ≤ high) (hle : high ≤ 0xdbff)
    (hlow : IsLowSurrogate low) : (pairValue high low).isValidChar := by
  unfold pairValue Nat.isValidChar
  unfold IsLowSurrogate at hlow
  omega

theorem WellFormedEscape.ascii {bytes : List UInt8} {c : Char} (h : WellFormedEscape bytes c) :
    ∀ byte ∈ bytes, 0x30 ≤ byte ∧ byte < 0x80 := by
  cases h with
  | unit hunit => exact (fourDigits_spec hunit).2.2
  | pair hhigh hlow =>
      intro byte hmem
      simp only [List.mem_append, List.mem_cons] at hmem
      rcases hmem with hmem | rfl | rfl | hmem
      · exact (fourDigits_spec hhigh).2.2 byte hmem
      · decide
      · decide
      · exact (fourDigits_spec hlow).2.2 byte hmem

def lowerHex (value : Nat) : Char :=
  if value < 10 then Char.ofNat (0x30 + value) else Char.ofNat (0x61 + (value - 10))

theorem fourDigits_control : ∀ n < 0x20,
    fourDigits (encode ['0', '0', lowerHex (n / 16), lowerHex (n % 16)]) = some n := by
  decide +kernel

theorem wellFormedEscape_control {c : Char} (hc : c.toNat < 0x20) :
    WellFormedEscape (encode ['0', '0', lowerHex (c.toNat / 16), lowerHex (c.toNat % 16)]) c := by
  have hescape : WellFormedEscape _ (Char.ofNat c.toNat) :=
    .unit (fourDigits_control c.toNat hc) c.valid
  rwa [Char.ofNat_toNat] at hescape

/-! ## Numbers -/

def Digits (cs : List Char) : Prop := cs ≠ [] ∧ ∀ c ∈ cs, '0' ≤ c ∧ c ≤ '9'

/-- RFC 8259, section 6. -/
def NumberText (cs : List Char) : Prop :=
  ∃ sign int frac exp, cs = sign ++ int ++ frac ++ exp ∧
    (sign = [] ∨ sign = ['-']) ∧
    (int = ['0'] ∨ ∃ c ds, int = c :: ds ∧ '1' ≤ c ∧ Digits int) ∧
    (frac = [] ∨ ∃ ds, frac = '.' :: ds ∧ Digits ds) ∧
    (exp = [] ∨ ∃ e mark ds, exp = e :: mark ++ ds ∧ (e = 'e' ∨ e = 'E') ∧
      (mark = [] ∨ mark = ['+'] ∨ mark = ['-']) ∧ Digits ds)

def numberChars : List Char :=
  ['0', '1', '2', '3', '4', '5', '6', '7', '8', '9', '-', '+', '.', 'e', 'E']

theorem mem_numberChars_of_digit {c : Char} (h : '0' ≤ c ∧ c ≤ '9') :
    c ∈ ['0', '1', '2', '3', '4', '5', '6', '7', '8', '9'] := by
  have hge : 48 ≤ c.toNat := h.1
  have hle : c.toNat ≤ 57 := h.2
  have hc : c = Char.ofNat c.toNat := (Char.ofNat_toNat c).symm
  rw [hc]
  generalize c.toNat = n at hge hle
  interval_cases n <;> decide

theorem Digits.mem {cs : List Char} (h : Digits cs) : ∀ c ∈ cs, c ∈ numberChars := by
  intro c hc
  have hdigit := mem_numberChars_of_digit (h.2 c hc)
  exact List.mem_append_left ['-', '+', '.', 'e', 'E'] hdigit

theorem NumberText.mem {cs : List Char} (h : NumberText cs) : ∀ c ∈ cs, c ∈ numberChars := by
  obtain ⟨sign, int, frac, exp, rfl, hsign, hint, hfrac, hexp⟩ := h
  have hsign : ∀ c ∈ sign, c ∈ numberChars := by
    rcases hsign with rfl | rfl <;> simp [numberChars]
  have hint : ∀ c ∈ int, c ∈ numberChars := by
    rcases hint with rfl | ⟨c, ds, rfl, -, hds⟩
    · simp [numberChars]
    · exact hds.mem
  have hfrac : ∀ c ∈ frac, c ∈ numberChars := by
    rcases hfrac with rfl | ⟨ds, rfl, hds⟩
    · simp
    · exact List.forall_mem_cons.mpr ⟨by simp [numberChars], hds.mem⟩
  have hexp : ∀ c ∈ exp, c ∈ numberChars := by
    rcases hexp with rfl | ⟨e, mark, ds, rfl, he, hmark, hds⟩
    · simp
    · have he : e ∈ numberChars := by
        rcases he with rfl | rfl <;> simp [numberChars]
      have hmark : ∀ c ∈ mark, c ∈ numberChars := by
        rcases hmark with rfl | rfl | rfl <;> simp [numberChars]
      intro c hc
      rw [List.cons_append, List.mem_cons, List.mem_append] at hc
      rcases hc with rfl | hc | hc
      · exact he
      · exact hmark c hc
      · exact hds.mem c hc
  intro c hc
  simp only [List.mem_append] at hc
  rcases hc with ((hc | hc) | hc) | hc
  · exact hsign c hc
  · exact hint c hc
  · exact hfrac c hc
  · exact hexp c hc

theorem NumberText.head {cs : List Char} (h : NumberText cs) :
    ∃ c rest, cs = c :: rest ∧ (c = '-' ∨ ('0' ≤ c ∧ c ≤ '9')) := by
  obtain ⟨sign, int, frac, exp, rfl, hsign, hint, -, -⟩ := h
  have hhead : ∃ c rest, int = c :: rest ∧ '0' ≤ c ∧ c ≤ '9' := by
    rcases hint with rfl | ⟨c, ds, rfl, -, hds⟩
    · exact ⟨'0', [], rfl, by decide⟩
    · exact ⟨c, ds, rfl, hds.2 c List.mem_cons_self⟩
  obtain ⟨c, rest, rfl, hc⟩ := hhead
  rcases hsign with rfl | rfl
  · exact ⟨c, rest ++ frac ++ exp, by simp, .inr hc⟩
  · exact ⟨'-', c :: rest ++ frac ++ exp, by simp, .inl rfl⟩

/-! ## Texts -/

structure Dialect (V : Type) where
  space : UInt8 → Prop
  literal : List UInt8 → List Char → Prop
  scalar : List UInt8 → V → Prop
  string : String → V
  array : List V → V
  object : List (String × V) → V → Prop

/-- What is derived, with what it denotes. -/
inductive Phrase (V : Type) where
  | value (v : V)
  | element (v : V)
  | elements (vs : List V)
  | member (field : String × V)
  | members (fields : List (String × V))

variable {V : Type} (d : Dialect V)

def Spaces (bytes : List UInt8) : Prop := ∀ byte ∈ bytes, d.space byte

inductive Derives : Phrase V → List UInt8 → Prop
  | scalar {bytes : List UInt8} {v : V} (hscalar : d.scalar bytes v) : Derives (.value v) bytes
  | string {bytes : List UInt8} {cs : List Char} (hliteral : d.literal bytes cs) :
      Derives (.value (d.string (String.ofList cs))) (0x22 :: bytes ++ [0x22])
  | emptyArray {bytes : List UInt8} (hspaces : Spaces d bytes) :
      Derives (.value (d.array [])) (0x5b :: bytes ++ [0x5d])
  | array {bytes : List UInt8} {vs : List V} (helements : Derives (.elements vs) bytes) :
      Derives (.value (d.array vs)) (0x5b :: bytes ++ [0x5d])
  | emptyObject {bytes : List UInt8} {v : V} (hspaces : Spaces d bytes)
      (hobject : d.object [] v) : Derives (.value v) (0x7b :: bytes ++ [0x7d])
  | object {bytes : List UInt8} {fields : List (String × V)} {v : V}
      (hmembers : Derives (.members fields) bytes) (hobject : d.object fields v) :
      Derives (.value v) (0x7b :: bytes ++ [0x7d])
  | element {before bytes after : List UInt8} {v : V} (hbefore : Spaces d before)
      (hvalue : Derives (.value v) bytes) (hafter : Spaces d after) :
      Derives (.element v) (before ++ bytes ++ after)
  | oneElement {bytes : List UInt8} {v : V} (helement : Derives (.element v) bytes) :
      Derives (.elements [v]) bytes
  | elements {bytes rest : List UInt8} {v : V} {vs : List V}
      (helement : Derives (.element v) bytes) (helements : Derives (.elements vs) rest) :
      Derives (.elements (v :: vs)) (bytes ++ 0x2c :: rest)
  | member {before key between bytes : List UInt8} {cs : List Char} {v : V}
      (hbefore : Spaces d before) (hkey : d.literal key cs) (hbetween : Spaces d between)
      (helement : Derives (.element v) bytes) :
      Derives (.member (String.ofList cs, v))
        (before ++ 0x22 :: key ++ 0x22 :: between ++ 0x3a :: bytes)
  | oneMember {bytes : List UInt8} {field : String × V}
      (hmember : Derives (.member field) bytes) : Derives (.members [field]) bytes
  | members {bytes rest : List UInt8} {field : String × V} {fields : List (String × V)}
      (hmember : Derives (.member field) bytes) (hmembers : Derives (.members fields) rest) :
      Derives (.members (field :: fields)) (bytes ++ 0x2c :: rest)

def Text (bytes : List UInt8) (v : V) : Prop := Derives d (.element v) bytes

/-! ## The bytes of a phrase -/

variable {d}

theorem Spaces.nil : Spaces d [] := by simp [Spaces]

theorem Spaces.append {bytes more : List UInt8} (hbytes : Spaces d bytes)
    (hmore : Spaces d more) : Spaces d (bytes ++ more) := by
  intro byte hmem
  rw [List.mem_append] at hmem
  exact hmem.elim (hbytes byte) (hmore byte)

theorem Spaces.of_append {bytes more : List UInt8} (h : Spaces d (bytes ++ more)) :
    Spaces d bytes ∧ Spaces d more := by
  constructor
  · intro byte hmem
    exact h byte (List.mem_append_left _ hmem)
  · intro byte hmem
    exact h byte (List.mem_append_right _ hmem)

theorem Derives.padded {w bytes : List UInt8} {vs : List V} (hw : Spaces d w)
    (h : Derives d (.elements vs) bytes) : Derives d (.elements vs) (w ++ bytes) := by
  have helement : ∀ {v b}, Derives d (.element v) b → Derives d (.element v) (w ++ b) := by
    intro v b hb
    cases hb with
    | element hbefore hvalue hafter =>
        rw [← List.append_assoc, ← List.append_assoc]
        exact .element (hw.append hbefore) hvalue hafter
  cases h with
  | oneElement h => exact .oneElement (helement h)
  | elements h hrest =>
      rw [← List.append_assoc]
      exact .elements (helement h) hrest

theorem Derives.paddedMembers {w bytes : List UInt8} {fields : List (String × V)}
    (hw : Spaces d w) (h : Derives d (.members fields) bytes) :
    Derives d (.members fields) (w ++ bytes) := by
  have hmember : ∀ {field b}, Derives d (.member field) b →
      Derives d (.member field) (w ++ b) := by
    intro field b hb
    cases hb with
    | member hbefore hkey hbetween helement =>
        have hpadded := Derives.member (hw.append hbefore) hkey hbetween helement
        simpa using hpadded
  cases h with
  | oneMember h => exact .oneMember (hmember h)
  | members h hrest =>
      rw [← List.append_assoc]
      exact .members (hmember h) hrest

/-- The bytes that set phrases off from each other. -/
def marks : List UInt8 := [0x22, 0x2c, 0x3a, 0x5b, 0x5d, 0x7b, 0x7d]

theorem marks_ascii : ∀ m ∈ marks, m < 0x80 := by simp [marks]

/-- What holds of the parts and is kept by joining them holds of the bytes of a phrase. -/
theorem Derives.closed {Q : List UInt8 → Prop} (happend : ∀ a b, Q a → Q b → Q (a ++ b))
    (hspaces : ∀ w, Spaces d w → Q w) (hliteral : ∀ b cs, d.literal b cs → Q b)
    (hscalar : ∀ b v, d.scalar b v → Q b) (hmark : ∀ m ∈ marks, Q [m]) {phrase : Phrase V}
    {bytes : List UInt8} (h : Derives d phrase bytes) : Q bytes := by
  have hcons : ∀ m b, m ∈ marks → Q b → Q (m :: b) := fun m b hm hb =>
    happend [m] b (hmark m hm) hb
  have hclosed : ∀ m b e, m ∈ marks → e ∈ marks → Q b → Q (m :: b ++ [e]) :=
    fun m b e hm he hb => happend (m :: b) [e] (hcons m b hm hb) (hmark e he)
  induction h with
  | scalar h => exact hscalar _ _ h
  | string h => exact hclosed _ _ _ (by decide) (by decide) (hliteral _ _ h)
  | emptyArray h => exact hclosed _ _ _ (by decide) (by decide) (hspaces _ h)
  | array _ ih => exact hclosed _ _ _ (by decide) (by decide) ih
  | emptyObject h => exact hclosed _ _ _ (by decide) (by decide) (hspaces _ h)
  | object _ _ ih => exact hclosed _ _ _ (by decide) (by decide) ih
  | element hbefore _ hafter ih =>
      exact happend _ _ (happend _ _ (hspaces _ hbefore) ih) (hspaces _ hafter)
  | oneElement _ ih => exact ih
  | elements _ _ ih ihs => exact happend _ _ ih (hcons _ _ (by decide) ihs)
  | member hbefore hkey hbetween _ ih =>
      have hvalue := hcons 0x3a _ (by decide) ih
      have hrest := hcons 0x22 _ (by decide) (happend _ _ (hspaces _ hbetween) hvalue)
      have hlit := hcons 0x22 _ (by decide) (hliteral _ _ hkey)
      have hall := happend _ _ (happend _ _ (hspaces _ hbefore) hlit) hrest
      simpa using hall
  | oneMember _ ih => exact ih
  | members _ _ ih ihs => exact happend _ _ ih (hcons _ _ (by decide) ihs)

theorem Derives.forall_mem {P : UInt8 → Prop} (hspace : ∀ byte, d.space byte → P byte)
    (hliteral : ∀ bytes cs, d.literal bytes cs → ∀ byte ∈ bytes, P byte)
    (hscalar : ∀ bytes v, d.scalar bytes v → ∀ byte ∈ bytes, P byte)
    (hmarks : ∀ byte ∈ marks, P byte) {phrase : Phrase V} {bytes : List UInt8}
    (h : Derives d phrase bytes) : ∀ byte ∈ bytes, P byte := by
  refine Derives.closed (Q := fun b => ∀ byte ∈ b, P byte) ?_ ?_ ?_ ?_ ?_ h
  · intro a b ha hb byte hmem
    exact (List.mem_append.mp hmem).elim (ha byte) (hb byte)
  · intro w hw byte hmem
    exact hspace byte (hw byte hmem)
  · exact hliteral
  · exact hscalar
  · simpa using hmarks

/-- UTF-8 throughout, where literals and scalars are and white space is ASCII. -/
theorem Derives.valid (hspace : ∀ byte, d.space byte → byte < 0x80)
    (hliteral : ∀ bytes cs, d.literal bytes cs → Valid bytes)
    (hscalar : ∀ bytes v, d.scalar bytes v → Valid bytes) {phrase : Phrase V}
    {bytes : List UInt8} (h : Derives d phrase bytes) : Valid bytes := by
  refine Derives.closed (Q := Valid) ?_ ?_ ?_ ?_ ?_ h
  · intro a b ha hb
    exact ha.append hb
  · intro w hw
    exact valid_of_ascii fun byte hmem => hspace byte (hw byte hmem)
  · exact hliteral
  · exact hscalar
  · intro m hm
    apply valid_of_ascii
    simpa using marks_ascii m hm

/-- How many values or members a phrase has on its outermost level. -/
def Phrase.count : Phrase V → Nat
  | .value _ | .element _ | .member _ => 1
  | .elements vs => vs.length
  | .members fields => fields.length

theorem Derives.count_le (hscalar : ∀ b v, d.scalar b v → b ≠ []) {phrase : Phrase V}
    {bytes : List UInt8} (h : Derives d phrase bytes) : phrase.count ≤ bytes.length := by
  induction h with
  | scalar h => exact List.length_pos_iff.mpr (hscalar _ _ h)
  | string | emptyArray | array | emptyObject | object => simp [Phrase.count]
  | element _ _ _ ih =>
      simp only [Phrase.count, List.length_append] at ih ⊢
      omega
  | oneElement _ ih => exact ih
  | elements _ _ ih ihs =>
      simp only [Phrase.count, List.length_append, List.length_cons] at ih ihs ⊢
      omega
  | member =>
      simp only [Phrase.count, List.length_append, List.length_cons]
      omega
  | oneMember _ ih => exact ih
  | members _ _ ih ihs =>
      simp only [Phrase.count, List.length_append, List.length_cons] at ih ihs ⊢
      omega

theorem Derives.starts {start : UInt8 → Prop}
    (hscalar : ∀ b v, d.scalar b v → ∃ byte r, b = byte :: r ∧ start byte)
    (hquote : start 0x22) (hbracket : start 0x5b) (hbrace : start 0x7b) {phrase : Phrase V}
    {bytes : List UInt8} (h : Derives d phrase bytes) :
    ∃ w byte r, bytes = w ++ byte :: r ∧ Spaces d w ∧ start byte := by
  have happend : ∀ {b : List UInt8} (more : List UInt8),
      (∃ w byte r, b = w ++ byte :: r ∧ Spaces d w ∧ start byte) →
        ∃ w byte r, b ++ more = w ++ byte :: r ∧ Spaces d w ∧ start byte := by
    rintro b more ⟨w, byte, r, rfl, hw, hbyte⟩
    exact ⟨w, byte, r ++ more, by simp, hw, hbyte⟩
  induction h with
  | scalar h =>
      obtain ⟨byte, r, hb, hbyte⟩ := hscalar _ _ h
      exact ⟨[], byte, r, hb, .nil, hbyte⟩
  | string => exact ⟨[], 0x22, _, rfl, .nil, hquote⟩
  | emptyArray | array => exact ⟨[], 0x5b, _, rfl, .nil, hbracket⟩
  | emptyObject | object => exact ⟨[], 0x7b, _, rfl, .nil, hbrace⟩
  | element hbefore _ _ ih =>
      apply happend
      obtain ⟨w, byte, r, rfl, hw, hbyte⟩ := ih
      exact ⟨_ ++ w, byte, r, by simp, hbefore.append hw, hbyte⟩
  | oneElement _ ih => exact ih
  | elements _ _ ih _ => exact happend _ ih
  | @member before key between bytes _ _ hbefore =>
      exact ⟨before, 0x22, key ++ 0x22 :: between ++ 0x3a :: bytes, by simp, hbefore, hquote⟩
  | oneMember _ ih => exact ih
  | members _ _ ih _ => exact happend _ ih

section space

variable {space : UInt8 → Prop}

theorem Spaces.withSpace {bytes : List UInt8} (h : Spaces d bytes)
    (hspace : ∀ byte ∈ bytes, d.space byte → space byte) :
    Spaces { d with space := space } bytes :=
  fun byte hmem => hspace byte hmem (h byte hmem)

/-- The same phrase under another notion of white space. -/
theorem Derives.withSpace {phrase : Phrase V} {bytes : List UInt8} (h : Derives d phrase bytes)
    (hspace : ∀ byte ∈ bytes, d.space byte → space byte) :
    Derives { d with space := space } phrase bytes := by
  induction h with
  | scalar h => exact .scalar h
  | string h => exact .string h
  | emptyArray h =>
      have hw := h.withSpace fun b hb => hspace b (by simp [hb])
      exact .emptyArray hw
  | array _ ih =>
      have helements := ih fun b hb => hspace b (by simp [hb])
      exact .array helements
  | emptyObject h hobject =>
      have hw := h.withSpace fun b hb => hspace b (by simp [hb])
      exact .emptyObject hw hobject
  | object _ hobject ih =>
      have hmembers := ih fun b hb => hspace b (by simp [hb])
      exact .object hmembers hobject
  | element hbefore _ hafter ih =>
      have hw := hbefore.withSpace fun b hb => hspace b (by simp [hb])
      have hvalue := ih fun b hb => hspace b (by simp [hb])
      have hw' := hafter.withSpace fun b hb => hspace b (by simp [hb])
      exact .element hw hvalue hw'
  | oneElement _ ih => exact .oneElement (ih hspace)
  | elements _ _ ih ihs =>
      have helement := ih fun b hb => hspace b (by simp [hb])
      have helements := ihs fun b hb => hspace b (by simp [hb])
      exact .elements helement helements
  | member hbefore hkey hbetween _ ih =>
      have hw := hbefore.withSpace fun b hb => hspace b (by simp [hb])
      have hw' := hbetween.withSpace fun b hb => hspace b (by simp [hb])
      have helement := ih fun b hb => hspace b (by simp [hb])
      exact .member hw hkey hw' helement
  | oneMember _ ih => exact .oneMember (ih hspace)
  | members _ _ ih ihs =>
      have hmember := ih fun b hb => hspace b (by simp [hb])
      have hmembers := ihs fun b hb => hspace b (by simp [hb])
      exact .members hmember hmembers

end space

/-! ## Places inside a text -/

/-- Elements that are complete, the comma after the last of them included. -/
def ElementsDone (d : Dialect V) (vs : List V) (bytes : List UInt8) : Prop :=
  (vs = [] ∧ bytes = []) ∨ ∃ b, bytes = b ++ [0x2c] ∧ Derives d (.elements vs) b

def MembersDone (d : Dialect V) (fields : List (String × V)) (bytes : List UInt8) : Prop :=
  (fields = [] ∧ bytes = []) ∨ ∃ b, bytes = b ++ [0x2c] ∧ Derives d (.members fields) b

/-- Beginnings of a text that end right behind the opening quote of a literal. -/
inductive Opens (d : Dialect V) : List UInt8 → Prop
  | literal {before : List UInt8} (hbefore : Spaces d before) : Opens d (before ++ [0x22])
  | element {before bytes inner : List UInt8} {vs : List V} (hbefore : Spaces d before)
      (hdone : ElementsDone d vs bytes) (hinner : Opens d inner) :
      Opens d (before ++ 0x5b :: bytes ++ inner)
  | key {before bytes between : List UInt8} {fields : List (String × V)}
      (hbefore : Spaces d before) (hdone : MembersDone d fields bytes)
      (hbetween : Spaces d between) : Opens d (before ++ 0x7b :: bytes ++ between ++ [0x22])
  | field {before bytes between key after inner : List UInt8} {fields : List (String × V)}
      {cs : List Char} (hbefore : Spaces d before) (hdone : MembersDone d fields bytes)
      (hbetween : Spaces d between) (hkey : d.literal key cs) (hafter : Spaces d after)
      (hinner : Opens d inner) :
      Opens d (before ++ 0x7b :: bytes ++ between ++ 0x22 :: key ++ 0x22 :: after ++
        0x3a :: inner)

theorem Opens.padded {w bytes : List UInt8} (hw : Spaces d w) (h : Opens d bytes) :
    Opens d (w ++ bytes) := by
  cases h with
  | literal hbefore =>
      rw [← List.append_assoc]
      exact .literal (hw.append hbefore)
  | element hbefore hdone hinner =>
      have hopens := Opens.element (hw.append hbefore) hdone hinner
      simpa using hopens
  | key hbefore hdone hbetween =>
      have hopens := Opens.key (hw.append hbefore) hdone hbetween
      simpa using hopens
  | field hbefore hdone hbetween hkey hafter hinner =>
      have hopens := Opens.field (hw.append hbefore) hdone hbetween hkey hafter hinner
      simpa using hopens

theorem Opens.starts {bytes : List UInt8} (h : Opens d bytes) :
    ∃ w byte r, bytes = w ++ byte :: r ∧ Spaces d w ∧
      (byte = 0x22 ∨ byte = 0x5b ∨ byte = 0x7b) := by
  cases h with
  | @literal before hbefore => exact ⟨before, 0x22, [], rfl, hbefore, .inl rfl⟩
  | @element before bytes inner _ hbefore =>
      exact ⟨before, 0x5b, bytes ++ inner, by simp, hbefore, .inr (.inl rfl)⟩
  | @key before bytes between _ hbefore =>
      exact ⟨before, 0x7b, bytes ++ between ++ [0x22], by simp, hbefore, .inr (.inr rfl)⟩
  | @field before bytes between key after inner _ _ hbefore =>
      exact ⟨before, 0x7b, bytes ++ between ++ 0x22 :: key ++ 0x22 :: after ++ 0x3a :: inner,
        by simp, hbefore, .inr (.inr rfl)⟩

theorem ElementsDone.cons {v : V} {vs : List V} {bytes rest : List UInt8}
    (h : Derives d (.element v) bytes) (hrest : ElementsDone d vs rest) :
    ElementsDone d (v :: vs) (bytes ++ 0x2c :: rest) := by
  rcases hrest with ⟨rfl, rfl⟩ | ⟨b, rfl, hb⟩
  · exact .inr ⟨bytes, rfl, .oneElement h⟩
  · exact .inr ⟨bytes ++ 0x2c :: b, by simp, .elements h hb⟩

theorem MembersDone.cons {field : String × V} {fields : List (String × V)}
    {bytes rest : List UInt8} (h : Derives d (.member field) bytes)
    (hrest : MembersDone d fields rest) :
    MembersDone d (field :: fields) (bytes ++ 0x2c :: rest) := by
  rcases hrest with ⟨rfl, rfl⟩ | ⟨b, rfl, hb⟩
  · exact .inr ⟨bytes, rfl, .oneMember h⟩
  · exact .inr ⟨bytes ++ 0x2c :: b, by simp, .members h hb⟩

theorem Opens.bracket {w bytes inner : List UInt8} {vs : List V} (hw : Spaces d w)
    (hdone : ElementsDone d vs bytes) (hinner : Opens d inner) :
    Opens d (0x5b :: w ++ bytes ++ inner) := by
  rcases hdone with ⟨rfl, rfl⟩ | ⟨b, rfl, hb⟩
  · have hopens := Opens.element .nil (.inl ⟨rfl, rfl⟩) (hinner.padded hw)
    simpa using hopens
  · have hopens := Opens.element .nil (.inr ⟨w ++ b, rfl, hb.padded hw⟩) hinner
    simpa using hopens

theorem Opens.braceKey {w bytes between : List UInt8} {fields : List (String × V)}
    (hw : Spaces d w) (hdone : MembersDone d fields bytes) (hbetween : Spaces d between) :
    Opens d (0x7b :: w ++ bytes ++ between ++ [0x22]) := by
  rcases hdone with ⟨rfl, rfl⟩ | ⟨b, rfl, hb⟩
  · have hopens := Opens.key .nil (.inl ⟨rfl, rfl⟩) (hw.append hbetween)
    simpa using hopens
  · have hopens := Opens.key .nil (.inr ⟨w ++ b, rfl, hb.paddedMembers hw⟩) hbetween
    simpa using hopens

theorem Opens.braceField {w bytes between key after inner : List UInt8}
    {fields : List (String × V)} {cs : List Char} (hw : Spaces d w)
    (hdone : MembersDone d fields bytes) (hbetween : Spaces d between) (hkey : d.literal key cs)
    (hafter : Spaces d after) (hinner : Opens d inner) :
    Opens d (0x7b :: w ++ bytes ++ between ++ 0x22 :: key ++ 0x22 :: after ++ 0x3a :: inner) := by
  rcases hdone with ⟨rfl, rfl⟩ | ⟨b, rfl, hb⟩
  · have hopens := Opens.field .nil (.inl ⟨rfl, rfl⟩) (hw.append hbetween) hkey hafter hinner
    simpa using hopens
  · have hopens := Opens.field .nil (.inr ⟨w ++ b, rfl, hb.paddedMembers hw⟩) hbetween hkey
      hafter hinner
    simpa using hopens

end TautShape.Lib.JsonGrammar
