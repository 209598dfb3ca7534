import TautShape.Tool.JsonLiteral
/-!
# What the tool's reader accepts

The reader ends with a message, with a value that its dialect of JSON derives, or in an
underflow inside a literal that its dialect leads up to; nothing else happens, and the fuel
lasts.  What the dialect derives it reads.
-/

namespace TautShape.Tool

open TautShape.Lib TautShape.Lib.Utf8 TautShape.Lib.JsonGrammar
open TautShape.Log (Bytes)

namespace Json

def collect (fields : List (String × Json)) : List (String × Json) :=
  fields.foldl (fun out field => insertField out field.1 field.2) []

theorem collect_snoc (fields : List (String × Json)) (field : String × Json) :
    collect (fields ++ [field]) = insertField (collect fields) field.1 field.2 := by
  unfold collect
  rw [List.foldl_append]
  rfl

end Json

namespace JsonParser

/-! ## The dialect -/

/-- A number is any run of the bytes of numbers that begins with a digit or a minus sign. -/
inductive Scalar : List UInt8 → Json → Prop
  | null : Scalar [0x6e, 0x75, 0x6c, 0x6c] .null
  | true : Scalar [0x74, 0x72, 0x75, 0x65] (.bool true)
  | false : Scalar [0x66, 0x61, 0x6c, 0x73, 0x65] (.bool false)
  | num {byte : UInt8} {rest : List UInt8} {text : String}
      (hbytes : encode text.toList = byte :: rest)
      (hstart : byte = 0x2d ∨ isDigit byte = true)
      (hall : ∀ b ∈ byte :: rest, isNumberByte b = true) : Scalar (byte :: rest) (.num text)

def loose : Dialect Json where
  space := IsSpace
  literal := looseLiteral
  scalar := Scalar
  string := .str
  array := .arr
  object fields v := v = .obj (Json.collect fields)

def SinksIn (s : Bytes) : Prop :=
  ∃ before rest, s = before ++ rest ∧ Opens loose before ∧ Sinks rest

/-! ## White space -/

theorem isSpace_iff {byte : UInt8} : isSpace byte = true ↔ IsSpace byte := by
  simp only [isSpace, IsSpace, Bool.or_eq_true, decide_eq_true_eq]
  tauto

theorem split_spaces (s : Bytes) :
    ∃ w t, s.dropWhile isSpace = t ∧ s = w ++ t ∧ Spaces loose w := by
  refine ⟨s.takeWhile isSpace, s.dropWhile isSpace, rfl, List.takeWhile_append_dropWhile.symm, ?_⟩
  intro byte hmem
  exact isSpace_iff.mp (List.mem_takeWhile_imp hmem)

/-! ## Strings -/

theorem string_spec {n : Nat} {s : Bytes} (hs : s.length ≤ n) :
    EndsAs (string.on n (0x22 :: s))
      (fun v t => ∃ b cs, s = b ++ 0x22 :: t ∧ looseLiteral b cs ∧ v = String.ofList cs)
      (Sinks s) := by
  unfold string
  rw [on_bind_ok (on_advance 1), on_bind_ok on_read]
  exact characters_spec n [] s (by omega)

/-! ## Values -/

section spec

variable {n bound : Nat} {element : JsonParser Json}

def ReadsValue (s : Bytes) (v : Json) (t : Bytes) : Prop :=
  ∃ w b, s = w ++ b ++ t ∧ Spaces loose w ∧ Derives loose (.value v) b

/-- `element` does on inputs below a bound what a value of the dialect calls for. -/
def Meets (element : JsonParser Json) (n bound : Nat) : Prop :=
  ∀ s : Bytes, s.length < bound → EndsAs (element.on n s) (ReadsValue s) (SinksIn s)

theorem ReadsValue.padded {s t : Bytes} {v : Json} (h : ReadsValue s v t) :
    ∃ b, s = b ++ t.dropWhile isSpace ∧ Derives loose (.element v) b := by
  obtain ⟨w, b, rfl, hw, hb⟩ := h
  obtain ⟨w', r, hr, rfl, hw'⟩ := split_spaces t
  exact ⟨w ++ b ++ w', by rw [hr]; simp, .element hw hb hw'⟩

theorem elements_spec (helement : Meets element n bound) {fuel : Nat} (out : List Json) (s : Bytes)
    (hfuel : s.length < fuel) (hbound : s.length < bound) :
    EndsAs ((elements element fuel out).on n s)
      (fun v t => ∃ b vs, s = b ++ 0x5d :: t ∧ Derives loose (.elements vs) b ∧
        v = .arr (out ++ vs))
      (∃ vs b inner rest, s = b ++ inner ++ rest ∧ ElementsDone loose vs b ∧ Opens loose inner ∧
        Sinks rest) := by
  induction fuel generalizing out s with
  | zero => exact absurd hfuel (by omega)
  | succ fuel ih =>
      rw [elements]
      apply (helement s hbound).bind
      · rintro ⟨before, rest, rfl, hopens, hsinks⟩
        exact ⟨[], [], before, rest, rfl, .inl ⟨rfl, rfl⟩, hopens, hsinks⟩
      · intro v t hv
        obtain ⟨b, rfl, hb⟩ := hv.padded
        rw [on_bind_ok on_skipWs, on_bind_ok on_peek]
        split
        case h_1 hcomma =>
            obtain ⟨r, hr⟩ := List.head?_eq_some_iff.mp hcomma
            rw [hr] at hfuel hbound ⊢
            simp only [List.length_append, List.length_cons] at hfuel hbound
            rw [on_bind_ok (on_advance 1), List.drop_one, List.tail_cons]
            apply (ih (out ++ [v]) r (by omega) (by omega)).imp
            · rintro u x ⟨e, vs, rfl, he, rfl⟩
              exact ⟨b ++ 0x2c :: e, v :: vs, by simp, .elements hb he, by simp⟩
            · rintro ⟨vs, e, inner, rest, rfl, he, hinner, hrest⟩
              exact ⟨v :: vs, b ++ 0x2c :: e, inner, rest, by simp, he.cons hb, hinner, hrest⟩
        case h_2 hclose =>
            obtain ⟨r, hr⟩ := List.head?_eq_some_iff.mp hclose
            rw [hr, on_bind_ok (on_advance 1), on_pure]
            exact .ok ⟨b, [v], rfl, .oneElement hb, rfl⟩
        case h_3 => exact .message _

inductive KeyRead (key : String) : Bytes → Prop
  | mk {before bytes between : List UInt8} {cs : List Char} (hbefore : Spaces loose before)
      (hkey : looseLiteral bytes cs) (hbetween : Spaces loose between)
      (heq : key = String.ofList cs) :
      KeyRead key (before ++ 0x22 :: bytes ++ 0x22 :: between ++ [0x3a])

theorem key_spec {s : Bytes} (hs : s.length ≤ n) :
    EndsAs (key.on n s) (fun k t => ∃ b, s = b ++ t ∧ KeyRead k b)
      (∃ before rest, s = before ++ 0x22 :: rest ∧ Spaces loose before ∧ Sinks rest) := by
  obtain ⟨w, r, hr, rfl, hw⟩ := split_spaces s
  unfold key
  rw [on_bind_ok on_skipWs, on_bind_ok on_peek, hr]
  split
  case isTrue => exact .message _
  case isFalse hquote =>
      obtain ⟨r, rfl⟩ := List.head?_eq_some_iff.mp (not_not.mp hquote)
      simp only [List.length_append, List.length_cons] at hs
      apply (string_spec (s := r) (by omega)).bind
      · intro hsinks
        exact ⟨w, r, rfl, hw, hsinks⟩
      · rintro k t ⟨b, cs, rfl, hb, rfl⟩
        obtain ⟨w', u, hu, rfl, hw'⟩ := split_spaces t
        rw [on_bind_ok on_skipWs, on_bind_ok on_peek, hu]
        split
        case isTrue => exact .message _
        case isFalse hcolon =>
            obtain ⟨u, rfl⟩ := List.head?_eq_some_iff.mp (not_not.mp hcolon)
            rw [on_bind_ok (on_advance 1), on_pure]
            exact .ok ⟨_, by simp, .mk hw hb hw' rfl⟩

theorem KeyRead.member {key : String} {b bytes : Bytes} {v : Json} (h : KeyRead key b)
    (hv : Derives loose (.element v) bytes) : Derives loose (.member (key, v)) (b ++ bytes) := by
  cases h with
  | mk hbefore hkey hbetween heq =>
      have hmember := Derives.member hbefore hkey hbetween hv
      rw [heq]
      simpa using hmember

theorem members_spec (helement : Meets element n bound) (hn : bound ≤ n + 1) {fuel : Nat}
    (done : List (String × Json)) (s : Bytes) (hfuel : s.length < fuel) (hbound : s.length < bound) :
    EndsAs ((members element fuel (Json.collect done)).on n s)
      (fun v t => ∃ b fields, s = b ++ 0x7d :: t ∧ Derives loose (.members fields) b ∧
        v = .obj (Json.collect (done ++ fields)))
      (∃ fields b inner rest, s = b ++ inner ++ rest ∧ MembersDone loose fields b ∧
        ((∃ w, inner = w ++ [0x22] ∧ Spaces loose w) ∨
          ∃ k key before, inner = key ++ before ∧ KeyRead k key ∧ Opens loose before) ∧
        Sinks rest) := by
  induction fuel generalizing done s with
  | zero => exact absurd hfuel (by omega)
  | succ fuel ih =>
      rw [members]
      apply (key_spec (by omega)).bind
      · rintro ⟨before, rest, rfl, hbefore, hsinks⟩
        exact ⟨[], [], before ++ [0x22], rest, by simp, .inl ⟨rfl, rfl⟩,
          .inl ⟨before, rfl, hbefore⟩, hsinks⟩
      · rintro k t ⟨key, rfl, hkey⟩
        simp only [List.length_append] at hfuel hbound
        apply (helement t (by omega)).bind
        · rintro ⟨before, rest, rfl, hopens, hsinks⟩
          exact ⟨[], [], key ++ before, rest, by simp, .inl ⟨rfl, rfl⟩,
            .inr ⟨k, key, before, rfl, hkey, hopens⟩, hsinks⟩
        · intro v u hv
          obtain ⟨b, rfl, hb⟩ := hv.padded
          have hmember := hkey.member hb
          rw [on_bind_ok on_skipWs, on_bind_ok on_peek, ← Json.collect_snoc done (k, v)]
          split
          case h_1 hcomma =>
              obtain ⟨r, hr⟩ := List.head?_eq_some_iff.mp hcomma
              rw [hr] at hfuel hbound ⊢
              simp only [List.length_append, List.length_cons] at hfuel hbound
              rw [on_bind_ok (on_advance 1), List.drop_one, List.tail_cons]
              apply (ih (done ++ [(k, v)]) r (by omega) (by omega)).imp
              · rintro x y ⟨e, fields, rfl, he, rfl⟩
                exact ⟨key ++ b ++ 0x2c :: e, (k, v) :: fields, by simp, .members hmember he,
                  by simp⟩
              · rintro ⟨fields, e, inner, rest, rfl, he, hinner, hrest⟩
                exact ⟨(k, v) :: fields, key ++ b ++ 0x2c :: e, inner, rest, by simp,
                  he.cons hmember, hinner, hrest⟩
          case h_2 hclose =>
              obtain ⟨r, hr⟩ := List.head?_eq_some_iff.mp hclose
              rw [hr, on_bind_ok (on_advance 1), on_pure]
              exact .ok ⟨key ++ b, [(k, v)], by simp, .oneMember hmember, rfl⟩
          case h_3 => exact .message _

def ReadsHere (s : Bytes) (v : Json) (t : Bytes) : Prop :=
  ∃ b, s = b ++ t ∧ Derives loose (.value v) b

theorem literal_spec {s lit : Bytes} {val : Json} (hscalar : Scalar lit val) :
    EndsAs ((literal lit val).on n s) (ReadsHere s) (SinksIn s) := by
  unfold literal
  rw [on_bind_ok on_get]
  split
  case isTrue htake =>
      rw [on_bind_ok (on_advance _), on_pure]
      refine .ok ⟨lit, ?_, .scalar hscalar⟩
      calc s = s.take lit.length ++ s.drop lit.length := (List.take_append_drop _ _).symm
        _ = lit ++ s.drop lit.length := by rw [htake]
  case isFalse => exact .message _

theorem numberByte_of_start {byte : UInt8} (h : byte = 0x2d ∨ isDigit byte = true) :
    isNumberByte byte = true := by
  rcases h with rfl | h
  · decide
  · simp [isNumberByte, h]

theorem number_spec {byte : UInt8} {s : Bytes} (hstart : byte = 0x2d ∨ isDigit byte = true) :
    EndsAs (number.on n (byte :: s)) (ReadsHere (byte :: s)) (SinksIn (byte :: s)) := by
  have hbyte := numberByte_of_start hstart
  have htake : (byte :: s).takeWhile isNumberByte = byte :: s.takeWhile isNumberByte := by
    rw [List.takeWhile_cons, if_pos hbyte]
  have hall : ∀ b ∈ byte :: s.takeWhile isNumberByte, isNumberByte b = true := by
    rw [← htake]
    exact fun b hb => List.mem_takeWhile_imp hb
  unfold number
  rw [on_bind_ok on_get, on_bind_ok (on_modify _)]
  split
  case h_1 text htext =>
      have hbytes := eq_encode_of_fromUTF8 htext
      rw [htake] at hbytes
      refine .ok ⟨byte :: s.takeWhile isNumberByte, ?_, .scalar (.num hbytes.symm hstart hall)⟩
      rw [← htake, List.takeWhile_append_dropWhile]
  case h_2 => exact .message _

theorem array_spec (helement : Meets element n bound) (hn : bound ≤ n + 1) {s : Bytes}
    (hs : s.length < bound) :
    EndsAs ((array element).on n (0x5b :: s)) (ReadsHere (0x5b :: s)) (SinksIn (0x5b :: s)) := by
  obtain ⟨w, r, hr, rfl, hw⟩ := split_spaces s
  have hlength : r.length < bound := by
    rw [List.length_append] at hs
    omega
  unfold array
  rw [on_bind_ok (on_advance 1), List.drop_one, List.tail_cons, on_bind_ok on_skipWs,
    on_bind_ok on_peek, hr]
  split
  case isTrue hclose =>
      obtain ⟨r, rfl⟩ := List.head?_eq_some_iff.mp hclose
      rw [on_bind_ok (on_advance 1), on_pure]
      exact .ok ⟨0x5b :: w ++ [0x5d], by simp, .emptyArray hw⟩
  case isFalse =>
      rw [on_bind_ok on_read]
      apply (elements_spec helement [] r (by omega) hlength).imp
      · rintro v t ⟨b, vs, rfl, hb, rfl⟩
        exact ⟨0x5b :: (w ++ b) ++ [0x5d], by simp, .array (hb.padded hw)⟩
      · rintro ⟨vs, b, inner, rest, rfl, hdone, hinner, hrest⟩
        exact ⟨0x5b :: w ++ b ++ inner, rest, by simp, .bracket hw hdone hinner, hrest⟩

theorem object_spec (helement : Meets element n bound) (hn : bound ≤ n + 1) {s : Bytes}
    (hs : s.length < bound) :
    EndsAs ((object element).on n (0x7b :: s)) (ReadsHere (0x7b :: s)) (SinksIn (0x7b :: s)) := by
  obtain ⟨w, r, hr, rfl, hw⟩ := split_spaces s
  have hlength : r.length < bound := by
    rw [List.length_append] at hs
    omega
  unfold object
  rw [on_bind_ok (on_advance 1), List.drop_one, List.tail_cons, on_bind_ok on_skipWs,
    on_bind_ok on_peek, hr]
  split
  case isTrue hclose =>
      obtain ⟨r, rfl⟩ := List.head?_eq_some_iff.mp hclose
      rw [on_bind_ok (on_advance 1), on_pure]
      exact .ok ⟨0x7b :: w ++ [0x7d], by simp, .emptyObject hw rfl⟩
  case isFalse =>
      rw [on_bind_ok on_read]
      apply (members_spec helement hn [] r (by omega) hlength).imp
      · rintro v t ⟨b, fields, rfl, hb, rfl⟩
        exact ⟨0x7b :: (w ++ b) ++ [0x7d], by simp, .object (hb.paddedMembers hw) rfl⟩
      · rintro ⟨fields, b, inner, rest, rfl, hdone, hinner, hrest⟩
        rcases hinner with ⟨w', rfl, hw'⟩ | ⟨k, key, before, rfl, hkey, hopens⟩
        · exact ⟨0x7b :: w ++ b ++ w' ++ [0x22], rest, by simp, .braceKey hw hdone hw', hrest⟩
        · cases hkey with
          | mk hbefore hkey hbetween _ =>
              exact ⟨_, rest, by simp, .braceField hw hdone hbefore hkey hbetween hopens, hrest⟩

theorem string_value_spec {s : Bytes} (hs : s.length ≤ n) :
    EndsAs ((Json.str <$> string).on n (0x22 :: s)) (ReadsHere (0x22 :: s))
      (SinksIn (0x22 :: s)) := by
  have hmap : (Json.str <$> string).on n (0x22 :: s) =
      (string >>= fun text => pure (Json.str text)).on n (0x22 :: s) := by
    rw [map_eq_pure_bind]
  rw [hmap]
  apply (string_spec hs).bind
  · intro hsinks
    exact ⟨[] ++ [0x22], s, rfl, .literal .nil, hsinks⟩
  · rintro v t ⟨b, cs, rfl, hb, rfl⟩
    rw [on_pure]
    exact .ok ⟨0x22 :: b ++ [0x22], by simp, .string hb⟩

theorem value_spec (depth : Nat) (hn : depth ≤ n + 1) : Meets (value depth) n depth := by
  induction depth with
  | zero =>
      intro s hs
      exact absurd hs (by omega)
  | succ depth ih =>
      intro s hs
      obtain ⟨w, r, hr, rfl, hw⟩ := split_spaces s
      rw [List.length_append] at hs
      have hhere : EndsAs ((value (depth + 1)).on n (w ++ r)) (ReadsHere r) (SinksIn r) := by
        rw [value, on_bind_ok on_skipWs, on_bind_ok on_peek, hr]
        split
        case h_1 hhead =>
            obtain ⟨r, rfl⟩ := List.head?_eq_some_iff.mp hhead
            rw [List.length_cons] at hs
            exact object_spec (ih (by omega)) (by omega) (by omega)
        case h_2 hhead =>
            obtain ⟨r, rfl⟩ := List.head?_eq_some_iff.mp hhead
            rw [List.length_cons] at hs
            exact array_spec (ih (by omega)) (by omega) (by omega)
        case h_3 hhead =>
            obtain ⟨r, rfl⟩ := List.head?_eq_some_iff.mp hhead
            rw [List.length_cons] at hs
            exact string_value_spec (by omega)
        case h_4 => exact literal_spec .true
        case h_5 => exact literal_spec .false
        case h_6 => exact literal_spec .null
        case h_7 byte _ _ _ _ _ _ hhead =>
            obtain ⟨r, rfl⟩ := List.head?_eq_some_iff.mp hhead
            split
            case isTrue hstart => exact number_spec hstart
            case isFalse => exact .message _
        case h_8 => exact .message _
      apply hhere.imp
      · rintro v t ⟨b, rfl, hb⟩
        exact ⟨w, b, by simp, hw, hb⟩
      · rintro ⟨before, rest, rfl, hopens, hrest⟩
        exact ⟨w ++ before, rest, by simp, hopens.padded hw, hrest⟩

end spec

/-! ## What is derived is read -/

def Dark (s : Bytes) : Prop := ∀ byte ∈ s.head?, isSpace byte = false

def Halts (s : Bytes) : Prop := ∀ byte ∈ s.head?, isNumberByte byte = false

theorem dark_cons {byte : UInt8} {s : Bytes} (h : isSpace byte = false) : Dark (byte :: s) := by
  simpa [Dark] using h

theorem halts_cons {byte : UInt8} {s : Bytes} (h : isNumberByte byte = false) :
    Halts (byte :: s) := by
  simpa [Halts] using h

theorem halts_spaces {w s : Bytes} (hw : Spaces loose w) (hs : Halts s) : Halts (w ++ s) := by
  cases w with
  | nil => exact hs
  | cons byte w =>
      apply halts_cons
      have hbyte : IsSpace byte := hw byte List.mem_cons_self
      rcases hbyte with rfl | rfl | rfl | rfl <;> decide

theorem dropWhile_spaces {w s : Bytes} (hw : Spaces loose w) (hs : Dark s) :
    (w ++ s).dropWhile isSpace = s := by
  rw [List.dropWhile_append_of_pos fun byte hmem => isSpace_iff.mpr (hw byte hmem)]
  cases s with
  | nil => rfl
  | cons byte s =>
      have hbyte : isSpace byte = false := hs byte (by simp)
      simp [hbyte]

theorem dropWhile_idem (s : Bytes) :
    (s.dropWhile isSpace).dropWhile isSpace = s.dropWhile isSpace :=
  List.dropWhile_idempotent _ s

section skip

variable {n : Nat}

theorem value_skip (depth : Nat) (s : Bytes) :
    (value depth).on n (s.dropWhile isSpace) = (value depth).on n s := by
  cases depth with
  | zero => rfl
  | succ depth => rw [value, on_bind_ok on_skipWs, on_bind_ok on_skipWs, dropWhile_idem]

theorem key_skip (s : Bytes) : key.on n (s.dropWhile isSpace) = key.on n s := by
  unfold key
  rw [on_bind_ok on_skipWs, on_bind_ok on_skipWs, dropWhile_idem]

theorem elements_skip {depth fuel : Nat} {out : List Json} (s : Bytes) :
    (elements (value depth) fuel out).on n (s.dropWhile isSpace) =
      (elements (value depth) fuel out).on n s := by
  cases fuel with
  | zero => rfl
  | succ fuel => rw [elements, on_bind, on_bind, value_skip]

theorem members_skip {depth fuel : Nat} {out : List (String × Json)} (s : Bytes) :
    (members (value depth) fuel out).on n (s.dropWhile isSpace) =
      (members (value depth) fuel out).on n s := by
  cases fuel with
  | zero => rfl
  | succ fuel => rw [members, on_bind, on_bind, key_skip]

theorem on_value_dark {depth : Nat} {w s : Bytes} (hw : Spaces loose w) (hs : Dark s) :
    (value depth).on n (w ++ s) = (value depth).on n s := by
  rw [← value_skip, dropWhile_spaces hw hs]

end skip

/-! ### Rounds of the loops -/

section rounds

variable {n fuel : Nat} {element : JsonParser Json} {s t u w r : Bytes} {v : Json} {k : String}

theorem on_elements_comma {out : List Json} (h : element.on n s = .ok (v, w ++ 0x2c :: t))
    (hw : Spaces loose w) :
    (elements element (fuel + 1) out).on n s = (elements element fuel (out ++ [v])).on n t := by
  rw [elements, on_bind_ok h, on_bind_ok on_skipWs, dropWhile_spaces hw (dark_cons (by decide))]
  rfl

theorem on_elements_close {out : List Json} (h : element.on n s = .ok (v, w ++ 0x5d :: t))
    (hw : Spaces loose w) :
    (elements element (fuel + 1) out).on n s = .ok (.arr (out ++ [v]), t) := by
  rw [elements, on_bind_ok h, on_bind_ok on_skipWs, dropWhile_spaces hw (dark_cons (by decide))]
  rfl

theorem on_members_comma {out : List (String × Json)} (hkey : key.on n s = .ok (k, u))
    (h : element.on n u = .ok (v, w ++ 0x2c :: t)) (hw : Spaces loose w) :
    (members element (fuel + 1) out).on n s =
      (members element fuel (Json.insertField out k v)).on n t := by
  rw [members, on_bind_ok hkey, on_bind_ok h, on_bind_ok on_skipWs,
    dropWhile_spaces hw (dark_cons (by decide))]
  rfl

theorem on_members_close {out : List (String × Json)} (hkey : key.on n s = .ok (k, u))
    (h : element.on n u = .ok (v, w ++ 0x7d :: t)) (hw : Spaces loose w) :
    (members element (fuel + 1) out).on n s = .ok (.obj (Json.insertField out k v), t) := by
  rw [members, on_bind_ok hkey, on_bind_ok h, on_bind_ok on_skipWs,
    dropWhile_spaces hw (dark_cons (by decide))]
  rfl

end rounds

theorem on_key {n : Nat} {k : String} {b t : Bytes} (h : KeyRead k b) (hn : b.length ≤ n) :
    key.on n (b ++ t) = .ok (k, t) := by
  cases h with
  | @mk before bytes between cs hbefore hkey hbetween heq =>
      have hlength := Pieces.length_le hkey
      simp only [List.length_append, List.length_cons] at hn
      have hstring : string.on n (0x22 :: (bytes ++ 0x22 :: (between ++ 0x3a :: t))) =
          .ok (k, between ++ 0x3a :: t) := by
        unfold string
        rw [on_bind_ok (on_advance 1), on_bind_ok on_read, List.drop_one, List.tail_cons,
          on_characters_closed hkey (by omega), heq]
        rfl
      have hbytes : before ++ 0x22 :: bytes ++ 0x22 :: between ++ [0x3a] ++ t =
          before ++ 0x22 :: (bytes ++ 0x22 :: (between ++ 0x3a :: t)) := by simp
      unfold key
      rw [hbytes, on_bind_ok on_skipWs, dropWhile_spaces hbefore (dark_cons (by decide)),
        on_bind_ok on_peek, if_neg (by simp), on_bind_ok hstring, on_bind_ok on_skipWs,
        dropWhile_spaces hbetween (dark_cons (by decide)), on_bind_ok on_peek, if_neg (by simp)]
      rfl

/-! ### Values -/

theorem digit_facts : ∀ byte : UInt8, (byte = 0x2d ∨ isDigit byte = true) →
    isSpace byte = false ∧ byte ≠ 0x5d ∧ byte ≠ 0x7d ∧ byte ≠ 0x7b ∧ byte ≠ 0x5b ∧ byte ≠ 0x22 ∧
      byte ≠ 0x74 ∧ byte ≠ 0x66 ∧ byte ≠ 0x6e := by
  decide +kernel

theorem on_value_number {n depth : Nat} {byte : UInt8} {s : Bytes}
    (hstart : byte = 0x2d ∨ isDigit byte = true) :
    (value (depth + 1)).on n (byte :: s) = number.on n (byte :: s) := by
  obtain ⟨hspace, -, -, hbrace, hbracket, hquote, ht, hf, hn⟩ := digit_facts byte hstart
  rw [value, on_bind_ok on_skipWs, on_bind_ok on_peek,
    List.dropWhile_cons_of_neg (by simp [hspace]), List.head?_cons]
  split
  case h_1 h => exact absurd (Option.some_inj.mp h) hbrace
  case h_2 h => exact absurd (Option.some_inj.mp h) hbracket
  case h_3 h => exact absurd (Option.some_inj.mp h) hquote
  case h_4 h => exact absurd (Option.some_inj.mp h) ht
  case h_5 h => exact absurd (Option.some_inj.mp h) hf
  case h_6 h => exact absurd (Option.some_inj.mp h) hn
  case h_7 b _ _ _ _ _ _ h =>
      rw [if_pos (by rw [← Option.some_inj.mp h]; exact hstart)]
  case h_8 h => exact absurd h (by simp)

/-- What stands between brackets, white space apart, does not close them. -/
def NotClosing (b : Bytes) : Prop :=
  ∃ byte r, b.dropWhile isSpace = byte :: r ∧ byte ≠ 0x5d ∧ byte ≠ 0x7d

theorem notClosing_of_derives {phrase : Phrase Json} {b : Bytes} (h : Derives loose phrase b)
    (more : Bytes) : NotClosing (b ++ more) := by
  have hscalar : ∀ b v, Scalar b v → ∃ byte r, b = byte :: r ∧
      (isSpace byte = false ∧ byte ≠ 0x5d ∧ byte ≠ 0x7d) := by
    intro b v hb
    cases hb with
    | null => exact ⟨0x6e, _, rfl, by decide⟩
    | true => exact ⟨0x74, _, rfl, by decide⟩
    | false => exact ⟨0x66, _, rfl, by decide⟩
    | @num byte rest text _ hstart _ =>
        obtain ⟨hspace, hbracket, hbrace, -⟩ := digit_facts byte hstart
        exact ⟨byte, rest, rfl, hspace, hbracket, hbrace⟩
  obtain ⟨w, byte, r, rfl, hw, hspace, hne⟩ :=
    h.starts hscalar (by decide) (by decide) (by decide)
  refine ⟨byte, r ++ more, ?_, hne⟩
  rw [List.append_assoc]
  exact dropWhile_spaces hw (dark_cons hspace)

theorem on_array {n depth : Nat} {b : Bytes} (hb : NotClosing b) :
    (array (value depth)).on n (0x5b :: b) = (elements (value depth) (n + 1) []).on n b := by
  obtain ⟨byte, r, hbytes, hbyte, -⟩ := hb
  rw [← elements_skip]
  unfold array
  rw [on_bind_ok (on_advance 1), List.drop_one, List.tail_cons, on_bind_ok on_skipWs,
    on_bind_ok on_peek, hbytes, List.head?_cons, if_neg (by simpa using hbyte),
    on_bind_ok on_read]

theorem on_object {n depth : Nat} {b : Bytes} (hb : NotClosing b) :
    (object (value depth)).on n (0x7b :: b) = (members (value depth) (n + 1) []).on n b := by
  obtain ⟨byte, r, hbytes, -, hbyte⟩ := hb
  rw [← members_skip]
  unfold object
  rw [on_bind_ok (on_advance 1), List.drop_one, List.tail_cons, on_bind_ok on_skipWs,
    on_bind_ok on_peek, hbytes, List.head?_cons, if_neg (by simpa using hbyte),
    on_bind_ok on_read]

theorem on_array_empty {n : Nat} {element : JsonParser Json} {w s : Bytes}
    (hw : Spaces loose w) : (array element).on n (0x5b :: (w ++ 0x5d :: s)) = .ok (.arr [], s) := by
  unfold array
  rw [on_bind_ok (on_advance 1), List.drop_one, List.tail_cons, on_bind_ok on_skipWs,
    dropWhile_spaces hw (dark_cons (by decide))]
  rfl

theorem on_object_empty {n : Nat} {element : JsonParser Json} {w s : Bytes}
    (hw : Spaces loose w) :
    (object element).on n (0x7b :: (w ++ 0x7d :: s)) = .ok (.obj [], s) := by
  unfold object
  rw [on_bind_ok (on_advance 1), List.drop_one, List.tail_cons, on_bind_ok on_skipWs,
    dropWhile_spaces hw (dark_cons (by decide))]
  rfl

theorem on_literal {n : Nat} (lit : Bytes) (val : Json) (s : Bytes) :
    (literal lit val).on n (lit ++ s) = .ok (val, s) := by
  unfold literal
  rw [on_bind_ok on_get, if_pos (List.take_left' rfl), on_bind_ok (on_advance _), on_pure,
    List.drop_left]

theorem on_number {n : Nat} {b : Bytes} {text : String} {s : Bytes}
    (hbytes : encode text.toList = b) (hall : ∀ byte ∈ b, isNumberByte byte = true)
    (hs : Halts s) : number.on n (b ++ s) = .ok (.num text, s) := by
  have hnone : s.takeWhile isNumberByte = [] ∧ s.dropWhile isNumberByte = s := by
    cases s with
    | nil => exact ⟨rfl, rfl⟩
    | cons byte s =>
        have hbyte : isNumberByte byte = false := hs byte (by simp)
        simp [hbyte]
  have htake : (b ++ s).takeWhile isNumberByte = b := by
    rw [List.takeWhile_append_of_pos hall, hnone.1, List.append_nil]
  have hdrop : (b ++ s).dropWhile isNumberByte = s := by
    rw [List.dropWhile_append_of_pos hall, hnone.2]
  have hdecode : String.fromUTF8? ⟨b.toArray⟩ = some text := by
    rw [← hbytes, fromUTF8_encode, String.ofList_toList]
  unfold number
  rw [on_bind_ok on_get, on_bind_ok (on_modify _), htake, hdrop, hdecode]
  rfl

/-- What the reader makes of the bytes of a phrase, whatever follows them. -/
def Reads : Phrase Json → Bytes → Prop
  | .value v, b => ∀ n depth w s, b.length < depth → b.length ≤ n → Spaces loose w → Halts s →
      (value depth).on n (w ++ b ++ s) = .ok (v, s)
  | .element v, b => ∀ n depth s, b.length < depth → b.length ≤ n → Halts s →
      ∃ w, Spaces loose w ∧ (value depth).on n (b ++ s) = .ok (v, w ++ s)
  | .elements vs, b => ∀ n depth fuel out s, b.length < depth → b.length ≤ n →
      (elements (value depth) (fuel + vs.length) out).on n (b ++ 0x2c :: s) =
          (elements (value depth) fuel (out ++ vs)).on n s ∧
        (elements (value depth) (fuel + vs.length) out).on n (b ++ 0x5d :: s) =
          .ok (.arr (out ++ vs), s)
  | .member field, b => ∀ n depth s, b.length < depth → b.length ≤ n → Halts s →
      ∃ t w, Spaces loose w ∧ key.on n (b ++ s) = .ok (field.1, t) ∧
        (value depth).on n t = .ok (field.2, w ++ s)
  | .members fields, b => ∀ n depth fuel done s, b.length < depth → b.length ≤ n →
      (members (value depth) (fuel + fields.length) (Json.collect done)).on n (b ++ 0x2c :: s) =
          (members (value depth) fuel (Json.collect (done ++ fields))).on n s ∧
        (members (value depth) (fuel + fields.length) (Json.collect done)).on n (b ++ 0x7d :: s) =
          .ok (.obj (Json.collect (done ++ fields)), s)

theorem reads_scalar {b : Bytes} {v : Json} (h : Scalar b v) : Reads (.value v) b := by
  intro n depth w s hdepth hn hw hs
  obtain ⟨depth, rfl⟩ := Nat.exists_eq_add_one.mpr (Nat.zero_lt_of_lt hdepth)
  rw [List.append_assoc]
  cases h with
  | null =>
      have hdark : Dark ([0x6e, 0x75, 0x6c, 0x6c] ++ s) := dark_cons (by decide)
      have hstart : (value (depth + 1)).on n ([0x6e, 0x75, 0x6c, 0x6c] ++ s) =
          (literal "null".toUTF8.data.toList .null).on n
            ([0x6e, 0x75, 0x6c, 0x6c] ++ s) := rfl
      rw [on_value_dark hw hdark, hstart]
      exact on_literal _ _ s
  | true =>
      have hdark : Dark ([0x74, 0x72, 0x75, 0x65] ++ s) := dark_cons (by decide)
      have hstart : (value (depth + 1)).on n ([0x74, 0x72, 0x75, 0x65] ++ s) =
          (literal "true".toUTF8.data.toList (.bool true)).on n
            ([0x74, 0x72, 0x75, 0x65] ++ s) := rfl
      rw [on_value_dark hw hdark, hstart]
      exact on_literal _ _ s
  | false =>
      have hdark : Dark ([0x66, 0x61, 0x6c, 0x73, 0x65] ++ s) := dark_cons (by decide)
      have hstart : (value (depth + 1)).on n ([0x66, 0x61, 0x6c, 0x73, 0x65] ++ s) =
          (literal "false".toUTF8.data.toList (.bool false)).on n
            ([0x66, 0x61, 0x6c, 0x73, 0x65] ++ s) := rfl
      rw [on_value_dark hw hdark, hstart]
      exact on_literal _ _ s
  | @num byte rest text hbytes hstart hall =>
      have hdark : Dark (byte :: rest ++ s) := dark_cons (digit_facts byte hstart).1
      rw [on_value_dark hw hdark, List.cons_append, on_value_number hstart]
      exact on_number hbytes hall hs

theorem reads_string {b : Bytes} {cs : List Char} (h : looseLiteral b cs) :
    Reads (.value (.str (String.ofList cs))) (0x22 :: b ++ [0x22]) := by
  intro n depth w s hdepth hn hw hs
  obtain ⟨depth, rfl⟩ := Nat.exists_eq_add_one.mpr (Nat.zero_lt_of_lt hdepth)
  have hlength := Pieces.length_le h
  simp only [List.length_append, List.length_cons] at hn
  have hvalue : (value (depth + 1)).on n (0x22 :: (b ++ 0x22 :: s)) =
      (string >>= fun text => pure (Json.str text)).on n (0x22 :: (b ++ 0x22 :: s)) := by
    rw [← map_eq_pure_bind]
    rfl
  have hstring : string.on n (0x22 :: (b ++ 0x22 :: s)) = .ok (String.ofList cs, s) := by
    unfold string
    rw [on_bind_ok (on_advance 1), on_bind_ok on_read, List.drop_one, List.tail_cons,
      on_characters_closed h (by omega)]
    rfl
  have hbytes : w ++ (0x22 :: b ++ [0x22]) ++ s = w ++ 0x22 :: (b ++ 0x22 :: s) := by simp
  rw [hbytes, on_value_dark hw (dark_cons (by decide)), hvalue, on_bind_ok hstring, on_pure]

theorem reads_brackets {b : Bytes} {v : Json} {left right : UInt8}
    (hleft : isSpace left = false)
    (h : ∀ n depth s, b.length < depth → b.length ≤ n →
      (value (depth + 1)).on n (left :: (b ++ right :: s)) = .ok (v, s)) :
    Reads (.value v) (left :: b ++ [right]) := by
  intro n depth w s hdepth hn hw hs
  obtain ⟨depth, rfl⟩ := Nat.exists_eq_add_one.mpr (Nat.zero_lt_of_lt hdepth)
  have hbytes : w ++ (left :: b ++ [right]) ++ s = w ++ left :: (b ++ right :: s) := by simp
  simp only [List.length_append, List.length_cons] at hdepth hn
  rw [hbytes, on_value_dark hw (dark_cons hleft)]
  exact h n depth s (by omega) (by omega)

theorem fuel_split {phrase : Phrase Json} {b : Bytes} (h : Derives loose phrase b) {n : Nat}
    (hn : b.length ≤ n) : ∃ k, n + 1 = k + 1 + phrase.count := by
  have hscalar : ∀ b v, Scalar b v → b ≠ [] := by
    intro b v hb
    cases hb <;> simp
  have hcount := h.count_le hscalar
  exact ⟨n - phrase.count, by omega⟩

theorem reads_of_derives {phrase : Phrase Json} {b : Bytes} (h : Derives loose phrase b) :
    Reads phrase b := by
  induction h with
  | scalar hscalar => exact reads_scalar hscalar
  | string hliteral => exact reads_string hliteral
  | emptyArray hspaces =>
      apply reads_brackets (by decide)
      intro n depth s hdepth hn
      exact on_array_empty hspaces
  | @array bytes vs helements ih =>
      apply reads_brackets (by decide)
      intro n depth s hdepth hn
      obtain ⟨k, hk⟩ := fuel_split helements hn
      have hclose := (ih n depth (k + 1) [] s hdepth hn).2
      have hvalue : (value (depth + 1)).on n (0x5b :: (bytes ++ 0x5d :: s)) =
          (array (value depth)).on n (0x5b :: (bytes ++ 0x5d :: s)) := rfl
      rw [hvalue, on_array (notClosing_of_derives helements _), hk]
      exact hclose
  | emptyObject hspaces hobject =>
      apply reads_brackets (by decide)
      intro n depth s hdepth hn
      rw [show _ = Json.obj [] from hobject]
      exact on_object_empty hspaces
  | @object bytes fields v hmembers hobject ih =>
      apply reads_brackets (by decide)
      intro n depth s hdepth hn
      obtain ⟨k, hk⟩ := fuel_split hmembers hn
      have hclose := (ih n depth (k + 1) [] s hdepth hn).2
      have hvalue : (value (depth + 1)).on n (0x7b :: (bytes ++ 0x7d :: s)) =
          (object (value depth)).on n (0x7b :: (bytes ++ 0x7d :: s)) := rfl
      rw [hvalue, on_object (notClosing_of_derives hmembers _), hk, show v = _ from hobject]
      exact hclose
  | @element before bytes after v hbefore hvalue hafter ih =>
      intro n depth s hdepth hn hs
      simp only [List.length_append] at hdepth hn
      have hrun := ih n depth before (after ++ s) (by omega) (by omega) hbefore
        (halts_spaces hafter hs)
      exact ⟨after, hafter, by rw [← hrun]; simp⟩
  | oneElement helement ih =>
      intro n depth fuel out s hdepth hn
      constructor
      · obtain ⟨w, hw, hrun⟩ := ih n depth (0x2c :: s) hdepth hn (halts_cons (by decide))
        exact on_elements_comma hrun hw
      · obtain ⟨w, hw, hrun⟩ := ih n depth (0x5d :: s) hdepth hn (halts_cons (by decide))
        exact on_elements_close hrun hw
  | @elements bytes rest v vs helement helements ih ihs =>
      intro n depth fuel out s hdepth hn
      simp only [List.length_append, List.length_cons] at hdepth hn
      have hround : ∀ t, (elements (value depth) (fuel + (v :: vs).length) out).on n
          (bytes ++ 0x2c :: t) = (elements (value depth) (fuel + vs.length) (out ++ [v])).on n t := by
        intro t
        obtain ⟨w, hw, hrun⟩ := ih n depth (0x2c :: t) (by omega) (by omega)
          (halts_cons (by decide))
        exact on_elements_comma hrun hw
      obtain ⟨hcomma, hclose⟩ := ihs n depth fuel (out ++ [v]) s (by omega) (by omega)
      rw [List.append_assoc, List.append_assoc, List.cons_append, List.cons_append, hround,
        hround, hcomma, hclose, List.append_assoc]
      exact ⟨rfl, rfl⟩
  | @member before key between bytes cs v hbefore hkey hbetween helement ih =>
      intro n depth s hdepth hn hs
      simp only [List.length_append, List.length_cons] at hdepth hn
      obtain ⟨w, hw, hrun⟩ := ih n depth s (by omega) (by omega) hs
      have hread : KeyRead (String.ofList cs)
          (before ++ 0x22 :: key ++ 0x22 :: between ++ [0x3a]) := .mk hbefore hkey hbetween rfl
      have hkeyrun := on_key (n := n) (t := bytes ++ s) hread (by simp; omega)
      exact ⟨bytes ++ s, w, hw, by rw [← hkeyrun]; simp, hrun⟩
  | @oneMember bytes field hmember ih =>
      intro n depth fuel done s hdepth hn
      rw [Json.collect_snoc]
      constructor
      · obtain ⟨t, w, hw, hkey, hrun⟩ := ih n depth (0x2c :: s) hdepth hn (halts_cons (by decide))
        exact on_members_comma hkey hrun hw
      · obtain ⟨t, w, hw, hkey, hrun⟩ := ih n depth (0x7d :: s) hdepth hn (halts_cons (by decide))
        exact on_members_close hkey hrun hw
  | @members bytes rest field fields hmember hmembers ih ihs =>
      intro n depth fuel done s hdepth hn
      simp only [List.length_append, List.length_cons] at hdepth hn
      have hround : ∀ t, (JsonParser.members (value depth) (fuel + (field :: fields).length)
          (Json.collect done)).on n (bytes ++ 0x2c :: t) =
            (JsonParser.members (value depth) (fuel + fields.length)
              (Json.collect (done ++ [field]))).on n t := by
        intro t
        obtain ⟨u, w, hw, hkey, hrun⟩ := ih n depth (0x2c :: t) (by omega) (by omega)
          (halts_cons (by decide))
        rw [Json.collect_snoc]
        exact on_members_comma hkey hrun hw
      obtain ⟨hcomma, hclose⟩ := ihs n depth fuel (done ++ [field]) s (by omega) (by omega)
      rw [List.append_assoc, List.append_assoc, List.cons_append, List.cons_append, hround,
        hround, hcomma, hclose, List.append_assoc]
      exact ⟨rfl, rfl⟩

/-! ### Documents -/

theorem document_spec (s : Bytes) :
    EndsAs ((document s.length).on s.length s)
      (fun v t => t = [] ∧ JsonGrammar.Text loose s v) (SinksIn s) := by
  unfold document
  rw [on_bind_ok on_skipWs]
  have hvalue := value_spec (n := s.length) (s.length + 1) (by omega) s (by omega)
  rw [← value_skip] at hvalue
  apply hvalue.bind id
  intro v t hv
  obtain ⟨b, hb, helement⟩ := ReadsValue.padded hv
  rw [on_bind_ok on_skipWs, on_bind_ok on_get]
  split
  case isTrue => exact .message _
  case isFalse hend =>
      have hempty : t.dropWhile isSpace = [] := not_not.mp hend
      rw [on_pure, hempty]
      refine .ok ⟨rfl, ?_⟩
      rw [hb, hempty, List.append_nil]
      exact helement

theorem on_document {s : Bytes} {v : Json} (h : JsonGrammar.Text loose s v) :
    (document s.length).on s.length s = .ok (v, []) := by
  obtain ⟨w, hw, hrun⟩ := reads_of_derives h s.length (s.length + 1) [] (by omega) (by omega)
    (by simp [Halts])
  have hdrop : w.dropWhile isSpace = [] := by
    have hall := dropWhile_spaces (s := []) hw (by simp [Dark])
    rwa [List.append_nil] at hall
  rw [List.append_nil, List.append_nil, ← value_skip] at hrun
  unfold document
  rw [on_bind_ok on_skipWs, on_bind_ok hrun, on_bind_ok on_skipWs, hdrop, on_bind_ok on_get,
    if_neg (by simp)]
  rfl

end JsonParser

namespace Json

theorem parse_eq (text : String) :
    parse text = Prod.fst <$> (JsonParser.document (encode text.toList).length).on
      (encode text.toList).length (encode text.toList) := by
  unfold parse
  rw [data_toUTF8]
  rfl

/-- The reader accepts the texts of its dialect, and returns what they denote. -/
theorem parse_eq_ok_iff {text : String} {v : Json} :
    parse text = .ok v ↔ JsonGrammar.Text JsonParser.loose (encode text.toList) v := by
  rw [parse_eq]
  constructor
  · intro h
    rcases JsonParser.document_spec (encode text.toList) with
      ⟨message, hrun⟩ | ⟨u, t, hrun, -, htext⟩ | ⟨hrun, -⟩
    · rw [hrun] at h
      exact absurd h (by simp)
    · rw [hrun] at h
      obtain rfl : u = v := Except.ok.inj h
      exact htext
    · rw [hrun] at h
      exact absurd h (by simp)
  · intro h
    rw [JsonParser.on_document h]
    rfl

end Json

end TautShape.Tool
