import TautShape.Tool.JsonRoundTrip
/-!
# Where the tool's reader misreads a literal

The reader comes to a literal wherever its dialect leads up to one.  There it may subtract
below zero, or take an escape that is none: a plus sign among the digits, or a second unit
above the low surrogates.  Apart from these it is total and every literal it takes is well
formed.
-/

namespace TautShape.Tool

open TautShape.Lib TautShape.Lib.Utf8 TautShape.Lib.JsonGrammar
open TautShape.Log (Bytes)

namespace JsonParser

/-! ## Faults of a literal are faults of the text -/

section fault

variable {n depth : Nat} {rest : Bytes} {e : Fault}

theorem notClosing_of_opens {before : Bytes} (h : Opens loose before) (more : Bytes) :
    NotClosing (before ++ more) := by
  obtain ⟨w, byte, r, rfl, hw, hbyte⟩ := h.starts
  have hfacts : isSpace byte = false ∧ byte ≠ 0x5d ∧ byte ≠ 0x7d := by
    rcases hbyte with rfl | rfl | rfl <;> decide
  refine ⟨byte, r ++ more, ?_, hfacts.2⟩
  rw [List.append_assoc]
  exact dropWhile_spaces hw (dark_cons hfacts.1)

theorem notClosing_quote {w : Bytes} (hw : Spaces loose w) (more : Bytes) :
    NotClosing (w ++ 0x22 :: more) :=
  ⟨0x22, more, dropWhile_spaces hw (dark_cons (by decide)), by decide⟩

theorem notClosing_of_members {fields : List (String × Json)} {b more : Bytes}
    (h : MembersDone loose fields b) (hmore : NotClosing more) : NotClosing (b ++ more) := by
  rcases h with ⟨rfl, rfl⟩ | ⟨b, rfl, hb⟩
  · exact hmore
  · rw [List.append_assoc]
    exact notClosing_of_derives hb _

theorem on_elements_done (n depth : Nat) {vs : List Json} {b : Bytes} (h : ElementsDone loose vs b)
    (hdepth : b.length ≤ depth) (hn : b.length ≤ n) (s : Bytes) :
    ∃ k, (elements (value depth) (n + 1) []).on n (b ++ s) =
      (elements (value depth) (k + 1) vs).on n s := by
  rcases h with ⟨rfl, rfl⟩ | ⟨b, rfl, hb⟩
  · exact ⟨n, rfl⟩
  · rw [List.length_append, List.length_singleton] at hdepth hn
    obtain ⟨k, hk⟩ := fuel_split hb (n := n) (by omega)
    have hcomma := (reads_of_derives hb n depth (k + 1) [] s (by omega) (by omega)).1
    refine ⟨k, ?_⟩
    rw [hk, List.append_assoc]
    exact hcomma

theorem on_members_done (n depth : Nat) {fields : List (String × Json)} {b : Bytes}
    (h : MembersDone loose fields b) (hdepth : b.length ≤ depth) (hn : b.length ≤ n) (s : Bytes) :
    ∃ k, (members (value depth) (n + 1) []).on n (b ++ s) =
      (members (value depth) (k + 1) (Json.collect fields)).on n s := by
  rcases h with ⟨rfl, rfl⟩ | ⟨b, rfl, hb⟩
  · exact ⟨n, rfl⟩
  · rw [List.length_append, List.length_singleton] at hdepth hn
    obtain ⟨k, hk⟩ := fuel_split hb (n := n) (by omega)
    have hcomma := (reads_of_derives hb n depth (k + 1) [] s (by omega) (by omega)).1
    refine ⟨k, ?_⟩
    rw [hk, List.append_assoc]
    exact hcomma

theorem on_key_fault {w : Bytes} (hw : Spaces loose w)
    (h : string.on n (0x22 :: rest) = .error e) : key.on n (w ++ 0x22 :: rest) = .error e := by
  unfold key
  rw [on_bind_ok on_skipWs, dropWhile_spaces hw (dark_cons (by decide)), on_bind_ok on_peek,
    if_neg (by simp), on_bind_error h]

theorem on_value_array {w s : Bytes} (hw : Spaces loose w) :
    (value (depth + 1)).on n (w ++ 0x5b :: s) = (array (value depth)).on n (0x5b :: s) := by
  rw [on_value_dark hw (dark_cons (by decide))]
  rfl

theorem on_value_object {w s : Bytes} (hw : Spaces loose w) :
    (value (depth + 1)).on n (w ++ 0x7b :: s) = (object (value depth)).on n (0x7b :: s) := by
  rw [on_value_dark hw (dark_cons (by decide))]
  rfl

/-- The reader fails with whatever a literal that it comes to fails with. -/
theorem on_value_fault {before : Bytes} (hopens : Opens loose before)
    (hdepth : before.length ≤ depth) (hn : before.length ≤ n)
    (h : string.on n (0x22 :: rest) = .error e) :
    (value depth).on n (before ++ rest) = .error e := by
  induction hopens generalizing depth with
  | @literal w hw =>
      obtain ⟨depth, rfl⟩ : ∃ k, depth = k + 1 := ⟨depth - 1, by simp at hdepth; omega⟩
      have hvalue : (value (depth + 1)).on n (0x22 :: rest) =
          (string >>= fun text => pure (Json.str text)).on n (0x22 :: rest) := by
        rw [← map_eq_pure_bind]
        rfl
      rw [List.append_assoc, List.singleton_append, on_value_dark hw (dark_cons (by decide)),
        hvalue, on_bind_error h]
  | @element w bytes inner vs hw hdone hinner ih =>
      simp only [List.length_append, List.length_cons] at hdepth hn
      obtain ⟨depth, rfl⟩ : ∃ k, depth = k + 1 := ⟨depth - 1, by omega⟩
      have hclosing : NotClosing (bytes ++ (inner ++ rest)) := by
        rcases hdone with ⟨rfl, rfl⟩ | ⟨b, rfl, hb⟩
        · exact notClosing_of_opens hinner rest
        · rw [List.append_assoc]
          exact notClosing_of_derives hb _
      obtain ⟨k, hk⟩ := on_elements_done n depth hdone (by omega) (by omega)
        (inner ++ rest)
      have hfault : (value depth).on n (inner ++ rest) = .error e := ih (by omega) (by omega)
      calc
        _ = (value (depth + 1)).on n (w ++ 0x5b :: (bytes ++ (inner ++ rest))) := by simp
        _ = (array (value depth)).on n (0x5b :: (bytes ++ (inner ++ rest))) := on_value_array hw
        _ = (elements (value depth) (n + 1) []).on n (bytes ++ (inner ++ rest)) :=
            on_array hclosing
        _ = (elements (value depth) (k + 1) vs).on n (inner ++ rest) := hk
        _ = .error e := by rw [elements, on_bind_error hfault]
  | @key w bytes between fields hw hdone hbetween =>
      simp only [List.length_append, List.length_cons] at hdepth hn
      obtain ⟨depth, rfl⟩ : ∃ k, depth = k + 1 := ⟨depth - 1, by omega⟩
      have hclosing := notClosing_of_members hdone (notClosing_quote hbetween rest)
      obtain ⟨k, hk⟩ := on_members_done n depth hdone (by omega) (by omega)
        (between ++ 0x22 :: rest)
      calc
        _ = (value (depth + 1)).on n (w ++ 0x7b :: (bytes ++ (between ++ 0x22 :: rest))) := by simp
        _ = (object (value depth)).on n (0x7b :: (bytes ++ (between ++ 0x22 :: rest))) :=
            on_value_object hw
        _ = (members (value depth) (n + 1) []).on n (bytes ++ (between ++ 0x22 :: rest)) :=
            on_object hclosing
        _ = (members (value depth) (k + 1) (Json.collect fields)).on n
            (between ++ 0x22 :: rest) := hk
        _ = .error e := by rw [members, on_bind_error (on_key_fault hbetween h)]
  | @field w bytes between key after inner fields cs hw hdone hbetween hkey hafter hinner ih =>
      simp only [List.length_append, List.length_cons] at hdepth hn
      obtain ⟨depth, rfl⟩ : ∃ k, depth = k + 1 := ⟨depth - 1, by omega⟩
      have hread : KeyRead (String.ofList cs)
          (between ++ 0x22 :: key ++ 0x22 :: after ++ [0x3a]) := .mk hbetween hkey hafter rfl
      have hkeyrun := on_key (n := n) (t := inner ++ rest) hread (by simp; omega)
      have hfault : (value depth).on n (inner ++ rest) = .error e := ih (by omega) (by omega)
      have hbytes : between ++ 0x22 :: key ++ 0x22 :: after ++ [0x3a] ++ (inner ++ rest) =
          between ++ 0x22 :: (key ++ 0x22 :: (after ++ 0x3a :: (inner ++ rest))) := by simp
      rw [hbytes] at hkeyrun
      have hclosing := notClosing_of_members hdone
        (notClosing_quote hbetween (key ++ 0x22 :: (after ++ 0x3a :: (inner ++ rest))))
      obtain ⟨k, hk⟩ := on_members_done n depth hdone (by omega) (by omega)
        (between ++ 0x22 :: (key ++ 0x22 :: (after ++ 0x3a :: (inner ++ rest))))
      calc
        _ = (value (depth + 1)).on n (w ++ 0x7b :: (bytes ++ (between ++ 0x22 ::
            (key ++ 0x22 :: (after ++ 0x3a :: (inner ++ rest)))))) := by simp
        _ = (object (value depth)).on n (0x7b :: (bytes ++ (between ++ 0x22 ::
            (key ++ 0x22 :: (after ++ 0x3a :: (inner ++ rest)))))) := on_value_object hw
        _ = (members (value depth) (n + 1) []).on n (bytes ++ (between ++ 0x22 ::
            (key ++ 0x22 :: (after ++ 0x3a :: (inner ++ rest))))) := on_object hclosing
        _ = (members (value depth) (k + 1) (Json.collect fields)).on n (between ++ 0x22 ::
            (key ++ 0x22 :: (after ++ 0x3a :: (inner ++ rest)))) := hk
        _ = .error e := by rw [members, on_bind_ok hkeyrun, on_bind_error hfault]

end fault

/-! ## Escapes that are none -/

/-- An escape that is taken and is not well formed: a plus sign among its digits, or a second
unit above the low surrogates. -/
inductive Slip : List UInt8 → Prop
  | plus {bytes : List UInt8} {c : Char} (hescape : LooseEscape bytes c) (hplus : 0x2b ∈ bytes) :
      Slip bytes
  | above {bytes more : List UInt8} {high low : Nat} (hhigh : unitOf bytes = some high)
      (hlow : unitOf more = some low) (hge : 0xd800 ≤ high) (hle : high ≤ 0xdbff)
      (habove : 0xdfff < low) (hvalid : (pairValue high low).isValidChar) :
      Slip (bytes ++ 0x5c :: 0x75 :: more)

theorem Slip.loose {b : Bytes} (h : Slip b) : ∃ c, LooseEscape b c := by
  cases h with
  | plus hescape => exact ⟨_, hescape⟩
  | above hhigh hlow hge hle habove hvalid =>
      have hcompletes : 0xdc00 ≤ _ := Nat.le_trans (by decide) (Nat.le_of_lt habove)
      exact ⟨_, .pair hhigh hlow hge hle hcompletes hvalid⟩

theorem fourDigits_of_hexDigits {w x y z : UInt8} {v : Nat}
    (h : hexDigits [w, x, y, z] = some v) : fourDigits [w, x, y, z] = some v := by
  have hdigits : ∃ nw nx ny nz, hexDigit w = some nw ∧ hexDigit x = some nx ∧
      hexDigit y = some ny ∧ hexDigit z = some nz := by
    simp only [hexDigits, List.foldlM_cons, Option.bind_eq_bind, Option.bind_eq_some_iff] at h
    obtain ⟨-, ⟨nw, hw, -⟩, -, ⟨nx, hx, -⟩, -, ⟨ny, hy, -⟩, -, ⟨nz, hz, -⟩, -⟩ := h
    exact ⟨nw, nx, ny, nz, hw, hx, hy, hz⟩
  obtain ⟨nw, nx, ny, nz, hw, hx, hy, hz⟩ := hdigits
  rw [hexDigits_four hw hx hy hz] at h
  rw [← h]
  simp [fourDigits, hw, hx, hy, hz]

theorem fourDigits_of_unitOf {b : Bytes} {v : Nat} (h : unitOf b = some v) (hplus : 0x2b ∉ b) :
    fourDigits b = some v := by
  have hlength := unitOf_length h
  obtain ⟨w, x, y, z, rfl⟩ := List.length_eq_four.mp hlength
  rw [unitOf, if_pos hlength, Option.bind_eq_some_iff] at h
  obtain ⟨text, htext, hunit⟩ := h
  rw [data_toUTF8, ← eq_encode_of_fromUTF8 htext] at hunit
  have hw : w ≠ 0x2b := by
    rintro rfl
    exact hplus (by simp)
  have hu16 : u16FromHex [w, x, y, z] = hexDigits [w, x, y, z] := by
    simp [u16FromHex, hw]
  rw [hu16] at hunit
  exact fourDigits_of_hexDigits hunit

/-- An escape that is taken is well formed or slips. -/
theorem wellFormed_or_slip {b : Bytes} {c : Char} (h : LooseEscape b c) :
    WellFormedEscape b c ∨ Slip b := by
  by_cases hplus : 0x2b ∈ b
  · exact .inr (.plus h hplus)
  cases h with
  | unit hunit hvalid => exact .inl (.unit (fourDigits_of_unitOf hunit hplus) hvalid)
  | @pair bytes more high low hhigh hlow hge hle hcompletes hvalid =>
      simp only [List.mem_append, List.mem_cons, not_or] at hplus
      have hhigh' := fourDigits_of_unitOf hhigh hplus.1
      have hlow' := fourDigits_of_unitOf hlow hplus.2.2.2
      by_cases habove : 0xdfff < low
      · exact .inr (.above hhigh hlow hge hle habove hvalid)
      · left
        have hsurrogate : IsLowSurrogate low := ⟨hcompletes, by omega⟩
        have hescape : WellFormedEscape _ (Char.ofNat (pairValue high low)) :=
          .pair hhigh' hlow' hge hle hsurrogate hvalid
        exact hescape

theorem prefixFree_looseEscape : PrefixFree LooseEscape := by
  intro a b s t c d ha hb h
  have hrun := on_unicodeEscape ha 0 s
  rw [h, on_unicodeEscape hb 0 t, Except.ok.injEq, Prod.mk.injEq] at hrun
  rw [hrun.2] at h
  exact List.append_cancel_right h

theorem Slip.not_wellFormed {b : Bytes} {c : Char} (h : Slip b) : ¬ WellFormedEscape b c := by
  intro hwell
  cases h with
  | plus _ hplus => exact absurd (hwell.ascii 0x2b hplus).1 (by decide)
  | @above bytes more high low hhigh hlow _ _ habove _ =>
      generalize hb : bytes ++ 0x5c :: 0x75 :: more = b at hwell
      have hlength := congrArg List.length hb
      rw [List.length_append, unitOf_length hhigh] at hlength
      cases hwell with
      | unit hunit =>
          rw [(fourDigits_spec hunit).1] at hlength
          simp at hlength
      | @pair bytes' more' high' low' hhigh' hlow' _ _ hsurrogate _ =>
          have hbytes : bytes.length = bytes'.length := by
            rw [unitOf_length hhigh, (fourDigits_spec hhigh').1]
          have hmore := (List.append_inj hb hbytes).2
          simp only [List.cons.injEq, true_and] at hmore
          rw [hmore, unitOf_fourDigits hlow', Option.some_inj] at hlow
          have hle : low' ≤ 0xdfff := hsurrogate.2
          omega

/-! ## Literals that slip -/

def Slips (s : Bytes) : Prop :=
  ∃ b cs e u ds t, s = b ++ 0x5c :: 0x75 :: e ++ u ++ 0x22 :: t ∧ looseLiteral b cs ∧ Slip e ∧
    looseLiteral u ds

theorem strict_or_slips {b : Bytes} {cs : List Char} (h : looseLiteral b cs) (t : Bytes) :
    strictLiteral b cs ∨ Slips (b ++ 0x22 :: t) := by
  induction h with
  | nil => exact .inl .nil
  | @cons p rest c cs hpiece hrest ih =>
      rcases ih with ih | ⟨b, ds, e, u, es, t', hbytes, hb, he, hu⟩
      · cases hpiece with
        | plain hplain hquote hbackslash => exact .inl (.cons (.plain hplain hquote hbackslash) ih)
        | short hshort => exact .inl (.cons (.short hshort) ih)
        | @unicode e _ hunicode =>
            rcases wellFormed_or_slip hunicode with hwell | hslip
            · exact .inl (.cons (.unicode hwell) ih)
            · exact .inr ⟨[], [], e, rest, cs, t, by simp, .nil, hslip, hrest⟩
      · right
        refine ⟨p ++ b, c :: ds, e, u, es, t', ?_, .cons hpiece hb, he, hu⟩
        rw [List.append_assoc, hbytes]
        simp

theorem strictLiteral.loose {b : Bytes} {cs : List Char} (h : strictLiteral b cs) :
    looseLiteral b cs := h.imp fun _ _ => LooseEscape.of_wellFormed

theorem not_strict_of_slip {b e u : Bytes} {cs ds : List Char} (hb : looseLiteral b cs)
    (he : Slip e) : ¬ strictLiteral (b ++ (0x5c :: 0x75 :: e ++ u)) ds := by
  induction hb generalizing ds with
  | nil =>
      intro hstrict
      obtain ⟨c, hescape⟩ := he.loose
      generalize hbytes : [] ++ (0x5c :: 0x75 :: e ++ u) = bytes at hstrict
      cases hstrict with
      | nil => simp at hbytes
      | cons hpiece _ =>
          have hloose := hpiece.imp fun _ _ => LooseEscape.of_wellFormed
          have hsame := Piece.append_inj prefixFree_looseEscape (.unicode hescape) hloose hbytes
          rw [← hsame] at hpiece
          generalize hp : 0x5c :: 0x75 :: e = p at hpiece
          cases hpiece with
          | plain _ _ hc =>
              apply not_plain_backslash hc [] (0x75 :: e)
              rw [hp, List.append_nil]
          | short hshort =>
              simp only [List.cons.injEq, true_and] at hp
              rw [← hp.1] at hshort
              cases hshort
          | unicode hwell =>
              simp only [List.cons.injEq, true_and] at hp
              rw [← hp] at hwell
              exact he.not_wellFormed hwell
  | @cons p rest _ _ hpiece _ ih =>
      intro hstrict
      rw [List.append_assoc] at hstrict
      generalize hbytes : p ++ (rest ++ (0x5c :: 0x75 :: e ++ u)) = bytes at hstrict
      cases hstrict with
      | nil =>
          have hpos := hpiece.length_pos
          have hlength := congrArg List.length hbytes
          rw [List.length_append, List.length_nil] at hlength
          omega
      | cons hpiece' hrest' =>
          have hloose := hpiece'.imp fun _ _ => LooseEscape.of_wellFormed
          have hsame := Piece.append_inj prefixFree_looseEscape hpiece hloose hbytes
          rw [hsame] at hbytes
          rw [← List.append_cancel_left hbytes] at hrest'
          exact ih hrest'

/-- In front of the text something that the dialect derives, and then a literal that sinks or
slips. -/
def Misread (s : Bytes) : Prop :=
  ∃ before rest, s = before ++ rest ∧ Opens loose before ∧ (Sinks rest ∨ Slips rest)

/-- Wherever the reader comes to a literal, it takes well-formed ones only, as the characters
that they denote. -/
def LiteralsExact (s : Bytes) : Prop :=
  ∀ before rest out after, s = before ++ rest → Opens loose before →
    string.on s.length (0x22 :: rest) = .ok (out, after) →
      ∃ b cs, rest = b ++ 0x22 :: after ∧ strictLiteral b cs ∧ out = String.ofList cs

section literals

variable {n : Nat} {s : Bytes}

theorem on_string_closed {b t : Bytes} {cs : List Char} (h : looseLiteral b cs)
    (hn : b.length ≤ n) : string.on n (0x22 :: (b ++ 0x22 :: t)) = .ok (String.ofList cs, t) := by
  have hlength := h.length_le
  unfold string
  rw [on_bind_ok (on_advance 1), on_bind_ok on_read]
  exact on_characters_closed h (by omega) []

theorem on_string_sinks (h : Sinks s) (hn : s.length ≤ n) :
    string.on n (0x22 :: s) = .error .overflow := by
  unfold string
  rw [on_bind_ok (on_advance 1), on_bind_ok on_read]
  exact on_characters_sinks h (by omega) []

/-- The fault of a literal ends the document. -/
theorem on_document_fault {before rest : Bytes} {e : Fault} (hopens : Opens loose before)
    (h : string.on (before ++ rest).length (0x22 :: rest) = .error e) :
    (document (before ++ rest).length).on (before ++ rest).length (before ++ rest) =
      .error e := by
  have hlength : before.length ≤ (before ++ rest).length := by simp
  have hvalue : (value ((before ++ rest).length + 1)).on (before ++ rest).length
      (before ++ rest) = .error e := on_value_fault hopens (by omega) hlength h
  rw [← value_skip] at hvalue
  unfold document
  rw [on_bind_ok on_skipWs, on_bind_error hvalue]

theorem literalsExact_of_not_misread (h : ¬ Misread s) : LiteralsExact s := by
  intro before rest out after hs hopens hrun
  have hlength : rest.length ≤ s.length := by simp [hs]
  rcases string_spec hlength with ⟨message, herror⟩ | ⟨v, t, hok, hread⟩ | ⟨herror, -⟩
  · rw [hrun] at herror
    exact absurd herror (by simp)
  · rw [hrun, Except.ok.injEq, Prod.mk.injEq] at hok
    obtain ⟨b, cs, hrest, hliteral, hv⟩ := hread
    rw [← hok.1] at hv
    rw [← hok.2] at hrest
    have hnot : ¬ Slips (b ++ 0x22 :: after) := by
      intro hslips
      rw [← hrest] at hslips
      exact h ⟨before, rest, hs, hopens, .inr hslips⟩
    have hstrict := (strict_or_slips hliteral after).resolve_right hnot
    exact ⟨b, cs, hrest, hstrict, hv⟩
  · rw [hrun] at herror
    exact absurd herror (by simp)

theorem not_slips_of_literalsExact (h : LiteralsExact s) {before rest : Bytes}
    (hs : s = before ++ rest) (hopens : Opens loose before) : ¬ Slips rest := by
  rintro ⟨b, cs, e, u, ds, t, hrest, hb, he, hu⟩
  obtain ⟨c, hescape⟩ := he.loose
  have hliteral : looseLiteral (b ++ (0x5c :: 0x75 :: e ++ u)) (cs ++ c :: ds) :=
    hb.append (.cons (.unicode hescape) hu)
  have hbytes : rest = b ++ (0x5c :: 0x75 :: e ++ u) ++ 0x22 :: t := by simp [hrest]
  have hlength : (b ++ (0x5c :: 0x75 :: e ++ u)).length ≤ s.length := by
    rw [hs, hbytes]
    simp only [List.length_append]
    omega
  have hrun := on_string_closed (t := t) hliteral hlength
  rw [← hbytes] at hrun
  obtain ⟨lit, es, hlit, hstrict, -⟩ := h before rest _ t hs hopens hrun
  rw [hbytes] at hlit
  rw [← List.append_cancel_right hlit] at hstrict
  exact not_strict_of_slip hb he hstrict

end literals

end JsonParser

namespace Json

open JsonParser

/-- The reader neither faults nor takes a literal for what it is not, exactly where the text
leads up to no literal that sinks or slips. -/
theorem literals_exact_iff (text : String) :
    (((∃ v, parse text = .ok v) ∨ ∃ message, parse text = .error (.error message)) ∧
      LiteralsExact (encode text.toList)) ↔ ¬ Misread (encode text.toList) := by
  constructor
  · rintro ⟨htotal, hexact⟩ ⟨before, rest, hs, hopens, hsinks | hslips⟩
    · have hrun := on_document_fault hopens (on_string_sinks hsinks (by simp))
      rw [← hs] at hrun
      rw [parse_eq, hrun] at htotal
      rcases htotal with ⟨v, hv⟩ | ⟨message, hmessage⟩
      · exact absurd hv (by simp)
      · exact absurd hmessage (by simp)
    · exact not_slips_of_literalsExact hexact hs hopens hslips
  · intro h
    refine ⟨?_, literalsExact_of_not_misread h⟩
    rw [parse_eq]
    rcases document_spec (encode text.toList) with
      ⟨message, hrun⟩ | ⟨v, t, hrun, -⟩ | ⟨-, before, rest, hs, hopens, hsinks⟩
    · rw [hrun]
      exact .inr ⟨message, rfl⟩
    · rw [hrun]
      exact .inl ⟨v, rfl⟩
    · exact absurd ⟨before, rest, hs, hopens, .inl hsinks⟩ h

theorem unitOf_D800 : unitOf (encode "D800".toList) = some 0xd800 :=
  unitOf_fourDigits (by decide +kernel)

/-- A letter may not follow an escaped high surrogate, and a unit above the low surrogates may. -/
theorem high_surrogate_then_other :
    parse "\"\\uD800\\u0041\"" = .error .overflow ∧
      parse "\"\\uD800\\uE000\"" = .ok (.str "𐐀") := by
  constructor
  · have hlow : unitOf (encode "0041".toList) = some 0x41 := unitOf_fourDigits (by decide +kernel)
    have hunderflow : Underflow (encode "D800\\u0041".toList) :=
      .pair unitOf_D800 hlow (by decide) (by decide) (by decide)
    have hsinks : Sinks (encode "\\uD800\\u0041\"".toList) :=
      ⟨[], [], encode "D800\\u0041".toList, [0x22], by decide +kernel, .nil, hunderflow⟩
    have hopens : Opens loose [0x22] := .literal .nil
    have hrun := on_document_fault hopens (on_string_sinks hsinks (by simp))
    have hbytes : encode "\"\\uD800\\u0041\"".toList =
        [0x22] ++ encode "\\uD800\\u0041\"".toList := by decide +kernel
    rw [parse_eq, hbytes, hrun]
    rfl
  · have hlow : unitOf (encode "E000".toList) = some 0xe000 := unitOf_fourDigits (by decide +kernel)
    have hchar : Char.ofNat (pairValue 0xd800 0xe000) = '𐐀' := by decide +kernel
    have hescape : LooseEscape (encode "D800\\uE000".toList)
        (Char.ofNat (pairValue 0xd800 0xe000)) :=
      .pair unitOf_D800 hlow (by decide) (by decide) (by decide) (by decide)
    rw [hchar] at hescape
    have hliteral : looseLiteral (0x5c :: 0x75 :: encode "D800\\uE000".toList) ['𐐀'] := by
      have hpieces : looseLiteral _ ['𐐀'] := .cons (.unicode hescape) .nil
      rwa [List.append_nil] at hpieces
    have hvalue := Derives.string (d := loose) hliteral
    have hbytes : encode "\"\\uD800\\uE000\"".toList =
        0x22 :: (0x5c :: 0x75 :: encode "D800\\uE000".toList) ++ [0x22] := by decide +kernel
    have htext := Derives.element .nil hvalue .nil
    rw [List.nil_append, List.append_nil, ← hbytes] at htext
    exact parse_eq_ok_iff.mpr htext

end Json

end TautShape.Tool
