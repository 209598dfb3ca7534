import TautShape.Tool.JsonAcceptance
/-!
# JSON written and read back

What the writer puts out for a value is a text of the reader's dialect that denotes the
value: character by character in strings, and by induction on the value around them.
-/

namespace TautShape.Tool

open TautShape.Lib TautShape.Lib.Utf8 TautShape.Lib.JsonGrammar
open TautShape.Log (Bytes)

namespace Json

/-- The values of `Json` whose numbers are numbers: an object is an ordered map. -/
inductive Proper : Json → Prop
  | null : Proper .null
  | bool (b : Bool) : Proper (.bool b)
  | num {text : String} (htext : NumberText text.toList) : Proper (.num text)
  | str (value : String) : Proper (.str value)
  | arr {values : List Json} (hvalues : ∀ v ∈ values, Proper v) : Proper (.arr values)
  | obj {fields : List (String × Json)} (hfields : Ascending fields)
      (hvalues : ∀ field ∈ fields, Proper field.2) : Proper (.obj fields)

end Json

namespace JsonParser

/-! ## Well-formed escapes are taken -/

theorem hexDigits_four {a b c d : UInt8} {na nb nc nd : Nat} (ha : hexDigit a = some na)
    (hb : hexDigit b = some nb) (hc : hexDigit c = some nc) (hd : hexDigit d = some nd) :
    hexDigits [a, b, c, d] = some (((na * 16 + nb) * 16 + nc) * 16 + nd) := by
  have := hexDigit_lt ha
  have := hexDigit_lt hb
  have := hexDigit_lt hc
  have := hexDigit_lt hd
  have hna : na < 0x10000 := by omega
  have hnb : na * 16 + nb < 0x10000 := by omega
  have hnc : (na * 16 + nb) * 16 + nc < 0x10000 := by omega
  have hnd : ((na * 16 + nb) * 16 + nc) * 16 + nd < 0x10000 := by omega
  simp [hexDigits, ha, hb, hc, hd, hna, hnb, hnc, hnd]

theorem unitOf_fourDigits {b : Bytes} {n : Nat} (h : fourDigits b = some n) :
    unitOf b = some n := by
  obtain ⟨hlength, -, hbytes⟩ := fourDigits_spec h
  obtain ⟨w, x, y, z, rfl⟩ := List.length_eq_four.mp hlength
  obtain ⟨cs, hcs⟩ := valid_of_ascii fun byte hmem => (hbytes byte hmem).2
  have hfrom : (String.fromUTF8? ⟨[w, x, y, z].toArray⟩).bind
      (fun hs => u16FromHex hs.toUTF8.data.toList) = u16FromHex [w, x, y, z] := by
    rw [hcs, fromUTF8_encode, Option.bind_some, data_toUTF8, String.toList_ofList]
  have hplus : w ≠ 0x2b := by
    rintro rfl
    exact absurd (hbytes 0x2b (by simp)).1 (by decide)
  have hu16 : u16FromHex [w, x, y, z] = hexDigits [w, x, y, z] := by
    simp [u16FromHex, hplus]
  rw [unitOf, if_pos hlength, hfrom, hu16]
  simp only [fourDigits, Option.bind_eq_bind, Option.bind_eq_some_iff, Option.pure_def,
    Option.some_inj] at h
  obtain ⟨na, ha, nb, hb, nc, hc, nd, hd, rfl⟩ := h
  exact hexDigits_four ha hb hc hd

theorem LooseEscape.of_wellFormed {b : Bytes} {c : Char} (h : WellFormedEscape b c) :
    LooseEscape b c := by
  cases h with
  | unit hunit hvalid => exact .unit (unitOf_fourDigits hunit) hvalid
  | pair hhigh hlow hge hle hcompletes hvalid =>
      have hescape : LooseEscape _ (Char.ofNat _) :=
        .pair (unitOf_fourDigits hhigh) (unitOf_fourDigits hlow) hge hle hcompletes.1 hvalid
      exact hescape

end JsonParser

namespace Json

open JsonParser

/-! ## Strings and numbers -/

theorem piece_writeChar (c : Char) :
    Piece (fun _ => True) WellFormedEscape (encode (writeChar c)) c := by
  unfold writeChar
  split
  case h_1 => exact .short .quote
  case h_2 => exact .short .backslash
  case h_3 => exact .short .newline
  case h_4 => exact .short .carriageReturn
  case h_5 => exact .short .tab
  case h_6 hquote hbackslash _ _ _ =>
      split
      case isTrue hcontrol => exact .unicode (wellFormedEscape_control hcontrol)
      case isFalse =>
          rw [encode_cons, encode_nil, List.append_nil]
          exact .plain trivial hquote hbackslash

theorem exists_literal (value : String) :
    ∃ b, encode (writeJsonString value) = 0x22 :: b ++ [0x22] ∧ looseLiteral b value.toList := by
  refine ⟨value.toList.flatMap fun c => encode (writeChar c), ?_,
    (pieces_of_writer piece_writeChar value.toList).imp fun _ _ => LooseEscape.of_wellFormed⟩
  unfold writeJsonString
  rw [encode_append, encode_cons, encode_flatMap]
  rfl

theorem derives_str (value : String) :
    Derives loose (.value (.str value)) (encode (writeJsonString value)) := by
  obtain ⟨b, hbytes, hliteral⟩ := exists_literal value
  have hstring : Derives loose (.value (.str (String.ofList value.toList)))
      (0x22 :: b ++ [0x22]) := .string hliteral
  rwa [← hbytes, String.ofList_toList] at hstring

theorem numberChar_bytes : ∀ c ∈ numberChars, ∀ byte ∈ encodeChar c, isNumberByte byte = true := by
  have hall : (numberChars.all fun c => (encodeChar c).all isNumberByte) = true := by
    decide +kernel
  simpa only [List.all_eq_true] using hall

theorem digit_bytes : ∀ c ∈ ['0', '1', '2', '3', '4', '5', '6', '7', '8', '9'],
    ∀ byte ∈ encodeChar c, isDigit byte = true := by
  have hall : (['0', '1', '2', '3', '4', '5', '6', '7', '8', '9'].all fun c =>
      (encodeChar c).all isDigit) = true := by decide +kernel
  simpa only [List.all_eq_true] using hall

theorem derives_num {text : String} (h : NumberText text.toList) :
    Derives loose (.value (.num text)) (encode text.toList) := by
  have hall : ∀ byte ∈ encode text.toList, isNumberByte byte = true := by
    intro byte hmem
    obtain ⟨c, hc, hbyte⟩ := List.mem_flatMap.mp hmem
    exact numberChar_bytes c (h.mem c hc) byte hbyte
  obtain ⟨c, cs, hcs, hc⟩ := h.head
  obtain ⟨byte, rest, hbytes, -, -⟩ := exists_encodeChar_eq_cons c
  have hencode : encode text.toList = byte :: (rest ++ encode cs) := by
    rw [hcs, encode_cons, hbytes, List.cons_append]
  have hstart : byte = 0x2d ∨ isDigit byte = true := by
    rcases hc with rfl | hdigit
    · left
      have hminus : encodeChar '-' = [0x2d] := by decide +kernel
      rw [hminus, List.cons.injEq] at hbytes
      exact hbytes.1.symm
    · right
      have hmem := mem_numberChars_of_digit hdigit
      exact digit_bytes c hmem byte (by rw [hbytes]; exact List.mem_cons_self)
  rw [hencode] at hall ⊢
  exact .scalar (.num hencode hstart hall)

/-! ## Arrays and objects -/

theorem derives_element {b : Bytes} {v : Json} (h : Derives loose (.value v) b) :
    Derives loose (.element v) b := by
  have helement := Derives.element Spaces.nil h Spaces.nil
  rwa [List.nil_append, List.append_nil] at helement

theorem derives_values {v : Json} {rest : List Json}
    (h : ∀ u ∈ v :: rest, Derives loose (.value u) (encode (write u))) :
    Derives loose (.elements (v :: rest)) (encode (writeValues false (v :: rest))) := by
  induction rest generalizing v with
  | nil =>
      have hone := Derives.oneElement (derives_element (h v List.mem_cons_self))
      simpa [writeValues] using hone
  | cons u rest ih =>
      have hfirst := derives_element (h v List.mem_cons_self)
      have hrest := ih fun x hx => h x (List.mem_cons_of_mem v hx)
      have hcomma : encodeChar ',' = [0x2c] := by decide +kernel
      have hbytes : encode (writeValues false (v :: u :: rest)) =
          encode (write v) ++ 0x2c :: encode (writeValues false (u :: rest)) := by
        simp [writeValues, hcomma]
      rw [hbytes]
      exact .elements hfirst hrest

theorem derives_field {field : String × Json}
    (h : Derives loose (.value field.2) (encode (write field.2))) :
    Derives loose (.member field)
      (encode (writeJsonString field.1) ++ 0x3a :: encode (write field.2)) := by
  obtain ⟨b, hbytes, hliteral⟩ := exists_literal field.1
  have hmember := Derives.member Spaces.nil hliteral Spaces.nil (derives_element h)
  rw [String.ofList_toList] at hmember
  rw [hbytes]
  simpa using hmember

theorem derives_fields {field : String × Json} {rest : List (String × Json)}
    (h : ∀ f ∈ field :: rest, Derives loose (.value f.2) (encode (write f.2))) :
    Derives loose (.members (field :: rest)) (encode (writeFields false (field :: rest))) := by
  have hcolon : encodeChar ':' = [0x3a] := by decide +kernel
  induction rest generalizing field with
  | nil =>
      have hone := Derives.oneMember (derives_field (h field List.mem_cons_self))
      simpa [writeFields, hcolon] using hone
  | cons next rest ih =>
      have hfirst := derives_field (h field List.mem_cons_self)
      have hrest := ih fun f hf => h f (List.mem_cons_of_mem field hf)
      have hcomma : encodeChar ',' = [0x2c] := by decide +kernel
      have hbytes : encode (writeFields false (field :: next :: rest)) =
          encode (writeJsonString field.1) ++ 0x3a :: encode (write field.2) ++
            0x2c :: encode (writeFields false (next :: rest)) := by
        simp [writeFields, hcomma, hcolon]
      rw [hbytes]
      exact .members hfirst hrest

theorem insertField_greatest {fields : List (String × Json)} {field : String × Json}
    (h : ∀ f ∈ fields, compare f.1 field.1 = .lt) :
    insertField fields field.1 field.2 = fields ++ [field] := by
  have htake : fields.takeWhile (fun p => (compare p.1 field.1).isLT) = fields := by
    apply List.takeWhile_eq_self_iff.mpr
    intro f hf
    rw [h f hf]
    rfl
  have hdrop : fields.dropWhile (fun p => (compare p.1 field.1).isLE) = [] := by
    apply List.dropWhile_eq_nil_iff.mpr
    intro f hf
    rw [h f hf]
    rfl
  rw [insertField, htake, hdrop]

theorem collect_ascending {fields : List (String × Json)} (h : Ascending fields) :
    collect fields = fields := by
  induction fields using List.reverseRecOn with
  | nil => rfl
  | append_singleton fields field ih =>
      obtain ⟨hfields, -, hlast⟩ := List.pairwise_append.mp h
      rw [collect_snoc, ih hfields]
      exact insertField_greatest fun f hf => hlast f hf field (List.mem_singleton_self field)

theorem derives_write {v : Json} (h : Proper v) : Derives loose (.value v) (encode (write v)) := by
  induction h with
  | null => exact .scalar .null
  | bool b =>
      cases b with
      | true => exact .scalar .true
      | false => exact .scalar .false
  | num htext =>
      rw [write]
      exact derives_num htext
  | str value =>
      rw [write]
      exact derives_str value
  | @arr values _ ih =>
      have hbytes : encode (write (.arr values)) =
          0x5b :: encode (writeValues false values) ++ [0x5d] := by
        have hopen : encodeChar '[' = [0x5b] := by decide +kernel
        have hclose : encodeChar ']' = [0x5d] := by decide +kernel
        simp [write, hopen, hclose]
      rw [hbytes]
      cases values with
      | nil => exact .emptyArray .nil
      | cons v rest => exact .array (derives_values ih)
  | @obj fields hfields _ ih =>
      have hbytes : encode (write (.obj fields)) =
          0x7b :: encode (writeFields false fields) ++ [0x7d] := by
        have hopen : encodeChar '\x7b' = [0x7b] := by decide +kernel
        have hclose : encodeChar '\x7d' = [0x7d] := by decide +kernel
        simp [write, hopen, hclose]
      rw [hbytes]
      cases fields with
      | nil => exact .emptyObject .nil rfl
      | cons field rest =>
          apply Derives.object (derives_fields ih)
          exact congrArg Json.obj (collect_ascending hfields).symm

/-- Reading what was written for a value gives the value. -/
theorem parse_toString (v : Json) (h : Proper v) : parse v.toString = .ok v := by
  rw [parse_eq_ok_iff, toString, String.toList_ofList]
  exact derives_element (derives_write h)

theorem parse_toString_nested :
    parse (Json.toString (.obj [("a\n", .arr [.num "-1.5e3", .str "\"\x01𝄞"]), ("b", .null)])) =
      .ok (.obj [("a\n", .arr [.num "-1.5e3", .str "\"\x01𝄞"]), ("b", .null)]) := by
  apply parse_toString
  have hnum : Proper (.num "-1.5e3") :=
    .num ⟨['-'], ['1'], ['.', '5'], ['e', '3'], by decide, by simp, by simp [Digits],
      by simp [Digits], .inr ⟨'e', [], ['3'], rfl, .inl rfl, .inl rfl, by simp [Digits]⟩⟩
  have harr : Proper (.arr [.num "-1.5e3", .str "\"\x01𝄞"]) := by
    refine .arr (List.forall_mem_cons.mpr ⟨hnum, List.forall_mem_cons.mpr ⟨.str _, ?_⟩⟩)
    simp
  refine .obj (by simp [Ascending]; decide) ?_
  exact List.forall_mem_cons.mpr ⟨harr, List.forall_mem_cons.mpr ⟨.null, by simp⟩⟩

end Json

end TautShape.Tool
