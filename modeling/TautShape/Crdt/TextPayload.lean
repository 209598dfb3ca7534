import TautShape.Crdt.Text
import TautShape.Crdt.TextAcceptance
/-!
# Payloads written and read back

What the two encoders write is a text of the grammar, character by character between the
quotes and field by field between the braces.  The parser therefore returns the object
that was written, and the projection reads it as the operation it was written for.
-/

namespace TautShape.Crdt.Text

open TautShape.Lib TautShape.Lib.Utf8 TautShape.Lib.JsonGrammar

/-! ## Characters and strings -/

theorem encode_append_string (s t : String) :
    encode (s ++ t).toList = encode s.toList ++ encode t.toList := by
  rw [String.toList_append, encode_append]

theorem toList_controlEscape (c : Char) : (controlEscape c).toList =
    ['\\', 'u', '0', '0', lowerHex (c.toNat / 16), lowerHex (c.toNat % 16)] := by
  unfold controlEscape
  rw [String.toList_append, String.toList_ofList, String.toList_ofList]
  rfl

theorem piece_quotedChar (c : Char) :
    Piece IsPlain WellFormedEscape (encode (quotedChar c).toList) c := by
  unfold quotedChar
  split
  case h_1 => exact .short .quote
  case h_2 => exact .short .backslash
  case h_3 => exact .short .newline
  case h_4 => exact .short .carriageReturn
  case h_5 => exact .short .tab
  case h_6 => exact .short .backspace
  case h_7 => exact .short .formFeed
  case h_8 hquote hbackslash _ _ _ _ _ =>
      split
      case isTrue hcontrol =>
          rw [toList_controlEscape]
          exact .unicode (wellFormedEscape_control hcontrol)
      case isFalse hplain =>
          have hchar : encode c.toString.toList = encodeChar c := by
            rw [Char.toString_eq_singleton, String.toList_singleton, encode_cons, encode_nil,
              List.append_nil]
          rw [hchar]
          exact .plain (Nat.le_of_not_lt hplain) hquote hbackslash

theorem exists_literal (value : String) :
    ∃ b, encode (quoted value).toList = 0x22 :: b ++ [0x22] ∧ literalOf b value.toList := by
  refine ⟨value.toList.flatMap fun c => encode (quotedChar c).toList, ?_,
    pieces_of_writer piece_quotedChar value.toList⟩
  have hquote : encode "\"".toList = [0x22] := rfl
  unfold quoted
  rw [encode_append_string, encode_append_string, String.toList_join, List.flatMap_map,
    encode_flatMap, hquote]
  rfl

theorem derives_quoted (value : String) :
    Derives lax (.value (.string value)) (encode (quoted value).toList) := by
  obtain ⟨b, hbytes, hliteral⟩ := exists_literal value
  have hstring : Derives lax (.value (.string (String.ofList value.toList)))
      (0x22 :: b ++ [0x22]) := .string hliteral
  rwa [← hbytes, String.ofList_toList] at hstring

def afterJson : Option String → Json
  | none => .null
  | some value => .string value

theorem derives_quotedOption (after : Option String) :
    Derives lax (.value (afterJson after)) (encode (quotedOption after).toList) := by
  cases after with
  | none => exact .scalar .null
  | some value => exact derives_quoted value

/-! ## Objects -/

theorem derives_element {b : Bytes} {v : Json} (h : Derives lax (.value v) b) :
    Derives lax (.element v) b := by
  have helement := Derives.element Spaces.nil h Spaces.nil
  rwa [List.nil_append, List.append_nil] at helement

theorem literal_of_plain {cs : List Char} (h : ∀ c ∈ cs, IsPlain c ∧ c ≠ '"' ∧ c ≠ '\\') :
    literalOf (encode cs) cs := by
  induction cs with
  | nil => exact .nil
  | cons c cs ih =>
      have hc := h c List.mem_cons_self
      exact .cons (.plain hc.1 hc.2.1 hc.2.2) (ih fun d hd => h d (List.mem_cons_of_mem c hd))

theorem derives_member {key : String} {b : Bytes} {v : Json}
    (hkey : ∀ c ∈ key.toList, IsPlain c ∧ c ≠ '"' ∧ c ≠ '\\') (h : Derives lax (.value v) b) :
    Derives lax (.member (key, v)) (0x22 :: encode key.toList ++ 0x22 :: 0x3a :: b) := by
  have hmember := Derives.member Spaces.nil (literal_of_plain hkey) Spaces.nil (derives_element h)
  rw [String.ofList_toList] at hmember
  simpa using hmember

theorem parse_of_derives {b : Bytes} {v : Json} (h : Derives lax (.value v) b) :
    Parser.parse b = some v :=
  Parser.parse_eq_some_iff.mpr (derives_element h)

theorem derives_delete (atomId : String) :
    Derives lax (.value (.object [("atom_id", .string atomId), ("kind", .string "delete")]))
      (encodeTextDelete atomId) := by
  have hid : Derives lax (.member ("atom_id", .string atomId)) _ :=
    derives_member (by simp [IsPlain]) (derives_quoted atomId)
  have hkind : Derives lax (.member ("kind", .string "delete")) _ :=
    derives_member (by simp [IsPlain]) (derives_quoted "delete")
  have hobject := Derives.object (.members hid (.oneMember hkind))
    ⟨by simp, _, rfl, by simp [Ascending]; decide, List.Perm.refl _⟩
  have hopen : encode "\x7b\"atom_id\":".toList =
      0x7b :: 0x22 :: encode "atom_id".toList ++ [0x22, 0x3a] := rfl
  have hclose : encode ",\"kind\":\"delete\"\x7d".toList =
      0x2c :: 0x22 :: encode "kind".toList ++
        0x22 :: 0x3a :: encode (quoted "delete").toList ++ [0x7d] := by decide +kernel
  have hbytes : encodeTextDelete atomId =
      encode "\x7b\"atom_id\":".toList ++ encode (quoted atomId).toList ++
        encode ",\"kind\":\"delete\"\x7d".toList := by
    unfold encodeTextDelete
    rw [data_toUTF8, encode_append_string, encode_append_string]
  rw [hbytes, hopen, hclose]
  simpa using hobject

theorem derives_insert (atomId : String) (after : Option String) (text : String) :
    Derives lax (.value (.object [("after", afterJson after), ("atom_id", .string atomId),
      ("kind", .string "insert"), ("text", .string text)]))
      (encodeTextInsert atomId after text) := by
  have hafter : Derives lax (.member ("after", afterJson after)) _ :=
    derives_member (by simp [IsPlain]) (derives_quotedOption after)
  have hid : Derives lax (.member ("atom_id", .string atomId)) _ :=
    derives_member (by simp [IsPlain]) (derives_quoted atomId)
  have hkind : Derives lax (.member ("kind", .string "insert")) _ :=
    derives_member (by simp [IsPlain]) (derives_quoted "insert")
  have htext : Derives lax (.member ("text", .string text)) _ :=
    derives_member (by simp [IsPlain]) (derives_quoted text)
  have hobject := Derives.object
    (.members hafter (.members hid (.members hkind (.oneMember htext))))
    ⟨by simp, _, rfl, by simp [Ascending]; decide, List.Perm.refl _⟩
  have hopen : encode "\x7b\"after\":".toList =
      0x7b :: 0x22 :: encode "after".toList ++ [0x22, 0x3a] := rfl
  have hatom : encode ",\"atom_id\":".toList =
      0x2c :: 0x22 :: encode "atom_id".toList ++ [0x22, 0x3a] := rfl
  have hinsert : encode ",\"kind\":\"insert\",\"text\":".toList =
      0x2c :: 0x22 :: encode "kind".toList ++
        0x22 :: 0x3a :: encode (quoted "insert").toList ++
          0x2c :: 0x22 :: encode "text".toList ++ [0x22, 0x3a] := by decide +kernel
  have hclose : encode "\x7d".toList = [0x7d] := rfl
  have hbytes : encodeTextInsert atomId after text =
      encode "\x7b\"after\":".toList ++ encode (quotedOption after).toList ++
        encode ",\"atom_id\":".toList ++ encode (quoted atomId).toList ++
          encode ",\"kind\":\"insert\",\"text\":".toList ++ encode (quoted text).toList ++
            encode "\x7d".toList := by
    unfold encodeTextInsert
    rw [data_toUTF8]
    simp only [encode_append_string]
  rw [hbytes, hopen, hatom, hinsert, hclose]
  simpa using hobject

/-! ## Reading an operation -/

namespace Collected

variable (c : Collected) (op : CrdtOp)

theorem addOp_insert {atomId text : String} {after : Option String} (hid : atomId ≠ "")
    (htext : text ≠ "") (hpayload : op.payload = encodeTextInsert atomId after text) :
    c.addOp op = c.insertAtom atomId ⟨after, text, (op.origin, op.seq)⟩ := by
  have hparse := parse_of_derives (derives_insert atomId after text)
  have hfields : payloadFields op.payload = some (atomId, [("after", afterJson after),
      ("atom_id", .string atomId), ("kind", .string "insert"), ("text", .string text)]) := by
    simp [payloadFields, hpayload, hparse, Json.object?, Json.string?, field, List.lookup_cons, hid]
  have hafter : afterValue (afterJson after) = some after := by
    cases after <;> rfl
  have hcandidate : candidate op [("after", afterJson after), ("atom_id", .string atomId),
      ("kind", .string "insert"), ("text", .string text)] =
        some ⟨after, text, (op.origin, op.seq)⟩ := by
    simp [candidate, field, List.lookup_cons, hafter, Json.string?, htext]
  unfold addOp
  simp [hfields, hcandidate, field, List.lookup_cons, Json.string?]

theorem addOp_delete {atomId : String} (hid : atomId ≠ "")
    (hpayload : op.payload = encodeTextDelete atomId) :
    c.addOp op = { c with deleted := c.deleted.insert atomId } := by
  have hparse := parse_of_derives (derives_delete atomId)
  have hfields : payloadFields op.payload = some (atomId, [("atom_id", .string atomId),
      ("kind", .string "delete")]) := by
    simp [payloadFields, hpayload, hparse, Json.object?, Json.string?, field, hid]
  unfold addOp
  simp [hfields, field, List.lookup_cons, Json.string?]

/-- An insert is diagnosed for nothing but a name that two atoms share. -/
theorem mem_diagnostics_insertAtom {atomId diagnostic : String} {candidate : Atom}
    (h : diagnostic ∈ (c.insertAtom atomId candidate).diagnostics) :
    diagnostic ∈ c.diagnostics ∨ diagnostic = "atom_equivocation:" ++ atomId := by
  have hdiagnose : ∀ d ∈ (c.diagnose ("atom_equivocation:" ++ atomId)).diagnostics,
      d ∈ c.diagnostics ∨ d = "atom_equivocation:" ++ atomId := by
    intro d hd
    exact ((mem_insert_set _ _ _).mp hd).symm.imp_right Eq.symm
  unfold insertAtom at h
  split at h
  case h_1 =>
      split at h
      case isTrue =>
          dsimp only at h
          split at h
          case isTrue => exact hdiagnose _ h
          case isFalse => exact hdiagnose _ h
      case isFalse => exact .inl h
  case h_2 => exact .inl h

end Collected

/-- What the encoders write is parsed as the object they wrote, and read as the operation it
was written for, without a diagnostic for the payload. -/
theorem text_op_round_trip (atomId text : String) (after : Option String) :
    Parser.parse (encodeTextInsert atomId after text) =
        some (.object [("after", afterJson after), ("atom_id", .string atomId),
          ("kind", .string "insert"), ("text", .string text)]) ∧
      Parser.parse (encodeTextDelete atomId) =
        some (.object [("atom_id", .string atomId), ("kind", .string "delete")]) ∧
      ∀ (c : Collected) (op : CrdtOp), atomId ≠ "" →
        (text ≠ "" → op.payload = encodeTextInsert atomId after text →
          c.addOp op = c.insertAtom atomId ⟨after, text, (op.origin, op.seq)⟩ ∧
            ∀ d ∈ (c.addOp op).diagnostics,
              d ∈ c.diagnostics ∨ d = "atom_equivocation:" ++ atomId) ∧
        (op.payload = encodeTextDelete atomId →
          c.addOp op = { c with deleted := c.deleted.insert atomId } ∧
            (c.addOp op).diagnostics = c.diagnostics) := by
  refine ⟨parse_of_derives (derives_insert atomId after text),
    parse_of_derives (derives_delete atomId), ?_⟩
  intro c op hid
  constructor
  · intro htext hpayload
    have hop := c.addOp_insert op hid htext hpayload
    refine ⟨hop, ?_⟩
    intro d hd
    rw [hop] at hd
    exact c.mem_diagnostics_insertAtom hd
  · intro hpayload
    have hop := c.addOp_delete op hid hpayload
    exact ⟨hop, by rw [hop]⟩

theorem text_op_round_trip_letter :
    Collected.empty.addOp ⟨"r", 1, ⟨[]⟩, encodeTextInsert "a" none "\"x\\"⟩ =
      Collected.empty.insertAtom "a" ⟨none, "\"x\\", ("r", 1)⟩ :=
  (((text_op_round_trip "a" "\"x\\" none).2.2 Collected.empty _ (by decide)).1
    (by decide) rfl).1

end TautShape.Crdt.Text
