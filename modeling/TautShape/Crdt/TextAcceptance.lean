import TautShape.Crdt.TextGrammar
/-!
# The parser accepts its grammar

What the parser returns is derived, by induction on the depth it goes to; what is derived
it returns, by induction on the derivation.  From the two together: the parser is right on
every payload but those that are texts only if a form feed counts as white space.
-/

namespace TautShape.Crdt.Text

open TautShape.Lib TautShape.Lib.Utf8 TautShape.Lib.JsonGrammar

namespace Parser

/-! ## Scalars -/

theorem run_literal {value s s' : Bytes} {result r : Json} :
    (literal value result).run s = some (r, s') ↔ s = value ++ s' ∧ r = result := by
  unfold literal
  rw [run_bind_of_eq run_get]
  constructor
  · intro h
    split at h
    case isTrue htake =>
        rw [run_bind_of_eq (run_advance _), run_return, Option.some_inj, Prod.mk.injEq] at h
        obtain ⟨rfl, rfl⟩ := h
        refine ⟨?_, rfl⟩
        calc s = s.take value.length ++ s.drop value.length := (List.take_append_drop _ _).symm
          _ = value ++ s.drop value.length := by rw [htake]
    case isFalse => exact absurd h (by simp)
  · rintro ⟨rfl, rfl⟩
    rw [if_pos (List.take_left' rfl), run_bind_of_eq (run_advance _), run_return, List.drop_left]

/-! ## Fields -/

theorem field_eq_none_iff {fields : List (String × Json)} {key : String} :
    (field fields key).isSome = false ↔ ∀ p ∈ fields, p.1 ≠ key := by
  unfold field
  rw [Option.isSome_eq_false_iff, Option.isNone_iff_eq_none, List.lookup_eq_none_iff]
  simp [ne_comm]

theorem nodup_snoc {done : List (String × Json)} {key : String} {value : Json}
    (hdone : (done.map Prod.fst).Nodup) (habsent : ∀ p ∈ done, p.1 ≠ key) :
    ((done ++ [(key, value)]).map Prod.fst).Nodup := by
  rw [List.map_append, List.map_singleton, List.nodup_append']
  refine ⟨hdone, List.nodup_singleton key, ?_⟩
  intro k hk hk'
  obtain ⟨p, hp, rfl⟩ := List.mem_map.mp hk
  exact habsent p hp (List.mem_singleton.mp hk')

theorem absent_of_nodup {done listed rest : List (String × Json)} {key : String} {value : Json}
    (hlisted : Lists done listed)
    (hnodup : ((done ++ (key, value) :: rest).map Prod.fst).Nodup) :
    ∀ p ∈ listed, p.1 ≠ key := by
  intro p hp heq
  rw [List.map_append, List.map_cons, List.nodup_append'] at hnodup
  have hmem : p.1 ∈ done.map Prod.fst := List.mem_map_of_mem (hlisted.perm.mem_iff.mp hp)
  exact hnodup.2.2 hmem (by rw [heq]; exact List.mem_cons_self)

/-! ## What is returned is derived -/

/-- `element` returns nothing but values, after any white space. -/
def Sound (element : Parser Json) : Prop :=
  ∀ s s' v, element.run s = some (v, s') →
    ∃ w b, s = w ++ b ++ s' ∧ Spaces lax w ∧ Derives lax (.value v) b

section sound

variable {element : Parser Json} (helement : Sound element)

include helement

theorem element_sound {s t : Bytes} {v : Json} (h : element.run s = some (v, t)) :
    ∃ b, s = b ++ t.dropWhile isAsciiWhitespace ∧ Derives lax (.element v) b := by
  obtain ⟨w, b, rfl, hw, hb⟩ := helement _ _ _ h
  obtain ⟨w', r, hr, rfl, hw'⟩ := split_spaces t
  exact ⟨w ++ b ++ w', by rw [hr]; simp, .element hw hb hw'⟩

theorem elements_sound {fuel : Nat} {values : List Json} {s s' : Bytes} {v : Json}
    (h : (elements element fuel values).run s = some (v, s')) :
    ∃ b vs, s = b ++ 0x5d :: s' ∧ Derives lax (.elements vs) b ∧ v = .array (values ++ vs) := by
  induction fuel generalizing values s with
  | zero => exact absurd h (by simp [elements])
  | succ fuel ih =>
      rw [elements] at h
      obtain ⟨u, t, hu, hrest⟩ := run_bind_eq_some.mp h
      obtain ⟨b, rfl, hb⟩ := element_sound helement hu
      rw [run_bind_of_eq run_ws, run_bind_of_eq run_peek] at hrest
      split at hrest
      case h_1 hcomma =>
          obtain ⟨r, hr⟩ := List.head?_eq_some_iff.mp hcomma
          rw [hr] at hrest ⊢
          rw [run_bind_of_eq (run_advance 1)] at hrest
          obtain ⟨e, vs, heq, he, rfl⟩ := ih hrest
          rw [List.drop_one, List.tail_cons] at heq
          subst heq
          exact ⟨b ++ 0x2c :: e, u :: vs, by simp, .elements hb he, by simp⟩
      case h_2 hclose =>
          obtain ⟨r, hr⟩ := List.head?_eq_some_iff.mp hclose
          rw [hr] at hrest ⊢
          rw [run_bind_of_eq (run_advance 1), run_return, Option.some_inj, Prod.mk.injEq] at hrest
          obtain ⟨rfl, rfl⟩ := hrest
          exact ⟨b, [u], by simp, .oneElement hb, rfl⟩
      case h_3 => exact absurd hrest (by simp)

theorem array_sound {s s' : Bytes} {v : Json} (h : (array element).run (0x5b :: s) = some (v, s')) :
    ∃ b, 0x5b :: s = b ++ s' ∧ Derives lax (.value v) b := by
  have htake : (take 0x5b).run (0x5b :: s) = some ((), s) := run_take.mpr rfl
  unfold array at h
  obtain ⟨w, r, hr, rfl, hw⟩ := split_spaces s
  rw [run_bind_of_eq htake, run_bind_of_eq run_ws, run_bind_of_eq run_peek, hr] at h
  split at h
  case isTrue hclose =>
      obtain ⟨r, rfl⟩ := List.head?_eq_some_iff.mp hclose
      rw [run_bind_of_eq (run_advance 1), run_return, Option.some_inj, Prod.mk.injEq] at h
      obtain ⟨rfl, rfl⟩ := h
      exact ⟨0x5b :: w ++ [0x5d], by simp, .emptyArray hw⟩
  case isFalse hopen =>
      rw [run_bind_of_eq run_get] at h
      obtain ⟨b, vs, rfl, hb, rfl⟩ := elements_sound helement h
      exact ⟨0x5b :: (w ++ b) ++ [0x5d], by simp, .array (hb.padded hw)⟩

theorem member_sound {s t u r : Bytes} {key : String} {v : Json}
    (hkey : stringValue.run s = some (key, t)) (hcolon : (take 0x3a).run t = some ((), u))
    (hvalue : element.run u = some (v, r)) :
    ∃ b, s = b ++ r.dropWhile isAsciiWhitespace ∧ Derives lax (.member (key, v)) b := by
  obtain ⟨w, k, cs, rfl, hw, hk, rfl⟩ := stringValue_sound hkey
  obtain ⟨w', rfl, hw'⟩ := exists_spaces (run_take.mp hcolon)
  obtain ⟨b, hb, hmember⟩ := element_sound helement hvalue
  exact ⟨w ++ 0x22 :: k ++ 0x22 :: w' ++ 0x3a :: b, by rw [hb]; simp, .member hw hk hw' hmember⟩

theorem members_sound {fuel : Nat} {done fields : List (String × Json)} {s s' : Bytes} {v : Json}
    (hdone : (done.map Prod.fst).Nodup) (hfields : Lists done fields)
    (h : (members element fuel fields).run s = some (v, s')) :
    ∃ b more, s = b ++ 0x7d :: s' ∧ Derives lax (.members more) b ∧ ObjectOf (done ++ more) v := by
  induction fuel generalizing done fields s with
  | zero => exact absurd h (by simp [members])
  | succ fuel ih =>
      rw [members] at h
      obtain ⟨key, t, hkey, hafterKey⟩ := run_bind_eq_some.mp h
      obtain ⟨_, u, hcolon, hafterColon⟩ := run_bind_eq_some.mp hafterKey
      obtain ⟨value, r, hvalue, hrest⟩ := run_bind_eq_some.mp hafterColon
      obtain ⟨b, rfl, hb⟩ := member_sound helement hkey hcolon hvalue
      rw [run_unless, Bool.not_eq_true, field_eq_none_iff] at hrest
      obtain ⟨habsent, hrest⟩ := hrest
      have hlists := hfields.insert habsent value
      have hnodup : ((done ++ [(key, value)]).map Prod.fst).Nodup :=
        nodup_snoc hdone fun p hp => habsent p (hfields.perm.mem_iff.mpr hp)
      rw [run_bind_of_eq run_ws, run_bind_of_eq run_peek] at hrest
      split at hrest
      case h_1 hcomma =>
          obtain ⟨r, hr⟩ := List.head?_eq_some_iff.mp hcomma
          rw [hr] at hrest ⊢
          rw [run_bind_of_eq (run_advance 1)] at hrest
          obtain ⟨e, more, heq, he, hobject⟩ := ih hnodup hlists hrest
          rw [List.drop_one, List.tail_cons] at heq
          subst heq
          rw [List.append_assoc] at hobject
          exact ⟨b ++ 0x2c :: e, (key, value) :: more, by simp, .members hb he, hobject⟩
      case h_2 hclose =>
          obtain ⟨r, hr⟩ := List.head?_eq_some_iff.mp hclose
          rw [hr] at hrest ⊢
          rw [run_bind_of_eq (run_advance 1), run_return, Option.some_inj, Prod.mk.injEq] at hrest
          obtain ⟨rfl, rfl⟩ := hrest
          exact ⟨b, [(key, value)], by simp, .oneMember hb, hnodup, _, rfl, hlists⟩
      case h_3 => exact absurd hrest (by simp)

theorem object_sound {s s' : Bytes} {v : Json}
    (h : (object element).run (0x7b :: s) = some (v, s')) :
    ∃ b, 0x7b :: s = b ++ s' ∧ Derives lax (.value v) b := by
  have htake : (take 0x7b).run (0x7b :: s) = some ((), s) := run_take.mpr rfl
  unfold object at h
  obtain ⟨w, r, hr, rfl, hw⟩ := split_spaces s
  rw [run_bind_of_eq htake, run_bind_of_eq run_ws, run_bind_of_eq run_peek, hr] at h
  split at h
  case isTrue hclose =>
      obtain ⟨r, rfl⟩ := List.head?_eq_some_iff.mp hclose
      rw [run_bind_of_eq (run_advance 1), run_return, Option.some_inj, Prod.mk.injEq] at h
      obtain ⟨rfl, rfl⟩ := h
      exact ⟨0x7b :: w ++ [0x7d], by simp, .emptyObject hw ⟨List.nodup_nil, [], rfl, .nil⟩⟩
  case isFalse hopen =>
      rw [run_bind_of_eq run_get] at h
      have hnodup : (([] : List (String × Json)).map Prod.fst).Nodup := List.nodup_nil
      obtain ⟨b, fields, rfl, hb, hobject⟩ := members_sound helement hnodup .nil h
      exact ⟨0x7b :: (w ++ b) ++ [0x7d], by simp, .object (hb.paddedMembers hw) hobject⟩

end sound

theorem value_sound (depth : Nat) : Sound (value depth) := by
  induction depth with
  | zero =>
      intro s s' v h
      exact absurd h (by simp [value])
  | succ depth ih =>
      intro s s' v h
      rw [value, run_bind_of_eq run_ws, run_bind_of_eq run_peek] at h
      obtain ⟨w, r, hr, rfl, hw⟩ := split_spaces s
      rw [hr] at h
      have hparts : ∀ b, r = b ++ s' → Derives lax (.value v) b →
          ∃ w' b, w ++ r = w' ++ b ++ s' ∧ Spaces lax w' ∧ Derives lax (.value v) b := by
        rintro b rfl hb
        exact ⟨w, b, by simp, hw, hb⟩
      split at h
      case h_1 =>
          obtain ⟨hr, rfl⟩ := run_literal.mp h
          exact hparts _ hr (.scalar .null)
      case h_2 =>
          obtain ⟨hr, rfl⟩ := run_literal.mp h
          exact hparts _ hr (.scalar .true)
      case h_3 =>
          obtain ⟨hr, rfl⟩ := run_literal.mp h
          exact hparts _ hr (.scalar .false)
      case h_4 hquote =>
          rw [StateT.run_map, Option.map_eq_map, Option.map_eq_some_iff] at h
          obtain ⟨⟨text, t⟩, htext, heq⟩ := h
          rw [Prod.mk.injEq] at heq
          obtain ⟨rfl, rfl⟩ := heq
          obtain ⟨w', b, cs, rfl, hw', hb, rfl⟩ := stringValue_sound htext
          exact ⟨w ++ w', 0x22 :: b ++ [0x22], by simp, hw.append hw', .string hb⟩
      case h_5 hopen =>
          obtain ⟨r, rfl⟩ := List.head?_eq_some_iff.mp hopen
          obtain ⟨b, hb, hvalue⟩ := array_sound ih h
          exact hparts b hb hvalue
      case h_6 hopen =>
          obtain ⟨r, rfl⟩ := List.head?_eq_some_iff.mp hopen
          obtain ⟨b, hb, hvalue⟩ := object_sound ih h
          exact hparts b hb hvalue
      case h_7 => exact absurd h (by simp)

/-! ## What is derived is returned -/

theorem dropWhile_append_dark {s t : Bytes} {byte : UInt8}
    (hbyte : isAsciiWhitespace byte = false) :
    (s ++ byte :: t).dropWhile isAsciiWhitespace =
      s.dropWhile isAsciiWhitespace ++ byte :: t := by
  induction s with
  | nil => simp [hbyte]
  | cons b s ih =>
      by_cases hb : isAsciiWhitespace b = true
      · simp [hb, ih]
      · simp [hb]

theorem dropWhile_idem (s : Bytes) :
    (s.dropWhile isAsciiWhitespace).dropWhile isAsciiWhitespace =
      s.dropWhile isAsciiWhitespace :=
  List.dropWhile_idempotent _ s

theorem value_skip (depth : Nat) (s : Bytes) :
    (value depth).run (s.dropWhile isAsciiWhitespace) = (value depth).run s := by
  cases depth with
  | zero => rfl
  | succ depth =>
      rw [value, run_bind_of_eq run_ws, run_bind_of_eq run_ws, dropWhile_idem]

theorem stringValue_skip (s : Bytes) :
    stringValue.run (s.dropWhile isAsciiWhitespace) = stringValue.run s := by
  have htake : (take 0x22).run (s.dropWhile isAsciiWhitespace) = (take 0x22).run s := by
    unfold take
    rw [run_bind_of_eq run_ws, run_bind_of_eq run_ws, dropWhile_idem]
  unfold stringValue
  rw [StateT.run_bind, htake, StateT.run_bind]

section complete

variable {element : Parser Json} {fuel : Nat} {s t u w r : Bytes} {v : Json}

theorem run_elements_comma {values : List Json} (h : element.run s = some (v, w ++ 0x2c :: t))
    (hw : Spaces lax w) :
    (elements element (fuel + 1) values).run s =
      (elements element fuel (values ++ [v])).run t := by
  rw [elements, run_bind_of_eq h, run_bind_of_eq run_ws,
    dropWhile_spaces hw (dark_cons (by decide))]
  rfl

theorem run_elements_close {values : List Json} (h : element.run s = some (v, w ++ 0x5d :: t))
    (hw : Spaces lax w) :
    (elements element (fuel + 1) values).run s = some (.array (values ++ [v]), t) := by
  rw [elements, run_bind_of_eq h, run_bind_of_eq run_ws,
    dropWhile_spaces hw (dark_cons (by decide))]
  rfl

def ReadsMember (element : Parser Json) (s : Bytes) (key : String) (v : Json) (r : Bytes) : Prop :=
  ∃ t u, stringValue.run s = some (key, t) ∧ (take 0x3a).run t = some ((), u) ∧
    element.run u = some (v, r)

theorem run_members_comma {fields : List (String × Json)} {key : String}
    (h : ReadsMember element s key v (w ++ 0x2c :: r)) (hw : Spaces lax w)
    (habsent : ∀ p ∈ fields, p.1 ≠ key) :
    (members element (fuel + 1) fields).run s =
      (members element fuel (insertField fields key v)).run r := by
  obtain ⟨t, u, hkey, hcolon, hvalue⟩ := h
  rw [members, run_bind_of_eq hkey, run_bind_of_eq hcolon, run_bind_of_eq hvalue,
    field_eq_none_iff.mpr habsent, if_neg Bool.false_ne_true, run_bind_of_eq run_ws,
    dropWhile_spaces hw (dark_cons (by decide))]
  rfl

theorem run_members_close {fields : List (String × Json)} {key : String}
    (h : ReadsMember element s key v (w ++ 0x7d :: r)) (hw : Spaces lax w)
    (habsent : ∀ p ∈ fields, p.1 ≠ key) :
    (members element (fuel + 1) fields).run s =
      some (.object (insertField fields key v), r) := by
  obtain ⟨t, u, hkey, hcolon, hvalue⟩ := h
  rw [members, run_bind_of_eq hkey, run_bind_of_eq hcolon, run_bind_of_eq hvalue,
    field_eq_none_iff.mpr habsent, if_neg Bool.false_ne_true, run_bind_of_eq run_ws,
    dropWhile_spaces hw (dark_cons (by decide))]
  rfl

end complete

/-- What the parser makes of the bytes of a phrase, whatever follows them. -/
def Complete : Phrase Json → Bytes → Prop
  | .value v, b => ∀ depth w s, b.length < depth → Spaces lax w → Valid s →
      (value depth).run (w ++ b ++ s) = some (v, s)
  | .element v, b => ∀ depth s, b.length < depth → Valid s →
      ∃ w, Spaces lax w ∧ (value depth).run (b ++ s) = some (v, w ++ s)
  | .elements vs, b => ∀ depth fuel values s, b.length < depth →
      (b.dropWhile isAsciiWhitespace).length < fuel → Valid s →
        (elements (value depth) fuel values).run (b ++ 0x5d :: s) =
          some (.array (values ++ vs), s)
  | .member (key, v), b => ∀ depth s, b.length < depth → Valid s →
      ∃ w, Spaces lax w ∧ ReadsMember (value depth) (b ++ s) key v (w ++ s)
  | .members fields, b => ∀ depth fuel done listed s, b.length < depth →
      (b.dropWhile isAsciiWhitespace).length < fuel → Valid s → Lists done listed →
        ((done ++ fields).map Prod.fst).Nodup →
          ∃ l, Lists (done ++ fields) l ∧
            (members (value depth) fuel listed).run (b ++ 0x7d :: s) = some (.object l, s)

theorem valid_spaces {w : Bytes} (hw : Spaces lax w) : Valid w := by
  apply valid_of_ascii
  intro byte hmem
  rcases hw byte hmem with (rfl | rfl | rfl | rfl) | rfl <;> decide

theorem valid_of_derives {phrase : Phrase Json} {b : Bytes} (h : Derives lax phrase b) :
    Valid b := by
  apply h.valid
  · intro byte hbyte
    rcases hbyte with (rfl | rfl | rfl | rfl) | rfl <;> decide
  · intro b cs hliteral
    exact valid_literal hliteral
  · intro b v hscalar
    apply valid_of_ascii
    cases hscalar <;> simp

theorem run_value_dark {depth : Nat} {w s : Bytes} (hw : Spaces lax w) (hs : Dark s) :
    (value depth).run (w ++ s) = (value depth).run s := by
  rw [← value_skip, dropWhile_spaces hw hs]

/-! ### Where a phrase begins -/

def starts : Bytes := [0x22, 0x5b, 0x66, 0x6e, 0x74, 0x7b]

def Starts (b : Bytes) : Prop :=
  ∃ byte r, b.dropWhile isAsciiWhitespace = byte :: r ∧ byte ∈ starts

theorem starts_dark : ∀ byte ∈ starts, isAsciiWhitespace byte = false := by
  simp [starts, isAsciiWhitespace]

theorem starts_of_derives {phrase : Phrase Json} {b : Bytes} (h : Derives lax phrase b) :
    Starts b := by
  have hscalar : ∀ b v, Scalar b v → ∃ byte r, b = byte :: r ∧ byte ∈ starts := by
    intro b v hb
    cases hb <;> exact ⟨_, _, rfl, by decide⟩
  obtain ⟨w, byte, r, rfl, hw, hbyte⟩ :=
    h.starts hscalar (by decide) (by decide) (by decide)
  exact ⟨byte, r, dropWhile_spaces hw (dark_cons (starts_dark byte hbyte)), hbyte⟩

/-! ### Arrays and objects -/

theorem run_array_empty {element : Parser Json} {w s : Bytes} (hw : Spaces lax w) :
    (array element).run (0x5b :: (w ++ 0x5d :: s)) = some (.array [], s) := by
  have htake : (take 0x5b).run (0x5b :: (w ++ 0x5d :: s)) = some ((), w ++ 0x5d :: s) :=
    run_take.mpr rfl
  unfold array
  rw [run_bind_of_eq htake, run_bind_of_eq run_ws, dropWhile_spaces hw (dark_cons (by decide))]
  rfl

theorem run_object_empty {element : Parser Json} {w s : Bytes} (hw : Spaces lax w) :
    (object element).run (0x7b :: (w ++ 0x7d :: s)) = some (.object [], s) := by
  have htake : (take 0x7b).run (0x7b :: (w ++ 0x7d :: s)) = some ((), w ++ 0x7d :: s) :=
    run_take.mpr rfl
  unfold object
  rw [run_bind_of_eq htake, run_bind_of_eq run_ws, dropWhile_spaces hw (dark_cons (by decide))]
  rfl

theorem elements_skip {depth fuel : Nat} {values : List Json} (s : Bytes) :
    (elements (value depth) fuel values).run (s.dropWhile isAsciiWhitespace) =
      (elements (value depth) fuel values).run s := by
  cases fuel with
  | zero => rfl
  | succ fuel => rw [elements, StateT.run_bind, StateT.run_bind, value_skip]

theorem members_skip {depth fuel : Nat} {fields : List (String × Json)} (s : Bytes) :
    (members (value depth) fuel fields).run (s.dropWhile isAsciiWhitespace) =
      (members (value depth) fuel fields).run s := by
  cases fuel with
  | zero => rfl
  | succ fuel => rw [members, StateT.run_bind, StateT.run_bind, stringValue_skip]

theorem run_array (depth : Nat) (s : Bytes) {b : Bytes} (hb : Starts b) :
    ∃ fuel, (b.dropWhile isAsciiWhitespace).length < fuel ∧
      (array (value depth)).run (0x5b :: (b ++ 0x5d :: s)) =
        (elements (value depth) fuel []).run (b ++ 0x5d :: s) := by
  have htake : (take 0x5b).run (0x5b :: (b ++ 0x5d :: s)) = some ((), b ++ 0x5d :: s) :=
    run_take.mpr rfl
  have hdrop : (b ++ 0x5d :: s).dropWhile isAsciiWhitespace =
      b.dropWhile isAsciiWhitespace ++ 0x5d :: s := dropWhile_append_dark (by decide)
  refine ⟨((b ++ 0x5d :: s).dropWhile isAsciiWhitespace).length + 1, ?_, ?_⟩
  · rw [hdrop]
    simp
  · obtain ⟨byte, r, hbytes, hbyte⟩ := hb
    have hne : (some byte = some 0x5d) = False := by
      rw [Option.some_inj, eq_iff_iff, iff_false]
      rintro rfl
      exact absurd hbyte (by decide)
    rw [← elements_skip]
    unfold array
    rw [run_bind_of_eq htake, run_bind_of_eq run_ws, run_bind_of_eq run_peek, hdrop, hbytes,
      List.cons_append, List.head?_cons, if_neg (by rw [hne]; exact id), run_bind_of_eq run_get]

theorem run_object (depth : Nat) (s : Bytes) {b : Bytes} (hb : Starts b) :
    ∃ fuel, (b.dropWhile isAsciiWhitespace).length < fuel ∧
      (object (value depth)).run (0x7b :: (b ++ 0x7d :: s)) =
        (members (value depth) fuel []).run (b ++ 0x7d :: s) := by
  have htake : (take 0x7b).run (0x7b :: (b ++ 0x7d :: s)) = some ((), b ++ 0x7d :: s) :=
    run_take.mpr rfl
  have hdrop : (b ++ 0x7d :: s).dropWhile isAsciiWhitespace =
      b.dropWhile isAsciiWhitespace ++ 0x7d :: s := dropWhile_append_dark (by decide)
  refine ⟨((b ++ 0x7d :: s).dropWhile isAsciiWhitespace).length + 1, ?_, ?_⟩
  · rw [hdrop]
    simp
  · obtain ⟨byte, r, hbytes, hbyte⟩ := hb
    have hne : (some byte = some 0x7d) = False := by
      rw [Option.some_inj, eq_iff_iff, iff_false]
      rintro rfl
      exact absurd hbyte (by decide)
    rw [← members_skip]
    unfold object
    rw [run_bind_of_eq htake, run_bind_of_eq run_ws, run_bind_of_eq run_peek, hdrop, hbytes,
      List.cons_append, List.head?_cons, if_neg (by rw [hne]; exact id), run_bind_of_eq run_get]

/-! ### All phrases -/

theorem complete_scalar {b : Bytes} {v : Json} (h : Scalar b v) : Complete (.value v) b := by
  intro depth w s hdepth hw hs
  obtain ⟨depth, rfl⟩ := Nat.exists_eq_add_one.mpr (Nat.zero_lt_of_lt hdepth)
  rw [List.append_assoc]
  cases h with
  | null =>
      have hdark : Dark ([0x6e, 0x75, 0x6c, 0x6c] ++ s) := dark_cons (by decide)
      have hstart : (value (depth + 1)).run ([0x6e, 0x75, 0x6c, 0x6c] ++ s) =
          (literal "null".toUTF8.data.toList .null).run ([0x6e, 0x75, 0x6c, 0x6c] ++ s) := rfl
      rw [run_value_dark hw hdark, hstart]
      exact run_literal.mpr ⟨rfl, rfl⟩
  | true =>
      have hdark : Dark ([0x74, 0x72, 0x75, 0x65] ++ s) := dark_cons (by decide)
      have hstart : (value (depth + 1)).run ([0x74, 0x72, 0x75, 0x65] ++ s) =
          (literal "true".toUTF8.data.toList (.bool true)).run ([0x74, 0x72, 0x75, 0x65] ++ s) := rfl
      rw [run_value_dark hw hdark, hstart]
      exact run_literal.mpr ⟨rfl, rfl⟩
  | false =>
      have hdark : Dark ([0x66, 0x61, 0x6c, 0x73, 0x65] ++ s) := dark_cons (by decide)
      have hstart : (value (depth + 1)).run ([0x66, 0x61, 0x6c, 0x73, 0x65] ++ s) =
          (literal "false".toUTF8.data.toList (.bool false)).run
            ([0x66, 0x61, 0x6c, 0x73, 0x65] ++ s) := rfl
      rw [run_value_dark hw hdark, hstart]
      exact run_literal.mpr ⟨rfl, rfl⟩

theorem complete_string {b : Bytes} {cs : List Char} (h : literalOf b cs) :
    Complete (.value (.string (String.ofList cs))) (0x22 :: b ++ [0x22]) := by
  intro depth w s hdepth hw hs
  obtain ⟨depth, rfl⟩ := Nat.exists_eq_add_one.mpr (Nat.zero_lt_of_lt hdepth)
  have hvalue : (value (depth + 1)).run (0x22 :: (b ++ 0x22 :: s)) =
      (Json.string <$> stringValue).run (0x22 :: (b ++ 0x22 :: s)) := rfl
  have hstring : stringValue.run ([] ++ 0x22 :: b ++ 0x22 :: s) = some (String.ofList cs, s) :=
    run_stringValue .nil h hs
  have hbytes : w ++ (0x22 :: b ++ [0x22]) ++ s = w ++ 0x22 :: (b ++ 0x22 :: s) := by simp
  rw [hbytes, run_value_dark hw (dark_cons (by decide)), hvalue, StateT.run_map]
  rw [List.nil_append, List.cons_append] at hstring
  rw [hstring]
  rfl

theorem complete_brackets {b : Bytes} {v : Json} {left right : UInt8}
    (hleft : left = 0x5b ∨ left = 0x7b)
    (h : ∀ depth s, b.length < depth → Valid s →
      (value (depth + 1)).run (left :: (b ++ right :: s)) = some (v, s)) :
    Complete (.value v) (left :: b ++ [right]) := by
  intro depth w s hdepth hw hs
  obtain ⟨depth, rfl⟩ := Nat.exists_eq_add_one.mpr (Nat.zero_lt_of_lt hdepth)
  have hdark : isAsciiWhitespace left = false := by
    rcases hleft with rfl | rfl <;> decide
  have hbytes : w ++ (left :: b ++ [right]) ++ s = w ++ left :: (b ++ right :: s) := by simp
  have hlength : b.length < depth := by
    simp at hdepth
    omega
  rw [hbytes, run_value_dark hw (dark_cons hdark)]
  exact h depth s hlength hs

theorem complete_of_derives {phrase : Phrase Json} {b : Bytes} (h : Derives lax phrase b) :
    Complete phrase b := by
  induction h with
  | scalar hscalar => exact complete_scalar hscalar
  | string hliteral => exact complete_string hliteral
  | emptyArray hspaces =>
      apply complete_brackets (.inl rfl)
      intro depth s hdepth hs
      exact run_array_empty hspaces
  | array helements ih =>
      apply complete_brackets (.inl rfl)
      intro depth s hdepth hs
      obtain ⟨fuel, hfuel, hrun⟩ := run_array depth s (starts_of_derives helements)
      exact hrun.trans (ih depth fuel [] s hdepth hfuel hs)
  | emptyObject hspaces hobject =>
      apply complete_brackets (.inr rfl)
      intro depth s hdepth hs
      obtain ⟨-, listed, rfl, hlisted⟩ := hobject
      rw [hlisted.eq .nil]
      exact run_object_empty hspaces
  | object hmembers hobject ih =>
      apply complete_brackets (.inr rfl)
      intro depth s hdepth hs
      obtain ⟨hnodup, listed, rfl, hlisted⟩ := hobject
      obtain ⟨fuel, hfuel, hrun⟩ := run_object depth s (starts_of_derives hmembers)
      obtain ⟨l, hl, hmembers⟩ := ih depth fuel [] [] s hdepth hfuel hs .nil hnodup
      rw [hlisted.eq hl]
      exact hrun.trans hmembers
  | @element before bytes after v hbefore hvalue hafter ih =>
      intro depth s hdepth hs
      refine ⟨after, hafter, ?_⟩
      have hrun := ih depth before (after ++ s) (by simp at hdepth; omega) hbefore
        ((valid_spaces hafter).append hs)
      simpa using hrun
  | oneElement helement ih =>
      intro depth fuel values s hdepth hfuel hs
      obtain ⟨w, hw, hrun⟩ := ih depth (0x5d :: s) hdepth (valid_cons (by decide) hs)
      obtain ⟨fuel, rfl⟩ := Nat.exists_eq_add_one.mpr (Nat.zero_lt_of_lt hfuel)
      exact run_elements_close hrun hw
  | @elements bytes rest v vs helement helements ih ihs =>
      intro depth fuel values s hdepth hfuel hs
      rw [dropWhile_append_dark (by decide)] at hfuel
      simp only [List.length_append, List.length_cons] at hdepth hfuel
      have hrest : Valid (rest ++ 0x5d :: s) :=
        (valid_of_derives helements).append (valid_cons (by decide) hs)
      obtain ⟨w, hw, hrun⟩ := ih depth (0x2c :: (rest ++ 0x5d :: s)) (by omega)
        (valid_cons (by decide) hrest)
      obtain ⟨fuel, rfl⟩ := Nat.exists_eq_add_one.mpr (Nat.zero_lt_of_lt hfuel)
      have hle := List.length_dropWhile_le isAsciiWhitespace rest
      calc
        _ = (elements (value depth) (fuel + 1) values).run
            (bytes ++ 0x2c :: (rest ++ 0x5d :: s)) := by rw [List.append_assoc]; rfl
        _ = (elements (value depth) fuel (values ++ [v])).run (rest ++ 0x5d :: s) :=
            run_elements_comma hrun hw
        _ = some (.array (values ++ [v] ++ vs), s) :=
            ihs depth fuel (values ++ [v]) s (by omega) (by omega) hs
        _ = some (.array (values ++ v :: vs), s) := by rw [List.append_assoc]; rfl
  | @member before key between bytes cs v hbefore hkey hbetween helement ih =>
      intro depth s hdepth hs
      simp only [List.length_append, List.length_cons] at hdepth
      obtain ⟨w, hw, hrun⟩ := ih depth s (by omega) hs
      have htail : Valid (between ++ 0x3a :: (bytes ++ s)) :=
        (valid_spaces hbetween).append
          (valid_cons (by decide) ((valid_of_derives helement).append hs))
      refine ⟨w, hw, between ++ 0x3a :: (bytes ++ s), bytes ++ s, ?_, ?_, hrun⟩
      · have hstring := run_stringValue hbefore hkey htail
        simpa using hstring
      · exact run_take_spaces hbetween (by decide)
  | @oneMember bytes field hmember ih =>
      intro depth fuel done listed s hdepth hfuel hs hlisted hnodup
      obtain ⟨w, hw, hrun⟩ := ih depth (0x7d :: s) hdepth (valid_cons (by decide) hs)
      obtain ⟨fuel, rfl⟩ := Nat.exists_eq_add_one.mpr (Nat.zero_lt_of_lt hfuel)
      have habsent := absent_of_nodup hlisted hnodup
      exact ⟨_, hlisted.insert habsent field.2, run_members_close hrun hw habsent⟩
  | @members bytes rest field fields hmember hmembers ih ihs =>
      intro depth fuel done listed s hdepth hfuel hs hlisted hnodup
      rw [dropWhile_append_dark (by decide)] at hfuel
      simp only [List.length_append, List.length_cons] at hdepth hfuel
      have hrest : Valid (rest ++ 0x7d :: s) :=
        (valid_of_derives hmembers).append (valid_cons (by decide) hs)
      obtain ⟨w, hw, hrun⟩ := ih depth (0x2c :: (rest ++ 0x7d :: s)) (by omega)
        (valid_cons (by decide) hrest)
      obtain ⟨fuel, rfl⟩ := Nat.exists_eq_add_one.mpr (Nat.zero_lt_of_lt hfuel)
      have hle := List.length_dropWhile_le isAsciiWhitespace rest
      have habsent := absent_of_nodup hlisted hnodup
      have hsplit : done ++ field :: fields = done ++ [field] ++ fields := by simp
      rw [hsplit] at hnodup ⊢
      obtain ⟨l, hl, hmore⟩ := ihs depth fuel (done ++ [field])
        (insertField listed field.1 field.2) s (by omega) (by omega) hs
        (hlisted.insert habsent field.2) hnodup
      refine ⟨l, hl, ?_⟩
      calc
        _ = (Parser.members (value depth) (fuel + 1) listed).run
            (bytes ++ 0x2c :: (rest ++ 0x7d :: s)) := by rw [List.append_assoc]; rfl
        _ = (Parser.members (value depth) fuel (insertField listed field.1 field.2)).run
            (rest ++ 0x7d :: s) := run_members_comma hrun hw habsent
        _ = some (.object l, s) := hmore

/-- The parser accepts the texts in which a form feed may stand among the white space, and
returns what they denote. -/
theorem parse_eq_some_iff {bytes : Bytes} {v : Json} :
    parse bytes = some v ↔ LaxText bytes v := by
  unfold parse
  rw [Option.bind_eq_bind, Option.bind_eq_some_iff]
  constructor
  · rintro ⟨⟨result, rest⟩, hrun, hend⟩
    dsimp only at hend
    split at hend
    case isFalse => exact absurd hend (by simp)
    case isTrue hempty =>
        obtain rfl : result = v := Option.some_inj.mp hend
        rw [run_bind_of_eq run_ws] at hrun
        obtain ⟨u, t, hvalue, htail⟩ := run_bind_eq_some.mp hrun
        rw [run_bind_of_eq run_ws, run_return, Option.some_inj, Prod.mk.injEq] at htail
        obtain ⟨rfl, rfl⟩ := htail
        rw [value_skip] at hvalue
        obtain ⟨b, rfl, hb⟩ := element_sound (value_sound _) hvalue
        rw [List.isEmpty_iff.mp hempty, List.append_nil]
        exact hb
  · intro h
    obtain ⟨w, hw, hrun⟩ := complete_of_derives h (bytes.length + 1) []
      (Nat.lt_succ_self _) Valid.nil
    rw [List.append_nil, List.append_nil] at hrun
    have hdrop : w.dropWhile isAsciiWhitespace = [] := by
      have hall := dropWhile_spaces (s := []) hw (by simp [Dark])
      rwa [List.append_nil] at hall
    refine ⟨(v, []), ?_, rfl⟩
    rw [run_bind_of_eq run_ws]
    rw [← value_skip] at hrun
    rw [run_bind_of_eq hrun, run_bind_of_eq run_ws, hdrop, run_return]

end Parser

/-! ## The form feed -/

theorem not_formFeed_of_encodeChar {c : Char} (hc : IsPlain c) :
    ∀ byte ∈ encodeChar c, byte ≠ 0x0c := by
  rintro byte hmem rfl
  have heq := eq_ofUInt8_of_mem hmem (by decide)
  rw [IsPlain, heq] at hc
  exact absurd hc (by decide)

theorem formFeed_not_mem {bytes : Bytes} {v : Json} (h : PayloadText bytes v) :
    0x0c ∉ bytes := by
  have hall : ∀ byte ∈ bytes, byte ≠ 0x0c := by
    refine Derives.forall_mem (P := fun byte => byte ≠ 0x0c) ?_ ?_ ?_ ?_ h
    · rintro byte (rfl | rfl | rfl | rfl) <;> decide
    · intro b cs hliteral
      refine Pieces.forall_mem (P := fun byte => byte ≠ 0x0c) ?_ hliteral
      intro b c hpiece
      cases hpiece with
      | plain hplain => exact not_formFeed_of_encodeChar hplain
      | short hshort => simpa using hshort.byte_lt.1
      | unicode hunicode =>
          have hne : ∀ byte : UInt8, 0x30 ≤ byte → byte ≠ 0x0c := by
            rintro byte hge rfl
            exact absurd hge (by decide)
          simpa using fun byte hmem => hne byte (hunicode.ascii byte hmem).1
    · intro b v hscalar
      cases hscalar <;> simp
    · simp [marks]
  intro hmem
  exact hall 0x0c hmem rfl

theorem LaxText.of_payloadText {bytes : Bytes} {v : Json} (h : PayloadText bytes v) :
    LaxText bytes v :=
  h.withSpace fun _ _ hspace => Or.inl hspace

theorem PayloadText.of_laxText {bytes : Bytes} {v : Json} (h : LaxText bytes v)
    (hbytes : 0x0c ∉ bytes) : PayloadText bytes v := by
  refine h.withSpace fun byte hmem hspace => hspace.resolve_right ?_
  rintro rfl
  exact hbytes hmem

/-- The parser and RFC 8259 agree on a payload unless it holds a form feed and is a text when
form feeds are read as white space. -/
theorem parse_exact_iff (bytes : Bytes) :
    (∀ v, Parser.parse bytes = some v ↔ PayloadText bytes v) ↔
      (0x0c ∈ bytes → ¬ ∃ v, LaxText bytes v) := by
  constructor
  · rintro h hmem ⟨v, hv⟩
    have hpayload := (h v).mp (Parser.parse_eq_some_iff.mpr hv)
    exact formFeed_not_mem hpayload hmem
  · intro h v
    rw [Parser.parse_eq_some_iff]
    constructor
    · intro hv
      apply PayloadText.of_laxText hv
      intro hmem
      exact h hmem ⟨v, hv⟩
    · exact LaxText.of_payloadText

/-- A form feed before `null` is passed over. -/
theorem form_feed_accepted :
    ¬ ∀ v, Parser.parse [0x0c, 0x6e, 0x75, 0x6c, 0x6c] = some v ↔
      PayloadText [0x0c, 0x6e, 0x75, 0x6c, 0x6c] v := by
  intro h
  have hparse : Parser.parse [0x0c, 0x6e, 0x75, 0x6c, 0x6c] = some .null := rfl
  exact formFeed_not_mem ((h .null).mp hparse) (by decide)

end TautShape.Crdt.Text
