import Mathlib
/-!
# Numerals and regrouped bits

Numerals with the most significant digit first, and one string of bits read in groups of
two widths.  A reader of the narrow groups is at every point at a regrouping: the whole
groups it has given out, and the bits it holds back.
-/

namespace TautShape.Lib

/-! ## Numerals -/

/-- The number with these digits, the most significant first. -/
def numeral (base : Nat) (digits : List Nat) : Nat := Nat.ofDigits base digits.reverse

@[simp] theorem numeral_nil (base : Nat) : numeral base [] = 0 := rfl

theorem numeral_append (base : Nat) (xs ys : List Nat) :
    numeral base (xs ++ ys) = numeral base xs * base ^ ys.length + numeral base ys := by
  unfold numeral
  rw [List.reverse_append, Nat.ofDigits_append, List.length_reverse]
  ring

theorem numeral_concat (base : Nat) (xs : List Nat) (x : Nat) :
    numeral base (xs ++ [x]) = numeral base xs * base + x := by
  rw [numeral_append]
  simp [numeral]

theorem numeral_injective {base : Nat} {xs ys : List Nat} (hbase : 1 < base)
    (hlength : xs.length = ys.length) (hxs : ∀ x ∈ xs, x < base) (hys : ∀ y ∈ ys, y < base)
    (h : numeral base xs = numeral base ys) : xs = ys := by
  apply List.reverse_injective
  apply Nat.ofDigits_inj_of_len_eq hbase
  · rw [List.length_reverse, List.length_reverse, hlength]
  · intro x hx
    exact hxs x (List.mem_reverse.mp hx)
  · intro y hy
    exact hys y (List.mem_reverse.mp hy)
  · exact h

/-! ## Regrouping -/

/-- Groups of `a` bits and groups of `b` bits with one string of bits, of which the last
`spare` are left over and have the value `rest`. -/
structure Regroups (a b : Nat) (xs ys : List Nat) (spare rest : Nat) : Prop where
  left_lt : ∀ x ∈ xs, x < 2 ^ a
  right_lt : ∀ y ∈ ys, y < 2 ^ b
  length_eq : a * xs.length = b * ys.length + spare
  value_eq : numeral (2 ^ a) xs = numeral (2 ^ b) ys * 2 ^ spare + rest
  rest_lt : rest < 2 ^ spare

namespace Regroups

variable {a b spare rest : Nat} {xs ys : List Nat}

theorem nil (a b : Nat) : Regroups a b [] [] 0 0 where
  left_lt := by simp
  right_lt := by simp
  length_eq := by simp
  value_eq := by simp
  rest_lt := by simp

theorem take (h : Regroups a b xs ys spare rest) {x : Nat} (hx : x < 2 ^ a) :
    Regroups a b (xs ++ [x]) ys (spare + a) (rest * 2 ^ a + x) where
  left_lt := by
    rw [List.forall_mem_append, List.forall_mem_singleton]
    exact ⟨h.left_lt, hx⟩
  right_lt := h.right_lt
  length_eq := by
    rw [List.length_append, List.length_singleton, Nat.mul_add, h.length_eq]
    omega
  value_eq := by
    rw [numeral_concat, h.value_eq, Nat.pow_add]
    ring
  rest_lt := by
    have hle : (rest + 1) * 2 ^ a ≤ 2 ^ spare * 2 ^ a := Nat.mul_le_mul_right _ h.rest_lt
    rw [Nat.pow_add]
    calc rest * 2 ^ a + x < rest * 2 ^ a + 2 ^ a := Nat.add_lt_add_left hx _
      _ = (rest + 1) * 2 ^ a := (Nat.succ_mul rest (2 ^ a)).symm
      _ ≤ 2 ^ spare * 2 ^ a := hle

theorem give (h : Regroups a b xs ys (spare + b) rest) :
    Regroups a b xs (ys ++ [rest / 2 ^ spare]) spare (rest % 2 ^ spare) where
  left_lt := h.left_lt
  right_lt := by
    have hlt : rest / 2 ^ spare < 2 ^ b := by
      apply Nat.div_lt_of_lt_mul
      rw [← Nat.pow_add]
      exact h.rest_lt
    rw [List.forall_mem_append, List.forall_mem_singleton]
    exact ⟨h.right_lt, hlt⟩
  length_eq := by
    rw [h.length_eq, List.length_append, List.length_singleton]
    ring
  value_eq := by
    have hrest : 2 ^ spare * (rest / 2 ^ spare) + rest % 2 ^ spare = rest :=
      Nat.div_add_mod rest (2 ^ spare)
    calc numeral (2 ^ a) xs = numeral (2 ^ b) ys * 2 ^ (spare + b) + rest := h.value_eq
      _ = numeral (2 ^ b) ys * 2 ^ (spare + b) +
            (2 ^ spare * (rest / 2 ^ spare) + rest % 2 ^ spare) := by rw [hrest]
      _ = numeral (2 ^ b) (ys ++ [rest / 2 ^ spare]) * 2 ^ spare + rest % 2 ^ spare := by
            rw [numeral_concat, Nat.pow_add]
            ring
  rest_lt := Nat.mod_lt _ (Nat.two_pow_pos spare)

theorem append {us vs : List Nat} (h : Regroups a b us vs 0 0)
    (h' : Regroups a b xs ys spare rest) :
    Regroups a b (us ++ xs) (vs ++ ys) spare rest where
  left_lt := List.forall_mem_append.mpr ⟨h.left_lt, h'.left_lt⟩
  right_lt := List.forall_mem_append.mpr ⟨h.right_lt, h'.right_lt⟩
  length_eq := by
    rw [List.length_append, List.length_append, Nat.mul_add, Nat.mul_add, h.length_eq,
      h'.length_eq]
    omega
  value_eq := by
    have hvalue : numeral (2 ^ a) us = numeral (2 ^ b) vs := by
      rw [h.value_eq]
      simp
    have hpow : (2 ^ a) ^ xs.length = (2 ^ b) ^ ys.length * 2 ^ spare := by
      rw [← Nat.pow_mul, ← Nat.pow_mul, ← Nat.pow_add, h'.length_eq]
    rw [numeral_append, numeral_append, hvalue, hpow, h'.value_eq]
    ring
  rest_lt := h'.rest_lt

/-! ## What a regrouping determines -/

theorem spare_eq (h : Regroups a b xs ys spare rest) (hspare : spare < b) :
    spare = a * xs.length % b := by
  rw [h.length_eq, Nat.mul_add_mod, Nat.mod_eq_of_lt hspare]

/-- The groups that came in determine those that went out and what is left over. -/
theorem right_unique {ys' : List Nat} {spare' rest' : Nat} (h : Regroups a b xs ys spare rest)
    (h' : Regroups a b xs ys' spare' rest') (hspare : spare < b) (hspare' : spare' < b) :
    ys = ys' ∧ spare = spare' ∧ rest = rest' := by
  have heq : spare = spare' := (h.spare_eq hspare).trans (h'.spare_eq hspare').symm
  subst heq
  have hb : 0 < b := Nat.zero_lt_of_lt hspare
  have hmul : b * ys.length = b * ys'.length := by
    have hsum := h.length_eq.symm.trans h'.length_eq
    omega
  have hlength : ys.length = ys'.length := Nat.eq_of_mul_eq_mul_left hb hmul
  have hvalue := h.value_eq.symm.trans h'.value_eq
  have hdiv : numeral (2 ^ b) ys = numeral (2 ^ b) ys' := by
    have hquotient := congrArg (· / 2 ^ spare) hvalue
    simpa only [Nat.add_comm _ rest, Nat.add_comm _ rest',
      Nat.add_mul_div_right _ _ (Nat.two_pow_pos spare), Nat.div_eq_of_lt h.rest_lt,
      Nat.div_eq_of_lt h'.rest_lt, Nat.zero_add] using hquotient
  have hrest : rest = rest' := by
    rw [hdiv] at hvalue
    omega
  have hbase : 1 < 2 ^ b := Nat.one_lt_two_pow (by omega)
  exact ⟨numeral_injective hbase hlength h.right_lt h'.right_lt hdiv, rfl, hrest⟩

/-- The groups that went out determine those that came in, with what is left over. -/
theorem left_unique {xs' : List Nat} (h : Regroups a b xs ys spare rest)
    (h' : Regroups a b xs' ys spare rest) (ha : 0 < a) : xs = xs' := by
  have hmul : a * xs.length = a * xs'.length := h.length_eq.trans h'.length_eq.symm
  have hlength : xs.length = xs'.length := Nat.eq_of_mul_eq_mul_left ha hmul
  have hbase : 1 < 2 ^ a := Nat.one_lt_two_pow (by omega)
  exact numeral_injective hbase hlength h.left_lt h'.left_lt (h.value_eq.trans h'.value_eq.symm)

theorem rest_eq {x : Nat} (h : Regroups a b (xs ++ [x]) ys spare rest) (hspare : spare ≤ a) :
    rest = x % 2 ^ spare := by
  have hpow : 2 ^ a = 2 ^ spare * 2 ^ (a - spare) := by
    rw [← Nat.pow_add]
    congr 1
    omega
  have hvalue := h.value_eq
  rw [numeral_concat, hpow] at hvalue
  calc rest = rest % 2 ^ spare := (Nat.mod_eq_of_lt h.rest_lt).symm
    _ = (numeral (2 ^ b) ys * 2 ^ spare + rest) % 2 ^ spare := (Nat.mul_add_mod' _ _ _).symm
    _ = (2 ^ spare * (numeral (2 ^ spare * 2 ^ (a - spare)) xs * 2 ^ (a - spare)) + x) %
          2 ^ spare := by
        rw [← hvalue]
        congr 2
        ring
    _ = x % 2 ^ spare := Nat.mul_add_mod _ _ _

end Regroups

end TautShape.Lib
