import Mathlib.Tactic.Ring
import Mathlib.Data.List.Basic
/-!
# Bytes on a wire

Numbers of a fixed width, least byte first, and reads that find their bytes in pieces:
however the pieces are cut, a loop of reads gets what it would get from one piece.
-/

namespace TautShape.Lib

/-! ## Little-endian numbers -/

def toLittleEndian : Nat → Nat → List UInt8
  | 0, _ => []
  | width + 1, n => UInt8.ofNat (n % 256) :: toLittleEndian width (n / 256)

def ofLittleEndian : List UInt8 → Nat
  | [] => 0
  | byte :: rest => byte.toNat + 256 * ofLittleEndian rest

@[simp] theorem length_toLittleEndian (width n : Nat) :
    (toLittleEndian width n).length = width := by
  induction width generalizing n with
  | zero => rfl
  | succ width ih => rw [toLittleEndian, List.length_cons, ih]

theorem ofLittleEndian_toLittleEndian (width : Nat) {n : Nat} (h : n < 256 ^ width) :
    ofLittleEndian (toLittleEndian width n) = n := by
  induction width generalizing n with
  | zero =>
      rw [pow_zero] at h
      show 0 = n
      omega
  | succ width ih =>
      have hrest : n / 256 < 256 ^ width := by
        apply Nat.div_lt_of_lt_mul
        rwa [← pow_succ']
      have hbyte : (UInt8.ofNat (n % 256)).toNat = n % 256 := by
        apply UInt8.toNat_ofNat_of_lt'
        show n % 256 < 256
        omega
      calc ofLittleEndian (toLittleEndian (width + 1) n)
          = (UInt8.ofNat (n % 256)).toNat + 256 * ofLittleEndian (toLittleEndian width (n / 256)) :=
            rfl
        _ = n % 256 + 256 * (n / 256) := by rw [hbyte, ih hrest]
        _ = n := Nat.mod_add_div n 256

/-! ## Reads in pieces -/

/-- What successive reads find: items that are there, of which a read takes as many as it
has room for, an interruption, or a fault.  Behind the last of them is the end, and a read
that finds no item takes it for the end. -/
inductive Delivery (α ε : Type*) where
  | chunk (items : List α)
  | interrupted
  | fault (error : ε)

variable {α ε : Type*}

def Delivery.Clean : Delivery α ε → Prop
  | .chunk items => items ≠ []
  | .interrupted => True
  | .fault _ => False

def Delivery.items : Delivery α ε → List α
  | .chunk items => items
  | _ => []

def delivered (ds : List (Delivery α ε)) : List α := ds.flatMap Delivery.items

inductive Filled (α : Type*) where
  | filled (items : List α)
  | ended

/-- Reads until `want` items are there, those of `got` included. -/
def fill (want : Nat) (got : List α) :
    List (Delivery α ε) → Except ε (Filled α) × List (Delivery α ε)
  | [] => (.ok (if want ≤ got.length then .filled got else .ended), [])
  | d :: ds =>
      if want ≤ got.length then (.ok (.filled got), d :: ds)
      else
        match d with
        | .chunk items =>
            let room := want - got.length
            if items.isEmpty then (.ok .ended, ds)
            else if items.length ≤ room then fill want (got ++ items) ds
            -- the read fills what is left, which ends the loop
            else (.ok (.filled (got ++ items.take room)), .chunk (items.drop room) :: ds)
        | .interrupted => fill want got ds
        | .fault error => (.error error, ds)

variable {want : Nat} {got : List α} {ds : List (Delivery α ε)}

theorem fill_full (h : want ≤ got.length) (d : Delivery α ε) :
    fill want got (d :: ds) = (.ok (.filled got), d :: ds) := by
  unfold fill
  rw [if_pos h]

theorem fill_interrupted (h : got.length < want) :
    fill want got (.interrupted :: ds) = fill want got ds := by
  rw [fill.eq_def]
  simp only [Nat.not_le.mpr h, if_false]

/-- A piece that there is room for. -/
theorem fill_piece (h : got.length < want) {items : List α} (hitems : items ≠ [])
    (hroom : items.length ≤ want - got.length) :
    fill want got (.chunk items :: ds) = fill want (got ++ items) ds := by
  rw [fill.eq_def]
  simp only [Nat.not_le.mpr h, List.isEmpty_eq_false_iff.mpr hitems, hroom, Bool.false_eq_true,
    if_false, if_true]

theorem fill_part (h : got.length < want) {items : List α} (hitems : items ≠ [])
    (hroom : want - got.length < items.length) :
    fill want got (.chunk items :: ds) =
      (.ok (.filled (got ++ items.take (want - got.length))),
        .chunk (items.drop (want - got.length)) :: ds) := by
  rw [fill.eq_def]
  simp only [Nat.not_le.mpr h, List.isEmpty_eq_false_iff.mpr hitems, Nat.not_le.mpr hroom,
    Bool.false_eq_true, if_false]

theorem append_delivered_chunk (got items : List α) (ds : List (Delivery α ε)) :
    got ++ delivered (.chunk items :: ds) = got ++ items ++ delivered ds := by
  rw [List.append_assoc]
  rfl

theorem delivered_chunk (items : List α) : delivered [(.chunk items : Delivery α ε)] = items :=
  List.append_nil items

theorem clean_chunk {items : List α} (h : items ≠ []) :
    ∀ d ∈ [(.chunk items : Delivery α ε)], d.Clean := by
  intro d hd
  obtain rfl := List.mem_singleton.mp hd
  exact h

/-- Where enough is delivered, the loop gets what is wanted and leaves the rest. -/
theorem fill_enough (hclean : ∀ d ∈ ds, d.Clean) (hgot : got.length ≤ want)
    (henough : want ≤ (got ++ delivered ds).length) :
    ∃ rest, fill want got ds = (.ok (.filled ((got ++ delivered ds).take want)), rest) ∧
      delivered rest = (got ++ delivered ds).drop want ∧ ∀ d ∈ rest, d.Clean := by
  induction ds generalizing got with
  | nil =>
      have hall : (got ++ delivered ([] : List (Delivery α ε))) = got := List.append_nil got
      rw [hall] at henough ⊢
      refine ⟨[], ?_, ?_, by simp⟩
      · rw [fill, if_pos henough, List.take_of_length_le (by omega)]
      · rw [List.drop_eq_nil_of_le (by omega)]
        rfl
  | cons d ds ih =>
      have hrest : ∀ d' ∈ ds, d'.Clean := fun d' hd' => hclean d' (List.mem_cons_of_mem d hd')
      by_cases hfull : want ≤ got.length
      · refine ⟨d :: ds, ?_, ?_, hclean⟩
        · rw [fill_full hfull, List.take_append_of_le_length hfull,
            List.take_of_length_le (by omega)]
        · rw [List.drop_append_of_le_length hfull, List.drop_eq_nil_of_le (by omega),
            List.nil_append]
      have hmore : got.length < want := by omega
      cases d with
      | chunk items =>
          have hitems : items ≠ [] := hclean _ List.mem_cons_self
          rw [append_delivered_chunk] at henough ⊢
          by_cases hroom : items.length ≤ want - got.length
          · rw [fill_piece hmore hitems hroom]
            apply ih hrest _ henough
            rw [List.length_append]
            omega
          · have hlength : want ≤ (got ++ items).length := by
              rw [List.length_append]
              omega
            have htake : (got ++ items ++ delivered ds).take want =
                got ++ items.take (want - got.length) := by
              rw [List.take_append_of_le_length hlength, List.take_append,
                List.take_of_length_le hmore.le]
            have hdrop : (got ++ items ++ delivered ds).drop want =
                items.drop (want - got.length) ++ delivered ds := by
              rw [List.drop_append_of_le_length hlength, List.drop_append,
                List.drop_eq_nil_of_le hmore.le, List.nil_append]
            rw [htake, hdrop, fill_part hmore hitems (by omega)]
            refine ⟨_, rfl, rfl, fun d hd => ?_⟩
            rcases List.mem_cons.mp hd with rfl | hd
            · exact fun hnil => hroom (List.drop_eq_nil_iff.mp hnil)
            · exact hrest d hd
      | interrupted =>
          rw [fill_interrupted hmore]
          exact ih hrest hgot henough
      | fault error => exact (hclean _ List.mem_cons_self).elim

/-- Where less is delivered, the loop meets the end. -/
theorem fill_short (hclean : ∀ d ∈ ds, d.Clean) (hshort : (got ++ delivered ds).length < want) :
    fill want got ds = (.ok .ended, []) := by
  induction ds generalizing got with
  | nil =>
      rw [delivered, List.flatMap_nil, List.append_nil] at hshort
      rw [fill, if_neg (by omega)]
  | cons d ds ih =>
      have hrest : ∀ d' ∈ ds, d'.Clean := fun d' hd' => hclean d' (List.mem_cons_of_mem d hd')
      have hmore : got.length < want := by
        rw [List.length_append] at hshort
        omega
      cases d with
      | chunk items =>
          rw [append_delivered_chunk] at hshort
          have hroom : items.length ≤ want - got.length := by
            simp only [List.length_append] at hshort
            omega
          rw [fill_piece hmore (hclean _ List.mem_cons_self) hroom]
          exact ih hrest hshort
      | interrupted =>
          rw [fill_interrupted hmore]
          exact ih hrest hshort
      | fault error => exact (hclean _ List.mem_cons_self).elim

end TautShape.Lib
