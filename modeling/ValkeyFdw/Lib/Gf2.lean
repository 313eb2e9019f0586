import Mathlib.Algebra.Field.ZMod
import Mathlib.Algebra.Polynomial.RingDivision
import Mathlib.Combinatorics.Colex

/-!
# Remainders over GF(2)

A word is a polynomial over GF(2): its bit of weight `2 ^ i` is the coefficient of
`X ^ i`, and exclusive or is addition. A shift register with feedback multiplies by
`X` and keeps the remainder (`toPoly_feed`), so a register that starts at zero and is
fed word after word holds the remainder of all that it was fed
(`toPoly_foldl_feedWord`).
-/

namespace Gf2

open Polynomial

variable {w n : ℕ}

/-! ## Words as polynomials -/

/-- The polynomial whose coefficients are the bits of a word. -/
noncomputable def toPoly (v : BitVec w) : (ZMod 2)[X] :=
  ∑ i ∈ Finset.range w, if v.getLsbD i then X ^ i else 0

theorem coeff_toPoly (v : BitVec w) (i : ℕ) :
    (toPoly v).coeff i = if v.getLsbD i then 1 else 0 := by
  have hTerm : ∀ j, (if v.getLsbD j then (X : (ZMod 2)[X]) ^ j else 0).coeff i =
      if i = j then (if v.getLsbD j then 1 else 0) else 0 := by
    intro j
    split <;> simp [coeff_X_pow]
  rw [toPoly, finsetSum_coeff]
  simp only [hTerm, Finset.sum_ite_eq, Finset.mem_range]
  split
  · rfl
  · rename_i hi
    rw [BitVec.getLsbD_of_ge v i (by omega), if_neg Bool.false_ne_true]

theorem toPoly_xor (u v : BitVec w) : toPoly (u ^^^ v) = toPoly u + toPoly v := by
  ext i
  rw [coeff_add, coeff_toPoly, coeff_toPoly, coeff_toPoly, BitVec.getLsbD_xor]
  cases u.getLsbD i <;> cases v.getLsbD i <;> rfl

theorem toPoly_zero : toPoly (0 : BitVec w) = 0 := by
  ext i
  simp [coeff_toPoly]

theorem degree_toPoly_lt (v : BitVec w) : (toPoly v).degree < (w : WithBot ℕ) := by
  rw [degree_lt_iff_coeff_zero]
  intro i hi
  rw [coeff_toPoly, BitVec.getLsbD_of_ge v i hi, if_neg Bool.false_ne_true]

/-- A word moved up within a wider one, none of its bits lost. -/
theorem toPoly_shiftLeft_setWidth {k : ℕ} (v : BitVec n) (h : n + k ≤ w) :
    toPoly (v.setWidth w <<< k) = toPoly v * X ^ k := by
  ext i
  rw [coeff_toPoly, coeff_mul_X_pow', coeff_toPoly, BitVec.getLsbD_shiftLeft,
    BitVec.getLsbD_setWidth]
  by_cases hki : k ≤ i
  · by_cases hiw : i < w
    · have hi : i - k < w := by omega
      simp [hki, hiw, hi]
    · rw [BitVec.getLsbD_of_ge v (i - k) (by omega)]
      simp [hiw]
  · have hik : i < k := by omega
    simp [hki, hik]

/-- The number whose binary digits are the coefficients. -/
noncomputable def value (p : (ZMod 2)[X]) : ℕ := ∑ i ∈ p.support, 2 ^ i

theorem value_toPoly (v : BitVec w) : value (toPoly v) = v.toNat := by
  have hSupport : (toPoly v).support = v.toNat.bitIndices.toFinset := by
    ext i
    rw [mem_support_iff, coeff_toPoly, List.mem_toFinset, Nat.mem_bitIndices,
      BitVec.testBit_toNat]
    cases v.getLsbD i <;> simp
  rw [value, hSupport, Finset.sum_toFinset_bitIndices_two_pow]

/-! ## The register -/

/-- One step of a register with feedback, most significant bit first. -/
def feed (low c : BitVec w) : BitVec w := if c.msb then (c <<< 1) ^^^ low else c <<< 1

/-- The modulus of a register: the bit that is shifted out, above the feedback. -/
noncomputable def generator (low : BitVec w) : (ZMod 2)[X] := X ^ w + toPoly low

theorem monic_generator (low : BitVec w) : (generator low).Monic :=
  monic_X_pow_add (degree_toPoly_lt low)

theorem degree_generator (low : BitVec w) : (generator low).degree = w := by
  rw [generator, degree_add_eq_left_of_degree_lt, degree_X_pow]
  rw [degree_X_pow]
  exact degree_toPoly_lt low

theorem coeff_carry (c : BitVec w) (i : ℕ) :
    (if c.msb then (X : (ZMod 2)[X]) ^ w else 0).coeff i = if c.msb ∧ i = w then 1 else 0 := by
  split <;> simp_all [coeff_X_pow]

/-- Moving a word up by one loses its most significant bit. -/
theorem toPoly_mul_X (c : BitVec w) (hw : 0 < w) :
    toPoly c * X = toPoly (c <<< 1) + if c.msb then X ^ w else 0 := by
  ext i
  rw [coeff_add, coeff_carry, coeff_toPoly, BitVec.getLsbD_shiftLeft]
  cases i with
  | zero =>
    have hne : ¬0 = w := by omega
    rw [coeff_mul_X_zero]
    simp [hne]
  | succ i =>
    rw [coeff_mul_X, coeff_toPoly, BitVec.msb_eq_getLsbD_last]
    rcases lt_trichotomy (i + 1) w with h | h | h
    · have hne : i + 1 ≠ w := by omega
      simp [h, hne]
    · subst h
      simp
    · have hne : i + 1 ≠ w := by omega
      have hge : ¬i + 1 < w := by omega
      rw [BitVec.getLsbD_of_ge c i (by omega)]
      simp [hge, hne]

/-- A step multiplies by `X` and keeps the remainder. -/
theorem toPoly_feed (low c : BitVec w) (hw : 0 < w) :
    toPoly (feed low c) = (toPoly c * X) %ₘ generator low := by
  have hLt : (toPoly (feed low c)).degree < (generator low).degree := by
    rw [degree_generator]
    exact degree_toPoly_lt _
  have hTwo : toPoly low + toPoly low = 0 := CharTwo.add_self_eq_zero _
  have hSum : toPoly (feed low c) + generator low * (if c.msb then 1 else 0) = toPoly c * X := by
    rw [toPoly_mul_X c hw, feed, generator]
    split
    · rw [toPoly_xor, mul_one, add_add_add_comm, hTwo, add_zero]
    · rw [mul_zero]
  exact ((div_modByMonic_unique _ _ (monic_generator low) ⟨hSum, hLt⟩).2).symm

theorem modByMonic_mul_modByMonic {p q : (ZMod 2)[X]} (hq : q.Monic) (r : (ZMod 2)[X]) :
    ((p %ₘ q) * r) %ₘ q = (p * r) %ₘ q := by
  apply modByMonic_eq_of_dvd_sub hq
  rw [← sub_mul]
  exact (dvd_modByMonic_sub p q).mul_right r

theorem toPoly_feed_iterate (low c : BitVec w) (hw : 0 < w) (k : ℕ) :
    toPoly ((feed low)^[k] c) = (toPoly c * X ^ k) %ₘ generator low := by
  induction k with
  | zero =>
    rw [pow_zero, mul_one]
    refine ((modByMonic_eq_self_iff (monic_generator low)).mpr ?_).symm
    rw [degree_generator]
    exact degree_toPoly_lt c
  | succ k ih =>
    rw [Function.iterate_succ_apply', toPoly_feed low _ hw, ih,
      modByMonic_mul_modByMonic (monic_generator low), mul_assoc, ← pow_succ]

/-- A word entering the register at its high end. -/
def feedWord (low : BitVec w) (c : BitVec w) (v : BitVec n) : BitVec w :=
  (feed low)^[n] (c ^^^ (v.setWidth w <<< (w - n)))

/-- A list of words as one polynomial, the first of them highest. -/
noncomputable def message (vs : List (BitVec n)) : (ZMod 2)[X] :=
  vs.foldl (fun p v => p * X ^ n + toPoly v) 0

theorem message_concat (vs : List (BitVec n)) (v : BitVec n) :
    message (vs ++ [v]) = message vs * X ^ n + toPoly v := List.foldl_concat ..

theorem toPoly_feedWord (low c : BitVec w) (v : BitVec n) (hw : 0 < w) (hn : n ≤ w) :
    toPoly (feedWord low c v) = (toPoly c * X ^ n + toPoly v * X ^ w) %ₘ generator low := by
  have hUp : n + (w - n) = w := by omega
  rw [feedWord, toPoly_feed_iterate low _ hw, toPoly_xor,
    toPoly_shiftLeft_setWidth v (Nat.le_of_eq hUp), add_mul, mul_assoc, ← pow_add, add_comm (w - n),
    hUp]

/-- What a register holds that was fed the words of a message. -/
theorem toPoly_foldl_feedWord (low : BitVec w) (vs : List (BitVec n)) (hw : 0 < w) (hn : n ≤ w) :
    toPoly (vs.foldl (feedWord low) 0) = (message vs * X ^ w) %ₘ generator low := by
  -- on the message read so far, so that a new word is the lowest one
  induction vs using List.reverseRecOn with
  | nil => rw [List.foldl_nil, message, List.foldl_nil, toPoly_zero, zero_mul, zero_modByMonic]
  | append_singleton vs v ih =>
    rw [List.foldl_concat, toPoly_feedWord low _ v hw hn, ih, add_modByMonic,
      modByMonic_mul_modByMonic (monic_generator low), ← add_modByMonic, message_concat,
      add_mul, mul_right_comm]

end Gf2
