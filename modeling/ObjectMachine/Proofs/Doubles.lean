import ObjectMachine.Binary64
import Mathlib.Algebra.Order.Field.Power
import Mathlib.Data.Rat.Cast.Defs
import Mathlib.Algebra.Order.Field.Rat
import Mathlib.Tactic.Positivity
import Mathlib.Tactic.Ring
import Mathlib.Tactic.Linarith
import Mathlib.Tactic.NormNum

/-!
# Doubles as numbers

The pattern of a double without its sign stands in the order of the magnitudes. A
whole number is rounded to one of its neighbours among the doubles, so it never
passes a number that a double can hold; that is all that comparing a count with a
fraction of another needs.
-/

namespace ObjectMachine.Binary64

/-- The worth of one unit in the last place. -/
def ulp (x : Binary64) : ℚ := 2 ^ x.scale

/-- The number that a finite double is, but for its sign. -/
def magnitude (x : Binary64) : ℚ := x.significand * x.ulp

def unsigned (x : Binary64) : Nat := x.bits.toNat % 0x8000000000000000

/-- The magnitude, counted in the smallest magnitudes above zero. -/
def units (x : Binary64) : Nat := x.significand * 2 ^ (max x.exponentField 1 - 1)

variable {x y : Binary64}

theorem unsigned_eq (x : Binary64) :
    x.unsigned = x.exponentField * 0x10000000000000 + x.fraction := by
  unfold unsigned exponentField fraction
  omega

theorem fraction_lt (x : Binary64) : x.fraction < 0x10000000000000 :=
  Nat.mod_lt _ (by decide)

theorem magnitude_eq (x : Binary64) : x.magnitude = x.units * 2 ^ (-1074 : ℤ) := by
  have hscale : x.scale = (max x.exponentField 1 - 1 : ℕ) + (-1074 : ℤ) := by
    unfold scale
    omega
  rw [magnitude, ulp, hscale, zpow_add₀ (by norm_num), zpow_natCast, units, Nat.cast_mul,
    Nat.cast_pow, Nat.cast_ofNat, mul_assoc]

/-- A larger exponent makes up for every fraction. -/
theorem units_lt_of_exponentField_lt (h : x.exponentField < y.exponentField) :
    x.units < y.units := by
  have hfraction := x.fraction_lt
  have hy : 0x10000000000000 * 2 ^ (y.exponentField - 1) ≤ y.units := by
    rw [units, max_eq_left (by omega), significand, if_neg (by omega)]
    exact Nat.mul_le_mul_right _ (Nat.le_add_right _ _)
  apply lt_of_lt_of_le _ hy
  by_cases hzero : x.exponentField = 0
  · have hpow : 1 ≤ 2 ^ (y.exponentField - 1) := Nat.one_le_two_pow
    have hunits : x.units = x.fraction := by simp [units, significand, hzero]
    omega
  · have hpow : 2 ^ x.exponentField ≤ 2 ^ (y.exponentField - 1) :=
      Nat.pow_le_pow_right (by decide) (by omega)
    have hdouble : 2 ^ x.exponentField = 2 ^ (x.exponentField - 1) * 2 := by
      rw [← Nat.pow_succ]
      congr 1
      omega
    have hone : 1 ≤ 2 ^ (x.exponentField - 1) := Nat.one_le_two_pow
    rw [units, max_eq_left (by omega), significand, if_neg hzero]
    calc (0x10000000000000 + x.fraction) * 2 ^ (x.exponentField - 1)
        < 0x20000000000000 * 2 ^ (x.exponentField - 1) := by
          exact Nat.mul_lt_mul_of_pos_right (by omega) hone
      _ ≤ 0x10000000000000 * 2 ^ (y.exponentField - 1) := by omega

/-- Patterns stand in the order of the magnitudes they encode. -/
theorem magnitude_lt_of_unsigned_lt (h : x.unsigned < y.unsigned) :
    x.magnitude < y.magnitude := by
  have hx := x.fraction_lt
  have hy := y.fraction_lt
  rw [unsigned_eq, unsigned_eq] at h
  have hunits : x.units < y.units := by
    rcases Nat.lt_or_ge x.exponentField y.exponentField with hlt | hge
    · exact units_lt_of_exponentField_lt hlt
    · have hexp : x.exponentField = y.exponentField := by omega
      have hsig : x.significand < y.significand := by
        simp only [significand, hexp]
        split_ifs <;> omega
      rw [units, units, hexp]
      exact Nat.mul_lt_mul_of_pos_right hsig (by positivity)
  rw [magnitude_eq, magnitude_eq]
  gcongr

theorem magnitude_le_iff : x.magnitude ≤ y.magnitude ↔ x.unsigned ≤ y.unsigned := by
  constructor
  · intro h
    by_contra hlt
    exact absurd (magnitude_lt_of_unsigned_lt (not_le.mp hlt)) (not_lt.mpr h)
  · intro h
    rcases Nat.lt_or_eq_of_le h with hlt | heq
    · exact (magnitude_lt_of_unsigned_lt hlt).le
    · rw [unsigned_eq, unsigned_eq] at heq
      have hx := x.fraction_lt
      have hy := y.fraction_lt
      have hexp : x.exponentField = y.exponentField := by omega
      have hfrac : x.fraction = y.fraction := by omega
      simp only [magnitude, ulp, scale, significand, hexp, hfrac, le_refl]

theorem unsigned_le_of_isFraction (h : x.isFraction = true) :
    x.unsigned ≤ 1023 * 0x10000000000000 := by
  simp only [isFraction, Bool.or_eq_true, beq_iff_eq, decide_eq_true_eq] at h
  rcases h with hzero | hle
  · simp [unsigned, hzero]
  · exact (Nat.mod_le _ _).trans hle

theorem magnitude_le_one (h : x.isFraction = true) : x.magnitude ≤ 1 := by
  have hone : magnitude ⟨0x3FF0000000000000⟩ = 1 := by
    have hsig : significand ⟨0x3FF0000000000000⟩ = 0x10000000000000 := by decide
    have hscale : scale ⟨0x3FF0000000000000⟩ = -52 := by decide
    rw [magnitude, ulp, hsig, hscale]
    norm_num
  rw [← hone, magnitude_le_iff]
  exact unsigned_le_of_isFraction h

theorem roundNat_of_lt {n : Nat} (h : n < 0x20000000000000) : roundNat n = n := if_pos h

/-- A larger number lies between two neighbours with one power of two for a unit, and
is rounded to one of them: to the upper one only if it is not the lower one itself. -/
theorem exists_unit {n : Nat} (h : 0x20000000000000 ≤ n) :
    ∃ u, 0x10000000000000 * 2 ^ u ≤ n ∧ n / 2 ^ u * 2 ^ u ≤ roundNat n ∧
      ∀ q, n ≤ q * 2 ^ u → roundNat n ≤ q * 2 ^ u := by
  have hlog : 53 ≤ n.log2 := (Nat.le_log2 (by omega)).mpr h
  obtain ⟨u, hu⟩ := Nat.exists_eq_add_of_le (show 52 ≤ n.log2 by omega)
  have hpos : 0 < 2 ^ u := Nat.two_pow_pos u
  have hdiv := Nat.div_add_mod n (2 ^ u)
  have hround : roundNat n = n / 2 ^ u * 2 ^ u ∨
      roundNat n = (n / 2 ^ u + 1) * 2 ^ u ∧ 0 < n % 2 ^ u := by
    have hunit : Nat.pow 2 (n.log2 - 52) = 2 ^ u := by
      rw [hu, Nat.add_sub_cancel_left]
      rfl
    rw [roundNat, if_neg (by omega)]
    simp only [hunit]
    split_ifs with hup
    · exact .inr ⟨rfl, by omega⟩
    · exact .inl rfl
  refine ⟨u, ?_, ?_, ?_⟩
  · calc 0x10000000000000 * 2 ^ u = 2 ^ n.log2 := by rw [hu, Nat.pow_add]
      _ ≤ n := Nat.log2_self_le (by omega)
  · rcases hround with heq | ⟨heq, -⟩
    · exact heq.ge
    · rw [heq]
      exact Nat.mul_le_mul_right _ (Nat.le_succ _)
  · intro q hq
    rcases hround with heq | ⟨heq, hrest⟩
    · rw [heq]
      exact (Nat.div_mul_le_self n _).trans hq
    · rw [heq]
      apply Nat.mul_le_mul_right
      by_contra hlt
      have hle : q * 2 ^ u ≤ n / 2 ^ u * 2 ^ u := Nat.mul_le_mul_right _ (by omega)
      rw [Nat.mul_comm (n / 2 ^ u)] at hle
      omega

theorem mul_two_pow_eq {u k : Nat} (h : u ≤ k) (c : Nat) :
    c * 2 ^ k = c * 2 ^ (k - u) * 2 ^ u := by
  rw [Nat.mul_assoc, ← Nat.pow_add, Nat.sub_add_cancel h]

/-- Rounding does not pass a number that a double can hold from below. -/
theorem roundNat_le {n c k : Nat} (hc : c < 0x20000000000000) (h : n ≤ c * 2 ^ k) :
    roundNat n ≤ c * 2 ^ k := by
  rcases Nat.lt_or_ge n 0x20000000000000 with hsmall | hlarge
  · rwa [roundNat_of_lt hsmall]
  · obtain ⟨u, hlow, -, hup⟩ := exists_unit hlarge
    have hle : u ≤ k := by
      by_contra hlt
      have hpow : 2 ^ (k + 1) ≤ 2 ^ u := Nat.pow_le_pow_right (by decide) (by omega)
      have hpos : 0 < 2 ^ k := Nat.two_pow_pos k
      have hmul : c * 2 ^ k < 0x20000000000000 * 2 ^ k := Nat.mul_lt_mul_of_pos_right hc hpos
      rw [Nat.pow_succ] at hpow
      omega
    rw [mul_two_pow_eq hle] at h ⊢
    exact hup _ h

/-- Rounding does not pass a number that a double can hold from above. -/
theorem le_roundNat {n c k : Nat} (hc : c ≤ 0x20000000000000) (h : c * 2 ^ k ≤ n) :
    c * 2 ^ k ≤ roundNat n := by
  rcases Nat.lt_or_ge n 0x20000000000000 with hsmall | hlarge
  · rwa [roundNat_of_lt hsmall]
  · obtain ⟨u, hlow, hdown, -⟩ := exists_unit hlarge
    apply le_trans _ hdown
    rcases Nat.lt_or_ge k u with hlt | hge
    · have hpow : 2 ^ (k + 1) ≤ 2 ^ u := Nat.pow_le_pow_right (by decide) hlt
      have hmul : c * 2 ^ k ≤ 0x20000000000000 * 2 ^ k := Nat.mul_le_mul_right _ hc
      have hquotient : 0x10000000000000 * 2 ^ u ≤ n / 2 ^ u * 2 ^ u :=
        Nat.mul_le_mul_right _ ((Nat.le_div_iff_mul_le (Nat.two_pow_pos u)).mpr hlow)
      rw [Nat.pow_succ] at hpow
      omega
    · rw [mul_two_pow_eq hge] at h ⊢
      exact Nat.mul_le_mul_right _ ((Nat.le_div_iff_mul_le (Nat.two_pow_pos u)).mpr h)

/-- A fraction of a number is at most the number, also after rounding. -/
theorem significand_le (h : x.isFraction = true) : x.significand ≤ 2 ^ (-x.scale).toNat := by
  have hfraction := x.fraction_lt
  have hle := unsigned_le_of_isFraction h
  rw [unsigned_eq] at hle
  rcases Nat.lt_or_ge x.exponentField 1023 with hlt | hge
  · have hpow : 2 ^ 53 ≤ 2 ^ (-x.scale).toNat := by
      apply Nat.pow_le_pow_right (by decide)
      unfold scale
      omega
    apply le_trans _ hpow
    unfold significand
    split_ifs <;> omega
  · have hexp : x.exponentField = 1023 := by omega
    have hzero : x.fraction = 0 := by omega
    simp [significand, scale, hexp, hzero]

theorem scaledPart_le {whole : Nat} (hw : whole < 0x20000000000000) (h : x.isFraction = true) :
    scaledPart whole x ≤ whole * 2 ^ (-x.scale).toNat := by
  rw [scaledPart, roundNat_of_lt hw]
  apply roundNat_le hw
  exact Nat.mul_le_mul_left _ (significand_le h)

theorem le_scaledCount {whole count : Nat} (hw : whole ≤ 0x20000000000000) (h : whole ≤ count) :
    whole * 2 ^ (-x.scale).toNat ≤ scaledCount count x := by
  apply Nat.mul_le_mul_right
  have hround := le_roundNat (k := 0) hw (by simpa using h)
  simpa using hround

end ObjectMachine.Binary64
