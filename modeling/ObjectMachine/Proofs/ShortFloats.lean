import ObjectMachine.Proofs.Doubles
import ObjectMachine.Proofs.Words

/-!
# Floats beside a tag

A float gives up the two lowest bits of its fraction to the tag. What is read back
has the same sign and exponent, and a fraction that is smaller by at most three.
That is the same number to within three units in the last place, or an infinity
again; a pattern that is not a number stays one unless the two bits are all that
its fraction has.
-/

namespace ObjectMachine

namespace Binary64

/-- What is read back once the double has been made a value. -/
def stored (x : Binary64) : Binary64 := (ShortFloat.truncate x).toBinary64

variable (x : Binary64)

theorem toNat_bits_stored : x.stored.bits.toNat = x.bits.toNat / 4 * 4 :=
  ShortFloat.toNat_bits_truncate x

theorem negative_stored : x.stored.negative = x.negative := by
  simp only [negative, toNat_bits_stored, decide_eq_decide]
  omega

theorem exponentField_stored : x.stored.exponentField = x.exponentField := by
  simp only [exponentField, toNat_bits_stored]
  omega

theorem fraction_stored : x.stored.fraction = x.fraction / 4 * 4 := by
  simp only [fraction, toNat_bits_stored]
  omega

theorem unsigned_stored : x.stored.unsigned = x.unsigned / 4 * 4 := by
  simp only [unsigned, toNat_bits_stored]
  omega

theorem stored_stored : x.stored.stored = x.stored := by
  rw [stored, stored, ShortFloat.truncate_toBinary64]

theorem ulp_stored : x.stored.ulp = x.ulp := by
  simp only [ulp, scale, exponentField_stored]

theorem significand_le_add_three : x.significand ≤ x.stored.significand + 3 := by
  simp only [significand, exponentField_stored, fraction_stored]
  split_ifs <;> omega

theorem magnitude_stored_le : x.stored.magnitude ≤ x.magnitude := by
  rw [magnitude_le_iff, unsigned_stored]
  omega

theorem magnitude_sub_stored_le : x.magnitude - x.stored.magnitude ≤ 3 * x.ulp := by
  have hsig : (x.significand : ℚ) ≤ x.stored.significand + 3 := by
    exact_mod_cast x.significand_le_add_three
  have hulp : 0 ≤ x.ulp := by
    unfold ulp
    positivity
  calc x.magnitude - x.stored.magnitude
      = (x.significand - x.stored.significand) * x.ulp := by
        rw [magnitude, magnitude, ulp_stored, sub_mul]
    _ ≤ 3 * x.ulp := by
        gcongr
        linarith

variable {x} in
theorem unsigned_stored_mono {y : Binary64} (h : x.unsigned ≤ y.unsigned) :
    x.stored.unsigned ≤ y.stored.unsigned := by
  rw [unsigned_stored, unsigned_stored]
  omega

theorem isNaN_iff : x.isNaN = true ↔ x.exponentField = 2047 ∧ x.fraction ≠ 0 := by
  simp [isNaN]

theorem isInfinite_iff : x.isInfinite = true ↔ x.exponentField = 2047 ∧ x.fraction = 0 := by
  simp [isInfinite]

theorem isNaN_stored_iff :
    x.stored.isNaN = true ↔ x.isNaN = true ∧ x.fraction ∉ [1, 2, 3] := by
  rw [isNaN_iff, isNaN_iff, exponentField_stored, fraction_stored]
  simp only [List.mem_cons, List.not_mem_nil, or_false]
  omega

theorem isInfinite_stored_iff :
    x.stored.isInfinite = true ↔
      x.isInfinite = true ∨ x.isNaN = true ∧ x.fraction ∈ [1, 2, 3] := by
  rw [isInfinite_iff, isInfinite_iff, isNaN_iff, exponentField_stored, fraction_stored]
  simp only [List.mem_cons, List.not_mem_nil, or_false]
  omega

theorem stored_of_isInfinite (h : x.isInfinite = true) : x.stored = x := by
  have hbits : x.stored.bits = x.bits := by
    rw [← UInt64.toNat_inj, toNat_bits_stored]
    have hfraction := (x.isInfinite_iff.mp h).2
    unfold fraction at hfraction
    omega
  exact congrArg mk hbits

/-- What is kept of the double `x` where `y` is read back for it. -/
structure KeptAs (x y : Binary64) : Prop where
  negative : y.negative = x.negative
  exponentField : y.exponentField = x.exponentField
  fraction_le : y.fraction ≤ x.fraction
  fraction_sub_le : x.fraction - y.fraction ≤ 3
  magnitude_le : y.magnitude ≤ x.magnitude
  error_le : x.magnitude - y.magnitude ≤ 3 * x.ulp
  again : y.stored = y
  infinite : x.isInfinite = true → y = x
  isNaN_iff : y.isNaN = true ↔ x.isNaN = true ∧ x.fraction ∉ [1, 2, 3]
  isInfinite_iff : y.isInfinite = true ↔
    x.isInfinite = true ∨ x.isNaN = true ∧ x.fraction ∈ [1, 2, 3]

theorem keptAs_stored : x.KeptAs x.stored where
  negative := x.negative_stored
  exponentField := x.exponentField_stored
  fraction_le := by
    rw [fraction_stored]
    omega
  fraction_sub_le := by
    rw [fraction_stored]
    omega
  magnitude_le := x.magnitude_stored_le
  error_le := x.magnitude_sub_stored_le
  again := x.stored_stored
  infinite := x.stored_of_isInfinite
  isNaN_iff := x.isNaN_stored_iff
  isInfinite_iff := x.isInfinite_stored_iff

end Binary64

open Binary64 in
/-- A double that is made a value and read back from its word keeps all but the two
lowest bits of its fraction, and every word of a float is the one that is made for
what it reads as. Patterns keep their order, and so do the magnitudes they encode. -/
theorem floats_keep_all_but_two_bits :
    (∀ x : Binary64, (Value.ofWord (Value.ofBinary64 x).toWord).float? = some x.stored ∧
      x.KeptAs x.stored) ∧
      (∀ w : UInt64, w &&& 3 = 2 →
        ∃ x, (Value.ofWord w).float? = some x ∧ (Value.ofBinary64 x).toWord = w) ∧
      ∀ x y : Binary64, (x.unsigned ≤ y.unsigned → x.stored.unsigned ≤ y.stored.unsigned) ∧
        (x.magnitude ≤ y.magnitude → x.stored.magnitude ≤ y.stored.magnitude) := by
  refine ⟨fun x => ⟨?_, x.keptAs_stored⟩, fun w hw => ?_, fun x y => ⟨unsigned_stored_mono, ?_⟩⟩
  · have hfits : (Value.ofBinary64 x).Fits := trivial
    rw [Value.ofWord_toWord hfits]
    rfl
  · have hvalue := Value.ofWord_of_float hw
    refine ⟨_, congrArg Value.float? hvalue, ?_⟩
    rw [Value.ofBinary64, ShortFloat.truncate_toBinary64, ← hvalue, Value.toWord_ofWord]
  · rw [magnitude_le_iff, magnitude_le_iff]
    exact unsigned_stored_mono

end ObjectMachine
