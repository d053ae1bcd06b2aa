import Mathlib.Data.Nat.Bitwise
import Zllm.Candle.Q4KAvx2

/-!
# Halves

The bits that `f16_to_f32` puts together are those of the number a half stands for. A subnormal's
fraction is shifted up to its leading bit, and the exponent goes down with it.
-/

namespace Zllm.Candle

open Avx2Kernel

/-! ### The fields of a float -/

theorem toNat_shiftLeft_of_lt {x : BitVec 32} {n : ℕ} (hx : x.toNat * 2 ^ n < 2 ^ 32) :
    (x <<< n).toNat = x.toNat <<< n := by
  rw [BitVec.toNat_shiftLeft, Nat.mod_eq_of_lt]
  rwa [Nat.shiftLeft_eq]

theorem toNat_fields {s e f : BitVec 32} (hs : s.toNat < 2) (he : e.toNat < 2 ^ 8)
    (hf : f.toNat < 2 ^ 10) :
    ((s <<< 31) ||| (e <<< 23) ||| (f <<< 13)).toNat =
      s.toNat * 2 ^ 31 + (e.toNat * 2 ^ 23 + f.toNat * 2 ^ 13) := by
  have hlow : f.toNat <<< 13 < 2 ^ 23 := by
    rw [Nat.shiftLeft_eq]
    omega
  have hmid : e.toNat <<< 23 + f.toNat <<< 13 < 2 ^ 31 := by
    rw [Nat.shiftLeft_eq, Nat.shiftLeft_eq]
    omega
  calc ((s <<< 31) ||| (e <<< 23) ||| (f <<< 13)).toNat
      = s.toNat <<< 31 ||| (e.toNat <<< 23 ||| f.toNat <<< 13) := by
        rw [BitVec.toNat_or, BitVec.toNat_or, toNat_shiftLeft_of_lt (by omega),
          toNat_shiftLeft_of_lt (by omega), toNat_shiftLeft_of_lt (by omega), Nat.or_assoc]
    _ = s.toNat <<< 31 + (e.toNat <<< 23 + f.toNat <<< 13) := by
        rw [← Nat.shiftLeft_add_eq_or_of_lt hlow, ← Nat.shiftLeft_add_eq_or_of_lt hmid]
    _ = _ := by rw [Nat.shiftLeft_eq, Nat.shiftLeft_eq, Nat.shiftLeft_eq]

theorem f32Value_fields {s e f : BitVec 32} (hs : s.toNat < 2) (he : 0 < e.toNat)
    (he255 : e.toNat < 255) (hf : f.toNat < 2 ^ 10) :
    f32Value ((s <<< 31) ||| (e <<< 23) ||| (f <<< 13)) =
      (-1 : ℚ) ^ s.toNat * (((2 ^ 10 + f.toNat : ℕ) : ℚ) * (2 : ℚ) ^ ((e.toNat : ℤ) - 137)) := by
  have hbits := toNat_fields hs (e := e) (by omega) hf
  have hsign : (s.toNat * 2 ^ 31 + (e.toNat * 2 ^ 23 + f.toNat * 2 ^ 13)) / 2 ^ 31 = s.toNat := by
    omega
  have hexp : (s.toNat * 2 ^ 31 + (e.toNat * 2 ^ 23 + f.toNat * 2 ^ 13)) / 2 ^ 23 % 2 ^ 8 =
      e.toNat := by
    omega
  have hfrac : (s.toNat * 2 ^ 31 + (e.toNat * 2 ^ 23 + f.toNat * 2 ^ 13)) % 2 ^ 23 =
      f.toNat * 2 ^ 13 := by
    omega
  have hpow : (2 : ℚ) ^ ((e.toNat : ℤ) - 137) = 2 ^ 13 * (2 : ℚ) ^ ((e.toNat : ℤ) - 150) := by
    rw [← zpow_natCast, ← zpow_add₀ (by norm_num)]
    congr 1
    push_cast
    ring
  rw [f32Value]
  simp only [hbits, hsign, hexp, hfrac]
  rw [if_neg (by omega), if_neg (by omega), hpow]
  push_cast
  ring

/-- No fraction and no exponent: zero. -/
theorem f32Value_zero {s : BitVec 32} (hs : s.toNat < 2) : f32Value (s <<< 31) = 0 := by
  have hbits : (s <<< 31).toNat = s.toNat * 2 ^ 31 := by
    rw [toNat_shiftLeft_of_lt (by omega), Nat.shiftLeft_eq]
  have hexp : s.toNat * 2 ^ 31 / 2 ^ 23 % 2 ^ 8 = 0 := by omega
  have hfrac : s.toNat * 2 ^ 31 % 2 ^ 23 = 0 := by omega
  rw [f32Value]
  simp only [hbits, hexp, hfrac, if_true, Nat.cast_zero, zero_mul, mul_zero]

/-- All ones in the exponent: no number. -/
theorem f32Value_max {s f : BitVec 32} (hs : s.toNat < 2) (hf : f.toNat < 2 ^ 10) :
    f32Value ((s <<< 31) ||| ((0xFF : BitVec 32) <<< 23) ||| (f <<< 13)) = 0 := by
  have hmax : (0xFF : BitVec 32).toNat = 255 := rfl
  have hbits := toNat_fields hs (e := 0xFF) (by decide) hf
  rw [hmax] at hbits
  have hexp : (s.toNat * 2 ^ 31 + (255 * 2 ^ 23 + f.toNat * 2 ^ 13)) / 2 ^ 23 % 2 ^ 8 = 255 := by
    omega
  rw [f32Value]
  simp only [hbits, hexp]
  rw [if_neg (by decide), if_pos trivial, mul_zero]

/-! ### Subnormals -/

theorem and_leading_eq_zero {m : BitVec 32} (hm : m.toNat < 2 ^ 11) :
    m &&& 0x400 = 0 ↔ m.toNat < 2 ^ 10 := by
  rw [← BitVec.toNat_inj, BitVec.toNat_and]
  show m.toNat &&& 2 ^ 10 = 0 ↔ _
  rw [Nat.and_two_pow, Nat.testBit_eq_decide_div_mod_eq]
  rcases Nat.lt_or_ge m.toNat (2 ^ 10) with hlt | hge
  · rw [decide_eq_false (by omega)]
    simpa using hlt
  · rw [decide_eq_true (by omega)]
    simpa using hge

/-- The shifts end at a leading bit, and keep the number. -/
theorem renormalize_spec (fuel : ℕ) {m : BitVec 32} (e : ℤ) (hlow : 2 ^ 10 ≤ m.toNat * 2 ^ fuel)
    (hhigh : m.toNat < 2 ^ 11) :
    2 ^ 10 ≤ (renormalize fuel m e).1.toNat ∧ (renormalize fuel m e).1.toNat < 2 ^ 11 ∧
      e - fuel ≤ (renormalize fuel m e).2 ∧ (renormalize fuel m e).2 ≤ e ∧
      ((renormalize fuel m e).1.toNat : ℚ) * (2 : ℚ) ^ (renormalize fuel m e).2 =
        m.toNat * (2 : ℚ) ^ e := by
  induction fuel generalizing m e with
  | zero => exact ⟨by simpa [renormalize] using hlow, hhigh, by simp [renormalize], le_rfl, rfl⟩
  | succ fuel ih =>
    rw [renormalize]
    split_ifs with hbit
    · have hsmall := (and_leading_eq_zero hhigh).mp hbit
      have hshift : (m <<< 1).toNat = m.toNat * 2 := by
        rw [toNat_shiftLeft_of_lt (by omega), Nat.shiftLeft_eq]
      obtain ⟨h1, h2, h3, h4, hvalue⟩ := ih (m := m <<< 1) (e - 1)
        (by rw [hshift, mul_assoc, ← pow_succ']; exact hlow) (by omega)
      refine ⟨h1, h2, by push_cast; omega, by omega, hvalue.trans ?_⟩
      rw [hshift, zpow_sub_one₀ (by norm_num)]
      push_cast
      ring
    · have hlarge := mt (and_leading_eq_zero hhigh).mpr hbit
      exact ⟨not_lt.mp hlarge, hhigh, by dsimp only; omega, le_rfl, rfl⟩

/-! ### The fields of a half -/

variable (bits : BitVec 16)

theorem toNat_sign : (((bits >>> 15) &&& 1).setWidth 32).toNat = bits.toNat / 2 ^ 15 := by
  have hlt : bits.toNat < 2 ^ 16 := bits.isLt
  rw [BitVec.toNat_setWidth_of_le (by decide), BitVec.toNat_and, BitVec.toNat_ushiftRight,
    Nat.shiftRight_eq_div_pow]
  show _ &&& 2 ^ 1 - 1 = _
  rw [Nat.and_two_pow_sub_one_eq_mod]
  omega

theorem toNat_exp : ((bits >>> 10) &&& 0x1F).toNat = bits.toNat / 2 ^ 10 % 2 ^ 5 := by
  rw [BitVec.toNat_and, BitVec.toNat_ushiftRight, Nat.shiftRight_eq_div_pow]
  exact Nat.and_two_pow_sub_one_eq_mod _ 5

theorem toNat_frac : ((bits &&& 0x3FF).setWidth 32).toNat = bits.toNat % 2 ^ 10 := by
  rw [BitVec.toNat_setWidth_of_le (by decide), BitVec.toNat_and]
  exact Nat.and_two_pow_sub_one_eq_mod _ 10

/-- The exponent of a float that is no zero, infinity or NaN. -/
theorem toNat_ofInt_exp {e : ℤ} (hlow : -127 < e) (hhigh : e < 128) :
    ((BitVec.ofInt 32 (e + 127)).toNat : ℤ) = e + 127 := by
  rw [BitVec.toNat_ofInt, Int.toNat_of_nonneg (Int.emod_nonneg _ (by norm_num)),
    Int.emod_eq_of_lt (by omega) (by norm_num; omega)]

theorem halfToFloat_subnormal {s f : BitVec 32} (hs : s.toNat < 2) (hf : f.toNat < 2 ^ 10)
    (hpos : 0 < f.toNat) :
    f32Value ((s <<< 31) ||| (BitVec.ofInt 32 ((renormalize 10 f (-14)).2 + 127) <<< 23) |||
      (((renormalize 10 f (-14)).1 &&& 0x3FF) <<< 13)) =
      (-1 : ℚ) ^ s.toNat * ((f.toNat : ℚ) * (2 : ℚ) ^ (-24 : ℤ)) := by
  obtain ⟨h1, h2, h3, h4, hvalue⟩ := renormalize_spec 10 (-14) (by omega)
    (show f.toNat < 2 ^ 11 by omega)
  generalize renormalize 10 f (-14) = r at *
  have hfrac : (r.1 &&& 0x3FF).toNat = r.1.toNat % 2 ^ 10 := by
    rw [BitVec.toNat_and]
    exact Nat.and_two_pow_sub_one_eq_mod _ 10
  have hlead : 2 ^ 10 + r.1.toNat % 2 ^ 10 = r.1.toNat := by omega
  have hexp := toNat_ofInt_exp (e := r.2) (by omega) (by omega)
  have hpow : (2 : ℚ) ^ (r.2 + 127 - 137) = (2 : ℚ) ^ r.2 * (2 : ℚ) ^ (-10 : ℤ) := by
    rw [← zpow_add₀ (by norm_num)]
    congr 1
    ring
  have hproduct : (r.1.toNat : ℚ) * ((2 : ℚ) ^ r.2 * (2 : ℚ) ^ (-10 : ℤ)) =
      f.toNat * (2 : ℚ) ^ (-24 : ℤ) := by
    rw [← mul_assoc, hvalue, mul_assoc, ← zpow_add₀ (by norm_num)]
    norm_num
  rw [f32Value_fields hs (by omega) (by omega) (by omega), hfrac, hlead, hexp, hpow, hproduct]

/-- `f16_to_f32` keeps the number. -/
theorem halfToFloat_eq : halfToFloat bits = halfValue bits := by
  have hlt : bits.toNat < 2 ^ 16 := bits.isLt
  have hexpZero : (bits >>> 10) &&& 0x1F = 0 ↔ bits.toNat / 2 ^ 10 % 2 ^ 5 = 0 := by
    rw [← toNat_exp, ← BitVec.toNat_inj]
    rfl
  have hexpMax : (bits >>> 10) &&& 0x1F = 0x1F ↔ bits.toNat / 2 ^ 10 % 2 ^ 5 = 31 := by
    rw [← toNat_exp, ← BitVec.toNat_inj]
    rfl
  have hfracZero : (bits &&& 0x3FF).setWidth 32 = 0 ↔ bits.toNat % 2 ^ 10 = 0 := by
    rw [← toNat_frac, ← BitVec.toNat_inj]
    rfl
  have hs : (((bits >>> 15) &&& 1).setWidth 32).toNat < 2 := by
    rw [toNat_sign]
    omega
  have hf : ((bits &&& 0x3FF).setWidth 32).toNat < 2 ^ 10 := by
    rw [toNat_frac]
    omega
  rw [halfToFloat, f16ToF32, halfValue]
  dsimp only
  rw [← toNat_sign, ← toNat_frac]
  by_cases hzero : bits.toNat / 2 ^ 10 % 2 ^ 5 = 0
  · rw [if_pos (hexpZero.mpr hzero), if_pos hzero]
    by_cases hfrac : bits.toNat % 2 ^ 10 = 0
    · rw [if_pos (hfracZero.mpr hfrac), f32Value_zero hs, toNat_frac, hfrac, Nat.cast_zero,
        zero_mul, mul_zero]
    · rw [if_neg (mt hfracZero.mp hfrac)]
      refine halfToFloat_subnormal hs hf ?_
      rw [toNat_frac]
      exact Nat.pos_of_ne_zero hfrac
  · rw [if_neg (mt hexpZero.mp hzero), if_neg hzero]
    by_cases hmax : bits.toNat / 2 ^ 10 % 2 ^ 5 = 31
    · rw [if_pos (hexpMax.mpr hmax), if_pos hmax, f32Value_max hs hf, mul_zero]
    · have hexp := toNat_ofInt_exp (e := (((bits >>> 10) &&& 0x1F).toNat : ℤ) - 15)
        (by rw [toNat_exp]; omega) (by rw [toNat_exp]; omega)
      have hrange : 0 < (BitVec.ofInt 32 ((((bits >>> 10) &&& 0x1F).toNat : ℤ) - 15 + 127)).toNat ∧
          (BitVec.ofInt 32 ((((bits >>> 10) &&& 0x1F).toNat : ℤ) - 15 + 127)).toNat < 255 := by
        rw [toNat_exp] at hexp ⊢
        constructor <;> omega
      rw [if_neg (mt hexpMax.mp hmax), if_neg hmax, f32Value_fields hs hrange.1 hrange.2 hf, hexp,
        toNat_exp]
      congr 3
      ring

end Zllm.Candle
