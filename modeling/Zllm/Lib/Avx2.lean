import Mathlib.Algebra.BigOperators.Fin
import Zllm.Lib.Bytes

/-!
# Vector lanes

The documented lanes of the AVX2 operations on registers of bytes. An operation that adds or
multiplies leaves what the hardware leaves, and says whether every lane's exact result was in range.
-/

namespace Zllm.Avx2

open Bytes

/-- The bytes of a register of 16 or 32. -/
abbrev Reg := ℕ → Byte

/-! ### Lanes -/

def word16 (v : Reg) (i : ℕ) : BitVec 16 := v (2 * i + 1) ++ v (2 * i)

def word32 (v : Reg) (i : ℕ) : BitVec 32 := word (v (4 * i)) (v (4 * i + 1)) (v (4 * i + 2)) (v (4 * i + 3))

def ofWords16 (f : ℕ → BitVec 16) : Reg := fun i => (f (i / 2) >>> (8 * (i % 2))).setWidth 8

def ofWords32 (f : ℕ → BitVec 32) : Reg := fun i => byteOf (f (i / 4)) (i % 4)

/-- What an operation leaves, and that no lane of it was out of range. -/
structure Checked (α : Type) where
  value : α
  exact : Prop

instance : Monad Checked where
  pure a := ⟨a, True⟩
  bind x f := ⟨(f x.value).value, x.exact ∧ (f x.value).exact⟩

theorem bind_value {α β : Type} (x : Checked α) (f : α → Checked β) :
    (x >>= f).value = (f x.value).value := rfl

/-- `z` is a signed number of `w` bits. -/
def Fits (w : ℕ) (z : ℤ) : Prop := -2 ^ (w - 1) ≤ z ∧ z < 2 ^ (w - 1)

/-! ### Moves -/

/-- `_mm_setr_epi8` -/
def setrEpi8 (l : List ℕ) : Reg := fun i => BitVec.ofNat 8 (l.getD i 0)

/-- `_mm_set_epi32`, the highest doubleword first. -/
def setEpi32 (e3 e2 e1 e0 : BitVec 32) : Reg := ofWords32 fun i => [e0, e1, e2, e3].getD i 0

/-- `_mm256_and_si256` -/
def andSi256 (a b : Reg) : Reg := fun i => a i &&& b i

/-- `_mm256_set1_epi8` -/
def set1Epi8 (x : Byte) : Reg := fun _ => x

/-- `_mm256_srli_epi16` -/
def srliEpi16 (n : ℕ) (a : Reg) : Reg := ofWords16 fun i => word16 a i >>> n

/-- `_mm_shuffle_epi8` -/
def shuffleEpi8 (a mask : Reg) : Reg := fun i =>
  if (mask i).getLsbD 7 then 0 else a ((mask i).toNat % 16)

/-- `_mm_shuffle_epi32`, `_mm256_shuffle_epi32`: doublewords within each 16 bytes. -/
def shuffleEpi32 (imm : ℕ) (a : Reg) : Reg := fun i =>
  let from_ := imm / 4 ^ (i / 4 % 4) % 4
  a (16 * (i / 16) + 4 * from_ + i % 4)

/-- `_mm256_blend_epi32` -/
def blendEpi32 (imm : ℕ) (a b : Reg) : Reg := fun i => if imm.testBit (i / 4) then b i else a i

/-- `_mm256_permute2f128_si256` without its zeroing bits. -/
def permute2f128 (imm : ℕ) (a b : Reg) : Reg := fun i =>
  let from_ := if i < 16 then imm % 4 else imm / 16 % 4
  if from_ / 2 = 0 then a (16 * (from_ % 2) + i % 16) else b (16 * (from_ % 2) + i % 16)

/-- `_mm256_extracti128_si256` -/
def extracti128 (imm : ℕ) (a : Reg) : Reg := fun i => a (16 * (imm % 2) + i)

/-- `_mm256_bsrli_epi128` -/
def bsrliEpi128 (n : ℕ) (a : Reg) : Reg := fun i => if i % 16 + n < 16 then a (i + n) else 0

/-- `_mm_unpacklo_epi8` -/
def unpackloEpi8 (a b : Reg) : Reg := fun i => if i % 2 = 0 then a (i / 2) else b (i / 2)

/-- `_mm256_cvtepu8_epi16` -/
def cvtepu8Epi16 (a : Reg) : Reg := ofWords16 fun i => (a i).setWidth 16

/-! ### Arithmetic -/

/-- `_mm256_add_epi16` -/
def addEpi16 (a b : Reg) : Checked Reg where
  value := ofWords16 fun i => word16 a i + word16 b i
  exact := ∀ i < 16, Fits 16 ((word16 a i).toInt + (word16 b i).toInt)

/-- `_mm256_add_epi32` -/
def addEpi32 (a b : Reg) : Checked Reg where
  value := ofWords32 fun i => word32 a i + word32 b i
  exact := ∀ i < 8, Fits 32 ((word32 a i).toInt + (word32 b i).toInt)

/-- `_mm_hadd_epi16` -/
def haddEpi16 (a b : Reg) : Checked Reg :=
  let left (i : ℕ) : BitVec 16 := if i < 4 then word16 a (2 * i) else word16 b (2 * (i - 4))
  let right (i : ℕ) : BitVec 16 :=
    if i < 4 then word16 a (2 * i + 1) else word16 b (2 * (i - 4) + 1)
  { value := ofWords16 fun i => left i + right i
    exact := ∀ i < 8, Fits 16 ((left i).toInt + (right i).toInt) }

/-- The sum of two products of unsigned by signed bytes. -/
def mulBytes (a b : Reg) (i : ℕ) : ℤ :=
  (a (2 * i)).toNat * (b (2 * i)).toInt + (a (2 * i + 1)).toNat * (b (2 * i + 1)).toInt

/-- `_mm256_maddubs_epi16`, which saturates. -/
def maddubsEpi16 (a b : Reg) : Checked Reg where
  value := ofWords16 fun i => BitVec.ofInt 16 (max (-2 ^ 15) (min (2 ^ 15 - 1) (mulBytes a b i)))
  exact := ∀ i < 16, Fits 16 (mulBytes a b i)

/-- The sum of two products of signed words. -/
def mulWords (a b : Reg) (i : ℕ) : ℤ :=
  (word16 a (2 * i)).toInt * (word16 b (2 * i)).toInt +
    (word16 a (2 * i + 1)).toInt * (word16 b (2 * i + 1)).toInt

/-- `_mm256_madd_epi16` -/
def maddEpi16 (a b : Reg) : Checked Reg where
  value := ofWords32 fun i => BitVec.ofInt 32 (mulWords a b i)
  exact := ∀ i < 8, Fits 32 (mulWords a b i)

/-! ### What the lanes hold -/

@[simp]
theorem word16_ofWords16 (f : ℕ → BitVec 16) (i : ℕ) : word16 (ofWords16 f) i = f i := by
  have hlow : 2 * i / 2 = i ∧ 2 * i % 2 = 0 := by omega
  have hhigh : (2 * i + 1) / 2 = i ∧ (2 * i + 1) % 2 = 1 := by omega
  apply BitVec.eq_of_getLsbD_eq
  intro j hj
  rw [word16, ofWords16, ofWords16, hlow.1, hlow.2, hhigh.1, hhigh.2, BitVec.getLsbD_append]
  split_ifs with hlt
  · simp [hlt]
  · have hsplit : 8 + (j - 8) = j := by omega
    simp [hsplit, show j - 8 < 8 by omega]

@[simp]
theorem word32_ofWords32 (f : ℕ → BitVec 32) (i : ℕ) : word32 (ofWords32 f) i = f i := by
  have h0 : 4 * i / 4 = i ∧ 4 * i % 4 = 0 := by omega
  have h1 : (4 * i + 1) / 4 = i ∧ (4 * i + 1) % 4 = 1 := by omega
  have h2 : (4 * i + 2) / 4 = i ∧ (4 * i + 2) % 4 = 2 := by omega
  have h3 : (4 * i + 3) / 4 = i ∧ (4 * i + 3) % 4 = 3 := by omega
  simp only [word32, ofWords32, h0, h1, h2, h3]
  exact word_byteOf (f i)

/-- The words of the upper half. -/
theorem word16_extracti128 (v : Reg) (i : ℕ) : word16 (extracti128 1 v) i = word16 v (8 + i) := by
  rw [word16, word16, extracti128, extracti128]
  congr 2 <;> omega

theorem word16_permute2f128 (v : Reg) (i : ℕ) : word16 (permute2f128 0 v v) i = word16 v (i % 8) := by
  have hlow : 2 * i % 16 = 2 * (i % 8) := by omega
  have hhigh : (2 * i + 1) % 16 = 2 * (i % 8) + 1 := by omega
  simp [word16, permute2f128, hlow, hhigh]

/-- The first two words of each half go everywhere. -/
theorem word16_shuffleEpi32 (v : Reg) (i : ℕ) :
    word16 (shuffleEpi32 0 v) i = word16 v (8 * (i / 8) + i % 2) := by
  have hlow : 16 * (2 * i / 16) + 2 * i % 4 = 2 * (8 * (i / 8) + i % 2) := by omega
  have hhigh : 16 * ((2 * i + 1) / 16) + (2 * i + 1) % 4 = 2 * (8 * (i / 8) + i % 2) + 1 := by omega
  simp [word16, shuffleEpi32, hlow, hhigh]

/-- The words move down by two. -/
theorem word16_bsrliEpi128 (v : Reg) {i : ℕ} (hi : i % 8 + 2 < 8) :
    word16 (bsrliEpi128 4 v) i = word16 v (i + 2) := by
  have hlow : 2 * i + 4 = 2 * (i + 2) := by omega
  have hhigh : 2 * i + 1 + 4 = 2 * (i + 2) + 1 := by omega
  rw [word16, word16, bsrliEpi128, bsrliEpi128, if_pos (by omega), if_pos (by omega), hlow, hhigh]

/-- The number a register's 16-bit lane holds. -/
def int16 (v : Reg) (i : ℕ) : ℤ := (word16 v i).toInt

/-- The number a register's 32-bit lane holds. -/
def int32 (v : Reg) (i : ℕ) : ℤ := (word32 v i).toInt

theorem toInt_ofInt_of_fits {w : ℕ} {z : ℤ} (hw : 0 < w) (hz : Fits w z) :
    (BitVec.ofInt w z).toInt = z :=
  BitVec.toInt_ofInt_eq_self hw hz.1 hz.2

theorem toInt_add_of_fits {w : ℕ} {x y : BitVec w} (hw : 0 < w) (hz : Fits w (x.toInt + y.toInt)) :
    (x + y).toInt = x.toInt + y.toInt := by
  rw [BitVec.toInt_add, ← BitVec.toInt_ofInt, toInt_ofInt_of_fits hw hz]

variable {a b : Reg} {i : ℕ}

theorem int16_addEpi16 (hfits : Fits 16 (int16 a i + int16 b i)) :
    int16 (addEpi16 a b).value i = int16 a i + int16 b i := by
  rw [int16, addEpi16, word16_ofWords16]
  exact toInt_add_of_fits (by decide) hfits

theorem int32_addEpi32 (hfits : Fits 32 (int32 a i + int32 b i)) :
    int32 (addEpi32 a b).value i = int32 a i + int32 b i := by
  rw [int32, addEpi32, word32_ofWords32]
  exact toInt_add_of_fits (by decide) hfits

theorem int16_haddEpi16_low (hi : i < 4) (hfits : Fits 16 (int16 a (2 * i) + int16 a (2 * i + 1))) :
    int16 (haddEpi16 a b).value i = int16 a (2 * i) + int16 a (2 * i + 1) := by
  rw [int16, haddEpi16, word16_ofWords16]
  simp only [if_pos hi]
  exact toInt_add_of_fits (by decide) hfits

theorem int16_haddEpi16_high (hfits : Fits 16 (int16 b (2 * i) + int16 b (2 * i + 1))) :
    int16 (haddEpi16 a b).value (4 + i) = int16 b (2 * i) + int16 b (2 * i + 1) := by
  have hside : ¬ 4 + i < 4 := by omega
  rw [int16, haddEpi16, word16_ofWords16]
  simp only [if_neg hside, Nat.add_sub_cancel_left]
  exact toInt_add_of_fits (by decide) hfits

theorem haddEpi16_exact (ha : ∀ i < 4, Fits 16 (int16 a (2 * i) + int16 a (2 * i + 1)))
    (hb : ∀ i < 4, Fits 16 (int16 b (2 * i) + int16 b (2 * i + 1))) : (haddEpi16 a b).exact := by
  intro i hi
  dsimp only
  split_ifs with hside
  · exact ha i hside
  · exact hb (i - 4) (by omega)

theorem int16_maddubsEpi16 (hfits : Fits 16 (mulBytes a b i)) :
    int16 (maddubsEpi16 a b).value i = mulBytes a b i := by
  obtain ⟨hlow, hhigh⟩ := hfits
  have hclamp : max (-2 ^ 15) (min (2 ^ 15 - 1) (mulBytes a b i)) = mulBytes a b i := by
    rw [min_eq_right (Int.le_sub_one_of_lt hhigh), max_eq_right hlow]
  rw [int16, maddubsEpi16, word16_ofWords16, hclamp]
  exact toInt_ofInt_of_fits (by decide) ⟨hlow, hhigh⟩

theorem mulWords_eq (a b : Reg) (i : ℕ) :
    mulWords a b i = int16 a (2 * i) * int16 b (2 * i) +
      int16 a (2 * i + 1) * int16 b (2 * i + 1) := rfl

theorem int32_maddEpi16 (hfits : Fits 32 (mulWords a b i)) :
    int32 (maddEpi16 a b).value i = mulWords a b i := by
  rw [int32, maddEpi16, word32_ofWords32]
  exact toInt_ofInt_of_fits (by decide) hfits

/-- Bytes taken as words are not negative. -/
theorem int16_cvtepu8Epi16 (a : Reg) (i : ℕ) : int16 (cvtepu8Epi16 a) i = (a i).toNat := by
  have hlt : (a i).toNat < 2 ^ 8 := (a i).isLt
  rw [int16, cvtepu8Epi16, word16_ofWords16, BitVec.toInt_eq_toNat_of_lt]
  · rw [BitVec.toNat_setWidth, Nat.mod_eq_of_lt (by omega)]
  · rw [BitVec.toNat_setWidth, Nat.mod_eq_of_lt (by omega)]
    omega

/-- Shifted right by four and masked, a word's bytes are their high nibbles. -/
theorem srliEpi16_and (a : Reg) (i : ℕ) : srliEpi16 4 a i &&& 15#8 = a i >>> 4 := by
  have hi : 2 * (i / 2) + i % 2 = i := Nat.div_add_mod i 2
  apply BitVec.eq_of_getLsbD_eq
  intro j hj
  rw [srliEpi16, ofWords16, BitVec.getLsbD_and, BitVec.getLsbD_setWidth,
    BitVec.getLsbD_ushiftRight, BitVec.getLsbD_ushiftRight, BitVec.getLsbD_ushiftRight, word16,
    BitVec.getLsbD_append]
  by_cases hlow : j < 4
  · have hmask : (15#8).getLsbD j = true := by interval_cases j <;> rfl
    rcases Nat.mod_two_eq_zero_or_one i with hside | hside
    · have haddr : 2 * (i / 2) = i := by omega
      simp [hside, haddr, hmask, hj, show 4 + j < 8 by omega]
    · have haddr : 2 * (i / 2) + 1 = i := by omega
      have hbit : 4 + (8 + j) - 8 = 4 + j := by omega
      simp [hside, haddr, hmask, hj, hbit, show ¬ 4 + (8 + j) < 8 by omega]
  · have hmask : (15#8).getLsbD j = false := by interval_cases j <;> simp_all
    have hout : (a i).getLsbD (4 + j) = false := BitVec.getLsbD_of_ge _ _ (by omega)
    rw [hmask, hout, Bool.and_false]

end Zllm.Avx2
