import Mathlib.Data.BitVec
import Mathlib.Tactic

/-!
# Bytes, words and six-bit numbers

The bytes of a little-endian word, and what masks and shifts of the word do to each of them. Eight
pairs of six-bit numbers in twelve bytes: the first four pairs in the low bits of the first eight
bytes, the last four in the nibbles of the last four bytes and the top bits of the others.
-/

namespace Zllm.Bytes

abbrev Byte := BitVec 8

/-- `u32::from_le_bytes` -/
def word (b0 b1 b2 b3 : Byte) : BitVec 32 := b3 ++ b2 ++ b1 ++ b0

/-- `((w >> (8 * k)) & 0xff) as u8` -/
def byteOf (w : BitVec 32) (k : ℕ) : Byte := ((w >>> (8 * k)) &&& 0xff).setWidth 8

theorem getLsbD_byteOf (w : BitVec 32) (k : ℕ) {i : ℕ} (hi : i < 8) :
    (byteOf w k).getLsbD i = w.getLsbD (8 * k + i) := by
  have hmask : (0xff : BitVec 32).getLsbD i = true := by
    interval_cases i <;> rfl
  simp only [byteOf, BitVec.getLsbD_setWidth, BitVec.getLsbD_and, BitVec.getLsbD_ushiftRight,
    hmask, hi, decide_true, Bool.true_and, Bool.and_true]

theorem byteOf_word (b0 b1 b2 b3 : Byte) :
    byteOf (word b0 b1 b2 b3) 0 = b0 ∧ byteOf (word b0 b1 b2 b3) 1 = b1 ∧
      byteOf (word b0 b1 b2 b3) 2 = b2 ∧ byteOf (word b0 b1 b2 b3) 3 = b3 := by
  refine ⟨?_, ?_, ?_, ?_⟩ <;>
  · apply BitVec.eq_of_getLsbD_eq
    intro i hi
    rw [getLsbD_byteOf _ _ hi, word]
    simp only [BitVec.getLsbD_append]
    grind

theorem word_byteOf (w : BitVec 32) :
    word (byteOf w 0) (byteOf w 1) (byteOf w 2) (byteOf w 3) = w := by
  apply BitVec.eq_of_getLsbD_eq
  intro j hj
  have hbit {k : ℕ} (hk : 8 * k ≤ j) (hlt : j < 8 * k + 8) :
      (byteOf w k).getLsbD (j - 8 * k) = w.getLsbD j := by
    rw [getLsbD_byteOf _ _ (by omega), Nat.add_sub_cancel' hk]
  rw [word]
  simp only [BitVec.getLsbD_append]
  split_ifs with h0 h1 h2
  · exact hbit (k := 0) (by omega) (by omega)
  · exact hbit (k := 1) (by omega) (by omega)
  · exact hbit (k := 2) (by omega) (by omega)
  · exact hbit (k := 3) (by omega) (by omega)

theorem byteOf_and (w v : BitVec 32) (k : ℕ) : byteOf (w &&& v) k = byteOf w k &&& byteOf v k := by
  apply BitVec.eq_of_getLsbD_eq
  intro i hi
  simp only [getLsbD_byteOf _ _ hi, BitVec.getLsbD_and]

theorem byteOf_or (w v : BitVec 32) (k : ℕ) : byteOf (w ||| v) k = byteOf w k ||| byteOf v k := by
  apply BitVec.eq_of_getLsbD_eq
  intro i hi
  simp only [getLsbD_byteOf _ _ hi, BitVec.getLsbD_or]

/-- A mask keeps no bit that a right shift moves in from the next byte. -/
theorem byteOf_ushiftRight_and {mask : BitVec 32} {s k : ℕ}
    (hmask : ∀ i < 8, (byteOf mask k).getLsbD i = true → i + s < 8) (w : BitVec 32) :
    byteOf ((w >>> s) &&& mask) k = (byteOf w k >>> s) &&& byteOf mask k := by
  apply BitVec.eq_of_getLsbD_eq
  intro i hi
  rw [byteOf_and, BitVec.getLsbD_and, BitVec.getLsbD_and]
  cases hbit : (byteOf mask k).getLsbD i
  · simp
  · have hlow := hmask i hi hbit
    rw [getLsbD_byteOf _ _ hi, BitVec.getLsbD_ushiftRight, BitVec.getLsbD_ushiftRight,
      getLsbD_byteOf _ _ (by omega : s + i < 8)]
    congr 2
    omega

/-- A masked left shift moves no bit into the next byte. -/
theorem byteOf_shiftLeft {w : BitVec 32} {s k : ℕ} (hk : k < 4)
    (hclear : ∀ j < 4, ∀ i < 8, (byteOf w j).getLsbD i = true → i + s < 8) :
    byteOf (w <<< s) k = byteOf w k <<< s := by
  apply BitVec.eq_of_getLsbD_eq
  intro i hi
  rw [getLsbD_byteOf _ _ hi, BitVec.getLsbD_shiftLeft, BitVec.getLsbD_shiftLeft]
  by_cases hs : i < s
  · -- The bits below come from the byte below, whose top bits are clear.
    have hzero : (8 * k + i < s) ∨ w.getLsbD (8 * k + i - s) = false := by
      rcases Nat.lt_or_ge (8 * k + i) s with hlt | hge
      · exact .inl hlt
      · right
        by_contra hbit
        have hbit : w.getLsbD (8 * k + i - s) = true := by simpa using hbit
        have hsplit : 8 * ((8 * k + i - s) / 8) + (8 * k + i - s) % 8 = 8 * k + i - s := by omega
        have hbyte := hclear ((8 * k + i - s) / 8) (by omega) ((8 * k + i - s) % 8)
          (Nat.mod_lt _ (by decide))
        rw [getLsbD_byteOf _ _ (Nat.mod_lt _ (by decide)), hsplit] at hbyte
        have := hbyte hbit
        omega
    rcases hzero with hlt | hzero
    · simp [hs, hlt]
    · simp [hs, hzero]
  · have haddr : 8 * k + i - s = 8 * k + (i - s) := by omega
    have hge : ¬ 8 * k + i < s := by omega
    rw [getLsbD_byteOf _ _ (by omega), haddr]
    simp [hs, hge, hi, show 8 * k + i < 32 by omega]

/-! ### Buffers -/

/-- A buffer of bytes as its words. -/
def wordsOf (bytes : ℕ → Byte) (j : ℕ) : BitVec 32 :=
  word (bytes (4 * j)) (bytes (4 * j + 1)) (bytes (4 * j + 2)) (bytes (4 * j + 3))

/-- `to_le_bytes` of each word. -/
def leBytes (w : ℕ → BitVec 32) (i : ℕ) : Byte := byteOf (w (i / 4)) (i % 4)

theorem wordsOf_leBytes (w : ℕ → BitVec 32) : wordsOf (leBytes w) = w := by
  funext j
  have hbyte {k : ℕ} (hk : k < 4) : leBytes w (4 * j + k) = byteOf (w j) k := by
    rw [leBytes, show (4 * j + k) / 4 = j by omega, show (4 * j + k) % 4 = k by omega]
  have hfirst : leBytes w (4 * j) = byteOf (w j) 0 := hbyte (k := 0) (by decide)
  rw [wordsOf, hfirst, hbyte (by decide), hbyte (by decide), hbyte (by decide), word_byteOf]

theorem byteOf_wordsOf (bytes : ℕ → Byte) (j : ℕ) {k : ℕ} (hk : k < 4) :
    byteOf (wordsOf bytes j) k = bytes (4 * j + k) := by
  obtain ⟨h0, h1, h2, h3⟩ :=
    byteOf_word (bytes (4 * j)) (bytes (4 * j + 1)) (bytes (4 * j + 2)) (bytes (4 * j + 3))
  rw [wordsOf]
  interval_cases k
  · exact h0
  · exact h1
  · exact h2
  · exact h3

/-- Shifted down and masked, a word is one of its bytes. -/
theorem shift_and_ff (w : BitVec 32) (k : ℕ) :
    (w >>> (k * 8)) &&& 0xff = (byteOf w k).setWidth 32 := by
  apply BitVec.eq_of_getLsbD_eq
  intro i hi
  rw [BitVec.getLsbD_setWidth, BitVec.getLsbD_and, BitVec.getLsbD_ushiftRight]
  by_cases hlow : i < 8
  · have hmask : (0xff : BitVec 32).getLsbD i = true := by
      interval_cases i <;> rfl
    rw [getLsbD_byteOf w k hlow, hmask, decide_eq_true hi, Bool.and_true, Bool.true_and, mul_comm k]
  · have hmask : (0xff : BitVec 32).getLsbD i = false := by
      interval_cases i <;> rfl
    rw [hmask, BitVec.getLsbD_of_ge (byteOf w k) i (by omega), Bool.and_false, Bool.and_false]

/-- A byte read out of the words of its buffer. -/
theorem byte_at (bytes : ℕ → Byte) (i : ℕ) :
    (wordsOf bytes (i / 4) >>> (i % 4 * 8)) &&& 0xff = (bytes i).setWidth 32 := by
  rw [shift_and_ff, byteOf_wordsOf _ _ (Nat.mod_lt _ (by decide)), Nat.div_add_mod]

/-! ### Six-bit numbers -/

/-- Six bits of one number and the top two of another. -/
def lowSix (x y : Byte) : Byte := (x &&& 63#8) ||| ((y &&& 48#8) <<< 2)

/-- The low nibbles of two numbers. -/
def nibbles (x y : Byte) : Byte := (x &&& 15#8) ||| ((y &&& 15#8) <<< 4)

theorem and_63 {x : Byte} (hx : x < 64#8) : x &&& 63#8 = x := by
  apply BitVec.eq_of_toNat_eq
  have hlt : x.toNat < 64 := BitVec.lt_def.mp hx
  rw [BitVec.toNat_and]
  exact (Nat.and_two_pow_sub_one_eq_mod x.toNat 6).trans (Nat.mod_eq_of_lt hlt)

theorem lowSix_low (x y : Byte) : lowSix x y &&& 63#8 = x &&& 63#8 := by
  ext i hi
  interval_cases i <;> simp [lowSix]

theorem lowSix_top (x y : Byte) : (lowSix x y &&& 192#8) >>> 2 = y &&& 48#8 := by
  ext i hi
  interval_cases i <;> simp [lowSix]

theorem nibbles_low (x y : Byte) : nibbles x y &&& 15#8 = x &&& 15#8 := by
  ext i hi
  interval_cases i <;> simp [nibbles]

theorem nibbles_high (x y : Byte) : (nibbles x y &&& 240#8) >>> 4 = y &&& 15#8 := by
  ext i hi
  interval_cases i <;> simp [nibbles]

theorem top_or_low (x : Byte) : (x &&& 48#8) ||| (x &&& 15#8) = x &&& 63#8 := by
  ext i hi
  interval_cases i <;> simp

/-- Put together from its own parts, a byte is as it was. -/
theorem lowSix_parts (x z : Byte) : lowSix (x &&& 63#8) (((x &&& 192#8) >>> 2) ||| (z &&& 15#8)) = x := by
  ext i hi
  interval_cases i <;> simp [lowSix]

theorem lowSix_parts_high (x z : Byte) :
    lowSix (x &&& 63#8) (((x &&& 192#8) >>> 2) ||| ((z &&& 240#8) >>> 4)) = x := by
  ext i hi
  interval_cases i <;> simp [lowSix]

theorem nibbles_parts (x y z : Byte) :
    nibbles (((x &&& 192#8) >>> 2) ||| (z &&& 15#8)) (((y &&& 192#8) >>> 2) ||| ((z &&& 240#8) >>> 4)) =
      z := by
  ext i hi
  interval_cases i <;> simp [nibbles]

theorem or_lt_64 {x y : Byte} (hx : x < 64#8) (hy : y < 64#8) : x ||| y < 64#8 := by
  have hx : x.toNat < 2 ^ 6 := BitVec.lt_def.mp hx
  have hy : y.toNat < 2 ^ 6 := BitVec.lt_def.mp hy
  rw [BitVec.lt_def, BitVec.toNat_or]
  exact Nat.or_lt_two_pow hx hy

theorem low_lt_64 {mask : Byte} (hmask : mask < 64#8) (x : Byte) : x &&& mask < 64#8 := by
  have hmask : mask.toNat < 64 := BitVec.lt_def.mp hmask
  rw [BitVec.lt_def, BitVec.toNat_and]
  exact Nat.and_le_right.trans_lt hmask

theorem shift_lt_64 {s : ℕ} (hs : 2 ≤ s) (x : Byte) : x >>> s < 64#8 := by
  rw [BitVec.lt_def, BitVec.toNat_ushiftRight, Nat.shiftRight_eq_div_pow]
  calc x.toNat / 2 ^ s ≤ x.toNat / 2 ^ 2 :=
        Nat.div_le_div_left (Nat.pow_le_pow_right (by decide) hs) (by decide)
    _ < 64 := Nat.div_lt_of_lt_mul x.isLt

/-! ### Eight pairs in twelve bytes -/

/-- The pairs. -/
def pairAt (b : Fin 12 → Byte) : Fin 8 → Byte × Byte :=
  ![(b 0 &&& 63#8, b 4 &&& 63#8), (b 1 &&& 63#8, b 5 &&& 63#8), (b 2 &&& 63#8, b 6 &&& 63#8),
    (b 3 &&& 63#8, b 7 &&& 63#8),
    (((b 0 &&& 192#8) >>> 2) ||| (b 8 &&& 15#8), ((b 4 &&& 192#8) >>> 2) ||| ((b 8 &&& 240#8) >>> 4)),
    (((b 1 &&& 192#8) >>> 2) ||| (b 9 &&& 15#8), ((b 5 &&& 192#8) >>> 2) ||| ((b 9 &&& 240#8) >>> 4)),
    (((b 2 &&& 192#8) >>> 2) ||| (b 10 &&& 15#8),
      ((b 6 &&& 192#8) >>> 2) ||| ((b 10 &&& 240#8) >>> 4)),
    (((b 3 &&& 192#8) >>> 2) ||| (b 11 &&& 15#8),
      ((b 7 &&& 192#8) >>> 2) ||| ((b 11 &&& 240#8) >>> 4))]

/-- The twelve bytes as words. -/
def lineWord (b : Fin 12 → Byte) : Fin 3 → BitVec 32 :=
  ![word (b 0) (b 1) (b 2) (b 3), word (b 4) (b 5) (b 6) (b 7), word (b 8) (b 9) (b 10) (b 11)]

def packPairs (s m : Fin 8 → Byte) : Fin 12 → Byte :=
  ![lowSix (s 0) (s 4), lowSix (s 1) (s 5), lowSix (s 2) (s 6), lowSix (s 3) (s 7),
    lowSix (m 0) (m 4), lowSix (m 1) (m 5), lowSix (m 2) (m 6), lowSix (m 3) (m 7),
    nibbles (s 4) (m 4), nibbles (s 5) (m 5), nibbles (s 6) (m 6), nibbles (s 7) (m 7)]

theorem pairAt_packPairs {s m : Fin 8 → Byte} (hs : ∀ j, s j < 64#8) (hm : ∀ j, m j < 64#8)
    (j : Fin 8) : pairAt (packPairs s m) j = (s j, m j) := by
  fin_cases j <;>
    simp [pairAt, packPairs, lowSix_low, lowSix_top, nibbles_low, nibbles_high, top_or_low,
      and_63 (hs _), and_63 (hm _)]

theorem packPairs_pairAt (b : Fin 12 → Byte) :
    packPairs (fun j => (pairAt b j).1) (fun j => (pairAt b j).2) = b := by
  funext k
  fin_cases k <;> simp [pairAt, packPairs, lowSix_parts, lowSix_parts_high, nibbles_parts]

theorem pairAt_lt (b : Fin 12 → Byte) (j : Fin 8) : (pairAt b j).1 < 64#8 ∧ (pairAt b j).2 < 64#8 := by
  have hlow (x y : Byte) : x &&& 63#8 < 64#8 ∧ y &&& 63#8 < 64#8 :=
    ⟨low_lt_64 (by decide) x, low_lt_64 (by decide) y⟩
  have hhigh (x y z : Byte) : ((x &&& 192#8) >>> 2) ||| (z &&& 15#8) < 64#8 ∧
      ((y &&& 192#8) >>> 2) ||| ((z &&& 240#8) >>> 4) < 64#8 :=
    ⟨or_lt_64 (shift_lt_64 le_rfl _) (low_lt_64 (by decide) _),
      or_lt_64 (shift_lt_64 le_rfl _) (shift_lt_64 (by decide) _)⟩
  fin_cases j
  · exact hlow _ _
  · exact hlow _ _
  · exact hlow _ _
  · exact hlow _ _
  · exact hhigh _ _ _
  · exact hhigh _ _ _
  · exact hhigh _ _ _
  · exact hhigh _ _ _

end Zllm.Bytes
