import Zllm.Gpu.QuantGemm

/-!
# The Vulkan weight repacks

Q6_K blocks go up as four planes with their scales as bytes, Q3_K blocks as 29 words each with the
scales already shuffled apart. The matvecs over them walk a block in orders of their own, a word of
quants or a byte of them at a time, and compute the products of the blocks as they were stored. The
conversion of halves is the `half` crate's. Sums and products of floats are exact.
-/

namespace Zllm.Vulkan.Repack

open Finset Bytes Candle Gpu Gpu.Quant
open Candle.Avx2Kernel (halfValue)
open Workgroup (Leaves grid reduce strided)

/-! ### Q6_K -/

section Q6

variable (toF32 : BitVec 16 → BitVec 32)

/-- What `vk_up_q6k` uploads. The byte planes are read as words. -/
structure Q6Planes where
  ql : Words
  qh : Words
  scl : Words
  dd : Buf

/-- `vk_up_q6k` -/
noncomputable def vkUpQ6k (bytes : List Byte) (nbk : ℕ) : Option Q6Planes :=
  if bytes.length = nbk * 210 then
    some {
      ql := wordsOf fun i => blockAt 210 bytes (i / 128) (i % 128)
      qh := wordsOf fun i => blockAt 210 bytes (i / 64) (128 + i % 64)
      scl := wordsOf fun i => blockAt 210 bytes (i / 16) (192 + i % 16)
      dd := fun b =>
        (f32Value (toF32 (half (blockAt 210 bytes b 208) (blockAt 210 bytes b 209))) : ℚ) }
  else none

/-- `bitfieldExtract` of a signed word -/
def bitfieldExtract (v : BitVec 32) (offset bits : ℕ) : ℤ := (v.extractLsb' offset bits).toInt

/-- What a thread of `decode_matvec_q6k` adds for word `w` of its row's quants. -/
noncomputable def q6kWordDot (wt : Q6Planes) (nb : ℕ) (x : Buf) (row w : ℕ) : ℝ :=
  let blkLocal := w / 16
  let blk := row * nb + blkLocal
  let wb := w % 16
  let hf := wb / 8
  let wih := wb % 8
  let d := wt.dd blk
  let qlBase := blk * 32 + hf * 16
  let qhBase := blk * 16 + hf * 8
  let scBase := blk * 4
  let scoff := hf * 8
  let qlA := wt.ql (qlBase + wih)
  let qlB := wt.ql (qlBase + wih + 8)
  let qhW := wt.qh (qhBase + wih)
  let xbase := blkLocal * 256 + hf * 128
  let l0 := wih * 4
  let is := scoff + l0 / 16
  let s1 := bitfieldExtract (wt.scl (scBase + is / 4)) (is % 4 * 8) 8
  let s2 := bitfieldExtract (wt.scl (scBase + (is + 2) / 4)) ((is + 2) % 4 * 8) 8
  let s3 := bitfieldExtract (wt.scl (scBase + (is + 4) / 4)) ((is + 4) % 4 * 8) 8
  let s4 := bitfieldExtract (wt.scl (scBase + (is + 6) / 4)) ((is + 6) % 4 * 8) 8
  ∑ b ∈ range 4,
    let l := l0 + b
    let qla := (qlA >>> (b * 8)) &&& 0xff
    let qlb := (qlB >>> (b * 8)) &&& 0xff
    let qhb := (qhW >>> (b * 8)) &&& 0xff
    let q1 := ((qla &&& 0xf) ||| ((qhb &&& 3) <<< 4)).toInt - 32
    let q2 := ((qlb &&& 0xf) ||| (((qhb >>> 2) &&& 3) <<< 4)).toInt - 32
    let q3 := ((qla >>> 4) ||| (((qhb >>> 4) &&& 3) <<< 4)).toInt - 32
    let q4 := ((qlb >>> 4) ||| (((qhb >>> 6) &&& 3) <<< 4)).toInt - 32
    d * (s1 * q1 * x (xbase + l) + s2 * q2 * x (xbase + l + 32) + s3 * q3 * x (xbase + l + 64) +
      s4 * q4 * x (xbase + l + 96))

/-- `main` of `decode_matvec_q6k` -/
noncomputable def decodeMatvecQ6k (nRows nb gx acc : ℕ) (wt : Q6Planes) (x outp : Buf)
    (widX widY : ℕ) : List (ℕ × ℝ) :=
  let row := widX + widY * gx
  let nwords := nb * 16
  let sums t := ((strided 64 nwords t).map (q6kWordDot wt nb x row)).sum
  if nRows ≤ row then [] else
    [(row, if acc = 1 then outp row + reduce (· + ·) 6 sums else reduce (· + ·) 6 sums)]

/-- `mv` of a Q6_K weight, with the uniform from `vk_mk_mv`. -/
noncomputable def mvQ6 (wt : Q6Planes) (rows nb : ℕ) (acc : Bool) (x outp : Buf) : List (ℕ × ℝ) :=
  let gx := min rows 65535
  grid gx (rows ⌈/⌉ gx) (decodeMatvecQ6k rows nb gx acc.toNat wt x outp)

end Q6

/-! ### Q3_K -/

section Q3

/-- `u`, the word at byte `i` of a block. -/
def wordAt (blk : ℕ → Byte) (i : ℕ) : BitVec 32 :=
  word (blk i) (blk (i + 1)) (blk (i + 2)) (blk (i + 3))

/-- `a`, in `vk_up_q3k` as in the reference. -/
def shuffleScales (s0 s1 s2 : BitVec 32) : List (BitVec 32) :=
  let km1 : BitVec 32 := 0x03030303
  let km2 : BitVec 32 := 0x0f0f0f0f
  [(s0 &&& km2) ||| ((s2 &&& km1) <<< 4),
    (s1 &&& km2) ||| (((s2 >>> 2) &&& km1) <<< 4),
    ((s0 >>> 4) &&& km2) ||| (((s2 >>> 4) &&& km1) <<< 4),
    ((s1 >>> 4) &&& km2) ||| (((s2 >>> 6) &&& km1) <<< 4)]

/-- Word `w` of a repacked block. -/
def packQ3k (toF32 : BitVec 16 → BitVec 32) (blk : ℕ → Byte) (w : ℕ) : BitVec 32 :=
  let a := shuffleScales (wordAt blk 96) (wordAt blk 100) (wordAt blk 104)
  if w = 0 then toF32 (half (blk 108) (blk 109))
  else if w < 5 then a.getD (w - 1) 0
  else if w < 13 then wordAt blk ((w - 5) * 4)
  else wordAt blk (32 + (w - 13) * 4)

/-- `vk_up_q3k`. The words go up as bytes and are read as words. -/
def vkUpQ3k (toF32 : BitVec 16 → BitVec 32) (bytes : List Byte) (nBlocks : ℕ) : Option Words :=
  if bytes.length = nBlocks * 110 then
    let packed i := packQ3k toF32 (blockAt 110 bytes (i / 29)) (i % 29)
    some (wordsOf (leBytes packed))
  else none

/-- What thread `t` of `decode_matvec_q3k` adds for block `b` and shift `j` of its row. -/
noncomputable def q3kTerm (w : Words) (nb : ℕ) (x : Buf) (row b t j : ℕ) : ℝ :=
  let h := t >>> 5
  let lo := t &&& 31
  let sub := lo >>> 4
  let base := (row * nb + b) * 29
  let d := f32Value (w base)
  let qbyte := (w (base + 13 + (t >>> 2)) >>> ((t &&& 3) * 8)) &&& 0xff
  let hbyte := (w (base + 5 + (lo >>> 2)) >>> ((lo &&& 3) * 8)) &&& 0xff
  let scaleIdx := h * 8 + j * 2 + sub
  let scale := ((w (base + 1 + (scaleIdx >>> 2)) >>> ((scaleIdx &&& 3) * 8)) &&& 0xff).toInt - 32
  let q2 := ((qbyte >>> (2 * j)) &&& 3).toNat
  let hbit := hbyte &&& (1 : BitVec 32) <<< (h * 4 + j) ≠ 0
  let outIdx := h * 128 + j * 32 + lo
  d * scale * (q2 - if hbit then 0 else 4) * x (b * 256 + outIdx)

/-- `main` of `decode_matvec_q3k` -/
noncomputable def decodeMatvecQ3k (n nb gx : ℕ) (w : Words) (x : Buf) (widX widY : ℕ) :
    List (ℕ × ℝ) :=
  let row := widX + widY * (gx &&& 0xffff)
  let sums t := if n ≤ row then 0 else ∑ b ∈ range nb, ∑ j ∈ range 4, q3kTerm w nb x row b t j
  if n ≤ row then [] else [(row, reduce (· + ·) 6 sums)]

/-- `mv` of a Q3_K weight. The uniform from `vk_mk_mv` has `acc` above the width. -/
noncomputable def mvQ3 (w : Words) (rows nb : ℕ) (acc : Bool) (x : Buf) : List (ℕ × ℝ) :=
  let gx := min rows 65535
  grid gx (rows ⌈/⌉ gx) (decodeMatvecQ3k rows nb (gx ||| (acc.toNat <<< 16)) w x)

/-- `f16_to_f32` of the reference. An infinity or NaN is no number, and read as zero. -/
def refF16ToF32 (bits : BitVec 16) : ℚ :=
  let sign := (bits >>> 15) &&& 1
  let exp := (bits >>> 10) &&& 0x1f
  let mant := bits &&& 0x3ff
  let f : ℚ :=
    if exp = 0 then mant.toNat * (2 : ℚ) ^ (-24 : ℤ)
    else if exp = 0x1f then 0
    else (1 + mant.toNat / 1024) * (2 : ℚ) ^ ((exp.toNat : ℤ) - 15)
  if sign = 1 then -f else f

/-- The reference's weight `out_idx` of a block. -/
def refWeight (blk : ℕ → Byte) (outIdx : ℕ) : ℚ :=
  let d := refF16ToF32 (half (blk 108) (blk 109))
  let a := shuffleScales (wordAt blk 96) (wordAt blk 100) (wordAt blk 104)
  let sc i := byteOf (a.getD (i / 4) 0) (i % 4)
  let h := outIdx / 128
  let r := outIdx % 128
  let j := r / 32
  let sub := r % 32 / 16
  let l := r % 16
  let shift := 2 * j
  let m := (1 : BitVec 32) <<< (h * 4 + j)
  let q2 := ((blk (32 + (h * 32 + sub * 16 + l)) >>> shift) &&& 3).toNat
  let hbit := (blk (sub * 16 + l)).setWidth 32 &&& m ≠ 0
  let scale : ℤ := (sc (h * 8 + j * 2 + sub)).toNat - 32
  d * scale * (q2 - if hbit then 0 else 4)

/-- `dequant_q3k_ref`, element `i` of `n_rows * k`. -/
def dequantQ3kRef (bytes : List Byte) (nRows k i : ℕ) : ℚ :=
  let nb := k / 256
  let row := i / k
  let b := i % k / 256
  let outIdx := i % k % 256
  if row < nRows ∧ b < nb then refWeight (blockAt 110 bytes (row * nb + b)) outIdx else 0

end Q3

/-! ### A word of Q6_K quants -/

section Q6Words

variable {toF32 : BitVec 16 → BitVec 32} {bytes : List Byte} {nbk : ℕ} {wt : Q6Planes}

theorem bitfieldExtract_byte (v : BitVec 32) (k : ℕ) :
    bitfieldExtract v (k * 8) 8 = (byteOf v k).toInt := by
  rw [bitfieldExtract]
  congr 1
  apply BitVec.eq_of_getLsbD_eq
  intro i hi
  rw [getLsbD_byteOf _ _ hi, BitVec.getLsbD_extractLsb', decide_eq_true hi, Bool.true_and, mul_comm]

/-- A byte of a word of a plane that has `w` bytes of each block. -/
theorem plane_word {w k : ℕ} (bytes : List Byte) (off blk j r : ℕ) (hk : k < 4)
    (haddr : 4 * j + k = blk * w + r) (hr : r < w) :
    byteOf (wordsOf (fun i => blockAt 210 bytes (i / w) (off + i % w)) j) k =
      blockAt 210 bytes blk (off + r) := by
  rw [byteOf_wordsOf _ _ hk, haddr, plane_at hr]

/-- Element `l` of a quarter of a half block. -/
theorem dequantizeQ6kBlock_quarter (blk : ℕ → Byte) (hf : ℕ) {j l : ℕ} (hj : j < 4) (hl : l < 32) :
    dequantizeQ6kBlock blk (hf * 128 + j * 32 + l) =
      halfToFloat (half (blk 208) (blk 209)) * (blk (192 + (hf * 8 + j * 2 + l / 16))).toInt *
        (((if j < 2 then (blk (hf * 64 + j % 2 * 32 + l)).setWidth 32 &&& 15
            else (blk (hf * 64 + j % 2 * 32 + l)).setWidth 32 >>> 4) |||
          (((blk (128 + (hf * 32 + l))).setWidth 32 >>> (2 * j) &&& 3) <<< 4) : BitVec 32).toInt -
            32 : ℤ) := by
  have hhalf : (hf * 128 + j * 32 + l) / 128 = hf := by omega
  have hquarter : (hf * 128 + j * 32 + l) % 128 / 32 = j := by omega
  have hplace : (hf * 128 + j * 32 + l) % 32 = l := by omega
  rw [toInt_quant]
  simp only [dequantizeQ6kBlock, hhalf, hquarter, hplace]

/-- The four products of one byte of each plane, by quarters of the half block. -/
theorem sum_quarters (blk : ℕ → Byte) (hf : ℕ) {l : ℕ} (hl : l < 32) (xv : ℕ → ℝ) :
    (halfToFloat (half (blk 208) (blk 209)) : ℝ) *
      ((blk (192 + (hf * 8 + l / 16))).toInt *
          ((((blk (hf * 64 + l)).setWidth 32 &&& 15) |||
            (((blk (128 + (hf * 32 + l))).setWidth 32 &&& 3) <<< 4) : BitVec 32).toInt - 32 : ℤ) *
          xv 0 +
        (blk (192 + (hf * 8 + l / 16 + 2))).toInt *
          ((((blk (hf * 64 + 32 + l)).setWidth 32 &&& 15) |||
            (((blk (128 + (hf * 32 + l))).setWidth 32 >>> 2 &&& 3) <<< 4) : BitVec 32).toInt -
              32 : ℤ) * xv 1 +
        (blk (192 + (hf * 8 + l / 16 + 4))).toInt *
          (((blk (hf * 64 + l)).setWidth 32 >>> 4 |||
            (((blk (128 + (hf * 32 + l))).setWidth 32 >>> 4 &&& 3) <<< 4) : BitVec 32).toInt -
              32 : ℤ) * xv 2 +
        (blk (192 + (hf * 8 + l / 16 + 6))).toInt *
          (((blk (hf * 64 + 32 + l)).setWidth 32 >>> 4 |||
            (((blk (128 + (hf * 32 + l))).setWidth 32 >>> 6 &&& 3) <<< 4) : BitVec 32).toInt -
              32 : ℤ) * xv 3) =
    ∑ j ∈ range 4, (dequantizeQ6kBlock blk (hf * 128 + j * 32 + l) : ℝ) * xv j := by
  have hscale (c : ℕ) : hf * 8 + c + l / 16 = hf * 8 + l / 16 + c := by ring
  have h0 := dequantizeQ6kBlock_quarter blk hf (j := 0) (by decide) hl
  have h1 := dequantizeQ6kBlock_quarter blk hf (j := 1) (by decide) hl
  have h2 := dequantizeQ6kBlock_quarter blk hf (j := 2) (by decide) hl
  have h3 := dequantizeQ6kBlock_quarter blk hf (j := 3) (by decide) hl
  simp only [Nat.reduceLT, Nat.reduceMod, Nat.reduceMul, if_true, if_false, zero_mul, mul_zero,
    one_mul, add_zero, BitVec.ushiftRight_zero, hscale] at h0 h1 h2 h3
  simp only [sum_range_succ, sum_range_zero, zero_add, zero_mul, one_mul, add_zero, Nat.reduceMul,
    h0, h1, h2, h3]
  push_cast
  ring

/-- Four bytes of quants in four quarters, with one scale for each quarter. -/
theorem q6kWordDot_eq (hhalf : ∀ bits, f32Value (toF32 bits) = halfValue bits)
    (hup : vkUpQ6k toF32 bytes nbk = some wt) (nb : ℕ) (x : Buf) (row w : ℕ) :
    q6kWordDot wt nb x row w = ∑ b ∈ range 4, ∑ j ∈ range 4,
      dequant .q6k bytes nb row
          (w / 16 * 256 + (w % 16 / 8 * 128 + j * 32 + (w % 16 % 8 * 4 + b))) *
        x (w / 16 * 256 + (w % 16 / 8 * 128 + j * 32 + (w % 16 % 8 * 4 + b))) := by
  rw [vkUpQ6k] at hup
  split_ifs at hup
  obtain rfl := Option.some.inj hup
  have hhf : w % 16 / 8 < 2 := by omega
  have hwih : w % 16 % 8 < 8 := Nat.mod_lt _ (by decide)
  simp only [q6kWordDot]
  generalize w / 16 = blkLocal, w % 16 / 8 = hf, w % 16 % 8 = wih at hhf hwih ⊢
  refine sum_congr rfl fun b hb => ?_
  have hb := mem_range.mp hb
  have hl : wih * 4 + b < 32 := by omega
  have hdequant (j : ℕ) (hj : j < 4) : dequant .q6k bytes nb row
      (blkLocal * 256 + (hf * 128 + j * 32 + (wih * 4 + b))) =
        dequantizeQ6kBlock (blockAt 210 bytes (row * nb + blkLocal))
          (hf * 128 + j * 32 + (wih * 4 + b)) := by
    rw [dequant, Tile.index_div (by omega), Tile.index_mod (by omega)]
  generalize row * nb + blkLocal = blk at hdequant ⊢
  have hqla : (wordsOf (fun i => blockAt 210 bytes (i / 128) (i % 128))
      (blk * 32 + hf * 16 + wih) >>> (b * 8)) &&& 0xff =
        (blockAt 210 bytes blk (hf * 64 + (wih * 4 + b))).setWidth 32 := by
    have hbyte := plane_word (w := 128) bytes 0 blk (blk * 32 + hf * 16 + wih)
      (hf * 64 + (wih * 4 + b)) hb (by ring) (by omega)
    simp only [zero_add] at hbyte
    rw [shift_and_ff, hbyte]
  have hqlb : (wordsOf (fun i => blockAt 210 bytes (i / 128) (i % 128))
      (blk * 32 + hf * 16 + wih + 8) >>> (b * 8)) &&& 0xff =
        (blockAt 210 bytes blk (hf * 64 + 32 + (wih * 4 + b))).setWidth 32 := by
    have hbyte := plane_word (w := 128) bytes 0 blk (blk * 32 + hf * 16 + wih + 8)
      (hf * 64 + 32 + (wih * 4 + b)) hb (by ring) (by omega)
    simp only [zero_add] at hbyte
    rw [shift_and_ff, hbyte]
  have hqhb : (wordsOf (fun i => blockAt 210 bytes (i / 64) (128 + i % 64))
      (blk * 16 + hf * 8 + wih) >>> (b * 8)) &&& 0xff =
        (blockAt 210 bytes blk (128 + (hf * 32 + (wih * 4 + b)))).setWidth 32 := by
    rw [shift_and_ff, plane_word bytes 128 blk _ (hf * 32 + (wih * 4 + b)) hb (by ring) (by omega)]
  have hscale (i : ℕ) (hi : i < 16) : bitfieldExtract
      (wordsOf (fun i => blockAt 210 bytes (i / 16) (192 + i % 16)) (blk * 4 + i / 4))
        (i % 4 * 8) 8 = (blockAt 210 bytes blk (192 + i)).toInt := by
    rw [bitfieldExtract_byte,
      plane_word bytes 192 blk _ i (Nat.mod_lt _ (by decide)) (by omega) hi]
  have hgroup : wih * 4 / 16 = (wih * 4 + b) / 16 := by omega
  have hx (j : ℕ) : blkLocal * 256 + (hf * 128 + j * 32 + (wih * 4 + b)) =
      blkLocal * 256 + hf * 128 + (wih * 4 + b) + j * 32 := by ring
  have hquarters := sum_quarters (blockAt 210 bytes blk) hf hl fun j =>
    x (blkLocal * 256 + hf * 128 + (wih * 4 + b) + j * 32)
  simp only [zero_mul, one_mul, add_zero, Nat.reduceMul] at hquarters
  have hright : ∑ j ∈ range 4, (dequant .q6k bytes nb row
      (blkLocal * 256 + (hf * 128 + j * 32 + (wih * 4 + b))) : ℝ) *
        x (blkLocal * 256 + (hf * 128 + j * 32 + (wih * 4 + b))) =
      ∑ j ∈ range 4, (dequantizeQ6kBlock (blockAt 210 bytes blk)
        (hf * 128 + j * 32 + (wih * 4 + b)) : ℝ) *
          x (blkLocal * 256 + hf * 128 + (wih * 4 + b) + j * 32) := by
    refine sum_congr rfl fun j hj => ?_
    rw [hdequant j (mem_range.mp hj), hx]
  rw [hright, ← hquarters, hqla, hqlb, hqhb, hscale _ (by omega), hscale _ (by omega),
    hscale _ (by omega), hscale _ (by omega), hhalf, ← halfToFloat_eq, hgroup]

end Q6Words

/-! ### The Q6_K rows -/

section Q6Rows

variable {toF32 : BitVec 16 → BitVec 32} {bytes : List Byte} {nb : ℕ}

/-- A block's words of quants and their bytes are its elements. -/
theorem sum_words (f : ℕ → ℝ) :
    ∑ w ∈ range 16, ∑ b ∈ range 4, ∑ j ∈ range 4, f (w / 8 * 128 + j * 32 + (w % 8 * 4 + b)) =
      ∑ y ∈ range 256, f y := by
  refine Eq.trans ?_ (Workgroup.sum_interleaved 2 4 32 f).symm
  refine Eq.trans ?_ (Workgroup.sum_rows 4 16 _).symm
  refine sum_congr rfl fun w _ => sum_congr rfl fun b hb => sum_congr rfl fun j _ => ?_
  have hb := mem_range.mp hb
  have hdiv : (w * 4 + b) / 32 = w / 8 := by omega
  have hmod : (w * 4 + b) % 32 = w % 8 * 4 + b := by omega
  rw [hdiv, hmod]

theorem mvQ6_eq (hhalf : ∀ bits, f32Value (toF32 bits) = halfValue bits) {n : ℕ} {wt : Q6Planes}
    (hup : vkUpQ6k toF32 bytes (n * nb) = some wt) (acc : Bool) (x outp : Buf) :
    mvQ6 wt n nb acc x outp = (List.range n).map fun row =>
      (row, accumulated acc.toNat (outp row) (dotRow .q6k bytes nb row x)) := by
  have hsum (row : ℕ) : reduce (· + ·) 6 (fun t => ((strided 64 (nb * 16) t).map
      (q6kWordDot wt nb x row)).sum) = dotRow .q6k bytes nb row x := by
    rw [dotRow, Workgroup.sum_rows 256 nb]
    refine (Workgroup.reduce_strided 6 _ _).trans ((Workgroup.sum_rows 16 nb _).trans ?_)
    refine sum_congr rfl fun blk _ => ?_
    rw [← sum_words]
    refine sum_congr rfl fun w hw => ?_
    rw [q6kWordDot_eq hhalf hup, Tile.index_div (mem_range.mp hw), Tile.index_mod (mem_range.mp hw)]
  have hpos : 0 < n → 0 < min n 65535 := fun hpos => lt_min hpos (by decide)
  rw [mvQ6, List.map_eq_flatMap]
  refine Workgroup.grid_of_rows hpos (fun widX widY hrow => ?_) fun widX widY hpast => ?_
  · simp only [decodeMatvecQ6k, if_neg (not_le.mpr hrow), hsum, ite_acc]
  · exact if_pos hpast

end Q6Rows

/-! ### The Q3_K rows -/

section Q3Rows

variable {toF32 : BitVec 16 → BitVec 32} {bytes : List Byte} {nBlocks : ℕ} {packed : Words}

/-- The reference converts a half as the format says. -/
theorem refF16ToF32_eq (bits : BitVec 16) : refF16ToF32 bits = halfValue bits := by
  have hlt : bits.toNat < 2 ^ 16 := bits.isLt
  have hmant : (bits &&& 0x3ff).toNat = bits.toNat % 2 ^ 10 := by
    rw [BitVec.toNat_and]
    exact Nat.and_two_pow_sub_one_eq_mod _ 10
  have hsign : ((bits >>> 15) &&& 1).toNat = bits.toNat / 2 ^ 15 := by
    rw [BitVec.toNat_and, BitVec.toNat_ushiftRight, Nat.shiftRight_eq_div_pow]
    refine (Nat.and_two_pow_sub_one_eq_mod _ 1).trans ?_
    omega
  have hzero : (bits >>> 10) &&& 0x1f = 0 ↔ bits.toNat / 2 ^ 10 % 2 ^ 5 = 0 := by
    rw [← toNat_exp, ← BitVec.toNat_inj]
    rfl
  have hmax : (bits >>> 10) &&& 0x1f = 0x1f ↔ bits.toNat / 2 ^ 10 % 2 ^ 5 = 31 := by
    rw [← toNat_exp, ← BitVec.toNat_inj]
    rfl
  have hone : (bits >>> 15) &&& 1 = 1 ↔ bits.toNat / 2 ^ 15 = 1 := by
    rw [← hsign, ← BitVec.toNat_inj]
    rfl
  have hnormal (mant exp : ℕ) : (1 + (mant : ℚ) / 1024) * (2 : ℚ) ^ ((exp : ℤ) - 15) =
      ((2 ^ 10 + mant : ℕ) : ℚ) * (2 : ℚ) ^ ((exp : ℤ) - 25) := by
    rw [show (exp : ℤ) - 15 = (exp : ℤ) - 25 + 10 by ring, zpow_add₀ (by norm_num)]
    push_cast
    ring
  simp only [refF16ToF32, halfValue, hzero, hmax, hone, hmant, toNat_exp, hnormal]
  rcases (by omega : bits.toNat / 2 ^ 15 = 0 ∨ bits.toNat / 2 ^ 15 = 1) with hs | hs
  · rw [hs, if_neg (by decide), pow_zero, one_mul]
  · rw [hs, if_pos rfl, pow_one, neg_one_mul]

theorem byteOf_wordAt (blk : ℕ → Byte) (i : ℕ) {k : ℕ} (hk : k < 4) :
    byteOf (wordAt blk i) k = blk (i + k) := by
  obtain ⟨h0, h1, h2, h3⟩ := byteOf_word (blk i) (blk (i + 1)) (blk (i + 2)) (blk (i + 3))
  rw [wordAt]
  interval_cases k
  · exact h0
  · exact h1
  · exact h2
  · exact h3

theorem toInt_setWidth_byte (b : Byte) : (b.setWidth 32).toInt = b.toNat := by
  have hlt := b.isLt
  rw [BitVec.toInt_eq_toNat_of_lt, toNat_setWidth_byte]
  rw [toNat_setWidth_byte]
  omega

theorem packed_at (hup : vkUpQ3k toF32 bytes nBlocks = some packed) (blk : ℕ) {r : ℕ}
    (hr : r < 29) :
    packed (blk * 29 + r) = packQ3k toF32 (blockAt 110 bytes blk) r := by
  rw [vkUpQ3k] at hup
  split_ifs at hup
  obtain rfl := Option.some.inj hup
  rw [wordsOf_leBytes, Tile.index_div hr, Tile.index_mod hr]

section Block

variable (toF32) (blk : ℕ → Byte)

theorem packQ3k_qs {t : ℕ} (ht : t < 64) :
    (packQ3k toF32 blk (13 + t / 4) >>> (t % 4 * 8)) &&& 0xff = (blk (32 + t)).setWidth 32 := by
  have hbyte := byteOf_wordAt blk (32 + (13 + t / 4 - 13) * 4) (Nat.mod_lt t (show 0 < 4 by decide))
  rw [show 32 + (13 + t / 4 - 13) * 4 + t % 4 = 32 + t by omega] at hbyte
  simp only [packQ3k]
  rw [if_neg (by omega), if_neg (by omega), if_neg (by omega), shift_and_ff, hbyte]

theorem packQ3k_hmask {lo : ℕ} (hlo : lo < 32) :
    (packQ3k toF32 blk (5 + lo / 4) >>> (lo % 4 * 8)) &&& 0xff = (blk lo).setWidth 32 := by
  have hbyte := byteOf_wordAt blk ((5 + lo / 4 - 5) * 4) (Nat.mod_lt lo (show 0 < 4 by decide))
  rw [show (5 + lo / 4 - 5) * 4 + lo % 4 = lo by omega] at hbyte
  simp only [packQ3k]
  rw [if_neg (by omega), if_neg (by omega), if_pos (by omega), shift_and_ff, hbyte]

theorem packQ3k_scale {i : ℕ} (hi : i < 16) :
    (packQ3k toF32 blk (1 + i / 4) >>> (i % 4 * 8)) &&& 0xff =
      (byteOf ((shuffleScales (wordAt blk 96) (wordAt blk 100) (wordAt blk 104)).getD (i / 4) 0)
        (i % 4)).setWidth 32 := by
  simp only [packQ3k]
  rw [if_neg (by omega), if_pos (by omega), shift_and_ff, Nat.add_sub_cancel_left]

end Block

/-- A thread's byte of quants at one of its four shifts is the reference's weight there. -/
theorem q3kTerm_eq (hhalf : ∀ bits, f32Value (toF32 bits) = halfValue bits)
    (hup : vkUpQ3k toF32 bytes nBlocks = some packed) (nb : ℕ) (x : Buf) (row b : ℕ) {t j : ℕ}
    (ht : t < 64) (hj : j < 4) :
    q3kTerm packed nb x row b t j =
      refWeight (blockAt 110 bytes (row * nb + b)) (t / 32 * 128 + j * 32 + t % 32) *
        x (b * 256 + (t / 32 * 128 + j * 32 + t % 32)) := by
  have hand (n : ℕ) : n &&& 3 = n % 4 := Nat.and_two_pow_sub_one_eq_mod n 2
  have hlow : t &&& 31 = t % 32 := Nat.and_two_pow_sub_one_eq_mod t 5
  have hword {r : ℕ} (hr : r < 29) := packed_at hup (row * nb + b) hr
  simp only [q3kTerm, hlow, hand, Nat.shiftRight_eq_div_pow, Nat.reducePow]
  generalize row * nb + b = blk at hword ⊢
  have hlo : t % 32 < 32 := Nat.mod_lt t (by decide)
  have hd : f32Value (packed (blk * 29)) =
      refF16ToF32 (half (blockAt 110 bytes blk 108) (blockAt 110 bytes blk 109)) := by
    have hfirst := hword (r := 0) (by decide)
    rw [add_zero] at hfirst
    rw [hfirst, packQ3k, if_pos rfl, hhalf, refF16ToF32_eq]
  have hqs : (packed (blk * 29 + 13 + t / 4) >>> (t % 4 * 8)) &&& 0xff =
      (blockAt 110 bytes blk (32 + t)).setWidth 32 := by
    rw [add_assoc, hword (by omega), packQ3k_qs _ _ ht]
  have hhmask : (packed (blk * 29 + 5 + t % 32 / 4) >>> (t % 32 % 4 * 8)) &&& 0xff =
      (blockAt 110 bytes blk (t % 32)).setWidth 32 := by
    rw [add_assoc, hword (by omega), packQ3k_hmask _ _ hlo]
  have hscale {i : ℕ} (hi : i < 16) : (packed (blk * 29 + 1 + i / 4) >>> (i % 4 * 8)) &&& 0xff =
      (byteOf ((shuffleScales (wordAt (blockAt 110 bytes blk) 96)
        (wordAt (blockAt 110 bytes blk) 100)
        (wordAt (blockAt 110 bytes blk) 104)).getD (i / 4) 0) (i % 4)).setWidth 32 := by
    rw [add_assoc, hword (by omega), packQ3k_scale _ _ hi]
  have hh : (t / 32 * 128 + j * 32 + t % 32) / 128 = t / 32 := by omega
  have hj' : (t / 32 * 128 + j * 32 + t % 32) % 128 / 32 = j := by omega
  have hsub : (t / 32 * 128 + j * 32 + t % 32) % 128 % 32 / 16 = t % 32 / 16 := by omega
  have hl : (t / 32 * 128 + j * 32 + t % 32) % 128 % 16 = t % 16 := by omega
  have hbyte : t / 32 * 32 + t % 32 / 16 * 16 + t % 16 = t := by omega
  have hmask : t % 32 / 16 * 16 + t % 16 = t % 32 := by omega
  have hhigh (bit : Prop) [Decidable bit] :
      (((if bit then 0 else 4 : ℚ)) : ℝ) = if bit then 0 else 4 := by
    split_ifs
    · exact Rat.cast_zero
    · exact Rat.cast_ofNat 4
  simp only [refWeight, hh, hj', hsub, hl, hbyte, hmask, hd, hqs, hhmask]
  rw [hscale (by omega), toInt_setWidth_byte, toNat_shift_and_three]
  rw [Rat.cast_mul, Rat.cast_mul, Rat.cast_sub, hhigh]
  push_cast
  rfl

/-- The flag above the width does not reach the row's number. -/
theorem gx_and_mask {gx : ℕ} (hgx : gx ≤ 65535) (acc : Bool) :
    (gx ||| (acc.toNat <<< 16)) &&& 0xffff = gx := by
  have hlow : gx &&& 0xffff = gx := by
    refine (Nat.and_two_pow_sub_one_eq_mod gx 16).trans (Nat.mod_eq_of_lt ?_)
    omega
  have hflag : acc.toNat <<< 16 &&& 0xffff = 0 := by
    cases acc <;> rfl
  rw [Nat.and_or_distrib_right, hlow, hflag, Nat.or_zero]

theorem dequantQ3kRef_apply {n nb row k : ℕ} (hrow : row < n) (hk : k < nb * 256) :
    dequantQ3kRef bytes n (nb * 256) (row * (nb * 256) + k) =
      refWeight (blockAt 110 bytes (row * nb + k / 256)) (k % 256) := by
  have hblocks : nb * 256 / 256 = nb := Nat.mul_div_cancel _ (by decide)
  have hblock : k / 256 < nb := (Nat.div_lt_iff_lt_mul (by decide)).mpr hk
  simp only [dequantQ3kRef, Tile.index_div hk, Tile.index_mod hk, hblocks]
  rw [if_pos ⟨hrow, hblock⟩]

theorem mvQ3_eq (hhalf : ∀ bits, f32Value (toF32 bits) = halfValue bits)
    (hup : vkUpQ3k toF32 bytes nBlocks = some packed) (n nb : ℕ) (acc : Bool) (x : Buf) :
    mvQ3 packed n nb acc x = (List.range n).map fun row =>
      (row, ∑ k ∈ range (nb * 256),
        dequantQ3kRef bytes n (nb * 256) (row * (nb * 256) + k) * x k) := by
  have hgx : min n 65535 ≤ 65535 := min_le_right _ _
  have hpos : 0 < n → 0 < min n 65535 := fun hpos => lt_min hpos (by decide)
  have hsum (row : ℕ) (hrow : row < n) : reduce (· + ·) 6 (fun t =>
      ∑ b ∈ range nb, ∑ j ∈ range 4, q3kTerm packed nb x row b t j) =
        ∑ k ∈ range (nb * 256),
          (dequantQ3kRef bytes n (nb * 256) (row * (nb * 256) + k) : ℝ) * x k := by
    rw [Workgroup.reduce_add, sum_comm, Workgroup.sum_rows 256 nb]
    refine sum_congr rfl fun b hb => ?_
    have hb := mem_range.mp hb
    refine Eq.trans ?_ (Workgroup.sum_interleaved 2 4 32 fun y =>
      (dequantQ3kRef bytes n (nb * 256) (row * (nb * 256) + (b * 256 + y)) : ℝ) *
        x (b * 256 + y)).symm
    refine sum_congr rfl fun t ht => sum_congr rfl fun j hj => ?_
    have ht : t < 64 := mem_range.mp ht
    have hj := mem_range.mp hj
    have hy : t / 32 * (4 * 32) + j * 32 + t % 32 < 256 := by omega
    rw [q3kTerm_eq hhalf hup nb x row b ht hj, dequantQ3kRef_apply hrow (Tile.index_lt hb hy),
      Tile.index_div hy, Tile.index_mod hy]
  rw [mvQ3, List.map_eq_flatMap]
  refine Workgroup.grid_of_rows hpos (fun widX widY hrow => ?_) fun widX widY hpast => ?_
  · simp only [decodeMatvecQ3k, gx_and_mask hgx, if_neg (not_le.mpr hrow), hsum _ hrow]
  · simp only [decodeMatvecQ3k, gx_and_mask hgx, if_pos hpast]

end Q3Rows

/-! ### The repacks -/

/-- One store for each row leaves the row's value there. -/
theorem apply_of_rows {n : ℕ} {addr : ℕ → ℕ} {val : ℕ → ℝ} {o o' : Buf}
    (hleaves : Leaves ((List.range n).map fun row => (addr row, val row)) o o')
    (hinj : addr.Injective) {row : ℕ} (hrow : row < n) : o' (addr row) = val row := by
  have hcovers : Workgroup.Covers ((List.range n).map fun row => (addr row, val row))
      {row | row ∈ List.range n} addr val :=
    Workgroup.covers_of_perm (.refl _) hinj.injOn
  exact hcovers.apply hleaves (List.mem_range.mpr hrow)

/-- **The repacks keep the meaning.** The Q3_K matvec over the repacked words computes with the
weights that the reference dequantizes of the blocks, and the Q6_K matvec over the planes leaves in
every row what the wgpu kernel leaves that reads its own planes, with a residual or without. -/
theorem repacks_keep_meaning (toF32 : BitVec 16 → BitVec 32)
    (hhalf : ∀ bits, f32Value (toF32 bits) = halfValue bits) (n nb : ℕ) (acc : Bool) (x : Buf) :
    (∀ bytes : List Byte, bytes.length = n * nb * 110 →
      ∃ packed, vkUpQ3k toF32 bytes (n * nb) = some packed ∧
        ∀ o o', Leaves (mvQ3 packed n nb acc x) o o' → ∀ row < n, o' row =
          ∑ k ∈ range (nb * 256), dequantQ3kRef bytes n (nb * 256) (row * (nb * 256) + k) * x k) ∧
    ∀ bytes : List Byte, bytes.length = n * nb * 210 →
      ∃ vk wgpu, vkUpQ6k toF32 bytes (n * nb) = some vk ∧ uploadQ6k bytes n nb = some wgpu ∧
        ∀ outBase o o' outp outp', Leaves (mvQ6 vk n nb acc x o) o o' →
          Leaves (passMatvec (.q6 wgpu) acc.toNat outBase x outp) outp outp' →
          (acc = true → ∀ row < n, o row = outp (outBase + row)) →
          ∀ row < n, o' row = outp' (outBase + row) := by
  constructor
  · intro bytes hlength
    obtain ⟨packed, hup⟩ : ∃ packed, vkUpQ3k toF32 bytes (n * nb) = some packed := by
      rw [vkUpQ3k, if_pos hlength]
      exact ⟨_, rfl⟩
    refine ⟨packed, hup, fun o o' hleaves row hrow => ?_⟩
    rw [mvQ3_eq hhalf hup] at hleaves
    exact apply_of_rows hleaves Function.injective_id hrow
  · intro bytes hlength
    obtain ⟨vk, hvk⟩ : ∃ vk, vkUpQ6k toF32 bytes (n * nb) = some vk := by
      rw [vkUpQ6k, if_pos hlength]
      exact ⟨_, rfl⟩
    obtain ⟨wgpu, hwgpu⟩ : ∃ wgpu, uploadQ6k bytes n nb = some wgpu := by
      rw [uploadQ6k, if_pos hlength]
      exact ⟨_, rfl⟩
    have hload : loadW .q6k bytes n nb = some (.q6 wgpu) := by
      rw [loadW, hwgpu]
      rfl
    refine ⟨vk, wgpu, hvk, hwgpu, fun outBase o o' outp outp' hleaves hleaves' hold row hrow => ?_⟩
    rw [mvQ6_eq hhalf hvk] at hleaves
    rw [passMatvec_eq hload] at hleaves'
    have hvulkan := apply_of_rows hleaves Function.injective_id hrow
    have hwgpu := apply_of_rows hleaves' (add_right_injective outBase) hrow
    rw [hvulkan, hwgpu]
    cases acc with
    | false => rfl
    | true => rw [hold rfl row hrow]

/-- Two rows of two blocks, with the conversion of halves that the loader has. -/
theorem repacks_keep_meaning_two_rows :
    (∃ packed, vkUpQ3k f16ToF32 (List.replicate 440 7) (2 * 2) = some packed ∧
      ∀ o o', Leaves (mvQ3 packed 2 2 false fun _ => 1) o o' → ∀ row < 2, o' row =
        ∑ k ∈ range (2 * 256),
          dequantQ3kRef (List.replicate 440 7) 2 (2 * 256) (row * (2 * 256) + k) * (1 : ℝ)) ∧
    ∃ vk wgpu, vkUpQ6k f16ToF32 (List.replicate 840 7) (2 * 2) = some vk ∧
      uploadQ6k (List.replicate 840 7) 2 2 = some wgpu ∧
        ∀ o', Leaves (mvQ6 vk 2 2 true (fun _ => 1) fun _ => 5) (fun _ => 5) o' →
          ∀ outp', Leaves (passMatvec (.q6 wgpu) 1 8 (fun _ => 1) fun _ => 5) (fun _ => 5) outp' →
          ∀ row < 2, o' row = outp' (8 + row) := by
  have hhalf : ∀ bits, f32Value (f16ToF32 bits) = halfValue bits := halfToFloat_eq
  have hlength3 : (List.replicate 440 (7 : Byte)).length = 2 * 2 * 110 := by
    rw [List.length_replicate]
  have hlength6 : (List.replicate 840 (7 : Byte)).length = 2 * 2 * 210 := by
    rw [List.length_replicate]
  constructor
  · exact (repacks_keep_meaning f16ToF32 hhalf 2 2 false fun _ => 1).1 _ hlength3
  · obtain ⟨vk, wgpu, hvk, hwgpu, hsame⟩ :=
      (repacks_keep_meaning f16ToF32 hhalf 2 2 true fun _ => 1).2 _ hlength6
    refine ⟨vk, wgpu, hvk, hwgpu, fun o' hleaves outp' hleaves' => ?_⟩
    exact hsame 8 (fun _ => 5) o' (fun _ => 5) outp' hleaves hleaves' fun _ _ _ => rfl

end Zllm.Vulkan.Repack
