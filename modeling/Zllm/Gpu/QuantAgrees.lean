import Zllm.Candle.Halves
import Zllm.Candle.Q4KRepack
import Zllm.Gpu.QuantShaders

/-!
# The quantized matrix shaders compute one product

What a shader takes out of a block's words is what the block's bytes stand for, and a row's
workgroup stores the row's product with the activation, whichever way its threads split the sum.
-/

namespace Zllm.Gpu.Quant

open Finset Bytes Candle
open Candle.Avx2Kernel (halfValue)
open Workgroup (Covers grid perform reduce strided)

/-! ### Blocks -/

/-- A Q4_K block's fields in its 144 bytes. -/
def blockQ4K (blk : ℕ → Byte) : BlockQ4K where
  d := half (blk 0) (blk 1)
  dmin := half (blk 2) (blk 3)
  scales i := blk (4 + i)
  qs i := blk (16 + i)

/-- Element `y` of a Q6_K block: the low nibbles of 128 bytes, two more bits in each of 64, a signed
scale for every 16 elements, and the scale of them all. -/
def dequantizeQ6kBlock (blk : ℕ → Byte) (y : ℕ) : ℚ :=
  let half := y / 128
  let quarter := y % 128 / 32
  let l := y % 32
  let ql := blk (half * 64 + quarter % 2 * 32 + l)
  let nib := if quarter < 2 then ql &&& 0x0F#8 else ql >>> 4
  let qh := (blk (128 + (half * 32 + l)) >>> (2 * quarter)) &&& 3#8
  let q : ℤ := (nib ||| (qh <<< 4)).toNat - 32
  let sc := (blk (192 + (half * 8 + quarter * 2 + l / 16))).toInt
  halfToFloat (Quant.half (blk 208) (blk 209)) * sc * q

theorem setWidth_wordsOf (blk : ℕ → Byte) :
    (wordsOf blk 0).setWidth 16 = half (blk 0) (blk 1) := by
  apply BitVec.eq_of_getLsbD_eq
  intro i hi
  simp only [wordsOf, word, half, BitVec.getLsbD_setWidth, BitVec.getLsbD_append]
  grind

theorem extract_wordsOf (blk : ℕ → Byte) :
    (wordsOf blk 0).extractLsb' 16 16 = half (blk 2) (blk 3) := by
  apply BitVec.eq_of_getLsbD_eq
  intro i hi
  simp only [wordsOf, word, half, BitVec.getLsbD_extractLsb', BitVec.getLsbD_append]
  grind

/-! ### Q4_K in words -/

section Q4Words

/-- The words from `start` on are those of a block's bytes. -/
def HoldsBlock (wq : Words) (start : ℕ) (blk : ℕ → Byte) : Prop :=
  ∀ k, wq (start + k) = wordsOf blk k

variable {wq : Words} {start : ℕ} {blk : ℕ → Byte}

theorem holdsBlock_upload (bytes : List Byte) (blk : ℕ) :
    HoldsBlock (wordsOf fun i => bytes.getD i 0) (blk * 36) (blockAt 144 bytes blk) := by
  intro k
  have haddr (r : ℕ) :
      bytes.getD (4 * (blk * 36 + k) + r) 0 = blockAt 144 bytes blk (4 * k + r) := by
    rw [blockAt]
    congr 1
    ring
  have hfirst := haddr 0
  rw [add_zero, add_zero] at hfirst
  simp only [wordsOf, haddr, hfirst]

theorem unpack2x16float_eq (hholds : HoldsBlock wq start blk) :
    unpack2x16float (wq start) =
      (halfToFloat (blockQ4K blk).d, halfToFloat (blockQ4K blk).dmin) := by
  have hfirst : wq start = wordsOf blk 0 := hholds 0
  rw [unpack2x16float, hfirst, setWidth_wordsOf, extract_wordsOf, halfToFloat_eq, halfToFloat_eq]
  rfl

/-- The shader's masks and shifts take out the sub-block's scale and min. -/
theorem q4kScaleMin_eq (hholds : HoldsBlock wq start blk) (sub : Fin 8) :
    q4kScaleMin wq start sub =
      ((pairAt (blockQ4K blk).scales sub).1.setWidth 32,
        (pairAt (blockQ4K blk).scales sub).2.setWidth 32) := by
  obtain ⟨hscale, hmin⟩ := unpackScales_eq (blockQ4K blk).scales sub
  have hline (k : Fin 3) : wq (start + (1 + k)) = lineWord (blockQ4K blk).scales k := by
    rw [hholds]
    fin_cases k <;> rfl
  rw [← hscale, ← hmin, scaleBytes, minBytes, ← shift_and_ff, ← shift_and_ff]
  simp only [q4kScaleMin, unpackScales, ← hline]
  by_cases hlow : sub.val < 4
  · rw [if_pos hlow]
    have hword : sub.val / 4 = 0 := by omega
    have hbyte : sub.val % 4 = sub.val := by omega
    simp only [hword, hbyte]
    rfl
  · rw [if_neg hlow]
    have hword : sub.val / 4 = 1 := by omega
    have hbyte : sub.val % 4 = sub.val - 4 := by omega
    simp only [hword, hbyte]
    rfl

theorem toNat_setWidth_byte (b : Byte) : (b.setWidth 32).toNat = b.toNat :=
  BitVec.toNat_setWidth_of_le (by decide)

theorem q4kQuant_eq (hholds : HoldsBlock wq start blk) (sub : Fin 8) {w bsel : ℕ} (hw : w < 8)
    (hbsel : bsel < 4) :
    (q4kQuant wq start sub w bsel).toNat =
      (nibbleAt (blockQ4K blk) (element sub ⟨w * 4 + bsel, by omega⟩)).toNat := by
  have hbyte : (wq (start + 4 + sub.val / 2 * 8 + w) >>> (bsel * 8)) &&& 0xff =
      (blk (16 + (sub.val / 2 * 32 + (w * 4 + bsel)))).setWidth 32 := by
    rw [show start + 4 + sub.val / 2 * 8 + w = start + (4 + sub.val / 2 * 8 + w) by ring, hholds,
      shift_and_ff, byteOf_wordsOf _ _ hbsel]
    congr 2
    ring
  have hval := val_element sub ⟨w * 4 + bsel, by omega⟩
  have haddr : (element sub ⟨w * 4 + bsel, by omega⟩).val / 64 * 32 +
      (element sub ⟨w * 4 + bsel, by omega⟩).val % 32 = sub.val / 2 * 32 + (w * 4 + bsel) := by
    rw [hval]
    dsimp only
    omega
  have hside : (element sub ⟨w * 4 + bsel, by omega⟩).val % 64 < 32 ↔ ¬ sub.val &&& 1 = 1 := by
    rw [Nat.and_one_is_mod, hval]
    dsimp only
    omega
  simp only [q4kQuant, nibbleAt, hbyte, blockQ4K, haddr, hside]
  split_ifs with hhi
  · rw [BitVec.toNat_ushiftRight, BitVec.toNat_ushiftRight, toNat_setWidth_byte]
  · rw [BitVec.toNat_and, BitVec.toNat_and, toNat_setWidth_byte]
    rfl

/-- Scale, nibble and min make the element of the block. -/
theorem q4kWeight_eq (hholds : HoldsBlock wq start blk) (sub : Fin 8) {w bsel : ℕ} (hw : w < 8)
    (hbsel : bsel < 4) :
    (unpack2x16float (wq start)).1 * (q4kScaleMin wq start sub).1.toNat *
        (q4kQuant wq start sub w bsel).toNat -
      (unpack2x16float (wq start)).2 * (q4kScaleMin wq start sub).2.toNat =
    dequantizeQ4kBlock (blockQ4K blk) (element sub ⟨w * 4 + bsel, by omega⟩) := by
  rw [unpack2x16float_eq hholds, q4kScaleMin_eq hholds, q4kQuant_eq hholds sub hw hbsel,
    toNat_setWidth_byte, toNat_setWidth_byte, dequantizeQ4kBlock_subBlock]

end Q4Words

/-! ### Q6_K in planes -/

section Q6Planes

/-- Six bits of a word are a byte's, and no sign. -/
theorem toInt_sixBits {nib qh : Byte} {nib' qh' : BitVec 32} (hnib : nib'.toNat = nib.toNat)
    (hqh : qh'.toNat = qh.toNat) (hlow : qh.toNat < 4) :
    (nib' ||| (qh' <<< 4)).toInt = (nib ||| (qh <<< 4)).toNat := by
  have hwide : (qh' <<< 4).toNat = qh.toNat <<< 4 := by
    rw [BitVec.toNat_shiftLeft, hqh, Nat.mod_eq_of_lt]
    rw [Nat.shiftLeft_eq]
    omega
  have hnarrow : (qh <<< 4).toNat = qh.toNat <<< 4 := by
    rw [BitVec.toNat_shiftLeft, Nat.mod_eq_of_lt]
    rw [Nat.shiftLeft_eq]
    omega
  have hbits : (nib' ||| (qh' <<< 4)).toNat = (nib ||| (qh <<< 4)).toNat := by
    rw [BitVec.toNat_or, BitVec.toNat_or, hwide, hnarrow, hnib]
  have hbyte := (nib ||| (qh <<< 4)).isLt
  rw [BitVec.toInt_eq_toNat_of_lt (by omega), hbits]

theorem toNat_shift_and_three (b : Byte) (s : ℕ) :
    (b.setWidth 32 >>> s &&& 3).toNat = (b >>> s &&& 3#8).toNat := by
  rw [BitVec.toNat_and, BitVec.toNat_and, BitVec.toNat_ushiftRight, BitVec.toNat_ushiftRight,
    toNat_setWidth_byte]
  rfl

/-- The nibble and the two bits of a quarter of a half block. -/
theorem toInt_quant (ql qh : Byte) (quarter : ℕ) :
    ((if quarter < 2 then ql.setWidth 32 &&& 15 else ql.setWidth 32 >>> 4) |||
      ((qh.setWidth 32 >>> (2 * quarter) &&& 3) <<< 4) : BitVec 32).toInt =
    ((if quarter < 2 then ql &&& 15#8 else ql >>> 4) |||
      ((qh >>> (2 * quarter) &&& 3#8) <<< 4)).toNat := by
  apply toInt_sixBits
  · split_ifs
    · rw [BitVec.toNat_and, BitVec.toNat_and, toNat_setWidth_byte]
      rfl
    · rw [BitVec.toNat_ushiftRight, BitVec.toNat_ushiftRight, toNat_setWidth_byte]
  · exact toNat_shift_and_three qh _
  · rw [BitVec.toNat_and]
    exact Nat.lt_succ_of_le Nat.and_le_right

/-- A plane's byte, as the shaders read it. -/
theorem plane_byte (plane : ℕ → Byte) (i : ℕ) :
    (wordsOf plane (i >>> 2) >>> ((i &&& 3) * 8)) &&& 0xff = (plane i).setWidth 32 := by
  rw [Nat.shiftRight_eq_div_pow, show i &&& 3 = i % 4 from Nat.and_two_pow_sub_one_eq_mod i 2]
  exact byte_at plane i

variable {bytes : List Byte} {nRows nb : ℕ} {wt : ResidentQ6K}

/-- A plane has `w` bytes of each block. -/
theorem plane_at {w r : ℕ} (hr : r < w) (bytes : List Byte) (off blk : ℕ) :
    blockAt 210 bytes ((blk * w + r) / w) (off + (blk * w + r) % w) =
      blockAt 210 bytes blk (off + r) := by
  rw [Tile.index_div hr, Tile.index_mod hr]

/-- The shaders' weight is the block's. -/
theorem q6kWeight_eq (hup : uploadQ6k bytes nRows nb = some wt) (row e : ℕ) :
    q6kWeight wt nb row e =
      (dequantizeQ6kBlock (blockAt 210 bytes (row * nb + e / 256)) (e % 256) : ℚ) := by
  rw [uploadQ6k] at hup
  split_ifs at hup
  obtain rfl := Option.some.inj hup
  simp only [q6kWeight, dequantizeQ6kBlock, plane_byte, Nat.and_one_is_mod]
  have hy : e % 256 < 256 := Nat.mod_lt _ (by decide)
  generalize e % 256 = y at hy
  generalize row * nb + e / 256 = blk
  have hl : y % 128 % 32 = y % 32 := Nat.mod_mod_of_dvd y (by decide)
  have hql := plane_at (w := 128) (r := y / 128 * 64 + y % 128 / 32 % 2 * 32 + y % 32) (by omega)
    bytes 0 blk
  have hqh := plane_at (w := 64) (r := y / 128 * 32 + y % 32) (by omega) bytes 128 blk
  have hscale := plane_at (w := 16) (r := y / 128 * 8 + y % 128 / 32 * 2 + y % 32 / 16) (by omega)
    bytes 192 blk
  have hqlAddr : blk * 128 + y / 128 * 64 + (y % 32 + y % 128 / 32 % 2 * 32) =
      blk * 128 + (y / 128 * 64 + y % 128 / 32 % 2 * 32 + y % 32) := by ring
  have hqhAddr : blk * 64 + y / 128 * 32 + y % 32 = blk * 64 + (y / 128 * 32 + y % 32) := by ring
  have hscaleAddr : blk * 16 + y / 128 * 8 + y % 32 / 16 + 2 * (y % 128 / 32) =
      blk * 16 + (y / 128 * 8 + y % 128 / 32 * 2 + y % 32 / 16) := by ring
  rw [zero_add, zero_add] at hql
  simp only [hl, hqlAddr, hqhAddr, hscaleAddr, hql, hqh, hscale]
  rw [mul_comm (y % 128 / 32) 2, toInt_quant]
  push_cast
  rfl

end Q6Planes

/-! ### A weight and its row -/

/-- A quantized tensor's type, of those that `load_w` accepts. -/
inductive QuantType where
  | q4k
  | q6k

/-- `load_w` -/
noncomputable def loadW (dtype : QuantType) (bytes : List Byte) (rows nb : ℕ) :
    Option ResidentWeight :=
  match dtype with
  | .q4k => (uploadQ4k bytes rows nb).map .q4
  | .q6k => (uploadQ6k bytes rows nb).map .q6

/-- Element `k` of row `n` of a tensor with `nb` blocks to a row. -/
def dequant (dtype : QuantType) (bytes : List Byte) (nb n k : ℕ) : ℚ :=
  match dtype with
  | .q4k => dequantizeQ4kBlock (blockQ4K (blockAt 144 bytes (n * nb + k / 256)))
      ⟨k % 256, Nat.mod_lt _ (by decide)⟩
  | .q6k => dequantizeQ6kBlock (blockAt 210 bytes (n * nb + k / 256)) (k % 256)

/-- Row `n` of the product with `xv`. -/
noncomputable def dotRow (dtype : QuantType) (bytes : List Byte) (nb n : ℕ) (xv : ℕ → ℝ) : ℝ :=
  ∑ k ∈ range (nb * 256), dequant dtype bytes nb n k * xv k

/-- What a kernel leaves of `old`. -/
noncomputable def accumulated (acc : ℕ) (old v : ℝ) : ℝ := (if acc = 1 then old else 0) + v

theorem ite_acc (acc : ℕ) (old v : ℝ) :
    (if acc = 1 then old + v else v) = accumulated acc old v := by
  rw [accumulated]
  split_ifs
  · rfl
  · rw [zero_add]

section Rows

variable {bytes : List Byte} {nb : ℕ}

/-- Where an element's block is, its sub-block there, and its place in that. -/
theorem dequant_q4k (n g : ℕ) {w bsel : ℕ} (hw : w < 8) (hbsel : bsel < 4) :
    dequant .q4k bytes nb n (g * 32 + (w * 4 + bsel)) =
      dequantizeQ4kBlock (blockQ4K (blockAt 144 bytes (n * nb + g / 8)))
        (element ⟨g % 8, Nat.mod_lt _ (by decide)⟩ ⟨w * 4 + bsel, by omega⟩) := by
  have hblock : (g * 32 + (w * 4 + bsel)) / 256 = g / 8 := by omega
  rw [dequant, hblock]
  refine congrArg _ (Fin.ext ?_)
  rw [val_element]
  dsimp only
  omega

theorem q4kElement_eq (bytes : List Byte) (nb n g : ℕ) {w bsel : ℕ} (hw : w < 8)
    (hbsel : bsel < 4) :
    (unpack2x16float ((wordsOf fun i => bytes.getD i 0) ((n * nb + g / 8) * 36))).1 *
        (q4kScaleMin (wordsOf fun i => bytes.getD i 0) ((n * nb + g / 8) * 36) (g % 8)).1.toNat *
        (q4kQuant (wordsOf fun i => bytes.getD i 0) ((n * nb + g / 8) * 36) (g % 8) w bsel).toNat -
      (unpack2x16float ((wordsOf fun i => bytes.getD i 0) ((n * nb + g / 8) * 36))).2 *
        (q4kScaleMin (wordsOf fun i => bytes.getD i 0) ((n * nb + g / 8) * 36) (g % 8)).2.toNat =
    dequant .q4k bytes nb n (g * 32 + (w * 4 + bsel)) := by
  rw [dequant_q4k n g hw hbsel]
  exact q4kWeight_eq (holdsBlock_upload bytes _) ⟨g % 8, Nat.mod_lt _ (by decide)⟩ hw hbsel

theorem sum_subBlock (f : ℕ → ℝ) :
    ∑ w ∈ range 8, ∑ bsel ∈ range 4, f (w * 4 + bsel) = ∑ k ∈ range 32, f k :=
  (Workgroup.sum_rows 4 8 f).symm

/-- The scale and min of a sub-block come out of its sum. -/
theorem q4kSubDot_eq (xv : ℕ → ℝ) (row g : ℕ) :
    q4kSubDot (wordsOf fun i => bytes.getD i 0) nb xv row g =
      ∑ k ∈ range 32, dequant .q4k bytes nb row (g * 32 + k) * xv (g * 32 + k) := by
  rw [← sum_subBlock]
  simp only [q4kSubDot]
  rw [mul_sum, mul_sum, ← sum_sub_distrib]
  refine sum_congr rfl fun w hw => ?_
  rw [mul_sum, mul_sum, ← sum_sub_distrib]
  refine sum_congr rfl fun bsel hbsel => ?_
  have haddr : g / 8 * 256 + g % 8 * 32 + w * 4 + bsel = g * 32 + (w * 4 + bsel) := by omega
  rw [haddr, ← q4kElement_eq bytes nb row g (mem_range.mp hw) (mem_range.mp hbsel)]
  push_cast
  ring

theorem q4kRow_eq {p : Params} (hnb : p.nb = nb) (xv : ℕ → ℝ) (outp : Buf) {widX widY : ℕ}
    (hrow : widX + widY * p.gx < p.nRows) :
    q4kRow p (wordsOf fun i => bytes.getD i 0) xv outp widX widY =
      [(p.outBase + (widX + widY * p.gx),
        accumulated p.acc (outp (p.outBase + (widX + widY * p.gx)))
          (dotRow .q4k bytes nb (widX + widY * p.gx) xv))] := by
  subst hnb
  generalize hnumber : widX + widY * p.gx = row at hrow
  have hsum : reduce (· + ·) 6 (fun t => ((strided 64 (p.nb * 8) t).map
      (q4kSubDot (wordsOf fun i => bytes.getD i 0) p.nb xv row)).sum) =
        dotRow .q4k bytes p.nb row xv := by
    calc _ = ∑ g ∈ range (p.nb * 8), q4kSubDot (wordsOf fun i => bytes.getD i 0) p.nb xv row g :=
          Workgroup.reduce_strided 6 _ _
      _ = ∑ g ∈ range (p.nb * 8), ∑ k ∈ range 32,
            dequant .q4k bytes p.nb row (g * 32 + k) * xv (g * 32 + k) :=
          sum_congr rfl fun g _ => q4kSubDot_eq xv row g
      _ = ∑ k ∈ range (p.nb * 8 * 32), dequant .q4k bytes p.nb row k * xv k :=
          (Workgroup.sum_rows 32 (p.nb * 8) fun k =>
            (dequant .q4k bytes p.nb row k : ℝ) * xv k).symm
      _ = dotRow .q4k bytes p.nb row xv := by rw [show p.nb * 8 * 32 = p.nb * 256 by ring, dotRow]
  simp only [q4kRow, storeRow, hnumber, if_neg (not_le.mpr hrow), hsum, ite_acc]

theorem q6kRow_eq {p : Params} {nRows : ℕ} {wt : ResidentQ6K}
    (hup : uploadQ6k bytes nRows nb = some wt) (hnb : p.nb = nb) (xv : ℕ → ℝ) (outp : Buf)
    {widX widY : ℕ} (hrow : widX + widY * p.gx < p.nRows) :
    q6kRow p wt xv outp widX widY =
      [(p.outBase + (widX + widY * p.gx),
        accumulated p.acc (outp (p.outBase + (widX + widY * p.gx)))
          (dotRow .q6k bytes nb (widX + widY * p.gx) xv))] := by
  subst hnb
  generalize hnumber : widX + widY * p.gx = row at hrow
  have hsum : reduce (· + ·) 6 (fun t => ((strided 64 (p.nb * 256) t).map
      fun e => q6kWeight wt p.nb row e * xv e).sum) = dotRow .q6k bytes p.nb row xv := by
    refine (Workgroup.reduce_strided 6 _ _).trans (sum_congr rfl fun e _ => ?_)
    rw [q6kWeight_eq hup]
    rfl
  simp only [q6kRow, storeRow, hnumber, if_neg (not_le.mpr hrow), hsum, ite_acc]

theorem loadW_spec {dtype : QuantType} {rows : ℕ} {w : ResidentWeight}
    (hload : loadW dtype bytes rows nb = some w) :
    w.nRows = rows ∧ w.nbPerRow = nb ∧
      ((dtype = .q4k ∧ w = .q4 ⟨wordsOf fun i => bytes.getD i 0, rows, nb⟩) ∨
        (dtype = .q6k ∧ ∃ wt, uploadQ6k bytes rows nb = some wt ∧ w = .q6 wt)) := by
  cases dtype with
  | q4k =>
    rw [loadW, uploadQ4k] at hload
    split_ifs at hload
    · obtain rfl := Option.some.inj hload
      exact ⟨rfl, rfl, .inl ⟨rfl, rfl⟩⟩
    · cases hload
  | q6k =>
    rw [loadW] at hload
    cases hup : uploadQ6k bytes rows nb with
    | none =>
      rw [hup] at hload
      cases hload
    | some wt =>
      rw [hup] at hload
      obtain rfl := Option.some.inj hload
      have hfields : wt.nRows = rows ∧ wt.nbPerRow = nb := by
        rw [uploadQ6k] at hup
        split_ifs at hup
        obtain rfl := Option.some.inj hup
        exact ⟨rfl, rfl⟩
      exact ⟨hfields.1, hfields.2, .inr ⟨rfl, wt, rfl, rfl⟩⟩

/-- A matvec stores each row of the product once, in rows of at most 65535 workgroups. -/
theorem passMatvec_eq {dtype : QuantType} {rows : ℕ} {w : ResidentWeight}
    (hload : loadW dtype bytes rows nb = some w) (acc outBase : ℕ) (x outp : Buf) :
    passMatvec w acc outBase x outp = (List.range rows).map fun n =>
      (outBase + n, accumulated acc (outp (outBase + n)) (dotRow dtype bytes nb n x)) := by
  obtain ⟨hrows, hnb, hkind⟩ := loadW_spec hload
  have hgx : 0 < rows → 0 < min rows 65535 := fun hpos => lt_min hpos (by decide)
  have hstores : passMatvec w acc outBase x outp = (List.range rows).flatMap fun n =>
      [(outBase + n, accumulated acc (outp (outBase + n)) (dotRow dtype bytes nb n x))] := by
    rcases hkind with ⟨rfl, rfl⟩ | ⟨rfl, wt, hup, rfl⟩
    · refine Workgroup.grid_of_rows hgx (fun widX widY hrow => ?_) fun widX widY hpast => ?_
      · exact q4kRow_eq rfl x outp hrow
      · exact if_pos hpast
    · rw [passMatvec, hrows]
      refine Workgroup.grid_of_rows hgx (fun widX widY hrow => ?_) fun widX widY hpast => ?_
      · have hrow' : widX + widY * (params (.q6 wt) acc outBase).gx <
            (params (.q6 wt) acc outBase).nRows := by
          simpa only [params, hrows] using hrow
        have hkernel := q6kRow_eq hup hnb x outp hrow'
        simpa only [params, hrows] using hkernel
      · refine if_pos ?_
        simpa only [params, hrows] using hpast
  rw [hstores, ← List.map_eq_flatMap]

/-- The fused down-projection is the matvec of the activation. -/
theorem passDown_eq_passMatvec (w : ResidentWeight) (acc outBase : ℕ) (gate up outp : Buf) :
    passDown w acc outBase gate up outp = passMatvec w acc outBase (act gate up) outp := by
  cases w <;> rfl

end Rows

end Zllm.Gpu.Quant
