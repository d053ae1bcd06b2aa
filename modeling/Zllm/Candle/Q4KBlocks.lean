import Mathlib
import Zllm.Lib.Bytes

/-!
# Q4_K blocks

A weight's super-block of 256 four-bit quants, with eight six-bit scales and mins, and eight of them
interleaved. The repacking and its inverse, the dequantization, and the two scalar dot products with
a quantized activation. Sums and products of floats are exact.
-/

namespace Zllm.Candle

open Bytes

/-! ### Blocks -/

@[ext]
structure BlockQ4K where
  d : BitVec 16
  dmin : BitVec 16
  scales : Fin 12 → Byte
  qs : Fin 128 → Byte

/-- Eight interleaved blocks. -/
@[ext]
structure BlockQ4Kx8 where
  d : Fin 8 → BitVec 16
  dmin : Fin 8 → BitVec 16
  scales : Fin 96 → Byte
  qs : Fin 1024 → Byte

/-- An activation's block. Its quants are `i8`, the sums of 16 of them `i16`. -/
structure BlockQ8K where
  d : ℚ
  qs : Fin 256 → BitVec 8
  bsums : Fin 16 → BitVec 16

/-! ### Half precision -/

/-- The loop that shifts a subnormal's fraction until its leading bit is set. -/
def renormalize : ℕ → BitVec 32 → ℤ → BitVec 32 × ℤ
  | 0, m, e => (m, e)
  | fuel + 1, m, e => if m &&& 0x400 = 0 then renormalize fuel (m <<< 1) (e - 1) else (m, e)

/-- `f16_to_f32`, the bits of the result. Ten shifts are enough for ten bits of fraction. -/
def f16ToF32 (bits : BitVec 16) : BitVec 32 :=
  let sign := ((bits >>> 15) &&& 1).setWidth 32
  let exp := (bits >>> 10) &&& 0x1F
  let frac := (bits &&& 0x3FF).setWidth 32
  if exp = 0 then
    if frac = 0 then sign <<< 31
    else
      let r := renormalize 10 frac (-14)
      let m := r.1 &&& 0x3FF
      (sign <<< 31) ||| (BitVec.ofInt 32 (r.2 + 127) <<< 23) ||| (m <<< 13)
  else if exp = 0x1F then (sign <<< 31) ||| ((0xFF : BitVec 32) <<< 23) ||| (frac <<< 13)
  else
    let e := BitVec.ofInt 32 ((exp.toNat : ℤ) - 15 + 127)
    (sign <<< 31) ||| (e <<< 23) ||| (frac <<< 13)

/-- The number an `f32` stands for. An infinity or NaN is none, and is read as zero. -/
def f32Value (bits : BitVec 32) : ℚ :=
  let sign : ℕ := bits.toNat / 2 ^ 31
  let exp : ℕ := bits.toNat / 2 ^ 23 % 2 ^ 8
  let frac : ℕ := bits.toNat % 2 ^ 23
  (-1 : ℚ) ^ sign *
    if exp = 0 then (frac : ℚ) * (2 : ℚ) ^ (-149 : ℤ)
    else if exp = 255 then 0
    else ((2 ^ 23 + frac : ℕ) : ℚ) * (2 : ℚ) ^ ((exp : ℤ) - 150)

/-- What `f16_to_f32` makes of a half. -/
def halfToFloat (bits : BitVec 16) : ℚ := f32Value (f16ToF32 bits)

/-! ### Scales -/

/-- `decode_q4k_scale_min` -/
def decodeQ4kScaleMin (j : Fin 8) (scales : Fin 12 → Byte) : Byte × Byte :=
  if h : j.val < 4 then
    (scales ⟨j, by omega⟩ &&& 0x3F#8, scales ⟨j + 4, by omega⟩ &&& 0x3F#8)
  else
    let scLo := scales ⟨j + 4, by omega⟩ &&& 0x0F#8
    let scHi := (scales ⟨j - 4, by omega⟩ &&& 0xC0#8) >>> 2
    let mnLo := (scales ⟨j + 4, by omega⟩ &&& 0xF0#8) >>> 4
    let mnHi := (scales ⟨j, by omega⟩ &&& 0xC0#8) >>> 2
    (scHi ||| scLo, mnHi ||| mnLo)

/-! ### Repacking -/

/-- `s` and `m` of one block in the two loops over sub-blocks. -/
def subScale (scales : Fin 12 → Byte) (sb : Fin 8) : Byte × Byte :=
  if h : sb.val < 4 then
    let i := sb.val
    (scales ⟨i, by omega⟩ &&& 63#8, scales ⟨i + 4, by omega⟩ &&& 63#8)
  else
    let i := sb.val - 4
    (((scales ⟨i, by omega⟩ &&& 192#8) >>> 2) ||| (scales ⟨i + 8, by omega⟩ &&& 15#8),
      ((scales ⟨i + 4, by omega⟩ &&& 192#8) >>> 2) |||
        ((scales ⟨i + 8, by omega⟩ &&& 240#8) >>> 4))

/-- `repack_q4_k_to_q4_kx8`. Of each sub-block the eight rows' scales and mins are twelve bytes. -/
def repackQ4KToQ4Kx8 (input : Fin 8 → BlockQ4K) : BlockQ4Kx8 where
  d i := (input i).d
  dmin i := (input i).dmin
  scales p :=
    let sb : Fin 8 := ⟨p / 12, by omega⟩
    packPairs (fun j => (subScale (input j).scales sb).1) (fun j => (subScale (input j).scales sb).2)
      ⟨p % 12, by omega⟩
  qs p :=
    let i := p.val / 8
    (input ⟨i % 8, by omega⟩).qs ⟨i / 8 * 8 + p % 8, by omega⟩

/-- `s[r]` and `m[r]` as the inverse reads them of a sub-block's twelve bytes. -/
def readPair (line : Fin 12 → Byte) (r : Fin 8) : Byte × Byte :=
  if h : r.val < 4 then
    (line ⟨r, by omega⟩ &&& 0x3F#8, line ⟨4 + r, by omega⟩ &&& 0x3F#8)
  else
    let upper2S := (line ⟨r - 4, by omega⟩ &&& 0xC0#8) >>> 2
    let lower4S := line ⟨8 + (r - 4), by omega⟩ &&& 0x0F#8
    let upper2M := (line ⟨4 + (r - 4), by omega⟩ &&& 0xC0#8) >>> 2
    let lower4M := (line ⟨8 + (r - 4), by omega⟩ &&& 0xF0#8) >>> 4
    (upper2S ||| lower4S, upper2M ||| lower4M)

/-- The assignments that put scale `ls` and min `lm` of sub-block `sb` back. -/
def writePair (scales : Fin 12 → Byte) (sb : Fin 8) (ls lm : Byte) : Fin 12 → Byte :=
  if h : sb.val < 4 then
    let lo : Fin 12 := ⟨sb, by omega⟩
    let hi : Fin 12 := ⟨sb + 4, by omega⟩
    let scales := Function.update scales lo ((scales lo &&& 0xC0#8) ||| (ls &&& 0x3F#8))
    Function.update scales hi ((scales hi &&& 0xC0#8) ||| (lm &&& 0x3F#8))
  else
    let both : Fin 12 := ⟨sb + 4, by omega⟩
    let lo : Fin 12 := ⟨sb - 4, by omega⟩
    let hi : Fin 12 := ⟨sb, by omega⟩
    let scales := Function.update scales both ((ls &&& 0x0F#8) ||| ((lm &&& 0x0F#8) <<< 4))
    let scales := Function.update scales lo ((scales lo &&& 0x3F#8) ||| ((ls >>> 4) <<< 6))
    Function.update scales hi ((scales hi &&& 0x3F#8) ||| ((lm >>> 4) <<< 6))

/-- The twelve bytes from `row_off` on. -/
def scaleLine (rp : BlockQ4Kx8) (sb : Fin 8) : Fin 12 → Byte := fun k =>
  let rowOff := if sb.val < 4 then 0 + sb.val * 12 else 48 + (sb.val - 4) * 12
  have hrow : rowOff ≤ 84 := by
    have := sb.isLt
    simp only [rowOff]
    split <;> omega
  rp.scales ⟨rowOff + k, by omega⟩

/-- `reverse_repack_q4_kx8`, row `r`. -/
def reverseRepackQ4Kx8 (rp : BlockQ4Kx8) (r : Fin 8) : BlockQ4K where
  d := rp.d r
  dmin := rp.dmin r
  scales := (List.finRange 8).foldl (fun scales sb =>
    let pair := readPair (scaleLine rp sb) r
    writePair scales sb pair.1 pair.2) fun _ => 0
  qs p := rp.qs ⟨(p / 8 * 8 + r) * 8 + p % 8, by omega⟩

/-! ### Dot products -/

/-- Quant `y` of a block: nibbles of 32 bytes for each two sub-blocks, the low ones first. -/
def nibbleAt (b : BlockQ4K) (y : Fin 256) : Byte :=
  let q := b.qs ⟨y / 64 * 32 + y % 32, by omega⟩
  if y.val % 64 < 32 then q &&& 0x0F#8 else q >>> 4

/-- `dequantize_q4k_block` -/
def dequantizeQ4kBlock (b : BlockQ4K) (y : Fin 256) : ℚ :=
  let d := halfToFloat b.d
  let dmin := halfToFloat b.dmin
  let is := 2 * (y.val / 64)
  let pair :=
    if y.val % 64 < 32 then decodeQ4kScaleMin ⟨is, by omega⟩ b.scales
    else decodeQ4kScaleMin ⟨is + 1, by omega⟩ b.scales
  let d1 := d * pair.1.toNat
  let m1 := dmin * pair.2.toNat
  d1 * (nibbleAt b y).toNat - m1

/-- `gemv_q4_k_8x8_q8_k_scalar`, unless the lengths differ. -/
def gemvQ4K8x8Q8KScalar (weights : List BlockQ4Kx8) (activation : List BlockQ8K) :
    Option (Fin 8 → ℚ) :=
  if weights.length = activation.length then
    some fun r => ((weights.zip activation).map fun blk =>
      let row := dequantizeQ4kBlock (reverseRepackQ4Kx8 blk.1 r)
      (∑ i, row i * (blk.2.qs i).toInt) * blk.2.d).sum
  else none

def kmask1 : BitVec 32 := 0x3f3f3f3f
def kmask2 : BitVec 32 := 0x0f0f0f0f
def kmask3 : BitVec 32 := 0x03030303

/-- The masks and shifts on a line of scales as three words. -/
def unpackWords (u0 u1 u2 : BitVec 32) : Fin 4 → BitVec 32 :=
  let u3 := ((u2 >>> 4) &&& kmask2) ||| (((u1 >>> 6) &&& kmask3) <<< 4)
  let uaux := u1 &&& kmask1
  let u1 := (u2 &&& kmask2) ||| (((u0 >>> 6) &&& kmask3) <<< 4)
  let u2 := uaux
  let u0 := u0 &&& kmask1
  ![u0, u1, u2, u3]

/-- `unpack_scales` -/
def unpackScales (scales : Fin 12 → Byte) : Fin 4 → BitVec 32 :=
  unpackWords (lineWord scales 0) (lineWord scales 1) (lineWord scales 2)

/-- `scale_bytes` -/
def scaleBytes (utmp : Fin 4 → BitVec 32) (sub : Fin 8) : Byte :=
  byteOf (utmp ⟨sub / 4, by omega⟩) (sub % 4)

/-- `min_bytes` -/
def minBytes (utmp : Fin 4 → BitVec 32) (sub : Fin 8) : Byte :=
  byteOf (utmp ⟨2 + sub / 4, by omega⟩) (sub % 4)

/-- `bs`, two groups of the activation. -/
def bs (y : BlockQ8K) (sub : Fin 8) : ℤ :=
  (y.bsums ⟨2 * sub, by omega⟩).toInt + (y.bsums ⟨2 * sub + 1, by omega⟩).toInt

def minTerm (x : BlockQ4K) (y : BlockQ8K) (sub : Fin 8) : ℤ :=
  bs y sub * (minBytes (unpackScales x.scales) sub).toNat

/-- Element `k` of a sub-block. -/
def element (sub : Fin 8) (k : Fin 32) : Fin 256 := ⟨sub * 32 + k, by omega⟩

/-- A sub-block's product of quants `k`. -/
def quantTerm (x : BlockQ4K) (y : BlockQ8K) (sub : Fin 8) (k : Fin 32) : ℤ :=
  let pair := sub.val / 2
  let raw := x.qs ⟨pair * 32 + k, by omega⟩
  let q4 := if sub.val % 2 = 0 then raw &&& 0x0F#8 else raw >>> 4
  q4.toNat * (y.qs (element sub k)).toInt

/-- `min_sum` -/
def minSum (x : BlockQ4K) (y : BlockQ8K) : ℤ := ∑ sub, minTerm x y sub

/-- `sumi` -/
def sumi (x : BlockQ4K) (y : BlockQ8K) : ℤ :=
  ∑ sub, (scaleBytes (unpackScales x.scales) sub).toNat * ∑ k, quantTerm x y sub k

/-- `vec_dot_q4k_q8k_scalar` -/
def vecDotQ4kQ8kScalar (xs : List BlockQ4K) (ys : List BlockQ8K) : ℚ :=
  ((xs.zip ys).map fun blk =>
    let dTotal := blk.2.d * halfToFloat blk.1.d
    let dminTotal := -blk.2.d * halfToFloat blk.1.dmin
    dminTotal * minSum blk.1 blk.2 + dTotal * sumi blk.1 blk.2).sum

end Zllm.Candle
