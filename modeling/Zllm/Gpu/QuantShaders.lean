import Zllm.Candle.Q4KAvx2
import Zllm.Gpu.Kernels
import Zllm.Lib.Workgroup

/-!
# The quantized matrix shaders

The wgpu kernels that multiply a Q4_K or Q6_K weight with activations, as what their threads store:
the matvecs, the down-projections that compute their activation inline, the tiled GEMMs and the one
for few rows. The weights are uploaded as they are stored, or as planes, and taken apart in the
shader, word by word. Sums and products of floats are exact, and a buffer's indices are below 2^32.
-/

namespace Zllm.Gpu.Quant

open Finset Bytes Candle
open Candle.Avx2Kernel (halfValue)
open Workgroup (grid perform reduce strided)

/-- An `array<u32>`. -/
abbrev Words := ℕ → BitVec 32

/-- The bytes of block `blk` of `len`. -/
def blockAt (len : ℕ) (bytes : List Byte) (blk i : ℕ) : Byte := bytes.getD (blk * len + i) 0

/-- `u16::from_le_bytes` -/
def half (b0 b1 : Byte) : BitVec 16 := b1 ++ b0

/-! ### Uploads -/

/-- `ResidentQ4K`. `w_buf` is read as words. -/
structure ResidentQ4K where
  wBuf : Words
  nRows : ℕ
  nbPerRow : ℕ

/-- `ResidentQ6K`. `ql` and `qh` are read as words. -/
structure ResidentQ6K where
  ql : Words
  qh : Words
  scales : Buf
  d : Buf
  nRows : ℕ
  nbPerRow : ℕ

/-- `upload_q4k` -/
def uploadQ4k (weightBytes : List Byte) (nRows nbPerRow : ℕ) : Option ResidentQ4K :=
  if weightBytes.length = nRows * nbPerRow * 144 then
    some { wBuf := wordsOf fun i => weightBytes.getD i 0, nRows, nbPerRow }
  else none

/-- `upload_q6k` -/
noncomputable def uploadQ6k (bytes : List Byte) (nRows nbPerRow : ℕ) : Option ResidentQ6K :=
  if bytes.length = nRows * nbPerRow * 210 then
    some {
      ql := wordsOf fun i => blockAt 210 bytes (i / 128) (i % 128)
      qh := wordsOf fun i => blockAt 210 bytes (i / 64) (128 + i % 64)
      scales := fun i => (blockAt 210 bytes (i / 16) (192 + i % 16)).toInt
      d := fun b => (halfToFloat (half (blockAt 210 bytes b 208) (blockAt 210 bytes b 209)) : ℚ)
      nRows, nbPerRow }
  else none

/-- `ResidentWeight`, quantized. -/
inductive ResidentWeight where
  | q4 (w : ResidentQ4K)
  | q6 (w : ResidentQ6K)

def ResidentWeight.nRows : ResidentWeight → ℕ
  | q4 w => w.nRows
  | q6 w => w.nRows

def ResidentWeight.nbPerRow : ResidentWeight → ℕ
  | q4 w => w.nbPerRow
  | q6 w => w.nbPerRow

/-! ### Weights in the shaders -/

/-- `unpack2x16float` -/
def unpack2x16float (w : BitVec 32) : ℚ × ℚ :=
  (halfValue (w.setWidth 16), halfValue (w.extractLsb' 16 16))

/-- `sc` and `mn` of sub-block `sub` of the block that starts at word `blk`. -/
def q4kScaleMin (wq : Words) (blk sub : ℕ) : BitVec 32 × BitVec 32 :=
  let u0 := wq (blk + 1)
  let u1 := wq (blk + 2)
  let u2 := wq (blk + 3)
  let u3 := ((u2 >>> 4) &&& 0x0f0f0f0f) ||| (((u1 >>> 6) &&& 0x03030303) <<< 4)
  let uaux := u1 &&& 0x3f3f3f3f
  let u1 := (u2 &&& 0x0f0f0f0f) ||| (((u0 >>> 6) &&& 0x03030303) <<< 4)
  let u2 := uaux
  let u0 := u0 &&& 0x3f3f3f3f
  if sub < 4 then ((u0 >>> (sub * 8)) &&& 0xff, (u2 >>> (sub * 8)) &&& 0xff)
  else ((u1 >>> ((sub - 4) * 8)) &&& 0xff, (u3 >>> ((sub - 4) * 8)) &&& 0xff)

/-- `q` of byte `bsel` of word `w` of a sub-block's quants. -/
def q4kQuant (wq : Words) (blk sub w bsel : ℕ) : BitVec 32 :=
  let qs0 := blk + 4 + sub / 2 * 8
  let hi := sub &&& 1 = 1
  let word := wq (qs0 + w)
  let byte := (word >>> (bsel * 8)) &&& 0xff
  if hi then byte >>> 4 else byte &&& 0x0f

/-- `dd[blk] * scale * f32(q)` of element `e` of a row of `nb` blocks. -/
noncomputable def q6kWeight (wt : ResidentQ6K) (nb row e : ℕ) : ℝ :=
  let b := e / 256
  let pp := e % 256
  let half := pp / 128
  let pq := pp % 128
  let sub := pq / 32
  let l := pq % 32
  let blk := row * nb + b
  let qlL := l + (sub &&& 1) * 32
  let qlBi := blk * 128 + half * 64 + qlL
  let qlByte := (wt.ql (qlBi >>> 2) >>> ((qlBi &&& 3) * 8)) &&& 0xff
  let nib := if sub < 2 then qlByte &&& 0xf else qlByte >>> 4
  let qhBi := blk * 64 + half * 32 + l
  let qhByte := (wt.qh (qhBi >>> 2) >>> ((qhBi &&& 3) * 8)) &&& 0xff
  let qbits := (qhByte >>> (sub * 2)) &&& 3
  let q : ℤ := (nib ||| (qbits <<< 4)).toInt - 32
  let scale := wt.scales (blk * 16 + half * 8 + l / 16 + 2 * sub)
  wt.d blk * scale * q

/-! ### Matvecs -/

/-- `Params` and `P6` -/
structure Params where
  nRows : ℕ
  nb : ℕ
  gx : ℕ
  acc : ℕ
  outBase : ℕ

/-- What thread 0 of a row's workgroup stores, once the threads' sums are reduced. -/
noncomputable def storeRow (p : Params) (outp : Buf) (sums : ℕ → ℝ) (row : ℕ) : ℕ × ℝ :=
  let oi := p.outBase + row
  (oi, if p.acc = 1 then outp oi + reduce (· + ·) 6 sums else reduce (· + ·) 6 sums)

/-- What a thread of the Q4_K shaders adds for sub-block `g` of its row. -/
noncomputable def q4kSubDot (wq : Words) (nbPerRow : ℕ) (xv : ℕ → ℝ) (row g : ℕ) : ℝ :=
  let b := g / 8
  let sub := g % 8
  let blk := (row * nbPerRow + b) * 36
  let dd := unpack2x16float (wq blk)
  let scMn := q4kScaleMin wq blk sub
  let xb := b * 256 + sub * 32
  let dot := ∑ w ∈ range 8, ∑ bsel ∈ range 4,
    ((q4kQuant wq blk sub w bsel).toNat : ℝ) * xv (xb + w * 4 + bsel)
  let xsum := ∑ w ∈ range 8, ∑ bsel ∈ range 4, xv (xb + w * 4 + bsel)
  dd.1 * scMn.1.toNat * dot - dd.2 * scMn.2.toNat * xsum

/-- `main` of `Q4K_MATVEC_WGSL` and `Q4K_DOWN_WGSL`, with `xv` for the activation's elements. -/
noncomputable def q4kRow (p : Params) (wq : Words) (xv : ℕ → ℝ) (outp : Buf) (widX widY : ℕ) :
    List (ℕ × ℝ) :=
  let row := widX + widY * p.gx
  let totalSub := p.nb * 8
  let sums t := ((strided 64 totalSub t).map (q4kSubDot wq p.nb xv row)).sum
  if p.nRows ≤ row then [] else [storeRow p outp sums row]

/-- `main` of `Q6K_MATVEC_WGSL` and `Q6K_DOWN_WGSL` -/
noncomputable def q6kRow (p : Params) (wt : ResidentQ6K) (xv : ℕ → ℝ) (outp : Buf)
    (widX widY : ℕ) : List (ℕ × ℝ) :=
  let row := widX + widY * p.gx
  let ncols := p.nb * 256
  let sums t := ((strided 64 ncols t).map fun e => q6kWeight wt p.nb row e * xv e).sum
  if p.nRows ≤ row then [] else [storeRow p outp sums row]

/-- The parameters of a weight's uploads, with `acc` and `out_base` as the caller sets them. -/
def params (w : ResidentWeight) (acc outBase : ℕ) : Params where
  nRows := w.nRows
  nb := w.nbPerRow
  gx := min w.nRows 65535
  acc := acc
  outBase := outBase

/-- `pass_matvec` -/
noncomputable def passMatvec (w : ResidentWeight) (acc outBase : ℕ) (x outp : Buf) :
    List (ℕ × ℝ) :=
  let n := w.nRows
  let gx := min n 65535
  grid gx (n ⌈/⌉ gx) <| match w with
    | .q4 wt => q4kRow (params w acc outBase) wt.wBuf x outp
    | .q6 wt => q6kRow (params w acc outBase) wt x outp

/-- `pass_down` -/
noncomputable def passDown (w : ResidentWeight) (acc outBase : ℕ) (gate up outp : Buf) :
    List (ℕ × ℝ) :=
  let n := w.nRows
  let gx := min n 65535
  grid gx (n ⌈/⌉ gx) <| match w with
    | .q4 wt => q4kRow (params w acc outBase) wt.wBuf (act gate up) outp
    | .q6 wt => q6kRow (params w acc outBase) wt (act gate up) outp

/-! ### Matrix products -/

/-- `GP` -/
structure GemmParams where
  nRows : ℕ
  nb : ℕ
  nCols : ℕ
  mRows : ℕ
  gx : ℕ
  acc : ℕ

/-- Shared memory after the threads' stores of each of `c` rounds. -/
def staged (stage : ℕ → ℕ → List (ℕ × ℝ)) : ℕ → Buf
  | 0 => fun _ => 0
  | c + 1 => perform ((List.range 64).flatMap (stage c)) (staged stage c)

/-- What thread `t` of `Q4K_GEMM_WGSL` stores to `wrow` for a chunk. -/
def q4kStage (p : GemmParams) (wq : Words) (n chunk t : ℕ) : List (ℕ × ℝ) :=
  let col0 := chunk * 256
  let cn := min 256 (p.nCols - col0)
  let subStart := col0 / 32
  let subCount := cn / 32
  (strided 64 subCount t).flatMap fun sg =>
    let gsub := subStart + sg
    let b := gsub / 8
    let sub := gsub % 8
    let blk := (n * p.nb + b) * 36
    let dd := unpack2x16float (wq blk)
    let scMn := q4kScaleMin wq blk sub
    let dst := sg * 32
    let dsc := dd.1 * scMn.1.toNat
    let dmn := dd.2 * scMn.2.toNat
    (List.range 8).flatMap fun w => (List.range 4).map fun bsel =>
      (dst + w * 4 + bsel, ((dsc * (q4kQuant wq blk sub w bsel).toNat - dmn : ℚ) : ℝ))

/-- What thread `t` of `Q6K_GEMM_WGSL` stores to `wrow` for a chunk. -/
noncomputable def q6kStage (p : GemmParams) (wt : ResidentQ6K) (n chunk t : ℕ) : List (ℕ × ℝ) :=
  let col0 := chunk * 256
  let cn := min 256 (p.nCols - col0)
  (strided 64 cn t).map fun e => (e, q6kWeight wt p.nb n (col0 + e))

/-- A chunk's dot with row `m` of the activation, eight columns at a time. -/
noncomputable def chunkDot (p : GemmParams) (wrow x : Buf) (chunk m : ℕ) : ℝ :=
  let col0 := chunk * 256
  let cn := min 256 (p.nCols - col0)
  let xb := m * p.nCols + col0
  ((strided 8 cn 0).map fun k => ∑ i ∈ range 8, wrow (k + i) * x (xb + k + i)).sum

/-- The loop over a thread's rows: `acc[mi]` takes in the dot with row `m`. There are eight of
them, and a store past the end is dropped. -/
def addDots (dot : ℕ → ℝ) (rows : List ℕ) (acc : List ℝ) : List ℝ :=
  rows.zipIdx.foldl (fun acc mi => acc.modify mi.2 (· + dot mi.1)) acc

/-- `acc` of thread `t` after some chunks. -/
noncomputable def accAfter (p : GemmParams) (wrow : ℕ → Buf) (x : Buf) (t : ℕ) : ℕ → List ℝ
  | 0 => List.replicate 8 0
  | chunk + 1 =>
    addDots (chunkDot p (wrow (chunk + 1)) x chunk) (strided 64 p.mRows t)
      (accAfter p wrow x t chunk)

/-- `main` of `Q4K_GEMM_WGSL` and `Q6K_GEMM_WGSL`, with what `stage` puts into `wrow`. -/
noncomputable def gemmRow (p : GemmParams) (stage : ℕ → ℕ → ℕ → List (ℕ × ℝ)) (x outp : Buf)
    (widX widY : ℕ) : List (ℕ × ℝ) :=
  let n := widX + widY * p.gx
  let nChunks := (p.nCols + 256 - 1) / 256
  let acc t := accAfter p (staged (stage n)) x t nChunks
  if p.nRows ≤ n then [] else
    (List.range 64).flatMap fun t => (strided 64 p.mRows t).zipIdx.map fun mi =>
      let oi := mi.1 * p.nRows + n
      (oi, if p.acc = 1 then outp oi + (acc t).getD mi.2 0 else (acc t).getD mi.2 0)

/-- What thread `t` of `Q4K_SKINNY_WGSL` stores to `xs` for block `b`. -/
def skinnyStage (p : GemmParams) (x : Buf) (b t : ℕ) : List (ℕ × ℝ) :=
  let mm := min p.mRows 8
  (strided 64 (mm * 256) t).map fun idx =>
    let m := idx / 256
    let kk := idx % 256
    (idx, x (m * p.nCols + b * 256 + kk))

/-- What the thread of column `col` adds to `acc[m]` for block `b`. -/
noncomputable def skinnyDot (p : GemmParams) (wq : Words) (xs : Buf) (col b m : ℕ) : ℝ :=
  let blk := (col * p.nb + b) * 36
  let dd := unpack2x16float (wq blk)
  ∑ sub ∈ range 8,
    let scMn := q4kScaleMin wq blk sub
    let coef := dd.1 * scMn.1.toNat
    let coefmn := dd.2 * scMn.2.toNat
    ∑ w ∈ range 8, ∑ bsel ∈ range 4,
      let wval := coef * (q4kQuant wq blk sub w bsel).toNat - coefmn
      let kpos := sub * 32 + w * 4 + bsel
      (wval : ℝ) * xs (m * 256 + kpos)

/-- `main` of `Q4K_SKINNY_WGSL`, one thread for a column. -/
noncomputable def q4kSkinny (p : GemmParams) (wq : Words) (x outp : Buf) (widX widY : ℕ) :
    List (ℕ × ℝ) :=
  let mm := min p.mRows 8
  let xs := staged (skinnyStage p x)
  (List.range 64).flatMap fun t =>
    let col := (widX + widY * p.gx) * 64 + t
    let acc m := ∑ b ∈ range p.nb, skinnyDot p wq (xs (b + 1)) col b m
    if p.nRows ≤ col then [] else
      (List.range mm).map fun m =>
        let oi := m * p.nRows + col
        (oi, if p.acc = 1 then outp oi + acc m else acc m)

/-- `gemm_params` -/
def gemmParams (nRows nCols mRows acc gx : ℕ) : GemmParams where
  nRows := nRows
  nb := nCols / 256
  nCols := nCols
  mRows := mRows
  gx := gx
  acc := acc

/-- `record_gemm` -/
noncomputable def recordGemm (w : ResidentWeight) (x outp : Buf) (nCols mRows acc : ℕ) :
    List (ℕ × ℝ) :=
  let nRows := w.nRows
  let groups := nRows ⌈/⌉ 64
  let gxSkinny := min groups 65535
  let gx := min nRows 65535
  match w with
  | .q4 wt =>
    if mRows ≤ 2 then
      grid gxSkinny (groups ⌈/⌉ gxSkinny)
        (q4kSkinny (gemmParams nRows nCols mRows acc gxSkinny) wt.wBuf x outp)
    else
      let p := gemmParams nRows nCols mRows acc gx
      grid gx (nRows ⌈/⌉ gx) (gemmRow p (q4kStage p wt.wBuf) x outp)
  | .q6 wt =>
    let p := gemmParams nRows nCols mRows acc gx
    grid gx (nRows ⌈/⌉ gx) (gemmRow p (q6kStage p wt) x outp)

end Zllm.Gpu.Quant
