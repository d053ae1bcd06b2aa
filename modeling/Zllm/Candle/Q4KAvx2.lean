import Zllm.Candle.Q4KBlocks
import Zllm.Lib.Avx2

/-!
# The AVX2 product

The product of an activation row with eight interleaved rows as the kernel computes it, register by
register. Its integers are what the hardware leaves; its floats are exact.
-/

namespace Zllm.Candle.Avx2Kernel

open Bytes Avx2

/-! ### Loads -/

/-- The bytes from `off` on. -/
def loadBytes {n : ℕ} (a : Fin n → Byte) (off : ℕ) : Reg := fun i =>
  if h : off + i < n then a ⟨off + i, h⟩ else 0

def loadWords {n : ℕ} (a : Fin n → BitVec 16) : Reg :=
  ofWords16 fun i => if h : i < n then a ⟨i, h⟩ else 0

def deltamask : Reg := setrEpi8 [0, 1, 8, 9, 2, 3, 10, 11, 4, 5, 12, 13, 6, 7, 14, 15]

def scalemask : Reg := setrEpi8 [0, 0, 4, 4, 1, 1, 5, 5, 2, 2, 6, 6, 3, 3, 7, 7]

def finalpermutemask (i : ℕ) : ℕ := [0, 2, 4, 6, 1, 3, 5, 7].getD i 0

def m4b : Reg := set1Epi8 0x0F

/-! ### A sub-block -/

/-- The line that takes the first doubleword of each row's eight bytes. -/
def evenLine (v0123 v4567 lhs : Reg) (imm : ℕ) (acc : Reg) : Checked Reg := do
  let p ← maddubsEpi16 (blendEpi32 170 v0123 (shuffleEpi32 177 v4567)) (shuffleEpi32 imm lhs)
  addEpi16 acc p

/-- The line that takes the second one. -/
def oddLine (v0123 v4567 lhs : Reg) (imm : ℕ) (acc : Reg) : Checked Reg := do
  let p ← maddubsEpi16 (blendEpi32 170 (shuffleEpi32 177 v0123) v4567) (shuffleEpi32 imm lhs)
  addEpi16 acc p

/-- The eight lines of a sub-block: `iacc_0` and `iacc_1` before their scales. -/
def lines (v0123 v4567 : ℕ → Reg) (lhs0 lhs1 : Reg) : Checked Reg := do
  let acc ← evenLine (v0123 0) (v4567 0) lhs0 0 fun _ => 0
  let acc ← oddLine (v0123 0) (v4567 0) lhs0 85 acc
  let acc ← evenLine (v0123 1) (v4567 1) lhs0 170 acc
  let acc ← oddLine (v0123 1) (v4567 1) lhs0 255 acc
  let acc ← evenLine (v0123 2) (v4567 2) lhs1 0 acc
  let acc ← oddLine (v0123 2) (v4567 2) lhs1 85 acc
  let acc ← evenLine (v0123 3) (v4567 3) lhs1 170 acc
  oddLine (v0123 3) (v4567 3) lhs1 255 acc

variable (wblk : BlockQ4Kx8) (ablk : BlockQ8K)

/-- `raw_0123_c` -/
def raw0123 (sb c : ℕ) : Reg := loadBytes wblk.qs (sb * 256 + 64 * c)

/-- `raw_4567_c` -/
def raw4567 (sb c : ℕ) : Reg := loadBytes wblk.qs (sb * 256 + (64 * c + 32))

/-- `lhs_00`, `lhs_01`, `lhs_10` and `lhs_11`, at offsets 0, 16, 32 and 48. -/
def lhs (sb off : ℕ) : Reg :=
  let v := loadBytes ablk.qs (sb * 64 + off)
  permute2f128 0 v v

/-- `mas_0` and `mas_1`, from the scales at `24 * sb` and `12 + 24 * sb`. -/
def mas (off : ℕ) : Reg :=
  let utmp := unpackScales fun k => loadBytes wblk.scales off k
  setEpi32 (utmp 3) (utmp 2) (utmp 1) (utmp 0)

/-- `iacc_sb` -/
def iaccSb (sb : ℕ) : Checked Reg := do
  let low (v : Reg) : Reg := andSi256 v m4b
  let high (v : Reg) : Reg := andSi256 (srliEpi16 4 v) m4b
  let scales0 := cvtepu8Epi16 (shuffleEpi8 (mas wblk (24 * sb)) scalemask)
  let scales1 := cvtepu8Epi16 (shuffleEpi8 (mas wblk (12 + 24 * sb)) scalemask)
  let iacc0 ← lines (fun c => low (raw0123 wblk sb c)) (fun c => low (raw4567 wblk sb c))
    (lhs ablk sb 0) (lhs ablk sb 16)
  let iacc0 ← maddEpi16 iacc0 scales0
  let iacc1 ← lines (fun c => high (raw0123 wblk sb c)) (fun c => high (raw4567 wblk sb c))
    (lhs ablk sb 32) (lhs ablk sb 48)
  let iacc1 ← maddEpi16 iacc1 scales1
  addEpi32 iacc0 iacc1

/-- `iacc_min_sb` -/
def iaccMinSb (q8s : Reg) (sb : ℕ) : Checked Reg :=
  let mins01 := cvtepu8Epi16 (unpackloEpi8 (shuffleEpi32 78 (mas wblk (24 * sb)))
    (shuffleEpi32 78 (mas wblk (12 + 24 * sb))))
  maddEpi16 (shuffleEpi32 0 q8s) mins01

/-! ### A block -/

/-- `q8s` before the loop over sub-blocks. -/
def q8sums : Checked Reg := do
  let q8 := loadWords ablk.bsums
  let lo ← haddEpi16 q8 (extracti128 1 q8)
  return permute2f128 0 lo lo

/-- `iacc_b`, `iacc_min_b` and `q8s` -/
structure Accumulators where
  iaccB : Reg
  iaccMinB : Reg
  q8s : Reg

/-- The loop over pairs of sub-blocks, `sb` of them. -/
def accumulate : ℕ → Checked Accumulators
  | 0 => do
    let q8s ← q8sums ablk
    return { iaccB := fun _ => 0, iaccMinB := fun _ => 0, q8s }
  | sb + 1 => do
    let st ← accumulate sb
    let iacc ← iaccSb wblk ablk sb
    let iaccMin ← iaccMinSb wblk st.q8s sb
    let iaccB ← addEpi32 st.iaccB iacc
    let iaccMinB ← addEpi32 st.iaccMinB iaccMin
    return { iaccB, iaccMinB, q8s := bsrliEpi128 4 st.q8s }

/-- A block's `iacc_b` and `iacc_min_b`. -/
def blockAccumulators : Checked Accumulators := accumulate wblk ablk 4

/-! ### The rows -/

/-- What `_mm256_cvtph_ps` makes of a half. An infinity or NaN is no number, and read as zero. -/
def halfValue (bits : BitVec 16) : ℚ :=
  let sign : ℕ := bits.toNat / 2 ^ 15
  let exp : ℕ := bits.toNat / 2 ^ 10 % 2 ^ 5
  let frac : ℕ := bits.toNat % 2 ^ 10
  (-1 : ℚ) ^ sign *
    if exp = 0 then (frac : ℚ) * (2 : ℚ) ^ (-24 : ℤ)
    else if exp = 31 then 0
    else ((2 ^ 10 + frac : ℕ) : ℚ) * (2 : ℚ) ^ ((exp : ℤ) - 25)

def cvtphPs (v : Reg) (i : ℕ) : ℚ := halfValue (word16 v i)

/-- `acc_row` and `acc_min_rows` -/
structure Rows where
  accRow : ℕ → ℚ
  accMinRows : ℕ → ℚ

/-- What a block adds. -/
def addBlock (acc : Accumulators) (st : Rows) : Rows :=
  let colScale := cvtphPs (shuffleEpi8 (loadWords wblk.d) deltamask)
  let colDmin := cvtphPs (loadWords wblk.dmin)
  { accRow := fun i => int32 acc.iaccB i * (colScale i * ablk.d) + st.accRow i
    accMinRows := fun i => int32 acc.iaccMinB i * (colDmin i * ablk.d) + st.accMinRows i }

/-- The loop over blocks. -/
def rowsOf (blocks : List (BlockQ4Kx8 × BlockQ8K)) : Checked Rows :=
  blocks.foldlM (fun st blk => do
    let acc ← blockAccumulators blk.1 blk.2
    return addBlock blk.1 blk.2 acc st) { accRow := fun _ => 0, accMinRows := fun _ => 0 }

/-- `gemv_q4_k_8x8_q8_k_avx2`, unless the lengths differ. -/
def gemvQ4K8x8Q8KAvx2 (weights : List BlockQ4Kx8) (activation : List BlockQ8K) :
    Option (Checked (Fin 8 → ℚ)) :=
  if weights.length = activation.length then
    some do
      let st ← rowsOf (weights.zip activation)
      return fun r => st.accRow (finalpermutemask r) - st.accMinRows r
  else none

end Zllm.Candle.Avx2Kernel
