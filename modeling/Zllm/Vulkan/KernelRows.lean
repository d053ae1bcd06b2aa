import Zllm.Gpu.KernelRows
import Zllm.Vulkan.Kernels

/-!
# The raw-Vulkan kernels on rows

What a dispatch does to the rows of its buffers, in terms of the decoder layer's operations. The
three attention kernels of decoding take the keys at once, in blocks, or in blocks of blocks, and
are one softmax average.
-/

namespace Zllm.Vulkan

open Finset Tile Loader Llama Softmax
open Gpu (Buf succ_lt_of_even cut_act)

/-- Rows of `cols` elements in a buffer. -/
noncomputable def weightRows (values : List ℚ) (cols row k : ℕ) : ℝ :=
  element values (row * cols + k)

/-! ### Projections -/

section OneRow

variable {n nb heads hd : ℕ} {values : List ℚ} {x outp : Buf}

theorem rowDot_eq {row : ℕ} (hrow : row < n) :
    rowDot values nb x row =
      project n (256 * nb) (weightRows values (256 * nb)) (cut (256 * nb) x) row := by
  rw [project, cut_apply hrow]
  refine sum_congr rfl fun k hk => ?_
  rw [cut_apply (mem_range.mp hk)]
  rfl

theorem cut_matvec :
    cut n (matvec n nb values false x outp) =
      project n (256 * nb) (weightRows values (256 * nb)) (cut (256 * nb) x) := by
  rw [matvec, cut_writeAt]
  refine cut_congr fun row hrow => ?_
  rw [if_neg (by decide), rowDot_eq hrow, project, cut_apply hrow]

theorem cut_matvec_acc :
    cut n (matvec n nb values true x outp) =
      add n (cut n outp)
        (project n (256 * nb) (weightRows values (256 * nb)) (cut (256 * nb) x)) := by
  rw [matvec, cut_writeAt]
  refine cut_congr fun row hrow => ?_
  rw [if_pos rfl, rowDot_eq hrow, cut_apply hrow]

/-- Pairs of rows are pairs of dimensions, head after head. -/
theorem cut_matvecRope (heven : Even hd) (c s : Buf) :
    cut (heads * hd) (matvecRope (heads * hd) nb (hd / 2) values c s x outp) =
      rotate heads hd c s
        (project (heads * hd) (256 * nb) (weightRows values (256 * nb)) (cut (256 * nb) x)) := by
  obtain ⟨half, hhalf⟩ := heven.two_dvd
  have hwhole : 2 * (heads * hd / 2) = heads * hd := by
    rw [hhalf, mul_left_comm, Nat.mul_div_cancel_left _ (by norm_num)]
  rw [matvecRope, hwhole, cut_writeAt]
  refine cut_congr fun i hi => ?_
  have hpair : i / 2 % (hd / 2) = i % hd / 2 := by
    rw [hhalf, Nat.mul_div_cancel_left _ (by norm_num), Nat.mod_mul_right_div_self]
  have hparity : i % hd % 2 = i % 2 := Nat.mod_mod_of_dvd i heven.two_dvd
  simp only [hpair, hparity]
  split_ifs with hfirst
  · rw [← rowDot_eq hi, ← rowDot_eq (succ_lt_of_even heven hi (hparity.trans hfirst))]
  · rw [← rowDot_eq hi, ← rowDot_eq (show i - 1 < heads * hd by omega)]

theorem cut_siluMul (gate up h : Buf) :
    cut n (siluMul n gate up h) = swiglu n (cut n gate) (cut n up) := by
  rw [siluMul, cut_writeAt, cut_act]

theorem row_kvWrite (pos : ℕ) (src dst : Buf) (i : ℕ) :
    row n (kvWrite n (pos * n) src dst) i = if i = pos then cut n src else row n dst i :=
  row_writeAt n pos src dst i

end OneRow

/-! ### A few rows -/

section Rows

variable {n m cols nb r : ℕ} {x y outp : Buf}

end Rows

/-! ### Attention -/

/-- All keys at once are each head's average. -/
theorem sdpaDecode_average {nHead nKv hd seqLen i : ℕ} {q kc vc : Buf} (hhd : 0 < hd)
    (hwidth : hd ≤ 64) (hi : i < nHead * hd) (outp : Buf) :
    sdpaDecode nHead nKv hd q kc vc seqLen outp i =
      average (range seqLen) (score nHead nKv hd q kc (i / hd)) (value nHead nKv hd vc (i / hd))
        (i % hd) := by
  refine (if_pos ⟨hi, (Nat.mod_lt i hhd).trans_le hwidth⟩).trans ?_
  exact (Partial.gather_holds _ _ _ _).average_eq _

section Attention

variable {S : Shape} (hvalid : S.Valid) {q kc vc : Buf} {pos h : ℕ}

theorem kv_address (t h e : ℕ) :
    (t * S.nKvHead + h / (S.nHead / S.nKvHead)) * S.headDim + e =
      t * S.kvDim + (S.kvHead h * S.headDim + e) := by
  rw [Shape.kvDim, Shape.kvHead]
  ring

include hvalid

theorem score_eq (hh : h < S.nHead) (t : ℕ) :
    score S.nHead S.nKvHead S.headDim q kc h t =
      S.score (cut S.attnDim q) (row S.kvDim kc t) h := by
  rw [score, Shape.score, mul_one_div]
  congr 1
  refine sum_congr rfl fun e he => ?_
  have he := mem_range.mp he
  have hq : h * S.headDim + e < S.attnDim := index_lt hh he
  have hk : S.kvHead h * S.headDim + e < S.kvDim := index_lt (hvalid.kvHead_lt hh) he
  rw [kv_address, cut_apply hq, row_apply hk]

theorem value_eq (hh : h < S.nHead) (t : ℕ) {d : ℕ} (hd : d < S.headDim) :
    value S.nHead S.nKvHead S.headDim vc h t d =
      row S.kvDim vc t (S.kvHead h * S.headDim + d) := by
  have hv : S.kvHead h * S.headDim + d < S.kvDim := index_lt (hvalid.kvHead_lt hh) hd
  rw [value, kv_address, row_apply hv]

/-- Whatever brings out each head's average brings out grouped attention. -/
theorem cut_average {f : ℕ → ℝ}
    (hf : ∀ i < S.attnDim, f i = average (range (pos + 1))
      (score S.nHead S.nKvHead S.headDim q kc (i / S.headDim))
      (value S.nHead S.nKvHead S.headDim vc (i / S.headDim)) (i % S.headDim)) :
    cut S.attnDim f =
      S.attend pos (cut S.attnDim q) fun t => (row S.kvDim kc t, row S.kvDim vc t) := by
  refine cut_congr fun i hi => ?_
  have hh : i / S.headDim < S.nHead := by
    rwa [Nat.div_lt_iff_lt_mul hvalid.headDim_pos]
  rw [hf i hi]
  refine average_congr (fun t _ => score_eq hvalid hh t) fun t _ => ?_
  exact value_eq hvalid hh t (Nat.mod_lt i hvalid.headDim_pos)

theorem cut_sdpaDecode (hwidth : S.headDim ≤ 64) (outp : Buf) :
    cut S.attnDim (sdpaDecode S.nHead S.nKvHead S.headDim q kc vc (pos + 1) outp) =
      S.attend pos (cut S.attnDim q) fun t => (row S.kvDim kc t, row S.kvDim vc t) :=
  cut_average hvalid fun _ hi => sdpaDecode_average hvalid.headDim_pos hwidth hi outp

end Attention

/-! ### Attention in blocks -/

section Flash

variable {nHead nKv hd grid groups h g : ℕ} {part : ℕ → ℕ → Partial} {b : Buf}

/-- A stored partial is read back as far as its dimensions. -/
theorem loadPartial_storeGrid (hh : h < nHead) (hg : g < groups) (hgrid : grid = groups) :
    loadPartial hd (storeGrid nHead hd groups grid part b) (h * groups + g) =
      (part h g).narrow hd := by
  have hread : ∀ j < hd + 2,
      storeGrid nHead hd groups grid part b ((h * groups + g) * (hd + 2) + j) =
        storePartial hd (part h g) j := by
    intro j hj
    refine (row_apply hj).symm.trans ?_
    rw [storeGrid, row_writeRows, zero_add, if_pos ⟨Nat.zero_le _, index_lt hh hg⟩,
      Nat.sub_zero, cut_apply hj, index_div hg, index_mod hg, if_pos (hgrid ▸ hg)]
  rw [loadPartial, add_assoc, hread hd (by omega), hread (hd + 1) (by omega)]
  have hmx : storePartial hd (part h g) hd = (part h g).mx := by simp [storePartial]
  have hl : storePartial hd (part h g) (hd + 1) = (part h g).l := by simp [storePartial]
  have hav : cut hd (fun d => storeGrid nHead hd groups grid part b
      ((h * groups + g) * (hd + 2) + d)) = cut hd (part h g).av := by
    refine cut_congr fun d hd' => ?_
    rw [hread d (by omega)]
    exact if_pos hd'
  rw [hmx, hl, hav]
  rfl

variable {q kc vc : Buf} {seqLen blk : ℕ}

theorem blockTwoPass_holds :
    (blockTwoPass nHead nKv hd q kc vc seqLen h blk).Holds (block flashBlock seqLen blk)
      (score nHead nKv hd q kc h) (value nHead nKv hd vc h) :=
  Partial.gather_holds _ _ _ _

theorem blockOnline_holds (hblk : blk * flashBlock < seqLen) :
    (blockOnline nHead nKv hd q kc vc seqLen h blk).Holds (block flashBlock seqLen blk)
      (score nHead nKv hd q kc h) (value nHead nKv hd vc h) := by
  have hstart : blk * flashBlock ≤ min (blk * flashBlock + flashBlock) seqLen :=
    le_min (Nat.le_add_right _ _) hblk.le
  have honline := (online_holds (-1e30)
    (fun i => score nHead nKv hd q kc h (blk * flashBlock + i))
    (fun i => value nHead nKv hd vc h (blk * flashBlock + i))
    (min (blk * flashBlock + flashBlock) seqLen - blk * flashBlock)).shift
  rwa [Nat.add_sub_cancel' hstart] at honline

/-- Every record of the partials' buffer holds its block's sums. -/
theorem flashPartial_holds (hh : h < nHead) (hblk : blk < seqLen ⌈/⌉ flashBlock)
    (hgrid : grid = seqLen ⌈/⌉ flashBlock) :
    (loadPartial hd (flashPartial nHead nKv hd q kc vc seqLen grid b)
        (h * (seqLen ⌈/⌉ flashBlock) + blk)).Holds (block flashBlock seqLen blk)
      (score nHead nKv hd q kc h) fun t => cut hd (value nHead nKv hd vc h t) := by
  have hstart : blk * flashBlock < seqLen := by
    rwa [mul_comm, ← not_le, ← ceilDiv_le_iff_le_mul (show 0 < flashBlock by decide), not_le]
  rw [flashPartial, loadPartial_storeGrid hh hblk hgrid]
  refine Partial.Holds.narrow ?_ hd
  split_ifs
  · exact blockTwoPass_holds
  · exact blockOnline_holds hstart

variable {nIn chunk : ℕ} {inp : Buf} {keysOf : ℕ → Finset ℕ} {scores : ℕ → ℝ}
  {values : ℕ → ℕ → ℝ}

theorem combineGroup_holds
    (hinp : ∀ b ∈ block chunk nIn g, (loadPartial hd inp (h * nIn + b)).Holds (keysOf b) scores
      values)
    (hdisjoint : (block chunk nIn g : Set ℕ).PairwiseDisjoint keysOf) :
    (combineGroup hd nIn chunk inp h g).Holds ((block chunk nIn g).biUnion keysOf) scores values :=
  Partial.merge_holds _ hinp hdisjoint

variable {nBlocks nSuper : ℕ} {partBuf superp : Buf}
  (hpart : ∀ b < nBlocks, (loadPartial hd partBuf (h * nBlocks + b)).Holds
    (block flashBlock seqLen b) scores fun t => cut hd (values t))
  (hsuper : nSuper = nBlocks ⌈/⌉ superBlocks) (hh : h < nHead)

include hpart hsuper hh

/-- A super-partial holds the sums of its blocks. -/
theorem combineSuper_holds (hg : g < nSuper) :
    (loadPartial hd (combineSuper nHead hd nBlocks superBlocks partBuf nSuper superp)
        (h * nSuper + g)).Holds
      ((block superBlocks nBlocks g).biUnion (block flashBlock seqLen)) scores
      fun t => cut hd (values t) := by
  have hgroup := combineGroup_holds
    (fun b (hb : b ∈ block superBlocks nBlocks g) => hpart b (mem_block.mp hb).2.2)
    (pairwiseDisjoint_block flashBlock seqLen _)
  have hnarrow := hgroup.narrow hd
  simp only [cut_cut] at hnarrow
  rw [combineSuper, ← hsuper, loadPartial_storeGrid hh hg rfl]
  exact hnarrow

/-- One group of all super-partials holds the sums of all keys. -/
theorem combineFinal_holds (hblocks : nBlocks = seqLen ⌈/⌉ flashBlock) :
    (combineGroup hd nSuper nSuper
        (combineSuper nHead hd nBlocks superBlocks partBuf nSuper superp) h 0).Holds
      (range seqLen) scores fun t => cut hd (values t) := by
  have hall : block nSuper nSuper 0 = range nSuper := by
    ext g
    simp [mem_block]
  have hinp : ∀ g ∈ block nSuper nSuper 0,
      (loadPartial hd (combineSuper nHead hd nBlocks superBlocks partBuf nSuper superp)
        (h * nSuper + g)).Holds ((block superBlocks nBlocks g).biUnion (block flashBlock seqLen))
        scores fun t => cut hd (values t) :=
    fun g hg => combineSuper_holds hpart hsuper hh (mem_block.mp hg).2.2
  have hgroup := combineGroup_holds hinp
    (pairwiseDisjoint_blocks superBlocks nBlocks flashBlock seqLen _)
  rwa [hall, ← biUnion_biUnion, hsuper, biUnion_block (by decide), hblocks,
    biUnion_block (by decide), ← hblocks, ← hsuper] at hgroup

omit hh in
/-- Keys in blocks and blocks in groups are the head's average. -/
theorem combineFinal_average {i : ℕ} (hhd : 0 < hd) (hi : i < nHead * hd) (hhead : h = i / hd)
    (hblocks : nBlocks = seqLen ⌈/⌉ flashBlock) (outp : Buf) :
    combineFinal nHead hd nSuper nSuper
        (combineSuper nHead hd nBlocks superBlocks partBuf nSuper superp) outp i =
      average (range seqLen) scores values (i % hd) := by
  have hh : h < nHead := by
    rwa [hhead, Nat.div_lt_iff_lt_mul hhd]
  refine (writeAt_zero_apply hi).trans ?_
  rw [← hhead, mul_one_div, (combineFinal_holds hpart hsuper hh hblocks).average_eq]
  refine average_congr (fun _ _ => rfl) fun t _ => ?_
  rw [cut_apply (Nat.mod_lt i hhd)]

end Flash

theorem cut_flash {S : Shape} (hvalid : S.Valid) {q kc vc : Buf} {pos nBlocks nSuper : ℕ}
    (hblocks : nBlocks = (pos + 1) ⌈/⌉ flashBlock) (hsuper : nSuper = nBlocks ⌈/⌉ superBlocks)
    (part superp outp : Buf) :
    cut S.attnDim (combineFinal S.nHead S.headDim nSuper nSuper
        (combineSuper S.nHead S.headDim nBlocks superBlocks
          (flashPartial S.nHead S.nKvHead S.headDim q kc vc (pos + 1) nBlocks part) nSuper superp)
        outp) =
      S.attend pos (cut S.attnDim q) fun t => (row S.kvDim kc t, row S.kvDim vc t) := by
  refine cut_average hvalid fun i hi => ?_
  have hh : i / S.headDim < S.nHead := by
    rwa [Nat.div_lt_iff_lt_mul hvalid.headDim_pos]
  refine combineFinal_average (fun b hb => ?_) hsuper hvalid.headDim_pos hi rfl hblocks outp
  rw [hblocks] at hb ⊢
  exact flashPartial_holds hh hb rfl

end Zllm.Vulkan
