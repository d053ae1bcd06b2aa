import Mathlib.Data.List.ProdSigma
import Zllm.Gpu.QuantAgrees

/-!
# The quantized matrix products

A workgroup of the tiled shaders has a row of the weight in shared memory, 256 columns at a time,
and its threads carry the sums of up to eight rows of activations each. The shader for few rows has
the activations there instead, and a thread for each row of the weight. Each of them, and the
matvecs, store every element of the product once.
-/

namespace Zllm.Gpu.Quant

open Finset Bytes
open Workgroup (Covers Leaves grid perform reduce strided)

/-! ### Shared memory -/

/-- After a round that stores each of `n` values once, shared memory has them. -/
theorem staged_apply {stage : ℕ → ℕ → List (ℕ × ℝ)} {c n : ℕ} {v : ℕ → ℝ}
    (hstage : ((List.range 64).flatMap (stage c)).Perm ((List.range n).map fun k => (k, v k)))
    {k : ℕ} (hk : k < n) : staged stage (c + 1) k = v k := by
  have hcovers : Covers ((List.range 64).flatMap (stage c)) {k | k ∈ List.range n} (fun k => k) v :=
    Workgroup.covers_of_perm hstage fun _ _ _ _ heq => heq
  exact hcovers.apply (Workgroup.leaves_perform _ _) (List.mem_range.mpr hk)

section Stages

variable {bytes : List Byte} {nb n chunk : ℕ} {p : GemmParams}

theorem chunk_width (hcols : p.nCols = nb * 256) (hchunk : chunk < nb) :
    min 256 (p.nCols - chunk * 256) = 256 := by
  omega

/-- A chunk of a Q4_K row, a thread for each sub-block. -/
theorem q4kStage_perm (hnb : p.nb = nb) (hcols : p.nCols = nb * 256) (hchunk : chunk < nb) :
    ((List.range 64).flatMap (q4kStage p (wordsOf fun i => bytes.getD i 0) n chunk)).Perm
      ((List.range 256).map fun k => (k, (dequant .q4k bytes nb n (chunk * 256 + k) : ℝ))) := by
  subst hnb
  have hsubs : chunk * 256 / 32 = chunk * 8 := by omega
  have hrows :
      (List.range 256).map (fun k => (k, (dequant .q4k bytes p.nb n (chunk * 256 + k) : ℝ))) =
      (List.range 8).flatMap fun sg => (List.range 8).flatMap fun w =>
        (List.range 4).map fun bsel => (sg * 32 + (w * 4 + bsel),
          (dequant .q4k bytes p.nb n (chunk * 256 + (sg * 32 + (w * 4 + bsel))) : ℝ)) := by
    rw [List.map_eq_flatMap]
    refine (Workgroup.flatMap_rows 32 8 _).trans (List.flatMap_congr fun sg _ => ?_)
    refine (Workgroup.flatMap_rows 4 8 _).trans (List.flatMap_congr fun w _ => ?_)
    rw [List.map_eq_flatMap]
  unfold q4kStage
  simp only [chunk_width hcols hchunk, hsubs]
  rw [hrows]
  refine (Workgroup.perm_flatMap_strided (by decide) 8 _).trans (.of_eq ?_)
  refine List.flatMap_congr fun sg _ => List.flatMap_congr fun w hw => ?_
  refine List.map_congr_left fun bsel hbsel => Prod.ext (add_assoc _ _ _) (congrArg Rat.cast ?_)
  have hcol : chunk * 256 + (sg * 32 + (w * 4 + bsel)) =
      (chunk * 8 + sg) * 32 + (w * 4 + bsel) := by
    ring
  rw [hcol]
  exact q4kElement_eq bytes p.nb n (chunk * 8 + sg) (List.mem_range.mp hw) (List.mem_range.mp hbsel)

/-- And of a Q6_K row, a thread for each element. -/
theorem q6kStage_perm {nRows : ℕ} {wt : ResidentQ6K} (hup : uploadQ6k bytes nRows nb = some wt)
    (hnb : p.nb = nb) (hcols : p.nCols = nb * 256) (hchunk : chunk < nb) :
    ((List.range 64).flatMap (q6kStage p wt n chunk)).Perm
      ((List.range 256).map fun k => (k, (dequant .q6k bytes nb n (chunk * 256 + k) : ℝ))) := by
  subst hnb
  unfold q6kStage
  simp only [chunk_width hcols hchunk, List.map_eq_flatMap]
  refine (Workgroup.perm_flatMap_strided (by decide) 256 _).trans (.of_eq ?_)
  refine List.flatMap_congr fun e _ => ?_
  rw [q6kWeight_eq hup]
  rfl

end Stages

/-! ### The threads' sums -/

section Dots

variable {p : GemmParams}

/-- The loop of eight columns at a time takes in all of a chunk. -/
theorem chunkDot_eq {nb chunk : ℕ} (hcols : p.nCols = nb * 256) (hchunk : chunk < nb) (wrow x : Buf)
    (m : ℕ) :
    chunkDot p wrow x chunk m =
      ∑ k ∈ range 256, wrow k * x (m * p.nCols + (chunk * 256 + k)) := by
  have hsteps : strided 8 256 0 = (List.range 32).map fun c => c * 8 := by
    decide
  simp only [chunkDot, chunk_width hcols hchunk, hsteps, List.map_map]
  rw [← List.sum_toFinset _ List.nodup_range, List.toFinset_range]
  refine Eq.trans ?_ (Workgroup.sum_rows 8 32 _).symm
  refine sum_congr rfl fun c _ => sum_congr rfl fun i _ => ?_
  dsimp only
  have haddr : m * p.nCols + chunk * 256 + c * 8 + i =
      m * p.nCols + (chunk * 256 + (c * 8 + i)) := by
    ring
  rw [haddr]

theorem length_addDots (dot : ℕ → ℝ) (rows : List ℕ) (acc : List ℝ) :
    (addDots dot rows acc).length = acc.length := by
  rw [addDots]
  generalize rows.zipIdx = marks
  induction marks generalizing acc with
  | nil => rfl
  | cons mi marks ih => rw [List.foldl_cons, ih, List.length_modify]

theorem getD_modify_add {acc : List ℝ} {i : ℕ} (hi : i < acc.length) (place : ℕ) (v : ℝ) :
    (acc.modify place (· + v)).getD i 0 = acc.getD i 0 + if place = i then v else 0 := by
  rw [List.getD_eq_getElem?_getD, List.getElem?_modify, List.getD_eq_getElem?_getD,
    List.getElem?_eq_getElem hi]
  split_ifs
  · simp
  · simp

/-- A sum takes in the dot of the row that is at its place. -/
theorem getD_foldl_modify (dot : ℕ → ℝ) (rows : List ℕ) (first : ℕ) {acc : List ℝ} {i : ℕ}
    (hi : i < acc.length) :
    ((rows.zipIdx first).foldl (fun acc mi => acc.modify mi.2 (· + dot mi.1)) acc).getD i 0 =
      acc.getD i 0 + if first ≤ i then (rows[i - first]?).elim 0 dot else 0 := by
  induction rows generalizing first acc with
  | nil => simp
  | cons m rows ih =>
    have hlength : i < (acc.modify first (· + dot m)).length := by rwa [List.length_modify]
    rw [List.zipIdx_cons, List.foldl_cons, ih (first + 1) hlength, getD_modify_add hi]
    rcases lt_trichotomy i first with hlt | rfl | hgt
    · rw [if_neg (by omega), if_neg (by omega), if_neg (by omega), add_zero]
    · rw [if_pos rfl, if_neg (by omega), if_pos le_rfl, Nat.sub_self, add_zero]
      rfl
    · rw [if_neg (by omega), if_pos (Nat.succ_le_of_lt hgt), if_pos hgt.le, add_zero,
        show i - first = i - (first + 1) + 1 by omega, List.getElem?_cons_succ]

variable {x : Buf} {t : ℕ}

theorem length_accAfter (wrow : ℕ → Buf) (c : ℕ) : (accAfter p wrow x t c).length = 8 := by
  induction c with
  | zero => rw [accAfter, List.length_replicate]
  | succ c ih => rw [accAfter, length_addDots, ih]

/-- Sum `i` of a thread is that of its row `i`, over the chunks so far. -/
theorem getD_accAfter (wrow : ℕ → Buf) (c : ℕ) {i : ℕ} (hi : i < 8) (hm : t + 64 * i < p.mRows) :
    (accAfter p wrow x t c).getD i 0 =
      ∑ chunk ∈ range c, chunkDot p (wrow (chunk + 1)) x chunk (t + 64 * i) := by
  induction c with
  | zero => interval_cases i <;> rfl
  | succ c ih =>
    have hlength : i < (accAfter p wrow x t c).length := by rwa [length_accAfter]
    rw [accAfter, addDots, getD_foldl_modify _ _ 0 hlength, ih, if_pos (Nat.zero_le i),
      Nat.sub_zero, Workgroup.getElem?_strided (by decide), if_pos hm, Finset.sum_range_succ]
    rfl

end Dots

/-! ### Workgroups -/

section Workgroups

variable {dtype : QuantType} {bytes : List Byte} {nb : ℕ} {p : GemmParams} {x outp : Buf}

/-- A row of the product, chunk after chunk. -/
theorem dotRow_chunks (n : ℕ) (xv : ℕ → ℝ) :
    ∑ chunk ∈ range nb, ∑ k ∈ range 256,
        (dequant dtype bytes nb n (chunk * 256 + k) : ℝ) * xv (chunk * 256 + k) =
      dotRow dtype bytes nb n xv :=
  (Workgroup.sum_rows 256 nb fun k => (dequant dtype bytes nb n k : ℝ) * xv k).symm

/-- A workgroup of the tiled shaders stores its column of the product. -/
theorem gemmRow_perm {stage : ℕ → ℕ → ℕ → List (ℕ × ℝ)} (hcols : p.nCols = nb * 256)
    (hm : p.mRows ≤ 512) {n : ℕ} (hrow : n < p.nRows)
    (hstage : ∀ chunk < nb, ((List.range 64).flatMap (stage n chunk)).Perm
      ((List.range 256).map fun k => (k, (dequant dtype bytes nb n (chunk * 256 + k) : ℝ)))) :
    (gemmRow p stage x outp n 0).Perm ((List.range p.mRows).map fun m =>
      (m * p.nRows + n, accumulated p.acc (outp (m * p.nRows + n))
        (dotRow dtype bytes nb n fun k => x (m * p.nCols + k)))) := by
  have hchunks : (p.nCols + 256 - 1) / 256 = nb := by omega
  have hacc {t i : ℕ} (hi : t + 64 * i < p.mRows) :
      (accAfter p (staged (stage n)) x t nb).getD i 0 =
        dotRow dtype bytes nb n fun k => x ((t + 64 * i) * p.nCols + k) := by
    rw [getD_accAfter _ _ (by omega) hi, ← dotRow_chunks]
    refine sum_congr rfl fun chunk hchunk => ?_
    have hchunk := mem_range.mp hchunk
    rw [chunkDot_eq hcols hchunk]
    refine sum_congr rfl fun k hk => ?_
    rw [staged_apply (hstage chunk hchunk) (mem_range.mp hk)]
  have hshare (t : ℕ) : (strided 64 p.mRows t).zipIdx.map (fun mi =>
      (mi.1 * p.nRows + n, if p.acc = 1
        then outp (mi.1 * p.nRows + n) + (accAfter p (staged (stage n)) x t nb).getD mi.2 0
        else (accAfter p (staged (stage n)) x t nb).getD mi.2 0)) =
      (strided 64 p.mRows t).map fun m =>
        (m * p.nRows + n, accumulated p.acc (outp (m * p.nRows + n))
          (dotRow dtype bytes nb n fun k => x (m * p.nCols + k))) := by
    apply List.ext_getElem?
    intro i
    rw [List.getElem?_map, List.getElem?_zipIdx, List.getElem?_map,
      Workgroup.getElem?_strided (by decide)]
    by_cases hi : t + 64 * i < p.mRows
    · rw [if_pos hi]
      simp only [Option.map_some, zero_add, ite_acc, hacc hi]
    · rw [if_neg hi]
      rfl
  simp only [gemmRow, zero_mul, add_zero, if_neg (not_le.mpr hrow), hchunks, hshare,
    List.map_eq_flatMap]
  exact Workgroup.perm_flatMap_strided (by decide) p.mRows _

/-- What is staged of the activations for a block. -/
theorem skinnyStage_perm (b : ℕ) :
    ((List.range 64).flatMap (skinnyStage p x b)).Perm ((List.range (min p.mRows 8 * 256)).map
      fun idx => (idx, x (idx / 256 * p.nCols + b * 256 + idx % 256))) := by
  unfold skinnyStage
  simp only [List.map_eq_flatMap]
  exact Workgroup.perm_flatMap_strided (by decide) _ _

/-- A thread's sum for row `m` of the activations, over one block. -/
theorem skinnyDot_eq (hnb : p.nb = nb) (col b : ℕ) {m : ℕ} (hm : m < min p.mRows 8) :
    skinnyDot p (wordsOf fun i => bytes.getD i 0) (staged (skinnyStage p x) (b + 1)) col b m =
      ∑ k ∈ range 256, (dequant .q4k bytes nb col (b * 256 + k) : ℝ) *
        x (m * p.nCols + (b * 256 + k)) := by
  subst hnb
  refine Eq.trans ?_ (Workgroup.sum_rows 32 8 _).symm
  refine sum_congr rfl fun sub hsub => Eq.trans ?_ (Workgroup.sum_rows 4 8 _).symm
  refine sum_congr rfl fun w hw => sum_congr rfl fun bsel hbsel => ?_
  have hsub := mem_range.mp hsub
  have hw := mem_range.mp hw
  have hbsel := mem_range.mp hbsel
  have hplace : (b * 8 + sub) / 8 = b ∧ (b * 8 + sub) % 8 = sub := by omega
  have hweight := q4kElement_eq bytes p.nb col (b * 8 + sub) hw hbsel
  rw [hplace.1, hplace.2] at hweight
  have hlt : m * 256 + (sub * 32 + w * 4 + bsel) < min p.mRows 8 * 256 :=
    Tile.index_lt hm (by omega)
  dsimp only
  rw [staged_apply (skinnyStage_perm b) hlt, Tile.index_div (by omega), Tile.index_mod (by omega),
    hweight]
  congr 2
  · congr 1
    ring
  · ring

/-- A thread of the shader for few rows stores its column of the product. -/
theorem q4kSkinny_thread (hnb : p.nb = nb) (hm : p.mRows ≤ 8) {col m : ℕ} (hlt : m < p.mRows) :
    ∑ b ∈ range p.nb, skinnyDot p (wordsOf fun i => bytes.getD i 0)
        (staged (skinnyStage p x) (b + 1)) col b m =
      dotRow .q4k bytes nb col fun k => x (m * p.nCols + k) := by
  subst hnb
  rw [← dotRow_chunks]
  exact sum_congr rfl fun b _ => skinnyDot_eq rfl col b (lt_min hlt (hlt.trans_le hm))

end Workgroups

/-! ### Dispatches -/

/-- The stores are those of a product of `mRows` rows of activations with a weight of `nRows`: each
of its elements once, and what the buffer then holds. -/
structure WritesProduct (dtype : QuantType) (bytes : List Byte) (nb nRows mRows acc outBase : ℕ)
    (xv : ℕ → ℕ → ℝ) (outp : Buf) (stores : List (ℕ × ℝ)) : Prop where
  once : (stores.map Prod.fst).Perm (List.range' outBase (mRows * nRows))
  written : ∀ outp', Leaves stores outp outp' → ∀ m < mRows, ∀ n < nRows,
    outp' (outBase + (m * nRows + n)) =
      (if acc = 1 then outp (outBase + (m * nRows + n)) else 0) +
        ∑ k ∈ range (nb * 256), dequant dtype bytes nb n k * xv m k

section Dispatches

variable {dtype : QuantType} {bytes : List Byte} {nb nRows : ℕ} {w : ResidentWeight}

theorem WritesProduct.of_perm {mRows acc outBase : ℕ} {xv : ℕ → ℕ → ℝ} {outp : Buf}
    {stores : List (ℕ × ℝ)}
    (hperm : stores.Perm ((List.range nRows).flatMap fun n => (List.range mRows).map fun m =>
      (outBase + (m * nRows + n), accumulated acc (outp (outBase + (m * nRows + n)))
        (dotRow dtype bytes nb n (xv m))))) :
    WritesProduct dtype bytes nb nRows mRows acc outBase xv outp stores := by
  let addr (i : ℕ × ℕ) : ℕ := outBase + (i.2 * nRows + i.1)
  have hcells : stores.Perm ((List.range nRows ×ˢ List.range mRows).map fun i =>
      (addr i, accumulated acc (outp (addr i)) (dotRow dtype bytes nb i.1 (xv i.2)))) := by
    refine hperm.trans (.of_eq ?_)
    rw [SProd.sprod, List.instSProd]
    simp only [List.product, List.map_flatMap, List.map_map]
    rfl
  have hmem (i : ℕ × ℕ) : i ∈ List.range nRows ×ˢ List.range mRows ↔ i.1 < nRows ∧ i.2 < mRows := by
    rw [List.mem_product, List.mem_range, List.mem_range]
  have hinj : Set.InjOn addr {i | i ∈ List.range nRows ×ˢ List.range mRows} := by
    intro i hi j hj heq
    have hi := ((hmem i).mp hi).1
    have hj := ((hmem j).mp hj).1
    have heq : i.2 * nRows + i.1 = j.2 * nRows + j.1 := Nat.add_left_cancel heq
    have hrow := congrArg (· / nRows) heq
    have hcol := congrArg (· % nRows) heq
    simp only [Tile.index_div hi, Tile.index_div hj] at hrow
    simp only [Tile.index_mod hi, Tile.index_mod hj] at hcol
    exact Prod.ext hcol hrow
  constructor
  · refine (hcells.map Prod.fst).trans ?_
    rw [List.map_map]
    have hnodup : ((List.range nRows ×ˢ List.range mRows).map addr).Nodup :=
      List.Nodup.map_on (fun i hi j hj => hinj hi hj) (List.nodup_range.product List.nodup_range)
    refine (List.perm_ext_iff_of_nodup hnodup List.nodup_range').mpr fun a => ?_
    rw [List.mem_map, List.mem_range'_1]
    constructor
    · rintro ⟨i, hi, rfl⟩
      have hi := (hmem i).mp hi
      have hlt := Tile.index_lt hi.2 hi.1
      exact ⟨Nat.le_add_right _ _, Nat.add_lt_add_left hlt _⟩
    · rintro ⟨hlow, hhigh⟩
      have hlt : a - outBase < mRows * nRows := by omega
      have hpos : 0 < nRows := Nat.pos_of_mul_pos_left (Nat.zero_lt_of_lt hlt)
      refine ⟨((a - outBase) % nRows, (a - outBase) / nRows),
        (hmem _).mpr ⟨Nat.mod_lt _ hpos, (Nat.div_lt_iff_lt_mul hpos).mpr hlt⟩, ?_⟩
      show outBase + ((a - outBase) / nRows * nRows + (a - outBase) % nRows) = a
      rw [Nat.div_add_mod', Nat.add_sub_cancel' hlow]
  · intro outp' hleaves m hm n hn
    exact (Workgroup.covers_of_perm hcells hinj).apply hleaves ((hmem (n, m)).mpr ⟨hn, hm⟩)

theorem passMatvec_writes (hload : loadW dtype bytes nRows nb = some w) (acc outBase : ℕ)
    (x outp : Buf) :
    WritesProduct dtype bytes nb nRows 1 acc outBase (fun _ => x) outp
      (passMatvec w acc outBase x outp) := by
  apply WritesProduct.of_perm
  rw [passMatvec_eq hload, List.map_eq_flatMap]
  refine .of_eq (List.flatMap_congr fun n _ => ?_)
  simp

theorem gemm_writes {p : GemmParams} {stage : ℕ → ℕ → ℕ → List (ℕ × ℝ)} (hcols : p.nCols = nb * 256)
    (hm : p.mRows ≤ 512) (hgx : p.gx = min p.nRows 65535)
    (hstage : ∀ n, ∀ chunk < nb, ((List.range 64).flatMap (stage n chunk)).Perm
      ((List.range 256).map fun k => (k, (dequant dtype bytes nb n (chunk * 256 + k) : ℝ))))
    (x outp : Buf) :
    WritesProduct dtype bytes nb p.nRows p.mRows p.acc 0 (fun m k => x (m * p.nCols + k)) outp
      (grid p.gx (p.nRows ⌈/⌉ p.gx) (gemmRow p stage x outp)) := by
  apply WritesProduct.of_perm
  have hpos : 0 < p.nRows → 0 < p.gx := fun hpos => hgx ▸ lt_min hpos (by decide)
  have hgrid : grid p.gx (p.nRows ⌈/⌉ p.gx) (gemmRow p stage x outp) =
      (List.range p.nRows).flatMap fun n => gemmRow p stage x outp n 0 := by
    refine Workgroup.grid_of_rows hpos (fun widX widY _ => ?_) fun widX widY hpast => ?_
    · simp only [gemmRow, zero_mul, add_zero]
    · exact if_pos hpast
  rw [hgrid]
  refine List.Perm.flatMap_left _ fun n hn => ?_
  simp only [zero_add]
  exact gemmRow_perm hcols hm (List.mem_range.mp hn) (hstage n)

/-- A grid of the workgroups for few rows, with 64 columns each. -/
theorem skinny_writes {p : GemmParams} (hnb : p.nb = nb) (hm : p.mRows ≤ 8)
    (hgx : p.gx = min (p.nRows ⌈/⌉ 64) 65535) (x outp : Buf) :
    WritesProduct .q4k bytes nb p.nRows p.mRows p.acc 0 (fun m k => x (m * p.nCols + k)) outp
      (grid p.gx ((p.nRows ⌈/⌉ 64) ⌈/⌉ p.gx)
        (q4kSkinny p (wordsOf fun i => bytes.getD i 0) x outp)) := by
  apply WritesProduct.of_perm
  have hpos : 0 < p.nRows ⌈/⌉ 64 → 0 < p.gx := fun hpos => hgx ▸ lt_min hpos (by decide)
  have hpast : ∀ widX widY, p.nRows ⌈/⌉ 64 ≤ widX + widY * p.gx →
      q4kSkinny p (wordsOf fun i => bytes.getD i 0) x outp widX widY = [] := by
    intro widX widY hle
    have hrounded := Workgroup.le_ceilDiv_mul (show 0 < 64 by decide) p.nRows
    rw [q4kSkinny, List.flatMap_eq_nil_iff]
    intro t _
    exact if_pos (by omega)
  have hgrid : grid p.gx ((p.nRows ⌈/⌉ 64) ⌈/⌉ p.gx)
      (q4kSkinny p (wordsOf fun i => bytes.getD i 0) x outp) =
        (List.range (p.nRows ⌈/⌉ 64)).flatMap fun g =>
          q4kSkinny p (wordsOf fun i => bytes.getD i 0) x outp g 0 := by
    refine Workgroup.grid_of_rows hpos (fun widX widY _ => ?_) hpast
    simp only [q4kSkinny, zero_mul, add_zero]
  rw [hgrid]
  have hcolumns : ∀ g, q4kSkinny p (wordsOf fun i => bytes.getD i 0) x outp g 0 =
      (List.range 64).flatMap fun t => if p.nRows ≤ g * 64 + t then [] else
        (List.range p.mRows).map fun m => (0 + (m * p.nRows + (g * 64 + t)),
          accumulated p.acc (outp (0 + (m * p.nRows + (g * 64 + t))))
            (dotRow .q4k bytes nb (g * 64 + t) fun k => x (m * p.nCols + k))) := by
    intro g
    simp only [q4kSkinny, zero_mul, add_zero, zero_add, min_eq_left hm, ite_acc]
    refine List.flatMap_congr fun t _ => ?_
    congr 1
    refine List.map_congr_left fun m hmem => ?_
    rw [q4kSkinny_thread hnb hm (List.mem_range.mp hmem)]
  simp only [hcolumns]
  rw [← Workgroup.flatMap_rows 64 (p.nRows ⌈/⌉ 64) fun col => if p.nRows ≤ col then [] else
    (List.range p.mRows).map fun m => (0 + (m * p.nRows + col),
      accumulated p.acc (outp (0 + (m * p.nRows + col)))
        (dotRow .q4k bytes nb col fun k => x (m * p.nCols + k))),
    Workgroup.flatMap_guarded (Workgroup.le_ceilDiv_mul (by decide) _)]

theorem recordGemm_writes (hload : loadW dtype bytes nRows nb = some w) (acc : ℕ) {mRows : ℕ}
    (hm : mRows ≤ 512) (x outp : Buf) :
    WritesProduct dtype bytes nb nRows mRows acc 0 (fun m k => x (m * (nb * 256) + k)) outp
      (recordGemm w x outp (nb * 256) mRows acc) := by
  obtain ⟨hrows, hnb, hkind⟩ := loadW_spec hload
  have hblocks : nb * 256 / 256 = nb := Nat.mul_div_cancel _ (by decide)
  rcases hkind with ⟨rfl, rfl⟩ | ⟨rfl, wt, hup, rfl⟩
  · rw [recordGemm]
    dsimp only
    split_ifs with hskinny
    · exact skinny_writes (p := gemmParams nRows (nb * 256) mRows acc (min (nRows ⌈/⌉ 64) 65535))
        hblocks (hskinny.trans (by decide)) rfl x outp
    · exact gemm_writes (p := gemmParams nRows (nb * 256) mRows acc (min nRows 65535)) rfl hm rfl
        (fun n chunk hchunk => q4kStage_perm hblocks rfl hchunk) x outp
  · subst hrows
    exact gemm_writes (p := gemmParams wt.nRows (nb * 256) mRows acc (min wt.nRows 65535)) rfl hm
      rfl (fun n chunk hchunk => q6kStage_perm hup hblocks rfl hchunk) x outp

end Dispatches

/-- The bytes of a block. -/
def QuantType.blockSize : QuantType → ℕ
  | q4k => 144
  | q6k => 210

theorem loadW_isSome (dtype : QuantType) {bytes : List Byte} {nRows nb : ℕ}
    (hlength : bytes.length = nRows * nb * dtype.blockSize) :
    ∃ w, loadW dtype bytes nRows nb = some w := by
  cases dtype with
  | q4k =>
    rw [QuantType.blockSize] at hlength
    rw [loadW, uploadQ4k, if_pos hlength]
    exact ⟨_, rfl⟩
  | q6k =>
    rw [QuantType.blockSize] at hlength
    rw [loadW, uploadQ6k, if_pos hlength]
    exact ⟨_, rfl⟩

/-- **The quantized matrix kernels agree.** Whatever the blocks hold, a matvec, a down-projection
and the product that is selected for a number of rows store each element once, as the sum over the
columns of the dequantized weight and the activation, on top of the old value or in its place. -/
theorem quantKernels_agree (dtype : QuantType) (bytes : List Byte) (nRows nb acc : ℕ) (outp : Buf)
    (hlength : bytes.length = nRows * nb * dtype.blockSize) :
    ∃ w, loadW dtype bytes nRows nb = some w ∧
      (∀ outBase x, WritesProduct dtype bytes nb nRows 1 acc outBase (fun _ => x) outp
        (passMatvec w acc outBase x outp)) ∧
      (∀ outBase gate up, WritesProduct dtype bytes nb nRows 1 acc outBase
        (fun _ k => gate k / (1 + Real.exp (-gate k)) * up k) outp
        (passDown w acc outBase gate up outp)) ∧
      ∀ mRows ≤ 512, ∀ x, WritesProduct dtype bytes nb nRows mRows acc 0
        (fun m k => x (m * (nb * 256) + k)) outp (recordGemm w x outp (nb * 256) mRows acc) := by
  obtain ⟨w, hload⟩ := loadW_isSome dtype hlength
  refine ⟨w, hload, fun outBase x => ?_, fun outBase gate up => ?_, fun mRows hm x => ?_⟩
  · exact passMatvec_writes hload acc outBase x outp
  · rw [passDown_eq_passMatvec]
    exact passMatvec_writes hload acc outBase (act gate up) outp
  · exact recordGemm_writes hload acc hm x outp

/-- More rows than a grid has workgroups in one direction. -/
theorem quantKernels_agree_tall :
    ∃ w, loadW .q6k (List.replicate (70000 * 210) 1) 70000 1 = some w ∧
      WritesProduct .q6k (List.replicate (70000 * 210) 1) 1 70000 3 1 0 (fun _ _ => 1) (fun _ => 1)
        (recordGemm w (fun _ => 1) (fun _ => 1) (1 * 256) 3 1) := by
  obtain ⟨w, hload, -, -, hgemm⟩ := quantKernels_agree .q6k (List.replicate (70000 * 210) 1) 70000
    1 1 (fun _ => 1) List.length_replicate
  exact ⟨w, hload, hgemm 3 (by decide) fun _ => 1⟩

end Zllm.Gpu.Quant
