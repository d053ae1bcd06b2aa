import Zllm.Candle.Q4KBlocks

/-!
# The repacking is lossless

A sub-block's line of scales is the eight rows' pairs in the layout in which a row has its eight
sub-blocks' pairs, so the repacking of the scales transposes pairs, and the one of the quants deals
runs of eight bytes. The two scalar dot products are one sum, by elements and by groups.
-/

namespace Zllm.Candle

open Bytes

/-! ### One layout of pairs -/

theorem decodeQ4kScaleMin_eq (scales : Fin 12 → Byte) (j : Fin 8) :
    decodeQ4kScaleMin j scales = pairAt scales j := by
  fin_cases j <;> rfl

theorem subScale_eq (scales : Fin 12 → Byte) (sb : Fin 8) : subScale scales sb = pairAt scales sb := by
  fin_cases sb <;> rfl

theorem readPair_eq (line : Fin 12 → Byte) (r : Fin 8) : readPair line r = pairAt line r := by
  fin_cases r <;> rfl

theorem lowSix_write (x y : Byte) :
    (x &&& 63#8 &&& 63#8) ||| ((y >>> 4) <<< 6) = lowSix x y := by
  ext i hi
  interval_cases i <;> simp [lowSix]

/-- Written back one after the other, the pairs are packed as before. -/
theorem foldl_writePair (s m : Fin 8 → Byte) :
    (List.finRange 8).foldl (fun scales sb => writePair scales sb (s sb) (m sb)) (fun _ => 0) =
      packPairs s m := by
  have hrange : List.finRange 8 = [0, 1, 2, 3, 4, 5, 6, 7] := by decide
  rw [hrange]
  funext k
  fin_cases k <;> simp [writePair, Function.update, packPairs, lowSix_write, nibbles]

/-! ### The round trips -/

/-- A sub-block's line is the rows' pairs of it. -/
theorem scaleLine_repack (input : Fin 8 → BlockQ4K) (sb : Fin 8) :
    scaleLine (repackQ4KToQ4Kx8 input) sb =
      packPairs (fun j => (pairAt (input j).scales sb).1) fun j =>
        (pairAt (input j).scales sb).2 := by
  funext k
  have hrow : (if sb.val < 4 then 0 + sb.val * 12 else 48 + (sb.val - 4) * 12) = sb.val * 12 := by
    split <;> omega
  have hline : (sb.val * 12 + k.val) / 12 = sb.val := by omega
  have hbyte : (sb.val * 12 + k.val) % 12 = k.val := by omega
  simp only [scaleLine, repackQ4KToQ4Kx8, subScale_eq, hrow, hline, hbyte]

theorem reverse_scales (rp : BlockQ4Kx8) (r : Fin 8) :
    (reverseRepackQ4Kx8 rp r).scales =
      packPairs (fun sb => (pairAt (scaleLine rp sb) r).1) fun sb =>
        (pairAt (scaleLine rp sb) r).2 := by
  rw [← foldl_writePair]
  simp only [reverseRepackQ4Kx8, readPair_eq]

/-- A row's pair of a sub-block is the sub-block's pair of the row. -/
theorem pairAt_reverse (rp : BlockQ4Kx8) (sb r : Fin 8) :
    pairAt (reverseRepackQ4Kx8 rp r).scales sb = pairAt (scaleLine rp sb) r := by
  rw [reverse_scales, pairAt_packPairs (fun _ => (pairAt_lt _ _).1) fun _ => (pairAt_lt _ _).2]

theorem reverse_repack (b : Fin 8 → BlockQ4K) : reverseRepackQ4Kx8 (repackQ4KToQ4Kx8 b) = b := by
  funext r
  refine BlockQ4K.ext rfl rfl ?_ ?_
  · rw [reverse_scales]
    simp only [scaleLine_repack, pairAt_packPairs (fun j => (pairAt_lt _ _).1)
      (fun j => (pairAt_lt _ _).2)]
    exact packPairs_pairAt (b r).scales
  · funext p
    refine congrArg₂ (fun r p => (b r).qs p) (Fin.ext ?_) (Fin.ext ?_)
    · show ((p.val / 8 * 8 + r.val) * 8 + p.val % 8) / 8 % 8 = r.val
      omega
    · show ((p.val / 8 * 8 + r.val) * 8 + p.val % 8) / 8 / 8 * 8 +
        ((p.val / 8 * 8 + r.val) * 8 + p.val % 8) % 8 = p.val
      omega

theorem repack_reverse (rp : BlockQ4Kx8) : repackQ4KToQ4Kx8 (reverseRepackQ4Kx8 rp) = rp := by
  refine BlockQ4Kx8.ext rfl rfl ?_ ?_
  · funext p
    simp only [repackQ4KToQ4Kx8, subScale_eq, pairAt_reverse, packPairs_pairAt, scaleLine]
    refine congrArg rp.scales (Fin.ext ?_)
    have hline : p.val / 12 < 8 := by omega
    show (if p.val / 12 < 4 then 0 + p.val / 12 * 12 else 48 + (p.val / 12 - 4) * 12) +
      p.val % 12 = p.val
    split <;> omega
  · funext p
    refine congrArg rp.qs (Fin.ext ?_)
    show ((p.val / 8 / 8 * 8 + p.val % 8) / 8 * 8 + p.val / 8 % 8) * 8 +
      (p.val / 8 / 8 * 8 + p.val % 8) % 8 = p.val
    omega

/-! ### Scales by words -/

theorem byteOf_kmask {k : ℕ} (hk : k < 4) :
    byteOf kmask1 k = 63#8 ∧ byteOf kmask2 k = 15#8 ∧ byteOf kmask3 k = 3#8 := by
  interval_cases k <;> decide

theorem shift_nibble (x : Byte) : (x >>> 4) &&& 15#8 = (x &&& 240#8) >>> 4 := by
  ext i hi
  interval_cases i <;> simp

theorem shift_top (x : Byte) : ((x >>> 6) &&& 3#8) <<< 4 = (x &&& 192#8) >>> 2 := by
  ext i hi
  interval_cases i <;> simp

theorem byteOf_high (w : BitVec 32) {k : ℕ} (hk : k < 4) :
    byteOf (w >>> 4) k &&& 15#8 = (byteOf w k &&& 240#8) >>> 4 := by
  have hmask := (byteOf_kmask hk).2.1
  rw [← hmask, ← byteOf_and, byteOf_ushiftRight_and, hmask, shift_nibble]
  rw [hmask]
  decide

/-- The top bits of a word's bytes, moved down. -/
theorem byteOf_top (w : BitVec 32) {k : ℕ} (hk : k < 4) :
    byteOf (((w >>> 6) &&& kmask3) <<< 4) k = (byteOf w k &&& 192#8) >>> 2 := by
  have hshift {j : ℕ} (hj : j < 4) :
      byteOf ((w >>> 6) &&& kmask3) j = (byteOf w j >>> 6) &&& 3#8 := by
    have hmask := (byteOf_kmask hj).2.2
    rw [byteOf_ushiftRight_and, hmask]
    rw [hmask]
    decide
  rw [byteOf_shiftLeft hk, hshift hk, shift_top]
  intro j hj i hi hbit
  rw [hshift hj, BitVec.getLsbD_and] at hbit
  have hlow : (3#8).getLsbD i = true := (Bool.and_eq_true_iff.mp hbit).2
  interval_cases i <;> simp_all

theorem byteOf_kmask1 (w : BitVec 32) {k : ℕ} (hk : k < 4) :
    byteOf (w &&& kmask1) k = byteOf w k &&& 63#8 := by
  rw [byteOf_and, (byteOf_kmask hk).1]

/-- A nibble under the top bits of another byte. -/
theorem byteOf_joined (w u : BitVec 32) {k : ℕ} (hk : k < 4) :
    byteOf ((w &&& kmask2) ||| (((u >>> 6) &&& kmask3) <<< 4)) k =
      ((byteOf u k &&& 192#8) >>> 2) ||| (byteOf w k &&& 15#8) := by
  rw [byteOf_or, byteOf_top u hk, byteOf_and, (byteOf_kmask hk).2.1, BitVec.or_comm]

/-- The masks and shifts take out the pairs. -/
theorem unpackScales_eq (scales : Fin 12 → Byte) (sub : Fin 8) :
    scaleBytes (unpackScales scales) sub = (pairAt scales sub).1 ∧
      minBytes (unpackScales scales) sub = (pairAt scales sub).2 := by
  fin_cases sub <;>
    simp [scaleBytes, minBytes, unpackScales, unpackWords, lineWord, pairAt, byteOf_kmask1, byteOf_joined,
      byteOf_high, byteOf_word]

/-! ### One sum -/

/-- The activation's `bsums` are the sums of its groups of 16. -/
def BlockQ8K.GroupSums (y : BlockQ8K) : Prop :=
  ∀ g : Fin 16, (y.bsums g).toInt = ∑ k : Fin 16, (y.qs ⟨g * 16 + k, by omega⟩).toInt

@[simp]
theorem val_element (sub : Fin 8) (k : Fin 32) : (element sub k).val = sub.val * 32 + k.val := rfl

theorem sum_subBlocks {α : Type} [AddCommMonoid α] (f : Fin 256 → α) :
    ∑ i, f i = ∑ sub : Fin 8, ∑ k : Fin 32, f (element sub k) := by
  rw [← (finProdFinEquiv (m := 8) (n := 32)).sum_comp f, Fintype.sum_prod_type]
  refine Finset.sum_congr rfl fun sub _ => Finset.sum_congr rfl fun k _ => ?_
  refine congrArg f (Fin.ext ?_)
  rw [finProdFinEquiv_apply_val, val_element, add_comm, mul_comm]

/-- Two groups make a sub-block. -/
theorem BlockQ8K.GroupSums.subBlock {y : BlockQ8K} (hy : y.GroupSums) (sub : Fin 8) :
    bs y sub = ∑ k : Fin 32, (y.qs (element sub k)).toInt := by
  rw [bs, hy, hy, Fin.sum_univ_add (a := 16) (b := 16)]
  refine congrArg₂ (· + ·) (Finset.sum_congr rfl fun k _ => ?_)
    (Finset.sum_congr rfl fun k _ => ?_)
  · refine congrArg (fun i => (y.qs i).toInt) (Fin.ext ?_)
    show 2 * sub.val * 16 + k.val = sub.val * 32 + k.val
    omega
  · refine congrArg (fun i => (y.qs i).toInt) (Fin.ext ?_)
    show (2 * sub.val + 1) * 16 + k.val = sub.val * 32 + (16 + k.val)
    omega

/-- The scale and min of an element are its sub-block's. -/
theorem decodeQ4kScaleMin_element (scales : Fin 12 → Byte) (sub : Fin 8) (k : Fin 32) :
    (if (element sub k).val % 64 < 32 then
        decodeQ4kScaleMin ⟨2 * ((element sub k).val / 64), by omega⟩ scales
      else decodeQ4kScaleMin ⟨2 * ((element sub k).val / 64) + 1, by omega⟩ scales) =
      pairAt scales sub := by
  have hval := val_element sub k
  split
  · rw [decodeQ4kScaleMin_eq]
    refine congrArg (pairAt scales) (Fin.ext ?_)
    dsimp only
    omega
  · rw [decodeQ4kScaleMin_eq]
    refine congrArg (pairAt scales) (Fin.ext ?_)
    dsimp only
    omega

theorem dequantizeQ4kBlock_subBlock (x : BlockQ4K) (sub : Fin 8) (k : Fin 32) :
    dequantizeQ4kBlock x (element sub k) =
      halfToFloat x.d * (pairAt x.scales sub).1.toNat * (nibbleAt x (element sub k)).toNat -
      halfToFloat x.dmin * (pairAt x.scales sub).2.toNat := by
  simp only [dequantizeQ4kBlock, decodeQ4kScaleMin_element]

theorem quantTerm_eq (x : BlockQ4K) (y : BlockQ8K) (sub : Fin 8) (k : Fin 32) :
    quantTerm x y sub k =
      (nibbleAt x (element sub k)).toNat * (y.qs (element sub k)).toInt := by
  have hval := val_element sub k
  have hbyte : (⟨(element sub k).val / 64 * 32 + (element sub k).val % 32, by omega⟩ : Fin 128) =
      ⟨sub.val / 2 * 32 + k.val, by omega⟩ := by
    refine Fin.ext ?_
    dsimp only
    omega
  have hside : (element sub k).val % 64 < 32 ↔ sub.val % 2 = 0 := by omega
  simp only [quantTerm, nibbleAt, hbyte, hside]

theorem sumi_eq (x : BlockQ4K) (y : BlockQ8K) :
    sumi x y = ∑ sub : Fin 8, (pairAt x.scales sub).1.toNat *
      ∑ k : Fin 32, ((nibbleAt x (element sub k)).toNat *
        (y.qs (element sub k)).toInt : ℤ) := by
  simp only [sumi, (unpackScales_eq _ _).1, quantTerm_eq]

theorem minSum_eq {x : BlockQ4K} {y : BlockQ8K} (hy : y.GroupSums) :
    minSum x y = ∑ sub : Fin 8, (∑ k : Fin 32, (y.qs (element sub k)).toInt) *
      (pairAt x.scales sub).2.toNat := by
  simp only [minSum, minTerm, (unpackScales_eq _ _).2, hy.subBlock]

/-- Element by element or by sub-blocks, the dot product of a block is one. -/
theorem sum_dequantize (x : BlockQ4K) {y : BlockQ8K} (hy : y.GroupSums) :
    ∑ i, dequantizeQ4kBlock x i * (y.qs i).toInt =
      halfToFloat x.d * sumi x y - halfToFloat x.dmin * minSum x y := by
  rw [sum_subBlocks, sumi_eq, minSum_eq hy]
  push_cast
  rw [Finset.mul_sum, Finset.mul_sum, ← Finset.sum_sub_distrib]
  refine Finset.sum_congr rfl fun sub _ => ?_
  rw [Finset.mul_sum, Finset.mul_sum, Finset.sum_mul, Finset.mul_sum, ← Finset.sum_sub_distrib]
  refine Finset.sum_congr rfl fun k _ => ?_
  rw [dequantizeQ4kBlock_subBlock]
  ring

/-- Repacked or in rows, the products with an activation row are the same. -/
theorem gemv_repack {cols : List (Fin 8 → BlockQ4K)} {act : List BlockQ8K}
    (hlen : cols.length = act.length) (hsums : ∀ y ∈ act, y.GroupSums) :
    gemvQ4K8x8Q8KScalar (cols.map repackQ4KToQ4Kx8) act =
      some fun r => vecDotQ4kQ8kScalar (cols.map (· r)) act := by
  rw [gemvQ4K8x8Q8KScalar, if_pos (by rw [List.length_map, hlen])]
  congr 1
  funext r
  rw [vecDotQ4kQ8kScalar, List.zip_map_left, List.zip_map_left, List.map_map, List.map_map]
  congr 1
  refine List.map_congr_left fun blk hblk => ?_
  have hy : blk.2.GroupSums := hsums _ (List.of_mem_zip hblk).2
  simp only [Function.comp_apply, Prod.map, reverse_repack, id_eq]
  rw [sum_dequantize _ hy]
  ring

/-- The repacking loses nothing, either way, and keeps the meaning of every row. -/
theorem q4kRepack_lossless :
    (∀ b : Fin 8 → BlockQ4K, reverseRepackQ4Kx8 (repackQ4KToQ4Kx8 b) = b) ∧
    (∀ rp : BlockQ4Kx8, repackQ4KToQ4Kx8 (reverseRepackQ4Kx8 rp) = rp) ∧
    ∀ (cols : List (Fin 8 → BlockQ4K)) (act : List BlockQ8K), cols.length = act.length →
      (∀ y ∈ act, y.GroupSums) →
      gemvQ4K8x8Q8KScalar (cols.map repackQ4KToQ4Kx8) act =
        some fun r => vecDotQ4kQ8kScalar (cols.map (· r)) act :=
  ⟨reverse_repack, repack_reverse, fun _ _ => gemv_repack⟩

/-- One super-block of eight unlike rows, and an activation of ones. -/
theorem q4kRepack_lossless_unlike :
    let row (r : Fin 8) : BlockQ4K :=
      ⟨0x3C00, 0x3800, fun k => BitVec.ofNat 8 (20 * k + r), fun p => BitVec.ofNat 8 (7 * p + r)⟩
    let y : BlockQ8K := ⟨1, fun _ => 1, fun _ => 16⟩
    gemvQ4K8x8Q8KScalar ([row].map repackQ4KToQ4Kx8) [y] =
      some fun r => vecDotQ4kQ8kScalar ([row].map (· r)) [y] := by
  intro row y
  refine q4kRepack_lossless.2.2 [row] [y] rfl fun y' hy' => ?_
  obtain rfl := List.mem_singleton.mp hy'
  intro g
  rfl

end Zllm.Candle
