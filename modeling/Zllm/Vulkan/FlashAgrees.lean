import Zllm.Vulkan.FlashRecords

/-!
# Flash decoding is plain attention

Each block's record holds the sums over the block's positions, each merged record the sums over its
blocks' positions, and the last merge those over all positions, whatever references the maxima are.
So the split path and the single pass both leave the plain softmax average.
-/

namespace Zllm.Vulkan.FlashDecode

open Finset Workgroup Tile
open Gpu (Buf)
open Softmax (Partial block mem_block pairwiseDisjoint_block pairwiseDisjoint_blocks biUnion_block)

variable {E : Exponential} {p : Heads} {q kc vc : Buf} {seqLen : ℕ}

/-- `softmax(q·k/√hd)·V` of head `h` over the positions below `seqLen`, at dimension `d`. -/
noncomputable def attention (E : Exponential) (p : Heads) (q kc vc : Buf) (seqLen h d : ℕ) : ℝ :=
  E.average (range seqLen) (score p.nHead p.nKv p.hd q kc h) (value p.nHead p.nKv p.hd vc h) d

theorem value_eq (h t d : ℕ) : value p.nHead p.nKv p.hd vc h t d = vc (p.kb h t + d) := rfl

theorem score_eq (h t : ℕ) :
    score p.nHead p.nKv p.hd q kc h t =
      (∑ d ∈ range p.hd, q (h * p.hd + d) * kc (p.kb h t + d)) * p.scale := rfl

/-- The host's number of workgroups is the shaders' number of blocks. -/
theorem nBlocks_eq (seqLen : ℕ) : nBlocks seqLen = seqLen ⌈/⌉ flashBlock := by
  rw [nBlocks, Nat.ceilDiv_eq_add_pred_div, flashBlock]

/-! ### Scores -/

theorem subgroupAdd_twoDims (hwidth : p.hd ≤ 64) (h t : ℕ) :
    subgroupAdd (twoDims p q kc h t) * p.scale = score p.nHead p.nKv p.hd q kc h t := by
  rw [score_eq]
  congr 1
  refine Eq.trans ?_ (sum_dealt (w := 32) (n := 2) hwidth _)
  refine sum_congr rfl fun lane _ => ?_
  rw [sum_range_succ, sum_range_one, zero_mul, one_mul, add_zero, twoDims]
  simp only [← add_assoc]
  refine congrArg₂ (· + ·) (if_ctx_congr Iff.rfl (fun hd => ?_) fun _ => rfl)
    (if_ctx_congr Iff.rfl (fun hd => ?_) fun _ => rfl)
  · rw [if_pos hd]
  · rw [if_pos hd]

theorem subgroupAdd_laneDot (h t : ℕ) :
    subgroupAdd (laneDot p q kc h t) * p.scale = score p.nHead p.nKv p.hd q kc h t := by
  rw [score_eq]
  congr 1
  refine Eq.trans ?_ (sum_dealt (hd_le_dpl p) _)
  refine sum_congr rfl fun lane _ => sum_congr rfl fun i _ => ?_
  refine if_ctx_congr Iff.rfl (fun hd => ?_) fun _ => rfl
  rw [if_pos hd]

/-! ### Blocks -/

/-- A block's sums, as either shader stores them. -/
def HoldsBlock (E : Exponential) (p : Heads) (q kc vc : Buf) (seqLen h blk : ℕ) (r : Partial) :
    Prop :=
  E.Holds r (block flashBlock seqLen blk) (score p.nHead p.nKv p.hd q kc h)
    (value p.nHead p.nKv p.hd vc h)

theorem block_eq {blk : ℕ} (hblk : blk < seqLen ⌈/⌉ flashBlock) :
    block flashBlock seqLen blk = Ico (blk * blockSize)
      (blk * blockSize + (min (blk * blockSize + blockSize) seqLen - blk * blockSize)) := by
  have hstart : blk * flashBlock < seqLen := by
    rwa [mul_comm, ← not_le, ← ceilDiv_le_iff_le_mul (show 0 < flashBlock by decide), not_le]
  have hle : blk * blockSize ≤ min (blk * blockSize + blockSize) seqLen :=
    le_min (Nat.le_add_right _ _) hstart.le
  rw [Nat.add_sub_cancel' hle]
  rfl

theorem sdpaFlashPartial2_isRecord (hwidth : p.hd ≤ 64) {h blk : ℕ}
    (hblk : blk < seqLen ⌈/⌉ flashBlock) :
    ∃ r, HoldsBlock E p q kc vc seqLen h blk r ∧
      IsRecord p ((h * (seqLen ⌈/⌉ flashBlock) + blk) * (p.hd + 2)) r
        (sdpaFlashPartial2 E p q kc vc seqLen h blk) := by
  let start := blk * blockSize
  let bk := min (start + blockSize) seqLen - start
  let sc (i : ℕ) : ℝ := score p.nHead p.nKv p.hd q kc h (start + i)
  refine ⟨E.gather (maxFrom bk sc) (range bk) sc fun i => value p.nHead p.nKv p.hd vc h (start + i),
    ?_, ?_⟩
  · rw [HoldsBlock, block_eq hblk]
    exact (Exponential.gather_holds _ _ _ _).shift
  · rw [sdpaFlashPartial2, nBlocks_eq]
    simp only [subgroupAdd_twoDims hwidth]
    simp only [add_assoc _ _ 32]
    exact isRecord_twoDims hwidth

variable (E p q kc vc) in
/-- The lane's sums are those of all dimensions, at its own. -/
theorem foldl_onlineStep (h lane start n : ℕ) :
    let st := (List.range' start n).foldl (onlineStep E p q kc vc h lane)
      { mx := -1e30, l := 0, av := fun _ => 0 }
    let all := E.online (-1e30) (fun i => score p.nHead p.nKv p.hd q kc h (start + i))
      (fun i => value p.nHead p.nKv p.hd vc h (start + i)) n
    st.mx = all.mx ∧ st.l = all.l ∧ ∀ i ∈ p.owned lane, st.av i = all.av (lane + i * 32) := by
  induction n with
  | zero => exact ⟨rfl, rfl, fun _ _ => rfl⟩
  | succ n ih =>
    obtain ⟨hmx, hl, hav⟩ := ih
    simp only [List.range'_concat, List.foldl_append, List.foldl_cons, List.foldl_nil, one_mul,
      Exponential.online]
    rw [onlineStep, Exponential.push, subgroupAdd_laneDot, hmx, hl]
    refine ⟨rfl, rfl, fun i hi => ?_⟩
    refine (if_pos (mem_owned.mp hi)).trans ?_
    rw [hav i hi]
    rfl

theorem sdpaFlashPartial_isRecord {h blk : ℕ} (hblk : blk < seqLen ⌈/⌉ flashBlock) :
    ∃ r, HoldsBlock E p q kc vc seqLen h blk r ∧
      IsRecord p ((h * (seqLen ⌈/⌉ flashBlock) + blk) * (p.hd + 2)) r
        (sdpaFlashPartial E p q kc vc seqLen h blk) := by
  let start := blk * blockSize
  let bk := min (start + blockSize) seqLen - start
  refine ⟨E.online (-1e30) (fun i => score p.nHead p.nKv p.hd q kc h (start + i))
      (fun i => value p.nHead p.nKv p.hd vc h (start + i)) bk, ?_, ?_⟩
  · rw [HoldsBlock, block_eq hblk]
    exact (Exponential.online_holds _ _ _ _).shift
  · rw [sdpaFlashPartial, nBlocks_eq]
    have hlane (lane : ℕ) := foldl_onlineStep E p q kc vc h lane (blk * blockSize)
      (min (blk * blockSize + blockSize) seqLen - blk * blockSize)
    simp only [(hlane _).1, (hlane _).2.1]
    exact isRecord_owned fun lane _ => (hlane lane).2.2

theorem partialStores_isRecord (hwidth : p.hd ≤ 64) (flags : Flags) {h blk : ℕ}
    (hblk : blk < seqLen ⌈/⌉ flashBlock) :
    ∃ r, HoldsBlock E p q kc vc seqLen h blk r ∧
      IsRecord p ((h * (seqLen ⌈/⌉ flashBlock) + blk) * (p.hd + 2)) r
        (if p.hd ≤ 64 && !flags.onlinePartial then sdpaFlashPartial2 E p q kc vc seqLen h blk
        else sdpaFlashPartial E p q kc vc seqLen h blk) := by
  split_ifs
  · exact sdpaFlashPartial2_isRecord hwidth hblk
  · exact sdpaFlashPartial_isRecord hblk

/-! ### Merging -/

/-- Each record of the buffer holds the sums over its positions, at the dimensions there are. -/
def HoldsRecords (E : Exponential) (p : Heads) (q kc vc : Buf) (buf : Buf) (nIn : ℕ)
    (keysOf : ℕ → Finset ℕ) : Prop :=
  ∀ h < p.nHead, ∀ b < nIn, E.Holds (loadPartial p.hd buf (h * nIn + b)) (keysOf b)
    (score p.nHead p.nKv p.hd q kc h) fun t => cut p.hd (value p.nHead p.nKv p.hd vc h t)

theorem holdsRecords_partialStores (hwidth : p.hd ≤ 64) {flags : Flags} {part part' : Buf}
    (hleaves : Leaves (partialStores E p q kc vc flags seqLen) part part') :
    HoldsRecords E p q kc vc part' (seqLen ⌈/⌉ flashBlock) (block flashBlock seqLen) := by
  have : Nonempty Partial := ⟨0, 0, 0⟩
  choose! r hr using fun (h blk : ℕ) (hblk : blk < seqLen ⌈/⌉ flashBlock) =>
    partialStores_isRecord (E := E) (p := p) (q := q) hwidth flags (h := h) hblk
  intro h hh blk hblk
  rw [loadPartial_leaves (fun h _ g hg => (hr h g hg).2) hleaves hh hblk]
  exact (hr h blk hblk).1.narrow p.hd

variable {buf : Buf} {nIn : ℕ} {keysOf : ℕ → Finset ℕ}

theorem mergeRecords_l (h start stop : ℕ) :
    (mergeRecords E p buf h nIn start stop).l =
      ∑ b ∈ Ico start stop, (loadPartial p.hd buf (h * nIn + b)).l *
        E ((loadPartial p.hd buf (h * nIn + b)).mx -
          (mergeRecords E p buf h nIn start stop).mx) := by
  rw [sum_Ico_eq_sum_range]
  rfl

theorem mergeRecords_av (h start stop d : ℕ) :
    (mergeRecords E p buf h nIn start stop).av d =
      ∑ b ∈ Ico start stop, buf ((h * nIn + b) * (p.hd + 2) + d) *
        E ((loadPartial p.hd buf (h * nIn + b)).mx -
          (mergeRecords E p buf h nIn start stop).mx) := by
  rw [sum_Ico_eq_sum_range]
  rfl

/-- A merge of consecutive records holds the sums over all their positions. -/
theorem mergeRecords_holds (hbuf : HoldsRecords E p q kc vc buf nIn keysOf) {h : ℕ}
    (hh : h < p.nHead) {start stop : ℕ} (hstop : stop ≤ nIn)
    (hdisjoint : (Set.univ : Set ℕ).PairwiseDisjoint keysOf) :
    E.Holds ((mergeRecords E p buf h nIn start stop).narrow p.hd) ((Ico start stop).biUnion keysOf)
      (score p.nHead p.nKv p.hd q kc h) fun t => cut p.hd (value p.nHead p.nKv p.hd vc h t) := by
  have hmerge : (mergeRecords E p buf h nIn start stop).narrow p.hd =
      E.merge (mergeRecords E p buf h nIn start stop).mx (Ico start stop) fun b =>
        loadPartial p.hd buf (h * nIn + b) := by
    rw [Exponential.merge, Partial.narrow, mergeRecords_l]
    congr 1
    funext d
    by_cases hd : d < p.hd
    · rw [cut_apply hd, mergeRecords_av]
      refine sum_congr rfl fun b _ => ?_
      have hav : (loadPartial p.hd buf (h * nIn + b)).av d =
          buf ((h * nIn + b) * (p.hd + 2) + d) := if_pos hd
      rw [hav]
    · simp only [loadPartial, cut, if_neg hd, zero_mul, sum_const_zero]
  rw [hmerge]
  refine Exponential.merge_holds _ (fun b hb => ?_) (hdisjoint.subset (Set.subset_univ _))
  exact hbuf h hh b ((mem_Ico.mp hb).2.trans_le hstop)

/-- The row of a merge of all records is the average over all their positions. -/
theorem mergeRecords_average (hbuf : HoldsRecords E p q kc vc buf nIn keysOf) {h : ℕ}
    (hh : h < p.nHead) {d : ℕ} (hd : d < p.hd)
    (hdisjoint : (Set.univ : Set ℕ).PairwiseDisjoint keysOf)
    (hall : (range nIn).biUnion keysOf = range seqLen) :
    let r := mergeRecords E p buf h nIn 0 nIn
    r.av d * (1 / r.l) = attention E p q kc vc seqLen h d := by
  intro r
  have hholds : E.Holds (r.narrow p.hd) ((Ico 0 nIn).biUnion keysOf)
      (score p.nHead p.nKv p.hd q kc h) fun t => cut p.hd (value p.nHead p.nKv p.hd vc h t) :=
    mergeRecords_holds hbuf hh le_rfl hdisjoint
  rw [← range_eq_Ico, hall] at hholds
  have hav : (r.narrow p.hd).av d = r.av d := cut_apply hd
  calc r.av d * (1 / r.l) = (r.narrow p.hd).av d / (r.narrow p.hd).l := by
        rw [mul_one_div, hav]
        rfl
    _ = E.average (range seqLen) (score p.nHead p.nKv p.hd q kc h)
          (fun t => cut p.hd (value p.nHead p.nKv p.hd vc h t)) d := hholds.average_eq d
    _ = attention E p q kc vc seqLen h d :=
        E.average_congr (fun _ _ => rfl) fun _ _ => cut_apply hd

/-! ### The split path -/

/-- The first level leaves super-records that hold the sums of their blocks' positions. -/
theorem holdsRecords_supers {part' supers supers' : Buf} {nblk : ℕ}
    (hpart : HoldsRecords E p q kc vc part' nblk (block flashBlock seqLen))
    (hleaves : Leaves (grid p.nHead (nblk ⌈/⌉ superBlocks)
      (sdpaFlashCombineH E p ⟨nblk, superBlocks, 0⟩ part')) supers supers') :
    HoldsRecords E p q kc vc supers' (nblk ⌈/⌉ superBlocks) fun g =>
      (block superBlocks nblk g).biUnion (block flashBlock seqLen) := by
  have hkernel : ∀ h < p.nHead, ∀ g < nblk ⌈/⌉ superBlocks,
      IsRecord p ((h * (nblk ⌈/⌉ superBlocks) + g) * (p.hd + 2))
        (mergeRecords E p part' h nblk (g * superBlocks)
          (min (g * superBlocks + superBlocks) nblk))
        (sdpaFlashCombineH E p ⟨nblk, superBlocks, 0⟩ part' h g) := by
    intro h _ g _
    rw [sdpaFlashCombineH, Nat.ceilDiv_eq_add_pred_div]
    exact isRecord_owned fun _ _ _ _ => rfl
  intro h hh g hg
  rw [loadPartial_leaves hkernel hleaves hh hg]
  exact mergeRecords_holds hpart hh (min_le_right _ _)
    (pairwiseDisjoint_block flashBlock seqLen _)

theorem splitPath_attention (hwidth : p.hd ≤ 64) {flags : Flags} {part supers attn attn' : Buf}
    (hsplit : SplitPath E p q kc vc flags seqLen part supers attn attn') {h d : ℕ}
    (hh : h < p.nHead) (hd : d < p.hd) :
    attn' (h * p.hd + d) = attention E p q kc vc seqLen h d := by
  obtain ⟨part', hpart, hcombine⟩ := hsplit
  have hrecords := holdsRecords_partialStores hwidth hpart
  split_ifs at hcombine
  · rw [row_normalized (fun _ => rfl) hcombine hh hd, nBlocks_eq]
    exact mergeRecords_average hrecords hh hd (pairwiseDisjoint_block flashBlock seqLen _)
      (biUnion_block (by decide) seqLen)
  · obtain ⟨supers', hsupers, hfinal⟩ := hcombine
    have hone (h : ℕ) : sdpaFlashCombineH E p
        ⟨seqLen ⌈/⌉ flashBlock ⌈/⌉ superBlocks, seqLen ⌈/⌉ flashBlock ⌈/⌉ superBlocks, 1⟩
        supers' h 0 = normalized p h (mergeRecords E p supers' h
          (seqLen ⌈/⌉ flashBlock ⌈/⌉ superBlocks) 0
          (seqLen ⌈/⌉ flashBlock ⌈/⌉ superBlocks)) := by
      rw [sdpaFlashCombineH, if_pos rfl, zero_mul, zero_add, min_self]
    rw [row_normalized hone hfinal hh hd]
    refine mergeRecords_average (holdsRecords_supers hrecords hsupers) hh hd
      (pairwiseDisjoint_blocks superBlocks _ flashBlock seqLen _) ?_
    rw [← biUnion_biUnion, biUnion_block (by decide), biUnion_block (by decide)]

/-! ### The single pass -/

/-- A thread's store is there after the barrier if no other thread stores something else. -/
theorem share_apply {len a : ℕ} {v : ℝ} {stores : ℕ → List (ℕ × ℝ)} {shared : ℕ → ℝ}
    (hlen : a < len) (hmem : ∃ t < 64, (a, v) ∈ stores t)
    (honly : ∀ t < 64, ∀ w, (a, w) ∈ stores t → w = v) : share len stores shared a = v := by
  obtain ⟨t, ht, hstore⟩ := hmem
  have hfilter (w : ℝ) : (a, w) ∈ ((List.range 64).flatMap stores).filter (·.1 < len) ↔
      ∃ t < 64, (a, w) ∈ stores t := by
    simp [List.mem_filter, List.mem_flatMap, hlen]
  rcases perform_spec (((List.range 64).flatMap stores).filter (·.1 < len)) shared a with
    ⟨-, hnone⟩ | hlast
  · exact absurd ((hfilter v).mpr ⟨t, ht, hstore⟩) (hnone v)
  · obtain ⟨u, hu, hstore⟩ := (hfilter _).mp hlast
    exact honly u hu _ hstore

/-- Each position is stored by the thread that has it. -/
theorem share_strided {pos : ℕ} (hpos : pos < seqLen) (hlen : seqLen ≤ maxSeq) (f : ℕ → ℝ)
    (shared : ℕ → ℝ) :
    share maxSeq (fun t => (strided 64 seqLen t).map fun pos => (pos, f pos)) shared pos =
      f pos := by
  refine share_apply (hpos.trans_le hlen) ⟨pos % 64, Nat.mod_lt pos (by decide), ?_⟩ ?_
  · rw [List.mem_map]
    exact ⟨pos, (mem_strided_of_lt (Nat.mod_lt pos (by decide))).mpr ⟨hpos, rfl⟩, rfl⟩
  · intro t _ w hmem
    obtain ⟨i, -, hstore⟩ := List.mem_map.mp hmem
    obtain ⟨rfl, hval⟩ := Prod.mk.inj hstore
    exact hval.symm

theorem queryShared_apply (hwidth : p.hd ≤ 64) (junk : ℕ → ℝ) (h : ℕ) {d : ℕ} (hd : d < p.hd) :
    queryShared p q junk h d = q (h * p.hd + d) := by
  refine share_apply (hd.trans_le hwidth) ⟨d, hd.trans_le hwidth, ?_⟩ ?_
  · rw [if_pos hd]
    exact List.mem_singleton_self _
  · intro t _ w hmem
    split_ifs at hmem
    · obtain ⟨rfl, hval⟩ := Prod.mk.inj (List.mem_singleton.mp hmem)
      exact hval
    · exact absurd hmem List.not_mem_nil

theorem scoresShared_apply (hwidth : p.hd ≤ 64) (hlen : seqLen ≤ maxSeq) (junk : ℕ → ℝ) (h : ℕ)
    {pos : ℕ} (hpos : pos < seqLen) :
    scoresShared p q kc junk seqLen h pos = score p.nHead p.nKv p.hd q kc h pos := by
  refine (share_strided hpos hlen _ junk).trans ?_
  rw [score_eq]
  congr 1
  refine sum_congr rfl fun d hd => ?_
  rw [queryShared_apply hwidth junk h (mem_range.mp hd)]

theorem sumShared_eq (mx : ℝ) (sc : ℕ → ℝ) :
    sumShared E seqLen mx sc = ∑ pos ∈ range seqLen, E (sc pos - mx) := by
  rw [sumShared, reduce_add]
  exact sum_strided (by decide) seqLen fun pos => E (sc pos - mx)

/-- The exponentials' sums are those over all positions, relative to the largest score. -/
theorem sdpaDecode_row (hwidth : p.hd ≤ 64) (hlen : seqLen ≤ maxSeq) (junk : ℕ → ℝ) (h d : ℕ) :
    let sc := scoresShared p q kc junk seqLen h
    let mx := maxShared seqLen sc
    (∑ pos ∈ range seqLen, probsShared E seqLen mx sc pos * vc (p.kb h pos + d)) /
      sumShared E seqLen mx sc = attention E p q kc vc seqLen h d := by
  intro sc mx
  have hsc : ∀ pos < seqLen, sc pos = score p.nHead p.nKv p.hd q kc h pos := fun pos hpos =>
    scoresShared_apply hwidth hlen junk h hpos
  have hnum : ∑ pos ∈ range seqLen, probsShared E seqLen mx sc pos * vc (p.kb h pos + d) =
      ∑ pos ∈ range seqLen, E (score p.nHead p.nKv p.hd q kc h pos - mx) *
        value p.nHead p.nKv p.hd vc h pos d := by
    refine sum_congr rfl fun pos hpos => ?_
    have hpos := mem_range.mp hpos
    have hprob : probsShared E seqLen mx sc pos = E (sc pos - mx) :=
      share_strided hpos hlen (fun pos => E (sc pos - mx)) sc
    rw [hprob, hsc pos hpos, value_eq]
  have hden : sumShared E seqLen mx sc =
      ∑ pos ∈ range seqLen, E (score p.nHead p.nKv p.hd q kc h pos - mx) := by
    rw [sumShared_eq]
    exact sum_congr rfl fun pos hpos => by rw [hsc pos (mem_range.mp hpos)]
  rw [hnum, hden]
  exact (Exponential.gather_holds mx (range seqLen) _ _).average_eq d

theorem mem_sdpaDecode (hwidth : p.hd ≤ 64) (hlen : seqLen ≤ maxSeq) (junk : ℕ → ℝ) (h : ℕ)
    (store : ℕ × ℝ) :
    store ∈ sdpaDecode E p q kc vc junk seqLen h ↔
      ∃ d < p.hd, (h * p.hd + d, attention E p q kc vc seqLen h d) = store := by
  rw [sdpaDecode, List.mem_flatMap]
  simp only [sdpaDecode_row hwidth hlen]
  constructor
  · rintro ⟨t, -, hmem⟩
    split_ifs at hmem with ht
    · exact ⟨t, ht, (List.mem_singleton.mp hmem).symm⟩
    · exact absurd hmem List.not_mem_nil
  · rintro ⟨d, hd, rfl⟩
    refine ⟨d, List.mem_range.mpr (hd.trans_le hwidth), ?_⟩
    rw [if_pos hd]
    exact List.mem_singleton_self _

theorem singlePass_attention (hwidth : p.hd ≤ 64) (hlen : seqLen ≤ maxSeq) {attn attn' : Buf}
    (hsingle : SinglePass E p q kc vc seqLen attn attn') {h d : ℕ} (hh : h < p.nHead)
    (hd : d < p.hd) : attn' (h * p.hd + d) = attention E p q kc vc seqLen h d := by
  obtain ⟨junk, hleaves⟩ := hsingle
  exact row_leaves (fun h _ => mem_sdpaDecode hwidth hlen (junk h) h) hleaves hh hd

/-! ### Either path -/

/-- The output holds each head's plain average. -/
def IsAttention (E : Exponential) (p : Heads) (q kc vc : Buf) (seqLen : ℕ) (attn : Buf) : Prop :=
  ∀ h < p.nHead, ∀ d < p.hd, attn (h * p.hd + d) = attention E p q kc vc seqLen h d

theorem exists_splitPath (flags : Flags) (part supers attn : Buf) :
    ∃ attn', SplitPath E p q kc vc flags seqLen part supers attn attn' := by
  have hpart := leaves_perform (partialStores E p q kc vc flags seqLen) part
  simp only [SplitPath]
  by_cases hflat : flags.flatCombine
  · simp only [if_pos hflat]
    exact ⟨_, _, hpart, leaves_perform _ attn⟩
  · simp only [if_neg hflat]
    exact ⟨_, _, hpart, _, leaves_perform _ supers, leaves_perform _ attn⟩

/-- Whichever path the host takes, in either of its variants and with the stores in any order, the
output is plain attention. -/
theorem flashDecoding_isAttention (E : Exponential) (p : Heads) (hwidth : p.hd ≤ 64)
    (q kc vc : Buf) (flags : Flags) (seqLen : ℕ) (part supers attn : Buf) :
    (∃ attn', SplitPath E p q kc vc flags seqLen part supers attn attn') ∧
    (∀ attn', SplitPath E p q kc vc flags seqLen part supers attn attn' →
      IsAttention E p q kc vc seqLen attn') ∧
    (∃ attn', SinglePass E p q kc vc seqLen attn attn') ∧
    (seqLen ≤ 512 → ∀ attn', SinglePass E p q kc vc seqLen attn attn' →
      IsAttention E p q kc vc seqLen attn') ∧
    ∀ attn', Attends E p q kc vc flags seqLen part supers attn attn' →
      IsAttention E p q kc vc seqLen attn' := by
  refine ⟨exists_splitPath flags part supers attn, ?_, ?_, ?_, ?_⟩
  · intro attn' hsplit h hh d hd
    exact splitPath_attention hwidth hsplit hh hd
  · exact ⟨_, fun _ => 0, leaves_perform _ attn⟩
  · intro hshort attn' hsingle h hh d hd
    exact singlePass_attention hwidth hshort hsingle hh hd
  · intro attn' hattends h hh d hd
    rw [Attends] at hattends
    split_ifs at hattends with hflash
    · exact splitPath_attention hwidth hattends hh hd
    · have hshort : seqLen ≤ maxSeq := (not_lt.mp hflash).trans (by decide)
      exact singlePass_attention hwidth hshort hattends hh hd

/-- Four heads on two keys and values, 300 positions in: the dispatches of the split path. -/
theorem flashDecoding_isAttention_grouped :
    (300 > flashMinSeq) ∧ ∀ attn',
      Attends Exponential.natural ⟨4, 2, 64⟩ (fun i => i) (fun i => -i) (fun i => 3 * i)
        ⟨false, false⟩ 300 (fun _ => 0) (fun _ => 0) (fun _ => 0) attn' →
      IsAttention Exponential.natural ⟨4, 2, 64⟩ (fun i => i) (fun i => -i) (fun i => 3 * i) 300
        attn' :=
  ⟨by decide, (flashDecoding_isAttention Exponential.natural ⟨4, 2, 64⟩ le_rfl (fun i => i)
    (fun i => -i) (fun i => 3 * i) ⟨false, false⟩ 300 (fun _ => 0) (fun _ => 0)
    fun _ => 0).2.2.2.2⟩

end Zllm.Vulkan.FlashDecode
