import Zllm.Candle.Avx2Lines
import Zllm.Candle.Halves
import Zllm.Candle.Q4KRepack

/-!
# The AVX2 product is the scalar one

What the kernel loads are the rows' quants, scales and mins, each row in its doubleword, and the
activation's elements and sums. No lane overflows, a block's accumulators are the sums of the scalar
product for the same rows, and put back in order the eight results are the scalar ones.
-/

namespace Zllm.Candle.Avx2Kernel

open Bytes Avx2 Finset

variable (wblk : BlockQ4Kx8) (ablk : BlockQ8K)

/-! ### What a block means -/

/-- Quant `k` of sub-block `sub` of row `r`. -/
def quantOf (sub r k : ℕ) : ℕ :=
  if h : sub < 8 ∧ r < 8 ∧ k < 32 then
    (nibbleAt (reverseRepackQ4Kx8 wblk ⟨r, h.2.1⟩) ⟨sub * 32 + k, by omega⟩).toNat
  else 0

def actOf (sub k : ℕ) : ℤ :=
  if h : sub < 8 ∧ k < 32 then (ablk.qs ⟨sub * 32 + k, by omega⟩).toInt else 0

/-- Scale and min of sub-block `sub` of row `r`. -/
def pairOf (sub r : ℕ) : ℕ × ℕ :=
  if h : sub < 8 ∧ r < 8 then
    let pair := pairAt (scaleLine wblk ⟨sub, h.1⟩) ⟨r, h.2⟩
    (pair.1.toNat, pair.2.toNat)
  else 0

/-- The sum of the activation's elements in sub-block `sub`. -/
def groupOf (sub : ℕ) : ℤ := ∑ k ∈ range 32, actOf ablk sub k

/-! ### Registers -/

variable {wblk ablk} {sb : ℕ}

theorem loadBytes_apply {n : ℕ} (a : Fin n → Byte) {off i : ℕ} (h : off + i < n) :
    loadBytes a off i = a ⟨off + i, h⟩ := dif_pos h

variable (wblk) in
theorem reverse_qs {sb c i : ℕ} (half : ℕ) (hsb : sb < 4) (hc : c < 4) (hi : i < 32) (hhalf : half < 2) :
    loadBytes wblk.qs (sb * 256 + (64 * c + 32 * half)) i =
      (reverseRepackQ4Kx8 wblk ⟨4 * half + i / 8, by omega⟩).qs
        ⟨sb * 32 + (8 * c + i % 8), by omega⟩ := by
  rw [loadBytes_apply _ (by omega)]
  refine congrArg wblk.qs (Fin.ext ?_)
  show sb * 256 + (64 * c + 32 * half) + i =
    ((sb * 32 + (8 * c + i % 8)) / 8 * 8 + (4 * half + i / 8)) * 8 +
      (sb * 32 + (8 * c + i % 8)) % 8
  omega

theorem quantOf_low {c i r : ℕ} (hsb : sb < 4) (hc : c < 4) (hr : r < 8) :
    quantOf wblk (2 * sb) r (8 * c + i % 8) =
      ((reverseRepackQ4Kx8 wblk ⟨r, hr⟩).qs ⟨sb * 32 + (8 * c + i % 8), by omega⟩ &&&
        15#8).toNat := by
  have hbyte : (⟨(2 * sb * 32 + (8 * c + i % 8)) / 64 * 32 + (2 * sb * 32 + (8 * c + i % 8)) % 32,
      by omega⟩ : Fin 128) = ⟨sb * 32 + (8 * c + i % 8), by omega⟩ := Fin.ext (by simp only; omega)
  have hside : (2 * sb * 32 + (8 * c + i % 8)) % 64 < 32 := by omega
  rw [quantOf, dif_pos ⟨by omega, hr, by omega⟩]
  simp only [nibbleAt, hbyte, if_pos hside]

theorem quantOf_high {c i r : ℕ} (hsb : sb < 4) (hc : c < 4) (hr : r < 8) :
    quantOf wblk (2 * sb + 1) r (8 * c + i % 8) =
      ((reverseRepackQ4Kx8 wblk ⟨r, hr⟩).qs ⟨sb * 32 + (8 * c + i % 8), by omega⟩ >>> 4).toNat := by
  have hbyte : (⟨((2 * sb + 1) * 32 + (8 * c + i % 8)) / 64 * 32 +
      ((2 * sb + 1) * 32 + (8 * c + i % 8)) % 32, by omega⟩ : Fin 128) =
      ⟨sb * 32 + (8 * c + i % 8), by omega⟩ := Fin.ext (by simp only; omega)
  have hside : ¬ ((2 * sb + 1) * 32 + (8 * c + i % 8)) % 64 < 32 := by omega
  rw [quantOf, dif_pos ⟨by omega, hr, by omega⟩]
  simp only [nibbleAt, hbyte, if_neg hside]

theorem raw_qs {c i : ℕ} (hsb : sb < 4) (hc : c < 4) (hi : i < 32) :
    raw0123 wblk sb c i = (reverseRepackQ4Kx8 wblk ⟨i / 8, by omega⟩).qs
        ⟨sb * 32 + (8 * c + i % 8), by omega⟩ ∧
      raw4567 wblk sb c i = (reverseRepackQ4Kx8 wblk ⟨4 + i / 8, by omega⟩).qs
        ⟨sb * 32 + (8 * c + i % 8), by omega⟩ := by
  refine ⟨(reverse_qs wblk 0 hsb hc hi (by decide)).trans ?_, reverse_qs wblk 1 hsb hc hi (by decide)⟩
  simp only [mul_zero, zero_add]

theorem holdsRows_low {c : ℕ} (hsb : sb < 4) (hc : c < 4) :
    HoldsRows (andSi256 (raw0123 wblk sb c) m4b) (andSi256 (raw4567 wblk sb c) m4b)
      (quantOf wblk (2 * sb)) (8 * c) := by
  constructor
  · intro i hi
    rw [quantOf_low hsb hc (by omega), andSi256, (raw_qs hsb hc hi).1]
    rfl
  · intro i hi
    rw [quantOf_low hsb hc (by omega), andSi256, (raw_qs hsb hc hi).2]
    rfl

theorem holdsRows_high {c : ℕ} (hsb : sb < 4) (hc : c < 4) :
    HoldsRows (andSi256 (srliEpi16 4 (raw0123 wblk sb c)) m4b)
      (andSi256 (srliEpi16 4 (raw4567 wblk sb c)) m4b) (quantOf wblk (2 * sb + 1)) (8 * c) := by
  constructor
  · intro i hi
    rw [quantOf_high hsb hc (by omega), ← (raw_qs hsb hc hi).1, ← srliEpi16_and]
    rfl
  · intro i hi
    rw [quantOf_high hsb hc (by omega), ← (raw_qs hsb hc hi).2, ← srliEpi16_and]
    rfl

theorem holdsActivation_lhs {sub off k : ℕ} (hsub : sub < 8) (hk : k + 16 ≤ 32)
    (hoff : sb * 64 + off = sub * 32 + k) :
    HoldsActivation (lhs ablk sb off) (actOf ablk sub) k := by
  intro i hi
  have hlane : permute2f128 0 (loadBytes ablk.qs (sb * 64 + off))
      (loadBytes ablk.qs (sb * 64 + off)) i = loadBytes ablk.qs (sb * 64 + off) (i % 16) := by
    simp [permute2f128]
  rw [lhs, hlane, loadBytes_apply _ (by omega), actOf, dif_pos ⟨hsub, by omega⟩]
  refine congrArg (fun i => (ablk.qs i).toInt) (Fin.ext ?_)
  show sb * 64 + off + i % 16 = sub * 32 + (k + i % 16)
  omega

theorem toNat_high_le (x : Byte) : (x >>> 4).toNat ≤ 15 := by
  have hlt : x.toNat < 2 ^ 8 := x.isLt
  rw [BitVec.toNat_ushiftRight, Nat.shiftRight_eq_div_pow]
  omega

theorem bounded_quantOf (wblk : BlockQ4Kx8) (ablk : BlockQ8K) (sub : ℕ) :
    Bounded (quantOf wblk sub) (actOf ablk sub) := by
  constructor
  · intro r _ k _
    unfold quantOf
    split
    · unfold nibbleAt
      dsimp only
      split
      · rw [BitVec.toNat_and]
        exact Nat.and_le_right
      · exact toNat_high_le _
    · exact Nat.zero_le _
  · intro k _
    unfold actOf
    split
    · have hlow := BitVec.le_two_mul_toInt (x := ablk.qs ⟨sub * 32 + k, by omega⟩)
      have hhigh := BitVec.two_mul_toInt_lt (x := ablk.qs ⟨sub * 32 + k, by omega⟩)
      rw [abs_le]
      constructor <;> omega
    · simp

/-! ### Scales and mins -/

theorem setEpi32_bytes (utmp : Fin 4 → BitVec 32) {r : ℕ} (hr : r < 8) :
    setEpi32 (utmp 3) (utmp 2) (utmp 1) (utmp 0) r = scaleBytes utmp ⟨r, hr⟩ ∧
      setEpi32 (utmp 3) (utmp 2) (utmp 1) (utmp 0) (8 + r) = minBytes utmp ⟨r, hr⟩ := by
  interval_cases r <;> simp [setEpi32, ofWords32, scaleBytes, minBytes]

/-- The sixteen bytes of a sub-block: the rows' scales, then their mins. -/
theorem mas_eq {sub : ℕ} (hsub : sub < 8) {r : ℕ} (hr : r < 8) :
    (mas wblk (12 * sub) r).toNat = (pairOf wblk sub r).1 ∧
      (mas wblk (12 * sub) (8 + r)).toNat = (pairOf wblk sub r).2 := by
  have hline : (fun k : Fin 12 => loadBytes wblk.scales (12 * sub) k) =
      scaleLine wblk ⟨sub, hsub⟩ := by
    funext k
    rw [loadBytes_apply _ (by omega)]
    refine congrArg wblk.scales (Fin.ext ?_)
    show 12 * sub + k.val = (if sub < 4 then 0 + sub * 12 else 48 + (sub - 4) * 12) + k.val
    split <;> omega
  have hpair := unpackScales_eq (scaleLine wblk ⟨sub, hsub⟩) ⟨r, hr⟩
  have hbytes := setEpi32_bytes (unpackScales (scaleLine wblk ⟨sub, hsub⟩)) hr
  rw [pairOf, dif_pos ⟨hsub, hr⟩, mas, hline]
  simp only [hbytes.1, hbytes.2, hpair.1, hpair.2, and_self]

theorem pairOf_lt (wblk : BlockQ4Kx8) (sub r : ℕ) :
    (pairOf wblk sub r).1 < 64 ∧ (pairOf wblk sub r).2 < 64 := by
  unfold pairOf
  split
  · have hlt := pairAt_lt (scaleLine wblk ⟨sub, by omega⟩) ⟨r, by omega⟩
    exact ⟨BitVec.lt_def.mp hlt.1, BitVec.lt_def.mp hlt.2⟩
  · exact ⟨by decide, by decide⟩

theorem shuffleEpi8_scalemask (a : Reg) {i : ℕ} (hi : i < 16) :
    shuffleEpi8 a scalemask i = a (rowOf (i / 2)) := by
  interval_cases i <;> rfl

theorem int16_scales {sub : ℕ} (hsub : sub < 8) {i : ℕ} (hi : i < 16) :
    int16 (cvtepu8Epi16 (shuffleEpi8 (mas wblk (12 * sub)) scalemask)) i =
      (pairOf wblk sub (rowOf (i / 2))).1 := by
  rw [int16_cvtepu8Epi16, shuffleEpi8_scalemask _ hi, (mas_eq hsub (rowOf_lt (by omega))).1]

theorem unpackloEpi8_mins (a b : Reg) {i : ℕ} (hi : i < 16) :
    unpackloEpi8 (shuffleEpi32 78 a) (shuffleEpi32 78 b) i =
      if i % 2 = 0 then a (8 + i / 2) else b (8 + i / 2) := by
  interval_cases i <;> rfl

theorem int16_mins (hsb : sb < 4) {i : ℕ} (hi : i < 16) :
    int16 (cvtepu8Epi16 (unpackloEpi8 (shuffleEpi32 78 (mas wblk (12 * (2 * sb))))
      (shuffleEpi32 78 (mas wblk (12 * (2 * sb + 1)))))) i =
      (pairOf wblk (2 * sb + i % 2) (i / 2)).2 := by
  rw [int16_cvtepu8Epi16, unpackloEpi8_mins _ _ hi]
  rcases Nat.mod_two_eq_zero_or_one i with hside | hside
  · rw [if_pos hside, hside, (mas_eq (by omega) (by omega)).2, add_zero]
  · rw [if_neg (by omega), hside, (mas_eq (by omega) (by omega)).2]

/-! ### A sub-block's accumulators -/

theorem addEpi32_holds {x y : Reg} {S T : ℕ → ℤ} {bx bw : ℤ} (hx : HoldsDwords x S bx)
    (hy : HoldsDwords y T bw) (hbound : bx + bw ≤ 2 ^ 30) :
    (addEpi32 x y).exact ∧ HoldsDwords (addEpi32 x y).value (fun D => S D + T D) (bx + bw) := by
  have hsum {D : ℕ} (hD : D < 8) : |S D + T D| ≤ bx + bw :=
    (abs_add_le _ _).trans (add_le_add (hx D hD).2 (hy D hD).2)
  have hfits {D : ℕ} (hD : D < 8) : Fits 32 (int32 x D + int32 y D) := by
    rw [(hx D hD).1, (hy D hD).1]
    exact fits32_of_abs_le ((hsum hD).trans hbound)
  refine ⟨fun D hD => hfits hD, fun D hD => ⟨?_, hsum hD⟩⟩
  rw [int32_addEpi32 (hfits hD), (hx D hD).1, (hy D hD).1]

/-- What sub-block `sub` adds to row `r`. -/
def subTerm (wblk : BlockQ4Kx8) (ablk : BlockQ8K) (sub r : ℕ) : ℤ :=
  (pairOf wblk sub r).1 * rowDot (quantOf wblk sub) (actOf ablk sub) r

/-- The two sub-blocks of a pass, by doubleword. -/
theorem iaccSb_holds (wblk : BlockQ4Kx8) (ablk : BlockQ8K) (hsb : sb < 4) :
    (iaccSb wblk ablk sb).exact ∧ HoldsDwords (iaccSb wblk ablk sb).value
      (fun D => subTerm wblk ablk (2 * sb) (rowOf D) + subTerm wblk ablk (2 * sb + 1) (rowOf D))
      (2 * (30720 * 63) + 2 * (30720 * 63)) := by
  have hlow : HoldsSubBlock (fun c => andSi256 (raw0123 wblk sb c) m4b)
      (fun c => andSi256 (raw4567 wblk sb c) m4b) (lhs ablk sb 0) (lhs ablk sb 16)
      (quantOf wblk (2 * sb)) (actOf ablk (2 * sb)) :=
    ⟨fun c hc => holdsRows_low hsb hc, holdsActivation_lhs (by omega) (by omega) (by omega),
      holdsActivation_lhs (by omega) (by omega) (by omega), bounded_quantOf _ _ _⟩
  have hhigh : HoldsSubBlock (fun c => andSi256 (srliEpi16 4 (raw0123 wblk sb c)) m4b)
      (fun c => andSi256 (srliEpi16 4 (raw4567 wblk sb c)) m4b) (lhs ablk sb 32) (lhs ablk sb 48)
      (quantOf wblk (2 * sb + 1)) (actOf ablk (2 * sb + 1)) :=
    ⟨fun c hc => holdsRows_high hsb hc, holdsActivation_lhs (by omega) (by omega) (by omega),
      holdsActivation_lhs (by omega) (by omega) (by omega), bounded_quantOf _ _ _⟩
  have hoff0 : 24 * sb = 12 * (2 * sb) := by omega
  have hoff1 : 12 + 24 * sb = 12 * (2 * sb + 1) := by omega
  obtain ⟨hlines0, hacc0⟩ := lines_holds hlow
  obtain ⟨hlines1, hacc1⟩ := lines_holds hhigh
  obtain ⟨hmadd0, hscaled0⟩ := scaled_holds (s := fun r => (pairOf wblk (2 * sb) r).1) hacc0
    (fun i hi => int16_scales (by omega) hi) fun r _ => (pairOf_lt wblk _ r).1
  obtain ⟨hmadd1, hscaled1⟩ := scaled_holds (s := fun r => (pairOf wblk (2 * sb + 1) r).1) hacc1
    (fun i hi => int16_scales (by omega) hi) fun r _ => (pairOf_lt wblk _ r).1
  obtain ⟨hadd, hsum⟩ := addEpi32_holds hscaled0 hscaled1 (by norm_num)
  rw [iaccSb, hoff1, hoff0]
  exact ⟨⟨hlines0, hmadd0, hlines1, hmadd1, hadd⟩, hsum⟩

/-! ### The activation's sums -/

theorem int16_loadWords {n : ℕ} (a : Fin n → BitVec 16) {i : ℕ} (hi : i < n) :
    int16 (loadWords a) i = (a ⟨i, hi⟩).toInt := by
  rw [int16, loadWords, word16_ofWords16, dif_pos hi]

theorem groupOf_eq (hsums : ablk.GroupSums) {sub : ℕ} (hsub : sub < 8) :
    groupOf ablk sub = (ablk.bsums ⟨2 * sub, by omega⟩).toInt +
      (ablk.bsums ⟨2 * sub + 1, by omega⟩).toInt := by
  refine Eq.trans ?_ (hsums.subBlock ⟨sub, hsub⟩).symm
  rw [groupOf, Finset.sum_range]
  refine sum_congr rfl fun k _ => ?_
  rw [actOf, dif_pos ⟨hsub, k.isLt⟩]
  rfl

theorem abs_actOf_le (ablk : BlockQ8K) (sub k : ℕ) : |actOf ablk sub k| ≤ 128 := by
  unfold actOf
  split
  · have hlow := BitVec.le_two_mul_toInt (x := ablk.qs ⟨sub * 32 + k, by omega⟩)
    have hhigh := BitVec.two_mul_toInt_lt (x := ablk.qs ⟨sub * 32 + k, by omega⟩)
    rw [abs_le]
    constructor <;> omega
  · simp

theorem abs_groupOf_le (ablk : BlockQ8K) (sub : ℕ) : |groupOf ablk sub| ≤ 4096 := by
  calc |groupOf ablk sub| ≤ ∑ k ∈ range 32, |actOf ablk sub k| := abs_sum_le_sum_abs _ _
    _ ≤ ∑ _k ∈ range 32, 128 := sum_le_sum fun k _ => abs_actOf_le ablk sub k
    _ = 4096 := by simp

/-- The sums of the eight sub-blocks, in either half. -/
theorem q8sums_holds (hsums : ablk.GroupSums) :
    (q8sums ablk).exact ∧ ∀ i, int16 (q8sums ablk).value i = groupOf ablk (i % 8) := by
  have hlow {i : ℕ} (hi : i < 4) :
      int16 (loadWords ablk.bsums) (2 * i) + int16 (loadWords ablk.bsums) (2 * i + 1) =
        groupOf ablk i := by
    rw [int16_loadWords _ (by omega), int16_loadWords _ (by omega), groupOf_eq hsums (by omega)]
  have hhigh {i : ℕ} (hi : i < 4) :
      int16 (extracti128 1 (loadWords ablk.bsums)) (2 * i) +
        int16 (extracti128 1 (loadWords ablk.bsums)) (2 * i + 1) = groupOf ablk (4 + i) := by
    rw [int16, int16, word16_extracti128, word16_extracti128, groupOf_eq hsums (by omega)]
    refine congrArg₂ (· + ·) ((int16_loadWords _ (by omega)).trans ?_)
      ((int16_loadWords _ (by omega)).trans ?_)
    · congr 3; omega
    · congr 3; omega
  have hfits (sub : ℕ) : Fits 16 (groupOf ablk sub) :=
    fits16_of_abs_le ((abs_groupOf_le ablk sub).trans (by norm_num))
  refine ⟨⟨haddEpi16_exact (fun i hi => ?_) fun i hi => ?_, trivial⟩, fun i => ?_⟩
  · rw [hlow hi]
    exact hfits i
  · rw [hhigh hi]
    exact hfits (4 + i)
  · rw [q8sums, bind_value, int16]
    refine (congrArg BitVec.toInt (word16_permute2f128 _ i)).trans ?_
    rcases Nat.lt_or_ge (i % 8) 4 with hlt | hge
    · refine (int16_haddEpi16_low hlt ?_).trans (hlow hlt)
      rw [hlow hlt]
      exact hfits _
    · obtain ⟨e, he⟩ := Nat.exists_eq_add_of_le hge
      have he4 : e < 4 := by omega
      rw [he]
      refine (int16_haddEpi16_high ?_).trans (hhigh he4)
      rw [hhigh he4]
      exact hfits _

/-- What sub-block `sub` takes off row `r`. -/
def minOf (wblk : BlockQ4Kx8) (ablk : BlockQ8K) (sub r : ℕ) : ℤ :=
  groupOf ablk sub * (pairOf wblk sub r).2

theorem iaccMinSb_holds (wblk : BlockQ4Kx8) {q8s : Reg} (hsb : sb < 4)
    (hq8s : ∀ i < 16, int16 (shuffleEpi32 0 q8s) i = groupOf ablk (2 * sb + i % 2)) :
    (iaccMinSb wblk q8s sb).exact ∧ HoldsDwords (iaccMinSb wblk q8s sb).value
      (fun r => minOf wblk ablk (2 * sb) r + minOf wblk ablk (2 * sb + 1) r)
      (2 * (4096 * 63)) := by
  have hoff0 : 24 * sb = 12 * (2 * sb) := by omega
  have hoff1 : 12 + 24 * sb = 12 * (2 * sb + 1) := by omega
  rw [iaccMinSb, hoff1, hoff0]
  refine maddEpi16_holds (by norm_num) (fun i hi => ?_) (fun i hi => ?_) fun D hD => ?_
  · rw [hq8s i hi]
    exact abs_groupOf_le ablk _
  · rw [int16_mins hsb hi, Nat.abs_cast]
    exact_mod_cast Nat.le_of_lt_succ (pairOf_lt wblk _ _).2
  · have hleft : 2 * D / 2 = D ∧ 2 * D % 2 = 0 := by omega
    have hright : (2 * D + 1) / 2 = D ∧ (2 * D + 1) % 2 = 1 := by omega
    rw [hq8s _ (by omega), hq8s _ (by omega), int16_mins hsb (by omega),
      int16_mins hsb (by omega), hleft.1, hleft.2, hright.1, hright.2, minOf, minOf, add_zero]

/-! ### A block's accumulators -/

/-- The sums left to take are the first two words of each half. -/
theorem int16_q8s (wblk : BlockQ4Kx8) (hsums : ablk.GroupSums) (sb : ℕ) {i : ℕ}
    (hi : i % 8 + 2 * sb < 8) :
    int16 (accumulate wblk ablk sb).value.q8s i = groupOf ablk (i % 8 + 2 * sb) := by
  induction sb generalizing i with
  | zero => exact (q8sums_holds hsums).2 i
  | succ sb ih =>
    have hmove : (i + 2) % 8 = i % 8 + 2 := by omega
    have hword : int16 (accumulate wblk ablk (sb + 1)).value.q8s i =
        int16 (accumulate wblk ablk sb).value.q8s (i + 2) :=
      congrArg BitVec.toInt (word16_bsrliEpi128 _ (by omega))
    rw [hword, ih (by omega), hmove]
    congr 1
    omega

/-- What the first `sb` passes leave. -/
structure HoldsPasses (wblk : BlockQ4Kx8) (ablk : BlockQ8K) (sb : ℕ) (acc : Accumulators) :
    Prop where
  iaccB : HoldsDwords acc.iaccB (fun D => ∑ s ∈ range sb,
    (subTerm wblk ablk (2 * s) (rowOf D) + subTerm wblk ablk (2 * s + 1) (rowOf D)))
    (sb * (2 * (30720 * 63) + 2 * (30720 * 63)))
  iaccMinB : HoldsDwords acc.iaccMinB (fun r => ∑ s ∈ range sb,
    (minOf wblk ablk (2 * s) r + minOf wblk ablk (2 * s + 1) r)) (sb * (2 * (4096 * 63)))

theorem holdsDwords_zero {S : ℕ → ℤ} {bound : ℤ} (hS : ∀ D, S D = 0) (hbound : 0 ≤ bound) :
    HoldsDwords (fun _ => 0) S bound := by
  intro D _
  rw [hS, abs_zero]
  exact ⟨by simp [int32, word32, word], hbound⟩

theorem accumulate_holds (wblk : BlockQ4Kx8) (hsums : ablk.GroupSums) {sb : ℕ} (hsb : sb ≤ 4) :
    (accumulate wblk ablk sb).exact ∧ HoldsPasses wblk ablk sb (accumulate wblk ablk sb).value := by
  induction sb with
  | zero =>
    refine ⟨⟨(q8sums_holds hsums).1, trivial⟩, ⟨?_, ?_⟩⟩
    · exact holdsDwords_zero (fun D => sum_range_zero _) (by simp)
    · exact holdsDwords_zero (fun D => sum_range_zero _) (by simp)
  | succ sb ih =>
    have hlt : sb < 4 := by omega
    have hle : (sb : ℤ) ≤ 3 := by omega
    obtain ⟨hexact, hholds⟩ := ih (by omega)
    have hq8s (i : ℕ) (hi : i < 16) :
        int16 (shuffleEpi32 0 (accumulate wblk ablk sb).value.q8s) i =
          groupOf ablk (2 * sb + i % 2) := by
      rw [int16, word16_shuffleEpi32, ← int16, int16_q8s wblk hsums sb (by omega)]
      congr 1
      omega
    obtain ⟨hpass, hacc⟩ := iaccSb_holds wblk ablk hlt
    obtain ⟨hmin, haccMin⟩ := iaccMinSb_holds wblk hlt hq8s
    obtain ⟨hadd, hiaccB⟩ := addEpi32_holds hholds.iaccB hacc (by norm_num; omega)
    obtain ⟨haddMin, hiaccMinB⟩ := addEpi32_holds hholds.iaccMinB haccMin (by norm_num; omega)
    refine ⟨⟨hexact, hpass, hmin, hadd, haddMin, trivial⟩, ⟨?_, ?_⟩⟩
    · rw [show (accumulate wblk ablk (sb + 1)).value.iaccB = (addEpi32 _ _).value from rfl]
      simpa only [sum_range_succ, Nat.cast_succ, add_mul, one_mul] using hiaccB
    · rw [show (accumulate wblk ablk (sb + 1)).value.iaccMinB = (addEpi32 _ _).value from rfl]
      simpa only [sum_range_succ, Nat.cast_succ, add_mul, one_mul] using hiaccMinB

/-- Four passes are eight sub-blocks. -/
theorem sum_passes (f : ℕ → ℤ) :
    ∑ s ∈ range 4, (f (2 * s) + f (2 * s + 1)) = ∑ sub : Fin 8, f sub := by
  rw [← Finset.sum_range f, show 8 = 4 * 2 from rfl, Workgroup.sum_rows]
  refine sum_congr rfl fun s _ => ?_
  rw [sum_range_succ, sum_range_one, mul_comm s 2, add_zero]

theorem sum_subTerm (wblk : BlockQ4Kx8) (ablk : BlockQ8K) (r : Fin 8) :
    ∑ sub : Fin 8, subTerm wblk ablk sub r = sumi (reverseRepackQ4Kx8 wblk r) ablk := by
  rw [sumi_eq]
  refine sum_congr rfl fun sub _ => ?_
  rw [subTerm, pairOf, dif_pos ⟨sub.isLt, r.isLt⟩, rowDot, Finset.sum_range, pairAt_reverse]
  congr 1
  refine sum_congr rfl fun k _ => ?_
  rw [quantOf, dif_pos ⟨sub.isLt, r.isLt, k.isLt⟩, actOf, dif_pos ⟨sub.isLt, k.isLt⟩]
  rfl

theorem sum_minOf (wblk : BlockQ4Kx8) (hsums : ablk.GroupSums) (r : Fin 8) :
    ∑ sub : Fin 8, minOf wblk ablk sub r = minSum (reverseRepackQ4Kx8 wblk r) ablk := by
  rw [minSum_eq hsums]
  refine sum_congr rfl fun sub _ => ?_
  rw [minOf, pairOf, dif_pos ⟨sub.isLt, r.isLt⟩, pairAt_reverse, groupOf, Finset.sum_range]
  congr 1
  refine sum_congr rfl fun k _ => ?_
  rw [actOf, dif_pos ⟨sub.isLt, k.isLt⟩]
  rfl

/-- The final permutation puts the doublewords in the order of the rows. -/
theorem rowOf_finalpermutemask {r : ℕ} (hr : r < 8) :
    finalpermutemask r < 8 ∧ rowOf (finalpermutemask r) = r := by
  interval_cases r <;> decide

/-- No lane of a block overflows, and its accumulators are the scalar sums of each row. -/
theorem blockAccumulators_holds (wblk : BlockQ4Kx8) (hsums : ablk.GroupSums) :
    (blockAccumulators wblk ablk).exact ∧ ∀ r : Fin 8,
      int32 (blockAccumulators wblk ablk).value.iaccB (finalpermutemask r) =
        sumi (reverseRepackQ4Kx8 wblk r) ablk ∧
      int32 (blockAccumulators wblk ablk).value.iaccMinB r =
        minSum (reverseRepackQ4Kx8 wblk r) ablk := by
  obtain ⟨hexact, hholds⟩ := accumulate_holds wblk hsums le_rfl
  refine ⟨hexact, fun r => ⟨?_, ?_⟩⟩
  · obtain ⟨hlt, hrow⟩ := rowOf_finalpermutemask r.isLt
    rw [blockAccumulators, (hholds.iaccB _ hlt).1]
    dsimp only
    rw [hrow, sum_passes (fun sub => subTerm wblk ablk sub r), sum_subTerm]
  · rw [blockAccumulators, (hholds.iaccMinB _ r.isLt).1]
    exact (sum_passes fun sub => minOf wblk ablk sub r).trans (sum_minOf wblk hsums r)

/-! ### The rows -/

theorem shuffleEpi8_deltamask (a : Reg) {D : ℕ} (hD : D < 8) :
    word16 (shuffleEpi8 a deltamask) D = word16 a (rowOf D) := by
  interval_cases D <;> rfl

theorem cvtphPs_loadWords (a : Fin 8 → BitVec 16) (r : Fin 8) :
    cvtphPs (loadWords a) r = halfToFloat (a r) := by
  rw [cvtphPs, loadWords, word16_ofWords16, dif_pos r.isLt, halfToFloat_eq]

/-- The scales of the rows come in the order of their doublewords. -/
theorem cvtphPs_deltamask (a : Fin 8 → BitVec 16) (r : Fin 8) :
    cvtphPs (shuffleEpi8 (loadWords a) deltamask) (finalpermutemask r) = halfToFloat (a r) := by
  obtain ⟨hlt, hrow⟩ := rowOf_finalpermutemask r.isLt
  rw [cvtphPs, shuffleEpi8_deltamask _ hlt, hrow]
  exact cvtphPs_loadWords a r

/-- A block's dot product with the activation, as the scalar kernel has it. -/
def blockDot (blk : BlockQ4Kx8 × BlockQ8K) (r : Fin 8) : ℚ :=
  (∑ i, dequantizeQ4kBlock (reverseRepackQ4Kx8 blk.1 r) i * (blk.2.qs i).toInt) * blk.2.d

/-- A block adds its dot product to each row. -/
theorem addBlock_sub (wblk : BlockQ4Kx8) (hsums : ablk.GroupSums) (st : Rows) (r : Fin 8) :
    (addBlock wblk ablk (blockAccumulators wblk ablk).value st).accRow (finalpermutemask r) -
        (addBlock wblk ablk (blockAccumulators wblk ablk).value st).accMinRows r =
      st.accRow (finalpermutemask r) - st.accMinRows r + blockDot (wblk, ablk) r := by
  obtain ⟨hacc, hmin⟩ := (blockAccumulators_holds wblk hsums).2 r
  rw [blockDot, sum_dequantize _ hsums]
  simp only [addBlock, hacc, hmin, cvtphPs_deltamask, cvtphPs_loadWords]
  show _ = _ + (halfToFloat (wblk.d r) * _ - halfToFloat (wblk.dmin r) * _) * _
  ring

theorem foldlM_addBlock {blocks : List (BlockQ4Kx8 × BlockQ8K)}
    (hsums : ∀ blk ∈ blocks, blk.2.GroupSums) (st : Rows) :
    let rows : Checked Rows := blocks.foldlM (fun st blk => do
      let acc ← blockAccumulators blk.1 blk.2
      return addBlock blk.1 blk.2 acc st) st
    rows.exact ∧ ∀ r : Fin 8, rows.value.accRow (finalpermutemask r) - rows.value.accMinRows r =
      st.accRow (finalpermutemask r) - st.accMinRows r + (blocks.map (blockDot · r)).sum := by
  induction blocks generalizing st with
  | nil => exact ⟨trivial, fun r => by simp [pure]⟩
  | cons blk blocks ih =>
    have hblk : blk.2.GroupSums := hsums blk List.mem_cons_self
    obtain ⟨hexact, hvalue⟩ := ih (fun y hy => hsums y (List.mem_cons_of_mem _ hy))
      (addBlock blk.1 blk.2 (blockAccumulators blk.1 blk.2).value st)
    rw [List.foldlM_cons]
    refine ⟨⟨⟨(blockAccumulators_holds blk.1 hblk).1, trivial⟩, hexact⟩, fun r => ?_⟩
    refine (hvalue r).trans ?_
    rw [addBlock_sub blk.1 hblk, List.map_cons, List.sum_cons, add_assoc]

/-- No lane overflows, every block's accumulators are the scalar sums of each row, and the eight
results are those of the scalar product, in the order of the rows. -/
theorem gemvAvx2_eq_scalar {weights : List BlockQ4Kx8} {activation : List BlockQ8K}
    (hlen : weights.length = activation.length) (hsums : ∀ y ∈ activation, y.GroupSums) :
    (∀ blk ∈ weights.zip activation, (blockAccumulators blk.1 blk.2).exact ∧ ∀ r : Fin 8,
      int32 (blockAccumulators blk.1 blk.2).value.iaccB (finalpermutemask r) =
        sumi (reverseRepackQ4Kx8 blk.1 r) blk.2 ∧
      int32 (blockAccumulators blk.1 blk.2).value.iaccMinB r =
        minSum (reverseRepackQ4Kx8 blk.1 r) blk.2) ∧
    ∃ out, gemvQ4K8x8Q8KAvx2 weights activation = some out ∧ out.exact ∧
      gemvQ4K8x8Q8KScalar weights activation = some out.value := by
  have hblocks (blk : BlockQ4Kx8 × BlockQ8K) (hblk : blk ∈ weights.zip activation) :
      blk.2.GroupSums := hsums _ (List.of_mem_zip hblk).2
  refine ⟨fun blk hblk => blockAccumulators_holds blk.1 (hblocks blk hblk), _, if_pos hlen, ?_, ?_⟩
  · exact ⟨(foldlM_addBlock hblocks _).1, trivial⟩
  · rw [gemvQ4K8x8Q8KScalar, if_pos hlen]
    refine congrArg some (funext fun r => ?_)
    refine Eq.trans ?_ ((foldlM_addBlock hblocks _).2 r).symm
    rw [sub_self, zero_add]
    rfl

/-- Two super-blocks at the ends of the ranges: all quants, scales and mins the largest, and all
elements of the activation the least. -/
theorem gemvAvx2_eq_scalar_extreme :
    let wblk : BlockQ4Kx8 := ⟨fun r => 0x3C00 + BitVec.ofNat 16 r, fun _ => 0x0001, fun _ => 0xFF,
      fun _ => 0xFF⟩
    let y : BlockQ8K := ⟨1, fun _ => 0x80, fun _ => 0xF800⟩
    ∃ out, gemvQ4K8x8Q8KAvx2 [wblk, wblk] [y, y] = some out ∧ out.exact ∧
      gemvQ4K8x8Q8KScalar [wblk, wblk] [y, y] = some out.value := by
  intro wblk y
  refine (gemvAvx2_eq_scalar rfl fun y' hy' => ?_).2
  have hy : y' = y := by simpa using hy'
  rw [hy]
  intro g
  rfl

end Zllm.Candle.Avx2Kernel
