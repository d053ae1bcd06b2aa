import Zllm.Candle.Q4KAvx2
import Zllm.Lib.Workgroup

/-!
# The lines of the AVX2 product

A line multiplies four elements of each of the eight rows, in the order 0, 4, 1, 5, 2, 6, 3, 7. The
eight lines of a sub-block take all its elements, and stay in 16 bits.
-/

namespace Zllm.Candle.Avx2Kernel

open Bytes Avx2 Finset

/-- The row of doubleword `D`. -/
def rowOf (D : ℕ) : ℕ := D / 2 + if D % 2 = 0 then 0 else 4

/-- A pair of products of lane `i` on elements from `k` on. -/
def pairTerm (q : ℕ → ℕ → ℕ) (a : ℕ → ℤ) (k i : ℕ) : ℤ :=
  q (rowOf (i / 2)) (k + 2 * (i % 2)) * a (k + 2 * (i % 2)) +
    q (rowOf (i / 2)) (k + 2 * (i % 2) + 1) * a (k + 2 * (i % 2) + 1)

/-- Registers of four rows each hold eight elements of every row from `k` on. -/
structure HoldsRows (v0123 v4567 : Reg) (q : ℕ → ℕ → ℕ) (k : ℕ) : Prop where
  low : ∀ i < 32, (v0123 i).toNat = q (i / 8) (k + i % 8)
  high : ∀ i < 32, (v4567 i).toNat = q (4 + i / 8) (k + i % 8)

/-- A register holds 16 elements of the activation from `k` on, twice. -/
def HoldsActivation (v : Reg) (a : ℕ → ℤ) (k : ℕ) : Prop :=
  ∀ i < 32, (v i).toInt = a (k + i % 16)

variable {v0123 v4567 lhs : Reg} {q : ℕ → ℕ → ℕ} {a : ℕ → ℤ} {k : ℕ}

/-- Even doublewords of the blend are of one register, odd ones of the other. -/
theorem blendEpi32_170 (a b : Reg) {D e : ℕ} (hD : D < 8) (he : e < 4) :
    blendEpi32 170 a b (4 * D + e) = if D % 2 = 0 then a (4 * D + e) else b (4 * D + e) := by
  have hdiv : (4 * D + e) / 4 = D := by omega
  rw [blendEpi32, hdiv]
  interval_cases D <;> rfl

/-- Neighbouring doublewords change places. -/
theorem shuffleEpi32_177 (a : Reg) {D e : ℕ} (hD : D < 8) (he : e < 4) :
    shuffleEpi32 177 a (4 * D + e) =
      a (if D % 2 = 0 then 4 * (D + 1) + e else 4 * (D - 1) + e) := by
  have hdiv : (4 * D + e) / 4 = D := by omega
  have hmod : (4 * D + e) % 4 = e := by omega
  have hlane : (4 * D + e) / 16 = D / 4 := by omega
  rw [shuffleEpi32, hdiv, hmod, hlane]
  interval_cases D <;> rfl

/-- One doubleword of each half goes everywhere. -/
theorem shuffleEpi32_broadcast (a : Reg) {t i : ℕ} (ht : t < 4) :
    shuffleEpi32 (85 * t) a i = a (16 * (i / 16) + 4 * t + i % 4) := by
  have hselect : 85 * t / 4 ^ (i / 4 % 4) % 4 = t := by
    have hlt : i / 4 % 4 < 4 := Nat.mod_lt _ (by decide)
    generalize i / 4 % 4 = j at hlt
    interval_cases t <;> interval_cases j <;> rfl
  rw [shuffleEpi32, hselect]

theorem evenBlend (hrows : HoldsRows v0123 v4567 q k) {D e : ℕ} (hD : D < 8) (he : e < 4) :
    (blendEpi32 170 v0123 (shuffleEpi32 177 v4567) (4 * D + e)).toNat = q (rowOf D) (k + e) := by
  rw [blendEpi32_170 _ _ hD he, shuffleEpi32_177 _ hD he, rowOf]
  split_ifs with hside
  · rw [hrows.low _ (by omega)]
    congr 1 <;> omega
  · rw [hrows.high _ (by omega)]
    congr 1 <;> omega

theorem oddBlend (hrows : HoldsRows v0123 v4567 q k) {D e : ℕ} (hD : D < 8) (he : e < 4) :
    (blendEpi32 170 (shuffleEpi32 177 v0123) v4567 (4 * D + e)).toNat =
      q (rowOf D) (k + 4 + e) := by
  rw [blendEpi32_170 _ _ hD he, shuffleEpi32_177 _ hD he, rowOf]
  split_ifs with hside
  · rw [hrows.low _ (by omega)]
    congr 1 <;> omega
  · rw [hrows.high _ (by omega)]
    congr 1 <;> omega

/-- The products of lane `i` where the rows' elements meet the activation's. -/
theorem mulBytes_eq {x : Reg} (ha : HoldsActivation lhs a k) {t : ℕ} (ht : t < 4) {start : ℕ}
    (hx : ∀ D < 8, ∀ e < 4, (x (4 * D + e)).toNat = q (rowOf D) (start + e))
    (hstart : start = k + 4 * t) {i : ℕ} (hi : i < 16) :
    mulBytes x (shuffleEpi32 (85 * t) lhs) i = pairTerm q a start i := by
  have hleft : 2 * i = 4 * (i / 2) + 2 * (i % 2) := by omega
  have hright : 2 * i + 1 = 4 * (i / 2) + (2 * (i % 2) + 1) := by omega
  have hact {e : ℕ} (he : e < 4) :
      (shuffleEpi32 (85 * t) lhs (4 * (i / 2) + e)).toInt = a (start + e) := by
    rw [shuffleEpi32_broadcast _ ht, ha _ (by omega), hstart]
    congr 1
    omega
  rw [mulBytes, hright, hleft, hx _ (by omega) _ (by omega), hx _ (by omega) _ (by omega),
    hact (by omega), hact (by omega), pairTerm, add_assoc]

/-! ### A line -/

/-- Sixteen lanes, none beyond `n` products of a pair. -/
def HoldsLanes (acc : Reg) (S : ℕ → ℤ) (n : ℕ) : Prop :=
  ∀ i < 16, int16 acc i = S i ∧ |S i| ≤ 3840 * n

theorem fits16_of_abs_le {z : ℤ} (hz : |z| ≤ 30720) : Fits 16 z := by
  obtain ⟨hlow, hhigh⟩ := abs_le.mp hz
  constructor
  · norm_num
    omega
  · norm_num
    omega

theorem addLine {x y acc : Reg} {S T : ℕ → ℤ} {n : ℕ} (hn : n < 8) (hacc : HoldsLanes acc S n)
    (hmul : ∀ i < 16, mulBytes x y i = T i ∧ |T i| ≤ 3840) :
    let r : Checked Reg := do
      let p ← maddubsEpi16 x y
      addEpi16 acc p
    r.exact ∧ HoldsLanes r.value (fun i => S i + T i) (n + 1) := by
  have hsum {i : ℕ} (hi : i < 16) : |S i + T i| ≤ 3840 * (n + 1 : ℕ) := by
    calc |S i + T i| ≤ |S i| + |T i| := abs_add_le _ _
      _ ≤ 3840 * n + 3840 := add_le_add (hacc i hi).2 (hmul i hi).2
      _ = 3840 * (n + 1 : ℕ) := by push_cast; ring
  have hbound {i : ℕ} (hi : i < 16) : |S i + T i| ≤ 30720 := (hsum hi).trans (by push_cast; omega)
  have hproduct {i : ℕ} (hi : i < 16) : Fits 16 (mulBytes x y i) := by
    rw [(hmul i hi).1]
    exact fits16_of_abs_le ((hmul i hi).2.trans (by norm_num))
  have hadded {i : ℕ} (hi : i < 16) :
      Fits 16 (int16 acc i + int16 (maddubsEpi16 x y).value i) := by
    rw [int16_maddubsEpi16 (hproduct hi), (hacc i hi).1, (hmul i hi).1]
    exact fits16_of_abs_le (hbound hi)
  refine ⟨⟨fun i hi => hproduct hi, fun i hi => hadded hi⟩, fun i hi => ⟨?_, hsum hi⟩⟩
  rw [bind_value, int16_addEpi16 (hadded hi), int16_maddubsEpi16 (hproduct hi), (hacc i hi).1,
    (hmul i hi).1]

/-! ### The lines of a sub-block -/

/-- What the first `n` lines add to lane `i`. -/
def lineSum (q : ℕ → ℕ → ℕ) (a : ℕ → ℤ) (n i : ℕ) : ℤ := ∑ l ∈ range n, pairTerm q a (4 * l) i

/-- Four-bit quants and eight-bit activations. -/
structure Bounded (q : ℕ → ℕ → ℕ) (a : ℕ → ℤ) : Prop where
  quant : ∀ r < 8, ∀ k < 32, q r k ≤ 15
  act : ∀ k < 32, |a k| ≤ 128

theorem rowOf_lt {D : ℕ} (hD : D < 8) : rowOf D < 8 := by
  rw [rowOf]
  split_ifs <;> omega

theorem abs_pairTerm_le (hbounded : Bounded q a) {l i : ℕ} (hl : l < 8) (hi : i < 16) :
    |pairTerm q a (4 * l) i| ≤ 3840 := by
  have hrow : rowOf (i / 2) < 8 := rowOf_lt (by omega)
  have hterm {e : ℕ} (he : e < 32) : |(q (rowOf (i / 2)) e : ℤ) * a e| ≤ 15 * 128 := by
    rw [abs_mul, Nat.abs_cast]
    exact mul_le_mul (by exact_mod_cast hbounded.quant _ hrow e he) (hbounded.act e he)
      (abs_nonneg _) (by norm_num)
  calc |pairTerm q a (4 * l) i| ≤ 15 * 128 + 15 * 128 :=
        (abs_add_le _ _).trans (add_le_add (hterm (by omega)) (hterm (by omega)))
    _ = 3840 := by norm_num

/-- A line that takes the elements from `4 * n` on adds its pairs to the lanes. -/
theorem line_holds (hbounded : Bounded q a) {x acc : Reg} {n t : ℕ} (hn : n < 8) (ht : t < 4)
    (ha : HoldsActivation lhs a k) (hk : 4 * n = k + 4 * t)
    (hx : ∀ D < 8, ∀ e < 4, (x (4 * D + e)).toNat = q (rowOf D) (4 * n + e))
    (hacc : HoldsLanes acc (lineSum q a n) n) :
    let r : Checked Reg := do
      let p ← maddubsEpi16 x (shuffleEpi32 (85 * t) lhs)
      addEpi16 acc p
    r.exact ∧ HoldsLanes r.value (lineSum q a (n + 1)) (n + 1) := by
  have hline : lineSum q a (n + 1) = fun i => lineSum q a n i + pairTerm q a (4 * n) i := by
    funext i
    exact sum_range_succ _ n
  rw [hline]
  refine addLine hn hacc fun i hi => ⟨mulBytes_eq ha ht hx hk hi, ?_⟩
  exact abs_pairTerm_le hbounded hn hi

/-- The registers of a sub-block hold its rows' elements, and those of the activation. -/
structure HoldsSubBlock (v0123 v4567 : ℕ → Reg) (lhs0 lhs1 : Reg) (q : ℕ → ℕ → ℕ) (a : ℕ → ℤ) :
    Prop where
  rows : ∀ c < 4, HoldsRows (v0123 c) (v4567 c) q (8 * c)
  act0 : HoldsActivation lhs0 a 0
  act1 : HoldsActivation lhs1 a 16
  bounded : Bounded q a

theorem lines_holds {v0123 v4567 : ℕ → Reg} {lhs0 lhs1 : Reg}
    (hsub : HoldsSubBlock v0123 v4567 lhs0 lhs1 q a) :
    (lines v0123 v4567 lhs0 lhs1).exact ∧
      HoldsLanes (lines v0123 v4567 lhs0 lhs1).value (lineSum q a 8) 8 := by
  have hzero : HoldsLanes (fun _ => 0) (lineSum q a 0) 0 := by
    intro i _
    simp [lineSum, int16, word16]
  have heven {c : ℕ} (hc : c < 4) (D : ℕ) (hD : D < 8) (e : ℕ) (he : e < 4) :=
    evenBlend (hsub.rows c hc) hD he
  have hodd {c : ℕ} (hc : c < 4) (D : ℕ) (hD : D < 8) (e : ℕ) (he : e < 4) :=
    oddBlend (hsub.rows c hc) hD he
  obtain ⟨hx0, h0⟩ := line_holds hsub.bounded (n := 0) (t := 0) (by decide) (by decide) hsub.act0
    rfl (heven (c := 0) (by decide)) hzero
  obtain ⟨hx1, h1⟩ := line_holds hsub.bounded (n := 1) (t := 1) (by decide) (by decide) hsub.act0
    rfl (hodd (c := 0) (by decide)) h0
  obtain ⟨hx2, h2⟩ := line_holds hsub.bounded (n := 2) (t := 2) (by decide) (by decide) hsub.act0
    rfl (heven (c := 1) (by decide)) h1
  obtain ⟨hx3, h3⟩ := line_holds hsub.bounded (n := 3) (t := 3) (by decide) (by decide) hsub.act0
    rfl (hodd (c := 1) (by decide)) h2
  obtain ⟨hx4, h4⟩ := line_holds hsub.bounded (n := 4) (t := 0) (by decide) (by decide) hsub.act1
    rfl (heven (c := 2) (by decide)) h3
  obtain ⟨hx5, h5⟩ := line_holds hsub.bounded (n := 5) (t := 1) (by decide) (by decide) hsub.act1
    rfl (hodd (c := 2) (by decide)) h4
  obtain ⟨hx6, h6⟩ := line_holds hsub.bounded (n := 6) (t := 2) (by decide) (by decide) hsub.act1
    rfl (heven (c := 3) (by decide)) h5
  obtain ⟨hx7, h7⟩ := line_holds hsub.bounded (n := 7) (t := 3) (by decide) (by decide) hsub.act1
    rfl (hodd (c := 3) (by decide)) h6
  exact ⟨⟨hx0, hx1, hx2, hx3, hx4, hx5, hx6, hx7⟩, h7⟩

/-! ### Scales -/

/-- A row's product with the activation over a sub-block. -/
def rowDot (q : ℕ → ℕ → ℕ) (a : ℕ → ℤ) (r : ℕ) : ℤ := ∑ k ∈ range 32, q r k * a k

/-- Two lanes make a row. -/
theorem lineSum_add (q : ℕ → ℕ → ℕ) (a : ℕ → ℤ) (D : ℕ) :
    lineSum q a 8 (2 * D) + lineSum q a 8 (2 * D + 1) = rowDot q a (rowOf D) := by
  have hleft : 2 * D / 2 = D ∧ 2 * D % 2 = 0 := by omega
  have hright : (2 * D + 1) / 2 = D ∧ (2 * D + 1) % 2 = 1 := by omega
  rw [rowDot, show 32 = 8 * 4 from rfl, Workgroup.sum_rows, lineSum, lineSum,
    ← sum_add_distrib]
  refine sum_congr rfl fun l _ => ?_
  rw [pairTerm, pairTerm, hleft.1, hleft.2, hright.1, hright.2]
  simp only [sum_range_succ, sum_range_zero, mul_comm l 4]
  ring

theorem fits32_of_abs_le {z : ℤ} (hz : |z| ≤ 2 ^ 30) : Fits 32 z := by
  obtain ⟨hlow, hhigh⟩ := abs_le.mp hz
  constructor
  · norm_num at hlow ⊢
    omega
  · norm_num at hhigh ⊢
    omega

/-- Eight 32-bit lanes, none beyond `bound`. -/
def HoldsDwords (v : Reg) (S : ℕ → ℤ) (bound : ℤ) : Prop :=
  ∀ D < 8, int32 v D = S D ∧ |S D| ≤ bound

/-- Words times words, with room for the sum of two products. -/
theorem maddEpi16_holds {x y : Reg} {S : ℕ → ℤ} {bx bw : ℤ} (hbound : 2 * (bx * bw) ≤ 2 ^ 30)
    (hx : ∀ i < 16, |int16 x i| ≤ bx) (hy : ∀ i < 16, |int16 y i| ≤ bw)
    (hS : ∀ D < 8, int16 x (2 * D) * int16 y (2 * D) +
      int16 x (2 * D + 1) * int16 y (2 * D + 1) = S D) :
    (maddEpi16 x y).exact ∧ HoldsDwords (maddEpi16 x y).value S (2 * (bx * bw)) := by
  have hproduct {i : ℕ} (hi : i < 16) : |int16 x i * int16 y i| ≤ bx * bw := by
    rw [abs_mul]
    exact mul_le_mul (hx i hi) (hy i hi) (abs_nonneg _) ((abs_nonneg _).trans (hx i hi))
  have hsum {D : ℕ} (hD : D < 8) : |S D| ≤ 2 * (bx * bw) := by
    rw [← hS D hD]
    calc _ ≤ bx * bw + bx * bw :=
          (abs_add_le _ _).trans (add_le_add (hproduct (by omega)) (hproduct (by omega)))
      _ = 2 * (bx * bw) := by ring
  have hfits {D : ℕ} (hD : D < 8) : Fits 32 (mulWords x y D) := by
    rw [mulWords_eq, hS D hD]
    exact fits32_of_abs_le ((hsum hD).trans hbound)
  refine ⟨fun D hD => hfits hD, fun D hD => ⟨?_, hsum hD⟩⟩
  rw [int32_maddEpi16 (hfits hD), mulWords_eq, hS D hD]

/-- A sub-block's products, each row with its own scale. -/
theorem scaled_holds {acc scales : Reg} {s : ℕ → ℕ} (hacc : HoldsLanes acc (lineSum q a 8) 8)
    (hscales : ∀ i < 16, int16 scales i = s (rowOf (i / 2))) (hs : ∀ r < 8, s r < 64) :
    (maddEpi16 acc scales).exact ∧
      HoldsDwords (maddEpi16 acc scales).value (fun D => s (rowOf D) * rowDot q a (rowOf D))
        (2 * (30720 * 63)) := by
  refine maddEpi16_holds (by norm_num) (fun i hi => ?_) (fun i hi => ?_) fun D hD => ?_
  · rw [(hacc i hi).1]
    exact (hacc i hi).2.trans (by norm_num)
  · rw [hscales i hi, Nat.abs_cast]
    have hlt := hs _ (rowOf_lt (show i / 2 < 8 by omega))
    exact_mod_cast Nat.le_of_lt_succ hlt
  · rw [(hacc _ (by omega)).1, (hacc _ (by omega)).1, hscales _ (by omega), hscales _ (by omega),
      show 2 * D / 2 = D by omega, show (2 * D + 1) / 2 = D by omega, ← lineSum_add]
    ring

end Zllm.Candle.Avx2Kernel
