import Mathlib.Analysis.SpecialFunctions.Pow.Real

/-!
# Rotary tables

The candle loader scales the frequencies three ways (`rope_freqs.weight` divisors, linear, YaRN);
the GPU loaders build the plain table. Angles are real numbers, so the tables are exact. A frequency
base that is not positive, where the floats are infinite or NaN, gets the value the real power gives
it.
-/

namespace Zllm.Loader

/-- RoPE frequency scaling declared by the GGUF. -/
inductive RopeScaling where
  | none
  | linear (factor : ℚ)
  | yarn (factor : ℚ) (origCtx : ℕ)

/-- The arguments of `precomput_freqs_cis`. -/
structure RopeArgs where
  headDim : ℕ
  freqBase : ℚ
  maxSeq : ℕ
  freqFactors : Option (List ℚ)
  scaling : RopeScaling

/-- Cos/sin tables: `maxSeq` rows of angles `pos * theta pair`, scaled by `mscale`. -/
structure RopeTables where
  maxSeq : ℕ
  theta : ℕ → ℝ
  mscale : ℝ

namespace RopeTables

def angle (tables : RopeTables) (pos pair : ℕ) : ℝ := pos * tables.theta pair

noncomputable def cos (tables : RopeTables) (pos pair : ℕ) : ℝ :=
  Real.cos (tables.angle pos pair) * tables.mscale

noncomputable def sin (tables : RopeTables) (pos pair : ℕ) : ℝ :=
  Real.sin (tables.angle pos pair) * tables.mscale

/-- The tables rotate `pairs` pairs alike at every position both hold. -/
structure Agree (a b : RopeTables) (pairs : ℕ) : Prop where
  angle : ∀ pos, pos < a.maxSeq → pos < b.maxSeq → ∀ pair < pairs,
    a.angle pos pair = b.angle pos pair
  mscale : 0 < a.maxSeq → 0 < b.maxSeq → a.mscale = b.mscale

theorem Agree.cos_eq {a b : RopeTables} {pairs : ℕ} (hagree : Agree a b pairs) {pos pair : ℕ}
    (ha : pos < a.maxSeq) (hb : pos < b.maxSeq) (hpair : pair < pairs) :
    a.cos pos pair = b.cos pos pair := by
  rw [cos, cos, hagree.angle pos ha hb pair hpair,
    hagree.mscale (Nat.zero_lt_of_lt ha) (Nat.zero_lt_of_lt hb)]

theorem Agree.sin_eq {a b : RopeTables} {pairs : ℕ} (hagree : Agree a b pairs) {pos pair : ℕ}
    (ha : pos < a.maxSeq) (hb : pos < b.maxSeq) (hpair : pair < pairs) :
    a.sin pos pair = b.sin pos pair := by
  rw [sin, sin, hagree.angle pos ha hb pair hpair,
    hagree.mscale (Nat.zero_lt_of_lt ha) (Nat.zero_lt_of_lt hb)]

/-- Position zero has no angle, and the angles of position one fix the frequencies. -/
theorem agree_iff {a b : RopeTables} {pairs : ℕ} :
    Agree a b pairs ↔
      (1 < min a.maxSeq b.maxSeq → ∀ pair < pairs, a.theta pair = b.theta pair) ∧
        (0 < min a.maxSeq b.maxSeq → a.mscale = b.mscale) := by
  constructor
  · intro hagree
    refine ⟨fun hone pair hpair => ?_, fun hpos => ?_⟩
    · rw [lt_min_iff] at hone
      simpa [RopeTables.angle] using hagree.angle 1 hone.1 hone.2 pair hpair
    · rw [lt_min_iff] at hpos
      exact hagree.mscale hpos.1 hpos.2
  · rintro ⟨htheta, hmscale⟩
    refine ⟨fun pos ha hb pair hpair => ?_, fun ha hb => hmscale (lt_min ha hb)⟩
    rcases Nat.eq_zero_or_pos pos with rfl | hpos
    · simp [RopeTables.angle]
    · rw [RopeTables.angle, RopeTables.angle, htheta (lt_min (by omega) (by omega)) pair hpair]

end RopeTables

/-! ### The unscaled table -/

/-- `1 / base ^ (2j / head_dim)` for the pair `j`. -/
noncomputable def pairTheta (freqBase : ℚ) (headDim pair : ℕ) : ℝ :=
  1 / (freqBase : ℝ) ^ (((2 * pair : ℕ) : ℝ) / headDim)

noncomputable def plainTables (freqBase : ℚ) (headDim maxSeq : ℕ) : RopeTables :=
  { maxSeq, theta := pairTheta freqBase headDim, mscale := 1 }

/-! ### The scaled table -/

/-- The divisor `rope_freqs.weight` gives a pair: zero entries and missing ones leave it alone. -/
def freqFactor (freqFactors : Option (List ℚ)) (pair : ℕ) : ℚ :=
  match freqFactors.bind (·[pair]?) with
  | some f => if f ≠ 0 then f else 1
  | none => 1

noncomputable def yarnBetaFast : ℝ := 32
noncomputable def yarnBetaSlow : ℝ := 1

/-- The pair index at which a dimension completes `beta` rotations over the original context. -/
noncomputable def yarnCorr (args : RopeArgs) (origCtx : ℕ) (beta : ℝ) : ℝ :=
  args.headDim * Real.log (origCtx / (beta * (2 : ℕ) * Real.pi)) / ((2 : ℕ) * Real.log args.freqBase)

/-- `1` is pure extrapolation. -/
noncomputable def extrapMix (args : RopeArgs) (origCtx pair : ℕ) : ℝ :=
  let low : ℝ := max ⌊yarnCorr args origCtx yarnBetaFast⌋ 0
  let high : ℝ := min ⌈yarnCorr args origCtx yarnBetaSlow⌉ (args.headDim - 1)
  let denom := max (high - low) 0.001
  1 - max 0 (min ((pair - low) / denom) 1)

/-- `factor.max(1e-6)`, and `1` where no scaling is declared. -/
def RopeScaling.stretch : RopeScaling → ℚ
  | none => 1
  | linear factor => max factor (1 / 1000000)
  | yarn factor _ => max factor (1 / 1000000)

noncomputable def scaledTheta (args : RopeArgs) (pair : ℕ) (t : ℝ) : ℝ :=
  match args.scaling with
  | .none => t
  | .linear _ => t * (1 / args.scaling.stretch)
  | .yarn _ origCtx =>
    t / args.scaling.stretch * (1 - extrapMix args origCtx pair) + t * extrapMix args origCtx pair

noncomputable def yarnMscale : RopeScaling → ℝ
  | .yarn factor origCtx => 1 + 0.1 * Real.log (RopeScaling.yarn factor origCtx).stretch
  | _ => 1

noncomputable def precomputFreqsCis (args : RopeArgs) : RopeTables where
  maxSeq := args.maxSeq
  theta pair := scaledTheta args pair
    (pairTheta args.freqBase args.headDim pair / freqFactor args.freqFactors pair)
  mscale := yarnMscale args.scaling

/-! ### When scaling changes nothing -/

def RopeScaling.IsYarn : RopeScaling → Prop
  | yarn _ _ => True
  | _ => False

theorem RopeScaling.stretch_pos (scaling : RopeScaling) : 0 < scaling.stretch := by
  cases scaling with
  | none => exact one_pos
  | linear factor => exact lt_max_of_lt_right (by norm_num)
  | yarn factor origCtx => exact lt_max_of_lt_right (by norm_num)

theorem freqFactor_ne_zero (freqFactors : Option (List ℚ)) (pair : ℕ) :
    freqFactor freqFactors pair ≠ 0 := by
  unfold freqFactor
  split
  · split_ifs with hf
    · exact hf
    · exact one_ne_zero
  · exact one_ne_zero

/-- YaRN keeps the magnitude only where it stretches nothing. -/
theorem yarnMscale_eq_one_iff (scaling : RopeScaling) :
    yarnMscale scaling = 1 ↔ (scaling.IsYarn → scaling.stretch = 1) := by
  cases scaling with
  | none => simp [yarnMscale, RopeScaling.IsYarn]
  | linear factor => simp [yarnMscale, RopeScaling.IsYarn]
  | yarn factor origCtx =>
    have hpos : (0 : ℝ) < (RopeScaling.yarn factor origCtx).stretch := by
      exact_mod_cast RopeScaling.stretch_pos _
    have hlog : Real.log (RopeScaling.yarn factor origCtx).stretch = 0 ↔
        ((RopeScaling.yarn factor origCtx).stretch : ℝ) = 1 := by
      rw [Real.log_eq_zero]
      constructor
      · rintro (h | h | h)
        · exact absurd h hpos.ne'
        · exact h
        · linarith
      · exact fun h => .inr (.inl h)
    simp only [yarnMscale, RopeScaling.IsYarn, true_implies]
    rw [add_eq_left, mul_eq_zero, hlog, or_iff_right (by norm_num)]
    exact_mod_cast Iff.rfl

/-- Once YaRN stretches nothing, every scaling is a division. -/
theorem scaledTheta_eq_div (args : RopeArgs) (pair : ℕ) (t : ℝ)
    (hyarn : args.scaling.IsYarn → args.scaling.stretch = 1) :
    scaledTheta args pair t = t / args.scaling.stretch := by
  cases hscaling : args.scaling with
  | none => simp [scaledTheta, hscaling, RopeScaling.stretch]
  | linear factor => simp [scaledTheta, hscaling, div_eq_mul_inv]
  | yarn factor origCtx =>
    have hone : (RopeScaling.yarn factor origCtx).stretch = 1 := by
      rw [← hscaling]
      exact hyarn (by simp [hscaling, RopeScaling.IsYarn])
    simp only [scaledTheta, hscaling, hone, Rat.cast_one, div_one]
    ring

/-- The declared scaling leaves the table as it is: YaRN keeps the magnitude wherever there is a
row, and no pair that turns is divided where there are two. -/
structure RopeArgs.Plain (args : RopeArgs) (window : ℕ) : Prop where
  magnitude : 0 < window → args.scaling.IsYarn → args.scaling.stretch = 1
  frequency : 1 < window → ∀ pair < args.headDim / 2,
    pairTheta args.freqBase args.headDim pair ≠ 0 →
      freqFactor args.freqFactors pair * args.scaling.stretch = 1

theorem theta_div_eq_iff {t : ℝ} {divisor : ℚ} (hdivisor : divisor ≠ 0) :
    t / divisor = t ↔ (t ≠ 0 → divisor = 1) := by
  have hne : (divisor : ℝ) ≠ 0 := by exact_mod_cast hdivisor
  rw [div_eq_iff hne]
  constructor
  · intro heq ht
    have : (divisor : ℝ) = 1 := by
      apply mul_left_cancel₀ ht
      rw [mul_one, ← heq]
    exact_mod_cast this
  · intro hone
    by_cases ht : t = 0
    · simp [ht]
    · simp [hone ht]

theorem precomputFreqsCis_agree_iff (args : RopeArgs) (maxSeq : ℕ) :
    (precomputFreqsCis args).Agree (plainTables args.freqBase args.headDim maxSeq)
        (args.headDim / 2) ↔
      args.Plain (min args.maxSeq maxSeq) := by
  rw [RopeTables.agree_iff]
  have htheta : ∀ pair, (args.scaling.IsYarn → args.scaling.stretch = 1) →
      ((precomputFreqsCis args).theta pair = pairTheta args.freqBase args.headDim pair ↔
        (pairTheta args.freqBase args.headDim pair ≠ 0 →
          freqFactor args.freqFactors pair * args.scaling.stretch = 1)) := by
    intro pair hyarn
    rw [← theta_div_eq_iff (mul_ne_zero (freqFactor_ne_zero _ _) args.scaling.stretch_pos.ne')]
    simp only [precomputFreqsCis]
    rw [scaledTheta_eq_div _ _ _ hyarn, div_div, Rat.cast_mul]
  constructor
  · rintro ⟨hangle, hmscale⟩
    have hmagnitude : 0 < min args.maxSeq maxSeq →
        args.scaling.IsYarn → args.scaling.stretch = 1 :=
      fun hpos => (yarnMscale_eq_one_iff _).mp (hmscale hpos)
    exact ⟨hmagnitude, fun hone pair hpair =>
      (htheta pair (hmagnitude (Nat.zero_lt_of_lt hone))).mp (hangle hone pair hpair)⟩
  · rintro ⟨hmagnitude, hfrequency⟩
    exact ⟨fun hone pair hpair =>
      (htheta pair (hmagnitude (Nat.zero_lt_of_lt hone))).mpr (hfrequency hone pair hpair),
      fun hpos => (yarnMscale_eq_one_iff _).mpr (hmagnitude hpos)⟩

end Zllm.Loader
