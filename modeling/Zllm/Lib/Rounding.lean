import Zllm.Lib.Extended
import Mathlib.Data.Int.Log

/-!
# Rounded arithmetic

An operation on floats is the one on numbers, rounded. A rounding keeps the order, so that only
`nan` is rounded to `nan`, and it keeps the integers and the powers of two of its format. One
rounding is that of 32-bit floats: to the nearest of them, and between two to the one with an even
significand.
-/

namespace Zllm

open Extended (nan bot fin top ofRat)

structure Rounding where
  round : Extended ℝ → Extended ℝ
  round_nan : round nan = nan
  round_mono : ∀ {x y}, x ≤ y → round x ≤ round y
  round_natCast : ∀ n : ℕ, n ≤ 2 ^ 24 → round (fin (n : ℝ)) = fin (n : ℝ)
  round_halfPow : ∀ k : ℕ, k ≤ 149 → round (fin ((1 / 2) ^ k)) = fin ((1 / 2) ^ k)

namespace Rounding

variable (q : Rounding)

def IsFloat (x : Extended ℝ) : Prop := q.round x = x

noncomputable def add (x y : Extended ℝ) : Extended ℝ := q.round (x + y)

noncomputable def sub (x y : Extended ℝ) : Extended ℝ := q.round (x - y)

noncomputable def mul (x y : Extended ℝ) : Extended ℝ := q.round (x * y)

noncomputable def div (x y : Extended ℝ) : Extended ℝ := q.round (x / y)

noncomputable def sqrt (x : Extended ℝ) : Extended ℝ := q.round x.sqrt

/-- A literal. -/
noncomputable def lit (r : ℚ) : Extended ℝ := q.round (ofRat r)

noncomputable def sum (xs : List (Extended ℝ)) : Extended ℝ := xs.foldl q.add 0

/-- Arithmetic without rounding. -/
def exact : Rounding where
  round := id
  round_nan := rfl
  round_mono := id
  round_natCast _ _ := rfl
  round_halfPow _ _ := rfl

/-! ### Order -/

variable {q} {x y z : Extended ℝ}

theorem round_zero (q : Rounding) : q.round 0 = 0 := by
  have hcast := q.round_natCast 0 (Nat.zero_le _)
  rwa [Nat.cast_zero] at hcast

theorem round_one (q : Rounding) : q.round 1 = 1 := by
  have hcast := q.round_natCast 1 Nat.one_le_two_pow
  rwa [Nat.cast_one] at hcast

theorem round_ne_nan (hx : x ≠ nan) : q.round x ≠ nan :=
  (Extended.ne_nan_of_le (q.round_mono (Extended.le_self hx))).1

theorem round_nonneg (hx : 0 ≤ x) : 0 ≤ q.round x := by
  have hround := q.round_mono hx
  rwa [q.round_zero] at hround

theorem IsFloat.le_round (hx : q.IsFloat x) (hxy : x ≤ y) : x ≤ q.round y := by
  have hround := q.round_mono hxy
  rwa [hx] at hround

theorem IsFloat.round_le (hy : q.IsFloat y) (hxy : x ≤ y) : q.round x ≤ y := by
  have hround := q.round_mono hxy
  rwa [hy] at hround

theorem isFloat_zero : q.IsFloat 0 := q.round_zero

theorem isFloat_one : q.IsFloat 1 := q.round_one

theorem add_nonneg (hx : 0 ≤ x) (hy : 0 ≤ y) : 0 ≤ q.add x y :=
  round_nonneg (Extended.le_trans hx (Extended.le_add_of_nonneg hx hy))

theorem IsFloat.le_add (hz : q.IsFloat z) (hx : 0 ≤ x) (hy : 0 ≤ y) (hzx : z ≤ x) :
    z ≤ q.add x y :=
  hz.le_round (Extended.le_trans hzx (Extended.le_add_of_nonneg hx hy))

theorem IsFloat.le_add_right (hz : q.IsFloat z) (hx : 0 ≤ x) (hy : 0 ≤ y) (hzy : z ≤ y) :
    z ≤ q.add x y :=
  hz.le_round (Extended.le_trans hzy (Extended.le_add_of_nonneg_left hx hy))

/-! ### Zero and one -/

section

variable {a : ℝ}

theorem lit_one (q : Rounding) : q.lit 1 = 1 := by
  have hlit : Extended.ofRat 1 = 1 := congrArg fin Rat.cast_one
  rw [Rounding.lit, hlit, q.round_one]

theorem zero_mul_fin (q : Rounding) (a : ℝ) : q.mul 0 (fin a) = 0 := by
  have hmul : (0 : Extended ℝ) * fin a = 0 := congrArg fin (zero_mul a)
  rw [Rounding.mul, hmul, q.round_zero]

theorem sub_self_fin (q : Rounding) (a : ℝ) : q.sub (fin a) (fin a) = 0 := by
  have hsub : fin a - fin a = (0 : Extended ℝ) := congrArg fin (add_neg_cancel a)
  rw [Rounding.sub, hsub, q.round_zero]

end

theorem isFloat_halfPow {k : ℕ} (hk : k ≤ 149) : q.IsFloat (fin ((1 / 2) ^ k)) :=
  q.round_halfPow k hk

/-- What lies between floats is rounded to what does. -/
theorem round_between {low high x : ℝ} (hlow : q.IsFloat (fin low)) (hhigh : q.IsFloat (fin high))
    (hpos : 0 ≤ low) (hlowx : low ≤ x) (hxhigh : x ≤ high) :
    ∃ a : ℝ, q.round (fin x) = fin a ∧ low ≤ a ∧ a ≤ high := by
  have hle : fin low ≤ q.round (fin x) := hlow.le_round (Extended.fin_le_fin.mpr hlowx)
  have hge : q.round (fin x) ≤ fin high := hhigh.round_le (Extended.fin_le_fin.mpr hxhigh)
  obtain ⟨a, ha, -, hle'⟩ :=
    Extended.exists_fin_of_le (Extended.le_trans (Extended.zero_le_fin.mpr hpos) hle) hge
  rw [ha] at hle
  exact ⟨a, ha, Extended.fin_le_fin.mp hle, hle'⟩

/-- A literal between a power of two and one stays there. -/
theorem lit_mem {r : ℚ} {k : ℕ} (hk : k ≤ 149) (hlow : (1 / 2) ^ k ≤ (r : ℝ))
    (hhigh : (r : ℝ) ≤ 1) : ∃ a : ℝ, q.lit r = fin a ∧ (1 / 2) ^ k ≤ a ∧ a ≤ 1 :=
  round_between (isFloat_halfPow hk) isFloat_one (by positivity) hlow hhigh

theorem nan_or_round_nonneg (hx : x = nan ∨ 0 ≤ x) : q.round x = nan ∨ 0 ≤ q.round x := by
  rcases hx with rfl | hx
  · exact .inl q.round_nan
  · exact .inr (round_nonneg hx)

theorem nan_or_sqrt_nonneg (x : Extended ℝ) : q.sqrt x = nan ∨ 0 ≤ q.sqrt x :=
  nan_or_round_nonneg (Extended.nan_or_sqrt_nonneg x)

theorem nan_or_div_nonneg (hx : x = nan ∨ 0 ≤ x) (hy : y = nan ∨ 0 ≤ y) :
    q.div x y = nan ∨ 0 ≤ q.div x y := by
  apply nan_or_round_nonneg
  rcases hx with rfl | hx
  · exact .inl rfl
  · rcases hy with rfl | hy
    · apply Or.inl
      cases x <;> rfl
    · exact Extended.nan_or_div_nonneg hx hy

/-! ### 32-bit floats -/

/-- The nearest integer, and the even one of two. -/
noncomputable def roundEven (y : ℝ) : ℤ :=
  if Int.fract y < 1 / 2 ∨ Int.fract y = 1 / 2 ∧ Even ⌊y⌋ then ⌊y⌋ else ⌊y⌋ + 1

theorem floor_le_roundEven (y : ℝ) : ⌊y⌋ ≤ roundEven y := by
  unfold roundEven
  split_ifs <;> omega

theorem roundEven_le_floor_add_one (y : ℝ) : roundEven y ≤ ⌊y⌋ + 1 := by
  unfold roundEven
  split_ifs <;> omega

theorem roundEven_mono {x y : ℝ} (hxy : x ≤ y) : roundEven x ≤ roundEven y := by
  rcases (Int.floor_mono hxy).lt_or_eq with hlt | heq
  · calc roundEven x ≤ ⌊x⌋ + 1 := roundEven_le_floor_add_one x
      _ ≤ ⌊y⌋ := hlt
      _ ≤ roundEven y := floor_le_roundEven y
  · have hfract : Int.fract x ≤ Int.fract y := by
      unfold Int.fract
      rw [heq]
      linarith
    by_cases hdown : Int.fract y < 1 / 2 ∨ Int.fract y = 1 / 2 ∧ Even ⌊y⌋
    · have hdown' : Int.fract x < 1 / 2 ∨ Int.fract x = 1 / 2 ∧ Even ⌊x⌋ := by
        rcases hfract.lt_or_eq with hlt | hsame
        · exact .inl (hlt.trans_le (hdown.elim le_of_lt fun h => h.1.le))
        · rwa [hsame, heq]
      rw [roundEven, roundEven, if_pos hdown, if_pos hdown', heq]
    · calc roundEven x ≤ ⌊x⌋ + 1 := roundEven_le_floor_add_one x
        _ = roundEven y := by rw [roundEven, if_neg hdown, heq]

theorem roundEven_of_near {y : ℝ} {n : ℤ} (hnear : |y - n| < 1 / 2) : roundEven y = n := by
  obtain ⟨hlow, hhigh⟩ := abs_lt.mp hnear
  rcases le_or_gt (n : ℝ) y with hle | hlt
  · have hfloor : ⌊y⌋ = n := Int.floor_eq_iff.mpr ⟨hle, by linarith⟩
    have hfract : Int.fract y < 1 / 2 := by
      unfold Int.fract
      rw [hfloor]
      exact hhigh
    rw [roundEven, if_pos (.inl hfract), hfloor]
  · have hfloor : ⌊y⌋ = n - 1 := by
      apply Int.floor_eq_iff.mpr
      push_cast
      constructor <;> linarith
    have hfract : 1 / 2 < Int.fract y := by
      unfold Int.fract
      rw [hfloor]
      push_cast
      linarith
    rw [roundEven, if_neg, hfloor, sub_add_cancel]
    rintro (hless | ⟨heq, -⟩)
    · exact absurd hless hfract.not_gt
    · exact absurd heq hfract.ne'

theorem roundEven_intCast (n : ℤ) : roundEven n = n := by
  apply roundEven_of_near
  rw [sub_self, abs_zero]
  norm_num

/-- The exponent of a unit in the last place. -/
noncomputable def ulpExponent (x : ℝ) : ℤ := max (Int.log 2 x - 23) (-149)

/-- The float nearest to what is not negative, if there were no largest float. -/
noncomputable def nearest (x : ℝ) : ℝ :=
  roundEven (x / 2 ^ ulpExponent x) * 2 ^ ulpExponent x

theorem ulpExponent_mono {x y : ℝ} (hx : 0 < x) (hxy : x ≤ y) : ulpExponent x ≤ ulpExponent y :=
  max_le_max (Int.sub_le_sub_right (Int.log_mono_right hx hxy) 23) le_rfl

theorem nearest_zero : nearest 0 = 0 := by
  have hzero : roundEven 0 = 0 := by exact_mod_cast roundEven_intCast 0
  rw [nearest, zero_div, hzero, Int.cast_zero, zero_mul]

/-- A multiple of the unit is its own nearest float, and one between others stays there. -/
theorem nearest_le {x : ℝ} {n : ℤ} {e : ℤ} (he : ulpExponent x = e) (hle : x ≤ n * 2 ^ e) :
    nearest x ≤ n * 2 ^ e := by
  have hunit : (0 : ℝ) < 2 ^ e := zpow_pos two_pos e
  rw [nearest, he]
  apply mul_le_mul_of_nonneg_right _ hunit.le
  have hround := roundEven_mono ((div_le_iff₀ hunit).mpr hle)
  rw [roundEven_intCast] at hround
  exact_mod_cast hround

theorem le_nearest {x : ℝ} {n : ℤ} {e : ℤ} (he : ulpExponent x = e) (hle : n * 2 ^ e ≤ x) :
    n * 2 ^ e ≤ nearest x := by
  have hunit : (0 : ℝ) < 2 ^ e := zpow_pos two_pos e
  rw [nearest, he]
  apply mul_le_mul_of_nonneg_right _ hunit.le
  have hround := roundEven_mono ((le_div_iff₀ hunit).mpr hle)
  rw [roundEven_intCast] at hround
  exact_mod_cast hround

theorem nearest_of_near {x : ℝ} {n : ℤ} {e : ℤ} (he : ulpExponent x = e)
    (hnear : |x - n * 2 ^ e| < 2 ^ e / 2) : nearest x = n * 2 ^ e := by
  have hunit : (0 : ℝ) < 2 ^ e := zpow_pos two_pos e
  rw [nearest, he]
  congr 2
  apply roundEven_of_near
  have hscaled : x / 2 ^ e - n = (x - n * 2 ^ e) / 2 ^ e := by
    rw [sub_div, mul_div_assoc, div_self hunit.ne', mul_one]
  rw [hscaled, abs_div, abs_of_pos hunit, div_lt_iff₀ hunit]
  linarith

theorem nearest_nonneg {x : ℝ} (hx : 0 ≤ x) : 0 ≤ nearest x := by
  have hle := le_nearest (n := 0) rfl (by simpa using hx)
  simpa using hle

/-- The power of two below a number is a multiple of its unit, if it is not below the least one. -/
theorem twoPow_eq_mul {e k : ℤ} (hek : e ≤ k) :
    ∃ n : ℤ, (2 : ℝ) ^ k = n * 2 ^ e := by
  refine ⟨2 ^ (k - e).toNat, ?_⟩
  push_cast
  rw [← zpow_natCast, ← zpow_add₀ two_ne_zero]
  congr 1
  omega

theorem nearest_mono {x y : ℝ} (hx : 0 ≤ x) (hxy : x ≤ y) : nearest x ≤ nearest y := by
  rcases hx.lt_or_eq with hpos | rfl
  · rcases (ulpExponent_mono hpos hxy).lt_or_eq with hlt | heq
    · -- The power of two below `y` separates the two, and is a multiple of both units.
      have hlog : ulpExponent y = Int.log 2 y - 23 := by
        unfold ulpExponent at hlt ⊢
        omega
      have hbelow : (2 : ℝ) ^ Int.log 2 y ≤ y :=
        Int.zpow_log_le_self one_lt_two (hpos.trans_le hxy)
      have habove : x ≤ 2 ^ Int.log 2 y := by
        have hlogs : Int.log 2 x < Int.log 2 y := by
          unfold ulpExponent at hlt
          omega
        exact ((Int.lt_zpow_iff_log_lt one_lt_two hpos).mpr hlogs).le
      obtain ⟨n, hn⟩ := twoPow_eq_mul (e := ulpExponent x) (k := Int.log 2 y) (by omega)
      obtain ⟨m, hm⟩ := twoPow_eq_mul (e := ulpExponent y) (k := Int.log 2 y) (by omega)
      calc nearest x ≤ n * 2 ^ ulpExponent x := nearest_le rfl (hn ▸ habove)
        _ = m * 2 ^ ulpExponent y := hn.symm.trans hm
        _ ≤ nearest y := le_nearest rfl (hm ▸ hbelow)
    · have hunit : (0 : ℝ) < 2 ^ ulpExponent y := zpow_pos two_pos _
      rw [nearest, nearest, heq]
      apply mul_le_mul_of_nonneg_right _ hunit.le
      exact_mod_cast roundEven_mono (div_le_div_of_nonneg_right hxy hunit.le)
  · rw [nearest_zero]
    exact nearest_nonneg hxy

theorem nearest_eq_self {x : ℝ} {n : ℤ} {e : ℤ} (he : ulpExponent x = e) (hx : x = n * 2 ^ e) :
    nearest x = x := by
  apply le_antisymm
  · rw [hx] at he ⊢
    exact nearest_le he le_rfl
  · rw [hx] at he ⊢
    exact le_nearest he le_rfl

theorem nearest_twoPow {k : ℤ} (hk : -149 ≤ k) : nearest (2 ^ k) = 2 ^ k := by
  have hlog : Int.log 2 ((2 : ℝ) ^ k) = k := by
    exact_mod_cast Int.log_zpow (R := ℝ) (b := 2) one_lt_two k
  have hle : ulpExponent ((2 : ℝ) ^ k) ≤ k := by
    rw [ulpExponent, hlog]
    omega
  obtain ⟨n, hn⟩ := twoPow_eq_mul hle
  exact nearest_eq_self rfl hn

theorem nearest_halfPow {k : ℕ} (hk : k ≤ 149) : nearest ((1 / 2) ^ k) = (1 / 2) ^ k := by
  have hpow : ((1 / 2 : ℝ)) ^ k = 2 ^ (-k : ℤ) := by
    rw [zpow_neg, zpow_natCast, one_div, inv_pow]
  rw [hpow]
  exact nearest_twoPow (by omega)

theorem nearest_natCast {n : ℕ} (hn : n ≤ 2 ^ 24) : nearest n = n := by
  rcases Nat.eq_zero_or_pos n with rfl | hpos
  · rw [Nat.cast_zero]
    exact nearest_zero
  · rcases hn.lt_or_eq with hlt | rfl
    · have hbelow : (n : ℝ) < (2 : ℕ) ^ (24 : ℤ) := by exact_mod_cast hlt
      have hlog : Int.log 2 (n : ℝ) < 24 :=
        (Int.lt_zpow_iff_log_lt one_lt_two (Nat.cast_pos.mpr hpos)).mp hbelow
      have hle : ulpExponent (n : ℝ) ≤ 0 := by
        rw [ulpExponent]
        omega
      obtain ⟨m, hm⟩ := twoPow_eq_mul hle
      rw [zpow_zero] at hm
      apply nearest_eq_self (n := n * m) rfl
      push_cast
      rw [mul_assoc, ← hm, mul_one]
    · have htop := nearest_twoPow (k := 24) (by norm_num)
      exact_mod_cast htop

/-- From `2 ^ 128` on the nearest float is the infinity. -/
noncomputable def overflowing (x : ℝ) : Extended ℝ := if 2 ^ 128 ≤ x then top else fin x

theorem overflowing_mono {x y : ℝ} (hxy : x ≤ y) : overflowing x ≤ overflowing y := by
  unfold overflowing
  split_ifs with hx hy hy
  · exact Extended.le_self nofun
  · exact absurd (hx.trans hxy) hy
  · exact Extended.le_top nofun
  · exact Extended.fin_le_fin.mpr hxy

theorem overflowing_of_lt {x : ℝ} (hx : x < 2 ^ 128) : overflowing x = fin x := if_neg hx.not_ge

noncomputable def roundFloat32 : Extended ℝ → Extended ℝ
  | fin x => if x < 0 then -overflowing (nearest (-x)) else overflowing (nearest x)
  | x => x

theorem roundFloat32_fin (x : ℝ) : roundFloat32 (fin x) =
    if x < 0 then -overflowing (nearest (-x)) else overflowing (nearest x) := rfl

theorem overflowing_nearest_nonneg {x : ℝ} (hx : 0 ≤ x) : 0 ≤ overflowing (nearest x) := by
  calc (0 : Extended ℝ) = overflowing 0 := (overflowing_of_lt (by norm_num)).symm
    _ ≤ overflowing (nearest x) := overflowing_mono (nearest_nonneg hx)

theorem roundFloat32_ne_nan {x : Extended ℝ} (hx : x ≠ nan) : roundFloat32 x ≠ nan := by
  cases x with
  | nan => exact absurd rfl hx
  | bot => exact hx
  | fin x =>
    rw [roundFloat32_fin]
    unfold overflowing
    split_ifs <;> exact nofun
  | top => exact hx

theorem roundFloat32_fin_mono {x y : ℝ} (hxy : x ≤ y) :
    roundFloat32 (fin x) ≤ roundFloat32 (fin y) := by
  rw [roundFloat32_fin, roundFloat32_fin]
  split_ifs with hx hy hy
  · apply Extended.neg_le_neg
    exact overflowing_mono (nearest_mono (by linarith) (by linarith))
  · have hleft := Extended.neg_le_neg (overflowing_nearest_nonneg (neg_nonneg.mpr hx.le))
    have hright := overflowing_nearest_nonneg (not_lt.mp hy)
    rw [Extended.neg_zero] at hleft
    exact Extended.le_trans hleft hright
  · exact absurd (hxy.trans_lt hy) hx
  · exact overflowing_mono (nearest_mono (not_lt.mp hx) hxy)

/-- The rounding of 32-bit floats. -/
noncomputable def float32 : Rounding where
  round := roundFloat32
  round_nan := rfl
  round_mono := by
    intro x y hxy
    obtain ⟨hx, hy⟩ := Extended.ne_nan_of_le hxy
    cases x with
    | nan => exact absurd rfl hx
    | bot => exact Extended.bot_le (roundFloat32_ne_nan hy)
    | fin x =>
      cases y with
      | nan => exact absurd rfl hy
      | bot => exact absurd hxy Extended.not_fin_le_bot
      | fin y => exact roundFloat32_fin_mono (Extended.fin_le_fin.mp hxy)
      | top => exact Extended.le_top (roundFloat32_ne_nan hx)
    | top =>
      obtain rfl := Extended.eq_top_of_top_le hxy
      exact Extended.le_self nofun
  round_natCast := by
    intro n hn
    have hcast : (n : ℝ) ≤ 2 ^ 24 := by exact_mod_cast hn
    rw [roundFloat32_fin, if_neg (Nat.cast_nonneg n).not_gt, nearest_natCast hn,
      overflowing_of_lt (hcast.trans_lt (by norm_num))]
  round_halfPow := by
    intro k hk
    have hpos : (0 : ℝ) < (1 / 2) ^ k := by positivity
    have hle : ((1 / 2 : ℝ)) ^ k ≤ 1 := pow_le_one₀ (by norm_num) (by norm_num)
    rw [roundFloat32_fin, if_neg hpos.not_gt, nearest_halfPow hk, overflowing_of_lt (by linarith)]

theorem ulpExponent_eq {x : ℝ} {e : ℤ} (he : -149 ≤ e) (hlow : 2 ^ (e + 23) ≤ x)
    (hhigh : x < 2 ^ (e + 24)) : ulpExponent x = e := by
  have hpos : 0 < x := (zpow_pos two_pos _).trans_le hlow
  have hle : e + 23 ≤ Int.log 2 x :=
    (Int.zpow_le_iff_le_log one_lt_two hpos).mp (by exact_mod_cast hlow)
  have hlt : Int.log 2 x < e + 24 :=
    (Int.lt_zpow_iff_log_lt one_lt_two hpos).mp (by exact_mod_cast hhigh)
  rw [ulpExponent]
  omega

/-- A number near a float of its size is rounded to it. -/
theorem float32_of_near {x : ℝ} {n e : ℤ} (he : -149 ≤ e) (hlow : 2 ^ (e + 23) ≤ x)
    (hhigh : x < 2 ^ (e + 24)) (hnear : |x - n * 2 ^ e| < 2 ^ e / 2)
    (hfinite : n * 2 ^ e < (2 : ℝ) ^ 128) : float32.round (fin x) = fin ((n : ℝ) * 2 ^ e) := by
  have hpos : 0 < x := (zpow_pos two_pos _).trans_le hlow
  change roundFloat32 (fin x) = _
  rw [roundFloat32_fin, if_neg hpos.not_gt, nearest_of_near (ulpExponent_eq he hlow hhigh) hnear,
    overflowing_of_lt hfinite]

/-- What is less than half a unit is lost beside one. -/
theorem float32_add_one {x : ℝ} (hx : 0 ≤ x) (hless : x < (1 / 2) ^ 24) :
    float32.round (fin (x + 1)) = 1 := by
  have hvalue : ((8388608 : ℤ) : ℝ) * 2 ^ (-23 : ℤ) = 1 := by norm_num
  change _ = fin 1
  rw [← hvalue]
  refine float32_of_near (by norm_num) ?_ ?_ ?_ ?_
  · norm_num
    exact hx
  · norm_num at hless ⊢
    linarith
  · rw [hvalue, add_sub_cancel_right, abs_of_nonneg hx]
    norm_num at hless ⊢
    exact hless
  · rw [hvalue]
    norm_num

theorem float32_neg {x : ℝ} (hx : 0 < x) : float32.round (fin (-x)) = -float32.round (fin x) := by
  change roundFloat32 (fin (-x)) = -roundFloat32 (fin x)
  rw [roundFloat32_fin, roundFloat32_fin, if_pos (neg_neg_of_pos hx), if_neg hx.not_gt, neg_neg]

end Rounding

/-! ### Exponential and logarithm -/

/-- The functions of a mathematics library, whose results need not be the nearest floats. -/
structure Libm where
  exp : Extended ℝ → Extended ℝ
  ln : Extended ℝ → Extended ℝ
  exp_nonneg : ∀ {x}, x ≠ nan → 0 ≤ exp x
  exp_zero : exp 0 = 1
  ln_nonneg : ∀ {x}, 1 ≤ x → 0 ≤ ln x

namespace Libm

/-- A library whose results are rounded ones. -/
noncomputable def rounded (q : Rounding) : Libm where
  exp x := q.round x.exp
  ln x := q.round x.ln
  exp_nonneg := by
    intro x hx
    apply Rounding.round_nonneg
    cases x with
    | nan => exact absurd rfl hx
    | bot => exact Extended.le_self nofun
    | fin x => exact Extended.zero_le_fin.mpr (Real.exp_pos x).le
    | top => exact Extended.le_top nofun
  exp_zero := by
    change q.round (fin (Real.exp 0)) = 1
    rw [Real.exp_zero]
    exact q.round_one
  ln_nonneg := by
    intro x hx
    apply Rounding.round_nonneg
    have hzero : (0 : Extended ℝ) ≤ 1 := Extended.zero_le_fin.mpr zero_le_one
    rcases Extended.nonneg_cases (Extended.le_trans hzero hx) with rfl | ⟨a, -, rfl⟩
    · exact Extended.le_top nofun
    · have ha : 1 ≤ a := Extended.fin_le_fin.mp hx
      rw [Extended.ln_pos (zero_lt_one.trans_le ha)]
      exact Extended.zero_le_fin.mpr (Real.log_nonneg ha)

noncomputable def exact : Libm := rounded Rounding.exact

end Libm

end Zllm
