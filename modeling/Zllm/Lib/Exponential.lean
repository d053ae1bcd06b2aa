import Mathlib.Analysis.SpecialFunctions.Exp
import Mathlib.Tactic
import Zllm.Lib.Tile

/-!
# Averages under an exponential

A positive function that takes sums to products is all that the partial sums of attention kernels
rest on: a reference score, a denominator and a numerator, both relative to the reference. However
the keys are split into pieces, and whatever references the pieces use, normalizing at the end gives
the average of the values, weighted by the exponentials of their scores.
-/

namespace Zllm

/-- A running softmax: the reference score, the denominator and the numerator of each dimension. -/
structure Softmax.Partial where
  mx : ℝ
  l : ℝ
  av : ℕ → ℝ

/-- The first `w` dimensions. -/
def Softmax.Partial.narrow (p : Partial) (w : ℕ) : Partial := { p with av := Tile.cut w p.av }

/-- A positive function that takes sums to products. -/
structure Exponential where
  toFun : ℝ → ℝ
  pos (x : ℝ) : 0 < toFun x
  map_add (x y : ℝ) : toFun (x + y) = toFun x * toFun y

namespace Exponential

open Softmax (Partial)

instance : CoeFun Exponential fun _ => ℝ → ℝ := ⟨toFun⟩

/-- The natural one. -/
noncomputable def natural : Exponential := ⟨Real.exp, Real.exp_pos, Real.exp_add⟩

variable (E : Exponential) {ι : Type} {p q : Partial} {keys keys' : Finset ι} {score : ι → ℝ}
  {value : ι → ℕ → ℝ}

theorem map_sub (x y : ℝ) : E (x - y) = E x * E (-y) := by
  rw [sub_eq_add_neg, E.map_add]

theorem map_sub_mul (x y z : ℝ) : E (x - y) * E (y - z) = E (x - z) := by
  rw [← E.map_add]
  congr 1
  ring

/-- `Σ E(s) v / Σ E(s)` over the keys. -/
noncomputable def average (keys : Finset ι) (score : ι → ℝ) (value : ι → ℕ → ℝ) (d : ℕ) : ℝ :=
  (∑ t ∈ keys, E (score t) * value t d) / ∑ t ∈ keys, E (score t)

theorem average_congr {score' : ι → ℝ} {value' : ι → ℕ → ℝ} {d : ℕ}
    (hscore : ∀ t ∈ keys, score t = score' t) (hvalue : ∀ t ∈ keys, value t d = value' t d) :
    E.average keys score value d = E.average keys score' value' d := by
  have hden : ∑ t ∈ keys, E (score t) = ∑ t ∈ keys, E (score' t) :=
    Finset.sum_congr rfl fun t ht => by rw [hscore t ht]
  rw [average, average, hden]
  congr 1
  exact Finset.sum_congr rfl fun t ht => by rw [hscore t ht, hvalue t ht]

/-! ### Sums relative to a reference -/

/-- `p` holds the sums over `keys` relative to its reference. -/
structure Holds (p : Partial) (keys : Finset ι) (score : ι → ℝ) (value : ι → ℕ → ℝ) : Prop where
  l_eq : p.l = ∑ t ∈ keys, E (score t - p.mx)
  av_eq : ∀ d, p.av d = ∑ t ∈ keys, E (score t - p.mx) * value t d

/-- The same sums relative to another reference. -/
noncomputable def rebase (p : Partial) (mx : ℝ) : Partial :=
  { mx, l := p.l * E (p.mx - mx), av := fun d => p.av d * E (p.mx - mx) }

/-- One more key, relative to the larger reference. -/
noncomputable def push (p : Partial) (s : ℝ) (v : ℕ → ℝ) : Partial :=
  let mx := max p.mx s
  { mx
    l := p.l * E (p.mx - mx) + E (s - mx)
    av := fun d => p.av d * E (p.mx - mx) + E (s - mx) * v d }

/-- All of a piece's keys at once, relative to a given reference. -/
noncomputable def gather (mx : ℝ) (keys : Finset ι) (score : ι → ℝ) (value : ι → ℕ → ℝ) :
    Partial where
  mx := mx
  l := ∑ t ∈ keys, E (score t - mx)
  av d := ∑ t ∈ keys, E (score t - mx) * value t d

/-- Pieces with references of their own, relative to a given one. -/
noncomputable def merge {κ : Type} (mx : ℝ) (pieces : Finset κ) (part : κ → Partial) :
    Partial where
  mx := mx
  l := ∑ b ∈ pieces, (part b).l * E ((part b).mx - mx)
  av d := ∑ b ∈ pieces, (part b).av d * E ((part b).mx - mx)

/-- Keys `0 .. n` one after the other. -/
noncomputable def online (mx : ℝ) (score : ℕ → ℝ) (value : ℕ → ℕ → ℝ) : ℕ → Partial
  | 0 => { mx, l := 0, av := fun _ => 0 }
  | n + 1 => E.push (online mx score value n) (score n) (value n)

variable {E}

theorem Holds.rebase (hp : E.Holds p keys score value) (mx : ℝ) :
    E.Holds (E.rebase p mx) keys score value := by
  constructor
  · simp only [Exponential.rebase, hp.l_eq, Finset.sum_mul, E.map_sub_mul]
  · intro d
    simp only [Exponential.rebase, hp.av_eq, Finset.sum_mul]
    refine Finset.sum_congr rfl fun t _ => ?_
    rw [mul_right_comm, E.map_sub_mul]

/-- Pushing a key is rebasing and adding it. -/
theorem Holds.push [DecidableEq ι] (hp : E.Holds p keys score value) {t : ι} (ht : t ∉ keys) :
    E.Holds (E.push p (score t) (value t)) (insert t keys) score value := by
  have hbase := hp.rebase (max p.mx (score t))
  constructor
  · rw [Finset.sum_insert ht, add_comm]
    exact congrArg (· + _) hbase.l_eq
  · intro d
    rw [Finset.sum_insert ht, add_comm]
    exact congrArg (· + _) (hbase.av_eq d)

/-- Normalized, the sums are the average, whatever the reference. -/
theorem Holds.average_eq (hp : E.Holds p keys score value) (d : ℕ) :
    p.av d / p.l = E.average keys score value d := by
  have hden : p.l = (∑ t ∈ keys, E (score t)) * E (-p.mx) := by
    rw [hp.l_eq, Finset.sum_mul]
    exact Finset.sum_congr rfl fun t _ => E.map_sub _ _
  have hnum : p.av d = (∑ t ∈ keys, E (score t) * value t d) * E (-p.mx) := by
    rw [hp.av_eq, Finset.sum_mul]
    refine Finset.sum_congr rfl fun t _ => ?_
    rw [E.map_sub, mul_right_comm]
  rw [hnum, hden, average, mul_div_mul_right _ _ (E.pos _).ne']

theorem gather_holds (mx : ℝ) (keys : Finset ι) (score : ι → ℝ) (value : ι → ℕ → ℝ) :
    E.Holds (E.gather mx keys score value) keys score value :=
  ⟨rfl, fun _ => rfl⟩

theorem merge_holds {κ : Type} [DecidableEq ι] {pieces : Finset κ} {part : κ → Partial}
    {keysOf : κ → Finset ι} (mx : ℝ)
    (hpart : ∀ b ∈ pieces, E.Holds (part b) (keysOf b) score value)
    (hdisjoint : (pieces : Set κ).PairwiseDisjoint keysOf) :
    E.Holds (E.merge mx pieces part) (pieces.biUnion keysOf) score value := by
  constructor
  · rw [Finset.sum_biUnion hdisjoint]
    exact Finset.sum_congr rfl fun b hb => ((hpart b hb).rebase mx).l_eq
  · intro d
    rw [Finset.sum_biUnion hdisjoint]
    exact Finset.sum_congr rfl fun b hb => ((hpart b hb).rebase mx).av_eq d

theorem online_holds (mx : ℝ) (score : ℕ → ℝ) (value : ℕ → ℕ → ℝ) (n : ℕ) :
    E.Holds (E.online mx score value n) (Finset.range n) score value := by
  induction n with
  | zero => exact ⟨by simp [online], fun d => by simp [online]⟩
  | succ n ih =>
    rw [Finset.range_add_one]
    exact ih.push Finset.notMem_range_self

theorem Holds.narrow (hp : E.Holds p keys score value) (w : ℕ) :
    E.Holds (p.narrow w) keys score fun t => Tile.cut w (value t) := by
  refine ⟨hp.l_eq, fun d => ?_⟩
  by_cases hd : d < w
  · simp only [Partial.narrow, Tile.cut_apply hd]
    exact hp.av_eq d
  · simp only [Partial.narrow, Tile.cut, if_neg hd, mul_zero, Finset.sum_const_zero]

/-- The sums over a shifted range are sums over the interval it is shifted to. -/
theorem Holds.shift {score : ℕ → ℝ} {value : ℕ → ℕ → ℝ} {start n : ℕ}
    (hp : E.Holds p (Finset.range n) (fun i => score (start + i)) fun i => value (start + i)) :
    E.Holds p (Finset.Ico start (start + n)) score value := by
  constructor
  · rw [Finset.sum_Ico_eq_sum_range, Nat.add_sub_cancel_left]
    exact hp.l_eq
  · intro d
    rw [Finset.sum_Ico_eq_sum_range, Nat.add_sub_cancel_left]
    exact hp.av_eq d

end Exponential

end Zllm
