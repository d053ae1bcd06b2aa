import Mathlib.Algebra.BigOperators.Group.List.Lemmas
import Mathlib.Algebra.Order.BigOperators.Group.List
import Mathlib.Data.List.Range
import Mathlib.Data.Real.Basic
import Mathlib.Order.Bounds.Basic

/-!
# Inverse cumulative sums

Where a running sum of positive weights first reaches a target.
-/

namespace Zllm.InverseCdf

/-- The sum of the first `n` weights. -/
def cumulative (weights : List ℝ) (n : ℕ) : ℝ := (weights.take n).sum

/-- The weight at `i` takes the running sum over the target. -/
structure FallsAt (weights : List ℝ) (target : ℝ) (i : ℕ) : Prop where
  lt : i < weights.length
  below : cumulative weights i < target
  reaches : target ≤ cumulative weights (i + 1)

variable {weights : List ℝ} {target : ℝ} {i j n : ℕ}

@[simp]
theorem cumulative_zero (weights : List ℝ) : cumulative weights 0 = 0 := by
  rw [cumulative, List.take_zero, List.sum_nil]

theorem cumulative_length (weights : List ℝ) :
    cumulative weights weights.length = weights.sum := by
  rw [cumulative, List.take_length]

theorem cumulative_take (hle : i ≤ n) : cumulative (weights.take n) i = cumulative weights i := by
  rw [cumulative, cumulative, List.take_take, Nat.min_eq_left hle]

theorem cumulative_mono (hpos : ∀ w ∈ weights, 0 < w) (hle : i ≤ j) :
    cumulative weights i ≤ cumulative weights j := by
  apply List.Sublist.sum_le_sum (List.take_sublist_take_left hle)
  intro w hw
  exact (hpos w (List.mem_of_mem_take hw)).le

theorem FallsAt.unique (hpos : ∀ w ∈ weights, 0 < w) (hi : FallsAt weights target i)
    (hj : FallsAt weights target j) : i = j := by
  rcases lt_trichotomy i j with hlt | heq | hlt
  · exact absurd (hi.reaches.trans (cumulative_mono hpos hlt)) hj.below.not_ge
  · exact heq
  · exact absurd (hj.reaches.trans (cumulative_mono hpos hlt)) hi.below.not_ge

/-- The first index found is the one where the target falls. -/
theorem fallsAt_of_find? (htarget : 0 < target)
    (hfind : (List.range weights.length).find? (fun i => target ≤ cumulative weights (i + 1)) =
      some i) : FallsAt weights target i := by
  rw [List.find?_range_eq_some] at hfind
  obtain ⟨hreaches, hlt, hbefore⟩ := hfind
  refine ⟨List.mem_range.1 hlt, ?_, of_decide_eq_true hreaches⟩
  cases i with
  | zero => rwa [cumulative_zero]
  | succ i =>
    have hnot := hbefore i (Nat.lt_succ_self i)
    simpa using hnot

theorem exists_find? (hlt : i < weights.length) (hreaches : target ≤ cumulative weights (i + 1)) :
    ∃ i, (List.range weights.length).find? (fun i => target ≤ cumulative weights (i + 1)) =
      some i := by
  rw [← Option.isSome_iff_exists, List.find?_isSome]
  exact ⟨i, List.mem_range.2 hlt, decide_eq_true hreaches⟩

/-- A target up to the whole sum is reached. -/
theorem exists_find?_of_le_sum (hne : weights ≠ []) (hle : target ≤ weights.sum) :
    ∃ i, (List.range weights.length).find? (fun i => target ≤ cumulative weights (i + 1)) =
      some i := by
  have hlen := List.length_pos_iff.2 hne
  apply exists_find? (Nat.sub_one_lt_of_lt hlen)
  rwa [Nat.sub_add_cancel hlen, cumulative_length]

/-- The shortest sum that reaches the target ends where the target falls. -/
theorem FallsAt.isLeast (hpos : ∀ w ∈ weights, 0 < w) (hi : FallsAt weights target i) :
    IsLeast {n | target ≤ cumulative weights n} (i + 1) := by
  refine ⟨hi.reaches, fun n hn => ?_⟩
  by_contra hlt
  have hle := cumulative_mono hpos (show n ≤ i by omega)
  exact absurd (le_trans hn hle) hi.below.not_ge

end Zllm.InverseCdf
