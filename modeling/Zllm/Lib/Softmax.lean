import Mathlib.Algebra.Order.Floor.Div
import Zllm.Lib.Exponential
import Zllm.Lib.Tile

/-!
# Softmax averages in pieces

The softmax average of values under scores, and the partial sums attention kernels build it from: a
reference score, a denominator and a numerator, both relative to the reference. However the keys are
split into pieces, and whatever references the pieces use, normalizing at the end gives the average.
-/

namespace Zllm.Softmax

variable {ι : Type}

/-- `Σ exp(s) v / Σ exp(s)` over the keys. -/
noncomputable def average (keys : Finset ι) (score : ι → ℝ) (value : ι → ℕ → ℝ) (d : ℕ) : ℝ :=
  (∑ t ∈ keys, Real.exp (score t) * value t d) / ∑ t ∈ keys, Real.exp (score t)

theorem average_congr {keys : Finset ι} {score score' : ι → ℝ} {value value' : ι → ℕ → ℝ} {d : ℕ}
    (hscore : ∀ t ∈ keys, score t = score' t) (hvalue : ∀ t ∈ keys, value t d = value' t d) :
    average keys score value d = average keys score' value' d :=
  Exponential.natural.average_congr hscore hvalue

namespace Partial

/-- Nothing seen yet. -/
def empty (mx : ℝ) : Partial := { mx, l := 0, av := fun _ => 0 }

/-- One more key, relative to the larger reference. -/
noncomputable def push (p : Partial) (s : ℝ) (v : ℕ → ℝ) : Partial :=
  let mx := max p.mx s
  { mx
    l := p.l * Real.exp (p.mx - mx) + Real.exp (s - mx)
    av := fun d => p.av d * Real.exp (p.mx - mx) + Real.exp (s - mx) * v d }

/-- `p` holds the sums over `keys` relative to its reference. -/
structure Holds (p : Partial) (keys : Finset ι) (score : ι → ℝ) (value : ι → ℕ → ℝ) : Prop where
  l_eq : p.l = ∑ t ∈ keys, Real.exp (score t - p.mx)
  av_eq : ∀ d, p.av d = ∑ t ∈ keys, Real.exp (score t - p.mx) * value t d

variable {p : Partial} {keys : Finset ι} {score : ι → ℝ} {value : ι → ℕ → ℝ}

/-- The natural exponential is one of those that take sums to products. -/
theorem holds_iff :
    p.Holds keys score value ↔ Exponential.natural.Holds p keys score value :=
  ⟨fun hp => ⟨hp.l_eq, hp.av_eq⟩, fun hp => ⟨hp.l_eq, hp.av_eq⟩⟩

theorem Holds.push [DecidableEq ι] (hp : p.Holds keys score value) {t : ι} (ht : t ∉ keys) :
    (p.push (score t) (value t)).Holds (insert t keys) score value :=
  holds_iff.mpr ((holds_iff.mp hp).push ht)

/-- Normalized, the sums are the average, whatever the reference. -/
theorem Holds.average_eq (hp : p.Holds keys score value) (d : ℕ) :
    p.av d / p.l = average keys score value d :=
  (holds_iff.mp hp).average_eq d

/-! ### Pieces -/

/-- All of a piece's keys at once, relative to a given reference. -/
noncomputable def gather (mx : ℝ) (keys : Finset ι) (score : ι → ℝ) (value : ι → ℕ → ℝ) :
    Partial where
  mx := mx
  l := ∑ t ∈ keys, Real.exp (score t - mx)
  av d := ∑ t ∈ keys, Real.exp (score t - mx) * value t d

theorem gather_holds (mx : ℝ) (keys : Finset ι) (score : ι → ℝ) (value : ι → ℕ → ℝ) :
    (gather mx keys score value).Holds keys score value :=
  ⟨rfl, fun _ => rfl⟩

/-- Pieces with references of their own, relative to a given one. -/
noncomputable def merge {κ : Type} (mx : ℝ) (pieces : Finset κ) (p : κ → Partial) : Partial where
  mx := mx
  l := ∑ b ∈ pieces, (p b).l * Real.exp ((p b).mx - mx)
  av d := ∑ b ∈ pieces, (p b).av d * Real.exp ((p b).mx - mx)

theorem merge_holds {κ : Type} [DecidableEq ι] {pieces : Finset κ} {part : κ → Partial}
    {keysOf : κ → Finset ι} (mx : ℝ) (hpart : ∀ b ∈ pieces, (part b).Holds (keysOf b) score value)
    (hdisjoint : (pieces : Set κ).PairwiseDisjoint keysOf) :
    (merge mx pieces part).Holds (pieces.biUnion keysOf) score value :=
  holds_iff.mpr (Exponential.merge_holds mx (fun b hb => holds_iff.mp (hpart b hb)) hdisjoint)

theorem Holds.narrow (hp : p.Holds keys score value) (w : ℕ) :
    (p.narrow w).Holds keys score fun t => Tile.cut w (value t) :=
  holds_iff.mpr ((holds_iff.mp hp).narrow w)

/-- The sums over a shifted range are sums over the interval it is shifted to. -/
theorem Holds.shift {score : ℕ → ℝ} {value : ℕ → ℕ → ℝ} {start n : ℕ}
    (hp : p.Holds (Finset.range n) (fun i => score (start + i)) fun i => value (start + i)) :
    p.Holds (Finset.Ico start (start + n)) score value :=
  holds_iff.mpr (holds_iff.mp hp).shift

end Partial

/-! ### The keys in blocks -/

/-- Block `b` of the keys below `n`, at `w` keys a block. -/
def block (w n b : ℕ) : Finset ℕ := Finset.Ico (b * w) (min (b * w + w) n)

theorem mem_block {w n b t : ℕ} : t ∈ block w n b ↔ b * w ≤ t ∧ t < b * w + w ∧ t < n := by
  rw [block, Finset.mem_Ico, lt_min_iff]

theorem pairwiseDisjoint_block (w n : ℕ) (s : Set ℕ) : s.PairwiseDisjoint (block w n) := by
  intro b _ b' _ hne
  refine Finset.disjoint_left.mpr fun t ht ht' => hne ?_
  rw [mem_block] at ht ht'
  have hlow : b * w < (b' + 1) * w := by rw [add_mul, one_mul]; omega
  have hhigh : b' * w < (b + 1) * w := by rw [add_mul, one_mul]; omega
  have hlt := lt_of_mul_lt_mul_right hlow (Nat.zero_le w)
  have hlt' := lt_of_mul_lt_mul_right hhigh (Nat.zero_le w)
  omega

/-- Blocks of blocks have no key in common either. -/
theorem pairwiseDisjoint_blocks (w n w' n' : ℕ) (s : Set ℕ) :
    s.PairwiseDisjoint fun g => (block w n g).biUnion (block w' n') := by
  intro g hg g' hg' hne
  have hgroups := pairwiseDisjoint_block w n s hg hg' hne
  rw [Function.onFun, Finset.disjoint_biUnion_left]
  intro b hb
  rw [Finset.disjoint_biUnion_right]
  intro b' hb'
  refine pairwiseDisjoint_block w' n' Set.univ (Set.mem_univ b) (Set.mem_univ b') ?_
  rintro rfl
  exact Finset.disjoint_left.mp hgroups hb hb'

theorem biUnion_block {w : ℕ} (hw : 0 < w) (n : ℕ) :
    (Finset.range (n ⌈/⌉ w)).biUnion (block w n) = Finset.range n := by
  ext t
  rw [Finset.mem_biUnion, Finset.mem_range]
  constructor
  · rintro ⟨b, -, ht⟩
    exact (mem_block.mp ht).2.2
  · intro ht
    refine ⟨t / w, ?_, mem_block.mpr ⟨Nat.div_mul_le_self t w, ?_, ht⟩⟩
    · rw [Finset.mem_range, ← not_le, ceilDiv_le_iff_le_mul hw, not_le]
      exact (Nat.mul_div_le t w).trans_lt ht
    · exact Nat.lt_div_mul_add hw

/-! ### The online loop -/

/-- Keys `0 .. n` one after the other. -/
noncomputable def online (mx : ℝ) (score : ℕ → ℝ) (value : ℕ → ℕ → ℝ) : ℕ → Partial
  | 0 => Partial.empty mx
  | n + 1 => (online mx score value n).push (score n) (value n)

theorem online_holds (mx : ℝ) (score : ℕ → ℝ) (value : ℕ → ℕ → ℝ) (n : ℕ) :
    (online mx score value n).Holds (Finset.range n) score value := by
  induction n with
  | zero => exact ⟨by simp [online, Partial.empty], fun d => by simp [online, Partial.empty]⟩
  | succ n ih =>
    rw [Finset.range_add_one]
    exact ih.push Finset.notMem_range_self

theorem online_average (mx : ℝ) (score : ℕ → ℝ) (value : ℕ → ℕ → ℝ) (n d : ℕ) :
    (online mx score value n).av d / (online mx score value n).l =
      average (Finset.range n) score value d :=
  (online_holds mx score value n).average_eq d

end Zllm.Softmax
