import Zllm.Lib.CausalTower
import Zllm.Lib.Softmax
import Zllm.Lib.Tile

/-!
# The Llama decoder layer in exact arithmetic

What the forward paths of every backend are measured against: RMS norm, rotary embedding, grouped
causal attention, residual, SwiGLU. Rows are real vectors, kept zero past their width, and a layer's
cache holds the rotated key and the value of each position.
-/

namespace Zllm.Llama

open Finset Tile

/-- The widths of a decoder, its norm epsilon, and the rotation of each pair at each position. -/
structure Shape where
  nEmbd : ℕ
  nHead : ℕ
  nKvHead : ℕ
  headDim : ℕ
  nInter : ℕ
  eps : ℝ
  cos : ℕ → ℕ → ℝ
  sin : ℕ → ℕ → ℝ

namespace Shape

variable (S : Shape)

def attnDim : ℕ := S.nHead * S.headDim

def kvDim : ℕ := S.nKvHead * S.headDim

/-- The key/value head a query head reads. -/
def kvHead (h : ℕ) : ℕ := h / (S.nHead / S.nKvHead)

/-- Whole groups of query heads, of pairs of dimensions. -/
structure Valid : Prop where
  headDim_pos : 0 < S.headDim
  headDim_even : Even S.headDim
  nKvHead_pos : 0 < S.nKvHead
  nKvHead_dvd : S.nKvHead ∣ S.nHead

variable {S}

theorem Valid.kvHead_lt (hvalid : S.Valid) {h : ℕ} (hh : h < S.nHead) :
    S.kvHead h < S.nKvHead := by
  have hgroup : 0 < S.nHead / S.nKvHead :=
    Nat.div_pos (Nat.le_of_dvd (by omega) hvalid.nKvHead_dvd) hvalid.nKvHead_pos
  rw [kvHead, Nat.div_lt_iff_lt_mul hgroup, Nat.mul_div_cancel' hvalid.nKvHead_dvd]
  exact hh

end Shape

/-- The weights of a layer, row by row. -/
structure Weights where
  attnNorm : ℕ → ℝ
  ffnNorm : ℕ → ℝ
  wq : ℕ → ℕ → ℝ
  wk : ℕ → ℕ → ℝ
  wv : ℕ → ℕ → ℝ
  wo : ℕ → ℕ → ℝ
  w1 : ℕ → ℕ → ℝ
  w2 : ℕ → ℕ → ℝ
  w3 : ℕ → ℕ → ℝ

/-! ### Operations on rows -/

section Rows

variable {rows cols n heads headDim : ℕ} {w : ℕ → ℕ → ℝ} {x x' : ℕ → ℝ}

noncomputable def project (rows cols : ℕ) (w : ℕ → ℕ → ℝ) (x : ℕ → ℝ) : ℕ → ℝ :=
  cut rows fun j => ∑ k ∈ range cols, w j k * x k

noncomputable def meanSquare (n : ℕ) (x : ℕ → ℝ) : ℝ := (∑ k ∈ range n, x k ^ 2) / n

noncomputable def rmsNorm (n : ℕ) (eps : ℝ) (weight x : ℕ → ℝ) : ℕ → ℝ :=
  cut n fun i => x i / √(meanSquare n x + eps) * weight i

/-- Adjacent pairs of each head, turned by the pair's angle. -/
noncomputable def rotate (heads headDim : ℕ) (cos sin : ℕ → ℝ) (x : ℕ → ℝ) : ℕ → ℝ :=
  cut (heads * headDim) fun i =>
    let pair := i % headDim / 2
    if i % headDim % 2 = 0 then x i * cos pair - x (i + 1) * sin pair
    else x (i - 1) * sin pair + x i * cos pair

noncomputable def swiglu (n : ℕ) (gate up : ℕ → ℝ) : ℕ → ℝ :=
  cut n fun k => gate k / (1 + Real.exp (-gate k)) * up k

def add (n : ℕ) (x y : ℕ → ℝ) : ℕ → ℝ := cut n fun i => x i + y i

theorem project_congr (hx : ∀ k < cols, x k = x' k) : project rows cols w x = project rows cols w x' :=
  cut_congr fun _ _ => sum_congr rfl fun k hk => by rw [hx k (mem_range.mp hk)]

end Rows

/-! ### The layer -/

namespace Shape

variable (S : Shape)

/-- The scaled score of a query head against a key. -/
noncomputable def score (q k : ℕ → ℝ) (h : ℕ) : ℝ :=
  (∑ d ∈ range S.headDim, q (h * S.headDim + d) * k (S.kvHead h * S.headDim + d)) / √S.headDim

/-- Each query head's average of its group's values over the positions up to its own. -/
noncomputable def attend (pos : ℕ) (q : ℕ → ℝ) (cache : ℕ → (ℕ → ℝ) × (ℕ → ℝ)) : ℕ → ℝ :=
  cut S.attnDim fun i =>
    let h := i / S.headDim
    Softmax.average (range (pos + 1)) (fun t => S.score q (cache t).1 h)
      (fun t d => (cache t).2 (S.kvHead h * S.headDim + d)) (i % S.headDim)

theorem attend_congr {pos : ℕ} {q : ℕ → ℝ} {cache cache' : ℕ → (ℕ → ℝ) × (ℕ → ℝ)}
    (hcache : ∀ t ≤ pos, cache t = cache' t) : S.attend pos q cache = S.attend pos q cache' := by
  refine cut_congr fun i _ => Softmax.average_congr (fun t ht => ?_) fun t ht => ?_
  · rw [hcache t (by simpa [Nat.lt_succ_iff] using ht)]
  · rw [hcache t (by simpa [Nat.lt_succ_iff] using ht)]

variable (W : Weights)

noncomputable def attnInput (x : ℕ → ℝ) : ℕ → ℝ := rmsNorm S.nEmbd S.eps W.attnNorm x

noncomputable def query (pos : ℕ) (x : ℕ → ℝ) : ℕ → ℝ :=
  rotate S.nHead S.headDim (S.cos pos) (S.sin pos)
    (project S.attnDim S.nEmbd W.wq (S.attnInput W x))

noncomputable def key (pos : ℕ) (x : ℕ → ℝ) : ℕ → ℝ :=
  rotate S.nKvHead S.headDim (S.cos pos) (S.sin pos)
    (project S.kvDim S.nEmbd W.wk (S.attnInput W x))

noncomputable def value (x : ℕ → ℝ) : ℕ → ℝ := project S.kvDim S.nEmbd W.wv (S.attnInput W x)

/-- The residual stream after the attention block, and after the feed-forward block. -/
noncomputable def attnBlock (x att : ℕ → ℝ) : ℕ → ℝ :=
  add S.nEmbd x (project S.nEmbd S.attnDim W.wo att)

noncomputable def ffnBlock (x : ℕ → ℝ) : ℕ → ℝ :=
  let normed := rmsNorm S.nEmbd S.eps W.ffnNorm x
  add S.nEmbd x (project S.nEmbd S.nInter W.w2
    (swiglu S.nInter (project S.nInter S.nEmbd W.w1 normed)
      (project S.nInter S.nEmbd W.w3 normed)))

noncomputable def layer : CausalLayer (ℕ → ℝ) ((ℕ → ℝ) × (ℕ → ℝ)) where
  entry pos x := (S.key W pos x, S.value W x)
  out pos cache x := S.ffnBlock W (S.attnBlock W x (S.attend pos (S.query W pos x) cache))
  causal pos cache cache' x hcache := by rw [S.attend_congr hcache]

end Shape

end Zllm.Llama
