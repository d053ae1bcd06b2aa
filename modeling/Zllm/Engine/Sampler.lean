import Zllm.Lib.Ranking

/-!
# The sampler

`sample_with_rng` over exact numbers: temperature, top-k, softmax, min-p and top-p, and the draw by
a running sum. A logit is a number or minus infinity. Not all logits are minus infinity: the source
divides zero by zero there.
-/

namespace Zllm.Sampler

open Zllm.Ranking

structure SamplerConfig where
  temperature : ℝ
  topK : ℕ
  topP : ℝ
  minP : ℝ

abbrev Logit := WithBot ℝ

/-- The last of the largest. -/
noncomputable def argmax (logits : List Logit) : Option (Logit × ℕ) :=
  logits.zipIdx.foldl (fun best b =>
    match best with
    | none => some b
    | some a => if b.1 < a.1 then some a else some b) none

noncomputable def divided (temperature : ℝ) (l : Logit) : Logit := l.map (· / temperature)

noncomputable def temperatureScaled (temperature : ℝ) (logits : List Logit) : List Logit :=
  if temperature ≠ 1 then logits.map (divided temperature) else logits

noncomputable def topKFiltered (topK : ℕ) (logits : List Logit) : List Logit :=
  if 0 < topK ∧ topK < logits.length then
    let threshold := (ranked logits)[topK - 1]?.elim ⊥ Prod.fst
    logits.map fun l => if l < threshold then ⊥ else l
  else logits

/-- `exp` of a logit relative to the largest. -/
noncomputable def expShifted (largest : ℝ) (l : Logit) : ℝ :=
  l.recBotCoe 0 fun x => Real.exp (x - largest)

noncomputable def softmax (logits : List Logit) : List ℝ :=
  let largest := (logits.foldl max ⊥).unbotD 0
  let expSum := (logits.map (expShifted largest)).sum
  logits.map fun l => expShifted largest l / expSum

noncomputable def minPFiltered (minP : ℝ) (probs : List ℝ) : List ℝ :=
  if 0 < minP then
    let cutoff := minP * probs.foldl max 0
    let cleared := probs.map fun p => if p < cutoff then 0 else p
    let kept := cleared.sum
    if 0 < kept then cleared.map (· / kept) else cleared
  else probs

/-- Entries are let through in the order of their rank until their sum reaches the limit. -/
noncomputable def nucleus (topP : ℝ) : ℝ → List ℝ → List (ℝ × ℕ) → List ℝ
  | _, filtered, [] => filtered
  | cumsum, filtered, (prob, idx) :: rest =>
    if topP ≤ cumsum then filtered else nucleus topP (cumsum + prob) (filtered.set idx prob) rest

noncomputable def topPFiltered (topP : ℝ) (probs : List ℝ) : List ℝ :=
  if topP < 1 then
    let filtered := nucleus topP 0 (List.replicate probs.length 0) (ranked probs)
    let sum := filtered.sum
    if 0 < sum then filtered.map (· / sum) else probs
  else probs

/-- The probabilities before the draw. -/
noncomputable def probabilities (cfg : SamplerConfig) (logits : List Logit) : List ℝ :=
  topPFiltered cfg.topP (minPFiltered cfg.minP
    (softmax (topKFiltered cfg.topK (temperatureScaled cfg.temperature logits))))

/-- The first place from `i` on where the running sum reaches `r`. -/
noncomputable def pick (r : ℝ) : ℝ → ℕ → List ℝ → Option ℕ
  | _, _, [] => none
  | cumsum, i, p :: rest =>
    if r ≤ cumsum + p then some i else pick r (cumsum + p) (i + 1) rest

/-- `sample_with_rng`, where `r` is the draw. -/
noncomputable def sampleWithRng (cfg : SamplerConfig) (logits : List Logit) (r : ℝ) : ℕ :=
  if cfg.temperature ≤ 0 then (argmax logits).elim 0 Prod.snd
  else
    let probs := probabilities cfg logits
    (pick r 0 0 probs).getD (probs.length - 1)

/-! ### What each filter keeps -/

section

variable (cfg : SamplerConfig) (logits : List Logit)

/-- Fewer than `topK` logits are larger, where the filter is on. -/
def KeptByTopK (l : Logit) : Prop :=
  cfg.topK = 0 ∨ logits.length ≤ cfg.topK ∨ logits.countP (fun x => decide (l < x)) < cfg.topK

noncomputable instance (l : Logit) : Decidable (KeptByTopK cfg logits l) :=
  inferInstanceAs (Decidable (_ ∨ _))

/-- The largest probability is that of the largest logit. -/
noncomputable def relative (l : Logit) : ℝ :=
  expShifted ((logits.foldl max ⊥).unbotD 0 / cfg.temperature) (divided cfg.temperature l)

/-- The probability is at least `minP` of the largest, where the filter is on. -/
def KeptByMinP (l : Logit) : Prop := cfg.minP ≤ 0 ∨ cfg.minP ≤ relative cfg logits l

noncomputable instance (l : Logit) : Decidable (KeptByMinP cfg logits l) :=
  inferInstanceAs (Decidable (_ ∨ _))

/-- The probability of a logit that both filters keep, in units of the largest. -/
noncomputable def mass (l : Logit) : ℝ :=
  if KeptByTopK cfg logits l ∧ KeptByMinP cfg logits l then relative cfg logits l else 0

noncomputable def masses : List ℝ := logits.map (mass cfg logits)

/-- What ranks before a token has less than `topP` of the probability. The filter is off from one
on, and a limit that nothing is within clears nothing. -/
def KeptByTopP (i : ℕ) : Prop :=
  1 ≤ cfg.topP ∨ cfg.topP ≤ 0 ∨
    sumBefore (masses cfg logits).zipIdx ((masses cfg logits).getD i 0, i) <
      cfg.topP * (masses cfg logits).sum

/-- A token that is left after the three filters. -/
structure Survives (i : ℕ) : Prop where
  finite : logits.getD i ⊥ ≠ ⊥
  topK : KeptByTopK cfg logits (logits.getD i ⊥)
  minP : KeptByMinP cfg logits (logits.getD i ⊥)
  topP : KeptByTopP cfg logits i

end

/-! ### The draw -/

theorem pick_of_pos {r : ℝ} {probs : List ℝ} (hnonneg : ∀ p ∈ probs, 0 ≤ p) {cumsum : ℝ} {i : ℕ}
    (hlow : cumsum < r) (hhigh : r ≤ cumsum + probs.sum) :
    ∃ n, pick r cumsum i probs = some (i + n) ∧ 0 < probs.getD n 0 := by
  induction probs generalizing cumsum i with
  | nil =>
    rw [List.sum_nil, add_zero] at hhigh
    exact absurd hhigh hlow.not_ge
  | cons p rest ih =>
    rw [pick]
    split
    · next hreach =>
      refine ⟨0, rfl, ?_⟩
      rw [List.getD_cons_zero]
      linarith
    · next hreach =>
      rw [List.sum_cons, ← add_assoc] at hhigh
      obtain ⟨n, hpick, hpos⟩ := ih (fun q hq => hnonneg q (List.mem_cons_of_mem p hq))
        (i := i + 1) (not_le.mp hreach) hhigh
      refine ⟨n + 1, ?_, ?_⟩
      · rw [hpick]
        congr 1
        omega
      · rw [List.getD_cons_succ]
        exact hpos

/-- A draw of zero takes the first token, whatever its probability is. -/
theorem pick_zero {probs : List ℝ} (hnonneg : ∀ p ∈ probs, 0 ≤ p) (hne : probs ≠ []) :
    pick 0 0 0 probs = some 0 := by
  obtain ⟨p, rest, rfl⟩ := List.exists_cons_of_ne_nil hne
  rw [pick, if_pos]
  simpa using hnonneg p List.mem_cons_self

/-- A draw lands on a token of positive probability unless it is zero and the first token has
none. -/
theorem pick_pos_iff {r : ℝ} {probs : List ℝ} (hnonneg : ∀ p ∈ probs, 0 ≤ p) (hsum : probs.sum = 1)
    (hr : 0 ≤ r) (hr' : r < 1) :
    0 < probs.getD ((pick r 0 0 probs).getD (probs.length - 1)) 0 ↔ 0 < r ∨ 0 < probs.getD 0 0 := by
  rcases hr.eq_or_lt with rfl | hpos
  · have hne : probs ≠ [] := by
      rintro rfl
      simp at hsum
    rw [pick_zero hnonneg hne]
    simp
  · have hhigh : r ≤ 0 + probs.sum := by linarith
    obtain ⟨n, hpick, hn⟩ := pick_of_pos hnonneg (i := 0) hpos hhigh
    rw [hpick, zero_add]
    exact iff_of_true hn (.inl hpos)

end Zllm.Sampler
