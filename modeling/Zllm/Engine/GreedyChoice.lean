import Zllm.Lib.Extended
import Zllm.Engine.Sampler
import Zllm.Engine.SpecDecode

/-!
# The greedy choice of the lanes

Plain decoding at temperature zero takes the last of the largest logits, the verification of drafts
the first. Both are read here over every float, infinite or no number, and agree with the sampler
and the verifier over finite logits. The two choices are the same token exactly where one logit is
above all the others.
-/

namespace Zllm.GreedyChoice

open Extended

section

variable {α : Type*} [LinearOrder α]

/-- What `max_by` keeps of two, where values that do not compare are equal. -/
def later (best : Option (Extended α × ℕ)) (b : Extended α × ℕ) : Option (Extended α × ℕ) :=
  match best with
  | none => some b
  | some a => if b.1 < a.1 then some a else some b

/-- The greedy branch of `sample_with_rng`, and `argmax_token`. -/
def sampleGreedy (logits : List (Extended α)) : ℕ :=
  (logits.zipIdx.foldl later none).elim 0 Prod.snd

def larger (best x : Extended α × ℕ) : Extended α × ℕ := if best.1 < x.1 then x else best

/-- `spec_decode::argmax`. -/
def argmax (v : List (Extended α)) : ℕ := (v.zipIdx.foldl larger (bot, 0)).2

/-- One logit is above all others. What is no number does not count if it stands before. -/
def Decisive (v : List (Extended α)) : Prop :=
  ∃ before x after, v = before ++ x :: after ∧ (before = [] ∨ bot < x) ∧
    (∀ y ∈ before, y = nan ∨ y < x) ∧ ∀ y ∈ after, y < x

/-! ### What the two loops find -/

theorem foldl_later {v : List (Extended α)} (hne : v ≠ []) :
    ∃ before x after, v = before ++ x :: after ∧
      v.zipIdx.foldl later none = some (x, before.length) ∧ (∀ y ∈ after, y < x) ∧
      (nan ∉ v → ∀ y ∈ before, ¬ x < y) := by
  induction v using List.reverseRecOn with
  | nil => exact absurd rfl hne
  | append_singleton rest y ih =>
    rw [List.zipIdx_append, List.foldl_append]
    rcases eq_or_ne rest [] with rfl | hrest
    · exact ⟨[], y, [], rfl, rfl, by simp, by simp⟩
    · obtain ⟨before, x, after, hsplit, hbest, hafter, hbefore⟩ := ih hrest
      rw [hbest]
      by_cases hlt : y < x
      · refine ⟨before, x, after ++ [y], by simp [hsplit], by simp [later, hlt], ?_, ?_⟩
        · intro z hz
          rcases List.mem_append.mp hz with hz | hz
          · exact hafter z hz
          · exact List.mem_singleton.mp hz ▸ hlt
        · exact fun hnum => hbefore fun hnan => hnum (by simp [hnan])
      · refine ⟨rest, y, [], rfl, by simp [later, hlt], by simp, fun hnum z hz hyz => ?_⟩
        have hx : x ≠ nan := by
          rintro rfl
          exact hnum (by simp [hsplit])
        -- What is above the new choice is above the old one, which nothing is.
        have hxz : x < z := (eq_nan_or_lt_of_not_lt hlt hyz).resolve_left hx
        rw [hsplit] at hz
        rcases List.mem_append.mp hz with hz | hz
        · exact hbefore (fun hnan => hnum (by simp [hnan])) z hz hxz
        · rcases List.mem_cons.mp hz with rfl | hz
          · exact lt_asymm' hxz hxz
          · exact lt_asymm' hxz (hafter z hz)

/-- Among numbers the sampler takes one that nothing is above, and all that follow are below. -/
theorem sampleGreedy_spec {v : List (Extended α)} (hne : v ≠ []) (hnum : nan ∉ v) :
    ∃ x, v[sampleGreedy v]? = some x ∧ (∀ y ∈ v, ¬ x < y) ∧
      ∀ i y, sampleGreedy v < i → v[i]? = some y → y < x := by
  obtain ⟨before, x, after, hsplit, hbest, hafter, hbefore⟩ := foldl_later hne
  have hplace : sampleGreedy v = before.length := by
    rw [sampleGreedy, hbest]
    rfl
  rw [hplace]
  refine ⟨x, by simp [hsplit], fun y hy hxy => ?_, fun i y hi hy => ?_⟩
  · rw [hsplit] at hy
    rcases List.mem_append.mp hy with hy | hy
    · exact hbefore hnum y hy hxy
    · rcases List.mem_cons.mp hy with rfl | hy
      · exact lt_asymm' hxy hxy
      · exact lt_asymm' hxy (hafter y hy)
  · obtain ⟨k, rfl⟩ := Nat.exists_eq_add_of_lt hi
    rw [hsplit, List.getElem?_append_right (by omega)] at hy
    have hk : before.length + k + 1 - before.length = k + 1 := by omega
    rw [hk, List.getElem?_cons_succ] at hy
    exact hafter y (List.mem_of_getElem? hy)

/-- Nothing is above minus infinity, or the first of the largest is found. -/
theorem foldl_larger (v : List (Extended α)) :
    (v.zipIdx.foldl larger (bot, 0) = (bot, 0) ∧ ∀ y ∈ v, ¬ bot < y) ∨
      ∃ before x after, v = before ++ x :: after ∧
        v.zipIdx.foldl larger (bot, 0) = (x, before.length) ∧ bot < x ∧
        (∀ y ∈ before, y = nan ∨ y < x) ∧ ∀ y ∈ after, ¬ x < y := by
  induction v using List.reverseRecOn with
  | nil => exact .inl ⟨rfl, by simp⟩
  | append_singleton rest y ih =>
    rw [List.zipIdx_append, List.foldl_append]
    rcases ih with ⟨hbest, hlow⟩ | ⟨before, x, after, hsplit, hbest, hx, hbefore, hafter⟩
    · rw [hbest]
      by_cases hlt : bot < y
      · refine .inr ⟨rest, y, [], rfl, by simp [larger, hlt], hlt, ?_, by simp⟩
        exact fun z hz => eq_nan_or_lt_of_not_lt (hlow z hz) hlt
      · refine .inl ⟨by simp [larger, hlt], fun z hz => ?_⟩
        rcases List.mem_append.mp hz with hz | hz
        · exact hlow z hz
        · exact List.mem_singleton.mp hz ▸ hlt
    · rw [hbest]
      by_cases hlt : x < y
      · refine .inr ⟨rest, y, [], rfl, by simp [larger, hlt], bot_lt_of_lt hlt, ?_, by simp⟩
        intro z hz
        rw [hsplit] at hz
        rcases List.mem_append.mp hz with hz | hz
        · exact (hbefore z hz).imp_right fun hz => lt_trans' hz hlt
        · rcases List.mem_cons.mp hz with rfl | hz
          · exact .inr hlt
          · exact eq_nan_or_lt_of_not_lt (hafter z hz) hlt
      · refine .inr ⟨before, x, after ++ [y], by simp [hsplit], by simp [larger, hlt], hx, hbefore,
          ?_⟩
        intro z hz
        rcases List.mem_append.mp hz with hz | hz
        · exact hafter z hz
        · exact List.mem_singleton.mp hz ▸ hlt

/-! ### Above all others -/

section

variable {before after : List (Extended α)} {x : Extended α}

theorem foldl_later_of_forall_lt {i : ℕ} (hafter : ∀ y ∈ after, y < x) (n : ℕ) :
    (after.zipIdx n).foldl later (some (x, i)) = some (x, i) := by
  induction after generalizing n with
  | nil => rfl
  | cons y after ih =>
    rw [List.zipIdx_cons, List.foldl_cons, later, if_pos (hafter y List.mem_cons_self)]
    exact ih (fun z hz => hafter z (List.mem_cons_of_mem y hz)) _

/-- The sampler takes what everything before is not above and everything after is below. -/
theorem sampleGreedy_eq (hbefore : ∀ y ∈ before, y = nan ∨ y < x) (hafter : ∀ y ∈ after, y < x) :
    sampleGreedy (before ++ x :: after) = before.length := by
  have htake : later (before.zipIdx.foldl later none) (x, before.length) =
      some (x, before.length) := by
    rcases eq_or_ne before [] with rfl | hne
    · rfl
    · obtain ⟨left, y, right, hsplit, hbest, -, -⟩ := foldl_later hne
      have hy : ¬ x < y := by
        rcases hbefore y (by simp [hsplit]) with rfl | hy
        · exact not_lt_nan x
        · exact lt_asymm' hy
      rw [hbest, later, if_neg hy]
  rw [sampleGreedy, List.zipIdx_append, List.foldl_append, List.zipIdx_cons, List.foldl_cons,
    zero_add, htake, foldl_later_of_forall_lt hafter]
  rfl

theorem argmax_eq (hfirst : before = [] ∨ bot < x) (hbefore : ∀ y ∈ before, y = nan ∨ y < x)
    (hafter : ∀ y ∈ after, y < x) : argmax (before ++ x :: after) = before.length := by
  rcases foldl_larger (before ++ x :: after) with ⟨hbest, hlow⟩ | ⟨left, y, right, hsplit, hbest,
    hy, hleft, hright⟩
  · rw [argmax, hbest]
    rcases hfirst with rfl | hx
    · rfl
    · exact absurd hx (hlow x (by simp))
  · rw [argmax, hbest]
    -- The two splits are the same, since neither value is above the other.
    rcases List.append_eq_append_iff.mp hsplit with ⟨gap, hl, hr⟩ | ⟨gap, hl, hr⟩
    · cases gap with
      | nil => simp_all
      | cons z gap =>
        obtain ⟨rfl, rfl⟩ := List.cons.inj hr
        have hyx : y < x := hafter y (by simp)
        rcases hleft x (by simp [hl]) with rfl | hxy
        · exact absurd hyx (not_lt_nan y)
        · exact absurd hxy (lt_asymm' hyx)
    · cases gap with
      | nil => simp_all
      | cons z gap =>
        obtain ⟨rfl, rfl⟩ := List.cons.inj hr
        rcases hbefore y (by simp [hl]) with rfl | hyx
        · exact absurd hy (not_lt_nan bot)
        · exact absurd hyx (hright x (by simp))

end

/-! ### The lanes agree -/

/-- The token of `sample_with_rng` at temperature zero is the one that verifies drafts exactly
where one logit is above all the others. -/
theorem sampleGreedy_eq_argmax_iff {v : List (Extended α)} (hne : v ≠ []) :
    sampleGreedy v = argmax v ↔ Decisive v := by
  constructor
  · intro hsame
    obtain ⟨before, x, after, hsplit, hbest, hafter, -⟩ := foldl_later hne
    rw [sampleGreedy, argmax, hbest] at hsame
    change before.length = _ at hsame
    rcases foldl_larger v with ⟨hbest', hlow⟩ | ⟨left, y, right, hsplit', hbest', hy, hleft, hright⟩
    · rw [hbest'] at hsame
      obtain rfl := List.length_eq_zero_iff.mp hsame
      exact ⟨[], x, after, hsplit, .inl rfl, by simp, hafter⟩
    · rw [hbest'] at hsame
      obtain ⟨rfl, hrest⟩ := List.append_inj (hsplit.symm.trans hsplit') hsame
      obtain ⟨rfl, rfl⟩ := List.cons.inj hrest
      exact ⟨before, x, after, hsplit, .inr hy, hleft, hafter⟩
  · rintro ⟨before, x, after, rfl, hfirst, hbefore, hafter⟩
    rw [sampleGreedy_eq hbefore hafter, argmax_eq hfirst hbefore hafter]

/-- Where every logit is a number, the others are the ones before and the ones after. -/
theorem decisive_iff {v : List (Extended α)} (hnum : nan ∉ v) :
    Decisive v ↔ ∃ before x after, v = before ++ x :: after ∧ ∀ y ∈ before ++ after, y < x := by
  constructor
  · rintro ⟨before, x, after, rfl, -, hbefore, hafter⟩
    refine ⟨before, x, after, rfl, fun y hy => ?_⟩
    rcases List.mem_append.mp hy with hy | hy
    · refine (hbefore y hy).resolve_left ?_
      rintro rfl
      exact hnum (by simp [hy])
    · exact hafter y hy
  · rintro ⟨before, x, after, rfl, hlt⟩
    refine ⟨before, x, after, rfl, ?_, fun y hy => .inr (hlt y (by simp [hy])),
      fun y hy => hlt y (by simp [hy])⟩
    cases before with
    | nil => exact .inl rfl
    | cons y before => exact .inr (bot_lt_of_lt (hlt y (by simp)))

end

/-- The token that `sample_with_rng` takes at temperature zero is the one that `spec_decode::argmax`
verifies drafts against exactly where one logit is above all the others. -/
theorem greedy_agrees_with_verification (v : List (Extended ℚ)) (hne : v ≠ []) :
    sampleGreedy v = argmax v ↔ Decisive v :=
  sampleGreedy_eq_argmax_iff hne

theorem greedy_agrees_with_verification_pair :
    sampleGreedy [fin 1, fin (2 : ℚ)] = argmax [fin 1, fin (2 : ℚ)] ↔
      Decisive [fin 1, fin (2 : ℚ)] :=
  greedy_agrees_with_verification _ (List.cons_ne_nil _ _)

/-- Among eight equal logits the sampler takes the last and the verifier the first. -/
theorem greedy_disagrees_on_ties :
    ¬ ∀ v : List (Extended ℚ), v ≠ [] → sampleGreedy v = argmax v := by
  intro hsame
  exact absurd (hsame (List.replicate 8 (fin 1)) (by simp)) (by decide)

/-! ### The sampler and the verifier -/

theorem foldl_later_ofWithBot (logits : List Sampler.Logit) :
    (logits.map ofWithBot).zipIdx.foldl later none =
      (Sampler.argmax logits).map (Prod.map ofWithBot id) := by
  unfold Sampler.argmax
  induction logits using List.reverseRecOn with
  | nil => rfl
  | append_singleton rest l ih =>
    rw [List.map_append, List.zipIdx_append, List.zipIdx_append, List.foldl_append,
      List.foldl_append, ih, List.length_map]
    simp only [List.map_cons, List.map_nil, List.zipIdx_singleton, List.foldl_cons,
      List.foldl_nil]
    cases rest.zipIdx.foldl _ none with
    | none => rfl
    | some a =>
      simp only [later, Option.map_some, Prod.map_fst, ofWithBot_lt]
      split <;> rfl

theorem sampleWithRng_eq_sampleGreedy {cfg : Sampler.SamplerConfig} (htemp : cfg.temperature ≤ 0)
    (logits : List Sampler.Logit) (r : ℝ) :
    Sampler.sampleWithRng cfg logits r = sampleGreedy (logits.map ofWithBot) := by
  rw [Sampler.sampleWithRng, if_pos htemp, sampleGreedy, foldl_later_ofWithBot]
  cases Sampler.argmax logits <;> rfl

theorem specDecode_argmax_eq (v : List Logit) :
    SpecDecode.argmax v = argmax (v.map ofWithBot) := by
  have hbest : (v.map ofWithBot).zipIdx.foldl larger (bot, 0) =
      Prod.map ofWithBot id
        (v.zipIdx.foldl (fun best x => if best.1 < x.1 then x else best) (⊥, 0)) := by
    induction v using List.reverseRecOn with
    | nil => rfl
    | append_singleton rest l ih =>
      rw [List.map_append, List.zipIdx_append, List.zipIdx_append, List.foldl_append,
        List.foldl_append, ih, List.length_map]
      simp only [List.map_cons, List.map_nil, List.zipIdx_singleton, List.foldl_cons,
        List.foldl_nil, larger, Prod.map_fst, ofWithBot_lt]
      split <;> rfl
  rw [SpecDecode.argmax, argmax, hbest]
  rfl

end Zllm.GreedyChoice
