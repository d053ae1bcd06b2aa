import Mathlib

/-!
# Entropies, and the two largest entries of a list

The entropy of a list of probabilities lies between zero and the logarithm of its length. One pass
finds the two largest entries, counted with multiplicity.
-/

namespace Zllm.Entropy

/-! ### Entropies -/

structure Distribution (ps : List ℝ) : Prop where
  nonneg : ∀ p ∈ ps, 0 ≤ p
  sum_eq : ps.sum = 1

noncomputable def entropy (ps : List ℝ) : ℝ := (ps.map Real.negMulLog).sum

theorem entropy_eq_neg (ps : List ℝ) : entropy ps = -(ps.map fun p => p * Real.log p).sum := by
  induction ps with
  | nil => simp [entropy]
  | cons p ps ih =>
    rw [entropy] at ih
    rw [entropy, List.map_cons, List.sum_cons, ih, List.map_cons, List.sum_cons, Real.negMulLog]
    ring

variable {ps : List ℝ}

theorem Distribution.le_one (hps : Distribution ps) {p : ℝ} (hp : p ∈ ps) : p ≤ 1 :=
  (List.single_le_sum hps.nonneg p hp).trans_eq hps.sum_eq

theorem Distribution.length_pos (hps : Distribution ps) : 0 < ps.length := by
  rcases ps with _ | ⟨p, ps⟩
  · exact absurd hps.sum_eq (by simp)
  · exact Nat.succ_pos _

theorem Distribution.entropy_nonneg (hps : Distribution ps) : 0 ≤ entropy ps := by
  apply List.sum_nonneg
  intro h hmem
  obtain ⟨p, hp, rfl⟩ := List.mem_map.mp hmem
  exact Real.negMulLog_nonneg (hps.nonneg p hp) (hps.le_one hp)

/-- The bound is one for each entry: `x ln x` lies above its tangent at `x = 1`, taken at `n p`. -/
theorem Distribution.entropy_le_log (hps : Distribution ps) :
    entropy ps ≤ Real.log ps.length := by
  have hn : (0 : ℝ) < ps.length := by exact_mod_cast hps.length_pos
  have hentry (p : ℝ) (hp : p ∈ ps) :
      ps.length * Real.negMulLog p ≤ 1 - ps.length * p + ps.length * p * Real.log ps.length := by
    have htangent : Real.negMulLog (ps.length * p) ≤ 1 - ps.length * p :=
      Real.negMulLog_le_one_sub_self (mul_nonneg hn.le (hps.nonneg p hp))
    rw [Real.negMulLog_mul] at htangent
    have hself : p * Real.negMulLog ps.length = -(ps.length * p * Real.log ps.length) := by
      rw [Real.negMulLog]
      ring
    linarith
  have hsum : ps.length * entropy ps ≤
      (ps.map fun p => 1 - ps.length * p + ps.length * p * Real.log ps.length).sum := by
    rw [entropy, ← List.sum_map_mul_left]
    exact List.sum_le_sum hentry
  have hright : (ps.map fun p => 1 - ps.length * p + ps.length * p * Real.log ps.length).sum =
      ps.length * Real.log ps.length := by
    calc (ps.map fun p => 1 - ps.length * p + ps.length * p * Real.log ps.length).sum
        = (ps.map fun p => 1 + (-ps.length + ps.length * Real.log ps.length) * p).sum := by
          refine congrArg List.sum (List.map_congr_left fun p _ => ?_)
          ring
      _ = ps.length + (-ps.length + ps.length * Real.log ps.length) * ps.sum := by
          rw [List.sum_map_add, List.sum_map_mul_left, List.map_id', List.map_const',
            List.sum_replicate, nsmul_one]
      _ = ps.length * Real.log ps.length := by
          rw [hps.sum_eq]
          ring
  exact le_of_mul_le_mul_left (hsum.trans_eq hright) hn

/-! ### The two largest entries -/

variable {α : Type} [LinearOrder α] {a b c d x : α} {xs : List α}

/-- `a` and `b` are the largest entry and the next one. -/
def TwoLargest (a b : α) (xs : List α) : Prop :=
  ∃ rest, xs.Perm (a :: b :: rest) ∧ b ≤ a ∧ ∀ x ∈ rest, x ≤ b

/-- One entry seen. -/
def topTwo (st : α × α) (x : α) : α × α :=
  if st.1 < x then (x, st.1) else if st.2 < x then (st.1, x) else st

theorem TwoLargest.le (h : TwoLargest a b xs) (hx : x ∈ xs) : x ≤ a := by
  obtain ⟨rest, hperm, hab, hrest⟩ := h
  rcases List.mem_cons.mp (hperm.mem_iff.mp hx) with rfl | hx
  · exact le_rfl
  · rcases List.mem_cons.mp hx with rfl | hx
    · exact hab
    · exact (hrest x hx).trans hab

theorem TwoLargest.mem (h : TwoLargest a b xs) : a ∈ xs ∧ b ∈ xs := by
  obtain ⟨rest, hperm, -⟩ := h
  exact ⟨hperm.mem_iff.mpr (by simp), hperm.mem_iff.mpr (by simp)⟩

theorem TwoLargest.unique (h : TwoLargest a b xs) (h' : TwoLargest c d xs) : a = c ∧ b = d := by
  obtain rfl : a = c := le_antisymm (h'.le h.mem.1) (h.le h'.mem.1)
  obtain ⟨rest, hperm, -, hrest⟩ := h
  obtain ⟨rest', hperm', -, hrest'⟩ := h'
  have hrests : (b :: rest).Perm (d :: rest') := (hperm.symm.trans hperm').cons_inv
  have hle {u v : α} {us vs : List α} (husvs : (u :: us).Perm (v :: vs)) (hvs : ∀ x ∈ vs, x ≤ v) :
      u ≤ v := by
    rcases List.mem_cons.mp (husvs.mem_iff.mp List.mem_cons_self) with rfl | hu
    · exact le_rfl
    · exact hvs u hu
  exact ⟨rfl, le_antisymm (hle hrests hrest') (hle hrests.symm hrest)⟩

theorem TwoLargest.topTwo (h : TwoLargest a b xs) (x : α) :
    TwoLargest (topTwo (a, b) x).1 (topTwo (a, b) x).2 (x :: xs) := by
  obtain ⟨rest, hperm, hab, hrest⟩ := h
  have hcons : (x :: xs).Perm (x :: a :: b :: rest) := hperm.cons x
  unfold Entropy.topTwo
  dsimp only
  split_ifs with hfirst hsecond
  · refine ⟨b :: rest, hcons, hfirst.le, fun y hy => ?_⟩
    rcases List.mem_cons.mp hy with rfl | hy
    · exact hab
    · exact (hrest y hy).trans hab
  · refine ⟨b :: rest, hcons.trans (.swap a x _), not_lt.mp hfirst, fun y hy => ?_⟩
    rcases List.mem_cons.mp hy with rfl | hy
    · exact hsecond.le
    · exact (hrest y hy).trans hsecond.le
  · refine ⟨x :: rest, hcons.trans ((List.Perm.swap a x _).trans ((List.Perm.swap b x _).cons a)),
      hab, fun y hy => ?_⟩
    rcases List.mem_cons.mp hy with rfl | hy
    · exact not_lt.mp hsecond
    · exact hrest y hy

theorem TwoLargest.perm {ys : List α} (h : TwoLargest a b xs) (hperm : ys.Perm xs) :
    TwoLargest a b ys := by
  obtain ⟨rest, hrest, horder⟩ := h
  exact ⟨rest, hperm.trans hrest, horder⟩

/-- A pass over `xs` from the two largest entries of what was there before. -/
theorem TwoLargest.foldl {before : List α} (h : TwoLargest a b before) (xs : List α) :
    TwoLargest (xs.foldl Entropy.topTwo (a, b)).1 (xs.foldl Entropy.topTwo (a, b)).2
      (xs ++ before) := by
  induction xs generalizing a b before with
  | nil => exact h
  | cons x xs ih => exact (ih (h.topTwo x)).perm List.perm_middle.symm

theorem exists_twoLargest (hlen : 2 ≤ xs.length) : ∃ a b, TwoLargest a b xs := by
  rcases xs with _ | ⟨x, _ | ⟨y, xs⟩⟩
  · simp at hlen
  · simp at hlen
  · have hstart : TwoLargest (max x y) (min x y) [x, y] := by
      refine ⟨[], ?_, min_le_max, by simp⟩
      rcases le_total x y with hxy | hyx
      · rw [max_eq_right hxy, min_eq_left hxy]
        exact .swap y x []
      · rw [max_eq_left hyx, min_eq_right hyx]
    refine ⟨_, _, (hstart.foldl xs).perm ?_⟩
    show ([x, y] ++ xs).Perm (xs ++ [x, y])
    exact List.perm_append_comm

/-- From a start below everything, the pass finds the two largest entries. -/
theorem foldl_topTwo {ps : List α} (h : TwoLargest a b ps) :
    (ps.map WithBot.some).foldl topTwo (⊥, ⊥) = ((a : WithBot α), (b : WithBot α)) := by
  have hbot : TwoLargest (⊥ : WithBot α) ⊥ [⊥, ⊥] := ⟨[], .refl _, le_rfl, by simp⟩
  have hscan := hbot.foldl (ps.map WithBot.some)
  obtain ⟨rest, hperm, hab, hrest⟩ := h
  have htrue : TwoLargest (a : WithBot α) b (ps.map WithBot.some ++ [⊥, ⊥]) := by
    refine ⟨rest.map WithBot.some ++ [⊥, ⊥], (hperm.map _).append_right _,
      WithBot.coe_le_coe.mpr hab, fun x hx => ?_⟩
    rcases List.mem_append.mp hx with hx | hx
    · obtain ⟨y, hy, rfl⟩ := List.mem_map.mp hx
      exact WithBot.coe_le_coe.mpr (hrest y hy)
    · have hxbot : x = ⊥ := by simpa using hx
      exact hxbot ▸ bot_le
  exact Prod.ext_iff.mpr (hscan.unique htrue)

end Zllm.Entropy
