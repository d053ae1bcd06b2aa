import Mathlib

/-!
# Reductions over lanes

The `2 ^ b` lanes of a workgroup each scan the items of one residue, and are then merged pairwise in
halves, keeping the left one of two equals. Of the largest items the merge keeps the one whose lane
comes first when the bits of the lanes' numbers are reversed, and of those in one lane the lowest.
-/

namespace Zllm.LaneReduction

variable {α κ : Type*} [LinearOrder κ] (key : α → κ)

/-- The larger one, and the left one of two equals. -/
def keep (x y : α) : α := if key x < key y then y else x

/-- One round: a lane below the stride takes in the one that is a stride above it. -/
def halve (lanes : ℕ → α) (stride t : ℕ) : α :=
  if t < stride then keep key (lanes t) (lanes (t + stride)) else lanes t

/-- The rounds over `2 ^ b` lanes. -/
def reduce : ℕ → (ℕ → α) → α
  | 0, lanes => lanes 0
  | b + 1, lanes => reduce b (halve key lanes (2 ^ b))

/-- The lane's number with its `b` bits reversed. -/
def turn : ℕ → ℕ → ℕ
  | 0, _ => 0
  | b + 1, t => 2 * turn b (t % 2 ^ b) + t / 2 ^ b

/-- Items in the order in which the reduction prefers them. -/
def place (b i : ℕ) : ℕ ×ₗ ℕ := toLex (turn b (i % 2 ^ b), i)

variable {key}

/-! ### The rounds -/

theorem foldl_halve (key : α → κ) (b : ℕ) (lanes : ℕ → α) :
    ((List.range b).reverse.map (2 ^ ·)).foldl (halve key) lanes 0 = reduce key b lanes := by
  induction b generalizing lanes with
  | zero => rfl
  | succ b ih =>
    rw [List.range_succ, List.reverse_append, List.map_append, List.foldl_append]
    exact ih _

theorem key_keep (key : α → κ) (x y : α) : key (keep key x y) = max (key x) (key y) := by
  rw [keep]
  split
  · next hlt => rw [max_eq_right hlt.le]
  · next hle => rw [max_eq_left (not_lt.mp hle)]

theorem turn_of_lt {b t : ℕ} (ht : t < 2 ^ b) : turn (b + 1) t = 2 * turn b t := by
  rw [turn, Nat.mod_eq_of_lt ht, Nat.div_eq_of_lt ht, add_zero]

theorem turn_add {b t : ℕ} (ht : t < 2 ^ b) : turn (b + 1) (t + 2 ^ b) = 2 * turn b t + 1 := by
  rw [turn, Nat.add_mod_right, Nat.mod_eq_of_lt ht, Nat.add_div_right _ (by positivity),
    Nat.div_eq_of_lt ht]

/-- A lane is in the lower half of twice as many, or a stride above one that is. -/
theorem lower_or_upper {b u : ℕ} (hu : u < 2 ^ (b + 1)) :
    ∃ v < 2 ^ b, u = v ∨ u = v + 2 ^ b := by
  have hpow : 2 ^ (b + 1) = 2 * 2 ^ b := pow_succ' 2 b
  rcases lt_or_ge u (2 ^ b) with hlow | hhigh
  · exact ⟨u, hlow, .inl rfl⟩
  · exact ⟨u - 2 ^ b, by omega, .inr (by omega)⟩

theorem turn_injective {b t u : ℕ} (ht : t < 2 ^ b) (hu : u < 2 ^ b) (hturn : turn b t = turn b u) :
    t = u := by
  induction b generalizing t u with
  | zero => omega
  | succ b ih =>
    obtain ⟨v, hv, rfl | rfl⟩ := lower_or_upper ht <;>
      obtain ⟨w, hw, rfl | rfl⟩ := lower_or_upper hu
    · rw [turn_of_lt hv, turn_of_lt hw] at hturn
      exact ih hv hw (by omega)
    · rw [turn_of_lt hv, turn_add hw] at hturn
      omega
    · rw [turn_add hv, turn_of_lt hw] at hturn
      omega
    · rw [turn_add hv, turn_add hw] at hturn
      rw [ih hv hw (by omega)]

/-- The lane that is left holds the largest value, and comes before the others that hold it. -/
theorem reduce_spec (key : α → κ) (b : ℕ) (lanes : ℕ → α) :
    ∃ t < 2 ^ b, reduce key b lanes = lanes t ∧
    ∀ u < 2 ^ b, key (lanes u) ≤ key (lanes t) ∧
      (key (lanes u) = key (lanes t) → turn b t ≤ turn b u) := by
  induction b generalizing lanes with
  | zero =>
    refine ⟨0, Nat.one_pos, rfl, fun u hu => ?_⟩
    obtain rfl : u = 0 := by omega
    exact ⟨le_rfl, fun _ => le_rfl⟩
  | succ b ih =>
    have hpow : 2 ^ (b + 1) = 2 * 2 ^ b := pow_succ' 2 b
    obtain ⟨t, ht, hreduce, hmost⟩ := ih (halve key lanes (2 ^ b))
    have hhalve {v : ℕ} (hv : v < 2 ^ b) :
        halve key lanes (2 ^ b) v = keep key (lanes v) (lanes (v + 2 ^ b)) := if_pos hv
    -- Neither of the two lanes that a round merges is above what is left of them.
    have hmost' : ∀ v < 2 ^ b, ∀ u, u = v ∨ u = v + 2 ^ b →
        key (lanes u) ≤ key (halve key lanes (2 ^ b) t) ∧
          (key (lanes u) = key (halve key lanes (2 ^ b) t) → turn b t ≤ turn b v) := by
      intro v hv u hu
      have hle : key (lanes u) ≤ key (halve key lanes (2 ^ b) v) := by
        rw [hhalve hv, key_keep key]
        rcases hu with rfl | rfl
        · exact le_max_left _ _
        · exact le_max_right _ _
      refine ⟨hle.trans (hmost v hv).1, fun heq => (hmost v hv).2 ?_⟩
      exact le_antisymm (hmost v hv).1 (heq ▸ hle)
    rw [hhalve ht] at hreduce hmost'
    by_cases hlt : key (lanes t) < key (lanes (t + 2 ^ b))
    · rw [keep, if_pos hlt] at hreduce hmost'
      refine ⟨t + 2 ^ b, by omega, hreduce, fun u hu => ?_⟩
      obtain ⟨v, hv, hcase⟩ := lower_or_upper hu
      refine ⟨(hmost' v hv u hcase).1, fun heq => ?_⟩
      have hturn := (hmost' v hv u hcase).2 heq
      rw [turn_add ht]
      rcases hcase with rfl | rfl
      · -- The lane at `t` itself is below, so this one comes later.
        have hne : turn b t ≠ turn b u := by
          intro hsame
          rw [turn_injective ht hv hsame] at hlt
          exact hlt.ne (by rw [heq, turn_injective ht hv hsame])
        rw [turn_of_lt hv]
        omega
      · rw [turn_add hv]
        omega
    · rw [keep, if_neg hlt] at hreduce hmost'
      refine ⟨t, by omega, hreduce, fun u hu => ?_⟩
      obtain ⟨v, hv, hcase⟩ := lower_or_upper hu
      refine ⟨(hmost' v hv u hcase).1, fun heq => ?_⟩
      have hturn := (hmost' v hv u hcase).2 heq
      rw [turn_of_lt ht]
      rcases hcase with rfl | rfl
      · rw [turn_of_lt hv]
        omega
      · rw [turn_add hv]
        omega

/-! ### Scans -/

section

variable (key : α → κ) (item : ℕ → α) (init : α) {l : List ℕ}

/-- A scan keeps the first of the largest items, if one is above where it starts. -/
theorem scan_spec (hsorted : l.Pairwise (· < ·)) :
    (l.foldl (fun best k => keep key best (item k)) init = init ∧
      ∀ k ∈ l, key (item k) ≤ key init) ∨
    ∃ i ∈ l, l.foldl (fun best k => keep key best (item k)) init = item i ∧
      key init < key (item i) ∧
      ∀ k ∈ l, key (item k) ≤ key (item i) ∧ (key (item k) = key (item i) → i ≤ k) := by
  induction l using List.reverseRecOn with
  | nil => exact .inl ⟨rfl, by simp⟩
  | append_singleton l last ih =>
    obtain ⟨hl, -, hlast⟩ := List.pairwise_append.mp hsorted
    have hlater : ∀ k ∈ l, k ≤ last := fun k hk => (hlast k hk last (List.mem_singleton_self _)).le
    rw [List.foldl_append, List.foldl_cons, List.foldl_nil]
    rcases ih hl with ⟨hfold, hall⟩ | ⟨i, hi, hfold, habove, hmost⟩
    · rw [hfold]
      by_cases hlt : key init < key (item last)
      · refine .inr ⟨last, by simp, if_pos hlt, hlt, fun k hk => ?_⟩
        rcases List.mem_append.mp hk with hk | hk
        · have hbelow := (hall k hk).trans_lt hlt
          exact ⟨hbelow.le, fun heq => absurd heq hbelow.ne⟩
        · rw [List.mem_singleton.mp hk]
          exact ⟨le_rfl, fun _ => le_rfl⟩
      · refine .inl ⟨if_neg hlt, fun k hk => ?_⟩
        rcases List.mem_append.mp hk with hk | hk
        · exact hall k hk
        · rw [List.mem_singleton.mp hk]
          exact not_lt.mp hlt
    · rw [hfold]
      by_cases hlt : key (item i) < key (item last)
      · refine .inr ⟨last, by simp, if_pos hlt, habove.trans hlt, fun k hk => ?_⟩
        rcases List.mem_append.mp hk with hk | hk
        · have hbelow := (hmost k hk).1.trans_lt hlt
          exact ⟨hbelow.le, fun heq => absurd heq hbelow.ne⟩
        · rw [List.mem_singleton.mp hk]
          exact ⟨le_rfl, fun _ => le_rfl⟩
      · refine .inr ⟨i, by simp [hi], if_neg hlt, habove, fun k hk => ?_⟩
        rcases List.mem_append.mp hk with hk | hk
        · exact hmost k hk
        · rw [List.mem_singleton.mp hk]
          exact ⟨not_lt.mp hlt, fun _ => hlater i hi⟩

/-- What the lanes keep of the items, each of its own residue. -/
theorem reduce_stripes (b : ℕ) (hsorted : l.Pairwise (· < ·)) {lanes : ℕ → α}
    (hlanes : ∀ t, lanes t =
      (l.filter (· % 2 ^ b = t)).foldl (fun best k => keep key best (item k)) init) :
    (reduce key b lanes = init ∧ ∀ k ∈ l, key (item k) ≤ key init) ∨
    ∃ i ∈ l, reduce key b lanes = item i ∧ key init < key (item i) ∧
      ∀ k ∈ l, key (item k) ≤ key (item i) ∧
        (key (item k) = key (item i) → place b i ≤ place b k) := by
  have hsublist (t : ℕ) : (l.filter (· % 2 ^ b = t)).Sublist l := List.filter_sublist
  have hscan (t : ℕ) := scan_spec key item init (hsorted.sublist (hsublist t))
  simp only [← hlanes, List.mem_filter, decide_eq_true_eq, and_imp] at hscan
  have hlane (k : ℕ) : k % 2 ^ b < 2 ^ b := Nat.mod_lt _ (by positivity)
  have hle {k : ℕ} (hk : k ∈ l) : key (item k) ≤ key (lanes (k % 2 ^ b)) := by
    rcases hscan (k % 2 ^ b) with ⟨hinit, hall⟩ | ⟨i, -, hi, -, hall⟩
    · rw [hinit]
      exact hall k hk rfl
    · rw [hi]
      exact (hall k hk rfl).1
  obtain ⟨t, ht, hreduce, hmost⟩ := reduce_spec key b lanes
  rw [hreduce]
  rcases hscan t with ⟨hinit, -⟩ | ⟨i, ⟨hi, rfl⟩, hitem, habove, hfirst⟩
  · refine .inl ⟨hinit, fun k hk => ?_⟩
    rw [← hinit]
    exact (hle hk).trans (hmost _ (hlane k)).1
  · refine .inr ⟨i, hi, hitem, habove, fun k hk => ?_⟩
    rw [← hitem]
    have hbest := hmost _ (hlane k)
    refine ⟨(hle hk).trans hbest.1, fun heq => ?_⟩
    have hturn := hbest.2 (le_antisymm hbest.1 (heq ▸ hle hk))
    rw [place, place, Prod.Lex.toLex_le_toLex]
    rcases hturn.eq_or_lt with hsame | hbefore
    · have hstripe := turn_injective ht (hlane k) hsame
      exact .inr ⟨hsame, (hfirst k hk hstripe.symm).2 (heq.trans (congrArg key hitem))⟩
    · exact .inl hbefore

end

end Zllm.LaneReduction
