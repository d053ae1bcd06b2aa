import Mathlib

/-!
# Languages of texts

The languages that grammars of texts are put together from, and how they compose.
-/

namespace Zllm.Texts

/-- A property of the characters of a text is decided one by one, not for all characters there
are. -/
instance (priority := high) decidableForallChars {p : Char → Prop} [DecidablePred p]
    (w : List Char) : Decidable (∀ c ∈ w, p c) := List.decidableBAll p w

/-- The one-character texts of a class. -/
def oneOf (p : Char → Bool) : Language Char := { w | ∃ c, w = [c] ∧ p c = true }

/-- The language that has one text. -/
def exactly (w : List Char) : Language Char := { w }

/-- Between `lo` and `hi` texts of a language, in sequence. -/
def repeated (l : Language Char) (lo : Nat) (hi : Option Nat) : Language Char :=
  { w | ∃ n, lo ≤ n ∧ (∀ h ∈ hi, n ≤ h) ∧ w ∈ l ^ n }

/-- A text or none. -/
def optional (l : Language Char) : Language Char := 1 + l

theorem mem_exactly {w v : List Char} : w ∈ exactly v ↔ w = v := Iff.rfl

theorem exactly_append (v w : List Char) : exactly (v ++ w) = exactly v * exactly w := by
  ext u
  simp [Language.mem_mul, mem_exactly, eq_comm]

theorem exactly_cons (c : Char) (w : List Char) : exactly (c :: w) = exactly [c] * exactly w :=
  exactly_append [c] w

theorem mem_optional {l : Language Char} {w : List Char} : w ∈ optional l ↔ w = [] ∨ w ∈ l :=
  Iff.rfl

theorem oneOf_singleton (c : Char) : oneOf (fun d => d == c) = exactly [c] := by
  ext w
  constructor
  · rintro ⟨d, rfl, hd⟩
    exact congrArg (fun e => [e]) (beq_iff_eq.mp hd)
  · rintro rfl
    exact ⟨c, rfl, beq_self_eq_true c⟩

theorem sum_map_mem {α : Type*} {xs : List α} {l : α → Language Char} {w : List Char} :
    w ∈ (xs.map l).sum ↔ ∃ x ∈ xs, w ∈ l x := by
  induction xs with
  | nil => simp [Language.notMem_zero]
  | cons x xs ih =>
    rw [List.map_cons, List.sum_cons, Language.mem_add, ih]
    simp

/-! ### Separated texts -/

/-- One text of each language in turn, with a separator between two. -/
def separated (sep : Language Char) : List (Language Char) → Language Char
  | [] => 1
  | [l] => l
  | l :: next :: rest => l * sep * separated sep (next :: rest)

theorem separated_cons (sep l : Language Char) {rest : List (Language Char)} (hne : rest ≠ []) :
    separated sep (l :: rest) = l * sep * separated sep rest := by
  cases rest with
  | nil => exact absurd rfl hne
  | cons next rest => rfl

theorem separated_mono (sep : Language Char) {ls ms : List (Language Char)}
    (h : List.Forall₂ (· ≤ ·) ls ms) : separated sep ls ≤ separated sep ms := by
  induction h with
  | nil => exact le_rfl
  | @cons l m ls ms hhead htail ih =>
    cases htail with
    | nil => exact hhead
    | cons => exact mul_le_mul' (mul_le_mul' hhead le_rfl) ih

/-- Every language of a separated sequence has a text in it. -/
theorem exists_subset_of_separated {sep : Language Char} {ls : List (Language Char)}
    {w : List Char} (hw : w ∈ separated sep ls) : ∀ l ∈ ls, ∃ u ∈ l, u ⊆ w := by
  induction ls generalizing w with
  | nil => exact fun l hl => absurd hl List.not_mem_nil
  | cons first ls ih =>
    by_cases hne : ls = []
    · subst hne
      exact List.forall_mem_singleton.mpr ⟨w, hw, List.Subset.refl w⟩
    · rw [separated_cons sep first hne] at hw
      obtain ⟨_, hleft, rest, hrest, rfl⟩ := Language.mem_mul.mp hw
      obtain ⟨u, hu, s, -, rfl⟩ := Language.mem_mul.mp hleft
      rw [List.forall_mem_cons]
      constructor
      · exact ⟨u, hu, fun c hc => by simp [hc]⟩
      · intro l hl
        obtain ⟨v, hv, hsub⟩ := ih hrest l hl
        exact ⟨v, hv, fun c hc => List.mem_append_right _ (hsub hc)⟩

/-- A repetition after a first text is a separated sequence of any length. -/
theorem mul_kstar_eq_separated (sep l : Language Char) :
    l * KStar.kstar (sep * l) = ⨆ n : ℕ, separated sep (List.replicate (n + 1) l) := by
  rw [Language.kstar_eq_iSup_pow, Language.mul_iSup]
  refine iSup_congr fun n => ?_
  induction n with
  | zero => simp [separated]
  | succ n ih =>
    rw [List.replicate_succ, separated_cons sep l (by simp), ← ih, pow_succ']
    simp only [mul_assoc]

theorem separated_append_kstar (sep l : Language Char) (n : ℕ) :
    separated sep (List.replicate (n + 1) l) * KStar.kstar (sep * l) =
      ⨆ k : ℕ, separated sep (List.replicate (n + 1 + k) l) := by
  induction n with
  | zero =>
    rw [List.replicate_succ, List.replicate_zero, separated, mul_kstar_eq_separated]
    simp only [Nat.add_comm]
  | succ n ih =>
    have hsplit : ∀ k : ℕ, separated sep (List.replicate (n + 1 + 1 + k) l) =
        l * sep * separated sep (List.replicate (n + 1 + k) l) := by
      intro k
      rw [show n + 1 + 1 + k = (n + 1 + k) + 1 by omega, List.replicate_succ,
        separated_cons sep l (by simp)]
    rw [List.replicate_succ, separated_cons sep l (by simp), mul_assoc, ih, Language.mul_iSup]
    exact iSup_congr fun k => (hsplit k).symm

/-- The texts of a separated sequence, one by one. -/
theorem mem_separated_exactly {sep w : List Char} {ls : List (Language Char)} :
    w ∈ separated (exactly sep) ls ↔
      ∃ texts, List.Forall₂ (fun text l => text ∈ l) texts ls ∧ w = List.intercalate sep texts := by
  induction ls generalizing w with
  | nil =>
    constructor
    · rintro rfl
      exact ⟨[], .nil, rfl⟩
    · rintro ⟨_, ⟨⟩, rfl⟩
      rfl
  | cons l ls ih =>
    by_cases hne : ls = []
    · subst hne
      constructor
      · intro hw
        exact ⟨[w], .cons hw .nil, by simp [List.intercalate]⟩
      · rintro ⟨texts, htexts, rfl⟩
        cases htexts with
        | cons htext hrest =>
          cases hrest
          simpa [List.intercalate, separated] using htext
    · rw [separated_cons _ l hne, Language.mem_mul]
      constructor
      · rintro ⟨u, hu, v, hv, rfl⟩
        obtain ⟨text, htext, s, rfl, rfl⟩ := Language.mem_mul.mp hu
        obtain ⟨texts, htexts, rfl⟩ := ih.mp hv
        refine ⟨text :: texts, .cons htext htexts, ?_⟩
        cases htexts with
        | nil => exact absurd rfl hne
        | cons => simp [List.intercalate, List.intersperse]
      · rintro ⟨texts, htexts, rfl⟩
        cases htexts with
        | @cons text _ rest _ htext hrest =>
          have hmem := ih.mpr ⟨rest, hrest, rfl⟩
          refine ⟨text ++ sep, Language.append_mem_mul htext rfl, _, hmem, ?_⟩
          cases hrest with
          | nil => exact absurd rfl hne
          | cons => simp [List.intercalate, List.intersperse]

end Zllm.Texts
