import Mathlib.Logic.Relation

/-!
# Loops that end with a result

A loop whose body either ends it with a result or goes on from a new state. The state it ends in is
the only reached one that does not go on, so that a law of the result is one of all states reached.
-/

namespace Zllm.Loop

inductive Step (σ ρ : Type)
  | done (result : ρ)
  | more (state : σ)

variable {σ ρ : Type} {step : σ → Step σ ρ}

def run (step : σ → Step σ ρ) : (fuel : Nat) → σ → Option ρ
  | 0, _ => none
  | fuel + 1, s =>
      match step s with
      | .done result => some result
      | .more s => run step fuel s

/-- The states in which the body is run. -/
def Reaches (step : σ → Step σ ρ) : σ → σ → Prop :=
  Relation.ReflTransGen fun s s' => step s = .more s'

theorem exists_last {fuel : Nat} {s : σ} {result : ρ} (hrun : run step fuel s = some result) :
    ∃ last, Reaches step s last ∧ step last = .done result := by
  induction fuel generalizing s with
  | zero => cases hrun
  | succ fuel ih =>
    cases hstep : step s with
    | done r =>
      simp only [run, hstep, Option.some.injEq] at hrun
      exact ⟨s, .refl, hrun ▸ hstep⟩
    | more s' =>
      simp only [run, hstep] at hrun
      obtain ⟨last, hreach, hlast⟩ := ih hrun
      exact ⟨last, .head hstep hreach, hlast⟩

/-- Every state reached leads to the last one. -/
theorem Reaches.to_last {s l last : σ} {result : ρ} (hlast : Reaches step s last)
    (hdone : step last = .done result) (hreach : Reaches step s l) : Reaches step l last := by
  induction hlast using Relation.ReflTransGen.head_induction_on with
  | refl =>
    rcases hreach.cases_head with rfl | ⟨s', hstep, -⟩
    · exact .refl
    · cases hdone.symm.trans hstep
  | head hstep hrest ih =>
    rcases hreach.cases_head with rfl | ⟨s', hstep', hreach'⟩
    · exact .head hstep hrest
    · obtain rfl : _ = s' := by simpa [hstep] using hstep'
      exact ih hreach'

/-- A state reached goes on, or is the last one. -/
theorem Reaches.more_or_last {s l last : σ} {result : ρ} (hlast : Reaches step s last)
    (hdone : step last = .done result) (hreach : Reaches step s l) :
    (∃ l', step l = .more l') ∨ l = last := by
  rcases (hlast.to_last hdone hreach).cases_head with rfl | ⟨l', hstep, -⟩
  · exact .inr rfl
  · exact .inl ⟨l', hstep⟩

/-- A result has a property where the state that it comes from does, if all that go on do. -/
theorem run_iff {fuel : Nat} {s : σ} {result : ρ} {P : ρ → Prop} {ok : σ → Prop}
    (hrun : run step fuel s = some result) (hmore : ∀ l l', step l = .more l' → ok l)
    (hdone : ∀ l, step l = .done result → (P result ↔ ok l)) :
    P result ↔ ∀ l, Reaches step s l → ok l := by
  obtain ⟨last, hlast, hresult⟩ := exists_last hrun
  rw [hdone last hresult]
  constructor
  · intro hok l hreach
    rcases hlast.more_or_last hresult hreach with ⟨l', hl⟩ | rfl
    · exact hmore l l' hl
    · exact hok
  · exact fun hall => hall last hlast

/-- Two loops whose bodies keep a relation, and end together, end in related results. -/
theorem run_related {τ ρ' : Type} {step' : τ → Step τ ρ'} {R : σ → τ → Prop} {Q : ρ → ρ' → Prop}
    (hstep : ∀ s t, R s t →
      (∃ a b, step s = .done a ∧ step' t = .done b ∧ Q a b) ∨
        ∃ s' t', step s = .more s' ∧ step' t = .more t' ∧ R s' t')
    (fuel : Nat) {s : σ} {t : τ} (hrel : R s t) :
    Option.Rel Q (run step fuel s) (run step' fuel t) := by
  induction fuel generalizing s t with
  | zero => exact .none
  | succ fuel ih =>
    rcases hstep s t hrel with ⟨a, b, hs, ht, hab⟩ | ⟨s', t', hs, ht, hrel'⟩
    · simp only [run, hs, ht]
      exact .some hab
    · simp only [run, hs, ht]
      exact ih hrel'

/-- A loop that lowers a number ends. -/
theorem exists_run (rank : σ → Nat) (hrank : ∀ s s', step s = .more s' → rank s' < rank s)
    {fuel : Nat} {s : σ} (hfuel : rank s < fuel) : ∃ result, run step fuel s = some result := by
  induction fuel generalizing s with
  | zero => cases hfuel
  | succ fuel ih =>
    cases hstep : step s with
    | done result => exact ⟨result, by simp only [run, hstep]⟩
    | more s' =>
      have hlower := hrank s s' hstep
      obtain ⟨result, hrun⟩ := ih (show rank s' < fuel by omega)
      exact ⟨result, by simp only [run, hstep, hrun]⟩

end Zllm.Loop
