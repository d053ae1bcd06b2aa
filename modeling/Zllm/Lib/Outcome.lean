import Mathlib.Data.List.Forall2

/-!
# Outcomes of fallible calls

Taking a successful `Except` computation apart, and computations that cannot end in one particular
error.
-/

namespace Zllm.Outcome

variable {ε α β : Type}

theorem bind_eq_ok {x : Except ε α} {f : α → Except ε β} {b : β} :
    x >>= f = .ok b ↔ ∃ a, x = .ok a ∧ f a = .ok b := by
  cases x with
  | error e => simp [bind, Except.bind]
  | ok a => simp [bind, Except.bind]

/-- A computation that succeeds and goes on to succeed. -/
theorem bind_succeeds {x : Except ε α} {f : α → Except ε β} {a : α} (hx : x = .ok a)
    (hf : ∃ b, f a = .ok b) : ∃ b, x >>= f = .ok b := by
  obtain ⟨b, hb⟩ := hf
  exact ⟨b, bind_eq_ok.mpr ⟨a, hx, hb⟩⟩

@[simp]
theorem pure_eq_ok {a b : α} : (pure a : Except ε α) = .ok b ↔ a = b := by
  simp [pure, Except.pure]

theorem bind_eq_error {x : Except ε α} {f : α → Except ε β} {e : ε} :
    x >>= f = .error e ↔ x = .error e ∨ ∃ a, x = .ok a ∧ f a = .error e := by
  cases x with
  | error e' => simp [bind, Except.bind]
  | ok a => simp [bind, Except.bind]

@[simp]
theorem pure_ne_error {a : α} {e : ε} : (pure a : Except ε α) ≠ .error e := by
  simp [pure, Except.pure]

theorem mapM_eq_ok {f : α → Except ε β} {xs : List α} {ys : List β} :
    xs.mapM f = .ok ys ↔ List.Forall₂ (fun x y => f x = .ok y) xs ys := by
  induction xs generalizing ys with
  | nil => simp [pure, Except.pure, eq_comm]
  | cons x xs ih =>
    rw [List.mapM_cons, bind_eq_ok]
    constructor
    · rintro ⟨y, hy, hrest⟩
      rw [bind_eq_ok] at hrest
      obtain ⟨rest, hrest, hys⟩ := hrest
      rw [pure_eq_ok] at hys
      subst hys
      exact .cons hy (ih.mp hrest)
    · intro hforall
      cases hforall with
      | cons hy hrest =>
        refine ⟨_, hy, ?_⟩
        rw [bind_eq_ok]
        exact ⟨_, ih.mpr hrest, rfl⟩

theorem exists_ok_of_mem {f : α → Except ε β} {xs : List α} {ys : List β}
    (hys : List.Forall₂ (fun x y => f x = .ok y) xs ys) {x : α} (hx : x ∈ xs) :
    ∃ y, f x = .ok y := by
  induction hys with
  | nil => cases hx
  | cons hy _ ih =>
    rcases List.mem_cons.mp hx with rfl | hx
    · exact ⟨_, hy⟩
    · exact ih hx

/-- Two traversals of one list compare element by element. -/
theorem map_eq_map_iff {β' γ : Type} {f : α → Except ε β} {f' : α → Except ε β'} {v : β → γ}
    {v' : β' → γ} {P : α → Prop} {xs : List α} {ys : List β} {ys' : List β'}
    (hys : List.Forall₂ (fun x y => f x = .ok y) xs ys)
    (hys' : List.Forall₂ (fun x y => f' x = .ok y) xs ys')
    (hP : ∀ x y y', f x = .ok y → f' x = .ok y' → (v y = v' y' ↔ P x)) :
    ys.map v = ys'.map v' ↔ ∀ x ∈ xs, P x := by
  induction hys generalizing ys' with
  | nil => cases hys'; simp
  | @cons x y xs ys hy hrest ih =>
    cases hys' with
    | cons hy' hrest' =>
      rw [List.map_cons, List.map_cons, List.cons.injEq, ih hrest', List.forall_mem_cons,
        hP x y _ hy hy']

/-- `x` may succeed or fail, but not with `e`. -/
def Avoids (e : ε) (x : Except ε α) : Prop := x ≠ .error e

theorem avoids_ok (e : ε) (a : α) : Avoids e (.ok a) := by
  simp [Avoids]

theorem avoids_pure (e : ε) (a : α) : Avoids e (pure a) := by
  simp [Avoids, pure, Except.pure]

theorem avoids_error {e e' : ε} (hne : e' ≠ e) : Avoids e (.error e' : Except ε α) := by
  simpa [Avoids] using hne

theorem avoids_bind {e : ε} {x : Except ε α} {f : α → Except ε β} (hx : Avoids e x)
    (hf : ∀ a, x = .ok a → Avoids e (f a)) : Avoids e (x >>= f) := by
  cases x with
  | error e' => simpa [Avoids, bind, Except.bind] using hx
  | ok a => simpa [bind, Except.bind] using hf a rfl

end Zllm.Outcome
