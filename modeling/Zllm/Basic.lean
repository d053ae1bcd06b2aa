import Mathlib.Order.WithBot
import Mathlib.Tactic

/-!
# Tokens and logits
-/

namespace Zllm

/-- A vocabulary id. -/
abbrev Token := Nat

/-- A logit: a finite float, which is a rational, or `f32::NEG_INFINITY`. -/
abbrev Logit := WithBot ℚ

end Zllm
