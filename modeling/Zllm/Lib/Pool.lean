import Mathlib

/-!
# Pools

A pool serves a request as long as all that has been taken stays within its capacity. It serves a
sequence of requests exactly if their total does.
-/

namespace Zllm.Pool

variable {M : Type*} [AddCommMonoid M] [PartialOrder M] [DecidableLE M] (capacity : M)

def take (used request : M) : Option M :=
  if used + request ≤ capacity then some (used + request) else none

/-- The requests one after the other, and what has been taken in the end. -/
def serve (used : M) (requests : List M) : Option M := requests.foldlM (take capacity) used

variable {capacity} [CanonicallyOrderedAdd M]

theorem serve_eq {used : M} (hused : used ≤ capacity) (requests : List M) :
    serve capacity used requests =
      if used + requests.sum ≤ capacity then some (used + requests.sum) else none := by
  induction requests generalizing used with
  | nil => rw [List.sum_nil, add_zero, if_pos hused]; rfl
  | cons request requests ih =>
    rw [serve, List.foldlM_cons, take, List.sum_cons, ← add_assoc]
    by_cases htake : used + request ≤ capacity
    · rw [if_pos htake]
      exact ih htake
    · have hmore : ¬ used + request + requests.sum ≤ capacity :=
        fun hle => htake (le_self_add.trans hle)
      rw [if_neg htake, if_neg hmore]
      rfl

theorem serve_isSome_iff (requests : List M) :
    (serve capacity 0 requests).isSome ↔ requests.sum ≤ capacity := by
  have hzero : (0 : M) ≤ capacity := zero_le
  rw [serve_eq hzero, zero_add]
  split_ifs with hle <;> simp [hle]

end Zllm.Pool
