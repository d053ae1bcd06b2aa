import Mathlib.Algebra.BigOperators.Group.Finset.Basic
import Mathlib.Tactic

/-!
# Rows in a flat buffer

A buffer of numbers read as rows of a fixed width. A row is kept as a function that is zero past the
width, so that equal rows are equal functions.
-/

namespace Zllm.Tile

variable {α : Type} [Zero α]

/-- `f` as far as the width. -/
def cut (w : ℕ) (f : ℕ → α) : ℕ → α := fun j => if j < w then f j else 0

/-- Row `i` of a buffer of `w`-wide rows. -/
def row (w : ℕ) (b : ℕ → α) (i : ℕ) : ℕ → α := cut w fun j => b (i * w + j)

/-- The buffer with rows `pos .. pos + m` written, row `pos + r` from `f r`. -/
def writeRows (w pos m : ℕ) (f : ℕ → ℕ → α) (b : ℕ → α) : ℕ → α := fun i =>
  if pos * w ≤ i ∧ i < (pos + m) * w then f (i / w - pos) (i % w) else b i

/-- The buffer with `len` elements from `base` on written. -/
def writeAt (base len : ℕ) (f : ℕ → α) (b : ℕ → α) : ℕ → α := fun i =>
  if base ≤ i ∧ i < base + len then f (i - base) else b i

theorem cut_apply {w j : ℕ} {f : ℕ → α} (hj : j < w) : cut w f j = f j := if_pos hj

theorem row_apply {w j : ℕ} {b : ℕ → α} {i : ℕ} (hj : j < w) : row w b i j = b (i * w + j) :=
  if_pos hj

theorem cut_congr {w : ℕ} {f g : ℕ → α} (hfg : ∀ j < w, f j = g j) : cut w f = cut w g := by
  funext j
  unfold cut
  split_ifs with hj
  · exact hfg j hj
  · rfl

@[simp]
theorem cut_cut (w : ℕ) (f : ℕ → α) : cut w (cut w f) = cut w f :=
  cut_congr fun _ hj => cut_apply hj

@[simp]
theorem cut_row (w : ℕ) (b : ℕ → α) (i : ℕ) : cut w (row w b i) = row w b i := cut_cut w _

@[simp]
theorem row_zero (w : ℕ) (b : ℕ → α) : row w b 0 = cut w b :=
  cut_congr fun j _ => by rw [zero_mul, zero_add]

omit [Zero α] in
theorem writeAt_zero_apply {n j : ℕ} {f b : ℕ → α} (hj : j < n) : writeAt 0 n f b j = f j :=
  if_pos ⟨Nat.zero_le j, by omega⟩

omit [Zero α] in
theorem writeAt_congr {base len : ℕ} {f f' b : ℕ → α} (hf : ∀ i < len, f i = f' i) :
    writeAt base len f b = writeAt base len f' b := by
  funext i
  unfold writeAt
  split_ifs with hi
  · exact hf (i - base) (by omega)
  · rfl

theorem cut_writeAt (n : ℕ) (f b : ℕ → α) : cut n (writeAt 0 n f b) = cut n f :=
  cut_congr fun _ hj => writeAt_zero_apply hj

/-- Rows are equal where the buffers are. -/
theorem row_congr {w : ℕ} {b b' : ℕ → α} {i i' : ℕ}
    (hb : ∀ j < w, b (i * w + j) = b' (i' * w + j)) : row w b i = row w b' i' :=
  cut_congr hb

theorem index_div {w i j : ℕ} (hj : j < w) : (i * w + j) / w = i := by
  rw [mul_comm, Nat.mul_add_div (by omega), Nat.div_eq_of_lt hj, add_zero]

theorem index_mod {w i j : ℕ} (hj : j < w) : (i * w + j) % w = j := by
  rw [mul_comm, Nat.mul_add_mod, Nat.mod_eq_of_lt hj]

theorem index_lt {w n i j : ℕ} (hi : i < n) (hj : j < w) : i * w + j < n * w := by
  have hle : (i + 1) * w ≤ n * w := Nat.mul_le_mul_right w hi
  rw [add_mul, one_mul] at hle
  omega

theorem row_mem_iff {w pos m i j : ℕ} (hj : j < w) :
    (pos * w ≤ i * w + j ∧ i * w + j < (pos + m) * w) ↔ pos ≤ i ∧ i < pos + m := by
  have hlow : pos * w ≤ i * w + j ↔ pos ≤ i := by
    constructor
    · intro h
      by_contra hlt
      have : (i + 1) * w ≤ pos * w := Nat.mul_le_mul_right w (by omega)
      rw [add_mul, one_mul] at this
      omega
    · intro h
      exact (Nat.mul_le_mul_right w h).trans (Nat.le_add_right _ _)
  have hhigh : i * w + j < (pos + m) * w ↔ i < pos + m := by
    constructor
    · intro h
      exact lt_of_mul_lt_mul_right ((Nat.le_add_right _ j).trans_lt h) (Nat.zero_le w)
    · intro h
      have : (i + 1) * w ≤ (pos + m) * w := Nat.mul_le_mul_right w h
      rw [add_mul, one_mul] at this
      omega
  rw [hlow, hhigh]

/-- A write of whole rows is a write of those rows. -/
theorem row_writeRows (w pos m : ℕ) (f : ℕ → ℕ → α) (b : ℕ → α) (i : ℕ) :
    row w (writeRows w pos m f b) i =
      if pos ≤ i ∧ i < pos + m then cut w (f (i - pos)) else row w b i := by
  funext j
  by_cases hj : j < w
  · rw [row_apply hj, writeRows]
    simp only [row_mem_iff hj]
    split_ifs with hi
    · rw [cut_apply hj, index_div hj, index_mod hj]
    · rw [row_apply hj]
  · split_ifs <;> simp [row, cut, hj]

omit [Zero α] in
theorem writeRows_zero_apply {w m r j : ℕ} {f : ℕ → ℕ → α} {b : ℕ → α} (hr : r < m) (hj : j < w) :
    writeRows w 0 m f b (r * w + j) = f r j := by
  have hmem : 0 * w ≤ r * w + j ∧ r * w + j < (0 + m) * w := (row_mem_iff hj).mpr (by omega)
  rw [writeRows, if_pos hmem, index_div hj, index_mod hj, Nat.sub_zero]

theorem row_writeAt (w pos : ℕ) (f b : ℕ → α) (i : ℕ) :
    row w (writeAt (pos * w) w f b) i = if i = pos then cut w f else row w b i := by
  have hwrite : writeAt (pos * w) w f b = writeRows w pos 1 (fun _ => f) b := by
    funext j
    rw [writeAt, writeRows, add_mul, one_mul]
    split_ifs with hj
    · have hpos : j / w = pos := by
        rw [Nat.div_eq_iff (by omega)]
        constructor
        · exact hj.1
        · have := hj.2
          omega
      congr 1
      rw [← hpos, Nat.mod_eq_sub_div_mul]
    · rfl
  rw [hwrite, row_writeRows]
  congr 1
  exact propext (by omega)

theorem row_copy (w m : ℕ) (f b : ℕ → α) (i : ℕ) :
    row w (writeAt 0 (m * w) f b) i = if i < m then row w f i else row w b i := by
  refine (row_congr fun j hj => ?_).trans ((row_writeRows w 0 m (fun r j => f (r * w + j)) b i).trans ?_)
  · rw [writeAt, writeRows]
    simp only [zero_mul, zero_add, Nat.sub_zero, zero_le, true_and]
    rw [Nat.div_add_mod']
  · simp only [zero_le, true_and, zero_add, Nat.sub_zero]
    rfl

end Zllm.Tile
