import Mathlib.Algebra.BigOperators.Group.Finset.Sigma
import Mathlib.Algebra.Order.Floor.Div
import Mathlib.Tactic

/-!
# Dispatches

The stores of a dispatch land in any order. Where they are the values of some cells, each at an
address of its own, the buffer holds each cell's value afterwards and is as before elsewhere. The
threads of a workgroup split a loop by the residues of its counter, and a reduction in halves over
their results is the sum of them all.
-/

namespace Zllm.Workgroup

variable {α ι : Type}

/-- The buffer after some stores, one after the other. -/
def perform (stores : List (ℕ × α)) (b : ℕ → α) : ℕ → α :=
  stores.foldl (fun b store => Function.update b store.1 store.2) b

/-- `b'` is what the stores leave of `b`, in some order. -/
def Leaves (stores : List (ℕ × α)) (b b' : ℕ → α) : Prop :=
  ∃ order, order.Perm stores ∧ b' = perform order b

/-- The stores of a grid of `gx` by `gy` workgroups. -/
def grid (gx gy : ℕ) (kernel : ℕ → ℕ → List (ℕ × α)) : List (ℕ × α) :=
  (List.range gy).flatMap fun y => (List.range gx).flatMap fun x => kernel x y

/-- The stores of `groups` groups of `w` threads in a line. -/
def line (w groups : ℕ) (kernel : ℕ → List (ℕ × α)) : List (ℕ × α) :=
  (List.range (groups * w)).flatMap kernel

/-- The stores are the cells' values, each at an address of its own. -/
structure Covers (stores : List (ℕ × α)) (cells : Set ι) (addr : ι → ℕ) (val : ι → α) : Prop where
  mem_iff : ∀ store, store ∈ stores ↔ ∃ i ∈ cells, (addr i, val i) = store
  injOn : Set.InjOn addr cells

theorem leaves_perform (stores : List (ℕ × α)) (b : ℕ → α) : Leaves stores b (perform stores b) :=
  ⟨stores, List.Perm.refl _, rfl⟩

theorem mem_grid {gx gy : ℕ} {kernel : ℕ → ℕ → List (ℕ × α)} {store : ℕ × α} :
    store ∈ grid gx gy kernel ↔ ∃ x < gx, ∃ y < gy, store ∈ kernel x y := by
  simp only [grid, List.mem_flatMap, List.mem_range]
  constructor
  · rintro ⟨y, hy, x, hx, hstore⟩
    exact ⟨x, hx, y, hy, hstore⟩
  · rintro ⟨x, hx, y, hy, hstore⟩
    exact ⟨y, hy, x, hx, hstore⟩

theorem mem_line {w groups : ℕ} {kernel : ℕ → List (ℕ × α)} {store : ℕ × α} :
    store ∈ line w groups kernel ↔ ∃ idx < groups * w, store ∈ kernel idx := by
  simp only [line, List.mem_flatMap, List.mem_range]

/-- An address is as before, or holds one of the values stored to it. -/
theorem perform_spec (stores : List (ℕ × α)) (b : ℕ → α) (a : ℕ) :
    (perform stores b a = b a ∧ ∀ v, (a, v) ∉ stores) ∨ (a, perform stores b a) ∈ stores := by
  induction stores using List.reverseRecOn with
  | nil => exact .inl ⟨rfl, by simp⟩
  | append_singleton stores last ih =>
    have hlast : perform (stores ++ [last]) b =
        Function.update (perform stores b) last.1 last.2 := by
      simp [perform, List.foldl_append]
    rw [hlast]
    by_cases ha : a = last.1
    · right
      rw [ha, Function.update_self]
      simp
    · rw [Function.update_of_ne ha]
      rcases ih with ⟨hsame, hnone⟩ | hmem
      · refine .inl ⟨hsame, fun v hv => ?_⟩
        rcases List.mem_append.mp hv with hv | hv
        · exact hnone v hv
        · exact ha (congrArg Prod.fst (List.mem_singleton.mp hv))
      · exact .inr (List.mem_append_left _ hmem)

namespace Covers

variable {stores : List (ℕ × α)} {cells : Set ι} {addr : ι → ℕ} {val : ι → α} {b b' : ℕ → α}

theorem apply (hcovers : Covers stores cells addr val) (hleaves : Leaves stores b b') {i : ι}
    (hi : i ∈ cells) : b' (addr i) = val i := by
  obtain ⟨order, hperm, rfl⟩ := hleaves
  have hmem : (addr i, val i) ∈ order := hperm.mem_iff.mpr ((hcovers.mem_iff _).mpr ⟨i, hi, rfl⟩)
  rcases perform_spec order b (addr i) with ⟨-, hnone⟩ | hlast
  · exact absurd hmem (hnone _)
  · obtain ⟨j, hj, hstore⟩ := (hcovers.mem_iff _).mp (hperm.mem_iff.mp hlast)
    obtain ⟨haddr, hval⟩ := Prod.mk.inj hstore
    rw [← hval, hcovers.injOn hj hi haddr]

theorem apply_of_ne (hcovers : Covers stores cells addr val) (hleaves : Leaves stores b b') {a : ℕ}
    (ha : ∀ i ∈ cells, addr i ≠ a) : b' a = b a := by
  obtain ⟨order, hperm, rfl⟩ := hleaves
  rcases perform_spec order b a with ⟨hsame, -⟩ | hlast
  · exact hsame
  · obtain ⟨j, hj, hstore⟩ := (hcovers.mem_iff _).mp (hperm.mem_iff.mp hlast)
    exact absurd (congrArg Prod.fst hstore) (ha j hj)

/-- The stores of one part of the values. -/
theorem map {β : Type} (hcovers : Covers stores cells addr val) (f : α → β) :
    Covers (stores.map fun store => (store.1, f store.2)) cells addr fun i => f (val i) where
  mem_iff store := by
    rw [List.mem_map]
    constructor
    · rintro ⟨whole, hwhole, rfl⟩
      obtain ⟨i, hi, rfl⟩ := (hcovers.mem_iff whole).mp hwhole
      exact ⟨i, hi, rfl⟩
    · rintro ⟨i, hi, rfl⟩
      exact ⟨_, (hcovers.mem_iff _).mpr ⟨i, hi, rfl⟩, rfl⟩
  injOn := hcovers.injOn

end Covers

/-- One store for each cell of a list. -/
theorem covers_of_perm {cells : List ι} {stores : List (ℕ × α)} {addr : ι → ℕ} {val : ι → α}
    (hperm : stores.Perm (cells.map fun i => (addr i, val i)))
    (hinj : Set.InjOn addr {i | i ∈ cells}) : Covers stores {i | i ∈ cells} addr val where
  mem_iff store := by
    rw [hperm.mem_iff, List.mem_map]
    rfl
  injOn := hinj

theorem le_ceilDiv_mul {w : ℕ} (hw : 0 < w) (n : ℕ) : n ≤ n ⌈/⌉ w * w := by
  rw [mul_comm]
  exact (ceilDiv_le_iff_le_mul hw).mp le_rfl

/-- Threads in a line, as many as there are values and the rest of the last group. -/
theorem covers_line {w n : ℕ} (hw : 0 < w) {addr : ℕ → ℕ} {val : ℕ → α}
    (hinj : Set.InjOn addr {i | i < n}) :
    Covers (line w (n ⌈/⌉ w) fun i => if i < n then [(addr i, val i)] else []) {i | i < n} addr
      val where
  mem_iff store := by
    rw [mem_line]
    constructor
    · rintro ⟨i, -, hmem⟩
      split_ifs at hmem with hi
      · exact ⟨i, hi, (List.mem_singleton.mp hmem).symm⟩
      · exact absurd hmem List.not_mem_nil
    · rintro ⟨i, hi, hstore⟩
      have hi : i < n := hi
      refine ⟨i, hi.trans_le (le_ceilDiv_mul hw n), ?_⟩
      rw [if_pos hi, hstore]
      exact List.mem_singleton_self _
  injOn := hinj

/-! ### A workgroup for each row -/

theorem flatMap_rows {β : Type} (w n : ℕ) (f : ℕ → List β) :
    (List.range (n * w)).flatMap f =
      (List.range n).flatMap fun r => (List.range w).flatMap fun j => f (r * w + j) := by
  induction n with
  | zero => simp
  | succ n ih =>
    rw [add_mul, one_mul, List.range_add, List.flatMap_append, ih, List.range_succ,
      List.flatMap_append, List.flatMap_map]
    simp

/-- The workgroups of a grid, by their number in it. -/
theorem grid_eq_range (gx gy : ℕ) (rows : ℕ → List (ℕ × α)) :
    grid gx gy (fun x y => rows (x + y * gx)) = (List.range (gy * gx)).flatMap rows := by
  rw [flatMap_rows, grid]
  simp only [add_comm]

/-- Past the last row nothing is stored. -/
theorem flatMap_guarded {β : Type} {n total : ℕ} (henough : n ≤ total) (rows : ℕ → List β) :
    (List.range total).flatMap (fun row => if n ≤ row then [] else rows row) =
      (List.range n).flatMap rows := by
  obtain ⟨extra, rfl⟩ := Nat.exists_eq_add_of_le henough
  rw [List.range_add, List.flatMap_append, List.flatMap_map]
  have hin : (List.range n).flatMap (fun row => if n ≤ row then [] else rows row) =
      (List.range n).flatMap rows := by
    refine List.flatMap_congr fun row hmem => ?_
    rw [if_neg (not_le.mpr (List.mem_range.mp hmem))]
  have hout : (List.range extra).flatMap
      (fun i => if n ≤ n + i then [] else rows (n + i)) = [] := by
    rw [List.flatMap_eq_nil_iff]
    intro i _
    rw [if_pos (Nat.le_add_right n i)]
  rw [hin, hout, List.append_nil]

/-- A grid with enough workgroups for `n` rows, where those past the last row store nothing. -/
theorem grid_of_rows {gx n : ℕ} (hgx : 0 < n → 0 < gx) {kernel : ℕ → ℕ → List (ℕ × α)}
    {rows : ℕ → List (ℕ × α)} (hrow : ∀ x y, x + y * gx < n → kernel x y = rows (x + y * gx))
    (hpast : ∀ x y, n ≤ x + y * gx → kernel x y = []) :
    grid gx (n ⌈/⌉ gx) kernel = (List.range n).flatMap rows := by
  have hkernel : kernel = fun x y => if n ≤ x + y * gx then [] else rows (x + y * gx) := by
    funext x y
    split_ifs with hle
    · exact hpast x y hle
    · exact hrow x y (not_le.mp hle)
  have henough : n ≤ n ⌈/⌉ gx * gx := by
    rcases Nat.eq_zero_or_pos n with rfl | hn
    · exact Nat.zero_le _
    · exact le_ceilDiv_mul (hgx hn) n
  rw [hkernel, grid_eq_range gx _ fun row => if n ≤ row then [] else rows row,
    flatMap_guarded henough]

/-! ### Loops split over threads -/

/-- The counter of `for (i = t; i < n; i += w)`. -/
def strided (w n t : ℕ) : List ℕ := List.range' t ((n - t) ⌈/⌉ w) w

theorem mem_strided {w n t i : ℕ} (hw : 0 < w) :
    i ∈ strided w n t ↔ ∃ k, i = t + w * k ∧ i < n := by
  rw [strided, List.mem_range']
  refine exists_congr fun k => ?_
  rw [and_comm]
  refine and_congr_right fun hi => ?_
  rw [← not_le, ceilDiv_le_iff_le_mul hw, not_le, hi]
  omega

theorem mem_strided_of_lt {w n t i : ℕ} (ht : t < w) :
    i ∈ strided w n t ↔ i < n ∧ i % w = t := by
  rw [mem_strided (by omega)]
  constructor
  · rintro ⟨k, rfl, hn⟩
    exact ⟨hn, by rw [Nat.add_mul_mod_self_left, Nat.mod_eq_of_lt ht]⟩
  · rintro ⟨hn, rfl⟩
    exact ⟨i / w, (Nat.mod_add_div i w).symm, hn⟩

theorem getElem?_strided {w n t : ℕ} (hw : 0 < w) (k : ℕ) :
    (strided w n t)[k]? = if t + w * k < n then some (t + w * k) else none := by
  have hlength : k < (n - t) ⌈/⌉ w ↔ t + w * k < n := by
    rw [← not_le, ceilDiv_le_iff_le_mul hw]
    omega
  rw [strided]
  split_ifs with hk
  · rw [List.getElem?_range' (hlength.mpr hk)]
  · rw [List.getElem?_eq_none]
    rw [List.length_range']
    exact not_lt.mp (mt hlength.mp hk)

/-- The threads' shares are all the counters, each once. -/
theorem perm_strided {w : ℕ} (hw : 0 < w) (n : ℕ) :
    ((List.range w).flatMap (strided w n)).Perm (List.range n) := by
  have hnodup : ((List.range w).flatMap (strided w n)).Nodup := by
    rw [List.nodup_flatMap]
    refine ⟨fun t _ => List.nodup_range' w hw, ?_⟩
    refine List.Nodup.pairwise_of_forall_ne List.nodup_range fun t ht t' ht' hne => ?_
    rw [Function.onFun, List.disjoint_left]
    intro i hi hi'
    rw [mem_strided_of_lt (List.mem_range.mp ht)] at hi
    rw [mem_strided_of_lt (List.mem_range.mp ht')] at hi'
    exact hne (hi.2.symm.trans hi'.2)
  rw [List.perm_ext_iff_of_nodup hnodup List.nodup_range]
  intro i
  rw [List.mem_flatMap, List.mem_range]
  constructor
  · rintro ⟨t, ht, hi⟩
    exact ((mem_strided_of_lt (List.mem_range.mp ht)).mp hi).1
  · intro hi
    have hlt := Nat.mod_lt i hw
    exact ⟨i % w, List.mem_range.mpr hlt, (mem_strided_of_lt hlt).mpr ⟨hi, rfl⟩⟩

/-- What is stored for each counter, thread after thread. -/
theorem perm_flatMap_strided {β : Type} {w : ℕ} (hw : 0 < w) (n : ℕ) (f : ℕ → List β) :
    ((List.range w).flatMap fun t => (strided w n t).flatMap f).Perm
      ((List.range n).flatMap f) := by
  rw [← List.flatMap_assoc]
  exact (perm_strided hw n).flatMap_right f

variable [AddCommMonoid α]

/-- Every counter is in one thread's share. -/
theorem sum_strided {w : ℕ} (hw : 0 < w) (n : ℕ) (f : ℕ → α) :
    ∑ t ∈ Finset.range w, ((strided w n t).map f).sum = ∑ i ∈ Finset.range n, f i := by
  have hmaps : ∀ i ∈ Finset.range n, i % w ∈ Finset.range w := fun i _ =>
    Finset.mem_range.mpr (Nat.mod_lt i hw)
  rw [← Finset.sum_fiberwise_of_maps_to hmaps]
  refine Finset.sum_congr rfl fun t ht => ?_
  have hnodup : (strided w n t).Nodup := List.nodup_range' w hw
  rw [← List.sum_toFinset f hnodup]
  congr 1
  ext i
  rw [List.mem_toFinset, mem_strided_of_lt (Finset.mem_range.mp ht), Finset.mem_filter,
    Finset.mem_range]

theorem sum_rows (w n : ℕ) (f : ℕ → α) :
    ∑ i ∈ Finset.range (n * w), f i =
      ∑ r ∈ Finset.range n, ∑ j ∈ Finset.range w, f (r * w + j) := by
  induction n with
  | zero => simp
  | succ n ih => rw [Finset.sum_range_succ, ← ih, add_mul, one_mul, Finset.sum_range_add]

/-- A loop over dimensions that are dealt to `w` threads, as many to each, some past the end. -/
theorem sum_dealt {w n hd : ℕ} (hwidth : hd ≤ n * w) (f : ℕ → α) :
    ∑ lane ∈ Finset.range w, ∑ i ∈ Finset.range n,
      (if lane + i * w < hd then f (lane + i * w) else 0) = ∑ d ∈ Finset.range hd, f d := by
  rw [Finset.sum_comm]
  have hrows := sum_rows w n fun d => if d < hd then f d else 0
  simp only [add_comm (_ * w)] at hrows
  rw [← hrows, ← Finset.sum_filter]
  congr 1
  ext d
  rw [Finset.mem_filter, Finset.mem_range, Finset.mem_range]
  omega

/-- Rows of `c` times `w`, by the columns of `w` that a thread has one of in each of `c` parts. -/
theorem sum_interleaved (n c w : ℕ) (f : ℕ → α) :
    ∑ i ∈ Finset.range (n * (c * w)), f i =
      ∑ t ∈ Finset.range (n * w), ∑ j ∈ Finset.range c, f (t / w * (c * w) + j * w + t % w) := by
  rw [sum_rows (c * w) n, sum_rows w n]
  refine Finset.sum_congr rfl fun r _ => ?_
  rw [sum_rows w c, Finset.sum_comm]
  refine Finset.sum_congr rfl fun l hl => Finset.sum_congr rfl fun j _ => ?_
  have hl : l < w := Finset.mem_range.mp hl
  have hdiv : (r * w + l) / w = r := by
    rw [mul_comm, Nat.mul_add_div (by omega), Nat.div_eq_of_lt hl, add_zero]
  have hmod : (r * w + l) % w = l := by
    rw [Nat.mul_add_mod_self_right, Nat.mod_eq_of_lt hl]
  rw [hdiv, hmod, add_assoc]

/-! ### Reduction in halves -/

/-- One round: a thread below the stride takes in the one that is a stride above it. -/
def halve (op : α → α → α) (stride : ℕ) (red : ℕ → α) (t : ℕ) : α :=
  if t < stride then op (red t) (red (t + stride)) else red t

/-- `for (st = 2 ^ (b - 1); st > 0; st >>= 1)` over shared memory, and what thread 0 then has. -/
def reduce (op : α → α → α) : ℕ → (ℕ → α) → α
  | 0, red => red 0
  | b + 1, red => reduce op b (halve op (2 ^ b) red)

theorem reduce_add (b : ℕ) (red : ℕ → α) :
    reduce (· + ·) b red = ∑ t ∈ Finset.range (2 ^ b), red t := by
  induction b generalizing red with
  | zero => simp [reduce]
  | succ b ih =>
    rw [reduce, ih, pow_succ, mul_two, Finset.sum_range_add, ← Finset.sum_add_distrib]
    refine Finset.sum_congr rfl fun t ht => ?_
    rw [halve, if_pos (Finset.mem_range.mp ht), add_comm t]

/-- A loop split over a workgroup's threads, and their sums reduced. -/
theorem reduce_strided (b n : ℕ) (f : ℕ → α) :
    reduce (· + ·) b (fun t => ((strided (2 ^ b) n t).map f).sum) = ∑ i ∈ Finset.range n, f i := by
  rw [reduce_add, sum_strided (by positivity)]

end Zllm.Workgroup
