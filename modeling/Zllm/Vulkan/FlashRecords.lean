import Zllm.Vulkan.FlashKernels

/-!
# What the attention shaders store

The records a dispatch of partials leaves in its buffer, the rows a dispatch of outputs leaves, and
what a merge reads back.
-/

namespace Zllm.Vulkan.FlashDecode

open Finset Workgroup Tile
open Gpu (Buf)
open Softmax (Partial)

variable {p : Heads} {r : Partial} {store : ℕ × ℝ} {base : ℕ}

/-! ### Dimensions dealt to lanes -/

theorem hd_le_dpl (p : Heads) : p.hd ≤ p.dpl * 32 := by
  rw [Heads.dpl]
  omega

theorem mem_wave {stores : ℕ → List (ℕ × ℝ)} :
    store ∈ wave stores ↔ ∃ lane < 32, store ∈ stores lane := by
  simp only [wave, List.mem_flatMap, List.mem_range]

theorem mem_owned {lane i : ℕ} : i ∈ p.owned lane ↔ lane + i * 32 < p.hd := by
  have hdpl := hd_le_dpl p
  rw [Heads.owned, List.mem_filter, List.mem_range, decide_eq_true_eq]
  omega

/-- Every dimension is some lane's. -/
theorem exists_owned {P : ℕ → Prop} :
    (∃ lane < 32, ∃ i ∈ p.owned lane, P (lane + i * 32)) ↔ ∃ d < p.hd, P d := by
  simp only [mem_owned]
  constructor
  · rintro ⟨lane, -, i, hd, hP⟩
    exact ⟨_, hd, hP⟩
  · rintro ⟨d, hd, hP⟩
    have hsplit : d % 32 + d / 32 * 32 = d := by omega
    exact ⟨d % 32, Nat.mod_lt d (by decide), d / 32, by rwa [hsplit], by rwa [hsplit]⟩

/-! ### Records -/

/-- The stores of one record. -/
def IsRecord (p : Heads) (base : ℕ) (r : Partial) (stores : List (ℕ × ℝ)) : Prop :=
  ∀ store, store ∈ stores ↔ ∃ j < p.hd + 2, (base + j, storePartial p.hd r j) = store

/-- A record's elements are its dimensions and the two numbers after them. -/
theorem exists_element {P : ℕ → ℝ → Prop} :
    (∃ j < p.hd + 2, P j (storePartial p.hd r j)) ↔
      (∃ d < p.hd, P d (r.av d)) ∨ P p.hd r.mx ∨ P (p.hd + 1) r.l := by
  have hav {d : ℕ} (hd : d < p.hd) : storePartial p.hd r d = r.av d := if_pos hd
  have hmx : storePartial p.hd r p.hd = r.mx := by simp [storePartial]
  have hl : storePartial p.hd r (p.hd + 1) = r.l := by simp [storePartial]
  constructor
  · rintro ⟨j, hj, hP⟩
    rcases lt_trichotomy j p.hd with hlt | rfl | hgt
    · rw [hav hlt] at hP
      exact .inl ⟨j, hlt, hP⟩
    · rw [hmx] at hP
      exact .inr (.inl hP)
    · obtain rfl : j = p.hd + 1 := by omega
      rw [hl] at hP
      exact .inr (.inr hP)
  · rintro (⟨d, hd, hP⟩ | hP | hP)
    · exact ⟨d, by omega, by rwa [hav hd]⟩
    · exact ⟨p.hd, by omega, by rwa [hmx]⟩
    · exact ⟨p.hd + 1, by omega, by rwa [hl]⟩

/-- What lane 0 stores alone. -/
theorem exists_lane_zero {l : List (ℕ × ℝ)} :
    (∃ lane < 32, store ∈ if lane = 0 then l else []) ↔ store ∈ l := by
  constructor
  · rintro ⟨lane, -, hmem⟩
    split_ifs at hmem
    · exact hmem
    · exact absurd hmem List.not_mem_nil
  · intro hmem
    exact ⟨0, by decide, hmem⟩

theorem isRecord_owned {av : ℕ → ℕ → ℝ}
    (hav : ∀ lane < 32, ∀ i ∈ p.owned lane, av lane i = r.av (lane + i * 32)) :
    IsRecord p base r (wave fun lane =>
      (p.owned lane).map (fun i => (base + (lane + i * 32), av lane i)) ++
      if lane = 0 then [(base + p.hd, r.mx), (base + p.hd + 1, r.l)] else []) := by
  intro store
  rw [mem_wave, exists_element (P := fun j v => (base + j, v) = store),
    ← exists_owned (P := fun d => (base + d, r.av d) = store)]
  simp only [List.mem_append, List.mem_map, and_or_left, exists_or]
  refine or_congr ?_ ?_
  · refine exists_congr fun lane => and_congr_right fun hlane => exists_congr fun i => ?_
    refine and_congr_right fun hi => ?_
    rw [hav lane hlane i hi]
  · rw [exists_lane_zero]
    simp [eq_comm, add_assoc]

/-- Two dimensions to a lane are as many as the two-pass shader's heads have. -/
theorem isRecord_twoDims (hwidth : p.hd ≤ 64) :
    IsRecord p base r (wave fun lane =>
      (if lane < p.hd then [(base + lane, r.av lane)] else []) ++
      (if lane + 32 < p.hd then [(base + lane + 32, r.av (lane + 32))] else []) ++
      if lane = 0 then [(base + p.hd, r.mx), (base + p.hd + 1, r.l)] else []) := by
  intro store
  rw [mem_wave, exists_element (P := fun j v => (base + j, v) = store)]
  simp only [List.mem_append, and_or_left, exists_or]
  refine or_congr ?_ ?_
  · constructor
    · rintro (⟨lane, -, hmem⟩ | ⟨lane, -, hmem⟩)
      · split_ifs at hmem with hlane
        · exact ⟨lane, hlane, (List.mem_singleton.mp hmem).symm⟩
        · simp at hmem
      · split_ifs at hmem with hlane
        · exact ⟨lane + 32, hlane, (List.mem_singleton.mp hmem).symm⟩
        · simp at hmem
    · rintro ⟨d, hd, rfl⟩
      by_cases hlow : d < 32
      · exact .inl ⟨d, hlow, by simp [hd]⟩
      · obtain ⟨lane, rfl⟩ := Nat.exists_eq_add_of_le' (not_lt.mp hlow)
        exact .inr ⟨lane, by omega, by simp [hd, add_assoc]⟩
  · rw [exists_lane_zero]
    simp [eq_comm, add_assoc]

/-- Each workgroup's record is read back as far as its dimensions. -/
theorem loadPartial_leaves {groups : ℕ} {kernel : ℕ → ℕ → List (ℕ × ℝ)} {part : ℕ → ℕ → Partial}
    {b b' : Buf}
    (hkernel : ∀ h < p.nHead, ∀ g < groups,
      IsRecord p ((h * groups + g) * (p.hd + 2)) (part h g) (kernel h g))
    (hleaves : Leaves (grid p.nHead groups kernel) b b') {h g : ℕ} (hh : h < p.nHead)
    (hg : g < groups) :
    loadPartial p.hd b' (h * groups + g) = (part h g).narrow p.hd := by
  have hcovers : Covers (grid p.nHead groups kernel)
      {c : ℕ × ℕ × ℕ | c.1 < p.nHead ∧ c.2.1 < groups ∧ c.2.2 < p.hd + 2}
      (fun c => (c.1 * groups + c.2.1) * (p.hd + 2) + c.2.2)
      (fun c => storePartial p.hd (part c.1 c.2.1) c.2.2) := by
    constructor
    · intro store
      rw [mem_grid]
      constructor
      · rintro ⟨x, hx, y, hy, hmem⟩
        obtain ⟨j, hj, hstore⟩ := (hkernel x hx y hy store).mp hmem
        exact ⟨(x, y, j), ⟨hx, hy, hj⟩, hstore⟩
      · rintro ⟨c, ⟨hx, hy, hj⟩, hstore⟩
        exact ⟨c.1, hx, c.2.1, hy, (hkernel _ hx _ hy store).mpr ⟨c.2.2, hj, hstore⟩⟩
    · intro c hc c' hc' haddr
      have hrecord := congrArg (· / (p.hd + 2)) haddr
      have helement := congrArg (· % (p.hd + 2)) haddr
      simp only [index_div hc.2.2, index_div hc'.2.2] at hrecord
      simp only [index_mod hc.2.2, index_mod hc'.2.2] at helement
      have hhead := congrArg (· / groups) hrecord
      have hgroup := congrArg (· % groups) hrecord
      simp only [index_div hc.2.1, index_div hc'.2.1] at hhead
      simp only [index_mod hc.2.1, index_mod hc'.2.1] at hgroup
      exact Prod.ext hhead (Prod.ext hgroup helement)
  have hread {j : ℕ} (hj : j < p.hd + 2) :
      b' ((h * groups + g) * (p.hd + 2) + j) = storePartial p.hd (part h g) j :=
    hcovers.apply hleaves (i := (h, g, j)) ⟨hh, hg, hj⟩
  have hmx : storePartial p.hd (part h g) p.hd = (part h g).mx := by simp [storePartial]
  have hl : storePartial p.hd (part h g) (p.hd + 1) = (part h g).l := by simp [storePartial]
  have hav : cut p.hd (fun d => b' ((h * groups + g) * (p.hd + 2) + d)) =
      cut p.hd (part h g).av := by
    refine cut_congr fun d hd => ?_
    rw [hread (by omega)]
    exact if_pos hd
  rw [loadPartial, add_assoc, hread (by omega), hread (by omega), hmx, hl, hav]
  rfl

/-! ### Output rows -/

theorem mem_normalized {h : ℕ} :
    store ∈ normalized p h r ↔ ∃ d < p.hd, (h * p.hd + d, r.av d * (1 / r.l)) = store := by
  rw [normalized, mem_wave]
  simp only [List.mem_map]
  exact exists_owned (P := fun d => (h * p.hd + d, r.av d * (1 / r.l)) = store)

/-- Each workgroup's row is in the output. -/
theorem row_leaves {kernel : ℕ → ℕ → List (ℕ × ℝ)} {v : ℕ → ℕ → ℝ} {b b' : Buf}
    (hkernel : ∀ h < p.nHead, ∀ store,
      store ∈ kernel h 0 ↔ ∃ d < p.hd, (h * p.hd + d, v h d) = store)
    (hleaves : Leaves (grid p.nHead 1 kernel) b b') {h d : ℕ} (hh : h < p.nHead)
    (hd : d < p.hd) : b' (h * p.hd + d) = v h d := by
  have hcovers : Covers (grid p.nHead 1 kernel)
      {c : ℕ × ℕ | c.1 < p.nHead ∧ c.2 < p.hd} (fun c => c.1 * p.hd + c.2)
      (fun c => v c.1 c.2) := by
    constructor
    · intro store
      rw [mem_grid]
      constructor
      · rintro ⟨x, hx, y, hy, hmem⟩
        obtain rfl : y = 0 := Nat.lt_one_iff.mp hy
        obtain ⟨d, hd, hstore⟩ := (hkernel x hx store).mp hmem
        exact ⟨(x, d), ⟨hx, hd⟩, hstore⟩
      · rintro ⟨c, ⟨hx, hd⟩, hstore⟩
        exact ⟨c.1, hx, 0, Nat.one_pos, (hkernel _ hx store).mpr ⟨c.2, hd, hstore⟩⟩
    · intro c hc c' hc' haddr
      have hhead := congrArg (· / p.hd) haddr
      have hdim := congrArg (· % p.hd) haddr
      simp only [index_div hc.2, index_div hc'.2] at hhead
      simp only [index_mod hc.2, index_mod hc'.2] at hdim
      exact Prod.ext hhead hdim
  exact hcovers.apply hleaves (i := (h, d)) ⟨hh, hd⟩

theorem row_normalized {kernel : ℕ → ℕ → List (ℕ × ℝ)} {r : ℕ → Partial} {b b' : Buf}
    (hkernel : ∀ h, kernel h 0 = normalized p h (r h))
    (hleaves : Leaves (grid p.nHead 1 kernel) b b') {h d : ℕ} (hh : h < p.nHead) (hd : d < p.hd) :
    b' (h * p.hd + d) = (r h).av d * (1 / (r h).l) := by
  refine row_leaves (v := fun h d => (r h).av d * (1 / (r h).l)) (fun h _ store => ?_) hleaves
    hh hd
  rw [hkernel]
  exact mem_normalized

end Zllm.Vulkan.FlashDecode
