import Mathlib.Data.List.FinRange
import Mathlib.Data.List.Sort
import Mathlib.Logic.Function.Basic

/-!
# Sorts by a comparison

What a stable sort promises: a permutation of any list and, where the comparison is consistent on
its entries, the one in which they ascend and equal ones keep their order. An entry is then among
the first ones if fewer than these precede it.
-/

namespace Zllm.StableSort

variable {α : Type*} (lt : α → α → Prop)

/-- The comparison orders the entries, some of them equal. -/
structure Consistent (xs : List α) : Prop where
  asymm : ∀ a ∈ xs, ∀ b ∈ xs, lt a b → ¬ lt b a
  trans : ∀ a ∈ xs, ∀ b ∈ xs, ∀ c ∈ xs, ¬ lt b a → ¬ lt c b → ¬ lt c a

/-- The entry at one place is less than the one at another, or equal and earlier. -/
def Precedes (xs : List α) (i j : Fin xs.length) : Prop :=
  lt xs[i] xs[j] ∨ ¬ lt xs[j] xs[i] ∧ i < j

open Classical in
/-- How many entries precede the one at a place. -/
noncomputable def rank (xs : List α) (i : Fin xs.length) : ℕ :=
  (List.finRange xs.length).countP fun j => decide (Precedes lt xs j i)

/-- The places of a list in their order. -/
structure Ranks (xs : List α) (places : List (Fin xs.length)) : Prop where
  perm : places.Perm (List.finRange xs.length)
  sorted : places.Pairwise (Precedes lt xs)

/-- A sort by the comparison. -/
structure SortBy where
  sort : List α → List α
  perm : ∀ xs, (sort xs).Perm xs
  sorted : ∀ xs, Consistent lt xs → ∃ places, Ranks lt xs places ∧ sort xs = places.map xs.get

variable {lt} {xs : List α}

/-! ### The order of the places -/

section

variable {i j k : Fin xs.length}

theorem Precedes.asymm (hxs : Consistent lt xs) (hij : Precedes lt xs i j) :
    ¬ Precedes lt xs j i := by
  have hi := List.getElem_mem i.isLt
  have hj := List.getElem_mem j.isLt
  rintro (hlt | ⟨hnot, hle⟩)
  · rcases hij with hlt' | ⟨hnot, -⟩
    · exact hxs.asymm _ hi _ hj hlt' hlt
    · exact hnot hlt
  · rcases hij with hlt' | ⟨-, hle'⟩
    · exact hnot hlt'
    · exact absurd hle hle'.asymm

theorem Precedes.total (hne : i ≠ j) (hij : ¬ Precedes lt xs i j) : Precedes lt xs j i := by
  rw [Precedes, not_or, not_and, not_lt] at hij
  by_cases hlt : lt xs[j] xs[i]
  · exact .inl hlt
  · exact .inr ⟨hij.1, lt_of_le_of_ne (hij.2 hlt) hne.symm⟩

theorem Precedes.trans (hxs : Consistent lt xs) (hij : Precedes lt xs i j)
    (hjk : Precedes lt xs j k) : Precedes lt xs i k := by
  have hi := List.getElem_mem i.isLt
  have hj := List.getElem_mem j.isLt
  have hk := List.getElem_mem k.isLt
  have hji : ¬ lt xs[j] xs[i] := by
    rcases hij with hlt | ⟨hnot, -⟩
    · exact hxs.asymm _ hi _ hj hlt
    · exact hnot
  have hkj : ¬ lt xs[k] xs[j] := by
    rcases hjk with hlt | ⟨hnot, -⟩
    · exact hxs.asymm _ hj _ hk hlt
    · exact hnot
  have hki : ¬ lt xs[k] xs[i] := hxs.trans _ hi _ hj _ hk hji hkj
  by_cases hik : lt xs[i] xs[k]
  · exact .inl hik
  · -- All three are equal, so that both steps go by the places.
    have hij' : ¬ lt xs[i] xs[j] := fun hlt => hxs.trans _ hj _ hk _ hi hkj hik hlt
    have hjk' : ¬ lt xs[j] xs[k] := fun hlt => hxs.trans _ hk _ hi _ hj hik hji hlt
    exact .inr ⟨hki, (hij.resolve_left hij').2.trans (hjk.resolve_left hjk').2⟩

end

/-! ### The first entries -/

open Classical in
/-- Of places in their order, as many precede the one at an index as are before it. -/
theorem countP_precedes (hxs : Consistent lt xs) {places : List (Fin xs.length)}
    (hsorted : places.Pairwise (Precedes lt xs)) {n : ℕ} (hn : n < places.length) :
    places.countP (fun j => decide (Precedes lt xs j places[n])) = n := by
  induction places generalizing n with
  | nil => exact absurd hn (Nat.not_lt_zero n)
  | cons first rest ih =>
    obtain ⟨hfirst, hrest⟩ := List.pairwise_cons.mp hsorted
    cases n with
    | zero =>
      apply List.countP_eq_zero.mpr
      intro j hj
      rw [decide_eq_true_eq, List.getElem_cons_zero]
      rcases List.mem_cons.mp hj with rfl | hj
      · exact fun hself => hself.asymm hxs hself
      · exact (hfirst j hj).asymm hxs
    | succ n =>
      have hlt : n < rest.length := Nat.lt_of_succ_lt_succ hn
      have hbefore : Precedes lt xs first rest[n] := hfirst _ (List.getElem_mem hlt)
      rw [List.getElem_cons_succ, List.countP_cons, ih hrest hlt]
      simp only [hbefore, decide_true, if_true]

variable {places : List (Fin xs.length)}

theorem Ranks.mem (hranks : Ranks lt xs places) (i : Fin xs.length) : i ∈ places :=
  hranks.perm.mem_iff.mpr (List.mem_finRange i)

theorem Ranks.mem_take_iff (hxs : Consistent lt xs) (hranks : Ranks lt xs places)
    {i : Fin xs.length} {n : ℕ} : i ∈ places.take n ↔ rank lt xs i < n := by
  obtain ⟨k, hk, rfl⟩ := List.getElem_of_mem (hranks.mem i)
  have hrank : rank lt xs places[k] = k := by
    rw [rank, ← hranks.perm.countP_eq]
    exact countP_precedes hxs hranks.sorted hk
  rw [hrank]
  constructor
  · intro hmem
    obtain ⟨l, hl, heq⟩ := List.mem_take_iff_getElem.mp hmem
    have hnodup : places.Nodup := hranks.perm.nodup_iff.mpr (List.nodup_finRange _)
    have hsame : l = k := (hnodup.getElem_inj_iff).mp heq
    omega
  · exact fun hlt => List.mem_take_iff_getElem.mpr ⟨k, by omega, rfl⟩

theorem Ranks.head?_eq_some_iff (hxs : Consistent lt xs) (hranks : Ranks lt xs places)
    {i : Fin xs.length} : places.head? = some i ↔ rank lt xs i = 0 := by
  rw [← Nat.lt_one_iff, ← hranks.mem_take_iff hxs]
  cases places with
  | nil => simp
  | cons first rest => simp [eq_comm]

theorem exists_ranks (hxs : Consistent lt xs) : ∃ places, Ranks lt xs places := by
  classical
  let le := fun i j : Fin xs.length => decide (¬ Precedes lt xs j i)
  have htrans : ∀ i j k, le i j → le j k → le i k := by
    intro i j k hij hjk
    apply decide_eq_true
    intro hki
    by_cases hsame : i = j
    · exact of_decide_eq_true hjk (hsame ▸ hki)
    · exact of_decide_eq_true hjk (hki.trans hxs (Precedes.total (Ne.symm hsame)
        (of_decide_eq_true hij)))
  have htotal : ∀ i j, le i j || le j i := by
    intro i j
    rw [Bool.or_eq_true, decide_eq_true_eq, decide_eq_true_eq]
    by_cases hji : Precedes lt xs j i
    · exact .inr (hji.asymm hxs)
    · exact .inl hji
  have hperm := List.mergeSort_perm (List.finRange xs.length) le
  refine ⟨_, hperm, ?_⟩
  have hnodup := hperm.nodup_iff.mpr (List.nodup_finRange _)
  apply ((List.pairwise_mergeSort htrans htotal _).and hnodup).imp
  rintro i j ⟨hle, hne⟩
  exact Precedes.total hne.symm (of_decide_eq_true hle)

/-! ### Sorts -/

theorem exists_sortBy (lt : α → α → Prop) : Nonempty (SortBy lt) := by
  classical
  have hlist (xs : List α) : ∃ ys : List α, ys.Perm xs ∧ (Consistent lt xs →
      ∃ places, Ranks lt xs places ∧ ys = places.map xs.get) := by
    by_cases hxs : Consistent lt xs
    · obtain ⟨places, hranks⟩ := exists_ranks hxs
      refine ⟨places.map xs.get, ?_, fun _ => ⟨places, hranks, rfl⟩⟩
      have hmap := hranks.perm.map xs.get
      rwa [List.map_get_finRange] at hmap
    · exact ⟨xs, .refl xs, fun h => absurd h hxs⟩
  choose sort hperm hsorted using hlist
  exact ⟨⟨sort, hperm, hsorted⟩⟩

section

variable {β : Type*} (f : β → α) {ys : List β}

theorem consistent_map (h : Consistent (fun a b => lt (f a) (f b)) ys) :
    Consistent lt (ys.map f) where
  asymm := by
    simp only [List.forall_mem_map]
    exact h.asymm
  trans := by
    simp only [List.forall_mem_map]
    exact h.trans

theorem consistent_of_map (h : Consistent lt (ys.map f)) :
    Consistent (fun a b => lt (f a) (f b)) ys where
  asymm _ ha _ hb := h.asymm _ (List.mem_map_of_mem ha) _ (List.mem_map_of_mem hb)
  trans _ ha _ hb _ hc :=
    h.trans _ (List.mem_map_of_mem ha) _ (List.mem_map_of_mem hb) _ (List.mem_map_of_mem hc)

/-- Keyed entries are sorted as what they are the keys of. -/
theorem SortBy.sorted_map (s : SortBy lt) (hys : Consistent (fun a b => lt (f a) (f b)) ys) :
    ∃ places : List (Fin ys.length), Ranks (fun a b => lt (f a) (f b)) ys places ∧
      s.sort (ys.map f) = places.map fun i => f ys[i] := by
  obtain ⟨places, hranks, hsorted⟩ := s.sorted _ (consistent_map f hys)
  have hlength : (ys.map f).length = ys.length := List.length_map f
  refine ⟨places.map (Fin.cast hlength), ⟨?_, ?_⟩, ?_⟩
  · have hall : (List.finRange (ys.map f).length).map (Fin.cast hlength) =
        List.finRange ys.length := by
      apply List.ext_getElem
      · simp
      · intro i _ _
        simp
    rw [← hall]
    exact hranks.perm.map _
  · apply List.pairwise_map.mpr
    apply hranks.sorted.imp
    intro i j hij
    simpa only [Precedes, Fin.getElem_fin, List.getElem_map, Fin.val_cast, Fin.lt_def] using hij
  · rw [hsorted, List.map_map]
    apply List.map_congr_left
    intro i _
    exact List.getElem_map f

end

/-- Where the comparison is not consistent, any permutation may come out. -/
theorem exists_sortBy_eq (hxs : ¬ Consistent lt xs) {ys : List α} (hperm : ys.Perm xs) :
    ∃ s : SortBy lt, s.sort xs = ys := by
  classical
  obtain ⟨s⟩ := exists_sortBy lt
  refine ⟨⟨Function.update s.sort xs ys, fun zs => ?_, fun zs hzs => ?_⟩,
    Function.update_self xs ys s.sort⟩
  · by_cases heq : zs = xs
    · rw [heq, Function.update_self]
      exact hperm
    · rw [Function.update_of_ne heq]
      exact s.perm zs
  · have hne : zs ≠ xs := fun heq => hxs (heq ▸ hzs)
    rw [Function.update_of_ne hne]
    exact s.sorted zs hzs

end Zllm.StableSort
