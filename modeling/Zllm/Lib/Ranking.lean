import Mathlib

/-!
# Rankings

The entries of a list with their places, the largest first and equal ones in the order of their
places. A value is below the entry at a rank if more entries are above it than that; entries taken
from the top until their sum reaches a limit are those with less than the limit before them. Rounds
that each take the first entry after the last one's take the entries in their order.
-/

namespace Zllm.Ranking

section

variable {α : Type*} [LinearOrder α]

/-- One entry ranks before another. -/
def Before (a b : α × ℕ) : Prop := b.1 < a.1 ∨ a.1 = b.1 ∧ a.2 < b.2

instance (a b : α × ℕ) : Decidable (Before a b) := inferInstanceAs (Decidable (_ ∨ _))

def ranked (xs : List α) : List (α × ℕ) := xs.zipIdx.mergeSort fun a b => decide (¬ Before b a)

theorem Before.irrefl (a : α × ℕ) : ¬ Before a a := by
  rintro (h | ⟨-, h⟩)
  · exact lt_irrefl _ h
  · exact lt_irrefl _ h

theorem Before.trans {a b c : α × ℕ} (hab : Before a b) (hbc : Before b c) : Before a c := by
  rcases hab with hab | ⟨hab, hlt⟩ <;> rcases hbc with hbc | ⟨hbc, hlt'⟩
  · exact .inl (hbc.trans hab)
  · exact .inl (hbc ▸ hab)
  · exact .inl (hab ▸ hbc)
  · exact .inr ⟨hab.trans hbc, hlt.trans hlt'⟩

theorem Before.total {a b : α × ℕ} (h : ¬ Before a b) (h' : ¬ Before b a) : a = b := by
  simp only [Before, not_or, not_lt, not_and] at h h'
  have hvalue : a.1 = b.1 := le_antisymm h.1 h'.1
  exact Prod.ext hvalue (le_antisymm (h'.2 hvalue.symm) (h.2 hvalue))

theorem ranked_perm (xs : List α) : (ranked xs).Perm xs.zipIdx := List.mergeSort_perm _ _

theorem mem_ranked {xs : List α} {a : α × ℕ} : a ∈ ranked xs ↔ xs[a.2]? = some a.1 := by
  rw [(ranked_perm xs).mem_iff]
  exact List.mem_zipIdx_iff_getElem?

theorem ranked_nodup (xs : List α) : (ranked xs).Nodup := by
  refine (ranked_perm xs).nodup_iff.mpr (List.Nodup.of_map Prod.snd ?_)
  rw [List.zipIdx_map_snd]
  exact List.nodup_range'

theorem ranked_pairwise (xs : List α) : (ranked xs).Pairwise Before := by
  have hsorted : (ranked xs).Pairwise fun a b => decide (¬ Before b a) = true := by
    apply List.pairwise_mergeSort
    · intro a b c hab hbc
      have hab := of_decide_eq_true hab
      have hbc := of_decide_eq_true hbc
      refine decide_eq_true fun hca => ?_
      by_cases hsame : Before a b
      · exact hbc (hca.trans hsame)
      · exact hbc (Before.total hsame hab ▸ hca)
    · intro a b
      rw [Bool.or_eq_true, decide_eq_true_eq, decide_eq_true_eq]
      by_contra hboth
      rw [not_or, not_not, not_not] at hboth
      exact Before.irrefl _ (hboth.1.trans hboth.2)
  refine (hsorted.and (ranked_nodup xs)).imp ?_
  rintro a b ⟨hnot, hne⟩
  by_contra hbefore
  exact hne (Before.total hbefore (of_decide_eq_true hnot))

/-- A value is below the entry at a rank exactly if more entries than that are above it. -/
theorem lt_ranked_iff {xs : List α} {a : α} {n : ℕ} (hn : n < (ranked xs).length) :
    a < (ranked xs)[n].1 ↔ n < xs.countP fun x => decide (a < x) := by
  have hcount : xs.countP (fun x => decide (a < x)) =
      (ranked xs).countP fun b => decide (a < b.1) := by
    calc xs.countP (fun x => decide (a < x))
      _ = (xs.zipIdx.map Prod.fst).countP fun x => decide (a < x) := by rw [List.zipIdx_map_fst]
      _ = xs.zipIdx.countP fun b => decide (a < b.1) := List.countP_map
      _ = (ranked xs).countP fun b => decide (a < b.1) := ((ranked_perm xs).countP_eq _).symm
  rw [hcount]
  have hsorted := (ranked_pairwise xs).imp fun {b c} (h : Before b c) => h.elim le_of_lt
    fun h => h.1.ge
  clear hcount
  generalize ranked xs = ranks at hn hsorted
  induction ranks generalizing n with
  | nil => exact absurd hn (Nat.not_lt_zero n)
  | cons b ranks ih =>
    obtain ⟨hhead, htail⟩ := List.pairwise_cons.mp hsorted
    by_cases habove : a < b.1
    · rw [List.countP_cons_of_pos (by simpa using habove)]
      cases n with
      | zero => exact ⟨fun _ => Nat.succ_pos _, fun _ => habove⟩
      | succ n =>
        rw [Nat.succ_lt_succ_iff]
        exact ih (Nat.lt_of_succ_lt_succ hn) htail
    · have hnone : ranks.countP (fun c => decide (a < c.1)) = 0 := by
        refine List.countP_eq_zero.mpr fun c hc => ?_
        simpa using (hhead c hc).trans (not_lt.mp habove)
      rw [List.countP_cons_of_neg (by simpa using habove), hnone]
      refine iff_of_false (fun hlt => ?_) (Nat.not_lt_zero n)
      rcases List.mem_cons.mp (List.getElem_mem hn) with heq | hmem
      · exact habove (heq ▸ hlt)
      · exact habove (hlt.trans_le (hhead _ hmem))
/-! ### One entry a round -/

/-- The first of the entries after one of them, or `empty` if none is left. -/
def Next (ranks : List (α × ℕ)) (empty prev next : α × ℕ) : Prop :=
  (next = empty ∧ ∀ b ∈ ranks, ¬ Before prev b) ∨
    next ∈ ranks ∧ Before prev next ∧ ∀ b ∈ ranks, Before prev b → ¬ Before b next

def rounds (next : α × ℕ → α × ℕ) : ℕ → α × ℕ → List (α × ℕ)
  | 0, _ => []
  | k + 1, prev => next prev :: rounds next k (next prev)

variable {empty prev : α × ℕ} {next : α × ℕ → α × ℕ}

/-- Some entries are taken, and the round takes the first of the rest. -/
theorem Next.eq_head {taken rest : List (α × ℕ)} {a b : α × ℕ}
    (hsorted : (taken ++ b :: rest).Pairwise Before) (htaken : ∀ c ∈ taken, ¬ Before prev c)
    (hrest : ∀ c ∈ b :: rest, Before prev c) (hnext : Next (taken ++ b :: rest) empty prev a) :
    a = b := by
  have hfirst := hrest b List.mem_cons_self
  have hmem : b ∈ taken ++ b :: rest := List.mem_append_right _ List.mem_cons_self
  rcases hnext with ⟨-, hnone⟩ | ⟨ha, hafter, hleast⟩
  · exact absurd hfirst (hnone b hmem)
  · rcases List.mem_append.mp ha with ha | ha
    · exact absurd hafter (htaken a ha)
    · rcases List.mem_cons.mp ha with heq | ha
      · exact heq
      · obtain ⟨hhead, -⟩ := List.pairwise_cons.mp (List.pairwise_append.mp hsorted).2.1
        exact absurd (hhead a ha) (hleast b hmem hfirst)

/-- Rounds that each take the first entry after the last one's take the entries in their order. -/
theorem rounds_append {taken rest : List (α × ℕ)} (hsorted : (taken ++ rest).Pairwise Before)
    (hempty : ∀ c ∈ taken ++ rest, ¬ Before empty c)
    (hnext : ∀ prev, Next (taken ++ rest) empty prev (next prev))
    (htaken : ∀ c ∈ taken, ¬ Before prev c) (hrest : ∀ c ∈ rest, Before prev c) (k : ℕ) :
    rounds next k prev = rest.take k ++ List.replicate (k - rest.length) empty := by
  induction k generalizing taken rest prev with
  | zero => simp [rounds]
  | succ k ih =>
    cases rest with
    | nil =>
      have hround : next prev = empty := by
        rcases hnext prev with ⟨heq, -⟩ | ⟨hmem, hafter, -⟩
        · exact heq
        · rw [List.append_nil] at hmem
          exact absurd hafter (htaken _ hmem)
      have hnone : ∀ c ∈ taken, ¬ Before (next prev) c := by
        intro c hc
        rw [hround]
        exact hempty c (List.mem_append_left _ hc)
      have hlater := ih hsorted hempty hnext hnone (by simp)
      rw [rounds, hlater, hround]
      simp [List.replicate_succ]
    | cons b rest =>
      have hround := (hnext prev).eq_head hsorted htaken hrest
      have hcons : taken ++ b :: rest = (taken ++ [b]) ++ rest := by simp
      rw [hcons] at hsorted hempty hnext
      obtain ⟨hbefore, -, hafter⟩ := List.pairwise_append.mp hsorted
      have hnone : ∀ c ∈ taken ++ [b], ¬ Before (next prev) c := by
        intro c hc
        rw [hround]
        rcases List.mem_append.mp hc with hc | hc
        · intro hlt
          have hlast := (List.pairwise_append.mp hbefore).2.2 c hc b (List.mem_singleton_self b)
          exact Before.irrefl _ (hlt.trans hlast)
        · rw [List.mem_singleton.mp hc]
          exact Before.irrefl b
      have hlater : ∀ c ∈ rest, Before (next prev) c := by
        intro c hc
        rw [hround]
        exact hafter b (List.mem_append_right _ (List.mem_singleton_self b)) c hc
      rw [rounds, ih hsorted hempty hnext hnone hlater, hround]
      simp

theorem rounds_eq {ranks : List (α × ℕ)} (hsorted : ranks.Pairwise Before)
    (hempty : ∀ c ∈ ranks, ¬ Before empty c) (hnext : ∀ prev, Next ranks empty prev (next prev))
    (hfirst : ∀ c ∈ ranks, Before prev c) (k : ℕ) :
    rounds next k prev = ranks.take k ++ List.replicate (k - ranks.length) empty := by
  have hnone : ∀ c ∈ ([] : List (α × ℕ)), ¬ Before prev c := by simp
  exact rounds_append hsorted hempty hnext hnone hfirst k

end

section

variable {K : Type*} [AddCommMonoid K] [LinearOrder K]

/-- The entries from the top until their sum reaches the limit. -/
def cut (limit : K) : K → List (K × ℕ) → List (K × ℕ)
  | _, [] => []
  | sum, a :: rest => if limit ≤ sum then [] else a :: cut limit (sum + a.1) rest

/-- The sum of the entries that rank before one. -/
def sumBefore (ranks : List (K × ℕ)) (a : K × ℕ) : K :=
  (ranks.map fun b => if Before b a then b.1 else 0).sum

theorem sumBefore_perm {ranks ranks' : List (K × ℕ)} (h : ranks.Perm ranks') (a : K × ℕ) :
    sumBefore ranks a = sumBefore ranks' a :=
  (h.map _).sum_eq

variable [IsOrderedAddMonoid K]

theorem sumBefore_nonneg {ranks : List (K × ℕ)} (hnonneg : ∀ b ∈ ranks, 0 ≤ b.1) (a : K × ℕ) :
    0 ≤ sumBefore ranks a := by
  refine List.sum_nonneg (List.forall_mem_map.mpr fun b hb => ?_)
  split_ifs
  · exact hnonneg b hb
  · exact le_rfl

theorem mem_cut_iff {limit sum : K} {ranks : List (K × ℕ)} (hsorted : ranks.Pairwise Before)
    (hnonneg : ∀ b ∈ ranks, 0 ≤ b.1) {a : K × ℕ} :
    a ∈ cut limit sum ranks ↔ a ∈ ranks ∧ sum + sumBefore ranks a < limit := by
  induction ranks generalizing sum with
  | nil => simp [cut]
  | cons b ranks ih =>
    obtain ⟨hhead, htail⟩ := List.pairwise_cons.mp hsorted
    obtain ⟨hb, hrest⟩ := List.forall_mem_cons.mp hnonneg
    rw [cut]
    split
    · next hlimit =>
      refine iff_of_false List.not_mem_nil ?_
      rintro ⟨-, hlt⟩
      exact absurd (hlimit.trans (le_add_of_nonneg_right (sumBefore_nonneg hnonneg a))) hlt.not_ge
    · next hlimit =>
      rw [List.mem_cons, List.mem_cons, ih htail hrest]
      have hsplit (c : K × ℕ) : sumBefore (b :: ranks) c =
          (if Before b c then b.1 else 0) + sumBefore ranks c := List.sum_cons
      constructor
      · rintro (rfl | ⟨hmem, hlt⟩)
        · have hnone : sumBefore ranks a = 0 := by
            refine List.sum_eq_zero (List.forall_mem_map.mpr fun c hc => if_neg fun hca => ?_)
            exact Before.irrefl _ ((hhead c hc).trans hca)
          rw [hsplit, if_neg (Before.irrefl a), hnone, add_zero, add_zero]
          exact ⟨.inl rfl, not_le.mp hlimit⟩
        · rw [hsplit, if_pos (hhead a hmem), ← add_assoc]
          exact ⟨.inr hmem, hlt⟩
      · rintro ⟨rfl | hmem, hlt⟩
        · exact .inl rfl
        · rw [hsplit, if_pos (hhead a hmem), ← add_assoc] at hlt
          exact .inr ⟨hmem, hlt⟩

end

end Zllm.Ranking
