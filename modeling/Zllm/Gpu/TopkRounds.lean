import Zllm.Gpu.GreedySelection
import Zllm.Lib.Ranking
import Zllm.Lib.Tile
import Zllm.Lib.Workgroup

/-!
# Top-k rounds

Each round of the top-k kernel merges what the lanes find after the last round's winner, so that the
rounds go through the row in its order, the largest logit first and of equal ones the lowest index.
When the row is exhausted, a round leaves the lanes' start, which no logit is below.
-/

namespace Zllm.Gpu

open LaneReduction Ranking
open Workgroup (Covers Leaves grid mem_grid)

/-! ### The dispatch -/

/-- The stores of `BTOPK_WGSL`, workgroup `s`: a value and an index at one place of `vals` and of
`idxs`. -/
noncomputable def btopkStores (mStreams k vocab : ℕ) (logits : Buf) (s : ℕ) : List (ℕ × Best) :=
  if mStreams ≤ s then []
  else (btopk k vocab logits s).mapIdx fun r best => (s * k + r, best)

noncomputable def recordBtopk (m k vocab : ℕ) (logits : Buf) : List (ℕ × Best) :=
  grid m 1 fun s _ => btopkStores m k vocab logits s

/-- What the dispatch leaves of `vals` and `idxs`. -/
structure Topk (m k vocab : ℕ) (logits vals vals' : Buf) (idxs idxs' : ℕ → ℕ) : Prop where
  vals : Leaves ((recordBtopk m k vocab logits).map fun store => (store.1, store.2.1)) vals vals'
  idxs : Leaves ((recordBtopk m k vocab logits).map fun store => (store.1, store.2.2)) idxs idxs'

/-- The sorted row, and the value of an exhausted round after it. -/
structure Extracts (k : ℕ) (row : List ℝ) (pair : ℕ → Best) : Prop where
  ranked : ∀ r, (hr : r < (ranked row).length) → r < k → pair r = (ranked row)[r]
  exhausted : ∀ r, row.length ≤ r → r < k → pair r = (-3e38, 0xffffffff)
  distinct : ∀ r r', r < r' → r' < k → r' < row.length → (pair r).2 ≠ (pair r').2
  complete : row.length ≤ k → ∀ c < row.length, ∃ r < row.length, (pair r).2 = c

/-! ### A round -/

variable {n : ℕ} {row : Buf}

theorem before_iff (a b : Best) : Before a b ↔ candidate b < candidate a := by
  rw [candidate_lt_iff]
  rfl

theorem mem_ranked_row {best : Best} :
    best ∈ ranked ((List.range n).map row) ↔ ∃ c < n, best = (row c, c) := by
  rw [mem_ranked, List.getElem?_map, Option.map_eq_some_iff]
  constructor
  · rintro ⟨c, hc, hrow⟩
    obtain ⟨hlt, hget⟩ := List.getElem?_eq_some_iff.mp hc
    rw [List.getElem_range] at hget
    rw [List.length_range] at hlt
    exact ⟨best.2, hlt, Prod.ext (by rw [← hrow, hget]) rfl⟩
  · rintro ⟨c, hc, rfl⟩
    exact ⟨c, List.getElem?_range hc, rfl⟩

/-- **One round.** It takes the first candidate after the last one's winner. -/
theorem next_topkRound (hlow : ∀ c < n, -3e38 < row c) (prev : Best) :
    Next (ranked ((List.range n).map row)) (-3e38, 0xffffffff) prev (topkRound n row prev) := by
  have hmem {c : ℕ} : c ∈ (List.range n).filter (fun c => candidate (row c, c) < candidate prev) ↔
      c < n ∧ Before prev (row c, c) := by
    rw [List.mem_filter, List.mem_range, decide_eq_true_eq, before_iff]
  have hsorted : ((List.range n).filter fun c => candidate (row c, c) < candidate prev).Pairwise
      (· < ·) := List.pairwise_lt_range.sublist List.filter_sublist
  rw [topkRound_eq_reduce]
  rcases reduce_stripes candidate (fun c => (row c, c)) _ 8 hsorted (topkLane_eq row prev) with
    ⟨hnone, hall⟩ | ⟨i, hi, hreduce, -, hmost⟩
  · refine .inl ⟨hnone, fun best hbest hbefore => ?_⟩
    obtain ⟨c, hc, rfl⟩ := mem_ranked_row.mp hbest
    have habove : candidate (-3e38, 0xffffffff) < candidate (row c, c) :=
      (candidate_lt_iff _ _).mpr (.inl (hlow c hc))
    exact (hall c (hmem.mpr ⟨hc, hbefore⟩)).not_gt habove
  · obtain ⟨hlt, hbefore⟩ := hmem.mp hi
    refine .inr ⟨mem_ranked_row.mpr ⟨i, hlt, hreduce⟩, hreduce ▸ hbefore, ?_⟩
    intro best hbest hafter
    obtain ⟨c, hc, rfl⟩ := mem_ranked_row.mp hbest
    rw [hreduce, before_iff, not_lt]
    exact (hmost c (hmem.mpr ⟨hc, hafter⟩)).1

/-! ### All rounds -/

theorem topkRounds_eq_rounds (vocab : ℕ) (row : Buf) (k : ℕ) (prev : Best) :
    topkRounds vocab row k prev = rounds (topkRound vocab row) k prev := by
  induction k generalizing prev with
  | zero => rfl
  | succ k ih => rw [topkRounds, rounds, ih]

theorem length_ranked (xs : List ℝ) : (ranked xs).length = xs.length := by
  rw [(ranked_perm xs).length_eq, List.length_zipIdx]

/-- The rounds go through the sorted row, and then leave the lanes' start. -/
theorem btopk_eq (k vocab : ℕ) (logits : Buf) (s : ℕ)
    (hreal : ∀ c < vocab, |logits (s * vocab + c)| < 3e38) :
    btopk k vocab logits s =
      (ranked ((List.range vocab).map fun c => logits (s * vocab + c))).take k ++
        List.replicate (k - vocab) (-3e38, 0xffffffff) := by
  have hround := next_topkRound fun c hc => (abs_lt.mp (hreal c hc)).1
  have hempty : ∀ best ∈ ranked ((List.range vocab).map fun c => logits (s * vocab + c)),
      ¬ Before (-3e38, 0xffffffff) best := by
    intro best hbest
    obtain ⟨c, hc, rfl⟩ := mem_ranked_row.mp hbest
    have hlow := (abs_lt.mp (hreal c hc)).1
    rintro (hlt | ⟨heq, -⟩)
    · exact hlt.not_gt hlow
    · exact hlow.ne heq
  have hfirst : ∀ best ∈ ranked ((List.range vocab).map fun c => logits (s * vocab + c)),
      Before (3e38, 0xffffffff) best := by
    intro best hbest
    obtain ⟨c, hc, rfl⟩ := mem_ranked_row.mp hbest
    exact .inl (abs_lt.mp (hreal c hc)).2
  rw [btopk, topkRounds_eq_rounds, rounds_eq (ranked_pairwise _) hempty hround hfirst,
    length_ranked, List.length_map, List.length_range]

/-- The `r`-th of the row's pairs, or the lanes' start. -/
noncomputable def ranks (row : List ℝ) (r : ℕ) : Best := (ranked row).getD r (-3e38, 0xffffffff)

theorem getElem?_btopk {k vocab : ℕ} {logits : Buf} {s r : ℕ}
    (hreal : ∀ c < vocab, |logits (s * vocab + c)| < 3e38) (hr : r < k) :
    (btopk k vocab logits s)[r]? =
      some (ranks ((List.range vocab).map fun c => logits (s * vocab + c)) r) := by
  rw [btopk_eq k vocab logits s hreal, ranks, List.getD_eq_getElem?_getD]
  have hlength := length_ranked ((List.range vocab).map fun c => logits (s * vocab + c))
  rw [List.length_map, List.length_range] at hlength
  by_cases hlt : r < vocab
  · rw [List.getElem?_append_left (by rw [List.length_take]; omega), List.getElem?_take_of_lt hr,
      List.getElem?_eq_getElem (by omega), Option.getD_some]
  · rw [List.getElem?_append_right (by rw [List.length_take]; omega), List.length_take,
      List.getElem?_replicate_of_lt (by omega), List.getElem?_eq_none (by omega), Option.getD_none]

theorem length_btopk (k vocab : ℕ) (logits : Buf) (s : ℕ) :
    (btopk k vocab logits s).length = k := by
  rw [btopk]
  generalize ((3e38, 0xffffffff) : Best) = prev
  induction k generalizing prev with
  | zero => rfl
  | succ k ih => rw [topkRounds, List.length_cons, ih]

theorem extracts_ranks (k : ℕ) (row : List ℝ) : Extracts k row (ranks row) where
  ranked r hr _ := List.getD_eq_getElem _ _ hr
  exhausted r hr _ := List.getD_eq_default _ _ (by rwa [length_ranked])
  distinct r r' hlt _ hlength := by
    rw [← length_ranked] at hlength
    rw [ranks, ranks, List.getD_eq_getElem _ _ (hlt.trans hlength), List.getD_eq_getElem _ _ hlength]
    intro hsame
    have hbefore := List.pairwise_iff_getElem.mp (ranked_pairwise row) r r' (hlt.trans hlength)
      hlength hlt
    have hfirst := mem_ranked.mp (List.getElem_mem (hlt.trans hlength))
    have hsecond := mem_ranked.mp (List.getElem_mem hlength)
    rw [hsame, hsecond, Option.some.injEq] at hfirst
    rw [Prod.ext hfirst.symm hsame] at hbefore
    exact Before.irrefl _ hbefore
  complete _ c hc := by
    have hmem : (row[c], c) ∈ ranked row := mem_ranked.mpr (List.getElem?_eq_getElem hc)
    obtain ⟨r, hr, heq⟩ := List.getElem_of_mem hmem
    refine ⟨r, by rwa [length_ranked] at hr, ?_⟩
    rw [ranks, List.getD_eq_getElem _ _ hr, heq]

/-! ### Every workgroup -/

variable {m k vocab : ℕ} {logits : Buf}

/-- A dispatch stores one pair for each stream and rank. -/
theorem covers_recordBtopk (hreal : ∀ s < m, ∀ c < vocab, |logits (s * vocab + c)| < 3e38) :
    Covers (recordBtopk m k vocab logits) {i : ℕ × ℕ | i.1 < m ∧ i.2 < k}
      (fun i => i.1 * k + i.2)
      fun i => ranks ((List.range vocab).map fun c => logits (i.1 * vocab + c)) i.2 where
  mem_iff store := by
    rw [recordBtopk, mem_grid]
    constructor
    · rintro ⟨s, hs, -, -, hstore⟩
      rw [btopkStores, if_neg (not_le.mpr hs), List.mem_mapIdx] at hstore
      obtain ⟨r, hr, rfl⟩ := hstore
      have hk : r < k := length_btopk k vocab logits s ▸ hr
      have hget := getElem?_btopk (hreal s hs) hk
      rw [List.getElem?_eq_getElem hr, Option.some.injEq] at hget
      exact ⟨(s, r), ⟨hs, hk⟩, by rw [hget]⟩
    · rintro ⟨⟨s, r⟩, ⟨hs, hk⟩, rfl⟩
      refine ⟨s, hs, 0, Nat.one_pos, ?_⟩
      rw [btopkStores, if_neg (not_le.mpr hs), List.mem_mapIdx]
      have hget := getElem?_btopk (hreal s hs) hk
      have hr : r < (btopk k vocab logits s).length := by rwa [length_btopk]
      rw [List.getElem?_eq_getElem hr, Option.some.injEq] at hget
      exact ⟨r, hr, by rw [hget]⟩
  injOn := by
    rintro ⟨s, r⟩ ⟨-, hr⟩ ⟨s', r'⟩ ⟨-, hr'⟩ haddr
    have hs := congrArg (· / k) haddr
    have hk := congrArg (· % k) haddr
    simp only [Tile.index_div hr, Tile.index_div hr', Tile.index_mod hr, Tile.index_mod hr'] at hs hk
    rw [hs, hk]

variable {vals vals' : Buf} {idxs idxs' : ℕ → ℕ}

/-- The places of `vals` and `idxs` that stream `s` has hold its row's ranks. -/
theorem Topk.eq_ranks (htopk : Topk m k vocab logits vals vals' idxs idxs')
    (hreal : ∀ s < m, ∀ c < vocab, |logits (s * vocab + c)| < 3e38) {s r : ℕ} (hs : s < m)
    (hr : r < k) : (vals' (s * k + r), idxs' (s * k + r)) =
      ranks ((List.range vocab).map fun c => logits (s * vocab + c)) r := by
  have hcovers := covers_recordBtopk (k := k) hreal
  have hvals := (hcovers.map Prod.fst).apply htopk.vals (i := (s, r)) ⟨hs, hr⟩
  have hidxs := (hcovers.map Prod.snd).apply htopk.idxs (i := (s, r)) ⟨hs, hr⟩
  exact Prod.ext hvals hidxs

theorem Extracts.congr {row : List ℝ} {pair pair' : ℕ → Best} (hextracts : Extracts k row pair)
    (hlength : row.length ≤ k → ∀ r < row.length, r < k) (hpair : ∀ r < k, pair' r = pair r) :
    Extracts k row pair' where
  ranked r hr hk := (hpair r hk).trans (hextracts.ranked r hr hk)
  exhausted r hr hk := (hpair r hk).trans (hextracts.exhausted r hr hk)
  distinct r r' hlt hk hrow := by
    rw [hpair r (hlt.trans hk), hpair r' hk]
    exact hextracts.distinct r r' hlt hk hrow
  complete hle c hc := by
    obtain ⟨r, hr, hpair'⟩ := hextracts.complete hle c hc
    exact ⟨r, hr, by rw [hpair r (hlength hle r hr), hpair']⟩

/-- **Top-k extraction.** Whatever the order of its stores, a dispatch leaves each stream's `k`
places with the first pairs of its row, the largest logit first and of equal ones the lowest index,
and past the row's end with the value that a lane starts from. -/
theorem recordBtopk_extracts (m k vocab : ℕ) (logits : Buf)
    (hreal : ∀ s < m, ∀ c < vocab, |logits (s * vocab + c)| < 3e38) (vals vals' : Buf)
    (idxs idxs' : ℕ → ℕ) (htopk : Topk m k vocab logits vals vals' idxs idxs') :
    ∀ s < m, Extracts k ((List.range vocab).map fun c => logits (s * vocab + c))
      fun r => (vals' (s * k + r), idxs' (s * k + r)) := by
  intro s hs
  refine (extracts_ranks k _).congr (fun hle r hr => by omega) fun r hr => ?_
  exact htopk.eq_ranks hreal hs hr

/-- A row of two equal logits, and one rank more than it has. -/
theorem recordBtopk_extracts_tie : ∃ (vals' : Buf) (idxs' : ℕ → ℕ),
    Topk 1 3 2 (fun _ => 1) (fun _ => 0) vals' (fun _ => 0) idxs' ∧
    Extracts 3 [1, 1] fun r => (vals' r, idxs' r) := by
  have hreal : ∀ s < 1, ∀ c < 2, |(fun _ => (1 : ℝ)) (s * 2 + c)| < 3e38 := by
    intro s _ c _
    norm_num
  have htopk : Topk 1 3 2 (fun _ => 1) (fun _ => 0) _ (fun _ => 0) _ :=
    ⟨Workgroup.leaves_perform _ _, Workgroup.leaves_perform _ _⟩
  refine ⟨_, _, htopk, ?_⟩
  simpa using recordBtopk_extracts 1 3 2 (fun _ => 1) hreal _ _ _ _ htopk 0 (by decide)

end Zllm.Gpu
