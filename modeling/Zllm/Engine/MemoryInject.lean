import Zllm.Engine.MemoryAccounting
import Zllm.Lib.Rounding
import Zllm.Lib.StableSort

/-!
# Injection vectors

`build_injection_vector` ranks the unexpired memories and adds up those of the width that the first
one has. A memory of another width than the query has no similarity to it, but the relevance and the
age of any memory count, so that the first one need not have the query's width. Floats are rounded.
-/

namespace Zllm.Engine.MemoryStore

open Extended (fin)
open StableSort (SortBy Consistent Ranks rank)

/-! ### Ranking -/

section

variable (q : Rounding)

noncomputable def vectorNorm (v : List (Extended ℝ)) : Extended ℝ :=
  q.sqrt (q.sum (v.map fun x => q.mul x x))

noncomputable def cosineSimilarity (a b : List (Extended ℝ)) : Extended ℝ :=
  if a.length ≠ b.length ∨ a.length = 0 then 0
  else
    let dot := q.sum (List.zipWith q.mul a b)
    if vectorNorm q a = 0 ∨ vectorNorm q b = 0 then 0
    else q.div dot (q.mul (vectorNorm q a) (vectorNorm q b))

noncomputable def recencyBoost (now : Nat) (entry : MemoryEntry (Extended ℝ)) : Extended ℝ :=
  let age := q.round (fin ((now - entry.createdAt : ℕ) : ℝ))
  q.div 1 (q.add 1 (q.div age (q.lit 3600)))

noncomputable def finalScore (now : Nat) (query : List (Extended ℝ))
    (entry : MemoryEntry (Extended ℝ)) : Extended ℝ :=
  let sim := cosineSimilarity q entry.vector query
  q.add (q.add (q.mul sim (q.lit (7 / 10))) (q.mul (q.lit entry.relevanceScore) (q.lit (1 / 5))))
    (q.mul (recencyBoost q now entry) (q.lit (1 / 10)))

/-- The comparison of the sort: the higher score first. -/
def Higher (a b : MemoryEntry (Extended ℝ) × Extended ℝ) : Prop := b.2 < a.2

/-- The unexpired memories, in the map's order. -/
def liveMemories (order : EntryOrder (Extended ℝ)) (now : Nat) (s : MemoryStore (Extended ℝ)) :
    List (MemoryEntry (Extended ℝ)) :=
  ((order.arrange s.entries.entries).map Sigma.snd).filter fun e => !e.isExpired now

noncomputable def rated (order : EntryOrder (Extended ℝ)) (now : Nat)
    (s : MemoryStore (Extended ℝ)) (query : List (Extended ℝ)) :
    List (MemoryEntry (Extended ℝ) × Extended ℝ) :=
  (liveMemories order now s).map fun entry => (entry, finalScore q now query entry)

noncomputable def scored (sort : SortBy Higher) (order : EntryOrder (Extended ℝ)) (now : Nat)
    (s : MemoryStore (Extended ℝ)) (query : List (Extended ℝ)) (maxMemories : Nat) :
    List (MemoryEntry (Extended ℝ) × Extended ℝ) :=
  (sort.sort (rated q order now s query)).take maxMemories

/-! ### Adding up -/

/-- A memory counts that has the width and is not next to zero. -/
def Counts (d : Nat) (entry : MemoryEntry (Extended ℝ)) : Prop :=
  entry.vector.length = d ∧ q.lit (1 / 10 ^ 6) < vectorNorm q entry.vector

open Classical in
/-- One memory of the loop: the sum so far and its weight. -/
noncomputable def accumulate (d : Nat) (acc : List (Extended ℝ) × Extended ℝ)
    (memory : MemoryEntry (Extended ℝ) × Extended ℝ) : List (Extended ℝ) × Extended ℝ :=
  if Counts q d memory.1 then
    (List.zipWith (fun r v => q.add r (q.mul memory.2 v)) acc.1 memory.1.vector,
      q.add acc.2 memory.2)
  else acc

noncomputable def buildInjectionVector (sort : SortBy Higher) (order : EntryOrder (Extended ℝ))
    (now : Nat) (s : MemoryStore (Extended ℝ)) (query : List (Extended ℝ)) (maxMemories : Nat)
    (alpha : Extended ℝ) : Option (List (Extended ℝ)) :=
  match scored q sort order now s query maxMemories with
  | [] => none
  | first :: rest =>
    let d := first.1.vector.length
    let sums := (first :: rest).foldl (accumulate q d) (List.replicate d 0, 0)
    if 0 < sums.2 then some (sums.1.map fun r => q.mul (q.div r sums.2) alpha) else none

structure MemoryInjectHook where
  injectLayer : Nat
  alpha : Extended ℝ
  maxMemories : Nat

/-- `residual_delta` of the hook, over a store that can be read. -/
noncomputable def residualDelta (hook : MemoryInjectHook) (sort : SortBy Higher)
    (order : EntryOrder (Extended ℝ)) (now : Nat) (s : MemoryStore (Extended ℝ)) (layerIdx : Nat)
    (hidden : List (Extended ℝ)) : Option (List (Extended ℝ)) :=
  if layerIdx ≠ hook.injectLayer ∨ hook.alpha ≤ 0 then none
  else s.buildInjectionVector q sort order now hidden hook.maxMemories hook.alpha

end

section

variable {q : Rounding} {d : Nat}

theorem length_accumulate {acc : List (Extended ℝ) × Extended ℝ} (hacc : acc.1.length = d)
    (memory : MemoryEntry (Extended ℝ) × Extended ℝ) :
    (accumulate q d acc memory).1.length = d := by
  rw [accumulate]
  split
  · next hcounts => rw [List.length_zipWith, hacc, hcounts.1, Nat.min_self]
  · exact hacc

theorem length_foldl_accumulate (memories : List (MemoryEntry (Extended ℝ) × Extended ℝ))
    {acc : List (Extended ℝ) × Extended ℝ} (hacc : acc.1.length = d) :
    (memories.foldl (accumulate q d) acc).1.length = d := by
  induction memories generalizing acc with
  | nil => exact hacc
  | cons memory memories ih => exact ih (length_accumulate hacc memory)

theorem foldl_accumulate_of_none {memories : List (MemoryEntry (Extended ℝ) × Extended ℝ)}
    (hnone : ∀ memory ∈ memories, ¬ Counts q d memory.1)
    (acc : List (Extended ℝ) × Extended ℝ) : memories.foldl (accumulate q d) acc = acc := by
  induction memories with
  | nil => rfl
  | cons memory memories ih =>
    obtain ⟨hmemory, hrest⟩ := List.forall_mem_cons.mp hnone
    rw [List.foldl_cons, accumulate, if_neg hmemory]
    exact ih hrest

/-- Where those that count have a score not below a float, the weight is not below it if one counts.
-/
theorem le_weight_foldl_accumulate {low : Extended ℝ} (hlow : q.IsFloat low) (hzero : 0 ≤ low)
    {memories : List (MemoryEntry (Extended ℝ) × Extended ℝ)}
    (hscores : ∀ memory ∈ memories, Counts q d memory.1 → low ≤ memory.2)
    {acc : List (Extended ℝ) × Extended ℝ} (hacc : 0 ≤ acc.2)
    (hone : low ≤ acc.2 ∨ ∃ memory ∈ memories, Counts q d memory.1) :
    low ≤ (memories.foldl (accumulate q d) acc).2 := by
  induction memories generalizing acc with
  | nil =>
    rcases hone with hle | ⟨memory, hmem, -⟩
    · exact hle
    · cases hmem
  | cons memory memories ih =>
    obtain ⟨hmemory, hrest⟩ := List.forall_mem_cons.mp hscores
    rw [List.foldl_cons]
    by_cases hcounts : Counts q d memory.1
    · have hscore := hmemory hcounts
      have hnonneg := Extended.le_trans hzero hscore
      rw [accumulate, if_pos hcounts]
      apply ih hrest
      · exact Rounding.add_nonneg hacc hnonneg
      · exact .inl (hlow.le_add_right hacc hnonneg hscore)
    · rw [accumulate, if_neg hcounts]
      apply ih hrest hacc
      rcases hone with hle | ⟨other, hother, hc⟩
      · exact .inl hle
      · rcases List.mem_cons.mp hother with rfl | hother
        · exact absurd hc hcounts
        · exact .inr ⟨other, hother, hc⟩

end

/-! ### Scores -/

/-- Every memory has the relevance that it was stored with. -/
theorem Reachable.relevanceScore {F : Type} {s : MemoryStore F} (hreachable : Reachable s)
    {key : String} {entry : MemoryEntry F} (hlookup : s.entries.lookup key = some entry) :
    entry.relevanceScore = 1 := by
  induction hreachable generalizing key entry with
  | withBudget maxEntries byteBudget categoryBudgets => cases hlookup
  | @call s s' _ hcall ih =>
    cases hcall with
    | storeWithOptions order now s other vector metadata options =>
      rcases lookup_storeWithOptions hlookup with hbefore | ⟨-, rfl⟩
      · exact ih hbefore
      · rfl
    | store order now s other vector metadata =>
      rcases lookup_storeWithOptions hlookup with hbefore | ⟨-, rfl⟩
      · exact ih hbefore
      · rfl
    | get now s other =>
      rcases get_snd now s other with hsame | ⟨read, hread, hget⟩
      · rw [hsame] at hlookup
        exact ih hlookup
      · rw [hget] at hlookup
        rcases Ledger.lookup_insert_eq_some.mp hlookup with ⟨-, rfl⟩ | ⟨-, hbefore⟩
        · rw [MemoryEntry.accessed, ih hread]
          norm_num
        · exact ih hbefore
    | remove s other =>
      rw [remove, removeInternal_entries] at hlookup
      exact ih (Ledger.lookup_erase_eq_some.mp hlookup).2

section

variable {q : Rounding} {order : EntryOrder (Extended ℝ)} {now : Nat}
  {s : MemoryStore (Extended ℝ)} {query : List (Extended ℝ)} {maxMemories : Nat}

theorem recencyBoost_mem (now : Nat) (entry : MemoryEntry (Extended ℝ)) :
    ∃ a : ℝ, recencyBoost q now entry = fin a ∧ 0 ≤ a ∧ a ≤ 1 := by
  have hhour : q.lit 3600 = fin 3600 := by
    have hcast := q.round_natCast 3600 (by norm_num)
    simpa [Rounding.lit, Extended.ofRat] using hcast
  have hage : 0 ≤ q.round (fin ((now - entry.createdAt : ℕ) : ℝ)) :=
    Rounding.round_nonneg (Extended.zero_le_fin.mpr (Nat.cast_nonneg _))
  have hratio := Rounding.round_nonneg (q := q)
    (Extended.div_nonneg hage (show (0 : ℝ) < 3600 by norm_num))
  have hsum : 1 ≤ q.add 1 (q.div (q.round (fin ((now - entry.createdAt : ℕ) : ℝ))) (q.lit 3600)) := by
    rw [hhour]
    exact Rounding.isFloat_one.le_add (Extended.zero_le_fin.mpr zero_le_one) hratio
      (Extended.fin_le_fin.mpr le_rfl)
  obtain ⟨hlow, hhigh⟩ := Extended.one_div_mem hsum
  exact Extended.exists_fin_of_le (Rounding.round_nonneg hlow)
    (Rounding.isFloat_one.round_le hhigh)

/-- A memory of another width than the query scores by its relevance and its age. -/
theorem le_finalScore_of_width {entry : MemoryEntry (Extended ℝ)}
    (hrelevance : entry.relevanceScore = 1) (hwidth : entry.vector.length ≠ query.length) :
    fin ((1 / 2) ^ 3) ≤ finalScore q now query entry := by
  obtain ⟨a, ha, halow, -⟩ := Rounding.lit_mem (q := q) (r := 7 / 10) (k := 1) (by norm_num)
    (by norm_num) (by norm_num)
  obtain ⟨b, hb, hblow, -⟩ := Rounding.lit_mem (q := q) (r := 1 / 5) (k := 3) (by norm_num)
    (by norm_num) (by norm_num)
  obtain ⟨c, hc, hclow, -⟩ := Rounding.lit_mem (q := q) (r := 1 / 10) (k := 4) (by norm_num)
    (by norm_num) (by norm_num)
  obtain ⟨e, he, helow, -⟩ := recencyBoost_mem (q := q) now entry
  have hbpos : 0 ≤ b := le_trans (by norm_num) hblow
  have hfloat : q.IsFloat (fin ((1 / 2) ^ 3)) := Rounding.isFloat_halfPow (by norm_num)
  have hrel : fin ((1 / 2) ^ 3) ≤ q.mul 1 (fin b) := by
    apply hfloat.le_round
    have hmul : (1 : Extended ℝ) * fin b = fin b := congrArg fin (one_mul b)
    rw [hmul]
    exact Extended.fin_le_fin.mpr hblow
  have hrelpos : 0 ≤ q.mul 1 (fin b) :=
    Extended.le_trans (Extended.zero_le_fin.mpr (by norm_num)) hrel
  have hage : 0 ≤ q.mul (fin e) (fin c) :=
    Rounding.round_nonneg (Extended.zero_le_fin.mpr (mul_nonneg helow (le_trans (by norm_num) hclow)))
  rw [finalScore, cosineSimilarity, if_pos (.inl hwidth), hrelevance, q.lit_one, ha, hb, hc, he]
  simp only [q.zero_mul_fin]
  have hzero : (0 : Extended ℝ) ≤ 0 := Extended.zero_le_fin.mpr le_rfl
  exact hfloat.le_add (Rounding.add_nonneg hzero hrelpos) hage
    (hfloat.le_add_right hzero hrelpos hrel)

theorem mem_rated {memory : MemoryEntry (Extended ℝ) × Extended ℝ}
    (hmem : memory ∈ rated q order now s query) :
    (∃ key, s.entries.lookup key = some memory.1) ∧
      memory.2 = finalScore q now query memory.1 := by
  obtain ⟨entry, hentry, rfl⟩ := List.mem_map.mp hmem
  obtain ⟨cell, hcell, rfl⟩ := List.mem_map.mp (List.mem_filter.mp hentry).1
  exact ⟨⟨cell.1, mem_arrange.mp hcell⟩, rfl⟩

/-! ### The width -/

variable (q query) in
/-- The first of the ranked memories has the query's width, or none of the first one's counts. -/
def FirstFits (ranked : List (MemoryEntry (Extended ℝ) × Extended ℝ)) : Prop :=
  ∀ first ∈ ranked.head?, first.1.vector.length = query.length ∨
    ∀ memory ∈ ranked, ¬ Counts q first.1.vector.length memory.1

theorem Reachable.injection_fits_iff (hreachable : Reachable s) (sort : SortBy Higher)
    (alpha : Extended ℝ) :
    (∀ v, s.buildInjectionVector q sort order now query maxMemories alpha = some v →
      v.length = query.length) ↔
    FirstFits q query (scored q sort order now s query maxMemories) := by
  have hscore : ∀ memory ∈ scored q sort order now s query maxMemories,
      memory.1.vector.length ≠ query.length → fin ((1 / 2) ^ 3) ≤ memory.2 := by
    intro memory hmem hwidth
    obtain ⟨⟨key, hlookup⟩, hvalue⟩ :=
      mem_rated ((sort.perm _).mem_iff.mp (List.mem_of_mem_take hmem))
    rw [hvalue]
    exact le_finalScore_of_width (hreachable.relevanceScore hlookup) hwidth
  rw [buildInjectionVector, FirstFits]
  cases hranked : scored q sort order now s query maxMemories with
  | nil => simp
  | cons first rest =>
    rw [hranked] at hscore
    have hlength : ((first :: rest).foldl (accumulate q first.1.vector.length)
        (List.replicate first.1.vector.length 0, 0)).1.length = first.1.vector.length :=
      length_foldl_accumulate (first :: rest) (by simp)
    simp only [List.head?_cons, Option.mem_some_iff, forall_eq']
    by_cases hwidth : first.1.vector.length = query.length
    · refine iff_of_true (fun v hv => ?_) (.inl hwidth)
      obtain ⟨-, hv⟩ := Option.ite_none_right_eq_some.mp hv
      rw [← Option.some.inj hv, List.length_map, hlength, hwidth]
    · have hlow : ∀ memory ∈ first :: rest, Counts q first.1.vector.length memory.1 →
          fin ((1 / 2) ^ 3) ≤ memory.2 :=
        fun memory hmem hcounts => hscore memory hmem (hcounts.1 ▸ hwidth)
      rw [or_iff_right hwidth]
      constructor
      · intro hfits memory hmem hcounts
        apply hwidth
        have hzero : (0 : Extended ℝ) ≤ (List.replicate first.1.vector.length (0 : Extended ℝ),
            (0 : Extended ℝ)).2 := Extended.zero_le_fin.mpr le_rfl
        have hweight := le_weight_foldl_accumulate (Rounding.isFloat_halfPow (by norm_num))
          (Extended.zero_le_fin.mpr (by norm_num)) hlow hzero (.inr ⟨memory, hmem, hcounts⟩)
        have hpos := Extended.lt_of_lt_of_le
          (Extended.zero_lt_fin.mpr (show (0 : ℝ) < (1 / 2) ^ 3 by norm_num)) hweight
        have hv := hfits _ (if_pos hpos)
        rwa [List.length_map, hlength] at hv
      · intro hnone v hv
        rw [foldl_accumulate_of_none hnone] at hv
        obtain ⟨hweight, -⟩ := Option.ite_none_right_eq_some.mp hv
        exact absurd hweight (Extended.lt_asymm' · hweight)

end

/-- One memory's score is higher than another's. -/
def Outranks (q : Rounding) (now : Nat) (query : List (Extended ℝ))
    (a b : MemoryEntry (Extended ℝ)) : Prop :=
  finalScore q now query b < finalScore q now query a

/-- What has to hold of the unexpired memories. Where their scores order them: if one that none
precedes, by score or by place, has another width than the query, then none of its width that counts
has fewer than `maxMemories` before it. Where they do not, as with `nan` among them: none of another
width counts. -/
structure Fitting (q : Rounding) (now : Nat) (query : List (Extended ℝ)) (maxMemories : Nat)
    (memories : List (MemoryEntry (Extended ℝ))) : Prop where
  ordered : Consistent (Outranks q now query) memories →
    ∀ first other : Fin memories.length, rank (Outranks q now query) memories first = 0 →
    rank (Outranks q now query) memories other < maxMemories →
    Counts q memories[first].vector.length memories[other] →
    memories[first].vector.length = query.length
  unordered : ¬ Consistent (Outranks q now query) memories → 0 < maxMemories →
    ∀ memory ∈ memories, Counts q memory.vector.length memory → memory.vector.length = query.length

section

variable {q : Rounding} {order : EntryOrder (Extended ℝ)} {now : Nat}
  {s : MemoryStore (Extended ℝ)} {query : List (Extended ℝ)} {maxMemories : Nat}

/-- Memories that their scores order are sorted by their ranks. -/
theorem exists_sort_rated (hmemories : Consistent (Outranks q now query) (liveMemories order now s))
    (sort : SortBy Higher) : ∃ places : List (Fin (liveMemories order now s).length),
      Ranks (Outranks q now query) (liveMemories order now s) places ∧
      sort.sort (rated q order now s query) = places.map fun i =>
        ((liveMemories order now s)[i], finalScore q now query (liveMemories order now s)[i]) :=
  sort.sorted_map (fun entry => (entry, finalScore q now query entry)) hmemories

theorem firstFits_scored_iff
    (hmemories : Consistent (Outranks q now query) (liveMemories order now s))
    (sort : SortBy Higher) :
    FirstFits q query (scored q sort order now s query maxMemories) ↔
    ∀ first other : Fin (liveMemories order now s).length,
      rank (Outranks q now query) (liveMemories order now s) first = 0 →
      rank (Outranks q now query) (liveMemories order now s) other < maxMemories →
      Counts q (liveMemories order now s)[first].vector.length (liveMemories order now s)[other] →
      (liveMemories order now s)[first].vector.length = query.length := by
  obtain ⟨places, hranks, hsorted⟩ := exists_sort_rated hmemories sort
  rw [FirstFits, scored, hsorted, ← List.map_take]
  constructor
  · intro hfits first other hfirst hother hcounts
    have hhead : (places.take maxMemories).head? = some first := by
      rw [List.head?_take, if_neg (Nat.ne_of_gt (Nat.zero_lt_of_lt hother)),
        hranks.head?_eq_some_iff hmemories]
      exact hfirst
    have hmem := (hranks.mem_take_iff hmemories).mpr hother
    rw [List.head?_map, hhead] at hfits
    exact (hfits _ rfl).resolve_right fun hnone =>
      hnone _ (List.mem_map_of_mem hmem) hcounts
  · intro hwidth first hfirst
    rw [List.head?_map] at hfirst
    obtain ⟨i, hi, rfl⟩ := Option.map_eq_some_iff.mp hfirst
    have hleads : rank (Outranks q now query) (liveMemories order now s) i = 0 := by
      rw [← hranks.head?_eq_some_iff hmemories]
      rw [List.head?_take] at hi
      exact (Option.ite_none_left_eq_some.mp hi).2
    rw [or_iff_not_imp_right]
    intro hsome
    push Not at hsome
    obtain ⟨memory, hmem, hcounts⟩ := hsome
    obtain ⟨j, hj, rfl⟩ := List.mem_map.mp hmem
    exact hwidth i j hleads ((hranks.mem_take_iff hmemories).mp hj) hcounts

theorem Reachable.injection_width_iff (hreachable : Reachable s) (alpha : Extended ℝ) :
    (∀ sort v, s.buildInjectionVector q sort order now query maxMemories alpha = some v →
      v.length = query.length) ↔ Fitting q now query maxMemories (liveMemories order now s) := by
  simp only [hreachable.injection_fits_iff]
  by_cases hmemories : Consistent (Outranks q now query) (liveMemories order now s)
  · obtain ⟨sort⟩ := StableSort.exists_sortBy Higher
    constructor
    · intro hall
      exact ⟨fun _ => (firstFits_scored_iff hmemories sort).mp (hall sort),
        fun hnot => absurd hmemories hnot⟩
    · intro hfitting sort
      exact (firstFits_scored_iff hmemories sort).mpr (hfitting.ordered hmemories)
  · have hrated : ¬ Consistent Higher (rated q order now s query) :=
      fun h => hmemories (StableSort.consistent_of_map
        (fun entry => (entry, finalScore q now query entry)) h)
    constructor
    · intro hall
      refine ⟨fun h => absurd h hmemories, fun _ hpos memory hmem hcounts => ?_⟩
      -- A sort that puts this memory first.
      have hpair : (memory, finalScore q now query memory) ∈ rated q order now s query :=
        List.mem_map_of_mem hmem
      obtain ⟨before, after, hsplit⟩ := List.append_of_mem hpair
      have hperm : ((memory, finalScore q now query memory) :: (before ++ after)).Perm
          (rated q order now s query) := by
        rw [hsplit]
        exact List.perm_middle.symm
      obtain ⟨sort, hsort⟩ := StableSort.exists_sortBy_eq hrated hperm
      obtain ⟨n, rfl⟩ := Nat.exists_eq_succ_of_ne_zero hpos.ne'
      have hscored : scored q sort order now s query (n + 1) =
          (memory, finalScore q now query memory) :: (before ++ after).take n := by
        rw [scored, hsort, List.take_succ_cons]
      have hfits := hall sort
      rw [hscored] at hfits
      exact (hfits _ rfl).resolve_right fun hnone => hnone _ List.mem_cons_self hcounts
    · intro hfitting sort first hfirst
      rw [or_iff_not_imp_right]
      intro hsome
      push Not at hsome
      obtain ⟨memory, hmem, hcounts⟩ := hsome
      have hpos : 0 < maxMemories := by
        by_contra hzero
        obtain rfl : maxMemories = 0 := by omega
        rw [scored, List.take_zero] at hmem
        cases hmem
      obtain ⟨entry, hentry, rfl⟩ :=
        List.mem_map.mp ((sort.perm _).mem_iff.mp (List.mem_of_mem_take hmem))
      rw [← hcounts.1]
      exact hfitting.unordered hmemories hpos entry hentry ⟨rfl, hcounts.2⟩

end

section

open Rounding (float32)

section

variable {q : Rounding} {now : Nat} {query : List (Extended ℝ)}
  {memories : List (MemoryEntry (Extended ℝ))} {score : Extended ℝ}

end

noncomputable def narrowMemory : MemoryEntry (Extended ℝ) := newEntry 0 "old" [1] chatMetadata {}

end

/-- What the hook adds to the residual stream has its width under the same condition. -/
theorem residualDelta_width {q : Rounding} {sort : SortBy Higher}
    {order : EntryOrder (Extended ℝ)} {now : Nat} {s : MemoryStore (Extended ℝ)}
    (hreachable : Reachable s) {hook : MemoryInjectHook} {layerIdx : Nat}
    {hidden delta : List (Extended ℝ)}
    (hfitting : Fitting q now hidden hook.maxMemories (liveMemories order now s))
    (hdelta : residualDelta q hook sort order now s layerIdx hidden = some delta) :
    delta.length = hidden.length := by
  rw [residualDelta] at hdelta
  obtain ⟨-, hbuilt⟩ := Option.ite_none_left_eq_some.mp hdelta
  exact (hreachable.injection_width_iff hook.alpha).mpr hfitting sort delta hbuilt

end Zllm.Engine.MemoryStore
