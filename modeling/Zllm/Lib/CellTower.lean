import Zllm.Lib.CausalTower

/-!
# A causal tower over a store of cells

Rows of several streams go through one tower, and the entries of all streams lie in one store, where
each stream has a cell for each of its positions. A batch takes all rows through one layer after
another; the rows can also go through the whole tower one after the other. What separates the two is
only whether a row's cell is one that an earlier row still reads.
-/

namespace Zllm.CellTower

open CausalTower Function

/-- A row at `pos` of a stream that is kept at `place`. -/
structure Fed (Cell Row : Type) where
  pos : ℕ
  place : ℕ → Cell
  row : Row

variable {Row Entry Cell : Type}

namespace Fed

/-- Where the row's own entry goes. -/
def cell (f : Fed Cell Row) : Cell := f.place f.pos

def withRow (f : Fed Cell Row) (x : Row) : Fed Cell Row := { f with row := x }

/-- The row's cell is none of those before it. -/
def Fresh (f : Fed Cell Row) : Prop := ∀ t < f.pos, f.place t ≠ f.cell

/-- The later row does not write what the earlier one reads. -/
def Before (f g : Fed Cell Row) : Prop := ∀ t ≤ f.pos, g.cell ≠ f.place t

theorem Before.cell_ne {f g : Fed Cell Row} (hbefore : f.Before g) : f.cell ≠ g.cell :=
  (hbefore f.pos le_rfl).symm

end Fed

variable [DecidableEq Cell] (layer : ℕ → CausalLayer Row Entry)

/-! ### Row by row -/

/-- The row alone through the first `depth` layers. -/
def rowPass (depth : ℕ) (f : Fed Cell Row) (store : ℕ → Cell → Entry) :
    (ℕ → Cell → Entry) × Fed Cell Row :=
  let s := tokenPass layer f.pos (fun l t => store l (f.place t), f.row) depth
  (fun l => update (store l) f.cell (s.1 l f.pos), f.withRow s.2)

def rowRun (depth : ℕ) : List (Fed Cell Row) → (ℕ → Cell → Entry) →
    (ℕ → Cell → Entry) × List (Fed Cell Row)
  | [], store => (store, [])
  | f :: rest, store =>
    let s := rowPass layer depth f store
    let t := rowRun depth rest s.1
    (t.1, s.2 :: t.2)

/-! ### Layer by layer -/

/-- The layer's cells once all entries are stored. -/
def storeEntries (l : ℕ) (feds : List (Fed Cell Row)) (cells : Cell → Entry) : Cell → Entry :=
  feds.foldl (fun cells f => update cells f.cell ((layer l).entry f.pos f.row)) cells

/-- All entries first, then all rows. -/
def batchLayer (l : ℕ) (s : (ℕ → Cell → Entry) × List (Fed Cell Row)) :
    (ℕ → Cell → Entry) × List (Fed Cell Row) :=
  let cells := storeEntries layer l s.2 (s.1 l)
  (update s.1 l cells,
    s.2.map fun f => f.withRow ((layer l).out f.pos (fun t => cells (f.place t)) f.row))

def batchPass (s : (ℕ → Cell → Entry) × List (Fed Cell Row)) :
    ℕ → (ℕ → Cell → Entry) × List (Fed Cell Row)
  | 0 => s
  | l + 1 => batchLayer layer l (batchPass s l)

variable {layer}

theorem storeEntries_of_ne {l : ℕ} {feds : List (Fed Cell Row)} {cells : Cell → Entry} {c : Cell}
    (hc : ∀ f ∈ feds, f.cell ≠ c) : storeEntries layer l feds cells c = cells c := by
  induction feds generalizing cells with
  | nil => rfl
  | cons f rest ih =>
    rw [List.forall_mem_cons] at hc
    exact (ih hc.2).trans (update_of_ne hc.1.symm _ _)

theorem storeEntries_cell {l : ℕ} {feds : List (Fed Cell Row)} {cells : Cell → Entry}
    (hdistinct : feds.Pairwise fun f g => f.cell ≠ g.cell) {f : Fed Cell Row} (hf : f ∈ feds) :
    storeEntries layer l feds cells f.cell = (layer l).entry f.pos f.row := by
  induction feds generalizing cells with
  | nil => cases hf
  | cons g rest ih =>
    rw [List.pairwise_cons] at hdistinct
    rcases List.mem_cons.mp hf with rfl | hf
    · have hlast : storeEntries layer l (f :: rest) cells f.cell =
          update cells f.cell ((layer l).entry f.pos f.row) f.cell :=
        storeEntries_of_ne fun g hg => (hdistinct.1 g hg).symm
      rw [hlast, update_self]
    · exact ih hdistinct.2 hf

/-- What has stored an entry for each row, left everything else and taken the rows on is a layer's
work on the batch. -/
theorem batchLayer_of {l : ℕ} {store store' : ℕ → Cell → Entry} {feds feds' : List (Fed Cell Row)}
    (hdistinct : feds.Pairwise fun f g => f.cell ≠ g.cell)
    (hentry : ∀ f ∈ feds, store' l f.cell = (layer l).entry f.pos f.row)
    (hkept : ∀ c, (∀ f ∈ feds, f.cell ≠ c) → store' l c = store l c)
    (hother : ∀ l' ≠ l, store' l' = store l')
    (hout : feds' = feds.map fun f =>
      f.withRow ((layer l).out f.pos (fun t => store' l (f.place t)) f.row)) :
    (store', feds') = batchLayer layer l (store, feds) := by
  have hcells : store' l = storeEntries layer l feds (store l) := by
    funext c
    by_cases hc : ∃ f ∈ feds, f.cell = c
    · obtain ⟨f, hf, rfl⟩ := hc
      rw [hentry f hf, storeEntries_cell hdistinct hf]
    · have hne : ∀ f ∈ feds, f.cell ≠ c := fun f hf heq => hc ⟨f, hf, heq⟩
      rw [hkept c hne, storeEntries_of_ne hne]
  refine Prod.ext (eq_update_iff.mpr ⟨hcells, hother⟩) ?_
  rw [hcells] at hout
  exact hout

/-! ### A pass through fewer layers leaves the others alone -/

theorem tokenPass_above {pos k l : ℕ} (s : (ℕ → ℕ → Entry) × Row) (hl : k ≤ l) :
    (tokenPass layer pos s k).1 l = s.1 l := by
  induction k with
  | zero => rfl
  | succ k ih => exact (update_of_ne (by omega) _ _).trans (ih (by omega))

theorem tokenPass_update {pos k l : ℕ} (s : (ℕ → ℕ → Entry) × Row) (cache : ℕ → Entry)
    (hl : k ≤ l) :
    tokenPass layer pos (update s.1 l cache, s.2) k =
      (update (tokenPass layer pos s k).1 l cache, (tokenPass layer pos s k).2) := by
  induction k with
  | zero => rfl
  | succ k ih =>
    have hne : k ≠ l := by omega
    rw [tokenPass, ih (by omega), tokenLayer]
    simp only [update_of_ne hne]
    rw [update_comm hne.symm]
    rfl

section Run

variable {k l : ℕ} {f : Fed Cell Row} {store : ℕ → Cell → Entry}

theorem rowPass_above (hl : k ≤ l) : (rowPass layer k f store).1 l = store l := by
  show update (store l) f.cell ((tokenPass layer f.pos _ k).1 l f.pos) = store l
  rw [tokenPass_above _ hl]
  exact update_eq_self _ _

theorem rowPass_update (cells : Cell → Entry) (hl : k ≤ l) :
    rowPass layer k f (update store l cells) =
      (update (rowPass layer k f store).1 l cells, (rowPass layer k f store).2) := by
  have hview : (fun l' t => update store l cells l' (f.place t)) =
      update (fun l' t => store l' (f.place t)) l fun t => cells (f.place t) := by
    funext l' t
    by_cases heq : l' = l
    · rw [heq, update_self, update_self]
    · rw [update_of_ne heq, update_of_ne heq]
  have hpass : tokenPass layer f.pos _ k = _ :=
    tokenPass_update (fun l' t => store l' (f.place t), f.row) (fun t => cells (f.place t)) hl
  rw [← hview] at hpass
  have hfst : (rowPass layer k f (update store l cells)).1 l = cells := by
    rw [rowPass_above hl, update_self]
  refine Prod.ext (eq_update_iff.mpr ⟨hfst, fun l' hne => ?_⟩) ?_
  · simp only [rowPass, hpass, update_of_ne hne]
  · simp only [rowPass, hpass]

theorem rowRun_above (hl : k ≤ l) (feds : List (Fed Cell Row)) :
    (rowRun layer k feds store).1 l = store l := by
  induction feds generalizing store with
  | nil => rfl
  | cons f rest ih => exact ih.trans (rowPass_above hl)

theorem rowRun_update (cells : Cell → Entry) (hl : k ≤ l) (feds : List (Fed Cell Row)) :
    rowRun layer k feds (update store l cells) =
      (update (rowRun layer k feds store).1 l cells, (rowRun layer k feds store).2) := by
  induction feds generalizing store with
  | nil => rfl
  | cons f rest ih => rw [rowRun, rowPass_update cells hl, ih, rowRun]

theorem rowRun_zero (feds : List (Fed Cell Row)) : rowRun layer 0 feds store = (store, feds) := by
  induction feds generalizing store with
  | nil => rfl
  | cons f rest ih =>
    have hpass : rowPass layer 0 f store = (store, f) :=
      Prod.ext (funext fun l => rowPass_above (Nat.zero_le l)) rfl
    rw [rowRun, hpass, ih]

/-! ### One layer more -/

/-- The next layer finds its own cells as they were, and the row as far as it has come. -/
theorem rowPass_succ (hfresh : f.Fresh) :
    let s := rowPass layer k f store
    let cells := update (store k) f.cell ((layer k).entry f.pos s.2.row)
    rowPass layer (k + 1) f store = (update s.1 k cells,
      f.withRow ((layer k).out f.pos (fun t => cells (f.place t)) s.2.row)) := by
  intro s cells
  set view : ℕ → ℕ → Entry := fun l t => store l (f.place t) with hview
  set p := tokenPass layer f.pos (view, f.row) k with hp
  have hstored : p.1 k = view k := tokenPass_above _ le_rfl
  refine Prod.ext ?_ ?_
  · refine eq_update_iff.mpr ⟨?_, fun l hne => ?_⟩
    · show update (store k) f.cell (update p.1 k _ k f.pos) = _
      rw [update_self, update_self]
      rfl
    · show update (store l) f.cell (update p.1 k _ l f.pos) = _
      rw [update_of_ne hne]
      rfl
  · refine congrArg f.withRow ((layer k).causal f.pos _ _ _ fun t ht => ?_)
    rw [← hp]
    show update (p.1 k) f.pos _ t = update (store k) f.cell _ (f.place t)
    rcases eq_or_lt_of_le ht with rfl | hlt
    · rw [update_self]
      exact (update_self f.cell _ (store k)).symm
    · rw [update_of_ne hlt.ne, update_of_ne (hfresh t hlt), hstored]

/-- A run takes the rows on, and leaves them where they are. -/
theorem mem_rowRun {g : Fed Cell Row} {feds : List (Fed Cell Row)}
    (hg : g ∈ (rowRun layer k feds store).2) : ∃ f ∈ feds, ∃ x, g = f.withRow x := by
  induction feds generalizing store with
  | nil => cases hg
  | cons f rest ih =>
    rw [rowRun, List.mem_cons] at hg
    rcases hg with rfl | hg
    · exact ⟨f, List.mem_cons_self, _, rfl⟩
    · obtain ⟨f', hf', hx⟩ := ih hg
      exact ⟨f', List.mem_cons_of_mem _ hf', hx⟩

/-- Rows that went one layer less deep, and then all through that layer at once. -/
theorem rowRun_succ {feds : List (Fed Cell Row)} (hfresh : ∀ f ∈ feds, f.Fresh)
    (hbefore : feds.Pairwise Fed.Before) :
    rowRun layer (k + 1) feds store = batchLayer layer k (rowRun layer k feds store) := by
  induction feds generalizing store with
  | nil => exact Prod.ext (update_eq_self k store).symm rfl
  | cons f rest ih =>
    rw [List.forall_mem_cons] at hfresh
    rw [List.pairwise_cons] at hbefore
    obtain ⟨s, hs⟩ : ∃ s, s = rowPass layer k f store := ⟨_, rfl⟩
    obtain ⟨t, ht⟩ : ∃ t, t = rowRun layer k rest s.1 := ⟨_, rfl⟩
    set first := update (store k) f.cell ((layer k).entry f.pos s.2.row) with hfirst
    have hnext : rowPass layer (k + 1) f store = (update s.1 k first,
        f.withRow ((layer k).out f.pos (fun i => first (f.place i)) s.2.row)) := by
      rw [hfirst, hs]
      exact rowPass_succ hfresh.1
    have hrun : rowRun layer k (f :: rest) store = (t.1, s.2 :: t.2) := by
      rw [rowRun, ← hs, ← ht]
    have hkept : t.1 k = store k := by
      rw [ht, rowRun_above le_rfl, hs, rowPass_above le_rfl]
    -- The entries of the rows after `f` are none that it reads.
    have hread : ∀ i ≤ f.pos, storeEntries layer k t.2 first (f.place i) = first (f.place i) := by
      intro i hi
      refine storeEntries_of_ne fun g hg => ?_
      rw [ht] at hg
      obtain ⟨g', hg', x, rfl⟩ := mem_rowRun hg
      exact hbefore.1 g' hg' i hi
    have hcells : storeEntries layer k (s.2 :: t.2) (t.1 k) = storeEntries layer k t.2 first := by
      rw [hkept, hfirst, hs]
      rfl
    have hout : (layer k).out f.pos (fun i => first (f.place i)) s.2.row =
        (layer k).out f.pos (fun i => storeEntries layer k t.2 first (f.place i)) s.2.row :=
      (layer k).causal f.pos _ _ _ fun i hi => (hread i hi).symm
    rw [rowRun, hnext, hrun]
    dsimp only
    rw [ih hfresh.2 hbefore.2, rowRun_update _ le_rfl, ← ht, batchLayer, batchLayer, hcells]
    dsimp only
    rw [update_self, update_idem, List.map_cons, hout, hs]
    rfl

/-- Where no row writes what an earlier row reads, the batch leaves the store and the rows that the
rows one after the other leave. -/
theorem batchPass_eq_rowRun {feds : List (Fed Cell Row)} (hfresh : ∀ f ∈ feds, f.Fresh)
    (hbefore : feds.Pairwise Fed.Before) (depth : ℕ) :
    batchPass layer (store, feds) depth = rowRun layer depth feds store := by
  induction depth with
  | zero => exact (rowRun_zero feds).symm
  | succ depth ih => rw [batchPass, ih, rowRun_succ hfresh hbefore]

end Run

end Zllm.CellTower
