import Mathlib.Logic.Function.Basic
import Mathlib.Order.Basic
import Mathlib.Tactic

/-!
# Causal towers

A tower of layers, each with a cache. A row at a position stores an entry in the layer's cache and
then reads the entries of its own and of earlier positions only. One position at a time through the
whole tower, or a tile of positions through one layer after another: both fill the caches with one
trace, which is fixed by the rows fed in and by the entries that were there before.
-/

namespace Zllm

/-- What a layer stores for a row, and what it makes of the row and the cache. -/
structure CausalLayer (Row Entry : Type) where
  entry : ℕ → Row → Entry
  out : ℕ → (ℕ → Entry) → Row → Row
  causal : ∀ pos cache cache' row, (∀ i ≤ pos, cache i = cache' i) →
    out pos cache row = out pos cache' row

namespace CausalTower

variable {Row Entry : Type} (layer : ℕ → CausalLayer Row Entry)

/-! ### Two orders of work -/

/-- The row at `pos` through layer `l`. -/
def tokenLayer (pos l : ℕ) (s : (ℕ → ℕ → Entry) × Row) : (ℕ → ℕ → Entry) × Row :=
  let cache := Function.update (s.1 l) pos ((layer l).entry pos s.2)
  (Function.update s.1 l cache, (layer l).out pos cache s.2)

/-- The row at `pos` through the first `depth` layers. -/
def tokenPass (pos : ℕ) (s : (ℕ → ℕ → Entry) × Row) : ℕ → (ℕ → ℕ → Entry) × Row
  | 0 => s
  | l + 1 => tokenLayer layer pos l (tokenPass pos s l)

/-- A tile of `m` rows, the first at `pos`, through layer `l`: all entries first, then all rows. -/
def tileLayer (pos m l : ℕ) (s : (ℕ → ℕ → Entry) × (ℕ → Row)) :
    (ℕ → ℕ → Entry) × (ℕ → Row) :=
  let cache := fun i => if pos ≤ i ∧ i < pos + m then (layer l).entry i (s.2 (i - pos)) else s.1 l i
  (Function.update s.1 l cache,
    fun r => if r < m then (layer l).out (pos + r) cache (s.2 r) else s.2 r)

def tilePass (pos m : ℕ) (s : (ℕ → ℕ → Entry) × (ℕ → Row)) : ℕ → (ℕ → ℕ → Entry) × (ℕ → Row)
  | 0 => s
  | l + 1 => tileLayer layer pos m l (tilePass pos m s l)

/-- What has stored the row's entry, left the other caches and taken the row on is a layer's work.
-/
theorem tokenLayer_of {pos l : ℕ} {caches caches' : ℕ → ℕ → Entry} {x x' : Row}
    (hentry : caches' l = Function.update (caches l) pos ((layer l).entry pos x))
    (hother : ∀ l' ≠ l, caches' l' = caches l') (hout : x' = (layer l).out pos (caches' l) x) :
    (caches', x') = tokenLayer layer pos l (caches, x) := by
  refine Prod.ext (Function.eq_update_iff.mpr ⟨hentry, hother⟩) ?_
  rw [hentry] at hout
  exact hout

/-- Rows at `pos`, `pos + 1`, .. one after the other, each through the whole tower. -/
def tokenRun (depth : ℕ) : ℕ → (ℕ → ℕ → Entry) → List Row → (ℕ → ℕ → Entry) × List Row
  | _, caches, [] => (caches, [])
  | pos, caches, row :: rest =>
    let s := tokenPass layer pos (caches, row) depth
    let t := tokenRun depth (pos + 1) s.1 rest
    (t.1, s.2 :: t.2)

/-! ### Layers in a list -/

section Sweep

variable {W S : Type} (step : ℕ → W → S → S)

/-- A step for each element and its index, the first index being `l`. -/
def sweep : ℕ → List W → S → S
  | _, [], s => s
  | l, w :: rest, s => sweep (l + 1) rest (step l w s)

/-- Two sweeps over one list that go side by side. -/
theorem sweep_simulation {T : Type} (step' : ℕ → W → T → T) (R : ℕ → S → T → Prop) (ws : List W)
    {l : ℕ} {s : S} {t : T} (hstart : R l s t)
    (hstep : ∀ i w s t, ws[i]? = some w → R (l + i) s t →
      R (l + i + 1) (step (l + i) w s) (step' (l + i) w t)) :
    R (l + ws.length) (sweep step l ws s) (sweep step' l ws t) := by
  induction ws generalizing l s t with
  | nil => exact hstart
  | cons w rest ih =>
    rw [sweep, sweep, List.length_cons, show l + (rest.length + 1) = l + 1 + rest.length by omega]
    refine ih (hstep 0 w s t rfl hstart) fun i w' s' t' hw' hs' => ?_
    have hnext := hstep (i + 1) w' s' t' hw'
    rw [show l + (i + 1) = l + 1 + i by omega] at hnext
    exact hnext hs'

/-- What each step carries from one index to the next, a sweep carries from end to end. -/
theorem sweep_induction (P : ℕ → S → Prop) (ws : List W) {l : ℕ} {s : S} (hstart : P l s)
    (hstep : ∀ i w s, ws[i]? = some w → P (l + i) s → P (l + i + 1) (step (l + i) w s)) :
    P (l + ws.length) (sweep step l ws s) :=
  sweep_simulation step step (fun i s _ => P i s) ws (t := s) hstart fun i w s _ => hstep i w s

end Sweep

/-! ### The trace of a stream of rows -/

section Trace

variable (start : ℕ) (init : ℕ → ℕ → Entry) (rows : ℕ → Row)

/-- The row at each position before each layer, the caches holding `init` below `start`. -/
def trace : ℕ → ℕ → Row
  | 0 => rows
  | l + 1 => fun i =>
    (layer l).out i (fun j => if j < start then init l j else (layer l).entry j (trace l j))
      (trace l i)

/-- What layer `l` holds at each position. -/
def traceEntry (l i : ℕ) : Entry :=
  if i < start then init l i else (layer l).entry i (trace layer start init rows l i)

theorem trace_succ (l i : ℕ) :
    trace layer start init rows (l + 1) i =
      (layer l).out i (traceEntry layer start init rows l) (trace layer start init rows l i) :=
  rfl

/-- The trace at a position depends on the rows up to it. -/
theorem trace_congr {rows' : ℕ → Row} {n : ℕ} (hrows : ∀ i < n, rows i = rows' i) (l : ℕ) :
    ∀ i < n, trace layer start init rows l i = trace layer start init rows' l i := by
  induction l with
  | zero => exact hrows
  | succ l ih =>
    intro i hi
    rw [trace_succ, trace_succ, ih i hi]
    refine (layer l).causal i _ _ _ fun j hj => ?_
    rw [traceEntry, traceEntry, ih j (hj.trans_lt hi)]

theorem traceEntry_congr {rows' : ℕ → Row} {n : ℕ} (hrows : ∀ i < n, rows i = rows' i) (l : ℕ) :
    ∀ i < n, traceEntry layer start init rows l i = traceEntry layer start init rows' l i := by
  intro i hi
  rw [traceEntry, traceEntry, trace_congr layer start init rows hrows l i hi]

/-- The caches of the first `depth` layers hold the trace below `n`. -/
def Follows (depth n : ℕ) (caches : ℕ → ℕ → Entry) : Prop :=
  ∀ l < depth, ∀ i < n, caches l i = traceEntry layer start init rows l i

theorem follows_start (depth : ℕ) : Follows layer start init rows depth start init := by
  intro l _ i hi
  rw [traceEntry, if_pos hi]

/-- A stream from position zero has nothing to agree on yet. -/
theorem follows_zero (depth : ℕ) (caches : ℕ → ℕ → Entry) :
    Follows layer 0 init rows depth 0 caches :=
  fun _ _ _ hi => absurd hi (Nat.not_lt_zero _)

variable {layer start init rows} {depth n : ℕ} {caches : ℕ → ℕ → Entry}

theorem Follows.mono {n' : ℕ} (hfollows : Follows layer start init rows depth n caches)
    (hn : n' ≤ n) : Follows layer start init rows depth n' caches :=
  fun l hl i hi => hfollows l hl i (hi.trans_le hn)

/-- Caches that follow the trace are as good as the trace up to their last position. -/
theorem Follows.out_eq {l pos : ℕ} {cache : ℕ → Entry} {row : Row}
    (hcache : ∀ i ≤ pos, cache i = traceEntry layer start init rows l i)
    (hrow : row = trace layer start init rows l pos) :
    (layer l).out pos cache row = trace layer start init rows (l + 1) pos := by
  rw [trace_succ, hrow]
  exact (layer l).causal pos _ _ _ hcache

/-- After `k` layers the row is the trace's, the first `k` caches hold one position more and the
others are as they were. -/
theorem tokenPass_layers {pos : ℕ} (hstart : start ≤ pos)
    (hfollows : Follows layer start init rows depth pos caches) {k : ℕ} (hk : k ≤ depth) :
    (tokenPass layer pos (caches, rows pos) k).2 = trace layer start init rows k pos ∧
      (∀ l < k, ∀ i ≤ pos, (tokenPass layer pos (caches, rows pos) k).1 l i =
        traceEntry layer start init rows l i) ∧
      ∀ l, k ≤ l → (tokenPass layer pos (caches, rows pos) k).1 l = caches l := by
  induction k with
  | zero => exact ⟨rfl, fun l hl => absurd hl (Nat.not_lt_zero l), fun l _ => rfl⟩
  | succ k ih =>
    obtain ⟨hrow, hdone, hrest⟩ := ih (by omega)
    set s := tokenPass layer pos (caches, rows pos) k with hs
    have hcache : ∀ i ≤ pos, Function.update (s.1 k) pos ((layer k).entry pos s.2) i =
        traceEntry layer start init rows k i := by
      intro i hi
      rcases eq_or_lt_of_le hi with rfl | hlt
      · rw [Function.update_self, hrow, traceEntry, if_neg (by omega)]
      · rw [Function.update_of_ne (by omega), hrest k le_rfl]
        exact hfollows k (by omega) i hlt
    refine ⟨?_, ?_, ?_⟩
    · exact Follows.out_eq hcache hrow
    · intro l hl i hi
      show Function.update s.1 k _ l i = _
      rcases eq_or_lt_of_le (Nat.lt_succ_iff.mp hl) with rfl | hlt
      · rw [Function.update_self]
        exact hcache i hi
      · rw [Function.update_of_ne (by omega)]
        exact hdone l hlt i hi
    · intro l hl
      show Function.update s.1 k _ l = _
      rw [Function.update_of_ne (by omega)]
      exact hrest l (by omega)

/-- One position through the tower follows the trace one position further. -/
theorem tokenPass_follows {pos : ℕ} (hstart : start ≤ pos)
    (hfollows : Follows layer start init rows depth pos caches) :
    Follows layer start init rows depth (pos + 1)
        (tokenPass layer pos (caches, rows pos) depth).1 ∧
      (tokenPass layer pos (caches, rows pos) depth).2 = trace layer start init rows depth pos := by
  obtain ⟨hrow, hdone, -⟩ := tokenPass_layers hstart hfollows le_rfl
  exact ⟨fun l hl i hi => hdone l hl i (Nat.lt_succ_iff.mp hi), hrow⟩

/-- Caches that agree below a position are as good as each other there. -/
theorem tokenPass_congr (layer : ℕ → CausalLayer Row Entry) {pos : ℕ} {caches' : ℕ → ℕ → Entry}
    (row : Row) (hcaches : ∀ l < depth, ∀ i < pos, caches l i = caches' l i) :
    (∀ l < depth, ∀ i < pos + 1, (tokenPass layer pos (caches, row) depth).1 l i =
        (tokenPass layer pos (caches', row) depth).1 l i) ∧
      (tokenPass layer pos (caches, row) depth).2 = (tokenPass layer pos (caches', row) depth).2 := by
  have hother : Follows layer pos caches (fun _ => row) depth pos caches' := by
    intro l hl i hi
    rw [traceEntry, if_pos hi, hcaches l hl i hi]
  obtain ⟨hdone, hrow⟩ := tokenPass_follows le_rfl
    (follows_start layer pos caches (fun _ => row) depth)
  obtain ⟨hdone', hrow'⟩ := tokenPass_follows le_rfl hother
  exact ⟨fun l hl i hi => (hdone l hl i hi).trans (hdone' l hl i hi).symm, hrow.trans hrow'.symm⟩

/-- The tile's first `real` rows are the stream's; what follows them in the tile is padding. -/
theorem tilePass_layers {pos m real : ℕ} {tile : ℕ → Row} (hstart : start ≤ pos) (hreal : real ≤ m)
    (htile : ∀ r < real, tile r = rows (pos + r))
    (hfollows : Follows layer start init rows depth pos caches) {k : ℕ} (hk : k ≤ depth) :
    (∀ r < real, (tilePass layer pos m (caches, tile) k).2 r =
        trace layer start init rows k (pos + r)) ∧
      (∀ l < k, ∀ i < pos + real, (tilePass layer pos m (caches, tile) k).1 l i =
        traceEntry layer start init rows l i) ∧
      ∀ l, k ≤ l → (tilePass layer pos m (caches, tile) k).1 l = caches l := by
  induction k with
  | zero => exact ⟨htile, fun l hl => absurd hl (Nat.not_lt_zero l), fun l _ => rfl⟩
  | succ k ih =>
    obtain ⟨hrows, hdone, hrest⟩ := ih (by omega)
    set s := tilePass layer pos m (caches, tile) k with hs
    have hcache : ∀ i < pos + real,
        (if pos ≤ i ∧ i < pos + m then (layer k).entry i (s.2 (i - pos)) else s.1 k i) =
          traceEntry layer start init rows k i := by
      intro i hi
      by_cases hpos : pos ≤ i
      · rw [if_pos ⟨hpos, by omega⟩, hrows (i - pos) (by omega), traceEntry, if_neg (by omega),
          Nat.add_sub_cancel' hpos]
      · rw [if_neg (by omega), hrest k le_rfl]
        exact hfollows k (by omega) i (by omega)
    refine ⟨?_, ?_, ?_⟩
    · intro r hr
      show (if r < m then _ else _) = _
      rw [if_pos (by omega)]
      exact Follows.out_eq (fun i hi => hcache i (by omega)) (hrows r hr)
    · intro l hl i hi
      show Function.update s.1 k _ l i = _
      rcases eq_or_lt_of_le (Nat.lt_succ_iff.mp hl) with rfl | hlt
      · rw [Function.update_self]
        exact hcache i hi
      · rw [Function.update_of_ne (by omega)]
        exact hdone l hlt i hi
    · intro l hl
      show Function.update s.1 k _ l = _
      rw [Function.update_of_ne (by omega)]
      exact hrest l (by omega)

/-- A tile through the tower follows the trace as far as its rows are the stream's. -/
theorem tilePass_follows {pos m real : ℕ} {tile : ℕ → Row} (hstart : start ≤ pos) (hreal : real ≤ m)
    (htile : ∀ r < real, tile r = rows (pos + r))
    (hfollows : Follows layer start init rows depth pos caches) :
    Follows layer start init rows depth (pos + real)
        (tilePass layer pos m (caches, tile) depth).1 ∧
      ∀ r < real, (tilePass layer pos m (caches, tile) depth).2 r =
        trace layer start init rows depth (pos + r) := by
  obtain ⟨hrows, hdone, -⟩ := tilePass_layers hstart hreal htile hfollows le_rfl
  exact ⟨hdone, hrows⟩

end Trace

end CausalTower

end Zllm
