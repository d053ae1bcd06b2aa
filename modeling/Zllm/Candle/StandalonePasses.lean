import Zllm.Candle.DenseRuns

/-!
# One layer at a time

The inference runner drives the layers of a candle model itself: tensors go in and out flat, every
layer is a standalone pass from an empty cache, and the list of layers may name a layer more than
once. Such a pass gives the logits that the model whose layers are that list would give in one shot.
-/

namespace Zllm.Dense

open CausalTower Tile

/-! ### Flat tensors -/

section

variable {width : ℕ} {x : List Row}

theorem flatten_cons (width : ℕ) (row : Row) (x : List Row) :
    Backend.flatten width (row :: x) = (List.range width).map row ++ Backend.flatten width x :=
  List.flatMap_cons

theorem flatten_length (width : ℕ) (x : List Row) :
    (Backend.flatten width x).length = x.length * width := by
  induction x with
  | nil => exact (Nat.zero_mul width).symm
  | cons row x ih =>
    rw [flatten_cons, List.length_append, List.length_map, List.length_range, ih, List.length_cons,
      Nat.succ_mul, Nat.add_comm]

theorem flatten_getD {r d : ℕ} (hd : d < width) :
    (Backend.flatten width x).getD (r * width + d) 0 = (x.getD r 0) d := by
  induction x generalizing r with
  | nil => rfl
  | cons row x ih =>
    have hlen : ((List.range width).map row).length = width := by simp
    rw [flatten_cons]
    cases r with
    | zero =>
      rw [List.getD_append _ _ _ _ (by omega), Nat.zero_mul, Nat.zero_add,
        List.getD_eq_getElem _ _ (by omega)]
      simp
    | succ r =>
      have hskip : (r + 1) * width + d - ((List.range width).map row).length = r * width + d := by
        rw [hlen, Nat.succ_mul]
        omega
      have hle : ((List.range width).map row).length ≤ (r + 1) * width + d := by
        rw [hlen, Nat.succ_mul]
        omega
      rw [List.getD_append_right _ _ _ _ hle, hskip, ih, List.getD_cons_succ]

/-- Rows of this width come back. -/
theorem rowsOf_flatten (hx : ∀ row ∈ x, cut width row = row) :
    Backend.rowsOf x.length width (Backend.flatten width x) = x := by
  refine List.ext_getElem (by simp [Backend.rowsOf]) fun r hr hr' => ?_
  have hrow : (Backend.rowsOf x.length width (Backend.flatten width x))[r] = cut width x[r] := by
    simp only [Backend.rowsOf, List.getElem_map, List.getElem_range]
    refine cut_congr fun d hd => ?_
    rw [flatten_getD hd, List.getD_eq_getElem _ _ hr']
  rw [hrow, hx _ (List.getElem_mem hr')]

end

/-! ### The model with these layers -/

namespace ModelWeights

variable (m : ModelWeights)

/-- The model with these of its layers, in this order. -/
def unrolled (layers : List ℕ) : ModelWeights :=
  { m with layers := layers.filterMap fun j => m.layers[j]? }

theorem filterMap_getElem? {α : Type} (xs : List α) :
    (List.range xs.length).filterMap (fun j => xs[j]?) = xs := by
  induction xs using List.reverseRecOn with
  | nil => rfl
  | append_singleton xs x ih =>
    have hfirst : (List.range xs.length).filterMap (fun j => (xs ++ [x])[j]?) = xs := by
      refine (List.filterMap_congr fun j hj => ?_).trans ih
      exact List.getElem?_append_left (List.mem_range.mp hj)
    rw [List.length_append, List.length_singleton, List.range_succ, List.filterMap_append, hfirst]
    simp

theorem unrolled_range : m.unrolled (List.range m.layers.length) = m := by
  rw [unrolled, filterMap_getElem?]

variable {m} in
theorem unrolled_cons {path : List ℕ} {j : ℕ} (hj : j < m.layers.length) :
    (m.unrolled (j :: path)).layers = m.layers[j] :: (m.unrolled path).layers :=
  List.filterMap_cons_some (List.getElem?_eq_getElem hj)

variable {m} in
theorem unrolled_getElem? {path : List ℕ} (hpath : ∀ j ∈ path, j < m.layers.length) {l j : ℕ}
    (hj : path[l]? = some j) : (m.unrolled path).layers[l]? = m.layers[j]? := by
  induction path generalizing l with
  | nil => cases hj
  | cons i path ih =>
    obtain ⟨hi, hrest⟩ := List.forall_mem_cons.1 hpath
    rw [unrolled_cons hi]
    cases l with
    | zero =>
      obtain rfl : i = j := Option.some.inj hj
      exact (List.getElem?_eq_getElem hi).symm
    | succ l => exact ih hrest hj

variable {m} in
theorem unrolled_length {path : List ℕ} (hpath : ∀ j ∈ path, j < m.layers.length) :
    (m.unrolled path).layers.length = path.length := by
  induction path with
  | nil => rfl
  | cons j path ih =>
    obtain ⟨hj, hrest⟩ := List.forall_mem_cons.1 hpath
    rw [unrolled_cons hj, List.length_cons, ih hrest, List.length_cons]

/-- Every row of the residual stream has this width. -/
structure Wide (width : ℕ) : Prop where
  pos : 0 < width
  embeddings : ∀ t, cut width (m.tokEmbeddings t) = m.tokEmbeddings t
  attention : ∀ b ∈ m.layers, ∀ x, cut width (b.weights.attentionWo x) = b.weights.attentionWo x
  mlp : ∀ b ∈ m.layers, ∀ x, cut width (b.weights.mlp x) = b.weights.mlp x

variable {m} in
theorem Wide.unrolled {width : ℕ} (hwide : m.Wide width) (path : List ℕ) :
    (m.unrolled path).Wide width where
  pos := hwide.pos
  embeddings := hwide.embeddings
  attention b hb := by
    obtain ⟨j, -, hj⟩ := List.mem_filterMap.mp hb
    exact hwide.attention b (List.mem_of_getElem? hj)
  mlp b hb := by
    obtain ⟨j, -, hj⟩ := List.mem_filterMap.mp hb
    exact hwide.mlp b (List.mem_of_getElem? hj)

end ModelWeights

section

variable {m : ModelWeights} {width : ℕ}

theorem cut_add {x y : Row} (hx : cut width x = x) (hy : cut width y = y) :
    cut width (x + y) = x + y := by
  funext d
  by_cases hd : d < width
  · exact cut_apply hd
  · rw [← hx, ← hy]
    simp [cut, hd]

/-- No row outgrows the width. -/
theorem rowAt_wide (hwide : m.Wide width) (tokens : List Token) (l i : ℕ) :
    cut width (m.rowAt unhooked tokens l i) = m.rowAt unhooked tokens l i := by
  induction l generalizing i with
  | zero => exact hwide.embeddings _
  | succ l ih =>
    unfold ModelWeights.rowAt
    rw [trace_succ]
    cases hb : m.layers[l]? with
    | none =>
      rw [show tower m.layers unhooked l = idle by rw [tower, hb]]
      exact ih i
    | some b =>
      rw [tower_getElem? hb]
      have hmem := List.mem_of_getElem? hb
      exact cut_add (hwide.mlp b hmem _) (cut_add (hwide.attention b hmem _) (ih i))

end

/-! ### A standalone pass -/

/-- A model with the same weights, whatever its caches hold. -/
structure Like (m m' : ModelWeights) : Prop where
  weights : m'.layers.map (·.weights) = m.layers.map (·.weights)
  rest : m' = { m with layers := m'.layers, masks := m'.masks }
  masks : CausalMasks m'.masks

namespace Like

variable {m m' : ModelWeights} {path tokens : List Token}

theorem getElem? (hlike : Like m m') {j : ℕ} {b : Block} (hb : m.layers[j]? = some b) :
    ∃ b', m'.layers[j]? = some b' ∧ b'.weights = b.weights := by
  have hj := congrArg (·[j]?) hlike.weights
  simp only [List.getElem?_map, hb, Option.map_some] at hj
  exact Option.map_eq_some_iff.mp hj

/-- The `l`-th layer of the list takes the rows of the unrolled model one layer on. -/
theorem forwardOneLayer (hlike : Like m m') (dev : Device)
    (hpath : ∀ j ∈ path, j < m.layers.length) (hroom : m.Room tokens.length) {l j : ℕ}
    (hj : path[l]? = some j) :
    ∃ m'', Like m m'' ∧
      m'.forwardOneLayer dev j (rowsFrom 0 tokens.length
          ((m.unrolled path).rowAt unhooked tokens l)) =
        (.ok (rowsFrom 0 tokens.length
          ((m.unrolled path).rowAt unhooked tokens (l + 1))), m'') := by
  have hlt := hpath j (List.mem_of_getElem? hj)
  obtain ⟨b, hb⟩ : ∃ b, m.layers[j]? = some b := ⟨_, List.getElem?_eq_getElem hlt⟩
  obtain ⟨b', hb', hweights⟩ := hlike.getElem? hb
  have hT : tower (m.unrolled path).layers unhooked l =
      b'.weights.layer (unhooked l) := by
    rw [tower_getElem? ((ModelWeights.unrolled_getElem? hpath hj).trans hb), hweights]
  have hfits : 0 + tokens.length ≤ b'.weights.tables.maxSeq := by
    rw [Nat.zero_add, hweights]
    exact hroom b (List.mem_of_getElem? hb)
  have hstay (masks : List ((ℕ × ℕ) × Mask)) (hmasks : CausalMasks masks) (cache : KvCache) :
      Like m { m' with masks, layers := m'.layers.set j { b' with kvCache := cache } } := by
    refine ⟨?_, ?_, hmasks⟩
    · rw [← hlike.weights, List.map_set]
      refine List.ext_getElem? fun i => ?_
      rw [List.getElem?_set]
      split_ifs with hi hlen
      · rw [← hi, List.getElem?_map, hb']
        rfl
      · rw [← hi, List.getElem?_eq_none (Nat.le_of_not_lt hlen)]
      · rfl
    · rw [hlike.rest]
  obtain ⟨cache, hblock⟩ : ∃ cache, ∀ mask : Option Mask,
      mask = (if tokens.length = 1 then none else some (buildCausalMask tokens.length 0)) →
      b'.weights.blockForward dev b'.kvCache.reset (rowsFrom 0 tokens.length
          ((m.unrolled path).rowAt unhooked tokens l)) mask 0 =
        (.ok (rowsFrom 0 tokens.length ((m.unrolled path).rowAt unhooked tokens (l + 1))),
          cache) := by
    refine ⟨(b'.holding (rowsFrom 0 (0 + tokens.length)
      ((m.unrolled path).entryAt unhooked tokens l))).kvCache, fun mask hmask => ?_⟩
    obtain ⟨ys, hforward, hys⟩ := blockForward_trace dev
      (fun i => m.tokEmbeddings (tokens.getD i 0)) hmask b' l hT hfits
    rw [show unhooked l = id from rfl, List.map_id] at hys
    subst hys
    exact hforward
  unfold ModelWeights.forwardOneLayer
  by_cases hone : tokens.length = 1
  · refine ⟨_, hstay m'.masks hlike.masks cache.reset, ?_⟩
    simp only [rowsFrom_length, if_pos hone, hb', hblock none (if_pos hone).symm]
  · obtain ⟨masks, hmasks, hmask⟩ := mask_eq hlike.masks tokens.length 0
    refine ⟨_, hstay masks hmasks cache.reset, ?_⟩
    simp only [rowsFrom_length, if_neg hone, hmask, hb', hblock (some _) (if_neg hone).symm]

end Like

end Zllm.Dense
