import Mathlib.Data.List.GetD
import Zllm.Candle.DenseModel
import Zllm.Lib.Workgroup

/-!
# The attention of the candle model

The decode kernel on strided views, its AVX-512 form, and the masked product of the prefill: each is
the softmax average over the positions up to the query's own. So a block, fed with any number of
rows behind what its cache holds, does what a layer of a causal tower does.
-/

namespace Zllm.Dense

open Finset Tile CausalTower

/-! ### The softmax -/

section

variable {score : ℕ → ℝ} {s : ℕ → WithBot ℝ} {keys : Finset ℕ} {n : ℕ}

@[simp]
theorem expBelow_bot (mx : WithBot ℝ) : expBelow mx ⊥ = 0 := rfl

@[simp]
theorem expBelow_coe (mx : WithBot ℝ) (x : ℝ) :
    expBelow mx x = Real.exp (x - mx.unbotD 0) := rfl

/-- Masked scores have no weight, and the reference does not matter. -/
theorem sum_softmax (hkeys : keys ⊆ range n) (hin : ∀ t ∈ keys, s t = score t)
    (hout : ∀ t ∈ range n, t ∉ keys → s t = ⊥) (value : ℕ → ℕ → ℝ) (d : ℕ) :
    ∑ t ∈ range n, softmax s n t * value t d = Softmax.average keys score value d := by
  have hsum (f : ℕ → ℝ) : ∑ t ∈ range n, expBelow (maxScore s n) (s t) * f t =
      ∑ t ∈ keys, Real.exp (score t - (maxScore s n).unbotD 0) * f t := by
    rw [← sum_subset hkeys fun t ht htk => by rw [hout t ht htk, expBelow_bot, zero_mul]]
    exact sum_congr rfl fun t ht => by rw [hin t ht, expBelow_coe]
  have hnum := hsum fun t => value t d
  have hden := hsum fun _ => 1
  simp only [mul_one] at hden
  rw [← (Softmax.Partial.gather_holds ((maxScore s n).unbotD 0) keys score value).average_eq d]
  calc ∑ t ∈ range n, softmax s n t * value t d
      = (∑ t ∈ range n, expBelow (maxScore s n) (s t) * value t d) *
          (1 / ∑ t ∈ range n, expBelow (maxScore s n) (s t)) := by
        rw [sum_mul]
        exact sum_congr rfl fun t _ => by rw [softmax]; ring
    _ = _ := by
        rw [hnum, hden, mul_one_div]
        rfl

end

/-! ### The decode kernel -/

/-- The scaled score of a query head against the key of a position. -/
noncomputable def headScore (headDim kvHead h : ℕ) (q k : Row) : ℝ :=
  (∑ d ∈ range headDim, q (h * headDim + d) * k (kvHead * headDim + d)) / √headDim

/-- Each head's softmax average of its group's values over the positions up to its own. -/
noncomputable def attend (nHead kvRepeat headDim pos : ℕ) (q : Row) (cache : ℕ → Row × Row) : Row :=
  cut (nHead * headDim) fun i =>
    let h := i / headDim
    Softmax.average (range (pos + 1)) (fun t => headScore headDim (h / kvRepeat) h q (cache t).1)
      (fun t d => (cache t).2 (h / kvRepeat * headDim + d)) (i % headDim)

theorem attend_congr (nHead kvRepeat headDim : ℕ) {pos : ℕ} (q : Row) {cache cache' : ℕ → Row × Row}
    (hcache : ∀ t ≤ pos, cache t = cache' t) :
    attend nHead kvRepeat headDim pos q cache = attend nHead kvRepeat headDim pos q cache' := by
  have hkeys : ∀ t ∈ range (pos + 1), cache t = cache' t := by
    intro t ht
    exact hcache t (Nat.lt_succ_iff.mp (mem_range.mp ht))
  refine cut_congr fun i _ => Softmax.average_congr (fun t ht => ?_) fun t ht => ?_
  · rw [hkeys t ht]
  · rw [hkeys t ht]

/-- A view of a query row, and of keys or values up to a position. -/
def View.Reads (v : View) (headDim pos : ℕ) (rowOf : ℕ → Row) : Prop :=
  ∀ h t d, t ≤ pos → d < headDim → v.at h t d = rowOf t (h * headDim + d)

section

variable {q k v : View} {nHead kvRepeat headDim pos : ℕ} {query : Row} {cache : ℕ → Row × Row}

/-- Lane by lane or in order, a dot product is the same sum. -/
theorem sum_lanes {w : ℕ} (hdvd : headDim % w = 0) (f : ℕ → ℝ) :
    ∑ lane ∈ range w, ∑ i ∈ range (headDim / w), f (i * w + lane) = ∑ d ∈ range headDim, f d := by
  rw [sum_comm, ← Workgroup.sum_rows, Nat.div_mul_cancel (Nat.dvd_of_mod_eq_zero hdvd)]

/-- The lanes of the registers hold the dimensions of a head in order. -/
theorem sdpaInnerAvx512_eq (hdvd : headDim % lanes = 0) (currentLen : ℕ) (invSqrtD : ℝ) :
    sdpaInnerAvx512 q k v nHead kvRepeat headDim currentLen invSqrtD =
      sdpaInnerScalar q k v nHead kvRepeat headDim currentLen invSqrtD := by
  refine cut_congr fun i _ => ?_
  have hscores (t : ℕ) : ∑ lane ∈ range lanes, ∑ j ∈ range (headDim / lanes),
      q.at (i / headDim) 0 (j * lanes + lane) *
        k.at (i / headDim / kvRepeat) t (j * lanes + lane) =
      ∑ d ∈ range headDim, q.at (i / headDim) 0 d * k.at (i / headDim / kvRepeat) t d :=
    sum_lanes hdvd fun d => q.at (i / headDim) 0 d * k.at (i / headDim / kvRepeat) t d
  dsimp only
  simp only [hscores, Nat.div_add_mod']

/-- On views that read the rows, the decode kernel is the attention of the last position. -/
theorem sdpaInnerScalar_eq (hq : q.Reads headDim 0 fun _ => query)
    (hk : k.Reads headDim pos fun t => (cache t).1)
    (hv : v.Reads headDim pos fun t => (cache t).2) :
    sdpaInnerScalar q k v nHead kvRepeat headDim (pos + 1) (1 / √headDim) =
      attend nHead kvRepeat headDim pos query cache := by
  refine cut_congr fun i hi => ?_
  have hhead : 0 < headDim := Nat.pos_of_ne_zero fun hzero => by simp [hzero] at hi
  have hscore : ∀ t ∈ range (pos + 1),
      (∑ d ∈ range headDim, q.at (i / headDim) 0 d * k.at (i / headDim / kvRepeat) t d) *
        (1 / √headDim) =
      headScore headDim (i / headDim / kvRepeat) (i / headDim) query (cache t).1 := by
    intro t ht
    rw [headScore, mul_one_div]
    congr 1
    refine sum_congr rfl fun d hd => ?_
    have hd : d < headDim := mem_range.mp hd
    rw [hq _ 0 d le_rfl hd, hk _ t d (Nat.lt_succ_iff.mp (mem_range.mp ht)) hd]
  have hvalue : ∀ t ∈ range (pos + 1), v.at (i / headDim / kvRepeat) t (i % headDim) =
      (cache t).2 (i / headDim / kvRepeat * headDim + i % headDim) := by
    intro t ht
    exact hv _ t _ (Nat.lt_succ_iff.mp (mem_range.mp ht)) (Nat.mod_lt i hhead)
  have haverage := sum_softmax (subset_rfl : range (pos + 1) ⊆ range (pos + 1))
    (s := fun t => (((∑ d ∈ range headDim, q.at (i / headDim) 0 d *
      k.at (i / headDim / kvRepeat) t d) * (1 / √headDim) : ℝ) : WithBot ℝ))
    (fun t ht => congrArg WithBot.some (hscore t ht)) (fun t ht hnot => absurd ht hnot)
    (fun t d => (cache t).2 (i / headDim / kvRepeat * headDim + d)) (i % headDim)
  rw [← haverage]
  exact sum_congr rfl fun t ht => by rw [hvalue t ht]

theorem sdpaGqaDecode_eq (avx512f : Bool) {nKvHead : ℕ} (hq : q.Reads headDim 0 fun _ => query)
    (hk : k.Reads headDim pos fun t => (cache t).1)
    (hv : v.Reads headDim pos fun t => (cache t).2) :
    sdpaGqaDecode q k v nHead headDim (pos + 1) avx512f nKvHead =
      attend nHead (nHead / nKvHead) headDim pos query cache := by
  unfold sdpaGqaDecode
  split_ifs with hlanes
  · rw [sdpaInnerAvx512_eq hlanes.1, sdpaInnerScalar_eq hq hk hv]
  · exact sdpaInnerScalar_eq hq hk hv

end

/-- A query has its heads next to each other. -/
theorem q_reads (headDim : ℕ) (q : Row) :
    View.Reads { data := q, offset := 0, headStride := headDim, timeStride := headDim } headDim 0
      fun _ => q := by
  intro h t d ht _
  obtain rfl := Nat.le_zero.mp ht
  simp [View.at]

/-- The buffer of a cache reads its rows. -/
theorem KvCache.view_reads (c : KvCache) (nn : CandleNn) (headDim : ℕ) (rowOf : Row × Row → Row)
    {pos : ℕ} (hpos : pos < c.currentSeqLen) :
    (c.view nn headDim rowOf).Reads headDim pos fun t => rowOf (c.rows.getD t default) := by
  intro h t d ht hd
  have hroom : t < nn.capacity c.maxSeqLen c.currentSeqLen :=
    lt_of_lt_of_le (ht.trans_lt hpos) (nn.le_capacity _ _)
  have hslot : t * headDim + d < nn.capacity c.maxSeqLen c.currentSeqLen * headDim :=
    index_lt hroom hd
  simp only [View.at, view, zero_add]
  rw [add_assoc, index_mod hslot, index_div hslot, index_div hd]
  congr 2
  rw [← add_assoc, ← mul_assoc, ← add_mul, index_mod hd]

/-! ### The masked product -/

/-- The mask of a chunk opens to each of its rows the positions up to the row's own. -/
theorem LayerWeights.matmulAttention_eq (w : LayerWeights) {rows : List (Row × Row)}
    {mask : Option Mask} {r pos : ℕ} (q : Row) (hpos : pos < rows.length)
    (hmask : ∀ t < rows.length, mask.any (·.hidden r t) = decide (pos < t)) :
    w.matmulAttention rows mask r q =
      attend w.nHead (w.nHead / w.nKvHead) w.headDim pos q fun t => rows.getD t default := by
  refine cut_congr fun i _ => ?_
  dsimp only
  rw [sum_congr rfl fun t ht => by rw [w.nn.softmaxLastDim_eq _ _ t (mem_range.mp ht)]]
  refine sum_softmax ?_ ?_ ?_ (fun t d => (rows.getD t default).2
    (i / w.headDim / (w.nHead / w.nKvHead) * w.headDim + d)) (i % w.headDim)
  · exact range_subset_range.mpr hpos
  · intro t ht
    have ht : t < pos + 1 := mem_range.mp ht
    rw [hmask t (by omega), decide_eq_false (by omega), if_neg Bool.false_ne_true]
    rfl
  · intro t ht hnot
    rw [mem_range, not_lt] at hnot
    rw [hmask t (mem_range.mp ht), decide_eq_true (by omega), if_pos rfl]

/-- For one row the decode kernel on the buffers of a cache, with or without AVX-512, computes what
the product over the repeated heads does. -/
theorem sdpaGqaDecode_matmul (w : LayerWeights) (cache : KvCache) (q : Row) (avx512f : Bool) :
    sdpaGqaDecode { data := q, offset := 0, headStride := w.headDim, timeStride := w.headDim }
        (cache.view w.nn w.headDim Prod.fst) (cache.view w.nn w.headDim Prod.snd) w.nHead w.headDim
        cache.currentSeqLen avx512f w.nKvHead =
      w.matmulAttention cache.rows none 0 q := by
  by_cases hempty : cache.rows = []
  · simp [sdpaGqaDecode, sdpaInnerAvx512, sdpaInnerScalar, LayerWeights.matmulAttention,
      KvCache.currentSeqLen, hempty]
  obtain ⟨pos, hpos⟩ := Nat.exists_eq_succ_of_ne_zero (List.length_pos_iff.mpr hempty).ne'
  have hlast : pos < cache.rows.length := by omega
  have hopen : ∀ t < cache.rows.length,
      (none : Option Mask).any (·.hidden 0 t) = decide (pos < t) := by
    intro t ht
    exact (decide_eq_false (by omega)).symm
  rw [w.matmulAttention_eq q hlast hopen, show cache.currentSeqLen = pos + 1 from hpos,
    sdpaGqaDecode_eq avx512f (q_reads w.headDim q) (cache.view_reads w.nn w.headDim Prod.fst hlast)
      (cache.view_reads w.nn w.headDim Prod.snd hlast)]

theorem buildCausalMask_hidden (seqLen indexPos r t : ℕ) :
    (some (buildCausalMask seqLen indexPos)).any (·.hidden r t) = decide (indexPos + r < t) :=
  rfl

/-! ### A block as a layer of a tower -/

namespace LayerWeights

variable (w : LayerWeights)

noncomputable def query (pos : ℕ) (x : Row) : Row :=
  w.applyRotaryEmb w.nHead pos (addBias w.attentionBq (w.attentionWq (w.attentionNorm x)))

noncomputable def key (pos : ℕ) (x : Row) : Row :=
  w.applyRotaryEmb w.nKvHead pos (addBias w.attentionBk (w.attentionWk (w.attentionNorm x)))

noncomputable def value (x : Row) : Row :=
  addBias w.attentionBv (w.attentionWv (w.attentionNorm x))

noncomputable def attended (pos : ℕ) (cache : ℕ → Row × Row) (x : Row) : Row :=
  w.attentionWo (attend w.nHead (w.nHead / w.nKvHead) w.headDim pos (w.query pos x) cache)

/-- The residual stream behind the two halves of a block. -/
noncomputable def blockOut (pos : ℕ) (cache : ℕ → Row × Row) (x : Row) : Row :=
  let y := w.attended pos cache x + x
  w.mlp (w.ffnNorm y) + y

/-- With what a hook makes of each row behind the block. -/
noncomputable def layer (hook : Row → Row) : CausalLayer Row (Row × Row) where
  entry pos x := (w.key pos x, w.value x)
  out pos cache x := hook (w.blockOut pos cache x)
  causal pos cache cache' x hcache := by
    rw [blockOut, blockOut, attended, attended,
      attend_congr w.nHead (w.nHead / w.nKvHead) w.headDim (w.query pos x) hcache]

end LayerWeights

/-- The rows of `n` positions from `pos` on. -/
def rowsFrom {α : Type} (pos n : ℕ) (f : ℕ → α) : List α := (List.range n).map fun r => f (pos + r)

section

variable {α β γ : Type} (pos n : ℕ) (f : ℕ → α)

@[simp]
theorem rowsFrom_length : (rowsFrom pos n f).length = n := by
  rw [rowsFrom, List.length_map, List.length_range]

@[simp]
theorem rowsFrom_map (g : α → β) : (rowsFrom pos n f).map g = rowsFrom pos n fun i => g (f i) :=
  List.map_map

@[simp]
theorem rowsFrom_mapIdx (g : ℕ → α → β) :
    ((rowsFrom pos n f).mapIdx fun r => g (pos + r)) = rowsFrom pos n fun i => g i (f i) := by
  refine List.ext_getElem (by simp) fun r _ _ => ?_
  simp [rowsFrom]

theorem rowsFrom_mapIdx_sub (g : ℕ → α → β) :
    (rowsFrom pos n f).mapIdx g = rowsFrom pos n fun i => g (i - pos) (f i) := by
  refine List.ext_getElem (by simp) fun r _ _ => ?_
  simp [rowsFrom]

theorem rowsFrom_zip (g : ℕ → β) :
    (rowsFrom pos n f).zip (rowsFrom pos n g) = rowsFrom pos n fun i => (f i, g i) := by
  rw [rowsFrom, rowsFrom, List.zip_map']
  rfl

theorem rowsFrom_zipWith (g : ℕ → β) (op : α → β → γ) :
    List.zipWith op (rowsFrom pos n f) (rowsFrom pos n g) =
      rowsFrom pos n fun i => op (f i) (g i) := by
  rw [← List.map_uncurry_zip_eq_zipWith, rowsFrom_zip, rowsFrom_map]
  rfl

theorem rowsFrom_append (m : ℕ) :
    rowsFrom pos n f ++ rowsFrom (pos + n) m f = rowsFrom pos (n + m) f := by
  rw [rowsFrom, rowsFrom, rowsFrom, List.range_add, List.map_append, List.map_map]
  simp only [Function.comp_def, Nat.add_assoc]

@[simp]
theorem rowsFrom_take (k : ℕ) : (rowsFrom pos n f).take k = rowsFrom pos (min k n) f := by
  rw [rowsFrom, ← List.map_take, List.take_range]
  rfl

theorem rowsFrom_congr {g : ℕ → α} (hfg : ∀ i, pos ≤ i → i < pos + n → f i = g i) :
    rowsFrom pos n f = rowsFrom pos n g := by
  refine List.map_congr_left fun r hr => hfg (pos + r) (Nat.le_add_right _ _) ?_
  have := List.mem_range.mp hr
  omega

theorem rowsFrom_getD {i : ℕ} (hi : i < n) (d : α) : (rowsFrom 0 n f).getD i d = f i := by
  rw [List.getD_eq_getElem _ _ (by simpa using hi)]
  simp [rowsFrom]

end

section

variable (w : LayerWeights) (dev : Device) (cache : KvCache) {entry : ℕ → Row × Row} {row : ℕ → Row}
  {pos n : ℕ} {mask : Option Mask}

/-- A chunk of rows behind what the cache holds: the entries of its positions are stored, and each
row attends up to its own. -/
theorem LayerWeights.forwardAttn_eq (hcache : cache.rows = rowsFrom 0 pos entry)
    (hroom : pos + n ≤ w.tables.maxSeq)
    (hentry : ∀ i, pos ≤ i → i < pos + n → entry i = (w.key i (row i), w.value (row i)))
    (hmask : mask = if n = 1 then none else some (buildCausalMask n pos)) :
    w.forwardAttn dev cache ((rowsFrom pos n row).map w.attentionNorm) mask pos =
      (.ok (rowsFrom pos n fun i => w.attended i entry (row i)),
        { cache with rows := rowsFrom 0 (pos + n) entry }) := by
  set cache' : KvCache := { cache with rows := rowsFrom 0 (pos + n) entry } with hcache'
  have hstored : cache.append (rowsFrom pos n fun i => (w.key i (row i), w.value (row i))) =
      cache' := by
    rw [KvCache.append, hcache, ← rowsFrom_congr pos n entry hentry, hcache',
      ← rowsFrom_append 0 pos entry n, Nat.zero_add]
  have hlen : cache'.currentSeqLen = pos + n := rowsFrom_length 0 (pos + n) entry
  have hget : ∀ t < pos + n, cache'.rows.getD t default = entry t := fun t ht =>
    rowsFrom_getD (pos + n) entry ht default
  have hquery (i : ℕ) : w.applyRotaryEmb w.nHead i
      (addBias w.attentionBq (w.attentionWq (w.attentionNorm (row i)))) = w.query i (row i) := rfl
  have hkey (i : ℕ) : w.applyRotaryEmb w.nKvHead i
      (addBias w.attentionBk (w.attentionWk (w.attentionNorm (row i)))) = w.key i (row i) := rfl
  have hvalue (i : ℕ) : addBias w.attentionBv (w.attentionWv (w.attentionNorm (row i))) =
      w.value (row i) := rfl
  simp only [forwardAttn, rowsFrom_map, rowsFrom_length]
  rw [if_neg hroom.not_gt, rowsFrom_mapIdx pos n _ (w.applyRotaryEmb w.nHead),
    rowsFrom_mapIdx pos n _ (w.applyRotaryEmb w.nKvHead), rowsFrom_zip]
  simp only [hquery, hkey, hvalue, hstored, hlen]
  split_ifs with hsingle hwidth
  · rw [rowsFrom_map]
    refine congrArg (fun y => (Except.ok y, cache')) (rowsFrom_congr pos n _ fun i hlow hhigh => ?_)
    obtain rfl : i = pos := by omega
    have hlast : i < cache'.currentSeqLen := by omega
    rw [attended, hsingle.1, sdpaGqaDecode_eq dev.avx512f (q_reads w.headDim (w.query i (row i)))
      (cache'.view_reads w.nn w.headDim Prod.fst hlast)
      (cache'.view_reads w.nn w.headDim Prod.snd hlast)]
    exact congrArg w.attentionWo (attend_congr _ _ _ _ fun t ht => hget t (by omega))
  · rw [rowsFrom_mapIdx_sub]
    refine congrArg (fun y => (Except.ok y, cache')) (rowsFrom_congr pos n _ fun i hlow hhigh => ?_)
    have hopen : ∀ t < cache'.rows.length, mask.any (·.hidden (i - pos) t) = decide (i < t) := by
      intro t ht
      have ht : t < pos + n := hlen ▸ ht
      rw [hmask]
      split_ifs with hone
      · exact (decide_eq_false (by omega)).symm
      · rw [buildCausalMask_hidden, Nat.add_sub_cancel' hlow]
    rw [attended, w.matmulAttention_eq _ (hhigh.trans_eq hlen.symm) hopen]
    exact congrArg w.attentionWo (attend_congr _ _ _ _ fun t ht => hget t (by omega))
  · refine absurd ?_ hwidth
    have hself (dim : ℕ) : w.nn.broadcasts dim dim = true :=
      (w.nn.broadcasts_iff dim dim).mpr (.inl rfl)
    rw [hmask]
    split_ifs with hone
    · rfl
    · exact Bool.and_eq_true_iff.mpr ⟨hself n, hself (pos + n)⟩

theorem LayerWeights.blockForward_eq (hcache : cache.rows = rowsFrom 0 pos entry)
    (hroom : pos + n ≤ w.tables.maxSeq)
    (hentry : ∀ i, pos ≤ i → i < pos + n → entry i = (w.key i (row i), w.value (row i)))
    (hmask : mask = if n = 1 then none else some (buildCausalMask n pos)) :
    w.blockForward dev cache (rowsFrom pos n row) mask pos =
      (.ok (rowsFrom pos n fun i => w.blockOut i entry (row i)),
        { cache with rows := rowsFrom 0 (pos + n) entry }) := by
  rw [blockForward, w.forwardAttn_eq dev cache hcache hroom hentry hmask]
  simp only [rowsFrom_zipWith, rowsFrom_map]
  rfl

end

/-! ### The layer loop -/

/-- Beyond the last layer there is nothing to do. -/
def idle : CausalLayer Row (Row × Row) where
  entry _ _ := default
  out _ _ x := x
  causal _ _ _ _ _ := rfl

noncomputable def tower (layers : List Block) (hook : ℕ → Row → Row) (l : ℕ) :
    CausalLayer Row (Row × Row) :=
  match layers[l]? with
  | some b => b.weights.layer (hook l)
  | none => idle

def Block.holding (b : Block) (rows : List (Row × Row)) : Block :=
  { b with kvCache := { b.kvCache with rows } }

/-- Every cache holds what a trace says. -/
def holdLayers (l : ℕ) (entry : ℕ → ℕ → Row × Row) (n : ℕ) (layers : List Block) : List Block :=
  layers.mapIdx fun j b => b.holding (rowsFrom 0 n (entry (l + j)))

theorem holdLayers_cons (l : ℕ) (entry : ℕ → ℕ → Row × Row) (n : ℕ) (b : Block)
    (layers : List Block) :
    holdLayers l entry n (b :: layers) =
      b.holding (rowsFrom 0 n (entry l)) :: holdLayers (l + 1) entry n layers := by
  rw [holdLayers, holdLayers, List.mapIdx_cons]
  simp only [Nat.add_zero, Nat.add_comm, Nat.add_left_comm]

section

variable (dev : Device) {mask : Option Mask} {pos n : ℕ} {hook : ℕ → Row → Row}
  {onLayer : ℕ → List Row → Option (List Row)} {T : ℕ → CausalLayer Row (Row × Row)}
  {rows : ℕ → Row}

variable (rows) in
/-- A block that holds the trace takes it on to the next layer. -/
theorem blockForward_trace (hmask : mask = if n = 1 then none else some (buildCausalMask n pos))
    (b : Block) (l : ℕ) (hT : T l = b.weights.layer (hook l))
    (hroom : pos + n ≤ b.weights.tables.maxSeq) :
    let before := b.holding (rowsFrom 0 pos (traceEntry T 0 default rows l))
    ∃ ys, before.weights.blockForward dev before.kvCache
        (rowsFrom pos n (trace T 0 default rows l)) mask pos =
          (.ok ys, (b.holding (rowsFrom 0 (pos + n) (traceEntry T 0 default rows l))).kvCache) ∧
      ys.map (hook l) = rowsFrom pos n (trace T 0 default rows (l + 1)) := by
  have hentry : ∀ i, pos ≤ i → i < pos + n → traceEntry T 0 default rows l i =
      (b.weights.key i (trace T 0 default rows l i),
        b.weights.value (trace T 0 default rows l i)) := by
    intro i _ _
    rw [traceEntry, if_neg (Nat.not_lt_zero i), hT]
    rfl
  refine ⟨_, b.weights.blockForward_eq dev _ rfl hroom hentry hmask, ?_⟩
  rw [rowsFrom_map]
  refine rowsFrom_congr pos n _ fun i _ _ => ?_
  rw [trace_succ, hT]
  rfl

theorem forwardLayers_exit {b : Block} {cache : KvCache} {x y : List Row} {l : ℕ}
    (hblock : b.weights.blockForward dev b.kvCache x mask pos = (.ok y, cache))
    (hexit : onLayer l y = none) (layers : List Block) :
    forwardLayers dev mask pos onLayer l (b :: layers) x =
      (.ok (y, some l), { b with kvCache := cache } :: layers) := by
  rw [forwardLayers, hblock]
  simp only [hexit]

theorem forwardLayers_next {b : Block} {cache : KvCache} {x y z : List Row} {l : ℕ}
    (hblock : b.weights.blockForward dev b.kvCache x mask pos = (.ok y, cache))
    (hnext : onLayer l y = some z) (layers : List Block) :
    forwardLayers dev mask pos onLayer l (b :: layers) x =
      ((forwardLayers dev mask pos onLayer (l + 1) layers z).1,
        { b with kvCache := cache } ::
          (forwardLayers dev mask pos onLayer (l + 1) layers z).2) := by
  rw [forwardLayers, hblock]
  simp only [hnext]

/-- Chunks behind what the caches hold take the trace on, through the layers from `l` on. -/
theorem forwardLayers_eq (hmask : mask = if n = 1 then none else some (buildCausalMask n pos))
    (honLayer : ∀ l x, onLayer l x = some (x.map (hook l))) (layers : List Block) (l : ℕ)
    (hlayers : ∀ j b, layers[j]? = some b →
      T (l + j) = b.weights.layer (hook (l + j)) ∧ pos + n ≤ b.weights.tables.maxSeq) :
    forwardLayers dev mask pos onLayer l (holdLayers l (traceEntry T 0 default rows) pos layers)
        (rowsFrom pos n (trace T 0 default rows l)) =
      (.ok (rowsFrom pos n (trace T 0 default rows (l + layers.length)), none),
        holdLayers l (traceEntry T 0 default rows) (pos + n) layers) := by
  induction layers generalizing l with
  | nil => rfl
  | cons b layers ih =>
    obtain ⟨hT, hroom⟩ := hlayers 0 b rfl
    obtain ⟨ys, hblock, hys⟩ := blockForward_trace dev rows hmask b l hT hroom
    have hrest := ih (l + 1) fun j b' hb' => by
      have := hlayers (j + 1) b' hb'
      rwa [Nat.add_right_comm, Nat.add_assoc]
    rw [holdLayers_cons, forwardLayers_next dev hblock (honLayer l ys), hys, hrest, holdLayers_cons,
      List.length_cons, Nat.add_assoc, Nat.add_comm 1]
    rfl

end

end Zllm.Dense
