import Zllm.Candle.DenseRuns

/-!
# Decoding with early exits

A step that leaves the layer loop early stores nothing in the layers behind the exit, while the
position goes on. The layers up to the first one at which an exit is considered hold what a single
pass leaves all the same, and no layer holds more than the one before it.
-/

namespace Zllm.Dense

open CausalTower

/-! ### One row -/

section

variable (dev : Device) {onLayer : ℕ → List Row → Option (List Row)} {pos : ℕ}

/-- One row needs no mask, and goes through a block whatever its cache holds. -/
theorem LayerWeights.blockForward_single (w : LayerWeights) (cache : KvCache) {x : List Row}
    (hx : x.length = 1) (hroom : pos + 1 ≤ w.tables.maxSeq) :
    ∃ y entry, w.blockForward dev cache x none pos = (.ok y, cache.append [entry]) ∧
      y.length = 1 := by
  obtain ⟨row, rfl⟩ := List.length_eq_one_iff.mp hx
  unfold blockForward forwardAttn
  simp only [List.map_cons, List.map_nil, List.length_singleton, if_neg hroom.not_gt]
  by_cases hcpu : dev.isCpu = true
  · simp only [hcpu, and_self, ↓reduceIte]
    exact ⟨_, _, rfl, rfl⟩
  · simp only [hcpu, and_false, Bool.false_eq_true, ↓reduceIte]
    exact ⟨_, _, rfl, rfl⟩

/-- How many positions each layer holds. -/
def heldLengths (layers : List Block) : List ℕ := layers.map fun b => b.kvCache.currentSeqLen

/-- One row is stored in the layers up to an exit, and in no other. -/
theorem forwardLayers_single (honLayer : ∀ l x y, onLayer l x = some y → y.length = x.length)
    (layers : List Block) (l : ℕ) {x : List Row} (hx : x.length = 1)
    (hroom : ∀ b ∈ layers, pos + 1 ≤ b.weights.tables.maxSeq) :
    ∃ r k, (forwardLayers dev none pos onLayer l layers x).1 = .ok r ∧
      heldLengths (forwardLayers dev none pos onLayer l layers x).2 =
        ((heldLengths layers).take k).map (· + 1) ++ (heldLengths layers).drop k := by
  induction layers generalizing l x with
  | nil => exact ⟨_, 0, rfl, rfl⟩
  | cons b layers ih =>
    obtain ⟨y, entry, hblock, hy⟩ :=
      b.weights.blockForward_single dev b.kvCache hx (hroom b List.mem_cons_self)
    have hlen : (b.kvCache.append [entry]).currentSeqLen = b.kvCache.currentSeqLen + 1 := by
      simp [KvCache.append, KvCache.currentSeqLen]
    cases hexit : onLayer l y with
    | none =>
      rw [forwardLayers_exit dev hblock hexit]
      refine ⟨_, 1, rfl, ?_⟩
      simp [heldLengths, hlen]
    | some z =>
      obtain ⟨r, k, hok, hheld⟩ := ih (l + 1) ((honLayer l y z hexit).trans hy)
        fun b' hb' => hroom b' (List.mem_cons_of_mem b hb')
      rw [forwardLayers_next dev hblock hexit]
      refine ⟨r, k + 1, hok, ?_⟩
      simp only [heldLengths, List.map_cons, List.take_succ_cons, List.drop_succ_cons, hlen,
        List.cons_append] at hheld ⊢
      rw [hheld]

theorem pairwise_stored {lengths : List ℕ} (hdesc : lengths.Pairwise (· ≥ ·)) (k : ℕ) :
    ((lengths.take k).map (· + 1) ++ lengths.drop k).Pairwise (· ≥ ·) := by
  have hsplit := hdesc
  rw [← List.take_append_drop k lengths, List.pairwise_append] at hsplit
  obtain ⟨htake, hdrop, hacross⟩ := hsplit
  refine List.pairwise_append.mpr ⟨?_, hdrop, ?_⟩
  · exact List.pairwise_map.mpr (htake.imp fun hle => Nat.succ_le_succ hle)
  · intro a ha b hb
    obtain ⟨c, hc, rfl⟩ := List.mem_map.mp ha
    exact (hacross c hc b hb).trans (Nat.le_succ c)

/-- The layer loop does not touch the weights. -/
theorem forwardLayers_weights (mask : Option Mask) (layers : List Block) (l : ℕ) (x : List Row) :
    (forwardLayers dev mask pos onLayer l layers x).2.map Block.weights =
      layers.map Block.weights := by
  induction layers generalizing l x with
  | nil => rfl
  | cons b layers ih =>
    rw [forwardLayers]
    split
    · rfl
    · split
      · rfl
      · next z hnext =>
        show b.weights :: _ = b.weights :: _
        rw [ih]

end

section

variable {m : ModelWeights} {onLayer : ℕ → List Row → Option (List Row)} {token : Token}

variable (onLayer) in
theorem forwardRows_single (dev : Device) (pos : ℕ) (htoken : token < m.vocabSize) :
    m.forwardRows dev [token] pos onLayer =
      ((forwardLayers dev none pos onLayer 0 m.layers ([token].map m.tokEmbeddings)).1,
        { m with layers :=
          (forwardLayers dev none pos onLayer 0 m.layers ([token].map m.tokEmbeddings)).2 }) := by
  have hvocab : [token].all (· < m.vocabSize) = true := by simpa using htoken
  unfold ModelWeights.forwardRows
  simp only [List.length_singleton, ↓reduceIte]
  exact if_pos hvocab

/-- What is done behind a layer where an exit may be taken. -/
def exitAfter (m : ModelWeights) (shouldExit : ℕ → List Row → Bool) (l : ℕ) (x : List Row) :
    Option (List Row) :=
  if l < m.layers.length - 1 ∧ shouldExit l x then none else some x

theorem length_of_exitAfter {shouldExit : ℕ → List Row → Bool} (l : ℕ) (x y : List Row)
    (hy : exitAfter m shouldExit l x = some y) : y.length = x.length := by
  unfold exitAfter at hy
  split_ifs at hy
  rw [Option.some.inj hy]

theorem forwardLogitsEarlyExit_single {b : Backend} (hmodel : b.model = some m)
    (htoken : token < m.vocabSize) (shouldExit : ℕ → List Row → Bool) {r : List Row × Option ℕ}
    {layers : List Block}
    (hpass : forwardLayers b.device none b.indexPos (exitAfter m shouldExit) 0 m.layers
      ([token].map m.tokEmbeddings) = (.ok r, layers)) :
    b.forwardLogitsEarlyExit [token] shouldExit =
      (.ok (m.lastLogits r.1, r.2.getD (m.layers.length - 1)),
        { b with model := some { m with layers }, indexPos := b.indexPos + 1 }) := by
  have hrows := forwardRows_single (exitAfter m shouldExit) b.device b.indexPos htoken
  rw [hpass] at hrows
  rw [Backend.forwardLogitsEarlyExit, hmodel]
  simp only [ModelWeights.forwardWithEarlyExit]
  rw [show (fun l x => if l < m.layers.length - 1 ∧ shouldExit l x then none else some x) =
    exitAfter m shouldExit from rfl, hrows]
  rfl

end

/-! ### Exits that are always taken -/

section

variable {dev : Device} {mask : Option Mask} {pos k : ℕ}
  {onLayer : ℕ → List Row → Option (List Row)}

/-- The first layer that every residual stream is left at. -/
theorem forwardLayers_exits (hstay : ∀ l < k, ∀ x, onLayer l x ≠ none)
    (hexit : ∀ x, onLayer k x = none) (layers : List Block) (l : ℕ) (hl : l ≤ k)
    (hk : k < l + layers.length) (x : List Row) {r : List Row × Option ℕ} {layers' : List Block}
    (hpass : forwardLayers dev mask pos onLayer l layers x = (.ok r, layers')) :
    r.2 = some k := by
  induction layers generalizing l x layers' with
  | nil =>
    rw [List.length_nil] at hk
    omega
  | cons b layers ih =>
    obtain ⟨outcome, cache, hblock⟩ :
        ∃ outcome cache, b.weights.blockForward dev b.kvCache x mask pos = (outcome, cache) :=
      ⟨_, _, rfl⟩
    cases outcome with
    | error e =>
      rw [forwardLayers, hblock] at hpass
      cases hpass
    | ok y =>
      rcases hl.lt_or_eq with hlt | rfl
      · obtain ⟨z, hz⟩ := Option.ne_none_iff_exists'.mp (hstay l hlt y)
        rw [forwardLayers_next dev hblock hz] at hpass
        rw [List.length_cons] at hk
        apply ih (l + 1) hlt (by omega) z
        exact Prod.ext (Prod.mk.inj hpass).1 rfl
      · rw [forwardLayers_exit dev hblock (hexit y)] at hpass
        cases hpass
        rfl

end

section

variable {m : ModelWeights} {shouldExit : ℕ → List Row → Bool} {k : ℕ}

theorem forwardLogitsEarlyExit_exits {b : Backend} (hmodel : b.model = some m) {token : Token}
    (htoken : token < m.vocabSize) (hk : k + 1 < m.layers.length)
    (hstay : ∀ l < k, ∀ x, shouldExit l x = false) (hexit : ∀ x, shouldExit k x = true)
    {r : Row × ℕ} (hok : (b.forwardLogitsEarlyExit [token] shouldExit).1 = .ok r) : r.2 = k := by
  obtain ⟨outcome, layers, hpass⟩ : ∃ outcome layers,
      forwardLayers b.device none b.indexPos (exitAfter m shouldExit) 0 m.layers
        ([token].map m.tokEmbeddings) = (outcome, layers) := ⟨_, _, rfl⟩
  cases outcome with
  | error e =>
    have hrows := forwardRows_single (exitAfter m shouldExit) b.device b.indexPos htoken
    rw [hpass] at hrows
    rw [Backend.forwardLogitsEarlyExit, hmodel] at hok
    simp only [ModelWeights.forwardWithEarlyExit] at hok
    rw [show (fun l x => if l < m.layers.length - 1 ∧ shouldExit l x then none else some x) =
      exitAfter m shouldExit from rfl, hrows] at hok
    cases hok
  | ok rows =>
    rw [forwardLogitsEarlyExit_single hmodel htoken shouldExit hpass] at hok
    cases hok
    have hleft : rows.2 = some k := by
      apply forwardLayers_exits _ _ m.layers 0 (Nat.zero_le k) (by omega) _ hpass
      · intro l hl x
        rw [exitAfter, if_neg fun h => by
          rw [hstay l hl x] at h
          exact Bool.false_ne_true h.2]
        exact Option.some_ne_none x
      · intro x
        exact if_pos ⟨by omega, hexit x⟩
    rw [hleft]
    rfl

end

/-! ### The layers before the first exit -/

section

variable (dev : Device) {mask : Option Mask} {pos n : ℕ} {hook : ℕ → Row → Row}
  {onLayer : ℕ → List Row → Option (List Row)} {T : ℕ → CausalLayer Row (Row × Row)}
  {rows : ℕ → Row}

/-- Where no layer but the last of `layers` may be an exit, these follow the trace, whatever is
behind them. -/
theorem forwardLayers_prefix (hmask : mask = if n = 1 then none else some (buildCausalMask n pos))
    (layers rest : List Block) (l : ℕ)
    (honLayer : ∀ l', l' + 1 < l + layers.length → ∀ x, onLayer l' x = some (x.map (hook l')))
    (hlayers : ∀ j b, layers[j]? = some b →
      T (l + j) = b.weights.layer (hook (l + j)) ∧ pos + n ≤ b.weights.tables.maxSeq) :
    ∃ rest', (forwardLayers dev mask pos onLayer l
        (holdLayers l (traceEntry T 0 default rows) pos layers ++ rest)
        (rowsFrom pos n (trace T 0 default rows l))).2 =
      holdLayers l (traceEntry T 0 default rows) (pos + n) layers ++ rest' := by
  induction layers generalizing l with
  | nil => exact ⟨_, rfl⟩
  | cons b layers ih =>
    obtain ⟨hT, hroom⟩ := hlayers 0 b rfl
    rw [Nat.add_zero] at hT
    obtain ⟨ys, hblock, hys⟩ := blockForward_trace dev rows hmask b l hT hroom
    rw [holdLayers_cons, List.cons_append]
    by_cases hlast : layers = []
    · subst hlast
      cases hexit : onLayer l ys with
      | none =>
        rw [forwardLayers_exit dev hblock hexit]
        exact ⟨_, rfl⟩
      | some z =>
        rw [forwardLayers_next dev hblock hexit]
        exact ⟨_, rfl⟩
    · have hpos : 0 < layers.length := List.length_pos_iff.mpr hlast
      have hnext := honLayer l (by rw [List.length_cons]; omega) ys
      obtain ⟨rest', hrest⟩ := ih (l + 1)
        (fun l' hl' => honLayer l' (by rw [List.length_cons]; omega)) fun j b' hb' => by
          have := hlayers (j + 1) b' hb'
          rwa [Nat.add_right_comm, Nat.add_assoc]
      rw [forwardLayers_next dev hblock hnext, hys, hrest, holdLayers_cons]
      exact ⟨rest', rfl⟩

end

/-! ### Runs -/

/-- Tokens one after the other, each with early exits. -/
noncomputable def Backend.decodeEarlyExit (shouldExit : ℕ → List Row → Bool) :
    List Token → Backend → List (Except CandleError (Row × ℕ)) × Backend
  | [], b => ([], b)
  | token :: tokens, b =>
      let (answer, b) := b.forwardLogitsEarlyExit [token] shouldExit
      let (answers, b) := Backend.decodeEarlyExit shouldExit tokens b
      (answer :: answers, b)

/-- The first `depth` layers hold these tokens, and no layer holds more than the one before it. -/
structure Backend.HoldsUpTo (b : Backend) (m : ModelWeights) (depth : ℕ) (held : List Token) :
    Prop where
  model : ∃ rest masks, b.model = some { m with
      layers := holdLayers 0 (m.entryAt (fun _ x => x) held) held.length (m.layers.take depth) ++
        rest
      masks } ∧
    CausalMasks masks ∧ rest.map Block.weights = (m.layers.drop depth).map Block.weights ∧
    (held.length :: heldLengths (holdLayers 0 (m.entryAt (fun _ x => x) held) held.length
      (m.layers.take depth) ++ rest)).Pairwise (· ≥ ·)
  indexPos : b.indexPos = held.length

section

variable {b : Backend} {m : ModelWeights} {depth : ℕ} {held : List Token}
  {shouldExit : ℕ → List Row → Bool}

theorem room_of_weights {layers : List Block} {n : ℕ} (hroom : m.Room n)
    (hweights : layers.map Block.weights = m.layers.map Block.weights) :
    ∀ b ∈ layers, n ≤ b.weights.tables.maxSeq := by
  intro b hb
  have hmem : b.weights ∈ m.layers.map Block.weights := hweights ▸ List.mem_map_of_mem hb
  obtain ⟨b', hb', hsame⟩ := List.mem_map.mp hmem
  rw [← hsame]
  exact hroom b' hb'

theorem holdLayers_weights (l : ℕ) (entry : ℕ → ℕ → Row × Row) (n : ℕ) (layers : List Block) :
    (holdLayers l entry n layers).map Block.weights = layers.map Block.weights := by
  refine List.ext_getElem (by simp [holdLayers]) fun j _ _ => ?_
  simp only [holdLayers, List.getElem_map, List.getElem_mapIdx, Block.holding]

/-- A step is never refused, and the layers before the first exit go on to hold the tokens. -/
theorem Backend.HoldsUpTo.step (hb : b.HoldsUpTo m depth held) {token : Token}
    (htoken : token < m.vocabSize) (hroom : m.Room (held.length + 1))
    (hexit : ∀ l, l + 1 < depth → ∀ x, shouldExit l x = false) :
    (∃ r, (b.forwardLogitsEarlyExit [token] shouldExit).1 = .ok r) ∧
      (b.forwardLogitsEarlyExit [token] shouldExit).2.HoldsUpTo m depth (held ++ [token]) := by
  obtain ⟨⟨rest, masks, hmodel, hmasks, hweights, hdesc⟩, hpos⟩ := hb
  set hook : ℕ → Row → Row := fun _ x => x
  set layers := holdLayers 0 (m.entryAt hook held) held.length (m.layers.take depth) ++ rest
    with hlayers
  have hall : layers.map Block.weights = m.layers.map Block.weights := by
    rw [hlayers, List.map_append, holdLayers_weights, hweights, ← List.map_append,
      List.take_append_drop]
  have hsame : holdLayers 0 (m.entryAt hook held) held.length (m.layers.take depth) =
      holdLayers 0 (m.entryAt hook (held ++ [token])) held.length (m.layers.take depth) :=
    holdLayers_congr _ fun j _ i hi => (entryAt_append m hook held [token] (0 + j) hi).symm
  have hfed : [token].map m.tokEmbeddings =
      rowsFrom held.length 1 (m.rowAt hook (held ++ [token]) 0) := by
    simp [rowsFrom, ModelWeights.rowAt, trace]
  set m' : ModelWeights := { m with layers, masks } with hm'
  have hstay : ∀ l, l + 1 < 0 + (m.layers.take depth).length → ∀ x,
      exitAfter m' shouldExit l x = some (x.map (hook l)) := by
    intro l hl x
    have hdepth := List.length_take_le depth m.layers
    rw [exitAfter, if_neg fun h => by
      rw [hexit l (by omega) x] at h
      exact Bool.false_ne_true h.2]
    exact congrArg some (List.map_id x).symm
  have hblocks : ∀ j b, (m.layers.take depth)[j]? = some b →
      tower m.layers hook (0 + j) = b.weights.layer (hook (0 + j)) ∧
        held.length + 1 ≤ b.weights.tables.maxSeq := by
    intro j b hj
    rw [List.getElem?_take] at hj
    split_ifs at hj with hlt
    rw [Nat.zero_add]
    exact ⟨tower_getElem? hj, hroom b (List.mem_of_getElem? hj)⟩
  obtain ⟨r, k, hok, hheld⟩ := forwardLayers_single b.device (length_of_exitAfter) layers 0
    (by simp : ([token].map m.tokEmbeddings).length = 1) (room_of_weights hroom hall)
  obtain ⟨rest', hrest⟩ := forwardLayers_prefix b.device (if_pos rfl).symm (m.layers.take depth)
    rest 0 hstay hblocks
  have hstored : (forwardLayers b.device none held.length (exitAfter m' shouldExit) 0 layers
      ([token].map m.tokEmbeddings)).2 =
        holdLayers 0 (m.entryAt hook (held ++ [token])) (held ++ [token]).length
          (m.layers.take depth) ++ rest' := by
    rw [hlayers, hsame, hfed, List.length_append]
    exact hrest
  have hweights' : rest'.map Block.weights = (m.layers.drop depth).map Block.weights := by
    have hkept := congrArg (List.map Block.weights) hstored
    rw [forwardLayers_weights, hlayers, List.map_append, List.map_append, holdLayers_weights,
      holdLayers_weights] at hkept
    exact (List.append_cancel_left hkept).symm.trans hweights
  have hpass : forwardLayers b.device none b.indexPos (exitAfter m' shouldExit) 0 m'.layers
      ([token].map m'.tokEmbeddings) = (.ok r, holdLayers 0 (m.entryAt hook (held ++ [token]))
        (held ++ [token]).length (m.layers.take depth) ++ rest') := by
    rw [hpos]
    exact Prod.ext hok hstored
  rw [forwardLogitsEarlyExit_single hmodel htoken shouldExit hpass]
  refine ⟨⟨_, rfl⟩, ⟨rest', masks, rfl, hmasks, hweights', ?_⟩, ?_⟩
  · rw [← hstored, hheld, List.length_append]
    exact pairwise_stored hdesc (k + 1)
  · show b.indexPos + 1 = (held ++ [token]).length
    rw [hpos, List.length_append, List.length_singleton]

theorem holdLayers_take (l : ℕ) (entry : ℕ → ℕ → Row × Row) (n d : ℕ) (layers : List Block) :
    (holdLayers l entry n layers).take d = holdLayers l entry n (layers.take d) := by
  refine List.ext_getElem (by simp [holdLayers]) fun j _ _ => ?_
  simp only [holdLayers, List.getElem_take, List.getElem_mapIdx]

theorem heldLengths_holdLayers (l : ℕ) (entry : ℕ → ℕ → Row × Row) (n : ℕ) (layers : List Block) :
    heldLengths (holdLayers l entry n layers) = List.replicate layers.length n := by
  refine List.ext_getElem (by simp [holdLayers, heldLengths]) fun j _ _ => ?_
  simp only [holdLayers, heldLengths, List.getElem_map, List.getElem_mapIdx,
    List.getElem_replicate]
  exact rowsFrom_length 0 n _

/-- All layers are as good as the first ones. -/
theorem Backend.Holds.upTo (hb : b.Holds m (fun _ x => x) held) (depth : ℕ) :
    b.HoldsUpTo m depth held := by
  obtain ⟨⟨masks, hmasks, hmodel⟩, hpos⟩ := hb
  set layers := holdLayers 0 (m.entryAt (fun _ x => x) held) held.length m.layers with hlayers
  have hsplit : holdLayers 0 (m.entryAt (fun _ x => x) held) held.length (m.layers.take depth) ++
      layers.drop depth = layers := by
    rw [← holdLayers_take, List.take_append_drop]
  refine ⟨⟨layers.drop depth, masks, ?_, hmasks, ?_, ?_⟩, hpos⟩
  · rw [hsplit]
    exact hmodel
  · rw [List.map_drop, hlayers, holdLayers_weights, List.map_drop]
  · rw [hsplit, hlayers, heldLengths_holdLayers, ← List.replicate_succ]
    exact List.pairwise_replicate_of_refl

theorem Backend.HoldsUpTo.decode (hb : b.HoldsUpTo m depth held) (tokens : List Token)
    (htokens : ∀ t ∈ tokens, t < m.vocabSize) (hroom : m.Room (held.length + tokens.length))
    (hexit : ∀ l, l + 1 < depth → ∀ x, shouldExit l x = false) :
    (∀ answer ∈ (b.decodeEarlyExit shouldExit tokens).1, ∃ r, answer = .ok r) ∧
      (b.decodeEarlyExit shouldExit tokens).2.HoldsUpTo m depth (held ++ tokens) := by
  induction tokens generalizing b held with
  | nil =>
    rw [List.append_nil]
    exact ⟨fun answer hanswer => absurd hanswer List.not_mem_nil, hb⟩
  | cons token tokens ih =>
    have hlen : (held ++ [token]).length + tokens.length =
        held.length + (token :: tokens).length := by
      rw [List.length_append, List.length_singleton, List.length_cons]
      omega
    obtain ⟨hok, hnext⟩ := hb.step (htokens token List.mem_cons_self)
      (fun w hw => le_trans (by rw [List.length_cons]; omega) (hroom w hw)) hexit
    obtain ⟨hrest, hlast⟩ := ih hnext (fun t ht => htokens t (List.mem_cons_of_mem token ht))
      (by rwa [hlen])
    rw [List.append_assoc, List.singleton_append] at hlast
    refine ⟨fun answer hanswer => ?_, hlast⟩
    rcases List.mem_cons.mp hanswer with rfl | hanswer
    · exact hok
    · exact hrest answer hanswer

end

theorem Backend.HoldsUpTo.decode_exits {b : Backend} {m : ModelWeights} {k : ℕ} {held : List Token}
    {shouldExit : ℕ → List Row → Bool} (hb : b.HoldsUpTo m (k + 1) held) (tokens : List Token)
    (htokens : ∀ t ∈ tokens, t < m.vocabSize) (hroom : m.Room (held.length + tokens.length))
    (hk : k + 1 < m.layers.length) (hstay : ∀ l < k, ∀ x, shouldExit l x = false)
    (hexit : ∀ x, shouldExit k x = true) :
    ∀ answer ∈ (b.decodeEarlyExit shouldExit tokens).1, ∃ logits, answer = .ok (logits, k) := by
  induction tokens generalizing b held with
  | nil => exact fun answer hanswer => absurd hanswer List.not_mem_nil
  | cons token tokens ih =>
    have htoken := htokens token List.mem_cons_self
    have hlen : (held ++ [token]).length + tokens.length =
        held.length + (token :: tokens).length := by
      rw [List.length_append, List.length_singleton, List.length_cons]
      omega
    obtain ⟨⟨r, hok⟩, hnext⟩ := hb.step htoken
      (fun w hw => le_trans (by rw [List.length_cons]; omega) (hroom w hw))
      fun l hl => hstay l (Nat.lt_of_succ_lt_succ hl)
    obtain ⟨⟨rest, masks, hmodel, -, hweights, -⟩, -⟩ := hb
    have hrest : rest.length = m.layers.length - (k + 1) := by
      simpa using congrArg List.length hweights
    have hleft : r.2 = k := by
      apply forwardLogitsEarlyExit_exits hmodel htoken _ hstay hexit hok
      simp only [holdLayers, List.length_append, List.length_mapIdx, List.length_take, hrest]
      omega
    intro answer hanswer
    rcases List.mem_cons.mp hanswer with rfl | hanswer
    · exact ⟨r.1, hleft ▸ hok⟩
    · exact ih hnext (fun t ht => htokens t (List.mem_cons_of_mem token ht)) (by rwa [hlen])
        answer hanswer

/-- Tokens decoded with early exits behind a prompt: no step is refused and the position counts all
of them, the layers up to the first possible exit hold what a single pass over prompt and tokens
leaves, and no layer holds more than the one before it. -/
theorem early_exit_shallow_layers (b : Backend) (m : ModelWeights) (hmodel : b.model = some m)
    (hmasks : m.masks = []) (prompt tokens : List Token) (hprompt : prompt ≠ [])
    (htokens : ∀ t ∈ prompt ++ tokens, t < m.vocabSize) (hroom : m.Room (prompt ++ tokens).length)
    (shouldExit : ℕ → List Row → Bool) (minLayer : ℕ)
    (hexit : ∀ l < minLayer, ∀ x, shouldExit l x = false) :
    let run := (b.resetPosition.forwardLogits prompt).2.decodeEarlyExit shouldExit tokens
    (∀ answer ∈ run.1, ∃ r, answer = .ok r) ∧ run.2.indexPos = (prompt ++ tokens).length ∧
      ∃ m', run.2.model = some m' ∧
        (∀ l ≤ minLayer, m'.layers[l]?.map (·.kvCache.rows) =
          (singleShot m b.device (fun _ _ => none) (prompt ++ tokens)).2.layers[l]?.map
            (·.kvCache.rows)) ∧
        ((prompt ++ tokens).length :: heldLengths m'.layers).Pairwise (· ≥ ·) := by
  intro run
  have hcausal : CausalMasks m.masks := by
    rw [hmasks]
    exact causalMasks_nil
  have hrow : RowWise (fun _ _ => none) fun _ x => x := fun _ x => (List.map_id x).symm
  rw [List.length_append] at hroom
  have hreset := Backend.holds_resetPosition hmodel hcausal fun _ x => x
  obtain ⟨-, hprefilled⟩ := hreset.forwardLogitsWithObserver hrow hprompt
    (fun t ht => htokens t (List.mem_append_left tokens ht))
    (fun w hw => le_trans (by rw [List.length_nil]; omega) (hroom w hw))
  obtain ⟨hanswers, ⟨rest, masks, hlast, -, hweights, hdesc⟩, hpos⟩ :=
    (hprefilled.upTo (minLayer + 1)).decode tokens
      (fun t ht => htokens t (List.mem_append_right prompt ht)) hroom
      fun l hl => hexit l (Nat.lt_of_succ_lt_succ hl)
  obtain ⟨masks', hsingle⟩ := singleShot_eq b.device hcausal hrow
    (List.append_ne_nil_of_left_ne_nil hprompt tokens) htokens
    (by rwa [List.length_append])
  refine ⟨hanswers, hpos, _, hlast, fun l hl => ?_, hdesc⟩
  rw [hsingle]
  have hrest : rest.length = m.layers.length - (minLayer + 1) := by
    simpa using congrArg List.length hweights
  show Option.map _ ((_ ++ rest)[l]?) = Option.map _ ((holdLayers 0 _ _ m.layers)[l]?)
  rw [← holdLayers_take]
  by_cases hlt : l < m.layers.length
  · rw [List.getElem?_append_left (by simp [holdLayers]; omega), List.getElem?_take,
      if_pos (Nat.lt_succ_of_le hl)]
    rfl
  · rw [List.getElem?_eq_none (by simp [holdLayers]; omega),
      List.getElem?_eq_none (by simp [holdLayers]; omega)]

/-- Every step leaves the twelve layers behind the third one. -/
theorem early_exit_shallow_layers_narrow :
    let run := (narrowBackend.resetPosition.forwardLogits [0, 1, 1]).2.decodeEarlyExit
      (fun l _ => l == 2) [1, 0, 1]
    (∀ answer ∈ run.1, ∃ logits, answer = .ok (logits, 2)) ∧ run.2.indexPos = 6 ∧
      ∃ m', run.2.model = some m' ∧
        (∀ l ≤ 2, m'.layers[l]?.map (·.kvCache.rows) =
          (singleShot narrowModel narrowBackend.device (fun _ _ => none)
            [0, 1, 1, 1, 0, 1]).2.layers[l]?.map (·.kvCache.rows)) ∧
        (6 :: heldLengths m'.layers).Pairwise (· ≥ ·) := by
  have hstay : ∀ l < 2, ∀ _ : List Row, (l == 2) = false := by
    intro l hl _
    exact beq_false_of_ne hl.ne
  obtain ⟨-, hpos, m', hmodel, hsame, hdesc⟩ := early_exit_shallow_layers narrowBackend narrowModel
    rfl rfl [0, 1, 1] [1, 0, 1] (by decide) (by decide) (narrow_room 6 (by decide))
    (fun l _ => l == 2) 2 hstay
  have hreset := Backend.holds_resetPosition (b := narrowBackend) rfl causalMasks_nil fun _ x => x
  have hrow : RowWise (fun _ _ => none) fun _ x => x := fun _ x => (List.map_id x).symm
  obtain ⟨-, hprefilled⟩ := hreset.forwardLogitsWithObserver hrow
    (show [0, 1, 1] ≠ [] by decide) (by decide) (narrow_room 3 (by decide))
  have hexits := (hprefilled.upTo 3).decode_exits [1, 0, 1] (by decide)
    (narrow_room 6 (by decide)) (by decide) hstay fun _ => rfl
  exact ⟨hexits, hpos, m', hmodel, hsame, hdesc⟩

end Zllm.Dense
