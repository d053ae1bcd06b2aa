import Zllm.Candle.DenseTower

/-!
# Runs of the candle backend

A backend whose position is the length of what its caches hold stays one, whatever it is fed and
however it is cut: every call answers with the logits that a single pass over the tokens held would
give, and leaves the rows which that pass would leave. The hooks may write to the residual stream,
one row at a time.
-/

namespace Zllm.Dense

open CausalTower

/-! ### What a model makes of a sequence of tokens -/

/-- What is written back behind a layer is a function of each row. -/
def RowWise (onLayer : ℕ → List Row → Option (List Row)) (hook : ℕ → Row → Row) : Prop :=
  ∀ l x, (onLayer l x).getD x = x.map (hook l)

/-- Nothing is written to the residual stream. -/
def unhooked (_ : ℕ) (x : Row) : Row := x

namespace ModelWeights

variable (m : ModelWeights) (hook : ℕ → Row → Row) (held : List Token)

noncomputable def rowAt : ℕ → ℕ → Row :=
  trace (tower m.layers hook) 0 default fun i => m.tokEmbeddings (held.getD i 0)

noncomputable def entryAt : ℕ → ℕ → Row × Row :=
  traceEntry (tower m.layers hook) 0 default fun i => m.tokEmbeddings (held.getD i 0)

/-- The logits behind the last of these tokens. -/
noncomputable def logitsAt : Row :=
  m.output (m.norm (m.rowAt hook held m.layers.length (held.length - 1)))

/-- The model with these tokens in its caches. -/
noncomputable def holding (masks : List ((ℕ × ℕ) × Mask)) : ModelWeights :=
  { m with layers := holdLayers 0 (m.entryAt hook held) held.length m.layers, masks }

/-- Room for so many positions in every layer's tables. -/
def Room (n : ℕ) : Prop := ∀ b ∈ m.layers, n ≤ b.weights.tables.maxSeq

end ModelWeights

/-- What is cached under a length of rows and of keys is their mask. -/
def CausalMasks (masks : List ((ℕ × ℕ) × Mask)) : Prop :=
  ∀ seqLen indexPos mask, masks.lookup (seqLen, indexPos + seqLen) = some mask →
    mask = buildCausalMask seqLen indexPos

theorem causalMasks_nil : CausalMasks [] := by
  intro seqLen indexPos mask hlookup
  cases hlookup

section

variable {m : ModelWeights} {hook : ℕ → Row → Row} {masks : List ((ℕ × ℕ) × Mask)}

theorem CausalMasks.cons (hmasks : CausalMasks masks) (seqLen indexPos : ℕ) :
    CausalMasks (((seqLen, indexPos + seqLen), buildCausalMask seqLen indexPos) :: masks) := by
  intro seqLen' indexPos' mask hlookup
  rw [List.lookup_cons] at hlookup
  split at hlookup
  · next hsame =>
    rw [beq_iff_eq, Prod.mk.injEq] at hsame
    obtain rfl := hsame.1
    obtain rfl : indexPos' = indexPos := by omega
    exact (Option.some.inj hlookup).symm
  · exact hmasks seqLen' indexPos' mask hlookup

theorem mask_eq (hmasks : CausalMasks m.masks) (seqLen indexPos : ℕ) :
    ∃ masks, CausalMasks masks ∧
      m.mask seqLen indexPos = (buildCausalMask seqLen indexPos, { m with masks }) := by
  unfold ModelWeights.mask
  split
  · next mask hlookup =>
    exact ⟨m.masks, hmasks, by rw [hmasks seqLen indexPos mask hlookup]⟩
  · exact ⟨_, hmasks.cons seqLen indexPos, rfl⟩

end

/-! ### Prefixes -/

theorem holdLayers_congr {l n : ℕ} {entry entry' : ℕ → ℕ → Row × Row} (layers : List Block)
    (hentry : ∀ j < layers.length, ∀ i < n, entry (l + j) i = entry' (l + j) i) :
    holdLayers l entry n layers = holdLayers l entry' n layers := by
  refine List.ext_getElem (by simp [holdLayers]) fun j hj _ => ?_
  have hj : j < layers.length := by simpa [holdLayers] using hj
  simp only [holdLayers, List.getElem_mapIdx]
  rw [rowsFrom_congr 0 n _ fun i _ hi => hentry j hj i (by omega)]

section

variable (m : ModelWeights) (hook : ℕ → Row → Row)

theorem getD_append_left (held new : List Token) {i : ℕ} (hi : i < held.length) :
    (held ++ new).getD i 0 = held.getD i 0 :=
  List.getD_append held new 0 i hi

/-- What is held of a prefix does not depend on what follows it. -/
theorem entryAt_append (held new : List Token) (l : ℕ) {i : ℕ} (hi : i < held.length) :
    m.entryAt hook (held ++ new) l i = m.entryAt hook held l i :=
  traceEntry_congr _ _ _ _ (fun j hj => by rw [getD_append_left held new hj]) l i hi

theorem rowAt_append (held new : List Token) (l : ℕ) {i : ℕ} (hi : i < held.length) :
    m.rowAt hook (held ++ new) l i = m.rowAt hook held l i :=
  trace_congr _ _ _ _ (fun j hj => by rw [getD_append_left held new hj]) l i hi

theorem logitsAt_take {held : List Token} {n : ℕ} (hpos : 0 < n) (hn : n ≤ held.length) :
    m.logitsAt hook (held.take n) =
      m.output (m.norm (m.rowAt hook held m.layers.length (n - 1))) := by
  have hlen : (held.take n).length = n := List.length_take_of_le hn
  have hrow := rowAt_append m hook (held.take n) (held.drop n) m.layers.length
    (i := n - 1) (by omega)
  rw [List.take_append_drop] at hrow
  rw [ModelWeights.logitsAt, hlen, hrow]

end

/-! ### One pass -/

section

variable {m : ModelWeights} {hook : ℕ → Row → Row} {masks : List ((ℕ × ℕ) × Mask)} (dev : Device)
  {onLayer : ℕ → List Row → Option (List Row)} {held new : List Token}

theorem tower_getElem? {j : ℕ} {b : Block} (hb : m.layers[j]? = some b) :
    tower m.layers hook j = b.weights.layer (hook j) := by
  rw [tower, hb]

theorem embedded_eq (hook : ℕ → Row → Row) (held new : List Token) :
    new.map m.tokEmbeddings =
      rowsFrom held.length new.length (m.rowAt hook (held ++ new) 0) := by
  refine List.ext_getElem (by simp) fun i hi _ => ?_
  have hi : i < new.length := by simpa using hi
  simp [rowsFrom, ModelWeights.rowAt, trace, hi]

/-- A pass over new tokens behind those held. -/
theorem forwardRows_holding (hmasks : CausalMasks masks)
    (onLayer : ℕ → List Row → Option (List Row))
    (honLayer : ∀ l x, onLayer l x = some (x.map (hook l)))
    (htokens : ∀ t ∈ new, t < m.vocabSize) (hroom : m.Room (held.length + new.length)) :
    ∃ masks', CausalMasks masks' ∧
      (m.holding hook held masks).forwardRows dev new held.length onLayer =
        (.ok (rowsFrom held.length new.length (m.rowAt hook (held ++ new) m.layers.length), none),
          m.holding hook (held ++ new) masks') := by
  have hvocab : (new.all (· < m.vocabSize)) = true := by simpa using htokens
  have hsame : holdLayers 0 (m.entryAt hook held) held.length m.layers =
      holdLayers 0 (m.entryAt hook (held ++ new)) held.length m.layers :=
    holdLayers_congr m.layers fun j _ i hi => (entryAt_append m hook held new (0 + j) hi).symm
  have hlayers (mask : Option Mask)
      (hmask : mask =
        if new.length = 1 then none else some (buildCausalMask new.length held.length)) :
      forwardLayers dev mask held.length onLayer 0
          (holdLayers 0 (m.entryAt hook held) held.length m.layers) (new.map m.tokEmbeddings) =
        (.ok (rowsFrom held.length new.length (m.rowAt hook (held ++ new) m.layers.length), none),
          holdLayers 0 (m.entryAt hook (held ++ new)) (held ++ new).length m.layers) := by
    rw [embedded_eq hook held new, hsame, List.length_append, ← Nat.zero_add m.layers.length]
    refine forwardLayers_eq dev hmask honLayer m.layers 0 fun j b hb => ?_
    rw [Nat.zero_add]
    exact ⟨tower_getElem? hb, hroom b (List.mem_of_getElem? hb)⟩
  unfold ModelWeights.forwardRows
  by_cases hone : new.length = 1
  · refine ⟨masks, hmasks, ?_⟩
    have hlayers := hlayers none (if_pos hone).symm
    simp only [if_pos hone, ModelWeights.holding, hvocab, hlayers, ↓reduceIte]
  · obtain ⟨masks', hmasks', hmask⟩ :=
      mask_eq (m := m.holding hook held masks) hmasks new.length held.length
    refine ⟨masks', hmasks', ?_⟩
    have hlayers := hlayers (some _) (if_neg hone).symm
    simp only [if_neg hone, hmask]
    simp only [ModelWeights.holding, hlayers]
    exact if_pos hvocab

/-- The last row of the chunk gives the logits behind all tokens. -/
theorem lastLogits_rowsFrom (hnew : new ≠ []) :
    m.lastLogits (rowsFrom held.length new.length (m.rowAt hook (held ++ new) m.layers.length)) =
      m.logitsAt hook (held ++ new) := by
  have hpos : 0 < new.length := List.length_pos_iff.mpr hnew
  rw [ModelWeights.lastLogits, ModelWeights.logitsAt, List.length_append,
    List.getLastD_eq_getLast?, List.getLast?_eq_getElem?, rowsFrom_length, rowsFrom,
    List.getElem?_map, List.getElem?_range (by omega), Nat.add_sub_assoc hpos]
  rfl

theorem forwardWithCallback_holding (hmasks : CausalMasks masks) (hrow : RowWise onLayer hook)
    (held : List Token) (hnew : new ≠ []) (htokens : ∀ t ∈ new, t < m.vocabSize)
    (hroom : m.Room (held.length + new.length)) :
    ∃ masks', CausalMasks masks' ∧
      (m.holding hook held masks).forwardWithCallback dev new held.length onLayer =
        (.ok (m.logitsAt hook (held ++ new)), m.holding hook (held ++ new) masks') := by
  obtain ⟨masks', hmasks', hforward⟩ := forwardRows_holding dev hmasks
    (fun l x => some ((onLayer l x).getD x)) (fun l x => congrArg some (hrow l x)) htokens hroom
  refine ⟨masks', hmasks', ?_⟩
  rw [ModelWeights.forwardWithCallback, hforward, ← lastLogits_rowsFrom hnew]
  rfl

theorem forwardAllPositions_holding (hmasks : CausalMasks masks) (hhook : ∀ l x, hook l x = x)
    (htokens : ∀ t ∈ new, t < m.vocabSize) (hroom : m.Room (held.length + new.length)) :
    ∃ masks', CausalMasks masks' ∧
      (m.holding hook held masks).forwardAllPositions dev new held.length =
        (.ok ((List.range new.length).map fun i =>
          m.logitsAt hook (held ++ new.take (i + 1))), m.holding hook (held ++ new) masks') := by
  have hnone (l : ℕ) (x : List Row) : some x = some (x.map (hook l)) := by
    rw [show hook l = id from funext (hhook l), List.map_id]
  obtain ⟨masks', hmasks', hforward⟩ :=
    forwardRows_holding dev hmasks (fun _ x => some x) hnone htokens hroom
  refine ⟨masks', hmasks', ?_⟩
  have hlogits : (rowsFrom held.length new.length
      (m.rowAt hook (held ++ new) m.layers.length)).map (fun x => m.output (m.norm x)) =
      (List.range new.length).map fun i => m.logitsAt hook (held ++ new.take (i + 1)) := by
    rw [rowsFrom_map, rowsFrom]
    refine List.map_congr_left fun i hi => ?_
    have hi : i < new.length := List.mem_range.mp hi
    have htake : held ++ new.take (i + 1) = (held ++ new).take (held.length + (i + 1)) := by
      rw [List.take_length_add_append]
    rw [htake, logitsAt_take m hook (by omega) (by rw [List.length_append]; omega)]
    rfl
  rw [ModelWeights.forwardAllPositions, hforward, ← hlogits]
  rfl

/-! ### The cache operations -/

theorem truncate_eq (c : KvCache) (n : ℕ) : c.truncate n = { c with rows := c.rows.take n } := by
  unfold KvCache.truncate
  split_ifs with hall hzero
  · rw [List.take_of_length_le hall]
  · rw [hzero, List.take_zero]
    rfl
  · rfl

theorem truncate_holdLayers (entry : ℕ → ℕ → Row × Row) {n k : ℕ} (hk : k ≤ n)
    (layers : List Block) :
    (holdLayers 0 entry n layers).map (fun b => { b with kvCache := b.kvCache.truncate k }) =
      holdLayers 0 entry k layers := by
  refine List.ext_getElem (by simp [holdLayers]) fun j _ _ => ?_
  simp only [holdLayers, List.getElem_map, List.getElem_mapIdx, Block.holding, truncate_eq,
    rowsFrom_take, min_eq_left hk]

theorem truncate_holding {n : ℕ} (hn : n ≤ held.length) :
    (m.holding hook held masks).truncateKvCache n = m.holding hook (held.take n) masks := by
  have hlen : (held.take n).length = n := List.length_take_of_le hn
  have hprefix : holdLayers 0 (m.entryAt hook held) n m.layers =
      holdLayers 0 (m.entryAt hook (held.take n)) n m.layers :=
    holdLayers_congr m.layers fun j _ i hi => by
      have := entryAt_append m hook (held.take n) (held.drop n) (0 + j) (i := i)
        (by omega)
      rwa [List.take_append_drop] at this
  simp only [ModelWeights.truncateKvCache, ModelWeights.holding, hlen,
    truncate_holdLayers _ hn, hprefix]

/-- Empty caches hold no tokens. -/
theorem clear_eq_holding (m : ModelWeights) (hook : ℕ → Row → Row) :
    m.clearKvCache = m.holding hook [] m.masks := by
  unfold ModelWeights.clearKvCache ModelWeights.holding
  congr 1
  refine List.ext_getElem (by simp [holdLayers]) fun j _ _ => ?_
  simp only [holdLayers, List.getElem_map, List.getElem_mapIdx, Block.holding]
  rfl

theorem clear_holding :
    (m.holding hook held masks).clearKvCache = m.holding hook [] masks := by
  unfold ModelWeights.clearKvCache ModelWeights.holding
  congr 1
  refine List.ext_getElem (by simp [holdLayers]) fun j _ _ => ?_
  simp only [holdLayers, List.getElem_map, List.getElem_mapIdx, Block.holding]
  rfl

end

/-! ### The backend -/

/-- The caches hold these tokens, and the position is behind them. -/
structure Backend.Holds (b : Backend) (m : ModelWeights) (hook : ℕ → Row → Row)
    (held : List Token) : Prop where
  model : ∃ masks, CausalMasks masks ∧ b.model = some (m.holding hook held masks)
  indexPos : b.indexPos = held.length

namespace Backend

variable {b : Backend} {m : ModelWeights} {hook : ℕ → Row → Row} {held new : List Token}
  {onLayer : ℕ → List Row → Option (List Row)}

theorem Holds.resetPosition (hb : b.Holds m hook held) : b.resetPosition.Holds m hook [] := by
  obtain ⟨⟨masks, hmasks, hmodel⟩, -⟩ := hb
  refine ⟨⟨masks, hmasks, ?_⟩, rfl⟩
  rw [Backend.resetPosition, hmodel]
  exact congrArg some clear_holding

theorem holds_resetPosition (hmodel : b.model = some m) (hmasks : CausalMasks m.masks)
    (hook : ℕ → Row → Row) : b.resetPosition.Holds m hook [] := by
  refine ⟨⟨m.masks, hmasks, ?_⟩, rfl⟩
  rw [Backend.resetPosition, hmodel]
  exact congrArg some (clear_eq_holding m hook)

theorem Holds.truncateTo (hb : b.Holds m hook held) {n : ℕ} (hn : n ≤ held.length) :
    (b.truncateTo n).Holds m hook (held.take n) := by
  obtain ⟨⟨masks, hmasks, hmodel⟩, -⟩ := hb
  refine ⟨⟨masks, hmasks, ?_⟩, (List.length_take_of_le hn).symm⟩
  rw [Backend.truncateTo, hmodel]
  exact congrArg some (truncate_holding hn)

/-- The pieces of a prompt, however long each is. -/
theorem forwardPieces_holding (dev : Device) {chunk : ℕ} (hchunk : 0 < chunk)
    (hrow : RowWise onLayer hook) (pieces : ℕ) (held new : List Token) (last : Option Row)
    {masks : List ((ℕ × ℕ) × Mask)} (hmasks : CausalMasks masks) (hpieces : new.length ≤ pieces)
    (htokens : ∀ t ∈ new, t < m.vocabSize) (hroom : m.Room (held.length + new.length)) :
    ∃ masks', CausalMasks masks' ∧
      forwardPieces dev onLayer chunk pieces new (m.holding hook held masks) held.length last =
        (.ok (if new = [] then last else some (m.logitsAt hook (held ++ new))),
          m.holding hook (held ++ new) masks', (held ++ new).length) := by
  induction pieces generalizing held new last masks with
  | zero =>
    obtain rfl := List.length_eq_zero_iff.mp (Nat.le_zero.mp hpieces)
    exact ⟨masks, hmasks, by rw [List.append_nil]; rfl⟩
  | succ pieces ih =>
    by_cases hnew : new = []
    · subst hnew
      exact ⟨masks, hmasks, by rw [List.append_nil]; rfl⟩
    · have hpos : 0 < new.length := List.length_pos_iff.mpr hnew
      have hsplit : held ++ new.take chunk ++ new.drop chunk = held ++ new := by
        rw [List.append_assoc, List.take_append_drop]
      have hlen : (held ++ new.take chunk).length + (new.drop chunk).length =
          held.length + new.length := by
        rw [← List.length_append, hsplit, List.length_append]
      obtain ⟨masks₁, hmasks₁, hpiece⟩ := forwardWithCallback_holding dev hmasks hrow
        held (by simp [hnew, hchunk.ne'] : new.take chunk ≠ [])
        (fun t ht => htokens t (List.mem_of_mem_take ht))
        (fun w hw => by
          have := hroom w hw
          rw [List.length_append] at hlen
          omega)
      obtain ⟨masks₂, hmasks₂, hrest⟩ := ih (held ++ new.take chunk) (new.drop chunk)
        (some (m.logitsAt hook (held ++ new.take chunk))) hmasks₁
        (by rw [List.length_drop]; omega)
        (fun t ht => htokens t (List.mem_of_mem_drop ht)) (by rwa [hlen])
      refine ⟨masks₂, hmasks₂, ?_⟩
      rw [hsplit] at hrest
      have hempty : ¬ new.isEmpty = true := by simpa using hnew
      rw [forwardPieces, if_neg hempty, hpiece]
      simp only
      rw [← List.length_append, hrest, if_neg hnew]
      split_ifs with hdone
      · rw [← hsplit, hdone, List.append_nil]
      · rfl

theorem Holds.forwardLogitsWithObserver (hb : b.Holds m hook held) (hrow : RowWise onLayer hook)
    (hnew : new ≠ []) (htokens : ∀ t ∈ new, t < m.vocabSize)
    (hroom : m.Room (held.length + new.length)) :
    (b.forwardLogitsWithObserver new onLayer).1 = .ok (m.logitsAt hook (held ++ new)) ∧
      (b.forwardLogitsWithObserver new onLayer).2.Holds m hook (held ++ new) := by
  obtain ⟨⟨masks, hmasks, hmodel⟩, hpos⟩ := hb
  have hchunk : 0 < b.chunk := lt_max_of_lt_right (by norm_num)
  obtain ⟨masks', hmasks', hpieces⟩ := forwardPieces_holding b.device hchunk hrow new.length held
    new none hmasks le_rfl htokens hroom
  have hempty : ¬ new.isEmpty = true := by simpa using hnew
  rw [Backend.forwardLogitsWithObserver, hmodel]
  simp only [if_neg hempty, hpos, hpieces, if_neg hnew]
  exact ⟨rfl, ⟨masks', hmasks', rfl⟩, rfl⟩

theorem Holds.forwardAllLogits (hb : b.Holds m hook held) (hhook : ∀ l x, hook l x = x)
    (htokens : ∀ t ∈ new, t < m.vocabSize) (hroom : m.Room (held.length + new.length)) :
    (b.forwardAllLogits new).1 =
        .ok ((List.range new.length).map fun i => m.logitsAt hook (held ++ new.take (i + 1))) ∧
      (b.forwardAllLogits new).2.Holds m hook (held ++ new) := by
  obtain ⟨⟨masks, hmasks, hmodel⟩, hpos⟩ := hb
  obtain ⟨masks', hmasks', hforward⟩ :=
    forwardAllPositions_holding b.device hmasks hhook htokens hroom
  rw [Backend.forwardAllLogits, hmodel]
  simp only [hpos, hforward, Backend.advance]
  refine ⟨trivial, ⟨masks', hmasks', rfl⟩, ?_⟩
  rw [List.length_append]
  rfl

end Backend

/-! ### Runs -/

inductive Call
  | forwardLogits (tokens : List Token)
  | forwardAllLogits (tokens : List Token)
  | truncateTo (n : ℕ)
  | resetPosition

/-- The rows of logits that a call gives back. -/
noncomputable def Backend.perform (onLayer : ℕ → List Row → Option (List Row)) (b : Backend) :
    Call → Except CandleError (List Row) × Backend
  | .forwardLogits tokens =>
      let (logits, b) := b.forwardLogitsWithObserver tokens onLayer
      (logits.map fun row => [row], b)
  | .forwardAllLogits tokens => b.forwardAllLogits tokens
  | .truncateTo n => (.ok [], b.truncateTo n)
  | .resetPosition => (.ok [], b.resetPosition)

noncomputable def Backend.run (onLayer : ℕ → List Row → Option (List Row)) :
    List Call → Backend → List (Except CandleError (List Row)) × Backend
  | [], b => ([], b)
  | call :: calls, b =>
      let (answer, b) := b.perform onLayer call
      let (answers, b) := Backend.run onLayer calls b
      (answer :: answers, b)

/-- The tokens held behind a call. -/
def Call.held (held : List Token) : Call → List Token
  | .forwardLogits tokens | .forwardAllLogits tokens => held ++ tokens
  | .truncateTo n => held.take n
  | .resetPosition => []

/-- Known tokens for which there is room, and no more kept than is held. A batched pass has no
hooks. -/
def Call.Fits (m : ModelWeights) (hook : ℕ → Row → Row) (held : List Token) : Call → Prop
  | .forwardLogits tokens =>
      tokens ≠ [] ∧ (∀ t ∈ tokens, t < m.vocabSize) ∧ m.Room (held.length + tokens.length)
  | .forwardAllLogits tokens =>
      (∀ l x, hook l x = x) ∧ tokens ≠ [] ∧ (∀ t ∈ tokens, t < m.vocabSize) ∧
        m.Room (held.length + tokens.length)
  | .truncateTo n => n ≤ held.length
  | .resetPosition => True

def FitAll (m : ModelWeights) (hook : ℕ → Row → Row) : List Token → List Call → Prop
  | _, [] => True
  | held, call :: calls => call.Fits m hook held ∧ FitAll m hook (call.held held) calls

/-- One pass over all tokens from empty caches. -/
noncomputable def singleShot (m : ModelWeights) (dev : Device)
    (onLayer : ℕ → List Row → Option (List Row)) (tokens : List Token) :
    Except CandleError Row × ModelWeights :=
  m.clearKvCache.forwardWithCallback dev tokens 0 onLayer

/-- What single passes over the tokens held answer. -/
noncomputable def Call.answer (m : ModelWeights) (dev : Device)
    (onLayer : ℕ → List Row → Option (List Row)) (held : List Token) :
    Call → List (Except CandleError Row)
  | .forwardLogits tokens => [(singleShot m dev onLayer (held ++ tokens)).1]
  | .forwardAllLogits tokens =>
      (List.range tokens.length).map fun i =>
        (singleShot m dev onLayer (held ++ tokens.take (i + 1))).1
  | .truncateTo _ | .resetPosition => []

noncomputable def answers (m : ModelWeights) (dev : Device)
    (onLayer : ℕ → List Row → Option (List Row)) :
    List Token → List Call → List (List (Except CandleError Row))
  | _, [] => []
  | held, call :: calls =>
      call.answer m dev onLayer held :: answers m dev onLayer (call.held held) calls

section

variable {b : Backend} {m : ModelWeights} {hook : ℕ → Row → Row} {held : List Token}
  {onLayer : ℕ → List Row → Option (List Row)}

theorem singleShot_eq (dev : Device) (hmasks : CausalMasks m.masks) (hrow : RowWise onLayer hook)
    {tokens : List Token} (hne : tokens ≠ []) (htokens : ∀ t ∈ tokens, t < m.vocabSize)
    (hroom : m.Room tokens.length) :
    ∃ masks, singleShot m dev onLayer tokens =
      (.ok (m.logitsAt hook tokens), m.holding hook tokens masks) := by
  obtain ⟨masks, -, hforward⟩ := forwardWithCallback_holding dev hmasks hrow [] hne htokens
    (by rwa [List.length_nil, Nat.zero_add])
  refine ⟨masks, ?_⟩
  rw [singleShot, clear_eq_holding m hook]
  exact hforward

/-- Only known tokens are held, and there is room for them. -/
def Known (m : ModelWeights) (held : List Token) : Prop :=
  (∀ t ∈ held, t < m.vocabSize) ∧ m.Room held.length

theorem Known.append {tokens : List Token} (hheld : Known m held)
    (htokens : ∀ t ∈ tokens, t < m.vocabSize) (hroom : m.Room (held.length + tokens.length)) :
    Known m (held ++ tokens) := by
  refine ⟨fun t ht => ?_, by rwa [List.length_append]⟩
  rcases List.mem_append.mp ht with hold | hnew
  · exact hheld.1 t hold
  · exact htokens t hnew

theorem Known.take (hheld : Known m held) (n : ℕ) : Known m (held.take n) := by
  refine ⟨fun t ht => hheld.1 t (List.mem_of_mem_take ht), fun w hw => ?_⟩
  exact (List.length_take_le' n held).trans (hheld.2 w hw)

theorem singleShot_fst (dev : Device) (hmasks : CausalMasks m.masks) (hrow : RowWise onLayer hook)
    (hne : held ≠ []) (hheld : Known m held) :
    (singleShot m dev onLayer held).1 = .ok (m.logitsAt hook held) := by
  obtain ⟨masks, hsingle⟩ := singleShot_eq dev hmasks hrow hne hheld.1 hheld.2
  rw [hsingle]

/-- A call that fits answers what single passes answer, and goes on to hold the tokens. -/
theorem Backend.Holds.perform (hb : b.Holds m hook held) (hmasks : CausalMasks m.masks)
    (hrow : RowWise onLayer hook) (hheld : Known m held) {call : Call}
    (hfits : call.Fits m hook held) :
    (∃ rows, (b.perform onLayer call).1 = .ok rows ∧
      rows.map Except.ok = call.answer m b.device onLayer held) ∧
    (b.perform onLayer call).2.Holds m hook (call.held held) ∧ Known m (call.held held) := by
  cases call with
  | forwardLogits tokens =>
    obtain ⟨hne, htokens, hroom⟩ := hfits
    obtain ⟨hlogits, hholds⟩ := hb.forwardLogitsWithObserver hrow hne htokens hroom
    have hknown := hheld.append htokens hroom
    refine ⟨⟨[m.logitsAt hook (held ++ tokens)], ?_, ?_⟩, hholds, hknown⟩
    · exact congrArg (Except.map fun row => [row]) hlogits
    · rw [Call.answer, singleShot_fst b.device hmasks hrow (by simp [hne]) hknown]
      rfl
  | forwardAllLogits tokens =>
    obtain ⟨hhook, hne, htokens, hroom⟩ := hfits
    obtain ⟨hlogits, hholds⟩ := hb.forwardAllLogits hhook htokens hroom
    have hknown := hheld.append htokens hroom
    refine ⟨⟨_, hlogits, ?_⟩, hholds, hknown⟩
    rw [Call.answer, List.map_map]
    refine List.map_congr_left fun i hi => ?_
    have hi : i < tokens.length := List.mem_range.mp hi
    have hprefix := hknown.take (held.length + (i + 1))
    rw [List.take_length_add_append] at hprefix
    refine (singleShot_fst b.device hmasks hrow ?_ hprefix).symm
    exact List.append_ne_nil_of_right_ne_nil _ (by simp [hne])
  | truncateTo n => exact ⟨⟨[], rfl, rfl⟩, hb.truncateTo hfits, hheld.take n⟩
  | resetPosition =>
    exact ⟨⟨[], rfl, rfl⟩, hb.resetPosition, by simp [Call.held], fun w _ => Nat.zero_le _⟩

theorem perform_device (b : Backend) (call : Call) :
    (b.perform onLayer call).2.device = b.device := by
  cases call with
  | forwardLogits tokens =>
    show (b.forwardLogitsWithObserver tokens onLayer).2.device = b.device
    unfold Backend.forwardLogitsWithObserver
    split
    · rfl
    · split <;> rfl
  | forwardAllLogits tokens =>
    show (b.forwardAllLogits tokens).2.device = b.device
    unfold Backend.forwardAllLogits
    split <;> rfl
  | truncateTo n => rfl
  | resetPosition => rfl

/-- The tokens held behind a run. -/
def heldAfter (held : List Token) (calls : List Call) : List Token := calls.foldl Call.held held

theorem Backend.Holds.run (hb : b.Holds m hook held) (hmasks : CausalMasks m.masks)
    (hrow : RowWise onLayer hook) (hheld : Known m held) {calls : List Call}
    (hfits : FitAll m hook held calls) :
    List.Forall₂ (fun answer single => ∃ rows, answer = .ok rows ∧ rows.map Except.ok = single)
        (b.run onLayer calls).1 (answers m b.device onLayer held calls) ∧
      (b.run onLayer calls).2.Holds m hook (heldAfter held calls) ∧
      Known m (heldAfter held calls) := by
  induction calls generalizing b held with
  | nil => exact ⟨.nil, hb, hheld⟩
  | cons call calls ih =>
    obtain ⟨hanswer, hholds, hknown⟩ := hb.perform hmasks hrow hheld hfits.1
    obtain ⟨hrest, hlast⟩ := ih hholds hknown hfits.2
    rw [perform_device] at hrest
    exact ⟨.cons hanswer hrest, hlast⟩

end

/-! ### The masks of any run -/

section

variable {m : ModelWeights} {dev : Device} {onLayer : ℕ → List Row → Option (List Row)}

theorem causalMasks_forwardRows (hmasks : CausalMasks m.masks) (tokens : List Token)
    (indexPos : ℕ) : CausalMasks (m.forwardRows dev tokens indexPos onLayer).2.masks := by
  unfold ModelWeights.forwardRows
  by_cases hone : tokens.length = 1
  · simp only [if_pos hone]
    split_ifs <;> exact hmasks
  · obtain ⟨masks, hcausal, hmask⟩ := mask_eq hmasks tokens.length indexPos
    simp only [if_neg hone, hmask]
    split_ifs <;> exact hcausal

theorem causalMasks_forwardPieces (chunk pieces : ℕ) (hmasks : CausalMasks m.masks)
    (tokens : List Token) (indexPos : ℕ) (last : Option Row) :
    CausalMasks
      (Backend.forwardPieces dev onLayer chunk pieces tokens m indexPos last).2.1.masks := by
  induction pieces generalizing m tokens indexPos last with
  | zero => exact hmasks
  | succ pieces ih =>
    rw [Backend.forwardPieces]
    split_ifs
    · exact hmasks
    · have hpiece : CausalMasks
          (m.forwardWithCallback dev (tokens.take chunk) indexPos onLayer).2.masks :=
        causalMasks_forwardRows hmasks _ _
      split
      · next hforward => rwa [hforward] at hpiece
      · next hforward =>
        rw [hforward] at hpiece
        exact ih hpiece _ _ _

/-- A loaded model has causal masks only. -/
def Backend.Sound (b : Backend) : Prop := ∀ m, b.model = some m → CausalMasks m.masks

theorem Backend.Sound.perform {b : Backend} (hb : b.Sound)
    (onLayer : ℕ → List Row → Option (List Row)) (call : Call) :
    (b.perform onLayer call).2.Sound := by
  cases call with
  | forwardLogits tokens =>
    show (b.forwardLogitsWithObserver tokens onLayer).2.Sound
    unfold Backend.forwardLogitsWithObserver
    split
    · exact hb
    · next m hmodel =>
      split
      · exact hb
      · rintro _ ⟨⟩
        exact causalMasks_forwardPieces _ _ (hb m hmodel) _ _ _
  | forwardAllLogits tokens =>
    show (b.forwardAllLogits tokens).2.Sound
    unfold Backend.forwardAllLogits
    split
    · exact hb
    · next m hmodel =>
      rintro _ ⟨⟩
      exact causalMasks_forwardRows (hb m hmodel) _ _
  | truncateTo n =>
    rintro _ hmodel
    obtain ⟨m, hm, rfl⟩ := Option.map_eq_some_iff.mp hmodel
    exact hb m hm
  | resetPosition =>
    rintro _ hmodel
    obtain ⟨m, hm, rfl⟩ := Option.map_eq_some_iff.mp hmodel
    exact hb m hm

theorem Backend.Sound.run {b : Backend} (hb : b.Sound)
    (onLayer : ℕ → List Row → Option (List Row)) (calls : List Call) :
    (b.run onLayer calls).2.Sound := by
  induction calls generalizing b with
  | nil => exact hb
  | cons call calls ih => exact ih (hb.perform onLayer call)

end

theorem run_causalMasks {loaded : Backend} (hloaded : ∀ m, loaded.model = some m → m.masks = [])
    (onLayer : ℕ → List Row → Option (List Row)) (calls : List Call) (m : ModelWeights)
    (hmodel : (loaded.run onLayer calls).2.model = some m) : CausalMasks m.masks := by
  have hsound : loaded.Sound := by
    intro m hm
    rw [hloaded m hm]
    exact causalMasks_nil
  exact (hsound.run onLayer calls) m hmodel

/-- A model that was loaded, whatever its backend has gone through since and however it is cut: from
a reset on, calls that fit answer what single passes over the tokens held answer, and the caches
hold what such a pass leaves. -/
theorem run_single_shot (loaded : Backend) (hloaded : ∀ m, loaded.model = some m → m.masks = [])
    (earlier : List Call) (onLayer₀ onLayer : ℕ → List Row → Option (List Row))
    (hook : ℕ → Row → Row) (hrow : RowWise onLayer hook) (m : ModelWeights)
    (hmodel : (loaded.run onLayer₀ earlier).2.model = some m) (calls : List Call)
    (hfits : FitAll m hook [] calls) :
    let start := (loaded.run onLayer₀ earlier).2.resetPosition
    let held := heldAfter [] calls
    List.Forall₂ (fun answer single => ∃ rows, answer = .ok rows ∧ rows.map Except.ok = single)
        (start.run onLayer calls).1 (answers m start.device onLayer [] calls) ∧
      (start.run onLayer calls).2.indexPos = held.length ∧
      (held ≠ [] → ∃ m', (start.run onLayer calls).2.model = some m' ∧
        m'.layers = (singleShot m start.device onLayer held).2.layers) := by
  intro start held
  have hmasks : CausalMasks m.masks := run_causalMasks hloaded onLayer₀ earlier m hmodel
  obtain ⟨hanswers, hholds, hknown⟩ :=
    (Backend.holds_resetPosition hmodel hmasks hook).run hmasks hrow
      ⟨fun t ht => absurd ht List.not_mem_nil, fun w _ => Nat.zero_le _⟩ hfits
  obtain ⟨⟨masks, -, hlast⟩, hpos⟩ := hholds
  refine ⟨hanswers, hpos, fun hne => ⟨_, hlast, ?_⟩⟩
  obtain ⟨masks', hsingle⟩ := singleShot_eq start.device hmasks hrow hne hknown.1 hknown.2
  rw [hsingle]
  rfl

/-- `rope` of candle: the halves of a head are its pairs. -/
noncomputable def ropeHalves (heads headDim : ℕ) (cos sin : ℕ → ℝ) (x : Row) : Row :=
  Tile.cut (heads * headDim) fun i =>
    let d := i % headDim
    let half := headDim / 2
    if d < half then x i * cos d - x (i + half) * sin d
    else x (i - half) * sin (d - half) + x i * cos (d - half)

/-- Buffers that grow to what is needed. -/
noncomputable def plainNn : CandleNn where
  rope := ropeHalves
  ropeI := Llama.rotate
  softmaxLastDim := softmax
  broadcasts dim target := decide (dim = target ∨ dim = 1)
  capacity := max
  softmaxLastDim_eq _ _ _ _ := rfl
  broadcasts_iff _ _ := decide_eq_true_iff
  le_capacity := le_max_right

/-- Layers of width two with room for eight positions, each with its own bias of the keys. -/
noncomputable def narrowLayer (l : ℕ) : LayerWeights where
  nn := plainNn
  attentionWq x := x
  attentionWk x := x
  attentionWv x := x
  attentionWo := Tile.cut 2
  attentionBq := none
  attentionBk := some fun _ => l
  attentionBv := none
  attentionNorm x := x
  mlp := Tile.cut 2
  ffnNorm x := x
  nHead := 1
  nKvHead := 1
  headDim := 2
  ropeNeox := true
  tables := Loader.plainTables 10000 2 8
  headDim_even := ⟨1, rfl⟩
  nKvHead_pos := Nat.one_pos
  nKvHead_dvd := dvd_rfl

noncomputable def narrowModel : ModelWeights where
  vocabSize := 2
  tokEmbeddings t := Tile.cut 2 fun _ => t
  layers := (List.range 12).map fun l => ⟨narrowLayer l, { maxSeqLen := 8, rows := [] }⟩
  norm x := x
  output x := x
  masks := []

noncomputable def narrowBackend : Backend where
  model := some narrowModel
  device := { isCpu := true, avx512f := false }
  nLayers := 12
  hiddenSize := 2
  indexPos := 0
  prefillChunk := none

theorem narrow_room (n : ℕ) (hn : n ≤ 8) : narrowModel.Room n := by
  intro b hb
  obtain ⟨l, -, rfl⟩ := List.mem_map.mp hb
  exact hn

theorem narrow_clear : narrowModel.clearKvCache = narrowModel := by
  simp [ModelWeights.clearKvCache, narrowModel, KvCache.reset]

/-- What a model holds takes no room away. -/
theorem holding_room {m : ModelWeights} {n : ℕ} (hroom : m.Room n) (hook : ℕ → Row → Row)
    (held : List Token) (masks : List ((ℕ × ℕ) × Mask)) : (m.holding hook held masks).Room n := by
  intro b hb
  obtain ⟨j, hj, rfl⟩ := List.mem_mapIdx.mp hb
  exact hroom m.layers[j] (List.getElem_mem hj)

theorem narrow_used : ∃ masks, CausalMasks masks ∧
    (narrowBackend.run (fun _ _ => none) [.forwardLogits [1, 0]]).2.model =
      some (narrowModel.holding unhooked [1, 0] masks) := by
  have hrow : RowWise (fun _ _ => none) unhooked := fun l x => (List.map_id x).symm
  have hfresh : narrowBackend.resetPosition = narrowBackend := by
    simp only [Backend.resetPosition, narrowBackend, Option.map_some, narrow_clear]
  have hheld : narrowBackend.Holds narrowModel unhooked [] :=
    hfresh ▸ Backend.holds_resetPosition rfl causalMasks_nil unhooked
  have hfits : FitAll narrowModel unhooked [] [.forwardLogits [1, 0]] :=
    ⟨⟨by decide, by decide, narrow_room 2 (by decide)⟩, trivial⟩
  obtain ⟨-, ⟨⟨masks, hmasks, hmodel⟩, -⟩, -⟩ := hheld.run causalMasks_nil hrow
    ⟨by decide, narrow_room 0 (by decide)⟩ hfits
  exact ⟨masks, hmasks, hmodel⟩

theorem run_single_shot_narrow :
    ∃ m, (narrowBackend.run (fun _ _ => none) [.forwardLogits [1, 0]]).2.model = some m ∧
      let start := (narrowBackend.run (fun _ _ => none) [.forwardLogits [1, 0]]).2.resetPosition
      let calls := [.forwardLogits [0, 1, 1], .truncateTo 2, .forwardAllLogits [1, 0],
        .forwardLogits [1]]
      List.Forall₂ (fun answer single => ∃ rows, answer = .ok rows ∧ rows.map Except.ok = single)
          (start.run (fun _ _ => none) calls).1
          (answers m start.device (fun _ _ => none) [] calls) ∧
        (start.run (fun _ _ => none) calls).2.indexPos = 5 ∧
        ∃ m', (start.run (fun _ _ => none) calls).2.model = some m' ∧
          m'.layers = (singleShot m start.device (fun _ _ => none) [0, 1, 1, 0, 1]).2.layers := by
  obtain ⟨masks, -, hmodel⟩ := narrow_used
  have hroom : ∀ n ≤ 8, (narrowModel.holding unhooked [1, 0] masks).Room n := fun n hn =>
    holding_room (narrow_room n hn) unhooked [1, 0] masks
  obtain ⟨hanswers, hpos, hlayers⟩ := run_single_shot narrowBackend
    (fun m hm => by cases hm; rfl) [.forwardLogits [1, 0]] (fun _ _ => none) (fun _ _ => none)
    unhooked (fun l x => (List.map_id x).symm) _ hmodel
    [.forwardLogits [0, 1, 1], .truncateTo 2, .forwardAllLogits [1, 0], .forwardLogits [1]]
    ⟨⟨by decide, show ∀ t ∈ [0, 1, 1], t < 2 by decide, hroom 3 (by decide)⟩,
      show 2 ≤ 3 by decide,
      ⟨fun _ _ => rfl, by decide, show ∀ t ∈ [1, 0], t < 2 by decide, hroom 4 (by decide)⟩,
      ⟨by decide, show ∀ t ∈ [1], t < 2 by decide, hroom 5 (by decide)⟩, trivial⟩
  exact ⟨_, hmodel, hanswers, hpos, hlayers (by decide)⟩

end Zllm.Dense
