import Zllm.Candle.DenseRuns

/-!
# Passes that are refused

A pass over a token that is not in the vocabulary, or past the rotary tables, fails in its first
layer and leaves what the caches hold. A prompt that is fed in pieces keeps the pieces before the
one that failed.
-/

namespace Zllm.Dense

/-- The layers share the rotary tables of the model. -/
def ModelWeights.Uniform (m : ModelWeights) : Prop :=
  ∀ b ∈ m.layers, ∀ b' ∈ m.layers, b.weights.tables.maxSeq = b'.weights.tables.maxSeq

/-- Known tokens with room behind what is held. -/
def ModelWeights.Takes (m : ModelWeights) (held new : List Token) : Prop :=
  (∀ t ∈ new, t < m.vocabSize) ∧ m.Room (held.length + new.length)

section

variable {m : ModelWeights} {hook : ℕ → Row → Row} {masks : List ((ℕ × ℕ) × Mask)}
  {onLayer : ℕ → List Row → Option (List Row)} {held new : List Token}

theorem forwardLayers_refused (dev : Device) (mask : Option Mask) {b : Block} {pos : ℕ}
    (layers : List Block) {x : List Row} (hfull : b.weights.tables.maxSeq < pos + x.length) :
    forwardLayers dev mask pos onLayer 0 (b :: layers) x = (.error .narrow, b :: layers) := by
  have hattn : b.weights.blockForward dev b.kvCache x mask pos = (.error .narrow, b.kvCache) := by
    have hfull' : b.weights.tables.maxSeq < pos + (x.map b.weights.attentionNorm).length := by
      rwa [List.length_map]
    rw [LayerWeights.blockForward, LayerWeights.forwardAttn, if_pos hfull']
  rw [forwardLayers, hattn]

theorem forwardRows_refused (dev : Device) (hmasks : CausalMasks masks) (huniform : m.Uniform)
    (hnot : ¬ m.Takes held new) :
    ∃ e masks', CausalMasks masks' ∧
      (m.holding hook held masks).forwardRows dev new held.length onLayer =
        (.error e, m.holding hook held masks') := by
  have hpass (mask : Option Mask) (masks' : List ((ℕ × ℕ) × Mask)) : ∃ e,
      (if (new.all (· < m.vocabSize)) = true then
        let pass := forwardLayers dev mask held.length onLayer 0
          (m.holding hook held masks').layers (new.map m.tokEmbeddings)
        (pass.1, { m.holding hook held masks' with layers := pass.2 })
      else (.error .indexSelect, m.holding hook held masks')) =
        (.error e, m.holding hook held masks') := by
    split_ifs with hvocab
    · have hknown : ∀ t ∈ new, t < m.vocabSize := by simpa using hvocab
      have hroom : ¬ m.Room (held.length + new.length) := fun hroom => hnot ⟨hknown, hroom⟩
      rw [ModelWeights.Room, not_forall] at hroom
      obtain ⟨w, hroom⟩ := hroom
      rw [Classical.not_imp, not_le] at hroom
      cases hlayers : m.layers with
      | nil =>
        rw [hlayers] at hroom
        cases hroom.1
      | cons b layers =>
        have hmem : b ∈ m.layers := hlayers ▸ List.mem_cons_self
        have hhold : (m.holding hook held masks').layers =
            b.holding (rowsFrom 0 held.length (m.entryAt hook held 0)) ::
              holdLayers 1 (m.entryAt hook held) held.length layers := by
          rw [ModelWeights.holding, hlayers]
          exact holdLayers_cons 0 _ _ b layers
        have hfull : (b.holding (rowsFrom 0 held.length (m.entryAt hook held 0))).weights.tables.maxSeq
            < held.length + (new.map m.tokEmbeddings).length := by
          rw [List.length_map]
          exact (huniform b hmem w hroom.1).trans_lt hroom.2
        refine ⟨.narrow, ?_⟩
        rw [hhold, forwardLayers_refused dev mask _ hfull, ← hhold]
    · exact ⟨.indexSelect, rfl⟩
  unfold ModelWeights.forwardRows
  by_cases hone : new.length = 1
  · obtain ⟨e, hresult⟩ := hpass none masks
    refine ⟨e, masks, hmasks, ?_⟩
    simp only [if_pos hone]
    exact hresult
  · obtain ⟨masks', hmasks', hmask⟩ :=
      mask_eq (m := m.holding hook held masks) hmasks new.length held.length
    obtain ⟨e, hresult⟩ := hpass (some (buildCausalMask new.length held.length)) masks'
    refine ⟨e, masks', hmasks', ?_⟩
    simp only [if_neg hone, hmask]
    exact hresult

/-- Nothing is cut where no more is held. -/
theorem truncate_beyond {n : ℕ} (hn : held.length ≤ n) :
    (m.holding hook held masks).truncateKvCache n = m.holding hook held masks := by
  unfold ModelWeights.truncateKvCache ModelWeights.holding
  congr 1
  refine List.ext_getElem (by simp [holdLayers]) fun j _ _ => ?_
  simp only [holdLayers, List.getElem_map, List.getElem_mapIdx, Block.holding, truncate_eq,
    rowsFrom_take, min_eq_right hn]

/-- A mask for another number of keys does not fit. -/
theorem blockForward_misplaced (dev : Device) (w : LayerWeights) (cache : KvCache) {x : List Row}
    (pos : ℕ) (hmany : 2 ≤ x.length) (hpos : pos ≠ cache.currentSeqLen) :
    ∃ e cache', w.blockForward dev cache x (some (buildCausalMask x.length pos)) pos =
      (.error e, cache') := by
  have hattn : ∃ e cache', w.forwardAttn dev cache (x.map w.attentionNorm)
      (some (buildCausalMask x.length pos)) pos = (.error e, cache') := by
    unfold LayerWeights.forwardAttn
    dsimp only
    split_ifs with hfull hone hwidth
    · exact ⟨_, _, rfl⟩
    · rw [List.length_map] at hone
      omega
    · obtain ⟨-, hkeys⟩ := Bool.and_eq_true_iff.mp hwidth
      rw [w.nn.broadcasts_iff] at hkeys
      simp only [buildCausalMask, KvCache.append, KvCache.currentSeqLen, List.length_append,
        List.length_zip, List.length_mapIdx, List.length_map, min_self] at hkeys hpos
      omega
    · exact ⟨_, _, rfl⟩
  obtain ⟨e, cache', hattn⟩ := hattn
  exact ⟨e, cache', by rw [LayerWeights.blockForward, hattn]⟩

/-- Rows at another position than behind what is held are refused. -/
theorem forwardRows_misplaced (dev : Device) (hmasks : CausalMasks masks) (hlayers : m.layers ≠ [])
    (hmany : 2 ≤ new.length) {pos : ℕ} (hpos : pos ≠ held.length) :
    ∃ e, ((m.holding hook held masks).forwardRows dev new pos onLayer).1 = .error e := by
  obtain ⟨masks', -, hmask⟩ := mask_eq (m := m.holding hook held masks) hmasks new.length pos
  have hmany' : new.length ≠ 1 := by omega
  unfold ModelWeights.forwardRows
  simp only [if_neg hmany', hmask]
  split_ifs with hvocab
  · cases hm : m.layers with
    | nil => exact absurd hm hlayers
    | cons b layers =>
      have hhold : (m.holding hook held masks).layers =
          b.holding (rowsFrom 0 held.length (m.entryAt hook held 0)) ::
            holdLayers 1 (m.entryAt hook held) held.length layers := by
        rw [ModelWeights.holding, hm]
        exact holdLayers_cons 0 _ _ b layers
      have hlen : (new.map m.tokEmbeddings).length = new.length := List.length_map _
      obtain ⟨e, cache', hblock⟩ := blockForward_misplaced (x := new.map m.tokEmbeddings)
        dev b.weights (b.holding (rowsFrom 0 held.length (m.entryAt hook held 0))).kvCache pos
        (by rwa [hlen]) (by simpa [Block.holding, KvCache.currentSeqLen] using hpos)
      rw [hlen] at hblock
      have hfirst : (b.holding (rowsFrom 0 held.length (m.entryAt hook held 0))).weights =
          b.weights := rfl
      refine ⟨e, ?_⟩
      rw [hhold, forwardLayers, hfirst]
      simp only [ModelWeights.holding, hblock]
  · exact ⟨_, rfl⟩

/-- So is a prompt whose first piece has more rows than one. -/
theorem forwardLogits_misplaced {b : Backend} (hmasks : CausalMasks masks)
    (hmodel : b.model = some (m.holding hook held masks)) (hlayers : m.layers ≠ [])
    (hmany : 2 ≤ new.length) (hpos : b.indexPos ≠ held.length) :
    ∃ e, (b.forwardLogits new).1 = .error e := by
  have hne : ¬ new.isEmpty = true := by
    rw [List.isEmpty_iff]
    rintro rfl
    exact absurd hmany (by simp)
  have hchunk : 2 ≤ b.chunk := le_max_of_le_right (by norm_num)
  have hpiece : 2 ≤ (new.take b.chunk).length := by
    rw [List.length_take]
    omega
  obtain ⟨pieces, hpieces⟩ : ∃ pieces, new.length = pieces + 1 := ⟨new.length - 1, by omega⟩
  obtain ⟨e, hpass⟩ : ∃ e, ((m.holding hook held masks).forwardWithCallback b.device
      (new.take b.chunk) b.indexPos fun _ _ => none).1 = .error e := by
    obtain ⟨e, hrows⟩ := forwardRows_misplaced b.device hmasks hlayers hpiece hpos
    exact ⟨e, congrArg (Except.map _) hrows⟩
  refine ⟨e, ?_⟩
  rw [Backend.forwardLogits, Backend.forwardLogitsWithObserver, hmodel]
  simp only [if_neg hne, hpieces, Backend.forwardPieces]
  cases hresult : (m.holding hook held masks).forwardWithCallback b.device (new.take b.chunk)
      b.indexPos fun _ _ => none with
  | mk answer m' =>
    rw [hresult] at hpass
    obtain rfl : answer = .error e := hpass
    rfl

/-- The pieces before one that is refused are kept. -/
theorem forwardPieces_refused (dev : Device) {chunk : ℕ} (hchunk : 0 < chunk)
    (hrow : RowWise onLayer hook) (huniform : m.Uniform) (pieces : ℕ) (held new : List Token)
    (last : Option Row) {masks : List ((ℕ × ℕ) × Mask)} (hmasks : CausalMasks masks)
    (hpieces : new.length ≤ pieces) (hheld : Known m held) (hnot : ¬ m.Takes held new)
    (hne : new ≠ []) :
    ∃ e n masks', Known m (held ++ new.take n) ∧ CausalMasks masks' ∧
      Backend.forwardPieces dev onLayer chunk pieces new (m.holding hook held masks) held.length
          last =
        (.error e, m.holding hook (held ++ new.take n) masks', (held ++ new.take n).length) := by
  induction pieces generalizing held new last masks with
  | zero => exact absurd (List.length_eq_zero_iff.mp (Nat.le_zero.mp hpieces)) hne
  | succ pieces ih =>
    have hpos : 0 < new.length := List.length_pos_iff.mpr hne
    have hempty : ¬ new.isEmpty = true := by simpa using hne
    by_cases htakes : m.Takes held (new.take chunk)
    · obtain ⟨masks₁, hmasks₁, hpiece⟩ := forwardWithCallback_holding dev hmasks hrow
        held (by simp [hne, hchunk.ne'] : new.take chunk ≠ []) htakes.1 htakes.2
      have hsplit : held ++ new.take chunk ++ new.drop chunk = held ++ new := by
        rw [List.append_assoc, List.take_append_drop]
      have hlen : (held ++ new.take chunk).length + (new.drop chunk).length =
          held.length + new.length := by
        rw [← List.length_append, hsplit, List.length_append]
      have hrestnot : ¬ m.Takes (held ++ new.take chunk) (new.drop chunk) := by
        rintro ⟨hknown, hroom⟩
        rw [hlen] at hroom
        refine hnot ⟨fun t ht => ?_, hroom⟩
        rw [← List.take_append_drop chunk new] at ht
        rcases List.mem_append.mp ht with hfirst | hsecond
        · exact htakes.1 t hfirst
        · exact hknown t hsecond
      have hdrop : new.drop chunk ≠ [] := by
        intro hnil
        refine hnot ⟨?_, ?_⟩
        · rw [← List.take_append_drop chunk new, hnil, List.append_nil]
          exact htakes.1
        · have hroom := htakes.2
          rwa [show new.take chunk = new by rw [← List.append_nil (new.take chunk), ← hnil,
            List.take_append_drop]] at hroom
      obtain ⟨e, n, masks₂, hkept, hmasks₂, hrest⟩ := ih (held ++ new.take chunk) (new.drop chunk)
        (some (m.logitsAt hook (held ++ new.take chunk))) hmasks₁
        (by rw [List.length_drop]; omega) (hheld.append htakes.1 htakes.2) hrestnot hdrop
      refine ⟨e, chunk + n, masks₂, ?_, hmasks₂, ?_⟩
      · rwa [List.take_add, ← List.append_assoc]
      · rw [Backend.forwardPieces, if_neg hempty, hpiece]
        simp only
        rw [← List.length_append, hrest, List.append_assoc, ← List.take_add]
    · obtain ⟨e, masks₁, hmasks₁, hpiece⟩ := forwardRows_refused dev hmasks huniform htakes
      refine ⟨e, 0, masks₁, by rwa [List.take_zero, List.append_nil], hmasks₁, ?_⟩
      rw [Backend.forwardPieces, if_neg hempty, ModelWeights.forwardWithCallback, hpiece,
        List.take_zero, List.append_nil]
      rfl

end

namespace Backend

variable {b : Backend} {m : ModelWeights} {hook : ℕ → Row → Row} {held new : List Token}
  {onLayer : ℕ → List Row → Option (List Row)}

/-- A prompt that is refused leaves a beginning of it. -/
theorem Holds.forwardLogitsWithObserver_refused (hb : b.Holds m hook held)
    (hrow : RowWise onLayer hook) (huniform : m.Uniform) (hheld : Known m held)
    (hnot : new = [] ∨ ¬ m.Takes held new) :
    ∃ e n, Known m (held ++ new.take n) ∧ (b.forwardLogitsWithObserver new onLayer).1 = .error e ∧
      (b.forwardLogitsWithObserver new onLayer).2.Holds m hook (held ++ new.take n) := by
  have hholds := hb
  obtain ⟨⟨masks, hmasks, hmodel⟩, hpos⟩ := hb
  rw [Backend.forwardLogitsWithObserver, hmodel]
  by_cases hne : new = []
  · subst hne
    exact ⟨.emptyInput, 0, by simpa using hheld, rfl, by simpa using hholds⟩
  · have hempty : ¬ new.isEmpty = true := by simpa using hne
    have hchunk : 0 < b.chunk := lt_max_of_lt_right (by norm_num)
    obtain ⟨e, n, masks', hkept, hmasks', hpieces⟩ := forwardPieces_refused b.device hchunk hrow
      huniform new.length held new none hmasks le_rfl hheld (hnot.resolve_left hne) hne
    simp only [if_neg hempty, hpos, hpieces]
    exact ⟨e, n, hkept, rfl, ⟨masks', hmasks', rfl⟩, rfl⟩

theorem Holds.forwardAllLogits_refused (hb : b.Holds m hook held) (huniform : m.Uniform)
    (hnot : ¬ m.Takes held new) :
    ∃ e, (b.forwardAllLogits new).1 = .error e ∧ (b.forwardAllLogits new).2.Holds m hook held := by
  obtain ⟨⟨masks, hmasks, hmodel⟩, hpos⟩ := hb
  obtain ⟨e, masks', hmasks', hforward⟩ : ∃ e masks', CausalMasks masks' ∧
      (m.holding hook held masks).forwardAllPositions b.device new held.length =
        (.error e, m.holding hook held masks') := by
    obtain ⟨e, masks', hmasks', hforward⟩ := forwardRows_refused b.device hmasks huniform hnot
    refine ⟨e, masks', hmasks', ?_⟩
    rw [ModelWeights.forwardAllPositions, hforward]
    rfl
  rw [Backend.forwardAllLogits, hmodel]
  simp only [hpos, hforward, Backend.advance]
  exact ⟨e, rfl, ⟨masks', hmasks', rfl⟩, rfl⟩

end Backend

end Zllm.Dense
