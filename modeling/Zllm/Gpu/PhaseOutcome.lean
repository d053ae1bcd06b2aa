import Zllm.Gpu.Aborts
import Zllm.Gpu.MakingRoom
import Zllm.Gpu.PrefillPhase

/-!
# How the phases of a step end

Once its blocks fit, a prefill chunk cannot fail, so `advance_prefill` always succeeds. The decode
phase exhausts the pool exactly where the room that `make_room` leaves is not enough, and resuming a
sequence that `can_fit` admits never does.
-/

namespace Zllm.Gpu

open Function (update update_of_ne update_self)
open Outcome ContinuousBatcher
open BlockState (Ledger registerBlocks register_frame prefillPrefixReuse_ledger freeBlocks_reuses
  blocksShort shortfall ensureBlocks_ledger ensureBlocks_eq_true freeBlocks_ensureBlocks
  blocksShort_ensureBlocks)

variable {M B L : Type} {dev : Device M B L} {mem : KvMemory dev} {cb cb' roomy : ContinuousBatcher M B}
  {kv : Nat → SlotKv} {dec dec' : BatchedDecoder M} {rows : List Row} {slot n : Nat}
  {prompt : List Token} {samp : Option (ℚ × UInt32)} {events : List Event}

/-! ### Forwards that fit -/

theorem writeInputs_of_lt (hpos : ∀ row ∈ rows, row.pos < dec.cfg.maxSeq) :
    BatchedDecoder.writeInputs dec.cfg rows = .ok () := by
  rw [BatchedDecoder.writeInputs, if_pos]
  simpa using hpos

theorem forwardLogits_of_paging (dev : Device M B L) {blocks : BlockState}
    (hpos : ∀ row ∈ rows, row.pos < dec.cfg.maxSeq)
    (hpaging : BatchedDecoder.preparePaging dec.cfg rows dec.blocks = .ok blocks) :
    ∃ logits memory, dec.forwardLogits dev rows = .ok (logits, { dec with blocks, mem := memory }) := by
  unfold BatchedDecoder.forwardLogits
  rw [writeInputs_of_lt hpos, hpaging]
  exact ⟨_, _, rfl⟩

theorem forwardLogits_exhausted (dev : Device M B L) (hpos : ∀ row ∈ rows, row.pos < dec.cfg.maxSeq)
    (hpaging : BatchedDecoder.preparePaging dec.cfg rows dec.blocks = .error .poolExhausted) :
    dec.forwardLogits dev rows = .error .poolExhausted := by
  unfold BatchedDecoder.forwardLogits
  rw [writeInputs_of_lt hpos, hpaging]
  rfl

/-- The blocks `slot` needs for `n` positions are free. -/
structure Fits (dec : BatchedDecoder M) (slot n : Nat) : Prop where
  ledger : Ledger dec.cfg [] dec.blocks
  slot_lt : slot < dec.cfg.mMax
  le_maxSeq : n ≤ dec.cfg.maxSeq
  enough : dec.blocks.blocksShort dec.cfg slot n ≤ dec.blocks.freeBlocks dec.cfg

theorem Fits.forwardLogits (dev : Device M B L) (hfits : Fits dec slot n)
    (hrows : ∀ row ∈ rows, row.slot = slot ∧ row.pos < n) :
    ∃ logits dec', dec.forwardLogits dev rows = .ok (logits, dec') ∧ dec'.cfg = dec.cfg ∧
      Fits dec' slot n := by
  obtain ⟨blocks, hpaging, hledger, henough⟩ :=
    preparePaging_slot hfits.ledger hfits.slot_lt hfits.le_maxSeq hrows hfits.enough
  obtain ⟨logits, memory, hforward⟩ :=
    forwardLogits_of_paging dev (fun row hrow => (hrows row hrow).2.trans_le hfits.le_maxSeq) hpaging
  exact ⟨logits, _, hforward, rfl, hledger, hfits.slot_lt, hfits.le_maxSeq, henough⟩

/-! ### Prefills that fit -/

theorem Fits.prefillChunk (dev : Device M B L) (samp : Option (ℚ × UInt32)) {start : Nat}
    (hfits : Fits dec slot n) (hstart : start < prompt.length)
    (hstop : min (start + dec.cfg.rowCap) prompt.length ≤ n) :
    ∃ out dec', dec.prefillChunk dev prompt slot start samp = .ok (out, dec') ∧
      dec'.cfg = dec.cfg ∧ Fits dec' slot n := by
  have hrows : ∀ row ∈ BatchedDecoder.chunkRows prompt slot start
      (min (start + dec.cfg.rowCap) prompt.length), row.slot = slot ∧ row.pos < n := by
    intro row hrow
    obtain ⟨i, hi, rfl⟩ := List.mem_mapIdx.mp hrow
    simp only [List.length_drop, List.length_take] at hi
    exact ⟨rfl, by simp only; omega⟩
  obtain ⟨logits, dec', hforward, hcfg, hfits'⟩ := hfits.forwardLogits dev hrows
  unfold BatchedDecoder.prefillChunk
  dsimp only
  rw [if_pos hstart, hforward]
  exact ⟨_, dec', rfl, hcfg, hfits'⟩

theorem Fits.prefillLoop (dev : Device M B L) (samp : Option (ℚ × UInt32))
    (hfits : Fits dec slot n) (hlen : prompt.length ≤ n) (fuel start : Nat) (firstTok : Token) :
    ∃ g dec', BatchedDecoder.prefillLoop dev prompt slot samp fuel start firstTok dec =
      .ok (g, dec') ∧ dec'.cfg = dec.cfg ∧ Fits dec' slot n := by
  induction fuel generalizing start firstTok dec with
  | zero => exact ⟨_, _, rfl, rfl, hfits⟩
  | succ fuel ih =>
      rw [BatchedDecoder.prefillLoop]
      split
      case isFalse => exact ⟨_, _, rfl, rfl, hfits⟩
      case isTrue hstart =>
        obtain ⟨⟨next, first⟩, chunked, hchunk, hcfg, hfits'⟩ :=
          hfits.prefillChunk dev samp hstart ((Nat.min_le_right _ _).trans hlen)
        rw [hchunk]
        obtain ⟨g, dec', hloop, hcfg', hfits''⟩ := ih hfits' next (first.getD firstTok)
        exact ⟨g, dec', hloop, hcfg'.trans hcfg, hfits''⟩

theorem registerBlocks_succeeds {cfg : PoolConfig} (count lb : Nat) (prevHash : UInt64)
    {blocks : BlockState} (hbacked : lb + count ≤ (blocks.slotBlocks slot).length) :
    ∃ blocks', registerBlocks cfg prompt slot count lb prevHash blocks = .ok blocks' := by
  induction count generalizing lb prevHash blocks with
  | zero => exact ⟨_, rfl⟩
  | succ count ih =>
      rw [registerBlocks, List.getElem?_eq_getElem (by omega)]
      refine ih _ _ ?_
      rw [(register_frame _ _ _).1]
      omega

/-- Registering a prompt whose every position has a block cannot fail. -/
theorem prefillRegister_succeeds (dev : Device M B L) (cachedBlocks : Nat)
    (hbacked : prompt.length ≤ (dec.blocks.slotBlocks slot).length * dec.cfg.blockSize) :
    ∃ dec', dec.prefillRegister dev prompt slot cachedBlocks = .ok dec' := by
  have hfull : prompt.length / dec.cfg.blockSize ≤ (dec.blocks.slotBlocks slot).length := by
    refine (Nat.div_le_div_right hbacked).trans_eq ?_
    exact Nat.mul_div_cancel _ dec.cfg.blockSize_pos
  unfold BatchedDecoder.prefillRegister BlockState.prefillRegister
  dsimp only
  split
  · exact ⟨_, rfl⟩
  · have hcount : cachedBlocks + (prompt.length / dec.cfg.blockSize - cachedBlocks) ≤
        (dec.blocks.slotBlocks slot).length := by omega
    obtain ⟨blocks', hregister⟩ := @registerBlocks_succeeds slot prompt dec.cfg _ cachedBlocks
      (dec.cfg.chainHash prompt cachedBlocks)
      { dec.blocks with
        misses := dec.blocks.misses + (prompt.length / dec.cfg.blockSize - cachedBlocks) } hcount
    rw [hregister]
    exact ⟨_, rfl⟩

/-- Cached blocks only shorten what an admitted prompt still needs. -/
theorem Represents.prefillSlotCached (hrep : Represents mem dec kv) (hslot : slot < dec.cfg.mMax)
    (hempty : dec.blocks.slotBlocks slot = []) (hne : prompt ≠ [])
    (hlen : prompt.length ≤ dec.cfg.maxSeq) (hfits : dec.canFit prompt.length = true) :
    ∃ out dec', dec.prefillSlotCached dev prompt slot samp = .ok (out, dec') := by
  obtain ⟨cached, blocks', hrun, hledger, -, hreuses⟩ :=
    prefillPrefixReuse_ledger prompt hrep.resident.ledger hslot hempty hlen
  have hfree := freeBlocks_reuses hrep.resident.ledger hledger hreuses
  have hneed : prompt.length ⌈/⌉ dec.cfg.blockSize ≤ dec.blocks.freeBlocks dec.cfg :=
    of_decide_eq_true hfits
  cases hreuse : dec.prefillPrefixReuse dev prompt slot with
  | mk lens reused =>
      obtain ⟨cachedLen, cachedBlocks⟩ := lens
      obtain ⟨hrep₁, hframe₁, hcached, hlt⟩ :=
        prefillPrefixReuse_spec hrep hslot hempty hne hlen hreuse
      have hreused : reused.blocks = blocks' := by
        unfold BatchedDecoder.prefillPrefixReuse at hreuse
        rw [hrun] at hreuse
        obtain ⟨-, rfl⟩ := by simpa using hreuse
        rfl
      have hfits₁ : Fits reused slot prompt.length := by
        refine ⟨hrep₁.resident.ledger, by rwa [hframe₁.cfg_eq], by rwa [hframe₁.cfg_eq], ?_⟩
        rw [hframe₁.cfg_eq, hreused, blocksShort]
        omega
      obtain ⟨g, prefilled, hloop, -⟩ :=
        hfits₁.prefillLoop dev samp le_rfl prompt.length cachedLen 0
      obtain ⟨hrep₂, -, -⟩ := prefillLoop_spec hrep₁ hfits₁.slot_lt (update_self slot _ kv) hlt
        (by omega) hloop
      have hbacked := hrep₂.resident.backed slot
      rw [update_self] at hbacked
      obtain ⟨registered, hregister⟩ := prefillRegister_succeeds dev cachedBlocks hbacked
      unfold BatchedDecoder.prefillSlotCached BatchedDecoder.prefillSlotFrom
      rw [if_pos ⟨hne, hlen⟩, hreuse]
      simp only
      rw [if_pos ⟨hne, hfits₁.le_maxSeq, hlt⟩, hloop]
      simp only [bind, Except.bind, hregister]
      exact ⟨_, _, rfl⟩

/-! ### The decode phase -/

theorem Serving.length_add (h : Serving mem 0 cb kv) :
    cb.free.length + cb.active.length + cb.prefilling.length = cb.dec.cfg.mMax := by
  have hcard := congrArg Multiset.card h.slots
  simpa [ContinuousBatcher.slots, Nat.add_assoc] using hcard

theorem CbSeq.Held.pos_add_one {s : CbSeq} (hheld : s.Held kv) : s.pos + 1 = s.tokens.length := by
  have := hheld.produced
  rw [CbSeq.pos]
  omega

theorem Serving.needed_eq (h : Serving mem 0 cb kv) :
    cb.needed = cb.dec.blocks.shortfall cb.dec.cfg (rowNeeds (decodeRows cb.active)) := by
  rw [needed, shortfall, rowNeeds, decodeRows, List.map_map, List.map_map]
  congr 1
  refine List.map_congr_left fun s hs => ?_
  simp only [Function.comp_def, (h.active s hs).pos_add_one]
  rfl

theorem decodeBatch_of_forward {active : List CbSeq} {out : Except Panic (List L × BatchedDecoder M)}
    (hrows : active.length ≤ dec.cfg.mMax ∧ 1 ≤ active.length)
    (hforward : dec.forwardLogits dev (decodeRows active) = out) :
    (decodeBatch dev active dec).map Prod.snd = out.map Prod.snd := by
  have hcheck : BatchedDecoder.checkRows dec.cfg (decodeRows active) = .ok () := by
    rw [BatchedDecoder.checkRows, decodeRows, List.length_map, if_pos hrows]
  unfold decodeBatch BatchedDecoder.stepSlottedTopk BatchedDecoder.stepSlottedSample
    BatchedDecoder.stepSlotted
  rw [hcheck, hforward]
  split_ifs <;> cases out <;> rfl

/-- A batched decode exhausts the pool exactly where its sequences are short of more blocks than are
free. -/
theorem decodeBatch_outcome (h : Serving mem 0 cb kv) (hne : cb.active ≠ [])
    (hpos : ∀ s ∈ cb.active, s.pos < cb.dec.cfg.maxSeq) :
    (cb.needed ≤ cb.dec.freeBlocks ∧ ∃ out, decodeBatch dev cb.active cb.dec = .ok out) ∨
    (cb.dec.freeBlocks < cb.needed ∧
      decodeBatch dev cb.active cb.dec = .error .poolExhausted) := by
  have hrowsLt : ∀ row ∈ decodeRows cb.active,
      row.slot < cb.dec.cfg.mMax ∧ row.pos < cb.dec.cfg.maxSeq := by
    intro row hrow
    obtain ⟨s, hs, rfl⟩ := List.mem_map.mp hrow
    exact ⟨h.slot_lt_of_active hs, hpos s hs⟩
  have hnodup : ((decodeRows cb.active).map Row.slot).Nodup := by
    rw [decodeRows, List.map_map]
    exact h.nodup_slots
  have hlength : cb.active.length ≤ cb.dec.cfg.mMax ∧ 1 ≤ cb.active.length := by
    have := h.length_add
    have := List.length_pos_iff.mpr hne
    omega
  have hposLt := fun row hrow => (hrowsLt row hrow).2
  rw [h.needed_eq]
  obtain ⟨hle, blocks, hpaging⟩ | ⟨hlt, hpaging⟩ :=
    preparePaging_distinct h.represents.resident.ledger (fun row hrow => (hrowsLt row hrow).1)
      hposLt hnodup
  · obtain ⟨logits, memory, hforward⟩ := forwardLogits_of_paging dev hposLt hpaging
    have hdecode := decodeBatch_of_forward hlength hforward
    cases hbatch : decodeBatch dev cb.active cb.dec with
    | ok out => exact Or.inl ⟨hle, out, rfl⟩
    | error panic => simp [hbatch, Except.map] at hdecode
  · have hforward := forwardLogits_exhausted dev hposLt hpaging
    have hdecode := decodeBatch_of_forward hlength hforward
    cases hbatch : decodeBatch dev cb.active cb.dec with
    | ok out => simp [hbatch, Except.map] at hdecode
    | error panic => exact Or.inr ⟨hlt, by simpa [hbatch, Except.map] using hdecode⟩

/-- The decode phase after `make_room` left `roomy`. -/
theorem decodeActive_of_room (hne : cb.active ≠ []) (hroom : cb.makeRoom dev = .ok roomy) :
    cb.decodeActive dev = (do
      let (nexts, dec) ← decodeBatch dev roomy.active roomy.dec
      let pushed := List.zipWith CbSeq.push roomy.active nexts
      let (active, dec, free) := retire pushed dec roomy.free
      return (pushed.map eventOf, { roomy with active, dec, free })) := by
  rw [decodeActive, if_neg (by simpa using hne), hroom]
  rfl

theorem decodeActive_outcome (hne : cb.active ≠ [])
    (hpos : ∀ s ∈ cb.active, s.pos < cb.dec.cfg.maxSeq) (hroom : cb.makeRoom dev = .ok roomy)
    (hmade : MadeRoom mem cb roomy) :
    (roomy.needed ≤ roomy.dec.freeBlocks ∧ ∃ out, cb.decodeActive dev = .ok out) ∨
    (roomy.dec.freeBlocks < roomy.needed ∧ cb.decodeActive dev = .error .poolExhausted) := by
  obtain ⟨kv', h'⟩ := hmade.serving
  have hpos' : ∀ s ∈ roomy.active, s.pos < roomy.dec.cfg.maxSeq := fun s hs => by
    rw [hmade.vacates.cfg_eq]
    exact hpos s (hmade.vacates.active_initial.subset hs)
  rw [decodeActive_of_room hne hroom]
  obtain ⟨hle, out, hdecode⟩ | ⟨hlt, hdecode⟩ :=
    decodeBatch_outcome h' (hmade.survivor hne) hpos'
  · refine Or.inl ⟨hle, ?_⟩
    rw [hdecode]
    exact ⟨_, rfl⟩
  · refine Or.inr ⟨hlt, ?_⟩
    rw [hdecode]
    rfl

/-- The decode phase touches only what `make_room` and the sequences' ends do. -/
theorem decodeActive_frame (hok : cb.decodeActive dev = .ok (events, cb')) :
    (cb.active = [] ∧ events = [] ∧ cb' = cb) ∨
    ∃ roomy, cb.active ≠ [] ∧ cb.makeRoom dev = .ok roomy ∧ cb'.prefilling = roomy.prefilling ∧
      cb'.preempted = roomy.preempted ∧ cb'.preemptions = roomy.preemptions := by
  by_cases hnil : cb.active = []
  · rw [decodeActive, if_pos (by simpa using hnil)] at hok
    obtain ⟨rfl, rfl⟩ := by simpa using hok
    exact Or.inl ⟨hnil, rfl, rfl⟩
  · refine Or.inr ?_
    have hwhole := hok
    rw [decodeActive, if_neg (by simpa using hnil)] at hwhole
    obtain ⟨roomy, hroom, -⟩ := bind_eq_ok.mp hwhole
    rw [decodeActive_of_room hnil hroom] at hok
    obtain ⟨⟨nexts, decoded⟩, -, hok⟩ := bind_eq_ok.mp hok
    simp only [pure_eq_ok, Prod.mk.injEq] at hok
    obtain ⟨-, rfl⟩ := hok
    exact ⟨roomy, hnil, hroom, rfl, rfl, rfl⟩

theorem Serving.prefilling_decodeActive (h : Serving mem 0 cb kv)
    (hok : cb.decodeActive dev = .ok (events, cb')) : cb'.prefilling = cb.prefilling := by
  obtain ⟨-, -, rfl⟩ | ⟨roomy, -, hroom, hprefilling, -, -⟩ := decodeActive_frame hok
  · rfl
  · obtain ⟨roomy', hroom', hmade⟩ := makeRoom_exits h
    obtain rfl : roomy' = roomy := by simpa [hroom'] using hroom
    rw [hprefilling, hmade.prefilling_eq]

/-! ### The prefill phase -/

/-- What `advance_prefill` does to the front prefill: it moves on, or ends with its first token. -/
inductive Advances (front : PrefillingSeq) (rest : List PrefillingSeq) :
    List Event → List PrefillingSeq → Prop where
  | moved (next : Nat) (hlt : front.prefillPos < next) (hle : next ≤ front.promptLen) :
      Advances front rest [] ({ front with prefillPos := next } :: rest)
  | ended (event : Event) : Advances front rest [event] rest

/-- `advance_prefill` always succeeds, and the front prefill makes progress. -/
theorem advancePrefill_outcome {front : PrefillingSeq} {tail : List PrefillingSeq}
    (h : Serving mem 0 cb kv) (hfront : cb.prefilling = front :: tail)
    (hlen : front.prompt.length ≤ cb.dec.cfg.maxSeq) :
    ∃ roomy rest events cb',
      makeChunkRoom dev front.slot (min (front.prefillPos + cb.dec.cfg.rowCap) front.promptLen)
        (cb.active.length + cb.prefilling.length) cb = .ok (true, roomy) ∧
      Vacates cb roomy ∧ roomy.prefilling = front :: rest ∧
      cb.advancePrefill dev = .ok (events, cb') ∧ Advances front rest events cb'.prefilling ∧
      cb'.preempted = roomy.preempted ∧ cb'.preemptions = roomy.preemptions := by
  have hheld := h.prefilling front (by simp [hfront])
  have hend : min (front.prefillPos + cb.dec.cfg.rowCap) front.promptLen ≤ cb.dec.cfg.maxSeq := by
    have := hheld.promptLen_eq
    omega
  obtain ⟨roomy, hroom, hmade⟩ :=
    makeChunkRoom_exits h (by rw [hfront]; rfl) rfl hend le_rfl
  obtain ⟨rest, hrest⟩ : ∃ rest, roomy.prefilling = front :: rest := by
    have := hmade.front
    rw [hfront] at this
    exact List.head?_eq_some_iff.mp this
  obtain ⟨kv₁, h₁⟩ := hmade.serving
  have hcfg := hmade.vacates.cfg_eq
  have hmem : front ∈ roomy.prefilling := by simp [hrest]
  have hheld₁ := h₁.prefilling front hmem
  have hslot := h₁.slot_lt_of_prefilling hmem
  have hfits : Fits roomy.dec front.slot
      (min (front.prefillPos + cb.dec.cfg.rowCap) front.promptLen) :=
    ⟨h₁.represents.resident.ledger, hslot, by rwa [hcfg], hmade.enough⟩
  obtain ⟨⟨next, first⟩, chunked, hchunk, hcfg', -⟩ := hfits.prefillChunk dev
    (firstSampling front.params front.baseSeed 0) hheld₁.unfinished
    (by rw [hcfg, hheld.promptLen_eq])
  obtain ⟨hrep, hframe, hnext, hlt, -, hsome⟩ :=
    prefillChunk_spec h₁.represents hslot hheld₁.fed hchunk
  have hle : next ≤ front.promptLen := by
    rw [hheld.promptLen_eq, hnext]
    exact Nat.min_le_right _ _
  unfold advancePrefill
  simp only [hfront] at hroom ⊢
  rw [hroom]
  simp only [bind, Except.bind, hrest, hchunk, Bool.not_true, Bool.false_eq_true, if_false]
  cases first with
  | none =>
      exact ⟨roomy, rest, _, _, rfl, hmade.vacates, hrest, rfl, .moved next hlt hle, rfl, rfl⟩
  | some g =>
      obtain ⟨rfl, -⟩ := hsome g rfl
      have hbacked := hrep.resident.backed front.slot
      rw [update_self, List.take_length] at hbacked
      obtain ⟨registered, hregister⟩ := prefillRegister_succeeds dev front.cachedBlocks hbacked
      simp only [hregister]
      split
      · exact ⟨roomy, rest, _, _, rfl, hmade.vacates, hrest, rfl, .ended _, rfl, rfl⟩
      · exact ⟨roomy, rest, _, _, rfl, hmade.vacates, hrest, rfl, .ended _, rfl, rfl⟩

/-! ### The reschedule phase -/

theorem blocks_swapIn {host : HostKv B} {restored : Bool}
    (hok : dec.swapIn dev slot host = .ok (restored, dec')) :
    dec'.cfg = dec.cfg ∧ dec'.blocks = (dec.blocks.ensureBlocks dec.cfg slot host.nPos).2 := by
  unfold BatchedDecoder.swapIn BlockState.swapIn at hok
  generalize dec.blocks.ensureBlocks dec.cfg slot host.nPos = grown at *
  obtain ⟨fits, grown⟩ := grown
  cases fits with
  | false =>
      obtain ⟨-, rfl⟩ := by simpa using hok
      exact ⟨rfl, rfl⟩
  | true =>
      obtain ⟨⟨phys, blocks⟩, hphys, hok⟩ := bind_eq_ok.mp hok
      dsimp only at hphys
      split at hphys
      case isFalse => cases hphys
      case isTrue =>
        obtain ⟨rfl, rfl⟩ := by simpa using hphys
        obtain ⟨-, rfl⟩ := by simpa using hok
        exact ⟨rfl, rfl⟩

/-- Restoring a sequence's KV leaves the blocks free that its next position needs. -/
theorem fits_swapIn {host : HostKv B} {restored : Bool} (hledger : Ledger dec.cfg [] dec.blocks)
    (hslot : slot < dec.cfg.mMax) (hle : host.nPos ≤ n) (hn : n ≤ dec.cfg.maxSeq)
    (hfits : dec.canFit n = true) (hok : dec.swapIn dev slot host = .ok (restored, dec')) :
    Fits dec' slot n := by
  obtain ⟨hcfg, hblocks⟩ := blocks_swapIn hok
  have henough : dec.blocks.blocksShort dec.cfg slot n ≤ dec.blocks.freeBlocks dec.cfg :=
    (Nat.sub_le _ _).trans (of_decide_eq_true hfits)
  have hgrown : (dec.blocks.ensureBlocks dec.cfg slot host.nPos).1 = true := by
    rw [ensureBlocks_eq_true hledger hslot (hle.trans hn)]
    refine le_trans (Nat.sub_le_sub_right ?_ _) henough
    rw [ceilDiv_le_iff_le_mul dec.cfg.blockSize_pos]
    exact hle.trans (le_smul_ceilDiv dec.cfg.blockSize_pos)
  have hfree := freeBlocks_ensureBlocks hledger hslot (hle.trans hn) hgrown
  have hshort := blocksShort_ensureBlocks hle hgrown
  refine ⟨?_, by rwa [hcfg], by rwa [hcfg], ?_⟩
  · rw [hcfg, hblocks]
    exact (ensureBlocks_ledger hledger hslot (hle.trans hn)).1
  · rw [hcfg, hblocks]
    omega

/-- Restoring a sequence that the pool can hold never exhausts it. -/
theorem avoids_resumeSeq_exhausted {p : PreemptedSeq B} (hrep : Represents mem dec kv)
    (hslot : slot < dec.cfg.mMax) (hempty : dec.blocks.slotBlocks slot = [])
    (hkept : p.Kept mem dec.cfg) (hfits : dec.canFit p.tokens.length = true) :
    Avoids .poolExhausted (resumeSeq dev p slot dec) := by
  unfold resumeSeq
  dsimp only
  cases hsaved : p.kv with
  | none =>
      refine avoids_bind ?_ fun _ _ => avoids_pure _ _
      by_cases hbounds : p.tokens ≠ [] ∧ p.tokens.length ≤ dec.cfg.maxSeq
      · obtain ⟨out, dec', hok⟩ :=
          hrep.prefillSlotCached hslot hempty hbounds.1 hbounds.2 hfits
        rw [hok]
        exact avoids_ok _ _
      · rw [BatchedDecoder.prefillSlotCached, if_neg hbounds]
        exact avoids_error (by decide)
  | some host =>
      obtain ⟨hproduced, -, hpos, -, -⟩ := hkept.saved host hsaved
      refine avoids_bind (avoids_swapIn (by decide)) fun out hswap =>
        avoids_decodeOne (by decide) (by decide) ?_
      obtain ⟨restored, swapped⟩ := out
      have hcfg := (blocks_swapIn hswap).1
      by_cases hmax : p.tokens.length ≤ dec.cfg.maxSeq
      · have hfits' := fits_swapIn hrep.resident.ledger hslot (by omega) hmax hfits hswap
        have hrows : ∀ row ∈ [({ tok := p.tokens.getLastD 0, pos := p.tokens.length - 1, slot } : Row)],
            row.slot = slot ∧ row.pos < p.tokens.length := by
          simp
          omega
        obtain ⟨logits, dec', hforward, -, -⟩ := hfits'.forwardLogits dev hrows
        rw [hforward]
        exact avoids_ok _ _
      · -- a row past the context fails before the pool is asked
        have hinputs : BatchedDecoder.writeInputs swapped.cfg
            [{ tok := p.tokens.getLastD 0, pos := p.tokens.length - 1, slot }] =
              .error .positionExceeds := by
          rw [BatchedDecoder.writeInputs, if_neg]
          simp [hcfg]
          omega
        unfold BatchedDecoder.forwardLogits
        rw [hinputs]
        exact avoids_error (by decide)

theorem avoids_reschedule_exhausted (fuel : Nat) (cb : ContinuousBatcher M B) {kv : Nat → SlotKv}
    (h : Serving mem 0 cb kv) : Avoids .poolExhausted (rescheduleLoop dev fuel cb) := by
  induction fuel generalizing cb kv with
  | zero => exact avoids_ok _ _
  | succ fuel ih =>
      cases hpreempted : cb.preempted with
      | nil => simpa [rescheduleLoop, hpreempted] using avoids_ok _ _
      | cons p preempted =>
          cases hfree : cb.free with
          | nil => simpa [rescheduleLoop, hpreempted, hfree] using avoids_ok _ _
          | cons slot free =>
              by_cases hfits : cb.dec.canFit p.tokens.length = true
              · rw [rescheduleLoop_succ fuel hpreempted hfree hfits]
                have hkept := h.preempted p (by simp [hpreempted])
                have hempty := (h.idle slot (by simp [hfree])).1
                refine avoids_bind (avoids_resumeSeq_exhausted h.represents (h.takeFree hfree).slot_lt
                  hempty hkept hfits) fun out hresume => ?_
                have hserves : Serves mem (fun _ _ => True) cb
                    ([eventOf ((p.resumed slot).push out.1)].map Event.entry) _ :=
                  rejoin_spec h hpreempted hfree (fun _ => trivial) hfits hresume
                obtain ⟨kv', h'⟩ := hserves.serving
                exact avoids_bind (ih _ h') fun _ _ => avoids_pure _ _
              · simpa [rescheduleLoop, hpreempted, hfree, hfits] using avoids_ok _ _

end Zllm.Gpu
