import Zllm.Gpu.BlockConservation
import Zllm.Gpu.OwnPrefix
import Zllm.Gpu.PhaseOutcome

/-!
# The admission gate

`can_fit` counts the blocks that a sequence of its length needs, cached ones among the free. Reusing
a cached block takes one that was counted, and the sequence needs one less, so that the blocks for
all positions are there, whatever the pool has been through. Restoring a sequence's saved positions
takes what they need and leaves what its next position needs.
-/

namespace Zllm.Gpu

open Outcome ContinuousBatcher
open BlockState (Ledger prefillPrefixReuse_ledger freeBlocks_reuses blocksShort ensureBlocks_length
  ensureBlocks_eq_true)

variable {M B L : Type} {dev : Device M B L} {dec : BatchedDecoder M} {slot n : Nat}

/-- The decoder's pool is in a state that some run of its methods comes to. -/
def BatchedDecoder.PoolReached (dec : BatchedDecoder M) : Prop :=
  ∃ firstFit prefilling, Relation.ReflTransGen (PoolStep dec.cfg) (.new dec.cfg firstFit)
    { blocks := dec.blocks, prefilling }

theorem BatchedDecoder.PoolReached.ledger (hreached : dec.PoolReached) :
    Ledger dec.cfg [] dec.blocks := by
  obtain ⟨firstFit, prefilling, hreach⟩ := hreached
  exact (PoolRun.inv_of_reachable hreach).ledger

theorem freeBlocks_of_canFit (hfits : dec.canFit n = true) :
    n ⌈/⌉ dec.cfg.blockSize ≤ dec.blocks.freeBlocks dec.cfg :=
  of_decide_eq_true hfits

/-- What is reused of a prompt leaves the blocks free that the rest of it needs. -/
theorem fits_prefillPrefixReuse (dev : Device M B L) (hledger : Ledger dec.cfg [] dec.blocks)
    (hslot : slot < dec.cfg.mMax) (hempty : dec.blocks.slotBlocks slot = []) {prompt : List Token}
    (hlen : prompt.length ≤ dec.cfg.maxSeq) (hfits : dec.canFit prompt.length = true) :
    Fits (dec.prefillPrefixReuse dev prompt slot).2 slot prompt.length := by
  obtain ⟨cached, blocks, hrun, hledger', -, hreuses⟩ :=
    prefillPrefixReuse_ledger prompt hledger hslot hempty hlen
  have hfree := freeBlocks_reuses hledger hledger' hreuses
  have hneed := freeBlocks_of_canFit hfits
  have hblocks : (dec.prefillPrefixReuse dev prompt slot).2.blocks = blocks := by
    rw [BatchedDecoder.prefillPrefixReuse, hrun]
  have hcfg : (dec.prefillPrefixReuse dev prompt slot).2.cfg = dec.cfg := rfl
  refine ⟨by rwa [hcfg, hblocks], hslot, hlen, ?_⟩
  rw [hcfg, hblocks, blocksShort]
  omega

theorem avoids_prefillSlotFrom {prompt : List Token} {samp : Option (ℚ × UInt32)} {start : Nat}
    (hfits : Fits dec slot prompt.length) :
    Avoids .poolExhausted (dec.prefillSlotFrom dev prompt slot start samp) := by
  rw [BatchedDecoder.prefillSlotFrom]
  split
  · obtain ⟨g, dec', hok, -⟩ := hfits.prefillLoop dev samp le_rfl prompt.length start 0
    rw [hok]
    exact avoids_ok _ _
  · exact avoids_error (by decide)

theorem avoids_prefillSlotCached_exhausted (hledger : Ledger dec.cfg [] dec.blocks)
    (hslot : slot < dec.cfg.mMax) (hempty : dec.blocks.slotBlocks slot = []) {prompt : List Token}
    {samp : Option (ℚ × UInt32)} (hfits : dec.canFit prompt.length = true) :
    Avoids .poolExhausted (dec.prefillSlotCached dev prompt slot samp) := by
  rw [BatchedDecoder.prefillSlotCached]
  split
  · next hbounds =>
    have hreused := fits_prefillPrefixReuse dev hledger hslot hempty hbounds.2 hfits
    refine avoids_bind (avoids_prefillSlotFrom hreused) fun _ _ => ?_
    exact avoids_bind (avoids_prefillRegister (by decide)) fun _ _ => avoids_pure _ _
  · exact avoids_error (by decide)

/-- The saved positions of a sequence that fits can be restored. -/
theorem swapIn_of_canFit (dev : Device M B L) (hledger : Ledger dec.cfg [] dec.blocks)
    (hslot : slot < dec.cfg.mMax) {host : HostKv B}
    (hsaved : host.nb = host.nPos ⌈/⌉ dec.cfg.blockSize)
    (hpositions : host.nPos ≤ dec.cfg.maxSeq) (hle : host.nPos ≤ n) (hfits : dec.canFit n = true) :
    ∃ restored, dec.swapIn dev slot host = .ok (true, restored) := by
  have henough : dec.blocks.blocksShort dec.cfg slot host.nPos ≤ dec.blocks.freeBlocks dec.cfg := by
    calc dec.blocks.blocksShort dec.cfg slot host.nPos
        ≤ host.nPos ⌈/⌉ dec.cfg.blockSize := Nat.sub_le _ _
      _ ≤ n ⌈/⌉ dec.cfg.blockSize := by
          rw [ceilDiv_le_iff_le_mul dec.cfg.blockSize_pos]
          exact hle.trans (le_smul_ceilDiv dec.cfg.blockSize_pos)
      _ ≤ dec.blocks.freeBlocks dec.cfg := freeBlocks_of_canFit hfits
  have hgrown := (ensureBlocks_eq_true hledger hslot hpositions).mpr henough
  have hlength := ensureBlocks_length hgrown
  rw [← hsaved] at hlength
  rw [BatchedDecoder.swapIn, BlockState.swapIn]
  generalize dec.blocks.ensureBlocks dec.cfg slot host.nPos = grown at hgrown hlength ⊢
  obtain ⟨fits, blocks⟩ := grown
  obtain rfl := hgrown
  simp only [if_pos hlength]
  exact ⟨_, rfl⟩

theorem avoids_decodeOne_exhausted {row : Row} {params : SamplingParams} {seed : UInt32}
    (hfits : row.pos < dec.cfg.maxSeq → Fits dec row.slot (row.pos + 1)) :
    Avoids .poolExhausted (decodeOne dev row params seed dec) := by
  refine avoids_decodeOne (by decide) (by decide) ?_
  by_cases hpos : row.pos < dec.cfg.maxSeq
  · have hrows : ∀ other ∈ [row], other.slot = row.slot ∧ other.pos < row.pos + 1 := by
      intro other hother
      rw [List.mem_singleton.mp hother]
      exact ⟨rfl, Nat.lt_succ_self _⟩
    obtain ⟨logits, dec', hok, -, -⟩ := (hfits hpos).forwardLogits dev hrows
    rw [hok]
    exact avoids_ok _ _
  · have hinputs : BatchedDecoder.writeInputs dec.cfg [row] = .error .positionExceeds := by
      simp [BatchedDecoder.writeInputs, hpos]
    rw [BatchedDecoder.forwardLogits, hinputs]
    exact avoids_error (by decide)

/-- **The admission gate is sound.** In every state of the pool, a sequence of `n` tokens that
`can_fit` lets in, in a slot without blocks, is prefilled over whatever the cache has of it, or
restored and decoded by one row, and no block allocation fails. -/
theorem admission_gate_sound (dev : Device M B L) (dec : BatchedDecoder M)
    (hreached : dec.PoolReached) (slot : Nat) (hslot : slot < dec.cfg.mMax)
    (hempty : dec.blocks.slotBlocks slot = []) (n : Nat) (hfits : dec.canFit n = true) :
    (∀ (prompt : List Token) (samp : Option (ℚ × UInt32)), prompt.length = n →
      Avoids .poolExhausted (dec.prefillSlotCached dev prompt slot samp)) ∧
    ∀ host : HostKv B, host.nPos + 1 = n → host.nPos ≤ dec.cfg.maxSeq →
      host.nb = host.nPos ⌈/⌉ dec.cfg.blockSize →
      ∃ restored, dec.swapIn dev slot host = .ok (true, restored) ∧
        ∀ (tok : Token) (params : SamplingParams) (seed : UInt32), Avoids .poolExhausted
          (decodeOne dev { tok, pos := host.nPos, slot } params seed restored) := by
  have hledger := hreached.ledger
  constructor
  · rintro prompt samp rfl
    exact avoids_prefillSlotCached_exhausted hledger hslot hempty hfits
  · rintro host rfl hpositions hsaved
    obtain ⟨restored, hok⟩ :=
      swapIn_of_canFit dev hledger hslot hsaved hpositions (Nat.le_succ _) hfits
    refine ⟨restored, hok, fun tok params seed => avoids_decodeOne_exhausted fun hpos => ?_⟩
    have hcfg := (blocks_swapIn hok).1
    rw [hcfg] at hpos
    exact fits_swapIn hledger hslot (Nat.le_succ _) hpos hfits hok

/-- Of four blocks two hold a freed prompt and two another slot: a sequence of three tokens fits the
cached blocks only, one of which it reuses. -/
theorem admission_gate_sound_cached : ∃ dec : BatchedDecoder (Nat → List Token),
    dec.PoolReached ∧ dec.blocks.free = [] ∧ dec.blocks.slotBlocks 1 = [2, 3] ∧
    dec.canFit 3 = true ∧ dec.canFit 5 = false ∧
    (dec.blocks.prefillPrefixReuse dec.cfg [7, 7, 9] 0).1 = (2, 1) ∧
    (∀ (prompt : List Token) (samp : Option (ℚ × UInt32)), prompt.length = 3 →
      Avoids .poolExhausted (dec.prefillSlotCached lengthModel.device prompt 0 samp)) ∧
    ∀ host : HostKv (List Token), host.nPos + 1 = 3 → host.nPos ≤ dec.cfg.maxSeq →
      host.nb = host.nPos ⌈/⌉ dec.cfg.blockSize →
      ∃ restored, dec.swapIn lengthModel.device 0 host = .ok (true, restored) ∧
        ∀ (tok : Token) (params : SamplingParams) (seed : UInt32), Avoids .poolExhausted
          (decodeOne lengthModel.device { tok, pos := host.nPos, slot := 0 } params seed
            restored) := by
  have hsteps : Relation.ReflTransGen (PoolStep tightPool) (.new tightPool false) _ :=
    ((((Relation.ReflTransGen.single
      (.prefillPrefixReuse [7, 7, 8, 8] 0 0 0 _ (by decide) rfl (by decide) (by decide) rfl)).tail
      (.ensureBlocks 0 4 (by decide) (by decide))).tail
      (.prefillRegister [7, 7, 8, 8] 0 0 _ (by decide) rfl rfl)).tail
      (.freeSlot 0 (by decide))).tail
      (.ensureBlocks 1 4 (by decide) (by decide))
  obtain ⟨run, hreach, hempty, hfree, hheld, hthree, hfive, hreused⟩ : ∃ run,
      Relation.ReflTransGen (PoolStep tightPool) (.new tightPool false) run ∧
        run.blocks.slotBlocks 0 = [] ∧ run.blocks.free = [] ∧ run.blocks.slotBlocks 1 = [2, 3] ∧
        run.blocks.canFit tightPool 3 = true ∧ run.blocks.canFit tightPool 5 = false ∧
        (run.blocks.prefillPrefixReuse tightPool [7, 7, 9] 0).1 = (2, 1) :=
    ⟨_, hsteps, rfl, rfl, rfl, by decide, by decide, rfl⟩
  let dec : BatchedDecoder (Nat → List Token) := ⟨tightPool, run.blocks, fun _ => []⟩
  have hreached : dec.PoolReached := ⟨false, _, hreach⟩
  exact ⟨dec, hreached, hfree, hheld, hthree, hfive, hreused,
    admission_gate_sound lengthModel.device dec hreached 0 Nat.zero_lt_two hempty 3 hthree⟩

end Zllm.Gpu
