import Zllm.Gpu.Batcher
import Zllm.Lib.Outcome

/-!
# How a call can abort

A decode, a prefill chunk or a preemption aborts only as its own assertions and its forward do. Each
lemma leaves the forward as a premise.
-/

namespace Zllm.Gpu

open Outcome ContinuousBatcher

variable {M B L : Type} {dev : Device M B L} {cb : ContinuousBatcher M B} {dec : BatchedDecoder M}
  {rows : List Row} {slot : Nat} {e : Panic}

/-! ### The forward -/

theorem avoids_checkRows (cfg : PoolConfig) (hrows : e ≠ .rowCount) :
    Avoids e (BatchedDecoder.checkRows cfg rows) := by
  unfold BatchedDecoder.checkRows
  split
  · exact avoids_ok _ _
  · exact avoids_error hrows.symm

theorem avoids_preparePaging (hexhausted : e ≠ .poolExhausted) (hindex : e ≠ .indexOutOfBounds)
    (cfg : PoolConfig) (blocks : BlockState) :
    Avoids e (BatchedDecoder.preparePaging cfg rows blocks) := by
  induction rows generalizing blocks with
  | nil => exact avoids_ok _ _
  | cons row rows ih =>
      rw [BatchedDecoder.preparePaging]
      split
      · exact avoids_error hexhausted.symm
      · refine avoids_bind ?_ fun _ _ => ih _
        unfold BlockState.physPos
        split
        · exact avoids_ok _ _
        · exact avoids_error hindex.symm

/-- A forward aborts only where a position or its paging does. -/
theorem avoids_forwardLogits (hinputs : Avoids e (BatchedDecoder.writeInputs dec.cfg rows))
    (hpaging : Avoids e (BatchedDecoder.preparePaging dec.cfg rows dec.blocks)) :
    Avoids e (dec.forwardLogits dev rows) := by
  unfold BatchedDecoder.forwardLogits
  exact avoids_bind hinputs fun _ _ => avoids_bind hpaging fun _ _ => avoids_pure _ _

section

variable (hrows : e ≠ .rowCount) (hforward : Avoids e (dec.forwardLogits dev rows))
include hrows hforward

theorem avoids_stepSlotted : Avoids e (dec.stepSlotted dev rows) := by
  unfold BatchedDecoder.stepSlotted
  exact avoids_bind (avoids_checkRows _ hrows) fun _ _ =>
    avoids_bind hforward fun _ _ => avoids_pure _ _

theorem avoids_stepSlottedSample (sampling : List (ℚ × UInt32)) :
    Avoids e (dec.stepSlottedSample dev rows sampling) := by
  unfold BatchedDecoder.stepSlottedSample
  exact avoids_bind (avoids_checkRows _ hrows) fun _ _ =>
    avoids_bind hforward fun _ _ => avoids_pure _ _

theorem avoids_stepSlottedTopk (sampling : List (SamplingParams × UInt32)) :
    Avoids e (dec.stepSlottedTopk dev rows sampling) := by
  unfold BatchedDecoder.stepSlottedTopk
  exact avoids_bind (avoids_checkRows _ hrows) fun _ _ =>
    avoids_bind hforward fun _ _ => avoids_pure _ _

end

theorem avoids_decodeBatch {active : List CbSeq} (hrows : e ≠ .rowCount)
    (hforward : Avoids e (dec.forwardLogits dev (decodeRows active))) :
    Avoids e (decodeBatch dev active dec) := by
  unfold decodeBatch
  split
  · exact avoids_stepSlottedTopk hrows hforward _
  · split
    · exact avoids_stepSlottedSample hrows hforward _
    · exact avoids_stepSlotted hrows hforward

theorem avoids_decodeOne {row : Row} {params : SamplingParams} {seed : UInt32}
    (hrows : e ≠ .rowCount) (hindex : e ≠ .indexOutOfBounds)
    (hforward : Avoids e (dec.forwardLogits dev [row])) :
    Avoids e (decodeOne dev row params seed dec) := by
  unfold decodeOne
  split
  · refine avoids_bind (avoids_stepSlottedTopk hrows hforward _) fun out _ => ?_
    rcases out with ⟨_ | ⟨tok, _⟩, dec'⟩
    exacts [avoids_error hindex.symm, avoids_pure _ _]
  · split
    · refine avoids_bind (avoids_stepSlottedSample hrows hforward _) fun out _ => ?_
      rcases out with ⟨_ | ⟨tok, _⟩, dec'⟩
      exacts [avoids_error hindex.symm, avoids_pure _ _]
    · refine avoids_bind (avoids_stepSlotted hrows hforward) fun out _ => ?_
      rcases out with ⟨_ | ⟨tok, _⟩, dec'⟩
      exacts [avoids_error hindex.symm, avoids_pure _ _]

/-! ### Prefill -/

theorem avoids_prefillChunk {prompt : List Token} {start : Nat} {samp : Option (ℚ × UInt32)}
    (hstart : e ≠ .prefillStart)
    (hforward : ∀ stop, stop ≤ prompt.length →
      Avoids e (dec.forwardLogits dev (BatchedDecoder.chunkRows prompt slot start stop))) :
    Avoids e (dec.prefillChunk dev prompt slot start samp) := by
  unfold BatchedDecoder.prefillChunk
  split
  case isFalse => exact avoids_error hstart.symm
  case isTrue =>
    exact avoids_bind (hforward _ (Nat.min_le_right _ _)) fun _ _ => avoids_pure _ _

theorem avoids_registerBlocks {cfg : PoolConfig} {prompt : List Token}
    (hindex : e ≠ .indexOutOfBounds) (count lb : Nat) (prevHash : UInt64) (blocks : BlockState) :
    Avoids e (BlockState.registerBlocks cfg prompt slot count lb prevHash blocks) := by
  induction count generalizing lb prevHash blocks with
  | zero => exact avoids_ok _ _
  | succ count ih =>
      rw [BlockState.registerBlocks]
      split
      · exact avoids_error hindex.symm
      · exact ih _ _ _

theorem avoids_prefillRegister {prompt : List Token} {cachedBlocks : Nat}
    (hindex : e ≠ .indexOutOfBounds) :
    Avoids e (dec.prefillRegister dev prompt slot cachedBlocks) := by
  unfold BatchedDecoder.prefillRegister BlockState.prefillRegister
  refine avoids_bind ?_ fun _ _ => avoids_pure _ _
  dsimp only
  split
  · exact avoids_ok _ _
  · exact avoids_registerBlocks hindex _ _ _ _

/-! ### Preemption -/

theorem avoids_preemptLastActive (hindex : e ≠ .indexOutOfBounds) :
    Avoids e (cb.preemptLastActive dev) := by
  unfold preemptLastActive
  split
  · exact avoids_ok _ _
  · split
    · refine avoids_bind ?_ fun _ _ => avoids_pure _ _
      refine avoids_bind ?_ fun _ _ => avoids_pure _ _
      unfold BlockState.swapOut
      dsimp only
      split
      · exact avoids_ok _ _
      · exact avoids_error hindex.symm
    · exact avoids_pure _ _

theorem avoids_makeRoomLoop (hindex : e ≠ .indexOutOfBounds) (fuel : Nat)
    (cb : ContinuousBatcher M B) : Avoids e (makeRoomLoop dev fuel cb) := by
  induction fuel generalizing cb with
  | zero => exact avoids_ok _ _
  | succ fuel ih =>
      rw [makeRoomLoop]
      split
      · exact avoids_bind (avoids_preemptLastActive hindex) fun _ _ => ih _
      · exact avoids_ok _ _

theorem avoids_makeChunkRoom (hindex : e ≠ .indexOutOfBounds) (chunkEnd fuel : Nat)
    (cb : ContinuousBatcher M B) : Avoids e (makeChunkRoom dev slot chunkEnd fuel cb) := by
  induction fuel generalizing cb with
  | zero => exact avoids_ok _ _
  | succ fuel ih =>
      rw [makeChunkRoom]
      split
      · refine avoids_bind (avoids_preemptLastActive hindex) fun out _ => ?_
        obtain ⟨preempted, cb⟩ := out
        cases preempted with
        | true => exact ih _
        | false =>
            simp only [Bool.false_eq_true, if_false]
            split
            · exact ih _
            · exact avoids_ok _ _
      · exact avoids_ok _ _

theorem avoids_swapIn {host : HostKv B} (hindex : e ≠ .indexOutOfBounds) :
    Avoids e (dec.swapIn dev slot host) := by
  unfold BatchedDecoder.swapIn BlockState.swapIn
  refine avoids_bind ?_ fun taken _ => ?_
  · split
    · exact avoids_ok _ _
    · split
      · exact avoids_ok _ _
      · exact avoids_error hindex.symm
  · obtain ⟨phys?, blocks⟩ := taken
    cases phys? with
    | none => exact avoids_pure _ _
    | some phys => exact avoids_pure _ _

end Zllm.Gpu
