import Zllm.Gpu.OwnPrefix
import Zllm.Gpu.PagedMemory

/-!
# What the pool holds

In every state that the batcher reaches, the rows of each sequence hold the KV of that sequence's
own tokens, the prefix cache finds the KV of the prefix it is asked for, and every block that was
written belonged to the writing slot alone.
-/

namespace Zllm.Gpu

variable {V L : Type}

structure KvCorrect (kvOf : List Token → V)
    (cb : ContinuousBatcher (PagedMemory V) (SavedBlocks V)) : Prop where
  active : ∀ s ∈ cb.active, ∀ pos < s.tokens.length - 1,
    HoldsRow cb.dec.cfg cb.dec.blocks cb.dec.mem.pool s.slot pos (kvOf (s.tokens.take (pos + 1)))
  prefilling : ∀ pf ∈ cb.prefilling, ∀ pos < pf.prefillPos,
    HoldsRow cb.dec.cfg cb.dec.blocks cb.dec.mem.pool pf.slot pos
      (kvOf (pf.prompt.take (pos + 1)))
  registered : ∀ h b, cb.dec.blocks.cacheMap h = some b →
    ∃ prompt ∈ cb.dec.mem.hashed, ∃ lb < prompt.length / cb.dec.cfg.blockSize,
      cb.dec.cfg.chainHash prompt (lb + 1) = h
  cached : ∀ prompt ∈ cb.dec.mem.hashed, ∀ lb < prompt.length / cb.dec.cfg.blockSize, ∀ b,
    cb.dec.blocks.cacheMap (cb.dec.cfg.chainHash prompt (lb + 1)) = some b →
      BlockHolds kvOf cb.dec.cfg cb.dec.mem.pool b prompt lb
  writes : ∀ write ∈ cb.dec.mem.writes, write.Private

theorem Serving.kvCorrect {kernels : PagedKernels V L} {kvOf : List Token → V}
    {hcomputes : kernels.Computes kvOf} {cb : ContinuousBatcher (PagedMemory V) (SavedBlocks V)}
    {kv : Nat → SlotKv} (h : Serving (kernels.memory hcomputes) 0 cb kv)
    (hfree : CollisionFree cb.dec.cfg cb.dec.mem.hashed) : KvCorrect kvOf cb := by
  obtain ⟨hres, hwrites, hcontents⟩ := h.represents
  have hcontents := hcontents hfree
  refine ⟨?_, ?_, ?_, ?_, hwrites⟩
  · intro s hs pos hpos
    have hrow := hcontents.rows s.slot pos
    rw [(h.active s hs).fed, List.length_dropLast] at hrow
    have htake : s.tokens.dropLast.take (pos + 1) = s.tokens.take (pos + 1) := by
      rw [List.dropLast_eq_take, List.take_take, Nat.min_eq_left hpos]
    rw [← htake]
    exact hrow hpos
  · intro pf hpf pos hpos
    have hheld := h.prefilling pf hpf
    have hrow := hcontents.rows pf.slot pos
    rw [hheld.fed, List.length_take_of_le hheld.unfinished.le, List.take_take,
      Nat.min_eq_left hpos] at hrow
    exact hrow hpos
  · intro hash b hentry
    rw [hres.ledger.inverse] at hentry
    obtain ⟨prompt, hprompt, lb, hlb, hhash, -⟩ := hcontents.entries b hash hentry
    exact ⟨prompt, hprompt, lb, hlb, hhash⟩
  · intro prompt hprompt lb hlb b hentry
    rw [hres.ledger.inverse] at hentry
    exact hcontents.blockHolds hfree (List.Subset.refl _) hprompt hlb hentry

/-- **Paged-KV content.** Whatever calls a run makes, as long as the prefixes that it hashes do not
collide, the pool holds what the sequences and the prefix cache take it to hold. -/
theorem kv_correct {kernels : PagedKernels V L} {kvOf : List Token → V}
    (hcomputes : kernels.Computes kvOf) {cfg : PoolConfig} {firstFit swapMode : Bool}
    {pool : Pool V} {run : BatcherRun (PagedMemory V) (SavedBlocks V)}
    (hreach : BatcherReaches kernels.device (fun _ _ => True)
      (.new cfg firstFit swapMode (PagedMemory.new pool)) run)
    (hfree : CollisionFree cfg run.cb.dec.mem.hashed) : KvCorrect kvOf run.cb := by
  have hnew : (kernels.memory hcomputes).Holds cfg (BlockState.new cfg firstFit)
      (PagedMemory.new pool) fun _ => SlotKv.empty := by
    refine ⟨by simp [PagedMemory.new], fun _ => ⟨?_, ?_⟩⟩
    · simp [SlotKv.empty]
    · simp [BlockState.new]
  have hran := ran_of_reaches (kernels.memory hcomputes) (fun _ _ => True) (fun _ => trivial)
    (fun _ call _ => by cases call <;> simp [Call.Permits, ResumesAllowed]) hnew hreach
  obtain ⟨kv, h⟩ := hran.serving
  rw [← hran.cfg_eq] at hfree
  exact h.kvCorrect hfree

/-! ### Rows that hold their own prefix -/

/-- Each row holds the tokens up to it, copied from the row before it. -/
def prefixKernels : PagedKernels (List Token) Nat where
  forwardRow := fun cfg blocks pool row =>
    let before := if row.pos = 0 then [] else
      pool (tableBlock cfg blocks row.slot (row.pos - 1)) ((row.pos - 1) % cfg.blockSize)
    (before ++ [row.tok], before.length + 1)
  argmax := id
  gumbel := fun logits _ seed => logits + seed.toNat
  sampleTopk := fun logits params _ => logits + params.topK

theorem prefixKernels_computes : prefixKernels.Computes id := by
  intro cfg blocks pool row tokens hpos hrows
  by_cases hzero : row.pos = 0
  · have hnil : tokens = [] := List.length_eq_zero_iff.mp (hpos ▸ hzero)
    simp [prefixKernels, hzero, hnil]
  · have hlast := hrows (row.pos - 1) (by omega)
    rw [List.take_of_length_le (by omega)] at hlast
    simp [prefixKernels, hzero, hlast]

instance (cfg : PoolConfig) (prompts : List (List Token)) : Decidable (CollisionFree cfg prompts) :=
  inferInstanceAs (Decidable (∀ left ∈ prompts, ∀ right ∈ prompts,
    ∀ i < left.length / cfg.blockSize, ∀ j < right.length / cfg.blockSize,
      cfg.chainHash left (i + 1) = cfg.chainHash right (j + 1) →
        left.take ((i + 1) * cfg.blockSize) = right.take ((j + 1) * cfg.blockSize)))

/-- The second request reads the block that the first one registered. -/
def sharedCalls : List Call :=
  [.enqueue (greedyRequest 1 [7, 7, 7]), .step, .enqueue (greedyRequest 2 [7, 7, 8]), .step, .step]

theorem kv_correct_shared :
    ∃ run : BatcherRun (PagedMemory (List Token)) (SavedBlocks (List Token)),
      run.cb.active.map CbSeq.tokens = [[7, 7, 8, 3, 4]] ∧ KvCorrect id run.cb := by
  obtain ⟨run, hreach, hview⟩ : ∃ run, BatcherReaches prefixKernels.device (fun _ _ => True)
      (.new tightPool false true (PagedMemory.new fun _ _ => [])) run ∧
        (run.cb.active.map CbSeq.tokens, run.cb.dec.mem.hashed) =
          ([[7, 7, 8, 3, 4]], [[7, 7, 8], [7, 7, 8], [7, 7, 7], [7, 7, 7]]) :=
    exists_reaches_of_execAll
      (fun run : BatcherRun (PagedMemory (List Token)) (SavedBlocks (List Token)) =>
        (run.cb.active.map CbSeq.tokens, run.cb.dec.mem.hashed)) sharedCalls rfl
  obtain ⟨hactive, hhashed⟩ := Prod.mk.inj hview
  have hfree : CollisionFree tightPool run.cb.dec.mem.hashed := by
    rw [hhashed]
    decide
  exact ⟨run, hactive, kv_correct prefixKernels_computes hreach hfree⟩

end Zllm.Gpu
