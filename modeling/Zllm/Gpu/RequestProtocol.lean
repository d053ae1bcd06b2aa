import Zllm.Gpu.OwnPrefix

/-!
# The request protocol

On any device and in any run, the slots and the live ids are accounted for, and every accepted
request is answered by its tokens and at most one final entry.
-/

namespace Zllm.Gpu

open ContinuousBatcher
open TokenService (liveKeys sessionOf tokensOf)

variable {M B L : Type} {dev : Device M B L} {cfg : PoolConfig} {firstFit swapMode : Bool}
  {memory : M} {run : BatcherRun M B}

/-- How the entries of an accepted request read. `served` is whether the batcher still holds it. -/
structure Answered (req : Request) (entries : List LogEntry) (served : Prop) : Prop where
  atMost : (tokensOf entries).length ≤ max 1 req.maxTokens
  finalLast : ∀ before entry after, entries = before ++ entry :: after → entry.final = true →
    after = []
  ended : ¬served ↔ entries.getLast? = some (.cancelled req.id) ∨
    ∃ tok, entries.getLast? = some (.emitted req.id tok true)

structure Protocolled (cfg : PoolConfig) (run : BatcherRun M B) : Prop where
  slots : (run.cb.free ++ run.cb.active.map CbSeq.slot ++
    run.cb.prefilling.map PrefillingSeq.slot).Perm (List.range cfg.mMax)
  idle : ∀ slot ∈ run.cb.free, run.cb.dec.blocks.slotBlocks slot = []
  nodup : run.cb.ids.Nodup
  live : ↑run.cb.ids = liveKeys requestProtocol run.log
  answered : ∀ before req after, run.log = before ++ .accepted req :: after →
    Answered req (sessionOf requestProtocol req.id after)
      ((∀ entry ∈ after, entry.accepts requestProtocol req.id = false) ∧ req.id ∈ run.cb.ids)

theorem Ran.protocolled {mem : KvMemory dev} {Allowed : RequestJob → Kernel → Prop}
    (hran : Ran mem Allowed cfg run) : Protocolled cfg run where
  slots := by
    obtain ⟨kv, h⟩ := hran.serving
    have hslots := h.slots
    rw [zero_add, hran.cfg_eq, ContinuousBatcher.slots, Multiset.coe_add, Multiset.coe_add] at hslots
    exact Multiset.coe_eq_coe.mp hslots
  idle := by
    obtain ⟨kv, h⟩ := hran.serving
    exact fun slot hslot => (h.idle slot hslot).1
  nodup := by
    have hnodup := hran.log.nodup (by simp)
    rwa [jobKey_board, Multiset.coe_nodup] at hnodup
  live := by rw [← jobKey_board, hran.log.liveKeys]
  answered := by
    intro before req after hlog
    obtain ⟨last, hsession, hlast⟩ := (hlog ▸ hran.log).session_of_accepted
    rw [jobKey_board, Multiset.mem_coe] at hlast
    have hended := hsession.ended_iff
    rw [Bool.eq_false_iff] at hended
    exact ⟨hsession.length_tokensOf_le,
      fun _ _ _ heq hfinal => hsession.final_last heq hfinal, (not_congr hlast.symm).trans hended⟩

/-- **The request protocol.** Whatever calls a run makes, with ids that are not live: each slot is
free, or owned by one sequence, and a free slot owns no block; each live id is held once; and each
accepted request is answered with at most `max 1 max_tokens` tokens and ends with the one entry that
completes or cancels it. -/
theorem request_protocol
    (hreach : BatcherReaches dev (fun _ _ => True) (.new cfg firstFit swapMode memory) run) :
    Protocolled cfg run :=
  (ran_of_reaches (KvMemory.vacuous dev) (fun _ _ => True) (fun _ => trivial)
    (fun _ call _ => by cases call <;> simp [Call.Permits, ResumesAllowed]) trivial
    hreach).protocolled

theorem request_protocol_crowded :
    ∃ run : BatcherRun History (List Token), run.log = crowdedLog ∧ Protocolled tightPool run := by
  obtain ⟨run, hreach, hlog⟩ := reaches_crowdedLog
  exact ⟨run, hlog, request_protocol hreach⟩

end Zllm.Gpu
