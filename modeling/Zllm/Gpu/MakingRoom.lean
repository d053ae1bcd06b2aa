import Zllm.Gpu.Eviction
import Zllm.Gpu.DecodePhase
import Zllm.Gpu.PoolCapacity

/-!
# Making room

A preemption gives back the blocks of its victim and touches no other slot. The two loops that
preempt end: `make_room` with enough blocks or one active sequence left, and the loop of
`advance_prefill` always with enough blocks, since the front prefill alone fits the pool.
-/

namespace Zllm.Gpu

open Outcome ContinuousBatcher
open BlockState hiding new

variable {M B L : Type} {dev : Device M B L} {mem : KvMemory dev} {cb cb' cb'' : ContinuousBatcher M B}
  {kv : Nat → SlotKv}

/-! ### One preemption -/

namespace ContinuousBatcher

/-- The slots that own blocks. -/
def owners (cb : ContinuousBatcher M B) : List Nat :=
  cb.active.map CbSeq.slot ++ cb.prefilling.map PrefillingSeq.slot

/-- `cb` with its last active sequence `victim` evicted, its KV kept as `saved`. -/
def evictLast (cb : ContinuousBatcher M B) (victim : CbSeq) (saved : Option (HostKv B)) :
    ContinuousBatcher M B :=
  { cb with
    dec := cb.dec.freeSlot victim.slot
    active := cb.active.dropLast
    preemptions := cb.preemptions + 1
    free := victim.slot :: cb.free
    preempted := cb.preempted ++ [victim.evicted saved] }

/-- `cb` with its last prefilling sequence `pf` evicted. -/
def evictLastPrefill (cb : ContinuousBatcher M B) (pf : PrefillingSeq) : ContinuousBatcher M B :=
  { cb with
    dec := cb.dec.freeSlot pf.slot
    prefilling := cb.prefilling.dropLast
    preemptions := cb.preemptions + 1
    free := pf.slot :: cb.free
    preempted := cb.preempted ++ [{
      id := pf.id, tokens := pf.prompt, promptLen := pf.promptLen, maxTokens := pf.maxTokens
      eos := pf.eos, params := pf.params, baseSeed := pf.baseSeed, kv := none }] }

end ContinuousBatcher

theorem preemptLastActive_nil (hnil : cb.active = []) :
    cb.preemptLastActive dev = .ok (false, cb) := by
  simp [preemptLastActive, hnil]

/-- Preempting an active sequence never fails: its blocks hold what it has fed. -/
theorem preemptLastActive_eq {victim : CbSeq} (h : Serving mem 0 cb kv)
    (hlast : cb.active.getLast? = some victim) :
    ∃ saved, cb.preemptLastActive dev = .ok (true, cb.evictLast victim saved) := by
  have hheld := h.active victim (List.mem_of_getLast? hlast)
  have hbacked := h.represents.resident.backed victim.slot
  rw [hheld.fed, List.length_dropLast] at hbacked
  have hblocks := ceilDiv_le_length hbacked
  unfold preemptLastActive
  simp only [hlast, BatchedDecoder.swapOut, BlockState.swapOut, if_pos hblocks]
  split
  · exact ⟨_, rfl⟩
  · exact ⟨none, rfl⟩

theorem active_preemptLastActive {preempted : Bool}
    (hok : cb.preemptLastActive dev = .ok (preempted, cb')) :
    cb'.active = cb.active.dropLast ∧ cb'.prefilling = cb.prefilling ∧
      preempted = !cb.active.isEmpty := by
  unfold preemptLastActive at hok
  split at hok
  case h_1 hlast =>
    have hnil := List.getLast?_eq_none_iff.mp hlast
    obtain ⟨rfl, rfl⟩ := by simpa using hok
    simp [hnil]
  case h_2 victim hlast =>
    have hne : cb.active ≠ [] := List.ne_nil_of_mem (List.mem_of_getLast? hlast)
    split at hok
    case isTrue =>
      obtain ⟨out, -, hok⟩ := bind_eq_ok.mp hok
      obtain ⟨rfl, rfl⟩ := by simpa using hok
      simp [hne]
    case isFalse =>
      obtain ⟨rfl, rfl⟩ := by simpa using hok
      simp [hne]

theorem preemptLastPrefill_eq {pf : PrefillingSeq} (hlen : 2 ≤ cb.prefilling.length)
    (hlast : cb.prefilling.getLast? = some pf) :
    cb.preemptLastPrefill = (true, cb.evictLastPrefill pf) := by
  rw [preemptLastPrefill, if_neg (by omega), hlast]
  rfl

theorem prefilling_preemptLastPrefill (hok : cb.preemptLastPrefill = (true, cb')) :
    2 ≤ cb.prefilling.length ∧ cb'.active = cb.active ∧
      cb'.prefilling = cb.prefilling.dropLast := by
  unfold preemptLastPrefill at hok
  split at hok
  case isTrue => simp at hok
  case isFalse hlen =>
    split at hok
    case h_1 => simp at hok
    case h_2 =>
      obtain rfl := by simpa using hok
      exact ⟨by omega, rfl, rfl⟩

theorem preemptLastPrefill_short (hlen : cb.prefilling.length < 2) :
    cb.preemptLastPrefill = (false, cb) := by
  rw [preemptLastPrefill, if_pos hlen]

/-! ### What evictions leave -/

/-- `cb'` is `cb` with some sequences evicted from the ends, the blocks of the others untouched. -/
structure Vacates (cb cb' : ContinuousBatcher M B) : Prop where
  cfg_eq : cb'.dec.cfg = cb.dec.cfg
  active_initial : cb'.active <+: cb.active
  prefilling_initial : cb'.prefilling <+: cb.prefilling
  slotBlocks_eq : ∀ slot ∈ cb'.owners,
    cb'.dec.blocks.slotBlocks slot = cb.dec.blocks.slotBlocks slot

theorem vacates_refl : Vacates cb cb :=
  ⟨rfl, List.prefix_rfl, List.prefix_rfl, fun _ _ => rfl⟩

theorem Vacates.owners_subset (hvacates : Vacates cb cb') : cb'.owners ⊆ cb.owners := by
  refine List.append_subset.mpr ⟨?_, ?_⟩
  · exact List.Subset.trans (List.map_subset _ hvacates.active_initial.subset)
      (List.subset_append_left _ _)
  · exact List.Subset.trans (List.map_subset _ hvacates.prefilling_initial.subset)
      (List.subset_append_right _ _)

theorem Vacates.trans (hfirst : Vacates cb cb') (hsecond : Vacates cb' cb'') :
    Vacates cb cb'' where
  cfg_eq := hsecond.cfg_eq.trans hfirst.cfg_eq
  active_initial := hsecond.active_initial.trans hfirst.active_initial
  prefilling_initial := hsecond.prefilling_initial.trans hfirst.prefilling_initial
  slotBlocks_eq := fun slot hslot =>
    (hsecond.slotBlocks_eq slot hslot).trans
      (hfirst.slotBlocks_eq slot (hsecond.owners_subset hslot))

/-- The slot of a sequence off the lists is not among the owners. -/
theorem Serving.notMem_owners {hand : Multiset Nat} {slot : Nat}
    (h : Serving mem (slot ::ₘ hand) cb kv) : slot ∉ cb.owners := by
  have hslot := h.notMem_slots
  simp only [ContinuousBatcher.slots, Multiset.mem_add, Multiset.mem_coe, not_or] at hslot
  rw [owners, List.mem_append, not_or]
  exact ⟨hslot.1.2, hslot.2⟩

theorem vacates_evictLast {victim : CbSeq} (h : Serving mem 0 cb kv)
    (hlast : cb.active.getLast? = some victim) (saved : Option (HostKv B)) :
    Vacates cb (cb.evictLast victim saved) := by
  refine ⟨rfl, List.dropLast_prefix _, List.prefix_rfl, fun slot hslot => ?_⟩
  have hvictim := (h.takeActive (perm_dropLast hlast)).notMem_owners
  have hne : slot ≠ victim.slot := fun heq => hvictim (heq ▸ hslot)
  simp [evictLast, BatchedDecoder.freeSlot, hne]

theorem vacates_evictLastPrefill {pf : PrefillingSeq} (h : Serving mem 0 cb kv)
    (hlast : cb.prefilling.getLast? = some pf) : Vacates cb (cb.evictLastPrefill pf) := by
  refine ⟨rfl, List.prefix_rfl, List.dropLast_prefix _, fun slot hslot => ?_⟩
  have hvictim := (h.takePrefilling (perm_dropLast hlast)).notMem_owners
  have hne : slot ≠ pf.slot := fun heq => hvictim (heq ▸ hslot)
  simp [evictLastPrefill, BatchedDecoder.freeSlot, hne]

/-- The free blocks are those that no active or prefilling sequence holds. -/
theorem Serving.freeBlocks_add_card (h : Serving mem 0 cb kv) :
    cb.dec.freeBlocks + (cb.dec.blocks.held cb.owners).card = cb.dec.cfg.nBlocks := by
  refine freeBlocks_add_card_held h.represents.resident.ledger fun slot hne => ?_
  have hmem : slot ∈ (0 : Multiset Nat) + cb.slots := by
    rw [h.slots]
    exact Multiset.mem_range.mpr
      (List.mem_range.mp (slot_mem_range h.represents.resident.ledger hne))
  rw [zero_add, ContinuousBatcher.slots, add_assoc, Multiset.mem_add, Multiset.coe_add,
    Multiset.mem_coe, Multiset.mem_coe] at hmem
  exact hmem.resolve_left fun hfree => hne (h.idle slot hfree).1

/-! ### Making room for a decode -/

theorem makeRoomLoop_eq_self {fuel : Nat} (hroom : cb.needed ≤ cb.dec.freeBlocks) :
    makeRoomLoop dev fuel cb = .ok cb := by
  cases fuel with
  | zero => rfl
  | succ fuel => rw [makeRoomLoop, if_neg (by omega)]

/-- More iterations than there are active sequences change nothing. -/
theorem makeRoomLoop_fuel {fuel fuel' : Nat} (hfuel : cb.active.length ≤ fuel)
    (hfuel' : cb.active.length ≤ fuel') :
    makeRoomLoop dev fuel cb = makeRoomLoop dev fuel' cb := by
  induction fuel generalizing fuel' cb with
  | zero =>
      cases fuel' with
      | zero => rfl
      | succ fuel' => rw [makeRoomLoop, makeRoomLoop, if_neg (by omega)]
  | succ fuel ih =>
      cases fuel' with
      | zero => rw [makeRoomLoop, makeRoomLoop, if_neg (by omega)]
      | succ fuel' =>
          rw [makeRoomLoop, makeRoomLoop]
          split
          case isFalse => rfl
          case isTrue =>
            cases hpreempt : cb.preemptLastActive dev with
            | error panic => rfl
            | ok out =>
                have hlen := congrArg List.length (active_preemptLastActive hpreempt).1
                rw [List.length_dropLast] at hlen
                exact ih (by omega) (by omega)

/-- What `make_room` leaves. -/
structure MadeRoom (mem : KvMemory dev) (cb roomy : ContinuousBatcher M B) : Prop where
  serving : ∃ kv, Serving mem 0 roomy kv
  vacates : Vacates cb roomy
  prefilling_eq : roomy.prefilling = cb.prefilling
  survivor : cb.active ≠ [] → roomy.active ≠ []
  enough : roomy.active.length ≤ 1 ∨ roomy.needed ≤ roomy.dec.freeBlocks

theorem makeRoomLoop_exits {fuel : Nat} (h : Serving mem 0 cb kv)
    (hfuel : cb.active.length ≤ fuel) :
    ∃ roomy, makeRoomLoop dev fuel cb = .ok roomy ∧ MadeRoom mem cb roomy := by
  have hdone : ∀ {cb : ContinuousBatcher M B} {kv : Nat → SlotKv}, Serving mem 0 cb kv →
      cb.active.length ≤ 1 ∨ cb.needed ≤ cb.dec.freeBlocks → MadeRoom mem cb cb :=
    fun h henough => ⟨⟨_, h⟩, vacates_refl, rfl, id, henough⟩
  induction fuel generalizing cb kv with
  | zero => exact ⟨cb, rfl, hdone h (Or.inl (by omega))⟩
  | succ fuel ih =>
      rw [makeRoomLoop]
      split
      case isFalse henough => exact ⟨cb, rfl, hdone h (by omega)⟩
      case isTrue hshort =>
        obtain ⟨victim, hlast⟩ : ∃ victim, cb.active.getLast? = some victim :=
          ⟨_, List.getLast?_eq_some_getLast (List.length_pos_iff.mp (by omega))⟩
        obtain ⟨saved, hpreempt⟩ := preemptLastActive_eq h hlast
        obtain ⟨kv', h'⟩ := (preemptLastActive_spec h hpreempt).serving
        have hlen : (cb.evictLast victim saved).active.length = cb.active.length - 1 :=
          List.length_dropLast
        obtain ⟨roomy, hroom, hmade⟩ := ih h' (by omega)
        refine ⟨roomy, by rw [hpreempt]; exact hroom, hmade.serving,
          (vacates_evictLast h hlast saved).trans hmade.vacates, hmade.prefilling_eq,
          fun _ => hmade.survivor ?_, hmade.enough⟩
        exact List.length_pos_iff.mp (by omega)

theorem makeRoom_exits (h : Serving mem 0 cb kv) :
    ∃ roomy, cb.makeRoom dev = .ok roomy ∧ MadeRoom mem cb roomy :=
  makeRoomLoop_exits h le_rfl

/-! ### Making room for a chunk -/

theorem makeChunkRoom_eq_self {slot chunkEnd fuel : Nat}
    (hfits : cb.dec.blocksShort slot chunkEnd ≤ cb.dec.freeBlocks) :
    makeChunkRoom dev slot chunkEnd (fuel + 1) cb = .ok (true, cb) := by
  rw [makeChunkRoom, if_neg (by omega)]

theorem makeChunkRoom_active {slot chunkEnd fuel : Nat}
    (hshort : cb.dec.freeBlocks < cb.dec.blocksShort slot chunkEnd)
    (hpreempt : cb.preemptLastActive dev = .ok (true, cb')) :
    makeChunkRoom dev slot chunkEnd (fuel + 1) cb = makeChunkRoom dev slot chunkEnd fuel cb' := by
  rw [makeChunkRoom, if_pos hshort, hpreempt]
  rfl

theorem makeChunkRoom_prefill {slot chunkEnd fuel : Nat} {preempted : Bool}
    (hshort : cb.dec.freeBlocks < cb.dec.blocksShort slot chunkEnd) (hnil : cb.active = [])
    (hpreempt : cb.preemptLastPrefill = (preempted, cb')) :
    makeChunkRoom dev slot chunkEnd (fuel + 1) cb =
      if preempted then makeChunkRoom dev slot chunkEnd fuel cb' else .ok (false, cb') := by
  rw [makeChunkRoom, if_pos hshort, preemptLastActive_nil hnil]
  simp only [bind, Except.bind, Bool.false_eq_true, if_false, hpreempt]

/-- More iterations than there are sequences change nothing. -/
theorem makeChunkRoom_fuel {slot chunkEnd fuel fuel' : Nat} (hne : cb.prefilling ≠ [])
    (hfuel : cb.active.length + cb.prefilling.length ≤ fuel)
    (hfuel' : cb.active.length + cb.prefilling.length ≤ fuel') :
    makeChunkRoom dev slot chunkEnd fuel cb = makeChunkRoom dev slot chunkEnd fuel' cb := by
  have hpos := List.length_pos_iff.mpr hne
  induction fuel generalizing fuel' cb with
  | zero => omega
  | succ fuel ih =>
      obtain ⟨fuel', rfl⟩ := Nat.exists_eq_add_one_of_ne_zero (by omega : fuel' ≠ 0)
      rw [makeChunkRoom, makeChunkRoom]
      split
      case isFalse => rfl
      case isTrue =>
        cases hpreempt : cb.preemptLastActive dev with
        | error panic => rfl
        | ok out =>
            obtain ⟨preempted, evicted⟩ := out
            obtain ⟨hactive, hprefilling, hpreempted⟩ := active_preemptLastActive hpreempt
            cases preempted with
            | true =>
                have hsome : 0 < cb.active.length := by
                  rw [List.length_pos_iff]
                  simpa using hpreempted
                have hlen := congrArg List.length hactive
                rw [List.length_dropLast] at hlen
                exact ih (by rwa [hprefilling]) (by rw [hprefilling]; omega)
                  (by rw [hprefilling]; omega) (by rwa [hprefilling])
            | false =>
                simp only [bind, Except.bind, Bool.false_eq_true, if_false]
                cases hevict : evicted.preemptLastPrefill with
                | mk preempted evicted' =>
                    cases preempted with
                    | false => rfl
                    | true =>
                        obtain ⟨htwo, hsame, hdrop⟩ := prefilling_preemptLastPrefill hevict
                        have hlen := congrArg List.length hdrop
                        have hlenActive := congrArg List.length hactive
                        rw [List.length_dropLast, hprefilling] at hlen
                        rw [List.length_dropLast] at hlenActive
                        rw [hprefilling] at htwo
                        change makeChunkRoom dev slot chunkEnd fuel evicted' =
                          makeChunkRoom dev slot chunkEnd fuel' evicted'
                        exact ih (List.length_pos_iff.mp (by omega)) (by rw [hsame]; omega)
                          (by rw [hsame]; omega) (by omega)

/-- What is left once the blocks of a chunk fit. -/
structure MadeChunkRoom (mem : KvMemory dev) (slot chunkEnd : Nat)
    (cb roomy : ContinuousBatcher M B) : Prop where
  serving : ∃ kv, Serving mem 0 roomy kv
  vacates : Vacates cb roomy
  front : roomy.prefilling.head? = cb.prefilling.head?
  enough : roomy.dec.blocksShort slot chunkEnd ≤ roomy.dec.freeBlocks

/-- The front prefill alone always fits the pool. -/
theorem Serving.chunk_fits_alone {slot chunkEnd : Nat} (h : Serving mem 0 cb kv)
    (howners : cb.owners ⊆ [slot]) (hend : chunkEnd ≤ cb.dec.cfg.maxSeq) :
    cb.dec.blocksShort slot chunkEnd ≤ cb.dec.freeBlocks := by
  have hcard := (Finset.card_le_card (held_subset howners fun _ _ => rfl)).trans
    (card_held_le cb.dec.blocks [slot])
  simp only [List.map_cons, List.map_nil, List.sum_singleton] at hcard
  have hfree := h.freeBlocks_add_card
  have hone := cb.dec.cfg.holdsOneSequence
  have hneed := PoolConfig.ceilDiv_le_maxBlocksPerSeq hend
  unfold PoolConfig.maxBlocksPerSeq at hneed
  simp only [BatchedDecoder.blocksShort, blocksShort]
  omega

/-- The loop ends with the chunk's blocks fitting: its `return` without them is never taken. -/
theorem makeChunkRoom_exits {slot chunkEnd fuel : Nat} {front : PrefillingSeq}
    (h : Serving mem 0 cb kv) (hfront : cb.prefilling.head? = some front)
    (hslot : front.slot = slot) (hend : chunkEnd ≤ cb.dec.cfg.maxSeq)
    (hfuel : cb.active.length + cb.prefilling.length ≤ fuel) :
    ∃ roomy, makeChunkRoom dev slot chunkEnd fuel cb = .ok (true, roomy) ∧
      MadeChunkRoom mem slot chunkEnd cb roomy := by
  have hlength : 0 < cb.prefilling.length :=
    List.length_pos_iff.mpr (List.ne_nil_of_mem (List.mem_of_mem_head? hfront))
  induction fuel generalizing cb kv with
  | zero => omega
  | succ fuel ih =>
      by_cases hfits : cb.dec.blocksShort slot chunkEnd ≤ cb.dec.freeBlocks
      · exact ⟨cb, makeChunkRoom_eq_self hfits, ⟨_, h⟩, vacates_refl, rfl, hfits⟩
      · rw [not_le] at hfits
        cases hlast : cb.active.getLast? with
        | some victim =>
            have hpos : 0 < cb.active.length :=
              List.length_pos_iff.mpr (List.ne_nil_of_mem (List.mem_of_getLast? hlast))
            obtain ⟨saved, hpreempt⟩ := preemptLastActive_eq h hlast
            obtain ⟨kv', h'⟩ := (preemptLastActive_spec h hpreempt).serving
            have hlen : (cb.evictLast victim saved).active.length = cb.active.length - 1 :=
              List.length_dropLast
            have hsame : (cb.evictLast victim saved).prefilling = cb.prefilling := rfl
            obtain ⟨roomy, hroom, hmade⟩ :=
              ih h' hfront hend (by rw [hsame, hlen]; omega) hlength
            exact ⟨roomy, by rw [makeChunkRoom_active hfits hpreempt, hroom], hmade.serving,
              (vacates_evictLast h hlast saved).trans hmade.vacates, hmade.front, hmade.enough⟩
        | none =>
            have hnil := List.getLast?_eq_none_iff.mp hlast
            by_cases hlen : cb.prefilling.length < 2
            · -- nothing but the front is left, and it fits
              obtain ⟨pf, hpf⟩ := List.length_eq_one_iff.mp (by omega : cb.prefilling.length = 1)
              obtain rfl : pf = front := by simpa [hpf] using hfront
              have howners : cb.owners ⊆ [slot] := by simp [owners, hnil, hpf, hslot]
              exact absurd (h.chunk_fits_alone howners hend) (by omega)
            · obtain ⟨pf, hpf⟩ : ∃ pf, cb.prefilling.getLast? = some pf :=
                ⟨_, List.getLast?_eq_some_getLast (List.length_pos_iff.mp hlength)⟩
              have hpreempt := preemptLastPrefill_eq (by omega) hpf
              have hevicts := preemptLastPrefill_spec h hpreempt
              obtain ⟨kv', h'⟩ := hevicts.serving
              have hpfLen : (cb.evictLastPrefill pf).prefilling.length = cb.prefilling.length - 1 :=
                List.length_dropLast
              have hsame : (cb.evictLastPrefill pf).active = cb.active := rfl
              obtain ⟨roomy, hroom, hmade⟩ := ih h' (hevicts.front.trans hfront) hend
                (by rw [hsame, hpfLen]; omega) (by rw [hpfLen]; omega)
              refine ⟨roomy, ?_, hmade.serving,
                (vacates_evictLastPrefill h hpf).trans hmade.vacates,
                hmade.front.trans hevicts.front, hmade.enough⟩
              rw [makeChunkRoom_prefill hfits hnil hpreempt, if_pos rfl, hroom]

end Zllm.Gpu
