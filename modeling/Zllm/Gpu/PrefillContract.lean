import Zllm.Gpu.DecoderContract

/-!
# Prefill, free and swap

The decoder methods that change what one slot holds: freeing it, prefilling a prompt into it with
prefix reuse, and moving its KV out to the host and back.
-/

namespace Zllm.Gpu

open Function (update update_of_ne update_self)
open BlockState Outcome

variable {M B L : Type} {dev : Device M B L} {mem : KvMemory dev} {dec dec' : BatchedDecoder M}
  {kv : Nat → SlotKv} {slot : Nat} {prompt : List Token} {samp : Option (ℚ × UInt32)}

theorem Frames.mono {slots slots' : List Nat} (hframe : Frames slots dec dec')
    (hsub : ∀ slot ∈ slots, slot ∈ slots') : Frames slots' dec dec' :=
  ⟨hframe.cfg_eq, fun other hother => hframe.slotBlocks_eq other fun h => hother (hsub other h)⟩

/-! ### Freeing a slot -/

theorem freeSlot_spec (hrep : Represents mem dec kv) (hslot : slot < dec.cfg.mMax) :
    Represents mem (dec.freeSlot slot) (update kv slot SlotKv.empty) ∧
      Frames [slot] dec (dec.freeSlot slot) ∧
      (dec.freeSlot slot).blocks.slotBlocks slot = [] := by
  refine ⟨⟨hrep.resident.freeSlot hslot, mem.holds_freeSlot hrep.resident hrep.holds⟩,
    ⟨rfl, fun other hother => ?_⟩, ?_⟩
  · simp only [List.mem_singleton] at hother
    simp [BatchedDecoder.freeSlot, hother]
  · simp [BatchedDecoder.freeSlot]

/-! ### Chunks -/

theorem getLast?_of_forall₂ {α β : Type} {R : α → β → Prop} {as : List α} {bs : List β} {a : α}
    (hall : List.Forall₂ R as bs) (ha : as.getLast? = some a) :
    ∃ b, bs.getLast? = some b ∧ R a b := by
  induction hall with
  | nil => cases ha
  | cons hab hrest ih =>
      cases hrest with
      | nil =>
          obtain rfl := by simpa using ha
          exact ⟨_, rfl, hab⟩
      | cons _ _ =>
          rw [List.getLast?_cons_cons] at ha ⊢
          exact ih ha

theorem PoolConfig.rowCap_pos (cfg : PoolConfig) : 0 < cfg.rowCap := by
  simp [PoolConfig.rowCap, prefillChunkRows]

/-- The rows of a chunk behind what its slot holds of the prompt. -/
theorem chunkRows_inStep {sealed start stop : Nat} (hslot : slot < cfg.mMax)
    (hkv : kv slot = ⟨prompt.take start, sealed⟩) (hstart : start < stop)
    (hstop : stop ≤ prompt.length) :
    let rows := BatchedDecoder.chunkRows prompt slot start stop
    InStep cfg rows kv ∧ appendRows kv rows = update kv slot ⟨prompt.take stop, sealed⟩ ∧
      (ownPrefixes rows kv).getLast? = some (prompt.take stop) ∧
      ∀ row ∈ rows, row.slot = slot := by
  intro rows
  have hrows : rows = slotRows slot (kv slot).tokens.length ((prompt.take stop).drop start) := by
    have : (kv slot).tokens.length = start := by simp [hkv]; omega
    rw [this]
    rfl
  have hwhole : prompt.take start ++ (prompt.take stop).drop start = prompt.take stop := by
    calc
      prompt.take start ++ (prompt.take stop).drop start =
          (prompt.take stop).take start ++ (prompt.take stop).drop start := by
        rw [List.take_take, Nat.min_eq_left hstart.le]
      _ = prompt.take stop := List.take_append_drop _ _
  have hlength : ((prompt.take stop).drop start).length = stop - start := by
    rw [List.length_drop, List.length_take]
    omega
  have hne : stop - start ≠ 0 := by omega
  have hfull : ((prompt.take stop).drop start).take (stop - start - 1 + 1) =
      (prompt.take stop).drop start := List.take_of_length_le (by omega)
  rw [hrows]
  refine ⟨inStep_slotRows hslot _ kv, ?_, ?_, fun row => slot_of_mem_slotRows⟩
  · rw [appendRows_slotRows, hkv, hwhole]
  · rw [ownPrefixes_slotRows, hkv, List.getLast?_map, List.getLast?_range, hlength, if_neg hne,
      Option.map_some, hfull, hwhole]

theorem prefillChunk_spec {sealed start next : Nat} {first : Option Token}
    (hrep : Represents mem dec kv) (hslot : slot < dec.cfg.mMax)
    (hkv : kv slot = ⟨prompt.take start, sealed⟩)
    (hok : dec.prefillChunk dev prompt slot start samp = .ok ((next, first), dec')) :
    Represents mem dec' (update kv slot ⟨prompt.take next, sealed⟩) ∧ Frames [slot] dec dec' ∧
      next = min (start + dec.cfg.rowCap) prompt.length ∧ start < next ∧
      (first = none → next < prompt.length) ∧
      ∀ g, first = some g → next = prompt.length ∧
        ∃ logits, mem.Reads prompt logits ∧ g = BatchedDecoder.selectFirst dev samp logits := by
  unfold BatchedDecoder.prefillChunk at hok
  split at hok
  case isFalse => cases hok
  case isTrue hstart =>
    dsimp only at hok
    have hcap := dec.cfg.rowCap_pos
    set stop := min (start + dec.cfg.rowCap) prompt.length with hstop
    have hlt : start < stop := by omega
    obtain ⟨hstep, happend, hlast, hslots⟩ :=
      chunkRows_inStep hslot hkv hlt (min_le_right _ _ : stop ≤ prompt.length)
    obtain ⟨⟨logits, forwarded⟩, hforward, hok⟩ := bind_eq_ok.mp hok
    obtain ⟨hrep', hreads, hframe⟩ := forwardLogits_spec hrep hstep hforward
    rw [happend] at hrep'
    obtain ⟨l, hl, hread⟩ := getLast?_of_forall₂ hreads hlast
    simp only [pure_eq_ok, Prod.mk.injEq, hl, Option.map_some] at hok
    obtain ⟨⟨rfl, rfl⟩, rfl⟩ := hok
    refine ⟨hrep', hframe.mono ?_, rfl, hlt, ?_, ?_⟩
    · intro other hother
      obtain ⟨row, hrow, rfl⟩ := List.mem_map.mp hother
      simp [hslots row hrow]
    · intro hnone
      split at hnone
      case isTrue => cases hnone
      case isFalse hend => omega
    · intro g hg
      split at hg
      case isFalse => cases hg
      case isTrue hend =>
        obtain rfl := by simpa using hg
        rw [hend, List.take_length] at hread
        exact ⟨hend, l, hread, rfl⟩

/-! ### Whole prompts -/

theorem prefillLoop_spec {sealed start fuel : Nat} {firstTok g : Token}
    (hrep : Represents mem dec kv) (hslot : slot < dec.cfg.mMax)
    (hkv : kv slot = ⟨prompt.take start, sealed⟩) (hstart : start < prompt.length)
    (hfuel : prompt.length - start ≤ fuel)
    (hok : BatchedDecoder.prefillLoop dev prompt slot samp fuel start firstTok dec =
      .ok (g, dec')) :
    Represents mem dec' (update kv slot ⟨prompt, sealed⟩) ∧ Frames [slot] dec dec' ∧
      ∃ logits, mem.Reads prompt logits ∧ g = BatchedDecoder.selectFirst dev samp logits := by
  induction fuel generalizing start firstTok dec kv with
  | zero => omega
  | succ fuel ih =>
      rw [BatchedDecoder.prefillLoop, if_pos hstart] at hok
      obtain ⟨⟨⟨next, first⟩, chunked⟩, hchunk, hok⟩ := bind_eq_ok.mp hok
      obtain ⟨hrep', hframe, -, hlt, hnone, hsome⟩ := prefillChunk_spec hrep hslot hkv hchunk
      cases first with
      | none =>
          obtain ⟨hrep'', hframe', hfirst⟩ := ih hrep' (by rwa [hframe.cfg_eq])
            (by simp) (hnone rfl) (by omega) hok
          exact ⟨by simpa using hrep'', hframe.trans hframe', hfirst⟩
      | some first =>
          obtain ⟨rfl, hfirst⟩ := hsome first rfl
          have hdone : BatchedDecoder.prefillLoop dev prompt slot samp fuel prompt.length first
              chunked = .ok (first, chunked) := by
            cases fuel with
            | zero => rfl
            | succ fuel => simp [BatchedDecoder.prefillLoop]
          dsimp only at hok
          rw [Option.getD_some, hdone] at hok
          obtain ⟨rfl, rfl⟩ := by simpa using hok
          rw [List.take_length] at hrep'
          exact ⟨hrep', hframe, hfirst⟩

theorem prefillPrefixReuse_spec {cachedLen cachedBlocks : Nat} (hrep : Represents mem dec kv)
    (hslot : slot < dec.cfg.mMax) (hempty : dec.blocks.slotBlocks slot = []) (hne : prompt ≠ [])
    (hlen : prompt.length ≤ dec.cfg.maxSeq)
    (hreuse : dec.prefillPrefixReuse dev prompt slot = ((cachedLen, cachedBlocks), dec')) :
    Represents mem dec' (update kv slot ⟨prompt.take cachedLen, cachedLen⟩) ∧
      Frames [slot] dec dec' ∧ cachedLen = cachedBlocks * dec.cfg.blockSize ∧
      cachedLen < prompt.length := by
  obtain ⟨cached, blocks', hrun, hledger, hcached, hreuses⟩ :=
    prefillPrefixReuse_ledger prompt hrep.resident.ledger hslot hempty hlen
  unfold BatchedDecoder.prefillPrefixReuse at hreuse
  rw [hrun] at hreuse
  obtain ⟨⟨rfl, rfl⟩, rfl⟩ := by simpa using hreuse
  have hpos := List.length_pos_iff.mpr hne
  have hle : cached * dec.cfg.blockSize ≤ prompt.length - 1 :=
    (Nat.le_div_iff_mul_le dec.cfg.blockSize_pos).mp hcached
  have hlt : cached * dec.cfg.blockSize < prompt.length := by omega
  refine ⟨⟨?_, ?_⟩, ⟨rfl, fun other hother => ?_⟩, rfl, hlt⟩
  · exact hrep.resident.reuses hledger hempty hlt.le hlen hreuses
  · exact mem.holds_adopt hrep.resident hrep.holds hledger hempty hlt.le hreuses
  · simp only [List.mem_singleton] at hother
    exact hreuses.others other hother

theorem prefillRegister_spec {cachedBlocks : Nat} (hrep : Represents mem dec kv)
    (hkv : kv slot = ⟨prompt, cachedBlocks * dec.cfg.blockSize⟩)
    (hok : dec.prefillRegister dev prompt slot cachedBlocks = .ok dec') :
    Represents mem dec' (update kv slot
      ⟨prompt, prompt.length / dec.cfg.blockSize * dec.cfg.blockSize⟩) ∧
      Frames [slot] dec dec' := by
  unfold BatchedDecoder.prefillRegister at hok
  obtain ⟨blocks, hregister, hok⟩ := bind_eq_ok.mp hok
  have hunhashed : ∀ i b, cachedBlocks ≤ i → (dec.blocks.slotBlocks slot)[i]? = some b →
      dec.blocks.blockHash b = none := fun i b hi hb => by
    refine hrep.resident.unregistered ?_ hb
    rw [hkv]
    exact Nat.mul_lt_mul_of_pos_right (by omega) dec.cfg.blockSize_pos
  obtain ⟨hledger, hregs⟩ := prefillRegister_ledger hrep.resident.ledger hunhashed hregister
  obtain rfl := by simpa using hok
  refine ⟨⟨hrep.resident.registers hledger hkv hregs, ?_⟩, ⟨rfl, fun other _ => ?_⟩⟩
  · exact mem.holds_register hrep.resident hrep.holds hledger (by rw [hkv]) hregs
  · exact congrFun hregs.slotBlocks_eq other

theorem prefillSlotCached_spec {g : Token} {cachedLen : Nat} (hrep : Represents mem dec kv)
    (hslot : slot < dec.cfg.mMax) (hempty : dec.blocks.slotBlocks slot = [])
    (hok : dec.prefillSlotCached dev prompt slot samp = .ok ((g, cachedLen), dec')) :
    (∃ sealed, Represents mem dec' (update kv slot ⟨prompt, sealed⟩)) ∧ Frames [slot] dec dec' ∧
      prompt ≠ [] ∧ prompt.length ≤ dec.cfg.maxSeq ∧
      ∃ logits, mem.Reads prompt logits ∧ g = BatchedDecoder.selectFirst dev samp logits := by
  unfold BatchedDecoder.prefillSlotCached at hok
  split at hok
  case isFalse => cases hok
  case isTrue hprompt =>
    obtain ⟨hne, hlen⟩ := hprompt
    cases hreuse : dec.prefillPrefixReuse dev prompt slot with
    | mk lens reused =>
        obtain ⟨reusedLen, cachedBlocks⟩ := lens
        rw [hreuse] at hok
        obtain ⟨⟨first, prefilled⟩, hprefill, hok⟩ := bind_eq_ok.mp hok
        obtain ⟨registered, hregister, hok⟩ := bind_eq_ok.mp hok
        obtain ⟨⟨rfl, rfl⟩, rfl⟩ := by simpa using hok
        obtain ⟨hrep₁, hframe₁, rfl, hlt⟩ :=
          prefillPrefixReuse_spec hrep hslot hempty hne hlen hreuse
        unfold BatchedDecoder.prefillSlotFrom at hprefill
        rw [if_pos ⟨hne, by rwa [hframe₁.cfg_eq], hlt⟩] at hprefill
        obtain ⟨hrep₂, hframe₂, hfirst⟩ := prefillLoop_spec hrep₁ (by rwa [hframe₁.cfg_eq])
          (update_self slot _ kv) hlt (by omega) hprefill
        rw [Function.update_idem] at hrep₂
        have hkv₂ : update kv slot ⟨prompt, cachedBlocks * dec.cfg.blockSize⟩ slot =
            ⟨prompt, cachedBlocks * prefilled.cfg.blockSize⟩ := by
          rw [update_self, hframe₂.cfg_eq, hframe₁.cfg_eq]
        obtain ⟨hrep₃, hframe₃⟩ := prefillRegister_spec hrep₂ hkv₂ hregister
        rw [Function.update_idem] at hrep₃
        exact ⟨⟨_, hrep₃⟩, (hframe₁.trans hframe₂).trans hframe₃, hne, hlen, hfirst⟩

/-! ### Swap-to-host -/

theorem swapOut_spec {nPos : Nat} {host : HostKv B} (hrep : Represents mem dec kv)
    (hlen : nPos ≤ (kv slot).tokens.length)
    (hok : dec.swapOut dev slot nPos = .ok (host, dec')) :
    dec' = dec.freeSlot slot ∧ host.nPos = nPos ∧ host.nb = nPos ⌈/⌉ dec.cfg.blockSize ∧
      mem.Saved dec.cfg host ((kv slot).tokens.take nPos) := by
  unfold BatchedDecoder.swapOut at hok
  obtain ⟨⟨phys, blocks⟩, hswap, hok⟩ := bind_eq_ok.mp hok
  unfold BlockState.swapOut at hswap
  dsimp only at hswap
  split at hswap
  case isFalse => cases hswap
  case isTrue =>
    obtain ⟨rfl, rfl⟩ := by simpa using hswap
    obtain ⟨rfl, rfl⟩ := by simpa using hok
    exact ⟨rfl, rfl, rfl, mem.saved_copyOut hrep.resident hrep.holds hlen⟩

/-- Restoring a saved sequence gives the slot back the KV of the sequence's tokens. -/
theorem swapIn_spec {host : HostKv B} {tokens : List Token} {restored : Bool}
    (hrep : Represents mem dec kv) (hslot : slot < dec.cfg.mMax) (hkv : kv slot = SlotKv.empty)
    (hsaved : mem.Saved dec.cfg host tokens) (hpos : host.nPos = tokens.length)
    (hnb : host.nb = host.nPos ⌈/⌉ dec.cfg.blockSize) (hlen : tokens.length ≤ dec.cfg.maxSeq)
    (hfits : dec.canFit tokens.length = true)
    (hok : dec.swapIn dev slot host = .ok (restored, dec')) :
    Represents mem dec' (update kv slot ⟨tokens, 0⟩) ∧ Frames [slot] dec dec' := by
  have hmax : host.nPos ≤ dec.cfg.maxSeq := by omega
  obtain ⟨hledger, hext⟩ := ensureBlocks_ledger hrep.resident.ledger hslot hmax
  have hlength : (dec.blocks.ensureBlocks dec.cfg slot host.nPos).1 = true →
      host.nPos ⌈/⌉ dec.cfg.blockSize ≤
        ((dec.blocks.ensureBlocks dec.cfg slot host.nPos).2.slotBlocks slot).length :=
    ensureBlocks_length
  have htrue : (dec.blocks.ensureBlocks dec.cfg slot host.nPos).1 = true := by
    rw [ensureBlocks_eq_true hrep.resident.ledger hslot hmax]
    have : host.nPos ⌈/⌉ dec.cfg.blockSize ≤ dec.blocks.freeBlocks dec.cfg := by
      rw [hpos]
      exact of_decide_eq_true hfits
    unfold BlockState.blocksShort
    omega
  unfold BatchedDecoder.swapIn BlockState.swapIn at hok
  generalize dec.blocks.ensureBlocks dec.cfg slot host.nPos = grown at *
  obtain ⟨fits, grown⟩ := grown
  obtain rfl : fits = true := htrue
  dsimp only at hledger hext hlength hok
  have hblocks : host.nb ≤ (grown.slotBlocks slot).length := hnb ▸ hlength rfl
  rw [if_pos hblocks] at hok
  obtain ⟨⟨copied, blocks⟩, hswap, hok⟩ := bind_eq_ok.mp hok
  obtain ⟨rfl, rfl⟩ := by simpa using hswap
  obtain ⟨rfl, rfl⟩ := by simpa using hok
  have hres := hrep.resident.extends hledger hext
  have hholds := mem.holds_extends hrep.resident hrep.holds hledger hext
  refine ⟨⟨?_, ?_⟩, ⟨rfl, fun other hother => ?_⟩⟩
  · refine hres.fill (by simp [hkv, SlotKv.empty]) hlen ?_
    have := hlength rfl
    rw [ceilDiv_le_iff_le_mul dec.cfg.blockSize_pos] at this
    rw [Nat.mul_comm]
    omega
  · exact mem.holds_copyIn hres hholds hsaved hkv hpos hnb hblocks
  · simp only [List.mem_singleton] at hother
    exact hext.others other hother

end Zllm.Gpu
