import Zllm.Engine.PldLoop
import Zllm.Gpu.PhaseOutcome

/-!
# Speculative decoding in one slot

`BatchedDecoder::generate_pld`: a prompt prefilled into slot 0 and decoded by the prompt-lookup
loop. The rows of rejected drafts stay in the pool until the next forward writes over them, and
nothing reads them before.
-/

namespace Zllm.Gpu

open Function (update update_of_ne update_self)
open Outcome
open SpecDecode (Forwards greedyAlone)

variable {M B L : Type}

namespace BatchedDecoder

variable (dev : Device M B L)

def prefillSlot (prompt : List Token) (slot : Nat) (dec : BatchedDecoder M) :
    Except Panic (Token × BatchedDecoder M) :=
  dec.prefillSlotFrom dev prompt slot 0 none

/-- The forwards of `generate_pld`, all in slot 0. -/
def pldForwards : Forwards (BatchedDecoder M) Panic where
  verify inp pos dec := dec.stepSlotted dev (slotRows 0 pos inp)
  single tok pos dec := do
    let (outs, dec) ← dec.stepSlotted dev (slotRows 0 pos [tok])
    match outs[0]? with
    | some tok => return (tok, dec)
    | none => .error .indexOutOfBounds

/-- Returns `(produced, forwards)`. -/
def generatePld (prompt : List Token) (maxNew : Nat) (eos : Token) (lookupLen draftK : Nat)
    (dec : BatchedDecoder M) : Except Panic ((List Token × Nat) × BatchedDecoder M) :=
  if draftK + 1 ≤ dec.cfg.mMax then do
    let (g0, dec) ← dec.prefillSlot dev prompt 0
    (pldForwards dev).pldRun eos maxNew lookupLen draftK prompt g0 dec
  else
    .error .rowCount

end BatchedDecoder

variable {dev : Device M B L} {mem : KvMemory dev} {cfg : PoolConfig} {dec : BatchedDecoder M}
  {next : List Token → Token} {room : Nat} {held : List Token}

/-- Slot 0 holds the tokens, and the pool has the blocks for `room` positions of it. -/
structure SlotHolds (mem : KvMemory dev) (cfg : PoolConfig) (room : Nat) (held : List Token)
    (dec : BatchedDecoder M) : Prop where
  represents : ∃ kv, Represents mem dec kv ∧ kv 0 = ⟨held, 0⟩
  cfg_eq : dec.cfg = cfg
  fits : Fits dec 0 room

theorem SlotHolds.truncate {kept : List Token} (h : SlotHolds mem cfg room held dec)
    (hkept : kept <+: held) : SlotHolds mem cfg room kept dec := by
  obtain ⟨kv, hrep, hkv⟩ := h.represents
  refine ⟨⟨update kv 0 ⟨kept, 0⟩, hrep.truncate ?_ ?_ ?_, update_self 0 _ kv⟩, h.cfg_eq, h.fits⟩
  · intro slot
    by_cases hslot : slot = 0
    · rw [hslot, update_self, hkv]
      exact hkept
    · rw [update_of_ne hslot]
  · intro slot
    by_cases hslot : slot = 0
    · rw [hslot, update_self, hkv]
    · rw [update_of_ne hslot]
  · intro slot
    by_cases hslot : slot = 0
    · rw [hslot, update_self]
      exact Nat.zero_le _
    · rw [update_of_ne hslot]
      exact hrep.resident.sealed_le slot

theorem map_eq_map_of_forall₂ {α β γ : Type} {R : α → β → Prop} {f : α → γ} {g : β → γ}
    (hR : ∀ a b, R a b → g b = f a) {as : List α} {bs : List β} (hall : List.Forall₂ R as bs) :
    bs.map g = as.map f := by
  induction hall with
  | nil => rfl
  | cons hab _ ih => rw [List.map_cons, List.map_cons, hR _ _ hab, ih]

/-- A forward of tokens behind those held chooses by the tokens up to each position. -/
theorem SlotHolds.stepSlotted (hreads : ∀ tokens logits, mem.Reads tokens logits →
      dev.argmax logits = next tokens) (h : SlotHolds mem cfg room held dec) {inp : List Token}
    (hne : inp ≠ []) (hroom : held.length + inp.length ≤ room) (hrows : inp.length ≤ cfg.mMax) :
    ∃ dec', dec.stepSlotted dev (slotRows 0 held.length inp) =
        .ok ((List.range inp.length).map fun i => next (held ++ inp.take (i + 1)), dec') ∧
      SlotHolds mem cfg room (held ++ inp) dec' := by
  obtain ⟨kv, hrep, hkv⟩ := h.represents
  have hcheck : BatchedDecoder.checkRows dec.cfg (slotRows 0 held.length inp) = .ok () := by
    rw [BatchedDecoder.checkRows, slotRows, List.length_mapIdx, h.cfg_eq,
      if_pos ⟨hrows, List.length_pos_iff.mpr hne⟩]
  have hpos : ∀ row ∈ slotRows 0 held.length inp, row.slot = 0 ∧ row.pos < room := by
    intro row hrow
    obtain ⟨i, hi, rfl⟩ := List.mem_mapIdx.mp hrow
    exact ⟨rfl, by simp only; omega⟩
  obtain ⟨logits, dec', hforward, hcfg, hfits⟩ := h.fits.forwardLogits dev hpos
  have hinstep : InStep dec.cfg (slotRows 0 (kv 0).tokens.length inp) kv :=
    inStep_slotRows h.fits.slot_lt inp kv
  simp only [hkv] at hinstep
  obtain ⟨hrep', hall, -⟩ := forwardLogits_spec hrep hinstep hforward
  rw [appendRows_slotRows, hkv] at hrep'
  rw [ownPrefixes_slotRows, hkv] at hall
  have hchoices : logits.map dev.argmax =
      (List.range inp.length).map fun i => next (held ++ inp.take (i + 1)) := by
    rw [map_eq_map_of_forall₂ hreads hall, List.map_map]
    rfl
  refine ⟨dec', ?_, ⟨_, hrep', update_self 0 _ kv⟩, hcfg.trans h.cfg_eq, hfits⟩
  rw [BatchedDecoder.stepSlotted, hcheck, hforward, ← hchoices]
  rfl

theorem lawful_pldForwards (hreads : ∀ tokens logits, mem.Reads tokens logits →
      dev.argmax logits = next tokens) (hpos : 0 < cfg.mMax) :
    (BatchedDecoder.pldForwards dev).Lawful next
      (fun held dec => SlotHolds mem cfg room held dec) cfg.mMax room .rowCount where
  truncate h hkept := h.truncate hkept
  verify inp h hne hroom hrows := h.stepSlotted hreads hne hroom hrows
  refuses inp h hrows := by
    simp only [BatchedDecoder.pldForwards, BatchedDecoder.stepSlotted]
    rw [BatchedDecoder.checkRows, slotRows, List.length_mapIdx, h.cfg_eq,
      if_neg fun hcount => hrows.not_ge hcount.1]
    rfl
  single tok h hroom := by
    obtain ⟨dec', hstep, h'⟩ := h.stepSlotted hreads (List.cons_ne_nil tok []) hroom hpos
    refine ⟨dec', ?_, h'⟩
    simp only [BatchedDecoder.pldForwards, hstep]
    rfl

/-! ### A fresh decoder -/

def BatchedDecoder.new (cfg : PoolConfig) (firstFit : Bool) (memory : M) : BatchedDecoder M where
  cfg := cfg
  blocks := .new cfg firstFit
  mem := memory

/-- The smallest pool has the blocks for one sequence. -/
theorem fits_new (firstFit : Bool) (memory : M) (hpos : 0 < cfg.mMax) (hroom : room ≤ cfg.maxSeq) :
    Fits (.new cfg firstFit memory) 0 room where
  ledger := BlockState.ledger_new firstFit
  slot_lt := hpos
  le_maxSeq := hroom
  enough := by
    have hfree : cfg.nBlocks ≤ (BlockState.new cfg firstFit).freeBlocks cfg := by
      rw [BlockState.freeBlocks]
      exact (List.length_range.symm.le).trans (Nat.le_add_right _ _)
    calc (BlockState.new cfg firstFit).blocksShort cfg 0 room
        ≤ room ⌈/⌉ cfg.blockSize := Nat.sub_le _ _
      _ ≤ cfg.maxSeq ⌈/⌉ cfg.blockSize := by
          rw [ceilDiv_le_iff_le_mul cfg.blockSize_pos]
          exact hroom.trans (le_smul_ceilDiv cfg.blockSize_pos)
      _ ≤ cfg.nBlocks := cfg.holdsOneSequence
      _ ≤ _ := hfree

theorem prefillSlot_new (hreads : ∀ tokens logits, mem.Reads tokens logits →
      dev.argmax logits = next tokens) {firstFit : Bool} {memory : M}
    (hnew : mem.Holds cfg (.new cfg firstFit) memory fun _ => SlotKv.empty)
    (hpos : 0 < cfg.mMax) (hroom : room ≤ cfg.maxSeq) {prompt : List Token} (hne : prompt ≠ [])
    (hlen : prompt.length ≤ room) :
    ∃ dec', (BatchedDecoder.new cfg firstFit memory).prefillSlot dev prompt 0 =
        .ok (next prompt, dec') ∧ SlotHolds mem cfg room prompt dec' := by
  have hlt := List.length_pos_iff.mpr hne
  have hrep : Represents mem (.new cfg firstFit memory) fun _ => SlotKv.empty :=
    ⟨resident_new firstFit, hnew⟩
  obtain ⟨g, dec', hloop, hcfg, hfits⟩ := (fits_new firstFit memory hpos hroom).prefillLoop dev none
    hlen prompt.length 0 0
  obtain ⟨hrep', -, logits, hread, hg⟩ := prefillLoop_spec hrep hpos
    (congrArg (SlotKv.mk · 0) List.take_zero.symm) hlt (Nat.sub_le _ _) hloop
  have hfirst : g = next prompt := hg.trans (hreads prompt logits hread)
  refine ⟨dec', ?_, ⟨_, hrep', update_self 0 _ _⟩, hcfg, hfits⟩
  rw [BatchedDecoder.prefillSlot, BatchedDecoder.prefillSlotFrom,
    if_pos ⟨hne, hlen.trans hroom, hlt⟩, hloop, hfirst]

/-- On a fresh decoder, over any memory that keeps the rows of each slot apart. -/
theorem generatePld_new (hreads : ∀ tokens logits, mem.Reads tokens logits →
      dev.argmax logits = next tokens) {firstFit : Bool} {memory : M}
    (hnew : mem.Holds cfg (.new cfg firstFit) memory fun _ => SlotKv.empty) {prompt : List Token}
    (hne : prompt ≠ []) {maxNew draftK : Nat} (hmaxNew : 0 < maxNew) (eos : Token)
    (lookupLen : Nat) (hrows : draftK + 1 ≤ cfg.mMax)
    (hroom : prompt.length + maxNew ≤ cfg.maxSeq) :
    ∃ forwards dec', (BatchedDecoder.new cfg firstFit memory).generatePld dev prompt maxNew eos
      lookupLen draftK = .ok ((greedyAlone next prompt eos maxNew, forwards), dec') := by
  have hpos : 0 < cfg.mMax := by omega
  obtain ⟨dec, hprefill, hholds⟩ :=
    prefillSlot_new hreads hnew hpos hroom hne (Nat.le_add_right _ _)
  have hcfg : draftK + 1 ≤ (BatchedDecoder.new cfg firstFit memory).cfg.mMax := hrows
  rw [BatchedDecoder.generatePld, if_pos hcfg, hprefill]
  rcases (lawful_pldForwards hreads hpos).pldRun lookupLen draftK le_rfl hmaxNew hholds
    eos with hok | ⟨-, hover⟩
  · exact hok
  · have hle := hover.le
    omega

end Zllm.Gpu
