import Zllm.Gpu.Residency

/-!
# What each decoder method does to the view

A successful call of a decoder method turns a decoder that represents one view into one that
represents the next, leaves the blocks of every other slot alone, and selects its tokens from logits
of the fed sequence's own prefix.
-/

namespace Zllm.Gpu

open Function (update update_of_ne update_self)
open BlockState Outcome

variable {M B L : Type} {dev : Device M B L} {mem : KvMemory dev} {cfg : PoolConfig}
  {blocks blocks' : BlockState} {dec dec' : BatchedDecoder M} {kv : Nat → SlotKv} {slot : Nat}
  {rows : List Row}

/-- `dec` represents the view `kv`. -/
structure Represents (mem : KvMemory dev) (dec : BatchedDecoder M) (kv : Nat → SlotKv) : Prop where
  resident : Resident dec.cfg dec.blocks kv
  holds : mem.Holds dec.cfg dec.blocks dec.mem kv

/-- `dec'` has the sizes of `dec`, and the same blocks in every slot outside `slots`. -/
structure Frames (slots : List Nat) (dec dec' : BatchedDecoder M) : Prop where
  cfg_eq : dec'.cfg = dec.cfg
  slotBlocks_eq : ∀ slot, slot ∉ slots → dec'.blocks.slotBlocks slot = dec.blocks.slotBlocks slot

theorem Frames.trans {slots : List Nat} {dec'' : BatchedDecoder M} (hfirst : Frames slots dec dec')
    (hsecond : Frames slots dec' dec'') : Frames slots dec dec'' :=
  ⟨hsecond.cfg_eq.trans hfirst.cfg_eq, fun other hother =>
    (hsecond.slotBlocks_eq other hother).trans (hfirst.slotBlocks_eq other hother)⟩

theorem Represents.truncate {kv' : Nat → SlotKv} (hrep : Represents mem dec kv)
    (hinitial : ∀ slot, (kv' slot).tokens <+: (kv slot).tokens)
    (hsealed : ∀ slot, (kv' slot).sealed = (kv slot).sealed)
    (hle : ∀ slot, (kv' slot).sealed ≤ (kv' slot).tokens.length) : Represents mem dec kv' :=
  ⟨hrep.resident.truncate hinitial hsealed hle, mem.holds_truncate hrep.holds hinitial⟩

/-! ### The forward -/

theorem writeInputs_eq_ok (hok : BatchedDecoder.writeInputs cfg rows = .ok ()) :
    ∀ row ∈ rows, row.pos < cfg.maxSeq := by
  unfold BatchedDecoder.writeInputs at hok
  split at hok
  case isTrue hall => simpa using hall
  case isFalse => cases hok

theorem preparePaging_spec {memory : M} (hslots : ∀ row ∈ rows, row.slot < cfg.mMax)
    (hpos : ∀ row ∈ rows, row.pos < cfg.maxSeq) (hres : Resident cfg blocks kv)
    (hholds : mem.Holds cfg blocks memory kv)
    (hok : BatchedDecoder.preparePaging cfg rows blocks = .ok blocks') :
    Resident cfg blocks' kv ∧ mem.Holds cfg blocks' memory kv ∧
      (∀ row ∈ rows, row.pos / cfg.blockSize < (blocks'.slotBlocks row.slot).length) ∧
      (∀ slot, (blocks.slotBlocks slot).length ≤ (blocks'.slotBlocks slot).length) ∧
      (∀ slot, slot ∉ rows.map Row.slot → blocks'.slotBlocks slot = blocks.slotBlocks slot) := by
  induction rows generalizing blocks with
  | nil =>
      obtain rfl : blocks = blocks' := by simpa [BatchedDecoder.preparePaging] using hok
      exact ⟨hres, hholds, by simp, fun _ => le_rfl, fun _ _ => rfl⟩
  | cons row rows ih =>
      simp only [List.mem_cons, forall_eq_or_imp] at hslots hpos
      simp only [BatchedDecoder.preparePaging] at hok
      obtain ⟨hledger, hext⟩ :=
        ensureBlocks_ledger (n := row.pos + 1) hres.ledger hslots.1 (by omega)
      have hlength : (blocks.ensureBlocks cfg row.slot (row.pos + 1)).1 = true →
          (row.pos + 1) ⌈/⌉ cfg.blockSize ≤
            ((blocks.ensureBlocks cfg row.slot (row.pos + 1)).2.slotBlocks row.slot).length :=
        ensureBlocks_length
      generalize blocks.ensureBlocks cfg row.slot (row.pos + 1) = grown at *
      obtain ⟨fits, grownBlocks⟩ := grown
      cases fits with
      | false => cases hok
      | true =>
          dsimp only at hledger hext hlength
          obtain ⟨phys, -, hok⟩ := bind_eq_ok.mp hok
          obtain ⟨hres', hholds', hbacked, hmono, hframe⟩ := ih hslots.2 hpos.2
            (hres.extends hledger hext) (mem.holds_extends hres hholds hledger hext) hok
          refine ⟨hres', hholds', ?_, ?_, ?_⟩
          · simp only [List.mem_cons, forall_eq_or_imp]
            refine ⟨?_, hbacked⟩
            have hneed := (hlength rfl).trans (hmono row.slot)
            rw [ceilDiv_le_iff_le_mul cfg.blockSize_pos] at hneed
            rw [Nat.div_lt_iff_lt_mul cfg.blockSize_pos, Nat.mul_comm]
            omega
          · intro slot
            refine le_trans ?_ (hmono slot)
            by_cases heq : slot = row.slot
            · obtain ⟨new, hnew, -⟩ := hext.fresh
              simp [heq, hnew]
            · rw [hext.others slot heq]
          · intro slot hslot
            simp only [List.map_cons, List.mem_cons, not_or] at hslot
            rw [hframe slot hslot.2, hext.others slot hslot.1]

theorem recordLayers_spec {memory : M} (hpos : ∀ row ∈ rows, row.pos < cfg.maxSeq)
    (hbacked : ∀ row ∈ rows, row.pos / cfg.blockSize < (blocks.slotBlocks row.slot).length)
    (hstep : InStep cfg rows kv) (hres : Resident cfg blocks kv)
    (hholds : mem.Holds cfg blocks memory kv) :
    Resident cfg blocks (appendRows kv rows) ∧
      mem.Holds cfg blocks (BatchedDecoder.recordLayers dev cfg blocks rows memory).1
        (appendRows kv rows) ∧
      List.Forall₂ mem.Reads (ownPrefixes rows kv)
        (BatchedDecoder.recordLayers dev cfg blocks rows memory).2 := by
  induction rows generalizing kv memory with
  | nil => exact ⟨hres, hholds, List.Forall₂.nil⟩
  | cons row rows ih =>
      simp only [List.mem_cons, forall_eq_or_imp] at hpos hbacked
      obtain ⟨-, hnext, hrest⟩ := hstep
      obtain ⟨hrow, hreads⟩ := mem.holds_row hres hholds hnext hpos.1 hbacked.1
      obtain ⟨hres', hholds', hall⟩ := ih hpos.2 hbacked.2 hrest
        (hres.appendRow hnext hpos.1 hbacked.1) hrow
      exact ⟨hres', hholds', List.Forall₂.cons hreads hall⟩

theorem InStep.slot_lt (hstep : InStep cfg rows kv) : ∀ row ∈ rows, row.slot < cfg.mMax := by
  induction rows generalizing kv with
  | nil => simp
  | cons row rows ih =>
      obtain ⟨hslot, -, hrest⟩ := hstep
      simpa [hslot] using ih hrest

theorem forwardLogits_spec {logits : List L} (hrep : Represents mem dec kv)
    (hstep : InStep dec.cfg rows kv) (hok : dec.forwardLogits dev rows = .ok (logits, dec')) :
    Represents mem dec' (appendRows kv rows) ∧
      List.Forall₂ mem.Reads (ownPrefixes rows kv) logits ∧
      Frames (rows.map Row.slot) dec dec' := by
  unfold BatchedDecoder.forwardLogits at hok
  obtain ⟨u, hinputs, hok⟩ := bind_eq_ok.mp hok
  obtain ⟨blocks, hpaging, hok⟩ := bind_eq_ok.mp hok
  have hpos := writeInputs_eq_ok hinputs
  obtain ⟨hres, hholds, hbacked, -, hframe⟩ :=
    preparePaging_spec hstep.slot_lt hpos hrep.resident hrep.holds hpaging
  obtain ⟨hres', hholds', hall⟩ := recordLayers_spec hpos hbacked hstep hres hholds
  simp only [pure_eq_ok, Prod.mk.injEq] at hok
  obtain ⟨rfl, rfl⟩ := hok
  exact ⟨⟨hres', hholds'⟩, hall, rfl, hframe⟩

/-! ### Rows of one slot -/

/-- `tokens` at consecutive positions of `slot` from `start`. -/
def slotRows (slot start : Nat) (tokens : List Token) : List Row :=
  tokens.mapIdx fun i tok => { tok, pos := start + i, slot }

theorem slotRows_cons (start : Nat) (tok : Token) (tokens : List Token) :
    slotRows slot start (tok :: tokens) =
      { tok, pos := start, slot } :: slotRows slot (start + 1) tokens := by
  simp [slotRows, List.mapIdx_cons, Nat.add_assoc, Nat.add_comm 1]

theorem slot_of_mem_slotRows {start : Nat} {tokens : List Token} {row : Row}
    (hrow : row ∈ slotRows slot start tokens) : row.slot = slot := by
  obtain ⟨i, hi, rfl⟩ := List.mem_mapIdx.mp hrow
  rfl

theorem inStep_slotRows (hslot : slot < cfg.mMax) :
    ∀ (tokens : List Token) (kv : Nat → SlotKv),
      InStep cfg (slotRows slot (kv slot).tokens.length tokens) kv
  | [], _ => trivial
  | tok :: tokens, kv => by
      rw [slotRows_cons]
      refine ⟨hslot, rfl, ?_⟩
      have := inStep_slotRows hslot tokens (appendRow kv ⟨tok, (kv slot).tokens.length, slot⟩)
      simpa [appendRow] using this

theorem appendRows_slotRows (slot start : Nat) (tokens : List Token) (kv : Nat → SlotKv) :
    appendRows kv (slotRows slot start tokens) =
      update kv slot ⟨(kv slot).tokens ++ tokens, (kv slot).sealed⟩ := by
  induction tokens generalizing kv start with
  | nil => simp [appendRows, slotRows]
  | cons tok tokens ih =>
      rw [slotRows_cons]
      change appendRows (appendRow kv _) (slotRows slot (start + 1) tokens) = _
      rw [ih]
      simp [appendRow]

theorem ownPrefixes_slotRows (slot start : Nat) (tokens : List Token) (kv : Nat → SlotKv) :
    ownPrefixes (slotRows slot start tokens) kv =
      (List.range tokens.length).map fun i => (kv slot).tokens ++ tokens.take (i + 1) := by
  induction tokens generalizing kv start with
  | nil => simp [slotRows, ownPrefixes]
  | cons tok tokens ih =>
      rw [slotRows_cons]
      simp only [ownPrefixes, ih, List.length_cons, List.range_succ_eq_map, List.map_cons,
        List.map_map]
      simp [appendRow, Function.comp_def]

/-! ### Rows of several slots -/

theorem appendRows_append (first second : List Row) (kv : Nat → SlotKv) :
    appendRows kv (first ++ second) = appendRows (appendRows kv first) second :=
  List.foldl_append

theorem InStep.append {first second : List Row} (hfirst : InStep cfg first kv)
    (hsecond : InStep cfg second (appendRows kv first)) : InStep cfg (first ++ second) kv := by
  induction first generalizing kv with
  | nil => exact hsecond
  | cons row rows ih =>
      obtain ⟨hslot, hpos, hrest⟩ := hfirst
      exact ⟨hslot, hpos, ih hrest hsecond⟩

theorem ownPrefixes_append (first second : List Row) (kv : Nat → SlotKv) :
    ownPrefixes (first ++ second) kv =
      ownPrefixes first kv ++ ownPrefixes second (appendRows kv first) := by
  induction first generalizing kv with
  | nil => rfl
  | cons row rows ih =>
      simp only [List.cons_append, ownPrefixes, ih]
      rfl

/-- The tokens each slot is fed in one batch. -/
abbrev Feed := List (Nat × List Token)

def feedRows (kv : Nat → SlotKv) (feed : Feed) : List Row :=
  feed.flatMap fun seg => slotRows seg.1 (kv seg.1).tokens.length seg.2

theorem feedRows_congr {kv' : Nat → SlotKv} {feed : Feed}
    (hsame : ∀ seg ∈ feed, kv' seg.1 = kv seg.1) : feedRows kv' feed = feedRows kv feed := by
  unfold feedRows
  induction feed with
  | nil => rfl
  | cons seg feed ih =>
      simp only [List.mem_cons, forall_eq_or_imp] at hsame
      simp only [List.flatMap_cons, hsame.1, ih hsame.2]

/-- Distinct slots are fed independently: each row continues its own slot, and afterwards each slot
holds what it held and what it was fed. -/
theorem feedRows_spec (kv : Nat → SlotKv) {feed : Feed} (hslots : ∀ seg ∈ feed, seg.1 < cfg.mMax)
    (hnodup : (feed.map Prod.fst).Nodup) :
    InStep cfg (feedRows kv feed) kv ∧
      (∀ seg ∈ feed, appendRows kv (feedRows kv feed) seg.1 =
        ⟨(kv seg.1).tokens ++ seg.2, (kv seg.1).sealed⟩) ∧
      (∀ slot, slot ∉ feed.map Prod.fst → appendRows kv (feedRows kv feed) slot = kv slot) ∧
      ownPrefixes (feedRows kv feed) kv = feed.flatMap fun seg =>
        (List.range seg.2.length).map fun i => (kv seg.1).tokens ++ seg.2.take (i + 1) := by
  induction feed generalizing kv with
  | nil => exact ⟨trivial, by simp, fun _ _ => rfl, rfl⟩
  | cons seg feed ih =>
      obtain ⟨slot, tokens⟩ := seg
      simp only [List.mem_cons, forall_eq_or_imp] at hslots
      simp only [List.map_cons, List.nodup_cons] at hnodup
      have hne : ∀ other ∈ feed, other.1 ≠ slot := fun other hother heq =>
        hnodup.1 (heq ▸ List.mem_map_of_mem hother)
      have hrows : feedRows kv ((slot, tokens) :: feed) =
          slotRows slot (kv slot).tokens.length tokens ++ feedRows kv feed := rfl
      have hfed := appendRows_slotRows slot (kv slot).tokens.length tokens kv
      set kv₁ := update kv slot ⟨(kv slot).tokens ++ tokens, (kv slot).sealed⟩ with hkv₁
      have hsame : ∀ other ∈ feed, kv₁ other.1 = kv other.1 := fun other hother =>
        update_of_ne (hne other hother) _ _
      obtain ⟨hstep, hhit, hmiss, hown⟩ := ih kv₁ hslots.2 hnodup.2
      rw [feedRows_congr hsame] at hstep hhit hmiss hown
      rw [hrows, appendRows_append, ownPrefixes_append, hfed]
      refine ⟨(inStep_slotRows hslots.1 tokens kv).append (hfed ▸ hstep), ?_, ?_, ?_⟩
      · simp only [List.mem_cons, forall_eq_or_imp]
        refine ⟨by rw [hmiss slot hnodup.1, hkv₁, update_self], fun other hother => ?_⟩
        rw [hhit other hother, hsame other hother]
      · intro other hother
        simp only [List.map_cons, List.mem_cons, not_or] at hother
        rw [hmiss other hother.2, hkv₁, update_of_ne hother.1]
      · rw [hown, ownPrefixes_slotRows, List.flatMap_cons]
        congr 1
        simp only [List.flatMap_def]
        congr 1
        exact List.map_congr_left fun other hother => by rw [hsame other hother]

end Zllm.Gpu
