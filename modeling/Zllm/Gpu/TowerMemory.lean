import Zllm.Gpu.KvContent
import Zllm.Gpu.PagedRefinement

/-!
# What the tower's decoder holds and answers

A cell of the pool holds the keys and values that its position has in the model's tower over the
tokens of its own sequence, whatever was batched with it, as long as the prefixes hashed so far do
not collide. So every row of a forward is answered with the logits behind its own prefix. Only the
layers that there are count: the memory is looked at through the map that forgets the others.
-/

namespace Zllm.Gpu

/-! ### Memories seen through a map -/

section Comap

variable {M M' B B' L : Type}

/-- A map of memories and of saved blocks that every operation of the devices keeps. -/
structure Device.Hom (dev : Device M B L) (dev' : Device M' B' L) where
  memory : M → M'
  saved : B → B'
  forwardRow : ∀ cfg blocks mem row,
    dev'.forwardRow cfg blocks (memory mem) row =
      (memory (dev.forwardRow cfg blocks mem row).1, (dev.forwardRow cfg blocks mem row).2)
  copyOut : ∀ cfg mem slot phys nPositions,
    dev'.copyOut cfg (memory mem) slot phys nPositions =
      saved (dev.copyOut cfg mem slot phys nPositions)
  copyIn : ∀ cfg blocks mem slot phys data,
    dev'.copyIn cfg blocks (memory mem) slot phys (saved data) =
      memory (dev.copyIn cfg blocks mem slot phys data)
  adopt : ∀ mem slot prompt cachedLen,
    dev'.adopt (memory mem) slot prompt cachedLen = memory (dev.adopt mem slot prompt cachedLen)
  publish : ∀ mem prompt, dev'.publish (memory mem) prompt = memory (dev.publish mem prompt)

/-- What the image of a memory holds. -/
def KvMemory.comap {dev : Device M B L} {dev' : Device M' B' L} (hom : dev.Hom dev')
    (mem : KvMemory dev') : KvMemory dev where
  Reads := mem.Reads
  Holds := fun cfg blocks memory kv => mem.Holds cfg blocks (hom.memory memory) kv
  Saved := fun cfg host tokens => mem.Saved cfg ⟨host.nPos, host.nb, hom.saved host.data⟩ tokens
  holds_truncate := mem.holds_truncate
  holds_extends := mem.holds_extends
  holds_row := by
    intro cfg blocks memory kv row hres hholds hpos hlt hblock
    have hrow := mem.holds_row hres hholds hpos hlt hblock
    rwa [hom.forwardRow] at hrow
  holds_freeSlot := mem.holds_freeSlot
  holds_adopt := by
    intro cfg blocks blocks' memory kv slot prompt cached hres hholds hledger hempty hlen hreuse
    have hadopt := mem.holds_adopt hres hholds hledger hempty hlen hreuse
    rwa [hom.adopt] at hadopt
  holds_register := by
    intro cfg blocks blocks' memory kv slot prompt cached sealed hres hholds hledger htokens hregs
    rw [← hom.publish]
    exact mem.holds_register hres hholds hledger htokens hregs
  saved_copyOut := by
    intro cfg blocks memory kv slot nPos hres hholds hle
    have hsaved := mem.saved_copyOut hres hholds hle
    rwa [hom.copyOut] at hsaved
  holds_copyIn := by
    intro cfg blocks memory kv slot tokens host hres hholds hsaved hempty hnPos hnb hle
    have hcopy := mem.holds_copyIn hres hholds hsaved hempty hnPos hnb hle
    rwa [hom.copyIn] at hcopy

end Comap

namespace PagedForward

open Function (update update_self update_of_ne)
open Tile Loader SingleStream Llama CausalTower Outcome

variable {gpu : GpuModel} {cfg : PoolConfig} {blocks : BlockState}

/-! ### The layers' own entries -/

/-- The keys and values of a position in the layers that there are. -/
abbrev Held (gpu : GpuModel) := Fin gpu.layers.length → (ℕ → ℝ) × (ℕ → ℝ)

def Entries.held (gpu : GpuModel) (entries : Entries) : Held gpu := fun l => entries l

def Held.entries (held : Held gpu) : Entries := fun l =>
  if hl : l < gpu.layers.length then held ⟨l, hl⟩ else 0

/-- `towerKernels` over a pool that holds nothing else. -/
noncomputable def heldKernels (gpu : GpuModel) : PagedKernels (Held gpu) (ℕ → ℝ) where
  forwardRow := fun cfg blocks pool row =>
    let out := (towerKernels gpu).forwardRow cfg blocks (fun b o => (pool b o).entries) row
    (out.1.held gpu, out.2)
  argmax := (towerKernels gpu).argmax
  gumbel := (towerKernels gpu).gumbel
  sampleTopk := (towerKernels gpu).sampleTopk

theorem held_entries (entries : Entries) {l : ℕ} (hl : l < gpu.layers.length) :
    (entries.held gpu).entries l = entries l :=
  dif_pos hl

theorem forwardRow_held (pool : Pool Entries) (row : Row) :
    (heldKernels gpu).forwardRow cfg blocks (fun b o => (pool b o).held gpu) row =
      ((((towerKernels gpu).forwardRow cfg blocks pool row).1).held gpu,
        ((towerKernels gpu).forwardRow cfg blocks pool row).2) := by
  set held := fun l t => pool (tableBlock cfg blocks row.slot t) (t % cfg.blockSize) l
  set held' := fun l t =>
    ((pool (tableBlock cfg blocks row.slot t) (t % cfg.blockSize)).held gpu).entries l
  have hsame : ∀ l < gpu.layers.length, ∀ i < row.pos, held' l i = held l i :=
    fun l hl i _ => held_entries _ hl
  obtain ⟨hentries, hout⟩ := tokenPass_congr (tower gpu) (embedding gpu row.tok) hsame
  exact Prod.ext (funext fun l => hentries l l.isLt row.pos (Nat.lt_succ_self _))
    (congrArg (headLogits gpu) hout)

def heldPool (gpu : GpuModel) (mem : PagedMemory Entries) : PagedMemory (Held gpu) where
  pool := fun b o => (mem.pool b o).held gpu
  writes := mem.writes
  hashed := mem.hashed

def heldBlocks (gpu : GpuModel) (saved : SavedBlocks Entries) : SavedBlocks (Held gpu) where
  rows := saved.rows.map fun block o => (block o).held gpu
  hashed := saved.hashed

theorem writeBlocks_held (pool : Pool Entries) (phys : List ℕ) (rows : List (ℕ → Entries)) :
    writeBlocks (fun b o => (pool b o).held gpu) phys (rows.map fun block o => (block o).held gpu) =
      fun b o => (writeBlocks pool phys rows b o).held gpu := by
  induction phys generalizing pool rows with
  | nil => rfl
  | cons b phys ih =>
    cases rows with
    | nil => rfl
    | cons block rows =>
      rw [List.map_cons, writeBlocks, writeBlocks, ← ih]
      congr 1
      funext b'
      by_cases hb : b' = b
      · rw [hb, update_self, update_self]
      · rw [update_of_ne hb, update_of_ne hb]

/-- Nothing of a pool but the layers' entries matters. -/
def heldHom (gpu : GpuModel) : (towerKernels gpu).device.Hom (heldKernels gpu).device where
  memory := heldPool gpu
  saved := heldBlocks gpu
  forwardRow := by
    intro cfg blocks mem row
    simp only [PagedKernels.device, heldPool, forwardRow_held]
    refine Prod.ext ?_ rfl
    simp only [PagedMemory.mk.injEq, and_self, and_true]
    funext b o
    by_cases hb : b = tableBlock cfg blocks row.slot row.pos
    · subst hb
      rw [update_self, update_self]
      by_cases ho : o = row.pos % cfg.blockSize
      · rw [ho, update_self, update_self]
      · rw [update_of_ne ho, update_of_ne ho]
    · rw [update_of_ne hb, update_of_ne hb]
  copyOut := by
    intro cfg mem slot phys nPositions
    simp [PagedKernels.device, heldPool, heldBlocks, Function.comp_def]
  copyIn := by
    intro cfg blocks mem slot phys data
    simp only [PagedKernels.device, heldPool, heldBlocks, writeBlocks_held]
  adopt := fun _ _ _ _ => rfl
  publish := fun _ _ => rfl

/-! ### What a stream leaves and answers -/

noncomputable def streamRows (gpu : GpuModel) (tokens : List Token) (i : ℕ) : ℕ → ℝ :=
  embedding gpu (tokens.getD i 0)

/-- The entries of the last of some tokens. -/
noncomputable def entryOf (gpu : GpuModel) (tokens : List Token) : Held gpu := fun l =>
  traceEntry (tower gpu) 0 0 (streamRows gpu tokens) l (tokens.length - 1)

/-- The logits behind some tokens. -/
noncomputable def logitsOf (gpu : GpuModel) (tokens : List Token) : ℕ → ℝ :=
  headLogits gpu (trace (tower gpu) 0 0 (streamRows gpu tokens) gpu.layers.length
    (tokens.length - 1))

theorem streamRows_append (tokens rest : List Token) {i : ℕ} (hi : i < tokens.length) :
    streamRows gpu (tokens ++ rest) i = streamRows gpu tokens i :=
  congrArg (embedding gpu) (List.getD_append _ _ _ _ hi)

theorem streamRows_take (tokens : List Token) {n i : ℕ} (hi : i < n) :
    streamRows gpu (tokens.take n) i = streamRows gpu tokens i := by
  refine congrArg (embedding gpu) ?_
  rw [List.getD_eq_getElem?_getD, List.getD_eq_getElem?_getD, List.getElem?_take_of_lt hi]

/-- A row over the entries of the tokens before it. -/
theorem forwardRow_stream {pool : Pool (Held gpu)} {row : Row} {tokens : List Token}
    (hpos : row.pos = tokens.length)
    (hheld : ∀ pos < tokens.length, pool (tableBlock cfg blocks row.slot pos)
      (pos % cfg.blockSize) = entryOf gpu (tokens.take (pos + 1))) :
    (heldKernels gpu).forwardRow cfg blocks pool row =
      (entryOf gpu (tokens ++ [row.tok]), logitsOf gpu (tokens ++ [row.tok])) := by
  set rows := streamRows gpu (tokens ++ [row.tok]) with hrows
  set held := fun l t =>
    (pool (tableBlock cfg blocks row.slot t) (t % cfg.blockSize)).entries l
  have hfollows : Follows (tower gpu) 0 0 rows gpu.layers.length row.pos held := by
    intro l hl i hi
    rw [hpos] at hi
    have hentry : held l i = entryOf gpu (tokens.take (i + 1)) ⟨l, hl⟩ := by
      show (pool _ _).entries l = _
      rw [hheld i hi]
      exact dif_pos hl
    have hlast : (tokens.take (i + 1)).length - 1 = i := by
      rw [List.length_take]
      omega
    rw [hentry, entryOf, hlast]
    refine traceEntry_congr (tower gpu) 0 0 _ (n := i + 1) (fun j hj => ?_) l i (Nat.lt_succ_self i)
    rw [streamRows_take tokens hj, hrows, streamRows_append _ _ (by omega)]
  have hrow : embedding gpu row.tok = rows row.pos := by
    rw [hrows, streamRows, hpos]
    simp
  have hlast : (tokens ++ [row.tok]).length - 1 = row.pos := by
    rw [hpos]
    simp
  obtain ⟨hnext, hout⟩ := tokenPass_follows (Nat.zero_le row.pos) hfollows
  rw [← hrow] at hnext hout
  refine Prod.ext (funext fun l => ?_) ?_
  · have hentry : entryOf gpu (tokens ++ [row.tok]) l =
        traceEntry (tower gpu) 0 0 rows l row.pos := by
      rw [entryOf, hlast]
    exact (hnext l l.isLt row.pos (Nat.lt_succ_self _)).trans hentry.symm
  · have hlogits : logitsOf gpu (tokens ++ [row.tok]) =
        headLogits gpu (trace (tower gpu) 0 0 rows gpu.layers.length row.pos) := by
      rw [logitsOf, hlast]
    exact (congrArg (headLogits gpu) hout).trans hlogits.symm

theorem heldKernels_computes (gpu : GpuModel) : (heldKernels gpu).Computes (entryOf gpu) :=
  fun _ _ _ _ _ hpos hheld => congrArg Prod.fst (forwardRow_stream hpos hheld)

/-- The memory of the tower's decoder. -/
noncomputable def towerMemory (gpu : GpuModel) : KvMemory (towerKernels gpu).device :=
  ((heldKernels gpu).memory (heldKernels_computes gpu)).comap (heldHom gpu)

/-! ### The logits of a forward -/

section Forward

variable {mem : PagedMemory Entries} {dec dec' : BatchedDecoder (PagedMemory Entries)}
  {rows : List Row} {kv : ℕ → SlotKv} {logits : List (ℕ → ℝ)}

theorem forwardRow_logits {row : Row} (hres : Resident cfg blocks kv)
    (hholds : (towerMemory gpu).Holds cfg blocks mem kv) (hfree : CollisionFree cfg mem.hashed)
    (hpos : row.pos = (kv row.slot).tokens.length) :
    ((towerKernels gpu).device.forwardRow cfg blocks mem row).2 =
      logitsOf gpu ((kv row.slot).tokens ++ [row.tok]) := by
  have hcontents : Contents (entryOf gpu) cfg blocks (heldPool gpu mem) kv := hholds.2 hfree
  have hrow : (heldKernels gpu).forwardRow cfg blocks (heldPool gpu mem).pool row = _ :=
    forwardRow_stream hpos fun pos hlt => (hcontents.rows row.slot pos hlt).table hres.ledger
  exact congrArg Prod.snd ((forwardRow_held mem.pool row).symm.trans hrow)

theorem recordLayers_logits (hpos : ∀ row ∈ rows, row.pos < cfg.maxSeq)
    (hbacked : ∀ row ∈ rows, row.pos / cfg.blockSize < (blocks.slotBlocks row.slot).length)
    (hstep : InStep cfg rows kv) (hres : Resident cfg blocks kv)
    (hholds : (towerMemory gpu).Holds cfg blocks mem kv) (hfree : CollisionFree cfg mem.hashed) :
    (BatchedDecoder.recordLayers (towerKernels gpu).device cfg blocks rows mem).2 =
      (ownPrefixes rows kv).map (logitsOf gpu) := by
  induction rows generalizing kv mem with
  | nil => rfl
  | cons row rows ih =>
    simp only [List.mem_cons, forall_eq_or_imp] at hpos hbacked
    obtain ⟨-, hnext, hrest⟩ := hstep
    obtain ⟨hrow, -⟩ := (towerMemory gpu).holds_row hres hholds hnext hpos.1 hbacked.1
    have hlogits := forwardRow_logits hres hholds hfree hnext
    have hothers := ih hpos.2 hbacked.2 hrest (hres.appendRow hnext hpos.1 hbacked.1) hrow hfree
    exact congrArg₂ List.cons hlogits hothers

/-- A forward answers each row with the logits of its own prefix. -/
theorem forwardLogits_own (hrep : Represents (towerMemory gpu) dec kv)
    (hfree : CollisionFree dec.cfg dec.mem.hashed) (hstep : InStep dec.cfg rows kv)
    (hok : dec.forwardLogits (towerKernels gpu).device rows = .ok (logits, dec')) :
    logits = (ownPrefixes rows kv).map (logitsOf gpu) := by
  unfold BatchedDecoder.forwardLogits at hok
  obtain ⟨u, hinputs, hok⟩ := bind_eq_ok.mp hok
  obtain ⟨blocks, hpaging, hok⟩ := bind_eq_ok.mp hok
  have hpos := writeInputs_eq_ok hinputs
  obtain ⟨hres, hholds, hbacked, -, -⟩ :=
    preparePaging_spec hstep.slot_lt hpos hrep.resident hrep.holds hpaging
  simp only [pure_eq_ok, Prod.mk.injEq] at hok
  obtain ⟨rfl, -⟩ := hok
  exact recordLayers_logits hpos hbacked hstep hres hholds hfree

end Forward

end PagedForward

end Zllm.Gpu
