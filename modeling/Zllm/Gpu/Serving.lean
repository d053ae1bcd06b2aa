import Zllm.Gpu.Batcher
import Zllm.Gpu.PrefillContract
import Zllm.Lib.TokenService
import Mathlib.Data.Multiset.Range
import Mathlib.Tactic.Abel

/-!
# The batcher's invariant

Every slot is free, owned by one active or prefilling sequence, or *in hand* while an operation
moves it; a sequence's slot holds the KV of the tokens it has fed, a free slot owns no block, and a
swapped-out sequence's host copy holds what its slot did. An operation takes the slot of a sequence,
works on it, and puts it back.
-/

namespace Zllm.Gpu

open Function (update update_of_ne update_self)
open TokenService (Job)

/-! ### Requests being served -/

abbrev RequestJob := Job Request Token

/-- A request is addressed by its id and ends at its eos or at `max_tokens`. -/
def requestProtocol : TokenService.Protocol Request Token Nat where
  key := Request.id
  stop := fun req tok => tok == req.eos
  limit := Request.maxTokens

/-- The selections a token can come from. -/
inductive Kernel where
  | argmax
  | gumbel
  | topk
  deriving DecidableEq

variable {M B L : Type}

def Kernel.select (dev : Device M B L) (job : RequestJob) (logits : L) : Kernel → Token
  | argmax => dev.argmax logits
  | gumbel => dev.gumbel logits job.req.params.temp (stepSeed job.req.seed job.produced.length)
  | topk => dev.sampleTopk logits job.req.params (stepSeed job.req.seed job.produced.length)

def CbSeq.job (s : CbSeq) : RequestJob where
  req := {
    id := s.id, prompt := s.tokens.take s.promptLen, maxTokens := s.maxTokens, eos := s.eos
    params := s.params, seed := s.baseSeed }
  produced := s.tokens.drop s.promptLen

def PreemptedSeq.job (p : PreemptedSeq B) : RequestJob where
  req := {
    id := p.id, prompt := p.tokens.take p.promptLen, maxTokens := p.maxTokens, eos := p.eos
    params := p.params, seed := p.baseSeed }
  produced := p.tokens.drop p.promptLen

def PrefillingSeq.job (pf : PrefillingSeq) : RequestJob where
  req := {
    id := pf.id, prompt := pf.prompt.take pf.promptLen, maxTokens := pf.maxTokens, eos := pf.eos
    params := pf.params, seed := pf.baseSeed }
  produced := pf.prompt.drop pf.promptLen

/-- The tokens a request's next token depends on. -/
def history (job : RequestJob) : List Token := job.req.prompt ++ job.produced

@[simp]
theorem CbSeq.history_job (s : CbSeq) : history s.job = s.tokens :=
  List.take_append_drop _ _

@[simp]
theorem PreemptedSeq.history_job (p : PreemptedSeq B) : history p.job = p.tokens :=
  List.take_append_drop _ _

@[simp]
theorem PrefillingSeq.history_job (pf : PrefillingSeq) : history pf.job = pf.prompt :=
  List.take_append_drop _ _

theorem CbSeq.job_push {s : CbSeq} (hlen : s.promptLen ≤ s.tokens.length) (tok : Token) :
    (s.push tok).job = s.job.push tok := by
  simp [CbSeq.job, CbSeq.push, Job.push, List.take_append_of_le_length hlen,
    List.drop_append_of_le_length hlen]

theorem CbSeq.done_push {s : CbSeq} (hlen : s.promptLen ≤ s.tokens.length) (tok : Token) :
    (s.push tok).done = requestProtocol.completes s.job tok := by
  have hcount : s.tokens.length + 1 - s.promptLen = s.tokens.length - s.promptLen + 1 := by omega
  simp [CbSeq.done, CbSeq.push, CbSeq.next, CbSeq.genIndex, TokenService.Protocol.completes,
    requestProtocol, CbSeq.job, hcount]

namespace ContinuousBatcher

def board (cb : ContinuousBatcher M B) : TokenService.Board Request Token :=
  ↑(cb.active.map CbSeq.job) + ↑(cb.prefilling.map PrefillingSeq.job) +
    ↑(cb.preempted.map PreemptedSeq.job)

/-- The ids of the live requests. -/
def ids (cb : ContinuousBatcher M B) : List Nat :=
  cb.active.map CbSeq.id ++ cb.prefilling.map PrefillingSeq.id ++ cb.preempted.map PreemptedSeq.id

/-- The slots of the free stack and of the sequences that own one. -/
def slots (cb : ContinuousBatcher M B) : Multiset Nat :=
  ↑cb.free + ↑(cb.active.map CbSeq.slot) + ↑(cb.prefilling.map PrefillingSeq.slot)

variable {cb : ContinuousBatcher M B}

theorem jobKey_board : cb.board.map requestProtocol.jobKey = ↑cb.ids := by
  simp only [board, ids, Multiset.map_add, Multiset.map_coe, List.map_map, ← Multiset.coe_add]
  rfl

theorem ne_of_notMem_ids {req : Request} (hfresh : req.id ∉ cb.ids) :
    ∀ job ∈ cb.board, requestProtocol.jobKey job ≠ requestProtocol.key req := by
  intro job hjob heq
  refine hfresh ?_
  rw [← Multiset.mem_coe, ← jobKey_board]
  exact Multiset.mem_map.mpr ⟨job, hjob, heq⟩

theorem board_active {s : CbSeq} {rest : List CbSeq} (hperm : cb.active.Perm (s :: rest)) :
    cb.board = s.job ::ₘ { cb with active := rest }.board := by
  unfold board
  rw [Multiset.coe_eq_coe.mpr (hperm.map CbSeq.job)]
  simp [← Multiset.cons_coe]

theorem board_concat (cb : ContinuousBatcher M B) (s : CbSeq) :
    { cb with active := cb.active ++ [s] }.board = s.job ::ₘ cb.board :=
  board_active (List.perm_append_singleton _ _)

theorem board_prefilling {pf : PrefillingSeq} {rest : List PrefillingSeq}
    (hperm : cb.prefilling.Perm (pf :: rest)) :
    cb.board = pf.job ::ₘ { cb with prefilling := rest }.board := by
  unfold board
  rw [Multiset.coe_eq_coe.mpr (hperm.map PrefillingSeq.job)]
  simp [← Multiset.cons_coe]

theorem board_concat_prefilling (cb : ContinuousBatcher M B) (pf : PrefillingSeq) :
    { cb with prefilling := cb.prefilling ++ [pf] }.board = pf.job ::ₘ cb.board :=
  board_prefilling (List.perm_append_singleton _ _)

theorem board_preempted {p : PreemptedSeq B} {rest : List (PreemptedSeq B)}
    (hperm : cb.preempted.Perm (p :: rest)) :
    cb.board = p.job ::ₘ { cb with preempted := rest }.board := by
  unfold board
  rw [Multiset.coe_eq_coe.mpr (hperm.map PreemptedSeq.job)]
  simp [← Multiset.cons_coe]

end ContinuousBatcher

/-! ### The invariant -/

/-- An active sequence has fed all but its last token. -/
structure CbSeq.Held (kv : Nat → SlotKv) (s : CbSeq) : Prop where
  produced : s.promptLen < s.tokens.length
  fed : (kv s.slot).tokens = s.tokens.dropLast

structure PrefillingSeq.Held (cfg : PoolConfig) (kv : Nat → SlotKv) (pf : PrefillingSeq) :
    Prop where
  promptLen_eq : pf.promptLen = pf.prompt.length
  unfinished : pf.prefillPos < pf.prompt.length
  fed : kv pf.slot = ⟨pf.prompt.take pf.prefillPos, pf.cachedBlocks * cfg.blockSize⟩

/-- A preempted sequence is complete on the host, or is prefilled again from its tokens. -/
structure PreemptedSeq.Kept {dev : Device M B L} (mem : KvMemory dev) (cfg : PoolConfig)
    (p : PreemptedSeq B) : Prop where
  promptLen_le : p.promptLen ≤ p.tokens.length
  saved : ∀ host, p.kv = some host → p.promptLen < p.tokens.length ∧
    p.tokens.length ≤ cfg.maxSeq + 1 ∧ host.nPos = p.tokens.length - 1 ∧
    host.nb = host.nPos ⌈/⌉ cfg.blockSize ∧ mem.Saved cfg host p.tokens.dropLast

structure Serving {dev : Device M B L} (mem : KvMemory dev) (hand : Multiset Nat)
    (cb : ContinuousBatcher M B) (kv : Nat → SlotKv) : Prop where
  represents : Represents mem cb.dec kv
  slots : hand + cb.slots = Multiset.range cb.dec.cfg.mMax
  idle : ∀ slot ∈ cb.free, cb.dec.blocks.slotBlocks slot = [] ∧ kv slot = SlotKv.empty
  active : ∀ s ∈ cb.active, s.Held kv
  prefilling : ∀ pf ∈ cb.prefilling, pf.Held cb.dec.cfg kv
  preempted : ∀ p ∈ cb.preempted, p.Kept mem cb.dec.cfg

section

variable {dev : Device M B L} {mem : KvMemory dev} {hand : Multiset Nat}
  {cb : ContinuousBatcher M B} {kv : Nat → SlotKv} {slot : Nat}

theorem Serving.takeActive {s : CbSeq} {rest : List CbSeq} (h : Serving mem hand cb kv)
    (hperm : cb.active.Perm (s :: rest)) :
    Serving mem (s.slot ::ₘ hand) { cb with active := rest } kv where
  represents := h.represents
  slots := by
    rw [← h.slots]
    unfold ContinuousBatcher.slots
    rw [Multiset.coe_eq_coe.mpr (hperm.map CbSeq.slot), List.map_cons, ← Multiset.cons_coe]
    simp only [← Multiset.singleton_add]
    abel
  idle := h.idle
  active := fun other hother => h.active other (hperm.mem_iff.mpr (List.mem_cons_of_mem _ hother))
  prefilling := h.prefilling
  preempted := h.preempted

theorem Serving.takePrefilling {pf : PrefillingSeq} {rest : List PrefillingSeq}
    (h : Serving mem hand cb kv) (hperm : cb.prefilling.Perm (pf :: rest)) :
    Serving mem (pf.slot ::ₘ hand) { cb with prefilling := rest } kv where
  represents := h.represents
  slots := by
    rw [← h.slots]
    unfold ContinuousBatcher.slots
    rw [Multiset.coe_eq_coe.mpr (hperm.map PrefillingSeq.slot), List.map_cons,
      ← Multiset.cons_coe]
    simp only [← Multiset.singleton_add]
    abel
  idle := h.idle
  active := h.active
  prefilling := fun other hother =>
    h.prefilling other (hperm.mem_iff.mpr (List.mem_cons_of_mem _ hother))
  preempted := h.preempted

theorem Serving.takeFree {free : List Nat} (h : Serving mem hand cb kv)
    (hfree : cb.free = slot :: free) : Serving mem (slot ::ₘ hand) { cb with free } kv where
  represents := h.represents
  slots := by
    rw [← h.slots]
    unfold ContinuousBatcher.slots
    rw [hfree, ← Multiset.cons_coe]
    simp only [← Multiset.singleton_add]
    abel
  idle := fun other hother => h.idle other (by simp [hfree, hother])
  active := h.active
  prefilling := h.prefilling
  preempted := h.preempted

theorem Serving.takePreempted {preempted : List (PreemptedSeq B)} (h : Serving mem hand cb kv)
    (hsub : preempted ⊆ cb.preempted) : Serving mem hand { cb with preempted } kv :=
  { h with preempted := fun p hp => h.preempted p (hsub hp) }

theorem Serving.putActive (s : CbSeq) {active : List CbSeq}
    (h : Serving mem (s.slot ::ₘ hand) cb kv) (hheld : s.Held kv)
    (hperm : active.Perm (s :: cb.active)) : Serving mem hand { cb with active } kv where
  represents := h.represents
  slots := by
    rw [← h.slots]
    unfold ContinuousBatcher.slots
    rw [Multiset.coe_eq_coe.mpr (hperm.map CbSeq.slot), List.map_cons, ← Multiset.cons_coe]
    simp only [← Multiset.singleton_add]
    abel
  idle := h.idle
  active := fun other hother => by
    obtain rfl | hother := List.mem_cons.mp (hperm.mem_iff.mp hother)
    · exact hheld
    · exact h.active other hother
  prefilling := h.prefilling
  preempted := h.preempted

theorem Serving.putPrefilling (pf : PrefillingSeq) {prefilling : List PrefillingSeq}
    (h : Serving mem (pf.slot ::ₘ hand) cb kv) (hheld : pf.Held cb.dec.cfg kv)
    (hperm : prefilling.Perm (pf :: cb.prefilling)) :
    Serving mem hand { cb with prefilling } kv where
  represents := h.represents
  slots := by
    rw [← h.slots]
    unfold ContinuousBatcher.slots
    rw [Multiset.coe_eq_coe.mpr (hperm.map PrefillingSeq.slot), List.map_cons,
      ← Multiset.cons_coe]
    simp only [← Multiset.singleton_add]
    abel
  idle := h.idle
  active := h.active
  prefilling := fun other hother => by
    obtain rfl | hother := List.mem_cons.mp (hperm.mem_iff.mp hother)
    · exact hheld
    · exact h.prefilling other hother
  preempted := h.preempted

theorem Serving.putPreempted {p : PreemptedSeq B} {preempted : List (PreemptedSeq B)}
    (h : Serving mem hand cb kv) (hkept : p.Kept mem cb.dec.cfg)
    (hperm : preempted.Perm (p :: cb.preempted)) : Serving mem hand { cb with preempted } kv :=
  { h with
    preempted := fun other hother => by
      obtain rfl | hother := List.mem_cons.mp (hperm.mem_iff.mp hother)
      · exact hkept
      · exact h.preempted other hother }

theorem Serving.slot_lt (h : Serving mem (slot ::ₘ hand) cb kv) : slot < cb.dec.cfg.mMax := by
  have hmem : slot ∈ (slot ::ₘ hand) + cb.slots := by simp
  rw [h.slots] at hmem
  exact Multiset.mem_range.mp hmem

/-- A slot in hand is no one else's. -/
theorem Serving.notMem_slots (h : Serving mem (slot ::ₘ hand) cb kv) : slot ∉ cb.slots := by
  have hnodup := Multiset.nodup_range cb.dec.cfg.mMax
  rw [← h.slots, Multiset.cons_add, Multiset.nodup_cons] at hnodup
  exact fun hmem => hnodup.1 (Multiset.mem_add.mpr (Or.inr hmem))

/-- Work on the slot in hand disturbs no other slot. -/
theorem Serving.work {dec : BatchedDecoder M} {held : SlotKv}
    (h : Serving mem (slot ::ₘ hand) cb kv) (hrep : Represents mem dec (update kv slot held))
    (hframe : Frames [slot] cb.dec dec) :
    Serving mem (slot ::ₘ hand) { cb with dec } (update kv slot held) := by
  have hslot := h.notMem_slots
  simp only [ContinuousBatcher.slots, Multiset.mem_add, Multiset.mem_coe, List.mem_map, not_or,
    not_exists, not_and] at hslot
  obtain ⟨⟨hfree, hactive⟩, hprefilling⟩ := hslot
  refine ⟨hrep, ?_, ?_, ?_, ?_, ?_⟩
  · rw [hframe.cfg_eq, ← h.slots]
    rfl
  · intro other hother
    have hne : other ≠ slot := fun heq => hfree (heq ▸ hother)
    rw [hframe.slotBlocks_eq other (by simpa using hne), update_of_ne hne]
    exact h.idle other hother
  · intro s hs
    obtain ⟨hproduced, hfed⟩ := h.active s hs
    exact ⟨hproduced, by rw [update_of_ne (hactive s hs), hfed]⟩
  · intro pf hpf
    obtain ⟨hlen, hpos, hfed⟩ := h.prefilling pf hpf
    exact ⟨hlen, hpos, by rw [update_of_ne (hprefilling pf hpf), hfed, hframe.cfg_eq]⟩
  · intro p hp
    rw [hframe.cfg_eq]
    exact h.preempted p hp

/-- Free the slot in hand. -/
theorem Serving.release (h : Serving mem (slot ::ₘ hand) cb kv) :
    ∃ kv', Serving mem hand
      { cb with dec := cb.dec.freeSlot slot, free := slot :: cb.free } kv' := by
  obtain ⟨hrep, hframe, hempty⟩ := freeSlot_spec h.represents h.slot_lt
  have hwork := h.work hrep hframe
  refine ⟨_, hwork.represents, ?_, ?_, hwork.active, hwork.prefilling, hwork.preempted⟩
  · rw [← hwork.slots]
    unfold ContinuousBatcher.slots
    rw [← Multiset.cons_coe]
    simp only [← Multiset.singleton_add]
    abel
  · intro other hother
    obtain rfl | hother := List.mem_cons.mp hother
    · exact ⟨hempty, update_self _ _ _⟩
    · exact hwork.idle other hother

end

end Zllm.Gpu
