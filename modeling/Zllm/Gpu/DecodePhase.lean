import Zllm.Gpu.Eviction

/-!
# The decode phases

One batched forward gives every active sequence at least one token. Each sequence *commits* tokens
selected from the logits of its own history, one after another, up to the one that completes it; the
plain phase commits one token a sequence, the drafted phase one for each draft token that the
forward agrees with and one more.
-/

namespace Zllm.Gpu

open Function (update update_of_ne update_self)
open Outcome ContinuousBatcher
open TokenService (Run Step)

variable {M B L : Type} {dev : Device M B L} {mem : KvMemory dev} {cb cb' cb'' : ContinuousBatcher M B}
  {kv kv' : Nat → SlotKv} {dec dec' : BatchedDecoder M} {Allowed : RequestJob → Kernel → Prop}

/-- `tok` is selected from logits of the job's history by a kernel that `Allowed` admits. -/
def Picks (mem : KvMemory dev) (Allowed : RequestJob → Kernel → Prop) (job : RequestJob)
    (tok : Token) : Prop :=
  ∃ kernel logits, Allowed job kernel ∧ mem.Reads (history job) logits ∧
    tok = kernel.select dev job logits

def Event.entry (event : Event) : TokenService.Entry Request Token Nat :=
  .emitted event.id event.tok event.done

/-- One entry of what the batcher's clients see. -/
abbrev LogEntry := TokenService.Entry Request Token Nat

/-- What an operation does: it keeps the invariant, and what clients see is a run of the board. -/
structure Serves (mem : KvMemory dev) (Allowed : RequestJob → Kernel → Prop)
    (cb : ContinuousBatcher M B) (entries : List LogEntry) (cb' : ContinuousBatcher M B) :
    Prop where
  serving : ∃ kv, Serving mem 0 cb' kv
  run : Run requestProtocol (Picks mem Allowed) cb.board entries cb'.board
  cfg_eq : cb'.dec.cfg = cb.dec.cfg

theorem serves_refl (h : Serving mem 0 cb kv) : Serves mem Allowed cb [] cb :=
  ⟨⟨kv, h⟩, .refl _, rfl⟩

theorem Evicts.serves (hevicts : Evicts mem cb cb') : Serves mem Allowed cb [] cb' where
  serving := hevicts.serving
  run := by
    rw [hevicts.board_eq]
    exact .refl _
  cfg_eq := hevicts.cfg_eq

theorem Serves.trans {entries entries' : List LogEntry}
    (hfirst : Serves mem Allowed cb entries cb') (hsecond : Serves mem Allowed cb' entries' cb'') :
    Serves mem Allowed cb (entries ++ entries') cb'' where
  serving := hsecond.serving
  run := hfirst.run.trans hsecond.run
  cfg_eq := hsecond.cfg_eq.trans hfirst.cfg_eq

/-! ### Committing tokens -/

/-- `toks` are picked for `job` one after another. -/
def PicksAll (mem : KvMemory dev) (Allowed : RequestJob → Kernel → Prop) :
    RequestJob → List Token → Prop
  | _, [] => True
  | job, tok :: toks => Picks mem Allowed job tok ∧ PicksAll mem Allowed (job.push tok) toks

theorem commitTokens_eq (toks : List Token) (s : CbSeq) :
    ∃ k, (commitTokens toks s).1 = { s with tokens := s.tokens ++ toks.take k } ∧
      (toks ≠ [] → 0 < k) := by
  induction toks generalizing s with
  | nil => exact ⟨0, by simp [commitTokens], by simp⟩
  | cons tok toks ih =>
      by_cases hdone : (s.push tok).done = true
      · refine ⟨1, ?_, by simp⟩
        simp only [commitTokens, hdone, if_true]
        simp [CbSeq.push]
      · obtain ⟨k, hk, -⟩ := ih (s.push tok)
        refine ⟨k + 1, ?_, by simp⟩
        simp only [commitTokens, hdone, Bool.false_eq_true, if_false, hk]
        simp [CbSeq.push]

theorem commitTokens_run {s : CbSeq} {toks : List Token}
    (rest : TokenService.Board Request Token) (hne : toks ≠ [])
    (hlen : s.promptLen ≤ s.tokens.length) (hpicks : PicksAll mem Allowed s.job toks) :
    Run requestProtocol (Picks mem Allowed) (s.job ::ₘ rest)
      ((commitTokens toks s).2.map Event.entry)
      (if (commitTokens toks s).1.done then rest else (commitTokens toks s).1.job ::ₘ rest) := by
  induction toks generalizing s with
  | nil => exact absurd rfl hne
  | cons tok toks ih =>
      obtain ⟨hpick, hrest⟩ := hpicks
      have hlen' : (s.push tok).promptLen ≤ (s.push tok).tokens.length := by
        simp only [CbSeq.push, List.length_append]
        omega
      have hentry : (eventOf (s.push tok)).entry =
          .emitted (requestProtocol.jobKey s.job) tok (s.push tok).done := by
        simp [eventOf, Event.entry, CbSeq.push, CbSeq.next, requestProtocol,
          TokenService.Protocol.jobKey, CbSeq.job]
      cases hdone : (s.push tok).done with
      | true =>
          have hcompletes := CbSeq.done_push hlen tok ▸ hdone
          simp only [commitTokens, hdone, if_true, List.map_cons, List.map_nil, hentry]
          exact Run.single (.finish s.job rest tok rfl hpick hcompletes)
      | false =>
          have hcompletes := CbSeq.done_push hlen tok ▸ hdone
          have hstep : Step requestProtocol (Picks mem Allowed) (s.job ::ₘ rest)
              (eventOf (s.push tok)).entry ((s.push tok).job ::ₘ rest) := by
            rw [hentry, hdone, CbSeq.job_push hlen]
            exact .advance s.job rest tok rfl hpick hcompletes
          simp only [commitTokens, hdone, Bool.false_eq_true, if_false, List.map_cons]
          refine .cons hstep ?_
          cases toks with
          | nil => simpa [commitTokens, hdone] using Run.refl _
          | cons next toks =>
              exact ih (by simp) hlen' (by rwa [CbSeq.job_push hlen])

/-- What one active sequence was fed beyond its last token, and the tokens it commits. -/
structure Commit where
  seq : CbSeq
  draft : List Token
  toks : List Token

def Commit.result (c : Commit) : CbSeq × List Event := commitTokens c.toks c.seq

/-- A commit is of picked tokens, all but the last of which have been fed. -/
structure Commit.Sound (mem : KvMemory dev) (Allowed : RequestJob → Kernel → Prop) (c : Commit) :
    Prop where
  nonempty : c.toks ≠ []
  fed : c.toks.dropLast <+: c.draft
  picked : PicksAll mem Allowed c.seq.job c.toks

theorem prefix_dropLast_take {α : Type} (xs : List α) (k : Nat) :
    (xs.take k).dropLast <+: xs.dropLast := by
  rw [List.dropLast_eq_take, List.dropLast_eq_take, List.take_take, List.length_take]
  exact List.take_prefix_take_left (by omega)

theorem Commit.prefix_dropLast {c : Commit} (hsound : c.Sound mem Allowed) :
    c.result.1.tokens.dropLast <+: c.seq.tokens ++ c.draft := by
  obtain ⟨k, hk, hpos⟩ := commitTokens_eq c.toks c.seq
  have htaken : c.toks.take k ≠ [] := by
    have := hpos hsound.nonempty
    simpa [List.take_eq_nil_iff, hsound.nonempty] using this.ne'
  simp only [Commit.result, hk]
  rw [List.dropLast_append_of_ne_nil htaken, List.prefix_append_right_inj]
  exact (prefix_dropLast_take _ _).trans hsound.fed

theorem Commit.length_lt {c : Commit} (hsound : c.Sound mem Allowed) :
    c.seq.tokens.length < c.result.1.tokens.length := by
  obtain ⟨k, hk, hpos⟩ := commitTokens_eq c.toks c.seq
  have := hpos hsound.nonempty
  have := List.length_pos_iff.mpr hsound.nonempty
  simp only [Commit.result, hk, List.length_append, List.length_take]
  omega

/-! ### Retiring finished sequences -/

theorem retire_spec {kept pushed active : List CbSeq} {free free' : List Nat}
    (h : Serving mem 0 { cb with active := kept ++ pushed, dec, free } kv)
    (hret : retire pushed dec free = (active, dec', free')) :
    active = pushed.filter (!·.done) ∧ dec'.cfg = dec.cfg ∧
      ∃ kv', Serving mem 0 { cb with active := kept ++ active, dec := dec', free := free' } kv' := by
  induction pushed generalizing kept dec free kv active with
  | nil =>
      obtain ⟨rfl, rfl, rfl⟩ := by simpa [retire] using hret
      exact ⟨rfl, rfl, kv, h⟩
  | cons s pushed ih =>
      cases hdone : s.done with
      | true =>
          simp only [retire, hdone, if_true] at hret
          obtain ⟨kv', hfreed⟩ := Serving.release (h.takeActive List.perm_middle)
          obtain ⟨hactive, hcfg, hserving⟩ := ih hfreed hret
          exact ⟨by simpa [hdone] using hactive, hcfg, hserving⟩
      | false =>
          simp only [retire, hdone, Bool.false_eq_true, if_false] at hret
          cases hrest : retire pushed dec free with
          | mk rest pair =>
              obtain ⟨decRest, freeRest⟩ := pair
              obtain ⟨rfl, rfl, rfl⟩ := by simpa [hrest] using hret
              obtain ⟨hactive, hcfg, kv', hserving⟩ := @ih kv dec (kept ++ [s]) rest free
                (by simpa using h) hrest
              exact ⟨by simp [hdone, hactive], hcfg, kv', by simpa using hserving⟩

theorem commits_run {commits : List Commit} (rest : TokenService.Board Request Token)
    (hlen : ∀ c ∈ commits, c.seq.promptLen ≤ c.seq.tokens.length)
    (hsound : ∀ c ∈ commits, c.Sound mem Allowed) :
    Run requestProtocol (Picks mem Allowed) (↑(commits.map (·.seq.job)) + rest)
      ((commits.flatMap (·.result.2)).map Event.entry)
      (↑(((commits.map (·.result.1)).filter (!·.done)).map CbSeq.job) + rest) := by
  induction commits generalizing rest with
  | nil => exact .refl _
  | cons c commits ih =>
      simp only [List.mem_cons, forall_eq_or_imp] at hlen hsound
      have hfirst : Run requestProtocol (Picks mem Allowed)
          (c.seq.job ::ₘ (↑(commits.map (·.seq.job)) + rest)) (c.result.2.map Event.entry)
          (if c.result.1.done then ↑(commits.map (·.seq.job)) + rest
            else c.result.1.job ::ₘ (↑(commits.map (·.seq.job)) + rest)) :=
        commitTokens_run _ hsound.1.nonempty hlen.1 hsound.1.picked
      rw [List.flatMap_cons, List.map_append, List.map_cons, ← Multiset.cons_coe,
        Multiset.cons_add]
      refine hfirst.trans ?_
      cases hdone : c.result.1.done with
      | true => simpa [hdone] using ih rest hlen.2 hsound.2
      | false =>
          have hrest := ih (c.result.1.job ::ₘ rest) hlen.2 hsound.2
          rw [Multiset.add_cons] at hrest
          simpa [hdone, ← Multiset.cons_coe] using hrest

/-! ### The batched forward -/

theorem Serving.nodup_slots (h : Serving mem 0 cb kv) : (cb.active.map CbSeq.slot).Nodup := by
  have hnodup := Multiset.nodup_range cb.dec.cfg.mMax
  rw [← h.slots, zero_add, ContinuousBatcher.slots] at hnodup
  have hle : (↑(cb.active.map CbSeq.slot) : Multiset Nat) ≤
      ↑cb.free + ↑(cb.active.map CbSeq.slot) + ↑(cb.prefilling.map PrefillingSeq.slot) := by
    rw [add_right_comm]
    exact Multiset.le_add_left _ _
  exact Multiset.coe_nodup.mp (Multiset.nodup_of_le hle hnodup)

theorem Serving.slot_lt_of_active {s : CbSeq} (h : Serving mem 0 cb kv) (hs : s ∈ cb.active) :
    s.slot < cb.dec.cfg.mMax := by
  obtain ⟨front, back, heq⟩ := List.append_of_mem hs
  have hperm : cb.active.Perm (s :: (front ++ back)) := by
    rw [heq]
    exact List.perm_middle
  exact (h.takeActive hperm).slot_lt

theorem Serving.slot_lt_of_prefilling {pf : PrefillingSeq} (h : Serving mem 0 cb kv)
    (hpf : pf ∈ cb.prefilling) : pf.slot < cb.dec.cfg.mMax := by
  obtain ⟨front, back, heq⟩ := List.append_of_mem hpf
  have hperm : cb.prefilling.Perm (pf :: (front ++ back)) := by
    rw [heq]
    exact List.perm_middle
  exact (h.takePrefilling hperm).slot_lt

/-- Free and prefilling slots are not active ones. -/
theorem Serving.notMem_active {slot : Nat} (h : Serving mem 0 cb kv)
    (hslot : slot ∈ cb.free ∨ slot ∈ cb.prefilling.map PrefillingSeq.slot) :
    slot ∉ cb.active.map CbSeq.slot := by
  have hnodup := Multiset.nodup_range cb.dec.cfg.mMax
  rw [← h.slots, zero_add, ContinuousBatcher.slots, add_right_comm, Multiset.nodup_add] at hnodup
  refine fun hmem => Multiset.disjoint_left.mp hnodup.2.2 ?_ (Multiset.mem_coe.mpr hmem)
  simpa using hslot

/-- The own prefixes of one sequence's rows: its history, and the draft after it token by token. -/
def draftPrefixes (s : CbSeq) (draft : List Token) : List (List Token) :=
  (List.range (draft.length + 1)).map fun i => s.tokens ++ draft.take i

theorem CbSeq.Held.dropLast_append_next {s : CbSeq} (hheld : s.Held kv) :
    s.tokens.dropLast ++ [s.next] = s.tokens := by
  have hne : s.tokens ≠ [] := fun hnil => by
    have := hheld.produced
    simp [hnil] at this
  rw [CbSeq.next, List.getLastD_eq_getLast?, List.getLast?_eq_some_getLast hne]
  exact List.dropLast_append_getLast hne

/-- The rows of a layout, a draft behind each sequence's next token. -/
theorem Serving.layout_inStep {layout : List (CbSeq × List Token)} (h : Serving mem 0 cb kv)
    (hlayout : layout.map Prod.fst = cb.active) :
    let rows := layout.flatMap fun l => draftRows l.1 l.2
    InStep cb.dec.cfg rows kv ∧
      ownPrefixes rows kv = layout.flatMap (fun l => draftPrefixes l.1 l.2) ∧
      (∀ row ∈ rows, row.slot ∈ cb.active.map CbSeq.slot) ∧
      (∀ l ∈ layout, appendRows kv rows l.1.slot = ⟨l.1.tokens ++ l.2, (kv l.1.slot).sealed⟩) ∧
      ∀ slot, slot ∉ cb.active.map CbSeq.slot → appendRows kv rows slot = kv slot := by
  intro rows
  set feed : Feed := layout.map fun l => (l.1.slot, l.1.next :: l.2) with hfeed
  have hheld : ∀ l ∈ layout, l.1.Held kv := fun l hl =>
    h.active l.1 (hlayout ▸ List.mem_map_of_mem hl)
  have hslots : feed.map Prod.fst = cb.active.map CbSeq.slot := by
    rw [hfeed, ← hlayout, List.map_map, List.map_map]
    rfl
  have hrows : rows = feedRows kv feed := by
    rw [feedRows, hfeed, List.flatMap_map]
    refine List.flatMap_congr fun l hl => ?_
    have hpos : (kv l.1.slot).tokens.length = l.1.pos := by
      rw [(hheld l hl).fed, List.length_dropLast, CbSeq.pos]
    rw [hpos]
    rfl
  have hlt : ∀ seg ∈ feed, seg.1 < cb.dec.cfg.mMax := by
    intro seg hseg
    obtain ⟨l, hl, rfl⟩ := List.mem_map.mp hseg
    exact h.slot_lt_of_active (hlayout ▸ List.mem_map_of_mem hl)
  obtain ⟨hstep, hhit, hmiss, hown⟩ := feedRows_spec kv hlt (hslots ▸ h.nodup_slots)
  rw [hrows]
  refine ⟨hstep, ?_, ?_, ?_, ?_⟩
  · rw [hown, hfeed, List.flatMap_map]
    refine List.flatMap_congr fun l hl => ?_
    simp only [draftPrefixes, List.length_cons, (hheld l hl).fed]
    refine List.map_congr_left fun i _ => ?_
    rw [List.take_succ_cons, List.append_cons, (hheld l hl).dropLast_append_next]
  · intro row hrow
    obtain ⟨seg, hseg, hrow⟩ := List.mem_flatMap.mp hrow
    rw [← hslots, slot_of_mem_slotRows hrow]
    exact List.mem_map_of_mem hseg
  · intro l hl
    rw [hhit _ (List.mem_map_of_mem hl), (hheld l hl).fed, List.append_cons,
      (hheld l hl).dropLast_append_next]
  · exact fun slot hslot => hmiss slot (hslots ▸ hslot)

/-- One forward over every active sequence's last token and draft. -/
theorem forwardLayout_spec {layout : List (CbSeq × List Token)} {logits : List L}
    (h : Serving mem 0 cb kv) (hlayout : layout.map Prod.fst = cb.active)
    (hok : cb.dec.forwardLogits dev (layout.flatMap fun l => draftRows l.1 l.2) =
      .ok (logits, dec')) :
    ∃ kv', Represents mem dec' kv' ∧ Frames (cb.active.map CbSeq.slot) cb.dec dec' ∧
      (∀ l ∈ layout, kv' l.1.slot = ⟨l.1.tokens ++ l.2, (kv l.1.slot).sealed⟩) ∧
      (∀ slot, slot ∉ cb.active.map CbSeq.slot → kv' slot = kv slot) ∧
      List.Forall₂ mem.Reads (layout.flatMap fun l => draftPrefixes l.1 l.2) logits := by
  obtain ⟨hstep, hown, hslots, hhit, hmiss⟩ := h.layout_inStep hlayout
  obtain ⟨hrep, hreads, hframe⟩ := forwardLogits_spec h.represents hstep hok
  refine ⟨_, hrep, hframe.mono ?_, hhit, hmiss, hown ▸ hreads⟩
  intro slot hslot
  obtain ⟨row, hrow, rfl⟩ := List.mem_map.mp hslot
  exact hslots row hrow

/-- Once each sequence has its committed tokens, the batcher serves on, each slot's KV cut back to
what its sequence has fed. -/
theorem Serving.commit {commits : List Commit} (h : Serving mem 0 cb kv)
    (hactive : commits.map (·.seq) = cb.active) (hsound : ∀ c ∈ commits, c.Sound mem Allowed)
    (hrep : Represents mem dec' kv') (hframe : Frames (cb.active.map CbSeq.slot) cb.dec dec')
    (hfed : ∀ c ∈ commits, kv' c.seq.slot = ⟨c.seq.tokens ++ c.draft, (kv c.seq.slot).sealed⟩)
    (hothers : ∀ slot, slot ∉ cb.active.map CbSeq.slot → kv' slot = kv slot) :
    ∃ kv'', Serving mem 0 { cb with active := commits.map (·.result.1), dec := dec' } kv'' := by
  have hheld : ∀ c ∈ commits, c.seq.Held kv := fun c hc =>
    h.active c.seq (hactive ▸ List.mem_map_of_mem hc)
  have hslots : commits.map (·.seq.slot) = cb.active.map CbSeq.slot := by
    rw [← hactive, List.map_map]
    rfl
  set cut : Nat → SlotKv := fun slot =>
    match commits.find? (·.seq.slot == slot) with
    | some c => ⟨c.result.1.tokens.dropLast, (kv' slot).sealed⟩
    | none => kv' slot with hcut
  have hhit : ∀ c ∈ commits,
      cut c.seq.slot = ⟨c.result.1.tokens.dropLast, (kv' c.seq.slot).sealed⟩ := by
    intro c hc
    have hnodup : (commits.map (·.seq.slot)).Nodup := hslots ▸ h.nodup_slots
    have hfind : commits.find? (·.seq.slot == c.seq.slot) = some c := by
      cases hfound : commits.find? (·.seq.slot == c.seq.slot) with
      | none => simpa using List.find?_eq_none.mp hfound c hc
      | some d =>
          have hslot : d.seq.slot = c.seq.slot := by simpa using List.find?_some hfound
          rw [List.inj_on_of_nodup_map hnodup (List.mem_of_find?_eq_some hfound) hc hslot]
    simp only [hcut, hfind]
  have hmiss : ∀ slot, slot ∉ cb.active.map CbSeq.slot → cut slot = kv slot := by
    intro slot hslot
    have hfind : commits.find? (·.seq.slot == slot) = none := by
      refine List.find?_eq_none.mpr fun c hc heq => hslot ?_
      rw [← hslots]
      exact List.mem_map.mpr ⟨c, hc, by simpa using heq⟩
    simp only [hcut, hfind]
    exact hothers slot hslot
  have hcases : ∀ slot, cut slot = kv' slot ∨ ∃ c ∈ commits, c.seq.slot = slot := by
    intro slot
    cases hfound : commits.find? (·.seq.slot == slot) with
    | none => exact Or.inl (by simp only [hcut, hfound])
    | some c =>
        exact Or.inr ⟨c, List.mem_of_find?_eq_some hfound, by simpa using List.find?_some hfound⟩
  have hlength : ∀ c ∈ commits,
      (kv c.seq.slot).sealed ≤ c.result.1.tokens.dropLast.length := by
    intro c hc
    have hsealed := h.represents.resident.sealed_le c.seq.slot
    have hlt := Commit.length_lt (hsound c hc)
    rw [(hheld c hc).fed] at hsealed
    rw [List.length_dropLast] at hsealed ⊢
    omega
  have hresult : ∀ c ∈ commits, c.result.1.slot = c.seq.slot ∧
      c.result.1.promptLen = c.seq.promptLen := by
    intro c _
    obtain ⟨k, hk, -⟩ := commitTokens_eq c.toks c.seq
    simp [Commit.result, hk]
  refine ⟨cut, hrep.truncate ?_ ?_ ?_, ?_, ?_, ?_, ?_, ?_⟩
  · intro slot
    obtain heq | ⟨c, hc, rfl⟩ := hcases slot
    · rw [heq]
    · rw [hhit c hc, hfed c hc]
      exact Commit.prefix_dropLast (hsound c hc)
  · intro slot
    obtain heq | ⟨c, hc, rfl⟩ := hcases slot
    · rw [heq]
    · rw [hhit c hc]
  · intro slot
    obtain heq | ⟨c, hc, rfl⟩ := hcases slot
    · rw [heq]
      exact hrep.resident.sealed_le slot
    · rw [hhit c hc, hfed c hc]
      exact hlength c hc
  · rw [hframe.cfg_eq, ← h.slots]
    have hsame : (commits.map (·.result.1)).map CbSeq.slot = cb.active.map CbSeq.slot := by
      rw [← hslots, List.map_map]
      exact List.map_congr_left fun c hc => (hresult c hc).1
    simp only [ContinuousBatcher.slots, hsame]
  · intro slot hslot
    have hnot := h.notMem_active (Or.inl hslot)
    rw [hmiss slot hnot, hframe.slotBlocks_eq slot hnot]
    exact h.idle slot hslot
  · intro s hs
    obtain ⟨c, hc, rfl⟩ := List.mem_map.mp hs
    obtain ⟨hslot, hlen⟩ := hresult c hc
    refine ⟨?_, by rw [hslot, hhit c hc]⟩
    have := Commit.length_lt (hsound c hc)
    have := (hheld c hc).produced
    omega
  · intro pf hpf
    obtain ⟨hlen, hpos, hfed'⟩ := h.prefilling pf hpf
    refine ⟨hlen, hpos, ?_⟩
    rw [hmiss _ (h.notMem_active (Or.inr (List.mem_map_of_mem hpf))), hframe.cfg_eq, hfed']
  · intro p hp
    rw [hframe.cfg_eq]
    exact h.preempted p hp

/-- Commit to each active sequence, retire the finished ones. -/
theorem commits_serves {commits : List Commit} {active : List CbSeq} {decLast : BatchedDecoder M}
    {free : List Nat} (h : Serving mem 0 cb kv) (hactive : commits.map (·.seq) = cb.active)
    (hsound : ∀ c ∈ commits, c.Sound mem Allowed) (hrep : Represents mem dec' kv')
    (hframe : Frames (cb.active.map CbSeq.slot) cb.dec dec')
    (hfed : ∀ c ∈ commits, kv' c.seq.slot = ⟨c.seq.tokens ++ c.draft, (kv c.seq.slot).sealed⟩)
    (hothers : ∀ slot, slot ∉ cb.active.map CbSeq.slot → kv' slot = kv slot)
    (hret : retire (commits.map (·.result.1)) dec' cb.free = (active, decLast, free)) :
    Serves mem Allowed cb ((commits.flatMap (·.result.2)).map Event.entry)
      { cb with active, dec := decLast, free } := by
  obtain ⟨kv'', hcommitted⟩ := h.commit hactive hsound hrep hframe hfed hothers
  obtain ⟨rfl, hcfg, hserving⟩ := @retire_spec _ _ _ _ _ cb kv'' dec' decLast [] _ _ _ _ hcommitted hret
  refine ⟨by simpa using hserving, ?_, hcfg.trans hframe.cfg_eq⟩
  have hlen : ∀ c ∈ commits, c.seq.promptLen ≤ c.seq.tokens.length := fun c hc =>
    (h.active c.seq (hactive ▸ List.mem_map_of_mem hc)).produced.le
  have hrun := commits_run
    (↑(cb.prefilling.map PrefillingSeq.job) + ↑(cb.preempted.map PreemptedSeq.job)) hlen hsound
  have hjobs : commits.map (·.seq.job) = cb.active.map CbSeq.job := by
    rw [← hactive, List.map_map]
    rfl
  rw [hjobs, ← add_assoc, ← add_assoc] at hrun
  exact hrun

/-- The sequences that a step's decode phase decodes together. -/
def ContinuousBatcher.batch (dev : Device M B L) (cb : ContinuousBatcher M B) : List CbSeq :=
  match cb.makeRoom dev with
  | .ok roomy => roomy.active
  | .error _ => []

theorem batch_eq_active {roomy : ContinuousBatcher M B} (hroom : cb.makeRoom dev = .ok roomy) :
    cb.batch dev = roomy.active := by
  simp [ContinuousBatcher.batch, hroom]

/-! ### The plain phase -/

/-- The selection of one batched decode over `active`. -/
def batchKernel (active : List CbSeq) : Kernel :=
  if active.any (·.params.needsTopk) then .topk
  else if active.any (fun s => decide (0 < s.params.temp)) then .gumbel
  else .argmax

theorem CbSeq.length_produced_job (s : CbSeq) : s.job.produced.length = s.genIndex :=
  List.length_drop

theorem decodeBatch_eq_ok {active : List CbSeq} {nexts : List Token}
    (hok : decodeBatch dev active dec = .ok (nexts, dec')) :
    ∃ logits, dec.forwardLogits dev (decodeRows active) = .ok (logits, dec') ∧
      (logits.length = active.length → nexts =
        List.zipWith (fun s l => (batchKernel active).select dev s.job l) active logits) := by
  unfold decodeBatch at hok
  unfold batchKernel
  split at hok
  case isTrue htopk =>
    obtain ⟨u, -, hok⟩ := bind_eq_ok.mp hok
    obtain ⟨⟨logits, forwarded⟩, hforward, hok⟩ := bind_eq_ok.mp hok
    obtain ⟨rfl, rfl⟩ := by simpa using hok
    refine ⟨logits, hforward, fun _ => ?_⟩
    simp only [htopk, if_true, List.zipWith_map_right]
    rw [List.zipWith_comm]
    simp only [Kernel.select, CbSeq.length_produced_job]
    rfl
  case isFalse htopk =>
    split at hok
    case isTrue htemp =>
      obtain ⟨u, -, hok⟩ := bind_eq_ok.mp hok
      obtain ⟨⟨logits, forwarded⟩, hforward, hok⟩ := bind_eq_ok.mp hok
      obtain ⟨rfl, rfl⟩ := by simpa using hok
      refine ⟨logits, hforward, fun _ => ?_⟩
      simp only [htopk, htemp, if_true, List.zipWith_map_right]
      rw [List.zipWith_comm]
      simp only [Kernel.select, CbSeq.length_produced_job]
      rfl
    case isFalse htemp =>
      obtain ⟨u, -, hok⟩ := bind_eq_ok.mp hok
      obtain ⟨⟨logits, forwarded⟩, hforward, hok⟩ := bind_eq_ok.mp hok
      obtain ⟨rfl, rfl⟩ := by simpa using hok
      refine ⟨logits, hforward, fun hlength => ?_⟩
      simp only [htopk, htemp]
      exact List.ext_getElem (by simp [hlength]) (by simp [Kernel.select])

theorem commitTokens_singleton (tok : Token) (s : CbSeq) :
    commitTokens [tok] s = (s.push tok, [eventOf (s.push tok)]) := by
  simp [commitTokens]

theorem exists_commits_of_reads {kernel : Kernel} {active : List CbSeq} {logits : List L}
    (hreads : List.Forall₂ (fun s => mem.Reads s.tokens) active logits)
    (hallowed : ∀ s ∈ active, Allowed s.job kernel) :
    ∃ commits : List Commit, commits.map (fun c => (c.seq, c.draft)) = active.map (·, []) ∧
      (∀ c ∈ commits, c.Sound mem Allowed) ∧
      List.zipWith CbSeq.push active
        (List.zipWith (fun s l => kernel.select dev s.job l) active logits) =
          commits.map (·.result.1) ∧
      commits.flatMap (·.result.2) = (commits.map (·.result.1)).map eventOf := by
  induction hreads with
  | nil => exact ⟨[], by simp⟩
  | @cons s l active logits hread _ ih =>
      simp only [List.mem_cons, forall_eq_or_imp] at hallowed
      obtain ⟨commits, hlayout, hsound, hpushed, hevents⟩ := ih hallowed.2
      set tok := kernel.select dev s.job l with htok
      have hpick : Picks mem Allowed s.job tok :=
        ⟨kernel, l, hallowed.1, by rwa [CbSeq.history_job], htok⟩
      refine ⟨⟨s, [], [tok]⟩ :: commits, ?_, ?_, ?_, ?_⟩
      · simp [hlayout]
      · simp only [List.mem_cons, forall_eq_or_imp]
        exact ⟨⟨by simp, by simp, hpick, trivial⟩, hsound⟩
      · simp [Commit.result, commitTokens_singleton, hpushed, ← htok]
      · rw [List.flatMap_cons, hevents]
        simp only [Commit.result, commitTokens_singleton, List.map_cons, List.singleton_append]

theorem decodeRows_eq (active : List CbSeq) :
    decodeRows active = (active.map (·, [])).flatMap fun l => draftRows l.1 l.2 := by
  rw [List.flatMap_map, decodeRows, ← List.flatMap_pure_eq_map]
  rfl

theorem draftPrefixes_nil (active : List CbSeq) :
    ((active.map (·, [])).flatMap fun l => draftPrefixes l.1 l.2) = active.map CbSeq.tokens := by
  rw [List.flatMap_map, ← List.flatMap_pure_eq_map]
  refine List.flatMap_congr fun s _ => ?_
  simp [draftPrefixes]

theorem decodeActive_spec {events : List Event} (h : Serving mem 0 cb kv)
    (hallowed : ∀ s ∈ cb.batch dev, s.promptLen < s.tokens.length →
      Allowed s.job (batchKernel (cb.batch dev)))
    (hok : cb.decodeActive dev = .ok (events, cb')) :
    Serves mem Allowed cb (events.map Event.entry) cb' := by
  unfold decodeActive at hok
  split at hok
  case isTrue =>
    obtain ⟨rfl, rfl⟩ := by simpa using hok
    exact serves_refl h
  case isFalse =>
    obtain ⟨roomy, hroom, hok⟩ := bind_eq_ok.mp hok
    have hevicts := makeRoom_spec h hroom
    obtain ⟨kv₁, h₁⟩ := hevicts.serving
    obtain ⟨⟨nexts, decoded⟩, hdecode, hok⟩ := bind_eq_ok.mp hok
    obtain ⟨logits, hforward, hnexts⟩ := decodeBatch_eq_ok hdecode
    rw [decodeRows_eq] at hforward
    obtain ⟨kv₂, hrep, hframe, hfed, hothers, hreads⟩ :=
      forwardLayout_spec h₁ (by simp [Function.comp_def]) hforward
    rw [draftPrefixes_nil, List.forall₂_map_left_iff] at hreads
    rw [batch_eq_active hroom] at hallowed
    obtain ⟨commits, hlayout, hsound, hpushed, hevents⟩ :=
      exists_commits_of_reads hreads fun s hs => hallowed s hs (h₁.active s hs).produced
    rw [← hnexts hreads.length_eq.symm] at hpushed
    have hseqs : commits.map (·.seq) = roomy.active := by
      simpa [Function.comp_def] using congrArg (List.map Prod.fst) hlayout
    rw [← hlayout] at hfed
    simp only [hpushed] at hok
    cases hret : retire (commits.map (·.result.1)) decoded roomy.free with
    | mk active pair =>
        obtain ⟨decLast, free⟩ := pair
        obtain ⟨rfl, rfl⟩ := by simpa only [hret, pure_eq_ok, Prod.mk.injEq] using hok
        have hserves := commits_serves h₁ hseqs hsound hrep hframe
          (fun c hc => hfed _ (List.mem_map_of_mem hc)) hothers hret
        rw [hevents] at hserves
        exact hevicts.serves.trans hserves

/-! ### The drafted phase -/

theorem range_succ_map_draft (hist : List Token) (tok : Token) (draft : List Token) :
    ((List.range ((tok :: draft).length + 1)).map fun i => hist ++ (tok :: draft).take i) =
      hist :: (List.range (draft.length + 1)).map fun i => (hist ++ [tok]) ++ draft.take i := by
  rw [List.length_cons, List.range_succ_eq_map, List.map_cons, List.map_map]
  simp [Function.comp_def]

theorem acceptedLen_cons (out tok : Token) (outs draft : List Token) :
    acceptedLen (out :: outs) (tok :: draft) =
      if out = tok then acceptedLen outs draft + 1 else 0 := by
  by_cases heq : out = tok <;> simp [acceptedLen, heq]

/-- The tokens committed for one draft: those the forward's choices agree with, and the choice
after them. -/
theorem accepted_sound {job : RequestJob} {draft : List Token} {logits : List L}
    (hreads : List.Forall₂ mem.Reads
      ((List.range (draft.length + 1)).map fun i => history job ++ draft.take i) logits)
    (hallowed : ∀ job', job'.req = job.req → Allowed job' .argmax) :
    let outs := logits.map dev.argmax
    let toks := outs.take (acceptedLen outs draft + 1)
    toks ≠ [] ∧ toks.dropLast <+: draft ∧ PicksAll mem Allowed job toks := by
  induction draft generalizing job logits with
  | nil =>
      obtain ⟨l, rfl⟩ : ∃ l, logits = [l] := by
        have := hreads.length_eq
        exact List.length_eq_one_iff.mp (by simpa using this.symm)
      have hread : mem.Reads (history job) l := by simpa using hreads
      exact ⟨by simp, by simp [acceptedLen], ⟨.argmax, l, hallowed job rfl, hread, rfl⟩, trivial⟩
  | cons tok draft ih =>
      rw [range_succ_map_draft] at hreads
      cases hreads with
      | @cons _ l _ logits hread hreads =>
          have hpick : Picks mem Allowed job (dev.argmax l) :=
            ⟨.argmax, l, hallowed job rfl, hread, rfl⟩
          by_cases hagree : dev.argmax l = tok
          · have hhistory : history (job.push tok) = history job ++ [tok] := by
              simp [history, TokenService.Job.push]
            rw [← hhistory] at hreads
            obtain ⟨hne, hfed, hpicks⟩ := ih hreads fun job' hreq => hallowed job' hreq
            simp only [List.map_cons, acceptedLen_cons, hagree, if_true, List.take_succ_cons] at hpick ⊢
            refine ⟨by simp, ?_, hpick, hpicks⟩
            rw [List.dropLast_cons_of_ne_nil hne, List.prefix_cons_inj]
            exact hfed
          · simp only [List.map_cons, acceptedLen_cons, hagree, if_false, List.take_succ_cons]
            exact ⟨by simp, by simp, hpick, trivial⟩

theorem exists_commits_of_drafts {layout : List (CbSeq × List Token)} {logits : List L}
    (hreads : List.Forall₂ mem.Reads (layout.flatMap fun l => draftPrefixes l.1 l.2) logits)
    (hallowed : ∀ l ∈ layout, ∀ job, job.req = l.1.job.req → Allowed job .argmax) :
    ∃ commits : List Commit, commits.map (fun c => (c.seq, c.draft)) = layout ∧
      (∀ c ∈ commits, c.Sound mem Allowed) ∧
      commitDrafts layout (logits.map dev.argmax) =
        (commits.map (·.result.1), commits.flatMap (·.result.2)) := by
  induction layout generalizing logits with
  | nil => exact ⟨[], by simp [commitDrafts]⟩
  | cons head layout ih =>
      obtain ⟨s, draft⟩ := head
      simp only [List.mem_cons, forall_eq_or_imp] at hallowed
      rw [List.flatMap_cons] at hreads
      have hlen : (draftPrefixes s draft).length = 1 + draft.length := by
        simp [draftPrefixes, Nat.add_comm]
      have hfirst := List.forall₂_take (1 + draft.length) hreads
      have hrest := List.forall₂_drop (1 + draft.length) hreads
      rw [← hlen, List.take_left, hlen] at hfirst
      rw [← hlen, List.drop_left, hlen] at hrest
      obtain ⟨commits, hlayout, hsound, hcommits⟩ := ih hrest hallowed.2
      rw [draftPrefixes, ← CbSeq.history_job] at hfirst
      obtain ⟨hne, hfed, hpicks⟩ := accepted_sound hfirst hallowed.1
      rw [List.map_take] at hne hfed hpicks
      rw [List.map_drop] at hcommits
      set so := (logits.map dev.argmax).take (1 + draft.length) with hso
      refine ⟨⟨s, draft, so.take (acceptedLen so draft + 1)⟩ :: commits, ?_, ?_, ?_⟩
      · simp [hlayout]
      · simp only [List.mem_cons, forall_eq_or_imp]
        exact ⟨⟨hne, hfed, hpicks⟩, hsound⟩
      · simp only [commitDrafts, ← hso, hcommits]
        rfl

theorem decodeActivePld_spec {lookupLen draftK : Nat} {events : List Event}
    (h : Serving mem 0 cb kv)
    (hallowed : ∀ s ∈ cb.batch dev, ∀ job, job.req = s.job.req → Allowed job .argmax)
    (hok : cb.decodeActivePld dev lookupLen draftK = .ok (events, cb')) :
    Serves mem Allowed cb (events.map Event.entry) cb' := by
  unfold decodeActivePld at hok
  split at hok
  case isTrue =>
    obtain ⟨rfl, rfl⟩ := by simpa using hok
    exact serves_refl h
  case isFalse =>
    obtain ⟨roomy, hroom, hok⟩ := bind_eq_ok.mp hok
    have hevicts := makeRoom_spec h hroom
    obtain ⟨kv₁, h₁⟩ := hevicts.serving
    obtain ⟨⟨outs, decoded⟩, hdecode, hok⟩ := bind_eq_ok.mp hok
    unfold BatchedDecoder.stepSlotted at hdecode
    obtain ⟨u, -, hdecode⟩ := bind_eq_ok.mp hdecode
    obtain ⟨⟨logits, forwarded⟩, hforward, hdecode⟩ := bind_eq_ok.mp hdecode
    obtain ⟨rfl, rfl⟩ := by simpa using hdecode
    set layout := roomy.active.map fun s => (s, draftFor lookupLen draftK s) with hlay
    obtain ⟨kv₂, hrep, hframe, hfed, hothers, hreads⟩ :=
      forwardLayout_spec h₁ (by simp [hlay, Function.comp_def]) hforward
    rw [batch_eq_active hroom] at hallowed
    obtain ⟨commits, hlayout, hsound, hcommits⟩ := exists_commits_of_drafts hreads fun l hl => by
      obtain ⟨s, hs, rfl⟩ := List.mem_map.mp hl
      exact hallowed s hs
    have hseqs : commits.map (·.seq) = roomy.active := by
      simpa [hlay, Function.comp_def] using congrArg (List.map Prod.fst) hlayout
    rw [← hlayout] at hfed
    simp only [hcommits] at hok
    cases hret : retire (commits.map (·.result.1)) forwarded roomy.free with
    | mk active pair =>
        obtain ⟨decLast, free⟩ := pair
        obtain ⟨rfl, rfl⟩ := by simpa [hret] using hok
        exact hevicts.serves.trans (commits_serves h₁ hseqs hsound hrep hframe
          (fun c hc => hfed _ (List.mem_map_of_mem hc)) hothers hret)

end Zllm.Gpu
