import Zllm.Vulkan.VkModel

/-!
# What a prefill forwards

The calls that `prefill_cached` makes for a prompt and a record, for any capacity of the cache and
either layout of it. Each token from the reused prefix on is forwarded once, in order, and a padded
tile never leaves the cache.
-/

namespace Zllm.Vulkan

/-- A forward of `prefill_cached`. -/
inductive PrefillCall
  | inner (tokens : List Token) (pos : ℕ)
  | step (token : Token) (pos : ℕ)
  | forward (token : Token) (pos : ℕ)

namespace PrefillCall

/-- The tokens a call forwards, with their positions. A tile takes no more than `PREFILL_MAX_M`. -/
def rows : PrefillCall → List (Token × ℕ)
  | inner tokens pos => (tokens.take (min tokens.length prefillMaxM)).zipIdx pos
  | step token pos => [(token, pos)]
  | forward token pos => [(token, pos)]

end PrefillCall

/-- `prefill_from`, from `pos` on. -/
def fromCalls (tokens : List Token) (start pos : ℕ) : List PrefillCall :=
  if pos < tokens.length then
    let stop := min (pos + prefillMaxM) tokens.length
    .inner (tokens.extract pos stop) (start + pos) :: fromCalls tokens start stop
  else []
termination_by tokens.length - pos
decreasing_by
  have := prefillMaxM_pos
  omega

/-- The loop of single steps. -/
def stepCalls (tokens : List Token) (start : ℕ) : List PrefillCall :=
  (tokens.zipIdx start).map fun row => .step row.1 row.2

/-- `reuse` of `prefill_cached`: nothing in the head-major layout. -/
def reuseOf (headmajor : Bool) (prompt cached : List Token) : ℕ :=
  if headmajor then 0 else min (VkModel.lcp prompt cached) (prompt.length - 1)

/-- `prefill_cached` where `max_seq` is `capacity`. -/
def cachedCalls (capacity : ℕ) (headmajor : Bool) (prompt cached : List Token) :
    Option (List PrefillCall) :=
  match prompt.getLast? with
  | none => none
  | some last =>
      if prompt.length ≤ capacity - padUnit then
        if headmajor then some (fromCalls prompt 0 0)
        else
          let reuse := reuseOf headmajor prompt cached
          let suffix := prompt.drop reuse
          if reuse = 0 ∧ 32 < suffix.length then some (fromCalls prompt 0 0)
          else if 32 < suffix.length then some (fromCalls suffix reuse 0)
          else some (stepCalls suffix.dropLast reuse ++ [.forward last (prompt.length - 1)])
      else none

/-! ### Coverage -/

section

variable {tokens : List Token} {pos stop : ℕ}

theorem length_extract (hstop : stop ≤ tokens.length) :
    (tokens.extract pos stop).length = stop - pos := by
  rw [List.extract_eq_drop_take', List.length_drop, List.length_take, min_eq_left hstop]

/-- A chunk and what is left behind it. -/
theorem extract_append_drop (hpos : pos ≤ stop) :
    tokens.extract pos stop ++ tokens.drop stop = tokens.drop pos := by
  have hsplit : stop - pos + pos = stop := by omega
  rw [List.extract_eq_take_drop, ← hsplit, Nat.add_sub_cancel, Nat.add_comm, ← List.drop_drop,
    List.take_append_drop]

/-- A chunk fits one tile, so all of it is forwarded. -/
theorem rows_inner (hlen : tokens.length ≤ prefillMaxM) :
    (PrefillCall.inner tokens pos).rows = tokens.zipIdx pos := by
  rw [PrefillCall.rows, min_eq_left hlen, List.take_length]

end

theorem flatMap_rows_fromCalls (tokens : List Token) (start pos : ℕ) :
    (fromCalls tokens start pos).flatMap PrefillCall.rows =
      (tokens.drop pos).zipIdx (start + pos) := by
  fun_induction fromCalls tokens start pos with
  | case1 pos hpos stop ih =>
    have hle : pos ≤ stop := le_min (Nat.le_add_right _ _) hpos.le
    have hlen : (tokens.extract pos stop).length = stop - pos := length_extract (min_le_right _ _)
    have hsmall : stop - pos ≤ prefillMaxM := by
      have := min_le_left (pos + prefillMaxM) tokens.length
      omega
    have hstop : start + pos + (stop - pos) = start + stop := by omega
    rw [List.flatMap_cons, ih, rows_inner (hlen.trans_le hsmall), ← extract_append_drop hle,
      List.zipIdx_append, hlen, hstop]
  | case2 pos hpos =>
    rw [List.drop_eq_nil_of_le (by omega)]
    rfl

theorem flatMap_rows_stepCalls (tokens : List Token) (start : ℕ) :
    (stepCalls tokens start).flatMap PrefillCall.rows = tokens.zipIdx start := by
  rw [stepCalls, List.flatMap_map]
  exact List.flatMap_pure_eq_map _ _ |>.trans (List.map_id _)

/-- A chunk is a part of one tile, and ends where its tokens do. -/
theorem mem_fromCalls {tokens : List Token} {start pos : ℕ} {call : PrefillCall}
    (hmem : call ∈ fromCalls tokens start pos) :
    ∃ chunk offset, call = .inner chunk offset ∧ 0 < chunk.length ∧ chunk.length ≤ prefillMaxM ∧
      offset + chunk.length ≤ start + tokens.length := by
  fun_induction fromCalls tokens start pos with
  | case1 pos hpos stop ih =>
    rcases List.mem_cons.mp hmem with rfl | hmem
    · have hlen : (tokens.extract pos stop).length = stop - pos := length_extract (min_le_right _ _)
      have hlt : pos < stop := lt_min (Nat.lt_add_of_pos_right prefillMaxM_pos) hpos
      have htile : stop ≤ pos + prefillMaxM := min_le_left _ _
      have hend : stop ≤ tokens.length := min_le_right _ _
      exact ⟨_, _, rfl, by omega, by omega, by omega⟩
    · exact ih hmem
  | case2 pos hpos => exact absurd hmem List.not_mem_nil

/-- The padding of a tile stays within 127 rows. -/
theorem paddedM_lt (len : ℕ) : VkModel.paddedM len < len + padUnit := by
  have hceil : (min len prefillMaxM ⌈/⌉ padUnit) * padUnit < min len prefillMaxM + padUnit := by
    rw [Nat.ceilDiv_eq_add_pred_div]
    unfold padUnit
    omega
  exact (min_le_left _ _).trans_lt (hceil.trans_le (Nat.add_le_add_right (min_le_left _ _) _))

theorem reuseOf_lt {headmajor : Bool} {prompt cached : List Token} (hpos : 1 ≤ prompt.length) :
    reuseOf headmajor prompt cached < prompt.length := by
  unfold reuseOf
  split
  · exact hpos
  · exact (min_le_right _ _).trans_lt (Nat.sub_lt hpos one_pos)

/-- The steps and the forward of the last token. -/
theorem flatMap_rows_steps {prompt : List Token} {last : Token} {reuse : ℕ}
    (hlast : prompt.getLast? = some last) (hreuse : reuse < prompt.length) :
    (stepCalls (prompt.drop reuse).dropLast reuse ++
      [PrefillCall.forward last (prompt.length - 1)]).flatMap PrefillCall.rows =
        (prompt.drop reuse).zipIdx reuse := by
  have hsuffix : (prompt.drop reuse).dropLast ++ [last] = prompt.drop reuse := by
    apply List.dropLast_append_getLast?
    rw [List.getLast?_drop, if_neg (by omega)]
    exact hlast
  have hlen : reuse + (prompt.drop reuse).dropLast.length = prompt.length - 1 := by
    rw [List.length_dropLast, List.length_drop]
    omega
  rw [List.flatMap_append, flatMap_rows_stepCalls]
  nth_rewrite 2 [← hsuffix]
  rw [List.zipIdx_append, hlen]
  rfl

theorem drop_zipIdx (tokens : List Token) (n : ℕ) :
    tokens.zipIdx.drop n = (tokens.drop n).zipIdx n := by
  apply List.ext_getElem?
  intro i
  simp [List.getElem?_drop, List.getElem?_zipIdx]

/-- The calls of a prefill: tiles that stay in the cache, and the rows from `reuse` on. -/
structure Covers (capacity reuse : ℕ) (prompt : List Token) (calls : List PrefillCall) : Prop where
  within : ∀ chunk pos, .inner chunk pos ∈ calls → pos + VkModel.paddedM chunk.length ≤ capacity
  nonempty : ∀ call ∈ calls, call.rows ≠ []
  rows : calls.flatMap PrefillCall.rows = prompt.zipIdx.drop reuse

theorem covers_fromCalls {capacity reuse : ℕ} {prompt : List Token} (hreuse : reuse < prompt.length)
    (hcap : prompt.length + padUnit ≤ capacity) :
    Covers capacity reuse prompt (fromCalls (prompt.drop reuse) reuse 0) where
  within := by
    intro chunk pos hmem
    obtain ⟨chunk', pos', heq, -, -, hend⟩ := mem_fromCalls hmem
    obtain ⟨rfl, rfl⟩ := PrefillCall.inner.inj heq
    have hpadded := paddedM_lt chunk.length
    rw [List.length_drop] at hend
    omega
  nonempty := by
    intro call hmem
    obtain ⟨chunk, pos, rfl, hpos, hlen, -⟩ := mem_fromCalls hmem
    rw [rows_inner hlen, ← List.length_pos_iff, List.length_zipIdx]
    exact hpos
  rows := by
    rw [flatMap_rows_fromCalls, drop_zipIdx]
    rfl

theorem covers_steps {capacity reuse : ℕ} {prompt : List Token} {last : Token}
    (hlast : prompt.getLast? = some last) (hreuse : reuse < prompt.length) :
    Covers capacity reuse prompt (stepCalls (prompt.drop reuse).dropLast reuse ++
      [.forward last (prompt.length - 1)]) where
  within := by
    intro chunk pos hmem
    simp [stepCalls] at hmem
  nonempty := by
    intro call hmem
    rcases List.mem_append.mp hmem with hstep | hforward
    · obtain ⟨row, -, rfl⟩ := List.mem_map.mp hstep
      exact List.cons_ne_nil _ _
    · rw [List.mem_singleton.mp hforward]
      exact List.cons_ne_nil _ _
  rows := (flatMap_rows_steps hlast hreuse).trans (drop_zipIdx prompt reuse).symm

/-- The last call forwards the last token. -/
theorem Covers.getLast?_rows {capacity reuse : ℕ} {prompt : List Token} {calls : List PrefillCall}
    {call : PrefillCall} (hcovers : Covers capacity reuse prompt calls)
    (hreuse : reuse < prompt.length) (hlast : calls.getLast? = some call) :
    call.rows.getLast? = prompt.zipIdx.getLast? := by
  obtain ⟨before, rfl⟩ := List.getLast?_eq_some_iff.mp hlast
  have hrows := congrArg List.getLast? hcovers.rows
  rw [List.flatMap_append, List.flatMap_singleton, List.getLast?_append_of_ne_nil _
    (hcovers.nonempty call (by simp)), List.getLast?_drop, List.length_zipIdx,
    if_neg (by omega)] at hrows
  exact hrows

/-- Whatever is reused, the calls forward the rest of the prompt, each token once and in order, the
last one last, and no tile reaches beyond the cache. -/
theorem prefillCached_covers {capacity : ℕ} (headmajor : Bool)
    {prompt : List Token} (hpos : 1 ≤ prompt.length) (hcap : prompt.length ≤ capacity - padUnit)
    (cached : List Token) :
    ∃ calls, cachedCalls capacity headmajor prompt cached = some calls ∧
      reuseOf headmajor prompt cached < prompt.length ∧
      (∀ chunk pos, .inner chunk pos ∈ calls →
        pos + VkModel.paddedM chunk.length ≤ capacity) ∧
      calls.flatMap PrefillCall.rows = prompt.zipIdx.drop (reuseOf headmajor prompt cached) ∧
      ∀ call, calls.getLast? = some call → call.rows.getLast? = prompt.zipIdx.getLast? := by
  have hreuse : reuseOf headmajor prompt cached < prompt.length := reuseOf_lt hpos
  have hroom : prompt.length + padUnit ≤ capacity := by
    unfold padUnit at hcap ⊢
    omega
  obtain ⟨last, hlast⟩ : ∃ last, prompt.getLast? = some last :=
    Option.ne_none_iff_exists'.mp (mt List.getLast?_eq_none_iff.mp (List.length_pos_iff.mp hpos))
  have hcovers : ∃ calls, cachedCalls capacity headmajor prompt cached = some calls ∧
      Covers capacity (reuseOf headmajor prompt cached) prompt calls := by
    rw [cachedCalls, hlast]
    dsimp only
    rw [if_pos hcap]
    split_ifs with hmode hwhole hlong
    · refine ⟨_, rfl, ?_⟩
      rw [reuseOf, if_pos hmode]
      exact covers_fromCalls hpos hroom
    · rw [hwhole.1] at hreuse ⊢
      exact ⟨_, rfl, covers_fromCalls hreuse hroom⟩
    · exact ⟨_, rfl, covers_fromCalls hreuse hroom⟩
    · exact ⟨_, rfl, covers_steps hlast hreuse⟩
  obtain ⟨calls, hcalls, hcovers⟩ := hcovers
  exact ⟨calls, hcalls, hreuse, hcovers.within, hcovers.rows,
    fun call hcall => hcovers.getLast?_rows hreuse hcall⟩

/-- Three rows are reused of a prompt that is prefilled in one more tile. -/
theorem prefillCached_covers_reused :
    ∃ calls, cachedCalls 4096 false (List.replicate 40 7) [7, 7, 7] = some calls ∧
      reuseOf false (List.replicate 40 7) [7, 7, 7] < (List.replicate 40 7).length ∧
      (∀ chunk pos, .inner chunk pos ∈ calls →
        pos + VkModel.paddedM chunk.length ≤ 4096) ∧
      calls.flatMap PrefillCall.rows =
        (List.replicate 40 7).zipIdx.drop (reuseOf false (List.replicate 40 7) [7, 7, 7]) ∧
      ∀ call, calls.getLast? = some call →
        call.rows.getLast? = (List.replicate 40 7).zipIdx.getLast? :=
  prefillCached_covers false (by decide) (by decide) [7, 7, 7]

/-! ### The calls are what the model runs -/

namespace VkModel

variable {V L : Type} (k : VkKernels V L)

def runCall (call : PrefillCall) (model : VkModel V) : Except Panic (L × VkModel V) :=
  match call with
  | .inner tokens pos => prefillInner k tokens pos model
  | .step token pos => do
      let model ← prefillStep k token pos model
      pure (k.noLogits, model)
  | .forward token pos => forward k token pos model

/-- The calls one after the other, and the logits of the last one. -/
def runCalls (calls : List PrefillCall) (start : L × VkModel V) : Except Panic (L × VkModel V) :=
  calls.foldlM (fun state call => runCall k call state.2) start

theorem runCalls_fromCalls (tokens : List Token) (start pos : ℕ) (logits : L) (model : VkModel V) :
    runCalls k (fromCalls tokens start pos) (logits, model) =
      prefillChunks k ((tokens.length - pos) ⌈/⌉ prefillMaxM) (tokens.drop pos) (start + pos) logits
        model := by
  fun_induction fromCalls tokens start pos generalizing logits model with
  | case1 pos hpos stop ih =>
    have hchunk : tokens.extract pos stop = (tokens.drop pos).take prefillMaxM := by
      rw [List.extract_eq_take_drop, List.take_eq_take_iff, List.length_drop]
      simp only [stop]
      omega
    have hcount : (tokens.length - pos) ⌈/⌉ prefillMaxM =
        (tokens.length - stop) ⌈/⌉ prefillMaxM + 1 := by
      rw [Nat.ceilDiv_eq_add_pred_div, Nat.ceilDiv_eq_add_pred_div]
      have hle : stop = min (pos + prefillMaxM) tokens.length := rfl
      unfold prefillMaxM at hle ⊢
      omega
    rw [hcount, runCalls, List.foldlM_cons, hchunk]
    refine congrArg (prefillInner k _ _ model >>= ·) (funext fun state => ?_)
    rw [← runCalls, ih]
    rcases Nat.lt_or_ge tokens.length (pos + prefillMaxM) with hlast | hmore
    · have hstop : stop = tokens.length := min_eq_right hlast.le
      rw [hstop, Nat.sub_self, zero_ceilDiv]
      rfl
    · have hstop : stop = pos + prefillMaxM := min_eq_left hmore
      rw [hstop, List.drop_drop, Nat.add_assoc]
  | case2 pos hpos =>
    have hnone : (tokens.length - pos) ⌈/⌉ prefillMaxM = 0 := by
      rw [Nat.sub_eq_zero_of_le (by omega), zero_ceilDiv]
    rw [hnone]
    rfl

theorem runCalls_stepCalls (tokens : List Token) (start : ℕ) (model : VkModel V) :
    runCalls k (stepCalls tokens start) (k.noLogits, model) =
      prefillSteps k tokens start model >>= fun model => pure (k.noLogits, model) := by
  induction tokens generalizing start model with
  | nil => rfl
  | cons token tokens ih =>
    have hcalls : stepCalls (token :: tokens) start =
        .step token start :: stepCalls tokens (start + 1) := rfl
    rw [hcalls, runCalls, List.foldlM_cons, prefillSteps, bind_assoc]
    simp only [runCall, bind_assoc, pure_bind]
    exact congrArg (prefillStep k token start model >>= ·) (funext fun model => ih (start + 1) model)

/-- The rows from `reuse` on, in tiles or step by step. -/
theorem runCalls_suffix (prompt : List Token) (last : Token) (reuse : ℕ) (model : VkModel V) :
    runCalls k (if 32 < (prompt.drop reuse).length then fromCalls (prompt.drop reuse) reuse 0
      else stepCalls (prompt.drop reuse).dropLast reuse ++ [.forward last (prompt.length - 1)])
        (k.noLogits, model) = prefillSuffix k prompt last reuse model := by
  unfold prefillSuffix
  dsimp only
  split_ifs with hlong
  · rw [runCalls_fromCalls]
    rfl
  · rw [runCalls, List.foldlM_append, ← runCalls, runCalls_stepCalls, bind_assoc]
    simp only [pure_bind, List.foldlM_cons, List.foldlM_nil, bind_pure]
    rfl

/-- `prefill_cached` makes these calls and records the prompt. -/
theorem prefillCached_eq_runCalls (prompt : List Token) (model : VkModel V) :
    prefillCached k prompt model =
      (cachedCalls maxSeq false prompt model.promptCache).elim (.error .promptBounds) fun calls =>
        runCalls k calls (k.noLogits, model) >>= fun state =>
          pure (state.1, { state.2 with promptCache := prompt }) := by
  unfold prefillCached cachedCalls
  cases hlast : prompt.getLast? with
  | none => rfl
  | some last =>
    have hcap : maxSeq - padUnit = prefillCap := rfl
    have hreuse : min (lcp prompt model.promptCache) (prompt.length - 1) =
      reuseOf false prompt model.promptCache := rfl
    simp only [hcap, hreuse, ← runCalls_suffix, Bool.false_eq_true, if_false]
    by_cases hfits : prompt.length ≤ prefillCap
    · simp only [if_pos hfits]
      by_cases hlong : 32 < (prompt.drop (reuseOf false prompt model.promptCache)).length
      · by_cases hwhole : reuseOf false prompt model.promptCache = 0
        · rw [if_pos hlong, if_pos ⟨hwhole, hlong⟩, hwhole]
          rfl
        · rw [if_pos hlong, if_neg (mt And.left hwhole), if_pos hlong]
          rfl
      · rw [if_neg hlong, if_neg (mt And.right hlong), if_neg hlong]
        rfl
    · simp only [if_neg hfits]
      rfl

end VkModel

end Zllm.Vulkan
