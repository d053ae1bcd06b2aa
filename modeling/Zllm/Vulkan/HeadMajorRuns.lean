import Zllm.Vulkan.HeadMajorAgrees
import Zllm.Vulkan.PrefillPlan

/-!
# Runs in head-major mode

Requests one after the other in both modes, from one state of a loaded model. The modes agree where
the query heads are whole groups and the batched prefill writes every column of a key row. Its
product for the keys goes by whole tiles of 128 columns: in narrower tails stale elements stay,
which are not the same in the two layouts.
-/

namespace Zllm.Vulkan.VkPass

open Finset Tile Loader CausalTower Outcome
open Gpu (Buf GpuError brope ropeAt rmsnorm)
open Gpu.SingleStream (normWeight)

variable {land : List (ℕ × ℝ) → List (ℕ × ℝ)} {model : VkModelWeights}

namespace KvRequest

/-- All positions are below `MAX_SEQ`. -/
def Fits (r : KvRequest) : Prop := r.length ≤ maxSeq

/-- The query heads are whole groups, and a batched prompt has keys of whole tiles. -/
def WholeTiles (model : VkModelWeights) (r : KvRequest) : Prop :=
  model.nKv ∣ model.nHead ∧ (r.prompt ≠ [] → 128 ∣ kvDim model)

instance (r : KvRequest) : Decidable r.Fits := inferInstanceAs (Decidable (r.length ≤ maxSeq))

instance (model : VkModelWeights) (r : KvRequest) : Decidable (r.WholeTiles model) :=
  inferInstanceAs (Decidable (model.nKv ∣ model.nHead ∧ (r.prompt ≠ [] → 128 ∣ kvDim model)))

end KvRequest

/-! ### Side by side -/

section Mirrors

variable {h p h' : Resident} {r : KvRequest} (hwidth : model.hd ≤ 64)
  (hmaxSeq : model.maxSeq = maxSeq)

include hmaxSeq

/-- A filled prompt is mirrored, whatever was in the caches. -/
theorem prefillForward_mirrors {logits : List ℝ} (hfits : r.Fits) (hwhole : r.WholeTiles model)
    (halike : Alike model h p)
    (hok : prefillForward land model true r.prompt h = .ok (h', logits)) :
    ∃ p', prefillForward land model false r.prompt p = .ok (p', logits) ∧
      Mirrors model r.prompt.length h' p' := by
  have hlength : r.prompt.length ≤ maxSeq := (Nat.le_add_right _ _).trans hfits
  have hstart : SamePrefix model 0 h p := by
    refine ⟨halike, fun _ _ i hi => ?_, fun _ _ i hi => ?_⟩
    all_goals
      rw [zero_mul] at hi
      exact absurd hi (Nat.not_lt_zero i)
  obtain ⟨⟨filled, logits'⟩, hprefill, hok⟩ := bind_eq_ok.mp hok
  obtain ⟨rfl, rfl⟩ := Prod.mk.inj (pure_eq_ok.mp hok)
  rw [if_pos rfl, hmaxSeq, min_eq_left hlength]
  obtain ⟨p', hprefill', hsame⟩ : ∃ p', prefillFrom land model r.prompt 0 p = .ok (p', logits') ∧
      SamePrefix model r.prompt.length filled p' := by
    rcases eq_or_ne r.prompt [] with hnil | hprompt
    · rw [hnil] at hprefill ⊢
      obtain ⟨rfl, rfl⟩ := Prod.mk.inj (Except.ok.inj hprefill)
      exact ⟨p, rfl, hstart⟩
    · have hagree := prefillFrom_agree (hwhole.2 hprompt) hstart hprefill
      rwa [zero_add] at hagree
  exact ⟨p', bind_eq_ok.mpr ⟨_, hprefill', rfl⟩, transpose_mirrors hlength hsame⟩

include hwidth

theorem runRequest_mirrors (hfits : r.Fits) (hwhole : r.WholeTiles model)
    (halike : Alike model h p) (hok : runRequest land model true h r = .ok h') :
    ∃ p', runRequest land model false p r = .ok p' ∧ Mirrors model r.length h' p' := by
  obtain ⟨⟨filled, logits⟩, hprefill, hsteps⟩ := bind_eq_ok.mp hok
  obtain ⟨p₁, hprefill', hfilled⟩ := prefillForward_mirrors hmaxSeq hfits hwhole halike hprefill
  obtain ⟨p', hsteps', hmirrors⟩ := runSteps_mirrors hwhole.1 hwidth hfits hfilled hsteps
  exact ⟨p', bind_eq_ok.mpr ⟨_, hprefill', hsteps'⟩, hmirrors⟩

/-- Whatever requests have been served, the modes have all but the caches in common. -/
theorem runRequests_alike {requests : List KvRequest} (hfits : ∀ r ∈ requests, r.Fits)
    (hwhole : ∀ r ∈ requests, r.WholeTiles model) (halike : Alike model h p)
    (hok : runRequests land model true requests h = .ok h') :
    ∃ p', runRequests land model false requests p = .ok p' ∧ Alike model h' p' := by
  induction requests generalizing h p with
  | nil =>
    obtain rfl := pure_eq_ok.mp hok
    exact ⟨p, rfl, halike⟩
  | cons r rest ih =>
    rw [runRequests, List.foldlM_cons] at hok
    obtain ⟨h₁, hrequest, hrest⟩ := bind_eq_ok.mp hok
    obtain ⟨p₁, hrequest', hmirrors⟩ := runRequest_mirrors hwidth hmaxSeq
      (hfits r List.mem_cons_self) (hwhole r List.mem_cons_self) halike hrequest
    obtain ⟨p', hrest', halike'⟩ := ih (fun r hr => hfits r (List.mem_cons_of_mem _ hr))
      (fun r hr => hwhole r (List.mem_cons_of_mem _ hr)) hmirrors.alike hrest
    refine ⟨p', ?_, halike'⟩
    rw [runRequests, List.foldlM_cons]
    exact bind_eq_ok.mpr ⟨p₁, hrequest', hrest'⟩

end Mirrors

/-- **The head-major mode is transparent.** After any call of any request the cells of the caches
are those of the position-major mode, at every position so far, and so is all else that a call
reads. The state before the first request is any that nothing is recorded in. -/
theorem runRequests_mirrors {quantize : GgmlDType → List ℚ → List ℚ} {gguf : Gguf}
    (hload : VkModelWeights.load quantize defaultVkEnv gguf = .ok model) (hwidth : model.hd ≤ 64)
    (land : List (ℕ × ℝ) → List (ℕ × ℝ)) {requests : List KvRequest} {last : KvRequest}
    (hfits : ∀ r ∈ requests ++ [last], r.Fits)
    (hwhole : ∀ r ∈ requests ++ [last], r.WholeTiles model) {s h : Resident}
    (hfresh : s.lastRec = none)
    (hrun : runRequests land model true (requests ++ [last]) s = .ok h) :
    ∃ p, runRequests land model false (requests ++ [last]) s = .ok p ∧
      Mirrors model last.length h p := by
  have hmaxSeq : model.maxSeq = maxSeq := (loaded_of_load hload).maxSeq
  have hrecorded : RecordedOver model s.lastRec := by
    rw [hfresh]
    intro last hlast
    cases hlast
  have hlast : last ∈ requests ++ [last] := List.mem_append_right _ (List.mem_singleton_self last)
  rw [runRequests, List.foldlM_append] at hrun
  obtain ⟨h₁, hserved, hrun⟩ := bind_eq_ok.mp hrun
  obtain ⟨p₁, hserved', halike⟩ := runRequests_alike hwidth hmaxSeq
    (fun r hr => hfits r (List.mem_append_left _ hr))
    (fun r hr => hwhole r (List.mem_append_left _ hr))
    ⟨rfl, rfl, rfl, hrecorded, hrecorded⟩ hserved
  rw [List.foldlM_cons] at hrun
  obtain ⟨h₂, hrequest, hnil⟩ := bind_eq_ok.mp hrun
  obtain rfl := pure_eq_ok.mp hnil
  obtain ⟨p, hrequest', hmirrors⟩ :=
    runRequest_mirrors hwidth hmaxSeq (hfits last hlast) (hwhole last hlast) halike hrequest
  refine ⟨p, ?_, hmirrors⟩
  rw [runRequests, List.foldlM_append]
  refine bind_eq_ok.mpr ⟨p₁, hserved', ?_⟩
  rw [List.foldlM_cons]
  exact bind_eq_ok.mpr ⟨p, hrequest', rfl⟩

/-! ### When a run returns -/

section Succeeds

variable (hshaped : Shaped model) (heven : Even model.hd) (hmaxSeq : model.maxSeq = maxSeq)

include hshaped heven hmaxSeq

theorem forwardStep_succeeds (headmajor : Bool) {token pos : ℕ} (htoken : token < model.vocab)
    (hpos : pos < maxSeq) (call : TokenCall) (s : Resident) :
    ∃ t, forwardStep model headmajor token pos call s = .ok t := by
  cases headmajor with
  | false => exact forwardInner_succeeds hshaped heven htoken (hmaxSeq ▸ hpos) _ _ s
  | true =>
    have hembed : token * model.nEmbd ≤ model.embed.length := by
      rw [hshaped.embed]
      exact Nat.mul_le_mul_right _ htoken.le
    have hrotary : pos * half model ≤ model.maxSeq * half model := by
      rw [hmaxSeq]
      exact Nat.mul_le_mul_right _ hpos.le
    obtain ⟨last, hlast⟩ := record_succeeds (wantedHm pos call.asks.1 call.asks.2) s
      (forwardGrids_pos hshaped heven (Nat.zero_lt_of_lt htoken) _)
    exact ⟨_, bind_eq_ok.mpr ⟨(), check_eq_ok.mpr hembed, bind_eq_ok.mpr ⟨(),
      check_eq_ok.mpr hrotary, bind_eq_ok.mpr ⟨last, hlast, rfl⟩⟩⟩⟩

theorem runSteps_succeeds (headmajor : Bool) {steps : List (ℕ × TokenCall)} {pos : ℕ}
    (htokens : ∀ step ∈ steps, step.1 < model.vocab) (hfits : pos + steps.length ≤ maxSeq)
    (s : Resident) : ∃ t, runSteps model headmajor steps pos s = .ok t := by
  induction steps generalizing pos s with
  | nil => exact ⟨s, rfl⟩
  | cons step rest ih =>
    rw [List.length_cons] at hfits
    obtain ⟨s₁, hstep⟩ := forwardStep_succeeds hshaped heven hmaxSeq headmajor
      (htokens step List.mem_cons_self) (show pos < maxSeq by omega) step.2 s
    obtain ⟨t, hrest⟩ := ih (fun step hstep => htokens step (List.mem_cons_of_mem _ hstep))
      (show pos + 1 + rest.length ≤ maxSeq by omega) s₁
    exact ⟨t, bind_eq_ok.mpr ⟨s₁, hstep, hrest⟩⟩

omit heven in
/-- The padding of the last tile stays within the cache. -/
theorem prefillFrom_succeeds {tokens : List ℕ} (hvocab : 0 < model.vocab)
    (htokens : ∀ token ∈ tokens, token < model.vocab) {pos : ℕ}
    (hroom : pos + tokens.length + padUnit ≤ maxSeq) (s : Resident) :
    ∃ t, prefillFrom land model tokens pos s = .ok t := by
  have hinner (tokens : List ℕ) (pos : ℕ) (htokens : ∀ token ∈ tokens, token < model.vocab)
      (hroom : pos + tokens.length + padUnit ≤ maxSeq) (s : Resident) :
      ∃ t, prefillInner land model tokens pos s = .ok t := by
    have hpadded := paddedM_lt tokens.length
    refine ⟨_, bind_eq_ok.mpr ⟨(), check_eq_ok.mpr (by omega), bind_eq_ok.mpr ⟨(),
      forM_check_eq_ok.mpr fun token htoken => ?_,
      bind_eq_ok.mpr ⟨(), check_eq_ok.mpr (by simpa using hvocab), rfl⟩⟩⟩⟩
    rw [hshaped.embed]
    exact Nat.mul_le_mul_right _ (htokens token htoken).le
  suffices hchunks : ∀ pos a, pos + tokens.length + padUnit ≤ maxSeq → ∃ t,
      prefillChunks land model (tokens.length ⌈/⌉ prefillMaxM) tokens pos a = .ok t from
    hchunks pos (s, []) hroom
  revert htokens
  refine chunk_induction (P := fun chunks tokens => (∀ token ∈ tokens, token < model.vocab) →
    ∀ pos a, pos + tokens.length + padUnit ≤ maxSeq →
      ∃ t, prefillChunks land model chunks tokens pos a = .ok t) ?nil ?last ?more tokens
  case nil =>
    intro _ pos a _
    exact ⟨a, rfl⟩
  case last =>
    intro tokens hshort htokens pos a hroom
    obtain ⟨b, hb⟩ := hinner tokens pos htokens hroom a.1
    rw [← List.take_of_length_le hshort] at hb
    exact ⟨b, bind_eq_ok.mpr ⟨b, hb, rfl⟩⟩
  case more =>
    intro chunks tokens hlong ih htokens pos a hroom
    obtain ⟨b, hb⟩ := hinner (tokens.take prefillMaxM) pos
      (fun token htoken => htokens token (List.mem_of_mem_take htoken)) (by
        rw [List.length_take]
        omega) a.1
    obtain ⟨t, ht⟩ := ih (fun token htoken => htokens token (List.mem_of_mem_drop htoken))
      (pos + prefillMaxM) b (by
        rw [List.length_drop]
        omega)
    exact ⟨t, bind_eq_ok.mpr ⟨b, hb, ht⟩⟩

/-- Requests of known tokens are all served, where a batched prompt leaves the padding room. -/
theorem runRequests_succeeds (headmajor : Bool) {requests : List KvRequest}
    (hvocab : 0 < model.vocab) (hfits : ∀ r ∈ requests, r.Fits)
    (hroom : ∀ r ∈ requests, r.prompt.length + padUnit ≤ maxSeq)
    (htokens : ∀ r ∈ requests, (∀ token ∈ r.prompt, token < model.vocab) ∧
      ∀ step ∈ r.steps, step.1 < model.vocab) (s : Resident) :
    ∃ t, runRequests land model headmajor requests s = .ok t := by
  induction requests generalizing s with
  | nil => exact ⟨s, rfl⟩
  | cons r rest ih =>
    have hmem : r ∈ r :: rest := List.mem_cons_self
    have hprompt : 0 + r.prompt.length + padUnit ≤ maxSeq := by
      rw [zero_add]
      exact hroom r hmem
    obtain ⟨⟨filled, logits⟩, hprefill⟩ : ∃ t, prefillFrom land model r.prompt 0 s = .ok t :=
      prefillFrom_succeeds hshaped hmaxSeq hvocab (htokens r hmem).1 hprompt s
    obtain ⟨t₁, hsteps⟩ := runSteps_succeeds hshaped heven hmaxSeq headmajor (htokens r hmem).2
      (hfits r hmem) (if headmajor then
        transposeKvHeadmajor model (min r.prompt.length model.maxSeq) filled else filled)
    have hrequest : runRequest land model headmajor s r = .ok t₁ :=
      bind_eq_ok.mpr ⟨(_, logits), bind_eq_ok.mpr ⟨_, hprefill, rfl⟩, hsteps⟩
    obtain ⟨t, hrest⟩ := ih (fun r hr => hfits r (List.mem_cons_of_mem _ hr))
      (fun r hr => hroom r (List.mem_cons_of_mem _ hr))
      (fun r hr => htokens r (List.mem_cons_of_mem _ hr)) t₁
    refine ⟨t, ?_⟩
    rw [runRequests, List.foldlM_cons]
    exact bind_eq_ok.mpr ⟨t₁, hrequest, hrest⟩

end Succeeds

/-! ### Two widths of keys -/

/-- One layer with 64 dimensions to a head. -/
def oneLayer (embdBlocks heads kvHeads : ℕ) : Dims where
  layers := 1
  embdBlocks := embdBlocks
  heads := heads
  kvHeads := kvHeads
  headDim := 64
  attnBlocks := embdBlocks
  interBlocks := 1
  vocab := 3

theorem declared_oneLayer {embdBlocks heads kvHeads : ℕ} (hattn : heads * 64 = 256 * embdBlocks)
    (hkv : 0 < kvHeads) (hgroups : kvHeads ∣ heads) :
    Declared (sixBitGguf (oneLayer embdBlocks heads kvHeads))
      (uniformVkModel (oneLayer embdBlocks heads kvHeads)) :=
  declared_uniform hattn rfl (show 0 < 64 by decide) hkv hgroups (show 0 < 1 by decide)

/-- A buffer state nothing was written to. -/
def blank : Resident where
  kc := 0
  vc := 0
  dec := ⟨0, 0, 0, 0, 0, 0, 0, 0, 0, 0, 0, 0, 0⟩
  pf := ⟨0, 0, 0, 0, 0, 0, 0, 0, 0, 0, 0, 0, 0, 0, 0, 0, 0, 0⟩
  argmaxOut := 0
  lastRec := none

/-- A prompt filled token by token, and one filled at once. -/
def stepwise : KvRequest := ⟨[], [(0, .prefillStep)]⟩

def batched : KvRequest := ⟨[0], [(0, .forward)]⟩

theorem serves_oneLayer (embdBlocks heads kvHeads : ℕ) (hheads : 0 < heads)
    (hattn : heads * 64 = 256 * embdBlocks) (hkv : 0 < kvHeads) (hgroups : kvHeads ∣ heads)
    (headmajor : Bool) :
    ∃ t, runRequests id (uniformVkModel (oneLayer embdBlocks heads kvHeads)) headmajor
      ([stepwise] ++ [batched]) blank = .ok t :=
  runRequests_succeeds (shaped_of_load (vk_loads_uniform hheads)
      (declared_oneLayer hattn hkv hgroups)) ⟨32, rfl⟩ rfl headmajor (show 0 < 3 by decide)
    (by decide) (by decide) (show ∀ r ∈ [stepwise] ++ [batched], (∀ token ∈ r.prompt, token < 3) ∧
      ∀ step ∈ r.steps, step.1 < 3 by decide) blank

/-- Two key heads have whole tiles of columns. -/
theorem runRequests_mirrors_two_heads :
    ∃ model, VkModelWeights.load storedExactly defaultVkEnv (sixBitGguf (oneLayer 1 4 2)) =
        .ok model ∧
      ∃ h p, runRequests id model true ([stepwise] ++ [batched]) blank = .ok h ∧
        runRequests id model false ([stepwise] ++ [batched]) blank = .ok p ∧
        Mirrors model 2 h p := by
  have hload := vk_loads_uniform (d := oneLayer 1 4 2) (show 0 < 4 by decide)
  obtain ⟨h, hrun⟩ := serves_oneLayer 1 4 2 (by decide) rfl (by decide) ⟨2, rfl⟩ true
  obtain ⟨p, hrun', hmirrors⟩ := runRequests_mirrors hload (show 64 ≤ 64 by decide) id
    (by decide) (by decide) rfl hrun
  exact ⟨_, hload, h, p, hrun, hrun', hmirrors⟩

/-! ### A stale key -/

section StaleKey

variable {layer : VkLayer} {s : Resident} {m : ℕ}

theorem window_zero_apply {len i : ℕ} (f : Buf → Buf) (b : Buf) (hi : i < len) :
    window 0 len f b i = f b i := by
  simp only [window, zero_add]
  exact writeAt_zero_apply hi

/-- No rotation at position zero. -/
theorem ropeAt_zero {hd e : ℕ} {c sn x : Buf} (hc : ∀ j < hd / 2, c j = 1)
    (hs : ∀ j < hd / 2, sn j = 0) : ropeAt hd c sn x e = x e := by
  rw [ropeAt]
  split_ifs with hpair hfirst
  · rw [hc _ (by omega), hs _ (by omega), mul_one, mul_zero, sub_zero]
  · rw [hc _ (by omega), hs _ (by omega), mul_one, mul_zero, zero_add]
  · rfl

theorem cosTable_zero (j : ℕ) (hj : j < half model) : cosTable model j = 1 := by
  have hrow : cosTable model (0 * half model + j) = (shape model).cos 0 j := cosTable_row hj
  rw [zero_mul, zero_add] at hrow
  rw [hrow]
  simp [shape, RopeTables.cos, RopeTables.angle, plainTables]

theorem sinTable_zero (j : ℕ) (hj : j < half model) : sinTable model j = 0 := by
  have hrow : sinTable model (0 * half model + j) = (shape model).sin 0 j := sinTable_row hj
  rw [zero_mul, zero_add] at hrow
  rw [hrow]
  simp [shape, RopeTables.sin, RopeTables.angle, plainTables]

/-- A key column past the last whole tile of the first row stays what it was. -/
theorem prefillProject_stale {l col : ℕ} (hm : 128 ∣ m) (hpos : 0 < m)
    (hcol : kvDim model / 128 * 128 ≤ col) (hlt : col < kvDim model)
    (hcos : ∀ j < half model, s.pf.cosb j = 1) (hsin : ∀ j < half model, s.pf.sinb j = 0) :
    (prefillProject model 0 m l layer s).kc l col = s.kc l col := by
  have hrow : col / kvDim model = 0 := Nat.div_eq_of_lt hlt
  have hcol' : col % kvDim model = col := Nat.mod_eq_of_lt hlt
  have hwithin : col < m * kvDim model := hlt.trans_le (Nat.le_mul_of_pos_left _ hpos)
  simp only [prefillProject, Function.update_self, zero_mul]
  rw [window_zero_apply _ _ hwithin, brope,
    writeRows_apply (show col < m * (model.nKv * model.hd) from hwithin), ← kvDim, hrow, hcol']
  simp only [zero_mul, zero_add]
  rw [ropeAt_zero hcos hsin, window_zero_apply _ _ hwithin, coopmatQ4kGemm, Nat.div_mul_cancel hm,
    writeRows_apply hwithin, hcol', if_neg (by omega), hrow, zero_mul, zero_add]

variable (hlayers : model.layers = [layer])

include hlayers

/-- The first row of a tile from position zero, past the last whole tile of columns. -/
theorem runTile_stale {tokens : List ℕ} {col : ℕ} (hm : 0 < VkModel.paddedM tokens.length)
    (hcol : kvDim model / 128 * 128 ≤ col) (hlt : col < kvDim model) :
    (runTile land model tokens 0 s).kc 0 col = s.kc 0 col := by
  have hkc : (runTile land model tokens 0 s).kc 0 = (prefillProject model 0
      (VkModel.paddedM tokens.length) 0 layer
      (writeTile model tokens 0 (VkModel.paddedM tokens.length) s)).kc 0 := by
    rw [runTile, hlayers]
    rfl
  rw [hkc]
  have hrow {j : ℕ} (hj : j < half model) : j < VkModel.paddedM tokens.length * half model :=
    hj.trans_le (Nat.le_mul_of_pos_left _ hm)
  refine prefillProject_stale (VkModel.padUnit_dvd_paddedM _) hm hcol hlt (fun j hj => ?_)
    fun j hj => ?_
  · show writeAt 0 _ (fun i => cosTable model (0 * half model + i)) _ j = 1
    rw [writeAt_zero_apply (hrow hj), zero_mul, zero_add, cosTable_zero j hj]
  · show writeAt 0 _ (fun i => sinTable model (0 * half model + i)) _ j = 0
    rw [writeAt_zero_apply (hrow hj), zero_mul, zero_add, sinTable_zero j hj]

/-- The key row a call for one token writes. -/
theorem forwardStep_kc {token pos : ℕ} {call : TokenCall} {t : Resident}
    (hok : forwardStep model false token pos call s = .ok t) :
    t.kc 0 = kvWrite (kvDim model) (pos * kvDim model)
      (decodeProject model layer (writeToken model token pos s).dec).kBuf (s.kc 0) := by
  obtain ⟨_, -, hok⟩ := bind_eq_ok.mp hok
  obtain ⟨_, -, hok⟩ := bind_eq_ok.mp hok
  obtain ⟨last, -, hok⟩ := bind_eq_ok.mp hok
  obtain rfl := pure_eq_ok.mp hok
  unfold runToken
  rw [hlayers]
  dsimp only
  split_ifs <;> rfl

theorem forwardStep_kcHm {token pos : ℕ} {call : TokenCall} {t : Resident}
    (hok : forwardStep model true token pos call s = .ok t) :
    t.kc 0 = kvWriteHm (kvDim model) (pos * kvDim model) model.hd
      (decodeProject model layer (writeToken model token pos s).dec).kBuf (s.kc 0) := by
  obtain ⟨_, -, hok⟩ := bind_eq_ok.mp hok
  obtain ⟨_, -, hok⟩ := bind_eq_ok.mp hok
  obtain ⟨last, -, hok⟩ := bind_eq_ok.mp hok
  obtain rfl := pure_eq_ok.mp hok
  unfold runTokenHm
  rw [hlayers]
  dsimp only
  split_ifs <;> rfl

omit hlayers

theorem served_eq_ok (hmaxSeq : model.maxSeq = maxSeq) {headmajor : Bool} {t : Resident}
    (hok : runRequests land model headmajor ([stepwise] ++ [batched]) s = .ok t) :
    ∃ s₁ s₂, forwardStep model headmajor 0 0 .prefillStep s = .ok s₁ ∧
      s₂ = runTile land model [0] 0 s₁ ∧
      forwardStep model headmajor 0 1 .forward
        (if headmajor then transposeKvHeadmajor model 1 s₂ else s₂) = .ok t := by
  obtain ⟨s₁, hfirst, hok⟩ := bind_eq_ok.mp hok
  obtain ⟨t', hsecond, hok⟩ := bind_eq_ok.mp hok
  obtain rfl := pure_eq_ok.mp hok
  have hnone : prefillForward land model headmajor [] s = .ok (s, []) := by
    cases headmajor <;> rfl
  obtain ⟨a, hprefill, hsteps⟩ := bind_eq_ok.mp hfirst
  obtain rfl := Except.ok.inj (hnone.symm.trans hprefill)
  obtain ⟨t, hstep, hsteps⟩ := bind_eq_ok.mp hsteps
  obtain rfl := Except.ok.inj hsteps
  obtain ⟨b, hprefill', hsteps'⟩ := bind_eq_ok.mp hsecond
  obtain ⟨c, hchunks, hprefill'⟩ := bind_eq_ok.mp hprefill'
  obtain ⟨e, hinner, hchunks⟩ := bind_eq_ok.mp hchunks
  obtain ⟨_, -, hinner⟩ := bind_eq_ok.mp hinner
  obtain ⟨_, -, hinner⟩ := bind_eq_ok.mp hinner
  obtain ⟨_, -, hinner⟩ := bind_eq_ok.mp hinner
  obtain rfl := pure_eq_ok.mp hinner
  obtain rfl := Except.ok.inj hchunks
  obtain rfl := pure_eq_ok.mp hprefill'
  obtain ⟨t'', hstep', hsteps'⟩ := bind_eq_ok.mp hsteps'
  obtain rfl := Except.ok.inj hsteps'
  have hone : min batched.prompt.length model.maxSeq = 1 := by
    rw [hmaxSeq]
    rfl
  rw [hone] at hstep'
  exact ⟨_, _, hstep, rfl, hstep'⟩

end StaleKey

/-- Twelve query heads on three key heads: 192 columns of keys, of which 128 are whole tiles. -/
def threeKeyHeads : VkModelWeights := uniformVkModel (oneLayer 3 12 3)

def threeKeyHeadsLayer : VkLayer := uniformVkLayer (oneLayer 3 12 3)

theorem element_replicate {n i : ℕ} (hi : i < n) : element (List.replicate n 1) i = 1 := by
  rw [element, List.getD_eq_getElem _ _ (by rwa [List.length_replicate]), List.getElem_replicate,
    Rat.cast_one]

theorem decodeProject_normed {layer : VkLayer} {d : DecodeBuffers} {k : ℕ} (hk : k < model.nEmbd) :
    (decodeProject model layer d).normed k =
      d.x k * Gpu.normInv model.nEmbd model.eps d.x 0 * normWeight layer.attnNorm k := by
  show rmsnorm model.nEmbd model.eps (normWeight layer.attnNorm) d.x d.normed k = _
  rw [rmsnorm]
  exact writeAt_zero_apply hk

theorem decodeProject_even {layer : VkLayer} {d : DecodeBuffers} {i : ℕ}
    (hi : i < 2 * (kvDim model / 2)) (heven : i % 2 = 0) :
    let dot := rowDot layer.wk.values (embdBlocks model) (decodeProject model layer d).normed
    (decodeProject model layer d).kBuf i = dot i * d.cosBuf (i / 2 % half model) -
      dot (i + 1) * d.sinBuf (i / 2 % half model) := by
  show matvecRope (kvDim model) (embdBlocks model) (half model) layer.wk.values d.cosBuf d.sinBuf
    (decodeProject model layer d).normed d.kBuf i = _
  rw [matvecRope]
  exact (writeAt_zero_apply hi).trans (if_pos heven)

/-- Of an embedding of ones the norm is positive everywhere. -/
theorem normed_pos (s : Resident) {k : ℕ} (hk : k < threeKeyHeads.nEmbd) :
    0 < (decodeProject threeKeyHeads threeKeyHeadsLayer
      (writeToken threeKeyHeads 0 0 s).dec).normed k := by
  have hx : (writeToken threeKeyHeads 0 0 s).dec.x k = 1 := by
    have hrow : (writeToken threeKeyHeads 0 0 s).dec.x k = tokenRow threeKeyHeads 0 k :=
      writeAt_zero_apply hk
    rw [hrow, tokenRow, zero_mul, zero_add]
    exact element_replicate (hk.trans_le (show 768 ≤ 3 * 768 by decide))
  have hw : normWeight threeKeyHeadsLayer.attnNorm k = 1 := element_replicate hk
  have heps : (0 : ℝ) < threeKeyHeads.eps := by norm_num [threeKeyHeads, uniformVkModel]
  rw [decodeProject_normed hk, hx, hw, one_mul, mul_one, Gpu.normInv]
  refine one_div_pos.mpr (Real.sqrt_pos.mpr (add_pos_of_nonneg_of_pos ?_ heps))
  exact div_nonneg (sum_nonneg fun i _ => mul_self_nonneg _) (Nat.cast_nonneg _)

/-- The first dimension of the third head's key at position zero is not zero. -/
theorem key_pos (s : Resident) :
    0 < (decodeProject threeKeyHeads threeKeyHeadsLayer
      (writeToken threeKeyHeads 0 0 s).dec).kBuf 128 := by
  have hinputs : TokenInputs threeKeyHeads 0 (writeToken threeKeyHeads 0 0 s).dec :=
    writeToken_inputs 0 0 s
  have hcos : (shape threeKeyHeads).cos 0 0 = 1 := by
    simp [shape, RopeTables.cos, RopeTables.angle, plainTables]
  have hsin : (shape threeKeyHeads).sin 0 0 = 0 := by
    simp [shape, RopeTables.sin, RopeTables.angle, plainTables]
  have hpair : 128 / 2 % half threeKeyHeads = 0 := by decide
  rw [decodeProject_even (by decide) (by decide), hpair, hinputs.cosBuf 0 (by decide),
    hinputs.sinBuf 0 (by decide), hcos, hsin, mul_one, mul_zero, sub_zero, rowDot]
  refine sum_pos (fun k hk => mul_pos ?_ (normed_pos s (mem_range.mp hk)))
    ⟨0, mem_range.mpr (by decide)⟩
  have hone : element threeKeyHeadsLayer.wk.values (128 * (256 * embdBlocks threeKeyHeads) + k) = 1 := by
    refine element_replicate ?_
    have hk := mem_range.mp hk
    have hwidth : 256 * embdBlocks threeKeyHeads = 768 := by decide
    rw [hwidth] at hk ⊢
    show 128 * 768 + k < 192 * 768
    omega
  rw [hone]
  exact one_pos

/-- In the tail of the columns the first request's key stays in one layout and not in the other. -/
theorem runRequests_stale_key :
    ∃ model, VkModelWeights.load storedExactly defaultVkEnv (sixBitGguf (oneLayer 3 12 3)) =
        .ok model ∧ model.hd ≤ 64 ∧ 0 < model.layers.length ∧
      (∀ r ∈ [stepwise] ++ [batched], r.Fits) ∧
      ∃ h p, runRequests id model true ([stepwise] ++ [batched]) blank = .ok h ∧
        runRequests id model false ([stepwise] ++ [batched]) blank = .ok p ∧
        ¬SameCells model batched.length (h.kc 0) (p.kc 0) := by
  have hload : VkModelWeights.load storedExactly defaultVkEnv (sixBitGguf (oneLayer 3 12 3)) =
      .ok threeKeyHeads := vk_loads_uniform (show 0 < 12 by decide)
  obtain ⟨h, hrun⟩ : ∃ h, runRequests id threeKeyHeads true ([stepwise] ++ [batched]) blank = .ok h :=
    serves_oneLayer 3 12 3 (by decide) rfl (by decide) ⟨4, rfl⟩ true
  obtain ⟨p, hrun'⟩ :
      ∃ p, runRequests id threeKeyHeads false ([stepwise] ++ [batched]) blank = .ok p :=
    serves_oneLayer 3 12 3 (by decide) rfl (by decide) ⟨4, rfl⟩ false
  have hlayers : threeKeyHeads.layers = [threeKeyHeadsLayer] := rfl
  have htile (s : Resident) : (runTile id threeKeyHeads [0] 0 s).kc 0 128 = s.kc 0 128 :=
    runTile_stale hlayers (by decide) (by decide) (by decide)
  have hkept : p.kc 0 128 = (decodeProject threeKeyHeads threeKeyHeadsLayer
      (writeToken threeKeyHeads 0 0 blank).dec).kBuf 128 := by
    obtain ⟨s₁, s₂, hfirst, rfl, hsecond⟩ := served_eq_ok rfl hrun'
    rw [if_neg Bool.false_ne_true] at hsecond
    have hother : ¬(1 * kvDim threeKeyHeads ≤ 128 ∧
        128 < 1 * kvDim threeKeyHeads + kvDim threeKeyHeads) := by decide
    have hrow : 0 * kvDim threeKeyHeads ≤ 128 ∧
        128 < 0 * kvDim threeKeyHeads + kvDim threeKeyHeads := by decide
    rw [forwardStep_kc hlayers hsecond, kvWrite, writeAt, if_neg hother, htile,
      forwardStep_kc hlayers hfirst, kvWrite, writeAt, if_pos hrow, zero_mul, Nat.sub_zero]
  have hlost : h.kc 0 (hmCell 64 2 0 0) = 0 := by
    obtain ⟨s₁, s₂, hfirst, rfl, hsecond⟩ := served_eq_ok rfl hrun
    rw [if_pos rfl] at hsecond
    have hunwritten : s₁.kc 0 128 = 0 := by
      rw [forwardStep_kcHm hlayers hfirst]
      refine (kvWriteHm_apply (show 0 < maxSeq by decide) (show 0 < threeKeyHeads.nKv by decide)
        (show 2 < maxSeq by decide) (show 0 < threeKeyHeads.hd by decide)).trans ?_
      exact if_neg (show ¬2 = 0 by decide)
    rw [forwardStep_kcHm hlayers hsecond]
    refine (kvWriteHm_apply (show 1 < maxSeq by decide) (show 2 < threeKeyHeads.nKv by decide)
      (show 0 < maxSeq by decide) (show 0 < threeKeyHeads.hd by decide)).trans ?_
    refine (if_neg (show ¬0 = 1 by decide)).trans ?_
    refine (transposeKvHeadmajor_apply (show 1 ≤ maxSeq by decide)
      (show 0 < threeKeyHeads.layers.length by decide) (show 0 < 1 by decide)
      (show 2 < threeKeyHeads.nKv by decide) (show 0 < threeKeyHeads.hd by decide) _).1.trans ?_
    exact (htile s₁).trans hunwritten
  refine ⟨threeKeyHeads, hload, show 64 ≤ 64 by decide, by decide, by decide, h, p, hrun, hrun',
    fun hsame => ?_⟩
  have hcell : h.kc 0 (hmCell 64 2 0 0) = p.kc 0 128 :=
    hsame 0 (by decide) 2 (by decide) 0 (by decide)
  have hpos := key_pos blank
  rw [← hkept, ← hcell, hlost] at hpos
  exact lt_irrefl 0 hpos

end Zllm.Vulkan.VkPass
