import Zllm.Gpu.BatchedPrefill
import Zllm.Loader.UniformGguf

/-!
# When batched prefill is token-by-token prefill

The two ways of feeding a prompt agree exactly as far as the device accepts the dispatches of the
batched pass. Its element-wise launches put one thread on each element of a whole tile in one
dimension, which a matrix launch never does.
-/

namespace Zllm.Gpu.SingleStream

open Tile Loader Llama CausalTower Outcome

variable (model : GpuModel)

/-! ### The property -/

/-- A prompt's tokens one after the other, with the logits of the last. -/
noncomputable def forwardAll : ℕ → List ℕ → GpuState × List ℝ →
    Except GpuError (GpuState × List ℝ)
  | _, [], r => .ok r
  | pos, token :: rest, r => do
    let r ← forward model token pos r.1
    forwardAll (pos + 1) rest r

/-- A call that continues a stream. -/
inductive DecodeCall where
  | forward (token : ℕ)
  | forwardArgmax (token : ℕ)

inductive DecodeReply where
  | logits (logits : List ℝ)
  | token (token : ℕ)

noncomputable def DecodeCall.run (pos : ℕ) (s : GpuState) :
    DecodeCall → Except GpuError (GpuState × DecodeReply)
  | .forward token => do
    let r ← SingleStream.forward model token pos s
    return (r.1, .logits r.2)
  | .forwardArgmax token => do
    let r ← SingleStream.forwardArgmax model token pos s
    return (r.1, .token r.2)

/-- What a caller reads from calls at consecutive positions. -/
noncomputable def replies : ℕ → List DecodeCall → GpuState → Except GpuError (List DecodeReply)
  | _, [], _ => .ok []
  | pos, call :: rest, s => do
    let r ← call.run model pos s
    let others ← replies (pos + 1) rest r.1
    return r.2 :: others

/-- Two ways of feeding `len` tokens leave the same rows in every layer's cache, the same logits,
and the same answers to whatever is asked next. -/
structure SameOutcome (len : ℕ) (a b : GpuState × List ℝ) : Prop where
  keys : ∀ l < model.layers.length, ∀ i < len, ∀ j < kvDim model,
    a.1.kCache l (i * kvDim model + j) = b.1.kCache l (i * kvDim model + j)
  values : ∀ l < model.layers.length, ∀ i < len, ∀ j < kvDim model,
    a.1.vCache l (i * kvDim model + j) = b.1.vCache l (i * kvDim model + j)
  logits : a.2 = b.2
  continuation : ∀ calls, replies model len calls a.1 = replies model len calls b.1

/-- Batched prefill from `s` against the tokens one by one from `s'`. -/
def PrefillAgrees (prompt : List ℕ) (s s' : GpuState) : Prop :=
  ∃ a b, prefillForward model prompt s = .ok a ∧ forwardAll model 0 prompt (s', []) = .ok b ∧
    SameOutcome model prompt.length a b

variable {model}

/-! ### The token-by-token pass needs no more than the batched one -/

theorem line_fits_mono {a b : ℕ} (hle : a ≤ b) (hb : (Launch.line (b ⌈/⌉ 64)).Fits) :
    (Launch.line (a ⌈/⌉ 64)).Fits := by
  refine le_trans ?_ hb
  rw [ceilDiv_le_iff_le_mul (show 0 < 64 by norm_num)]
  exact hle.trans (le_smul_ceilDiv (show 0 < 64 by norm_num))

theorem decodeLaunches_fit {m : ℕ} {layer : GpuLayer} (heven : Even model.headDim) (hm : 1 ≤ m)
    (hfits : ∀ launch ∈ prefillLaunches model m layer, launch.Fits) :
    ∀ launch ∈ decodeLaunches model layer, launch.Fits := by
  have hone : (Launch.line 1).Fits := by decide
  have hhalf : ∀ n, n * model.headDim / 2 ≤ m * n * half model := by
    intro n
    obtain ⟨c, hc⟩ := heven
    rw [half, hc, ← two_mul, Nat.mul_div_cancel_left _ (by norm_num), mul_left_comm,
      Nat.mul_div_cancel_left _ (by norm_num), mul_assoc]
    exact Nat.le_mul_of_pos_left _ hm
  simp only [prefillLaunches, decodeLaunches, List.forall_mem_cons, List.not_mem_nil,
    false_imp_iff, implies_true, and_true] at hfits ⊢
  obtain ⟨-, hq, hk, hv, hropeQ, hropeK, hsdpa, ho, -, h1, h3, -, h2⟩ := hfits
  exact ⟨hone, hq, hk, hv, line_fits_mono (hhalf _) hropeQ, line_fits_mono (hhalf _) hropeK,
    line_fits_mono (Nat.le_mul_of_pos_left _ hm) hsdpa, ho, hone, h1, h3, h2⟩

theorem forwardLaunches_fit {m : ℕ} (heven : Even model.headDim) (hm : 1 ≤ m)
    (hfits : ∀ launch ∈ prefillForwardLaunches model m, launch.Fits) :
    ∀ launch ∈ forwardLaunches model, launch.Fits := by
  rw [prefillForwardLaunches, List.forall_mem_append, List.forall_mem_flatMap] at hfits
  rw [forwardLaunches, List.forall_mem_append, List.forall_mem_flatMap]
  refine ⟨fun layer hmem => decodeLaunches_fit heven hm (hfits.1 layer hmem), ?_⟩
  have hone : (Launch.line 1).Fits := by decide
  simp only [headLaunches, List.forall_mem_cons, List.not_mem_nil, false_imp_iff, implies_true,
    and_true] at hfits ⊢
  exact ⟨hone, hfits.2.2⟩

/-! ### Tokens one by one -/

theorem readBuffer_eq {buf buf' : Buf} {n : ℕ} (hbuf : cut n buf = cut n buf') :
    readBuffer buf n = readBuffer buf' n := by
  refine List.map_congr_left fun j hj => ?_
  have hj := List.mem_range.mp hj
  rw [← cut_apply (f := buf) hj, hbuf, cut_apply hj]

theorem readBuffer_cut (buf : Buf) (n : ℕ) : readBuffer (cut n buf) n = readBuffer buf n :=
  readBuffer_eq (cut_cut n buf)

/-- Rows of a stream, as far as a list of tokens feeds them. -/
def Feeds (model : GpuModel) (rows : ℕ → ℕ → ℝ) (pos : ℕ) (tokens : List ℕ) : Prop :=
  ∀ k token, tokens[k]? = some token → rows (pos + k) = cut model.nEmbd (tokenRow model token)

theorem forwardAll_follows (hshaped : Shaped model) (heven : Even model.headDim)
    (hloaded : Loaded model) (hfits : ∀ launch ∈ forwardLaunches model, launch.Fits)
    {init : ℕ → ℕ → (ℕ → ℝ) × (ℕ → ℝ)} {rows : ℕ → ℕ → ℝ} {tokens : List ℕ} {pos : ℕ}
    {r : GpuState × List ℝ} (hvocab : ∀ token ∈ tokens, token < model.vocab)
    (hrows : Feeds model rows pos tokens) (hlast : pos + tokens.length ≤ model.maxSeq)
    (hfollows : Follows (tower model) 0 init rows model.layers.length pos (caches model r.1)) :
    ∃ b, forwardAll model pos tokens r = .ok b ∧
      Follows (tower model) 0 init rows model.layers.length (pos + tokens.length)
        (caches model b.1) ∧
      (tokens ≠ [] → b.2 = readBuffer (headLogits model (trace (tower model) 0 init rows
        model.layers.length (pos + (tokens.length - 1)))) model.vocab) := by
  have hvalid := hshaped.valid heven
  induction tokens generalizing pos r with
  | nil => exact ⟨r, rfl, hfollows, fun hnil => absurd rfl hnil⟩
  | cons token rest ih =>
    rw [List.length_cons] at hlast
    have hrow : cut model.nEmbd (tokenRow model token) = rows pos := (hrows 0 token rfl).symm
    have hembed : (token + 1) * model.nEmbd ≤ model.embed.length := by
      rw [hshaped.embed]
      exact Nat.mul_le_mul_right _ (hvocab token List.mem_cons_self)
    have hslice : pos * half model + half model ≤ model.maxSeq * half model := by
      rw [← Nat.succ_mul]
      exact Nat.mul_le_mul_right _ (by omega)
    obtain ⟨t, ht⟩ : ∃ t, t = runToken model (tokenRow model token) pos r.1 := ⟨_, rfl⟩
    have hforward : forward model token pos r.1 = .ok (t, readBuffer t.logits model.vocab) :=
      bind_eq_ok.mpr ⟨t, recordForward_eq_ok.mpr ⟨hembed, hslice, hfits, ht.symm⟩, rfl⟩
    have hcaches := runToken_caches hvalid hshaped.layers (tokenRow model token) pos r.1
    have hlogits := runToken_logits hvalid hshaped.layers (tokenRow model token) pos r.1 hloaded
    rw [hrow, ← ht] at hcaches hlogits
    obtain ⟨hnext, hout⟩ := tokenPass_follows (Nat.zero_le pos) hfollows
    rw [← hcaches] at hnext
    rw [hout] at hlogits
    obtain ⟨b, hb, hend, hlast'⟩ := ih (r := (t, readBuffer t.logits model.vocab))
      (fun token' hmem => hvocab token' (List.mem_cons_of_mem _ hmem))
      (fun k token' htoken' => by
        rw [← hrows (k + 1) token' htoken']
        congr 1
        omega) (by omega) hnext
    refine ⟨b, bind_eq_ok.mpr ⟨_, hforward, hb⟩, ?_, fun _ => ?_⟩
    · rw [List.length_cons, show pos + (rest.length + 1) = pos + 1 + rest.length by omega]
      exact hend
    · cases rest with
      | nil =>
        cases hb
        show readBuffer t.logits model.vocab = _
        rw [← readBuffer_cut, hlogits]
        rfl
      | cons token' rest' =>
        have hindex : pos + 1 + ((token' :: rest').length - 1) =
            pos + ((token :: token' :: rest').length - 1) := by
          simp only [List.length_cons]
          omega
        rw [hlast' (List.cons_ne_nil _ _), hindex]

/-! ### Continuations -/

/-- The caches hold the same rows below a position. -/
def SameBelow (model : GpuModel) (pos : ℕ) (s s' : GpuState) : Prop :=
  ∀ l < model.layers.length, ∀ i < pos, caches model s l i = caches model s' l i

theorem recordForward_same (hshaped : Shaped model) (heven : Even model.headDim)
    (hloaded : Loaded model) {token pos : ℕ} {s s' t t' : GpuState} (hsame : SameBelow model pos s s')
    (ht : recordForward model token pos s = .ok t)
    (ht' : recordForward model token pos s' = .ok t') :
    SameBelow model (pos + 1) t t' ∧ cut model.vocab t.logits = cut model.vocab t'.logits := by
  have hvalid := hshaped.valid heven
  obtain ⟨-, -, -, rfl⟩ := recordForward_eq_ok.mp ht
  obtain ⟨-, -, -, rfl⟩ := recordForward_eq_ok.mp ht'
  obtain ⟨hcaches, hrow⟩ := tokenPass_congr (tower model)
    (cut model.nEmbd (tokenRow model token)) hsame
  rw [SameBelow, runToken_caches hvalid hshaped.layers, runToken_caches hvalid hshaped.layers,
    runToken_logits hvalid hshaped.layers _ _ _ hloaded,
    runToken_logits hvalid hshaped.layers _ _ _ hloaded, hrow]
  exact ⟨hcaches, rfl⟩

theorem DecodeCall.run_same (hshaped : Shaped model) (heven : Even model.headDim)
    (hloaded : Loaded model) (call : DecodeCall) {pos : ℕ} {s s' : GpuState}
    (hsame : SameBelow model pos s s') :
    (∃ e, call.run model pos s = .error e ∧ call.run model pos s' = .error e) ∨
      ∃ r r', call.run model pos s = .ok r ∧ call.run model pos s' = .ok r' ∧
        SameBelow model (pos + 1) r.1 r'.1 ∧ r.2 = r'.2 := by
  have hcases : ∀ token, (∃ e, recordForward model token pos s = .error e ∧
        recordForward model token pos s' = .error e) ∨
      ∃ t t', recordForward model token pos s = .ok t ∧ recordForward model token pos s' = .ok t' ∧
        SameBelow model (pos + 1) t t' ∧ cut model.vocab t.logits = cut model.vocab t'.logits := by
    intro token
    cases ht : recordForward model token pos s with
    | error e => exact .inl ⟨e, rfl, (recordForward_error_iff s s').mp ht⟩
    | ok t =>
      cases ht' : recordForward model token pos s' with
      | error e => rw [(recordForward_error_iff s' s).mp ht'] at ht; cases ht
      | ok t' => exact .inr ⟨t, t', rfl, rfl, recordForward_same hshaped heven hloaded hsame ht ht'⟩
  cases call with
  | forward token =>
    rcases hcases token with ⟨e, he, he'⟩ | ⟨t, t', ht, ht', hnext, hlogits⟩
    · exact .inl ⟨e, by simp [DecodeCall.run, SingleStream.forward, he],
        by simp [DecodeCall.run, SingleStream.forward, he']⟩
    · refine .inr ⟨(t, .logits _), (t', .logits _), bind_eq_ok.mpr ⟨_, bind_eq_ok.mpr ⟨t, ht, rfl⟩,
        rfl⟩, bind_eq_ok.mpr ⟨_, bind_eq_ok.mpr ⟨t', ht', rfl⟩, rfl⟩, hnext, ?_⟩
      exact congrArg DecodeReply.logits (readBuffer_eq hlogits)
  | forwardArgmax token =>
    rcases hcases token with ⟨e, he, he'⟩ | ⟨t, t', ht, ht', hnext, hlogits⟩
    · exact .inl ⟨e, by simp [DecodeCall.run, SingleStream.forwardArgmax, he],
        by simp [DecodeCall.run, SingleStream.forwardArgmax, he']⟩
    · refine .inr ⟨(t, .token _), (t', .token _), bind_eq_ok.mpr ⟨_, bind_eq_ok.mpr ⟨t, ht, rfl⟩,
        rfl⟩, bind_eq_ok.mpr ⟨_, bind_eq_ok.mpr ⟨t', ht', rfl⟩, rfl⟩, hnext, ?_⟩
      refine congrArg DecodeReply.token (argmax_congr fun k hk => ?_)
      rw [← cut_apply (f := t.logits) hk, hlogits, cut_apply hk]

theorem replies_same (hshaped : Shaped model) (heven : Even model.headDim)
    (hloaded : Loaded model) {calls : List DecodeCall} {pos : ℕ} {s s' : GpuState}
    (hsame : SameBelow model pos s s') : replies model pos calls s = replies model pos calls s' := by
  induction calls generalizing pos s s' with
  | nil => rfl
  | cons call rest ih =>
    rw [replies, replies]
    rcases call.run_same hshaped heven hloaded hsame with
      ⟨e, he, he'⟩ | ⟨r, r', hr, hr', hnext, hreply⟩
    · rw [he, he']
    · rw [hr, hr']
      show (replies model (pos + 1) rest r.1 >>= fun others => pure (r.2 :: others)) =
        (replies model (pos + 1) rest r'.1 >>= fun others => pure (r'.2 :: others))
      rw [ih hnext, hreply]

/-! ### The two ways of feeding a prompt -/

theorem SameBelow.rows {len : ℕ} {s s' : GpuState} (hsame : SameBelow model len s s') {l i j : ℕ}
    (hl : l < model.layers.length) (hi : i < len) (hj : j < kvDim model) :
    s.kCache l (i * kvDim model + j) = s'.kCache l (i * kvDim model + j) ∧
      s.vCache l (i * kvDim model + j) = s'.vCache l (i * kvDim model + j) := by
  obtain ⟨hkey, hvalue⟩ := Prod.ext_iff.mp (hsame l hl i hi)
  have hkey := congrFun hkey j
  have hvalue := congrFun hvalue j
  simp only [caches, row_apply hj] at hkey hvalue
  exact ⟨hkey, hvalue⟩

/-- Batched prefill follows the stream from its start, whatever the caches held. -/
theorem prefillForward_follows (hshaped : Shaped model) (heven : Even model.headDim)
    (hloaded : Loaded model) {init : ℕ → ℕ → (ℕ → ℝ) × (ℕ → ℝ)} {rows : ℕ → ℕ → ℝ}
    {prompt : List ℕ} {s : GpuState} {a : GpuState × List ℝ} (hrows : Feeds model rows 0 prompt)
    (ha : prefillForward model prompt s = .ok a) :
    Follows (tower model) 0 init rows model.layers.length prompt.length (caches model a.1) ∧
      a.2 = readBuffer (headLogits model (trace (tower model) 0 init rows model.layers.length
        (prompt.length - 1))) model.vocab := by
  have hvalid := hshaped.valid heven
  obtain ⟨⟨hpos, hm⟩, -, -, -, rfl⟩ := prefillForward_eq_ok.mp ha
  set xHost := gatherRows model (prompt.map (tokenRow model))
  have htile : ∀ r < prompt.length, tileRows model (writePrompt model prompt.length xHost
      (s.prefillCache.getD buildPrefillCache)) r = rows (0 + r) := by
    intro r hr
    have htoken := List.getElem?_eq_getElem hr
    rw [tileRows_writePrompt htoken, hrows r _ htoken]
  obtain ⟨hcaches, hout⟩ := tilePass_follows le_rfl le_rfl htile
    (follows_zero (tower model) init rows model.layers.length (caches model s))
  rw [← runPrompt_caches hvalid hshaped.layers hloaded hm, zero_add] at hcaches
  refine ⟨hcaches, ?_⟩
  rw [← readBuffer_cut, runPrompt_logits hvalid hshaped.layers hloaded hm hpos,
    hout _ (by omega), zero_add]

/-- For a loaded model and a prompt of tokens of its vocabulary, batched prefill and the tokens one
by one can only agree where the device takes every dispatch of the batched pass, and there, if the
tensors are of the shapes the metadata declare, they do. -/
theorem prefill_agrees_iff {quantize : GgmlDType → List ℚ → List ℚ} {env : GpuEnv} {gguf : Gguf}
    (hload : GpuModel.load quantize env gguf = .ok model)
    (hwidth : Even model.headDim ∧ model.headDim ≤ 128) {prompt : List ℕ}
    (hlength : 1 ≤ prompt.length ∧ prompt.length ≤ 512)
    (hvocab : ∀ token ∈ prompt, token < model.vocab) (s s' : GpuState) :
    (PrefillAgrees model prompt s s' →
        ∀ launch ∈ prefillForwardLaunches model prompt.length, launch.Fits) ∧
      (Shaped model → (∀ launch ∈ prefillForwardLaunches model prompt.length, launch.Fits) →
        PrefillAgrees model prompt s s') := by
  have hloaded := loaded_of_load hload
  constructor
  · rintro ⟨a, b, ha, -, -⟩
    exact (prefillForward_eq_ok.mp ha).2.2.2.1
  · intro hshaped hfits
    have hvalid := hshaped.valid hwidth.1
    have hfits' := forwardLaunches_fit hwidth.1 hlength.1 hfits
    have hmaxSeq : prompt.length ≤ model.maxSeq := by
      rw [hloaded.maxSeq]
      exact hlength.2.trans (by decide)
    set rows : ℕ → ℕ → ℝ := fun i => cut model.nEmbd (tokenRow model (prompt.getD i 0)) with hrows
    have hfeeds : Feeds model rows 0 prompt := by
      intro k token htoken
      rw [zero_add, hrows]
      simp only [List.getD_eq_getElem?_getD, htoken, Option.getD_some]
    obtain ⟨b, hb, hbFollows, hbLogits⟩ := forwardAll_follows hshaped hwidth.1 hloaded hfits'
      (r := (s', [])) hvocab hfeeds (by omega) (follows_zero _ (caches model s) _ _ _)
    rw [zero_add] at hbFollows hbLogits
    obtain ⟨a, ha⟩ : ∃ a, prefillForward model prompt s = .ok a := by
      refine ⟨_, prefillForward_eq_ok.mpr ⟨hlength, fun token htoken => ?_, ?_, hfits, rfl⟩⟩
      · rw [hshaped.embed]
        exact Nat.mul_le_mul_right _ (hvocab token htoken)
      · exact Nat.mul_le_mul_right _ hmaxSeq
    obtain ⟨haFollows, haLogits⟩ := prefillForward_follows hshaped hwidth.1 hloaded hfeeds ha
    have hsame : SameBelow model prompt.length a.1 b.1 := fun l hl i hi =>
      (haFollows l hl i hi).trans (hbFollows l hl i hi).symm
    have hne : prompt ≠ [] := List.ne_nil_of_length_pos hlength.1
    exact ⟨a, b, ha, hb, fun l hl i hi j hj => (hsame.rows hl hi hj).1,
      fun l hl i hi j hj => (hsame.rows hl hi hj).2, haLogits.trans (hbLogits hne).symm,
      fun calls => replies_same hshaped hwidth.1 hloaded hsame⟩

/-! ### Two sizes of model -/

/-- A file whose attention rows are whole blocks, in whole groups of heads, has declared shapes. -/
theorem shaped_uniform {d : Dims} (hattn : d.heads * d.headDim = 256 * d.attnBlocks)
    (hheadDim : 0 < d.headDim) (hkv : 0 < d.kvHeads) (hgroups : d.kvHeads ∣ d.heads) :
    Shaped (uniformGpuModel d) where
  headDim_pos := hheadDim
  nKvHead_pos := hkv
  nKvHead_dvd := hgroups
  embed := List.length_replicate
  layers layer hlayer := by
    obtain rfl := List.eq_of_mem_replicate hlayer
    exact ⟨⟨rfl, rfl⟩, ⟨rfl, rfl⟩, ⟨rfl, rfl⟩, ⟨rfl, hattn.symm⟩, ⟨rfl, rfl⟩, ⟨rfl, rfl⟩,
      ⟨rfl, rfl⟩⟩

/-- A layer of width 256 with two query heads on one key head. -/
def smallDims : Dims where
  layers := 2
  embdBlocks := 1
  heads := 2
  kvHeads := 1
  headDim := 128
  attnBlocks := 1
  interBlocks := 2
  vocab := 4

/-- The widths of a one-billion-parameter Llama. -/
def billionDims : Dims where
  layers := 16
  embdBlocks := 8
  heads := 32
  kvHeads := 8
  headDim := 64
  attnBlocks := 8
  interBlocks := 32
  vocab := 128256

theorem prefillLaunches_small :
    ∀ launch ∈ prefillForwardLaunches (uniformGpuModel smallDims) 3, launch.Fits := by
  decide

/-- The small model takes a prompt of three tokens in one batch as it takes them one by one. -/
theorem prefill_agrees_small :
    ∃ model, GpuModel.load storedExactly defaultGpuEnv (uniformGguf smallDims) = .ok model ∧
      ∀ s s', PrefillAgrees model [3, 0, 3] s s' :=
  ⟨_, gpu_loads_uniform (d := smallDims) (by decide), fun s s' =>
    (prefill_agrees_iff (gpu_loads_uniform (d := smallDims) (by decide)) ⟨by decide, by decide⟩
      (show 1 ≤ [3, 0, 3].length ∧ [3, 0, 3].length ≤ 512 by decide) (by decide) s s').2
      (shaped_uniform (by decide) (by decide) (by decide) (by decide)) prefillLaunches_small⟩

/-- With 8192 hidden units the longest prompt's activation launch is one workgroup too wide. -/
theorem prefillLaunches_billion :
    Launch.line ((512 * (256 * 32)) ⌈/⌉ 64) ∈
      prefillForwardLaunches (uniformGpuModel billionDims) 512 := by
  refine List.mem_append_left _ (List.mem_flatMap.mpr ⟨uniformGpuLayer billionDims, ?_, ?_⟩)
  · exact List.mem_replicate.mpr ⟨by decide, rfl⟩
  · exact List.mem_of_getElem? (i := 11) rfl

theorem activation_not_fits : ¬(Launch.line ((512 * (256 * 32)) ⌈/⌉ 64)).Fits := by decide

theorem forwardLaunches_billion :
    ∀ launch ∈ forwardLaunches (uniformGpuModel billionDims), launch.Fits := by
  rw [forwardLaunches, List.forall_mem_append, List.forall_mem_flatMap]
  refine ⟨fun layer hlayer => ?_, by decide⟩
  rw [List.eq_of_mem_replicate hlayer]
  decide

/-- The longest prompt, which the one-billion-parameter model takes token by token, it does not take
in one batch. -/
theorem prefill_refused_billion :
    ∃ model, GpuModel.load storedExactly defaultGpuEnv (uniformGguf billionDims) = .ok model ∧
      (Even model.headDim ∧ model.headDim ≤ 128) ∧
      ∃ prompt : List ℕ, (1 ≤ prompt.length ∧ prompt.length ≤ 512) ∧
        (∀ token ∈ prompt, token < model.vocab) ∧
        ∀ s s', (∃ b, forwardAll model 0 prompt (s', []) = .ok b) ∧
          ¬PrefillAgrees model prompt s s' := by
  have hload := gpu_loads_uniform (d := billionDims) (by decide)
  have hshaped : Shaped (uniformGpuModel billionDims) :=
    shaped_uniform (by decide) (by decide) (by decide) (by decide)
  have hvocab : ∀ token ∈ List.replicate 512 0, token < (uniformGpuModel billionDims).vocab := by
    intro token htoken
    rw [List.eq_of_mem_replicate htoken]
    decide
  refine ⟨_, hload, by decide, List.replicate 512 0,
    by rw [List.length_replicate]; decide, hvocab, fun s s' => ⟨?_, ?_⟩⟩
  · have hfeeds : Feeds (uniformGpuModel billionDims)
        (fun _ => cut (uniformGpuModel billionDims).nEmbd (tokenRow (uniformGpuModel billionDims) 0))
        0 (List.replicate 512 0) := by
      intro k token htoken
      rw [List.eq_of_mem_replicate (List.mem_of_getElem? htoken)]
    obtain ⟨b, hb, -⟩ := forwardAll_follows hshaped (by decide) (loaded_of_load hload)
      forwardLaunches_billion (r := (s', [])) hvocab hfeeds
      (by rw [List.length_replicate]; decide) (follows_zero _ (fun _ _ => (0, 0)) _ _ _)
    exact ⟨b, hb⟩
  · rintro ⟨a, b, ha, -, -⟩
    have hfits := (prefillForward_eq_ok.mp ha).2.2.2.1
    rw [List.length_replicate] at hfits
    exact activation_not_fits (hfits _ prefillLaunches_billion)

end Zllm.Gpu.SingleStream
