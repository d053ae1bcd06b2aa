import Zllm.Vulkan.DeclaredShapes
import Zllm.Vulkan.HeadMajor

/-!
# Head-major and position-major runs side by side

The same requests on the same model in both modes. Until its caches are rearranged a prefill goes
the same way in both, so long as it writes every row it reads, and decoding keeps each cell of the
one layout equal to the cell of the other.
-/

namespace Zllm.Vulkan.VkPass

open Finset Tile Loader Softmax CausalTower Outcome
open Gpu (Buf GpuError brope ropeAt)

variable {model : VkModelWeights} {h p : Resident}

/-! ### What the modes have in common -/

/-- A recorded command is that of its key, and each of its grids has workgroups. -/
def RecordedOver (model : VkModelWeights) (lastRec : Option (ℕ × Recording)) : Prop :=
  ∀ last, lastRec = some last → (last.1 = last.2.key ∧ last.2.flashBlocks < 2 ^ 20) ∧
    ∀ n ∈ forwardGrids model last.2.lm, 0 < n

/-- All scratch of decoding is the same but the partials, which only one mode may have. -/
def Twin (d d' : DecodeBuffers) : Prop := d' = { d with part := d'.part, superp := d'.superp }

/-- All but the caches. -/
structure Alike (model : VkModelWeights) (h p : Resident) : Prop where
  pf : h.pf = p.pf
  dec : Twin h.dec p.dec
  argmaxOut : h.argmaxOut = p.argmaxOut
  headMajor : RecordedOver model h.lastRec
  posMajor : RecordedOver model p.lastRec

/-- The cells of one layout at positions below `n` hold what those of the other do. -/
def SameCells (model : VkModelWeights) (n : ℕ) (b b' : Buf) : Prop :=
  ∀ t < n, ∀ g < model.nKv, ∀ d < model.hd,
    b (hmCell model.hd g t d) = b' ((t * model.nKv + g) * model.hd + d)

/-- A head-major state and the position-major one it stands for, `n` positions in. -/
structure Mirrors (model : VkModelWeights) (n : ℕ) (h p : Resident) : Prop where
  alike : Alike model h p
  keys : ∀ l < model.layers.length, SameCells model n (h.kc l) (p.kc l)
  values : ∀ l < model.layers.length, SameCells model n (h.vc l) (p.vc l)

theorem SameCells.mono {n n' : ℕ} {b b' : Buf} (hsame : SameCells model n b b') (hn : n' ≤ n) :
    SameCells model n' b b' :=
  fun t ht => hsame t (ht.trans_le hn)

/-! ### Scratch -/

section Scratch

variable {d d' : DecodeBuffers} (htwin : Twin d d')

include htwin

theorem Twin.decodeProject (layer : VkLayer) :
    Twin (decodeProject model layer d) (decodeProject model layer d') := by
  rw [htwin]
  rfl

theorem Twin.decodeFeedForward (layer : VkLayer) :
    Twin (decodeFeedForward model layer d) (decodeFeedForward model layer d') := by
  rw [htwin]
  rfl

theorem Twin.decodeHead : Twin (decodeHead model d) (decodeHead model d') := by
  rw [htwin]
  rfl

end Scratch

theorem Twin.writeToken (htwin : Twin h.dec p.dec) (token pos : ℕ) :
    Twin (writeToken model token pos h).dec (writeToken model token pos p).dec := by
  unfold VkPass.writeToken
  rw [htwin]
  rfl

/-! ### Recording -/

theorem record_grids {rec : Recording} {s : Resident} {last : ℕ × Recording}
    (hs : RecordedOver model s.lastRec) (hblocks : rec.flashBlocks < 2 ^ 20)
    (hrecord : record model rec s = .ok last) : ∀ n ∈ forwardGrids model rec.lm, 0 < n := by
  unfold record at hrecord
  split at hrecord
  next last' hlast =>
    split_ifs at hrecord with hkey
    · obtain ⟨⟨hlastKey, hlastBlocks⟩, hgrids⟩ := hs _ hlast
      rw [← key_injective hlastBlocks hblocks (hlastKey.symm.trans hkey)]
      exact hgrids
    · obtain ⟨u, hgrids, -⟩ := bind_eq_ok.mp hrecord
      exact check_eq_ok.mp hgrids
  next =>
    obtain ⟨u, hgrids, -⟩ := bind_eq_ok.mp hrecord
    exact check_eq_ok.mp hgrids

theorem recordedOver_key {rec : Recording} (hblocks : rec.flashBlocks < 2 ^ 20)
    (hgrids : ∀ n ∈ forwardGrids model rec.lm, 0 < n) :
    RecordedOver model (some (rec.key, rec)) := by
  intro last hlast
  obtain rfl := Option.some.inj hlast
  exact ⟨⟨rfl, hblocks⟩, hgrids⟩

theorem wantedHm_flashBlocks {pos : ℕ} (hpos : pos < maxSeq) (lm argmax : Bool) :
    (wantedHm pos lm argmax).flashBlocks < 2 ^ 20 := by
  refine lt_of_le_of_lt ?_ (show maxSeq < 2 ^ 20 by decide)
  rw [wantedHm, ceilDiv_le_iff_le_mul (by decide), flashBlock]
  omega

/-! ### Attention -/

section Attention

variable {pos : ℕ} {rec rec' : Recording} {k v k' v' : Buf} {d : DecodeBuffers}

/-- The key head of a query head, where the query heads are whole groups. -/
theorem group_lt (hgroups : model.nKv ∣ model.nHead) {i : ℕ} (hi : i < model.nHead) :
    i / (model.nHead / model.nKv) < model.nKv := by
  refine Nat.div_lt_of_lt_mul ?_
  rwa [Nat.div_mul_cancel hgroups]

theorem decodeAttend_attn (hrec : Attends model pos rec) (i : ℕ) :
    (decodeAttend model pos rec k v d).attn i =
      if i < model.nHead * model.hd then
        average (range (pos + 1)) (score model.nHead model.nKv model.hd d.q k (i / model.hd))
          (value model.nHead model.nKv model.hd v (i / model.hd)) (i % model.hd)
      else d.attn i := by
  unfold decodeAttend
  dsimp only
  by_cases hi : i < model.nHead * model.hd
  · have hhd : 0 < model.hd := Nat.pos_of_ne_zero fun hzero => by simp [hzero] at hi
    have hh : i / model.hd < model.nHead := by rwa [Nat.div_lt_iff_lt_mul hhd]
    rw [if_pos hi]
    split_ifs with hsingle
    · exact sdpaDecode_average hhd (hrec.width hsingle) hi _
    · rw [hrec.blocks hsingle]
      exact combineFinal_average (fun b hb => flashPartial_holds hh hb rfl) rfl hhd hi rfl rfl _
  · rw [if_neg hi]
    split_ifs with hsingle
    · exact if_neg fun hmem => hi hmem.1
    · exact if_neg fun hmem => hi (by simpa using hmem.2)

/-- A record of the head-major partials holds its block's sums. -/
theorem flashPartialHm_holds {nHead nKv hd seqLen grid i blk : ℕ} {q part : Buf} (hi : i < nHead)
    (hblk : blk < seqLen ⌈/⌉ flashBlock) (hgrid : grid = seqLen ⌈/⌉ flashBlock) :
    (loadPartial hd (flashPartialHm nHead nKv hd q k v seqLen grid part)
        (i * (seqLen ⌈/⌉ flashBlock) + blk)).Holds (block flashBlock seqLen blk)
      (scoreHm nHead nKv hd q k i) fun t => cut hd (valueHm nHead nKv hd v i t) := by
  rw [flashPartialHm, loadPartial_storeGrid hi hblk hgrid]
  exact (Partial.gather_holds _ _ _ _).narrow hd

theorem decodeAttendHm_attn (hrec : rec.flashBlocks = (pos + 1) ⌈/⌉ flashBlock) (i : ℕ) :
    (decodeAttendHm model pos rec k v d).attn i =
      if i < model.nHead * model.hd then
        average (range (pos + 1)) (scoreHm model.nHead model.nKv model.hd d.q k (i / model.hd))
          (valueHm model.nHead model.nKv model.hd v (i / model.hd)) (i % model.hd)
      else d.attn i := by
  unfold decodeAttendHm
  dsimp only
  rw [hrec]
  by_cases hi : i < model.nHead * model.hd
  · have hhd : 0 < model.hd := Nat.pos_of_ne_zero fun hzero => by simp [hzero] at hi
    have hh : i / model.hd < model.nHead := by rwa [Nat.div_lt_iff_lt_mul hhd]
    rw [if_pos hi]
    exact combineFinal_average (fun b hb => flashPartialHm_holds hh hb rfl) rfl hhd hi rfl rfl _
  · rw [if_neg hi]
    exact if_neg fun hmem => hi (by simpa using hmem.2)

theorem decodeAttend_frame (k v : Buf) (d : DecodeBuffers) : decodeAttend model pos rec k v d =
    { d with part := (decodeAttend model pos rec k v d).part
             superp := (decodeAttend model pos rec k v d).superp
             attn := (decodeAttend model pos rec k v d).attn } := by
  unfold decodeAttend
  dsimp only
  split_ifs <;> rfl

/-- Over the same cells the two modes attend alike. -/
theorem decodeAttend_mirrors {d' : DecodeBuffers} (hgroups : model.nKv ∣ model.nHead)
    (hrec : rec.flashBlocks = (pos + 1) ⌈/⌉ flashBlock) (hrec' : Attends model pos rec')
    (hk : SameCells model (pos + 1) k k') (hv : SameCells model (pos + 1) v v') (htwin : Twin d d') :
    Twin (decodeAttendHm model pos rec k v d) (decodeAttend model pos rec' k' v' d') := by
  have hattn : (decodeAttend model pos rec' k' v' d').attn =
      (decodeAttendHm model pos rec k v d).attn := by
    funext i
    rw [decodeAttendHm_attn hrec, decodeAttend_attn hrec', htwin]
    split_ifs with hi
    · have hhd : 0 < model.hd := Nat.pos_of_ne_zero fun hzero => by simp [hzero] at hi
      have hh : i / model.hd < model.nHead := by rwa [Nat.div_lt_iff_lt_mul hhd]
      have hg := group_lt hgroups hh
      refine average_congr (fun t ht => ?_) fun t ht => ?_
      · rw [scoreHm, score]
        congr 1
        refine sum_congr rfl fun e he => ?_
        rw [hk t (mem_range.mp ht) _ hg e (mem_range.mp he)]
      · exact (hv t (mem_range.mp ht) _ hg _ (Nat.mod_lt i hhd)).symm
    · rfl
  rw [Twin]
  refine (decodeAttend_frame k' v' d').trans ?_
  rw [hattn, htwin]
  rfl

end Attention

/-! ### Decoding -/

section Decoding

variable {pos l : ℕ} {rec rec' : Recording} {layer : VkLayer}

theorem SameCells.kvWrite {b b' src src' : Buf} (hsame : SameCells model pos b b')
    (hpos : pos < maxSeq) (hsrc : src' = src) :
    SameCells model (pos + 1) (kvWriteHm (kvDim model) (pos * kvDim model) model.hd src b)
      (kvWrite (kvDim model) (pos * kvDim model) src' b') := by
  subst hsrc
  intro t ht g hg d hd
  have hrow : g * model.hd + d < kvDim model := index_lt hg hd
  have haddr : (t * model.nKv + g) * model.hd + d = t * kvDim model + (g * model.hd + d) := by
    rw [kvDim]
    ring
  rw [kvDim, kvWriteHm_apply hpos hg (by omega) hd, haddr, Vulkan.kvWrite, writeAt]
  have hmem := @row_mem_iff (kvDim model) pos 1 t _ hrow
  rw [add_mul, one_mul] at hmem
  rw [← kvDim, if_congr hmem rfl rfl]
  by_cases heq : t = pos
  · rw [if_pos heq, if_pos (by omega), heq, Nat.add_sub_cancel_left]
  · rw [if_neg heq, if_neg (by omega), hsame t (by omega) g hg d hd, haddr]

/-- A layer keeps the layouts' cells equal, and adds those of its position. -/
theorem decodeLayer_mirrors (hgroups : model.nKv ∣ model.nHead) (hpos : pos < maxSeq)
    (hrec : rec.flashBlocks = (pos + 1) ⌈/⌉ flashBlock) (hrec' : Attends model pos rec')
    (halike : Alike model h p) (hk : SameCells model pos (h.kc l) (p.kc l))
    (hv : SameCells model pos (h.vc l) (p.vc l)) :
    Alike model (decodeLayerHm model pos rec l layer h) (decodeLayer model pos rec' l layer p) ∧
      SameCells model (pos + 1) ((decodeLayerHm model pos rec l layer h).kc l)
        ((decodeLayer model pos rec' l layer p).kc l) ∧
      SameCells model (pos + 1) ((decodeLayerHm model pos rec l layer h).vc l)
        ((decodeLayer model pos rec' l layer p).vc l) := by
  have hproject : Twin (decodeProject model layer h.dec) (decodeProject model layer p.dec) :=
    halike.dec.decodeProject layer
  have hkey := hk.kvWrite hpos (congrArg DecodeBuffers.kBuf hproject)
  have hvalue := hv.kvWrite hpos (congrArg DecodeBuffers.vBuf hproject)
  have hattend := decodeAttend_mirrors hgroups hrec hrec' hkey hvalue hproject
  refine ⟨⟨halike.pf, ?_, halike.argmaxOut, halike.headMajor, halike.posMajor⟩, ?_, ?_⟩
  · exact hattend.decodeFeedForward layer
  · simp only [decodeLayerHm, decodeLayer, Function.update_self]
    exact hkey
  · simp only [decodeLayerHm, decodeLayer, Function.update_self]
    exact hvalue

/-- Layers below `done` have their position's cells already. -/
theorem sweep_mirrors (hgroups : model.nKv ∣ model.nHead) (hpos : pos < maxSeq)
    (hrec : rec.flashBlocks = (pos + 1) ⌈/⌉ flashBlock) (hrec' : Attends model pos rec')
    (hmirrors : Mirrors model pos h p) :
    Mirrors model (pos + 1) (sweep (decodeLayerHm model pos rec) 0 model.layers h)
      (sweep (decodeLayer model pos rec') 0 model.layers p) := by
  have hsweep := sweep_simulation (decodeLayerHm model pos rec) (decodeLayer model pos rec')
    (fun done h p => Alike model h p ∧ ∀ l < model.layers.length,
      SameCells model (if l < done then pos + 1 else pos) (h.kc l) (p.kc l) ∧
        SameCells model (if l < done then pos + 1 else pos) (h.vc l) (p.vc l))
    model.layers (l := 0) (s := h) (t := p)
    ⟨hmirrors.alike, fun l hl => ⟨hmirrors.keys l hl, hmirrors.values l hl⟩⟩
    fun i layer h p hlayer hat => by
      rw [zero_add] at hat ⊢
      obtain ⟨halike, hcells⟩ := hat
      have hi : i < model.layers.length := (List.getElem?_eq_some_iff.mp hlayer).1
      obtain ⟨hk, hv⟩ := hcells i hi
      rw [if_neg (Nat.lt_irrefl i)] at hk hv
      obtain ⟨halike', hk', hv'⟩ :=
        decodeLayer_mirrors (l := i) hgroups hpos hrec hrec' halike hk hv
      refine ⟨halike', fun l hl => ?_⟩
      rcases eq_or_ne l i with rfl | hne
      · rw [if_pos (Nat.lt_succ_self l)]
        exact ⟨hk', hv'⟩
      · have hsame : (l < i + 1) = (l < i) := propext (by omega)
        simp only [decodeLayerHm, decodeLayer, Function.update_of_ne hne, hsame]
        exact hcells l hl
  rw [zero_add] at hsweep
  obtain ⟨halike, hcells⟩ := hsweep
  refine ⟨halike, fun l hl => ?_, fun l hl => ?_⟩
  · have hk := (hcells l hl).1
    rwa [if_pos hl] at hk
  · have hv := (hcells l hl).2
    rwa [if_pos hl] at hv

theorem runToken_mirrors (hgroups : model.nKv ∣ model.nHead) (hpos : pos < maxSeq)
    (hrec : rec.flashBlocks = (pos + 1) ⌈/⌉ flashBlock) (hrec' : Attends model pos rec')
    (hlm : rec'.lm = rec.lm) (hargmax : rec'.argmax = rec.argmax) (token : ℕ)
    (hmirrors : Mirrors model pos h p) :
    Mirrors model (pos + 1) (runTokenHm model token pos rec h)
      (runToken model token pos rec' p) := by
  have hinputs : Mirrors model pos (writeToken model token pos h) (writeToken model token pos p) :=
    { hmirrors with alike := { hmirrors.alike with dec := hmirrors.alike.dec.writeToken token pos } }
  have hsweep := sweep_mirrors hgroups hpos hrec hrec' hinputs
  rw [runTokenHm, runToken, hlm, hargmax]
  dsimp only
  split_ifs
  · have hhead : Twin (decodeHead model _) (decodeHead model _) := hsweep.alike.dec.decodeHead
    have hlogits := congrArg (fun d => argmax model.vocab d.logits) hhead
    exact { hsweep with alike := { hsweep.alike with dec := hhead, argmaxOut := hlogits.symm } }
  · exact { hsweep with alike := { hsweep.alike with dec := hsweep.alike.dec.decodeHead } }
  · exact hsweep

theorem Mirrors.setRec {n : ℕ} {a b : ℕ × Recording} (hmirrors : Mirrors model n h p)
    (ha : RecordedOver model (some a)) (hb : RecordedOver model (some b)) :
    Mirrors model n { h with lastRec := some a } { p with lastRec := some b } where
  alike := { hmirrors.alike with headMajor := ha, posMajor := hb }
  keys := hmirrors.keys
  values := hmirrors.values

theorem forwardInner_mirrors (hgroups : model.nKv ∣ model.nHead) (hwidth : model.hd ≤ 64)
    (hpos : pos < maxSeq) {token : ℕ} {lm argmax : Bool} {h' : Resident}
    (hmirrors : Mirrors model pos h p)
    (hok : forwardInnerHm model token pos lm argmax h = .ok h') :
    ∃ p', forwardInner model token pos lm argmax p = .ok p' ∧ Mirrors model (pos + 1) h' p' := by
  obtain ⟨u, htoken, hok⟩ := bind_eq_ok.mp hok
  obtain ⟨u', hposition, hok⟩ := bind_eq_ok.mp hok
  obtain ⟨last, hrecord, hok⟩ := bind_eq_ok.mp hok
  have hblocks := wantedHm_flashBlocks hpos lm argmax
  have hblocks' := wanted_flashBlocks (hpos.trans (by decide)) lm argmax
  have hgrids := record_grids hmirrors.alike.headMajor hblocks hrecord
  obtain rfl := record_eq (fun last hlast => (hmirrors.alike.headMajor last hlast).1) hblocks hrecord
  obtain ⟨last', hrecord'⟩ := record_succeeds (wanted pos lm argmax) p hgrids
  have hlast' := record_eq (fun last hlast => (hmirrors.alike.posMajor last hlast).1) hblocks' hrecord'
  have hrun : Mirrors model (pos + 1) (runTokenHm model token pos (wantedHm pos lm argmax) h)
      (runToken model token pos (wanted pos lm argmax) p) :=
    runToken_mirrors hgroups hpos rfl (attends_wanted (.inl hwidth) lm argmax)
      (by rw [wanted, wantedHm]) (by rw [wanted, wantedHm]) token hmirrors
  rw [← pure_eq_ok.mp hok]
  refine ⟨_, bind_eq_ok.mpr ⟨u, htoken, bind_eq_ok.mpr ⟨u', hposition,
    bind_eq_ok.mpr ⟨last', hrecord', rfl⟩⟩⟩, ?_⟩
  rw [hlast']
  exact hrun.setRec (recordedOver_key hblocks hgrids) (recordedOver_key hblocks' hgrids)

theorem forwardStep_mirrors (hgroups : model.nKv ∣ model.nHead) (hwidth : model.hd ≤ 64)
    (hpos : pos < maxSeq) {token : ℕ} {call : TokenCall} {h' : Resident}
    (hmirrors : Mirrors model pos h p) (hok : forwardStep model true token pos call h = .ok h') :
    ∃ p', forwardStep model false token pos call p = .ok p' ∧ Mirrors model (pos + 1) h' p' :=
  forwardInner_mirrors hgroups hwidth hpos hmirrors hok

theorem runSteps_mirrors (hgroups : model.nKv ∣ model.nHead) (hwidth : model.hd ≤ 64)
    {steps : List (ℕ × TokenCall)} {h' : Resident} (hfits : pos + steps.length ≤ maxSeq)
    (hmirrors : Mirrors model pos h p) (hok : runSteps model true steps pos h = .ok h') :
    ∃ p', runSteps model false steps pos p = .ok p' ∧
      Mirrors model (pos + steps.length) h' p' := by
  induction steps generalizing pos h p with
  | nil =>
    obtain rfl := Except.ok.inj hok
    exact ⟨p, rfl, hmirrors⟩
  | cons step rest ih =>
    rw [List.length_cons] at hfits
    obtain ⟨h₁, hstep, hrest⟩ := bind_eq_ok.mp hok
    obtain ⟨p₁, hstep', hmirrors₁⟩ :=
      forwardStep_mirrors hgroups hwidth (by omega) hmirrors hstep
    obtain ⟨p', hrest', hmirrors'⟩ := ih (by omega) hmirrors₁ hrest
    refine ⟨p', bind_eq_ok.mpr ⟨p₁, hstep', hrest'⟩, ?_⟩
    rwa [List.length_cons, add_comm rest.length, ← add_assoc]

end Decoding

/-! ### Prefill -/

/-- The elements below `n` are the same. -/
def SameBelow (n : ℕ) (b b' : Buf) : Prop := ∀ i < n, b i = b' i

section Kernels

variable {m n k nb off len : ℕ} {b b' : Buf}

/-- A window is as it is over the same elements, where it is the same over the same elements. -/
theorem window_agree {f : Buf → Buf} (hbelow : SameBelow off b b')
    (hwithin : SameBelow len (f fun i => b (off + i)) (f fun i => b' (off + i))) :
    SameBelow (off + len) (window off len f b) (window off len f b') := by
  intro i hi
  rw [window, window, writeAt, writeAt]
  split_ifs with hmem
  · exact hwithin (i - off) (by omega)
  · exact hbelow i (by omega)

theorem writeRows_apply {w i : ℕ} {f : ℕ → ℕ → ℝ} (hi : i < m * w) :
    writeRows w 0 m f b i = f (i / w) (i % w) := by
  rw [writeRows, zero_mul, zero_add, Nat.sub_zero]
  exact if_pos ⟨Nat.zero_le i, hi⟩

/-- Whole tiles are written whole. -/
theorem coopmatQ4kGemm_apply {values : List ℚ} {a : Buf} {i : ℕ} (hm : 128 ∣ m) (hn : 128 ∣ n)
    (hi : i < m * n) : coopmatQ4kGemm m n k nb values a b i =
      ∑ j ∈ range (k ⌈/⌉ 32 * 32), a (i / n * k + j) * element values (i % n * (256 * nb) + j) := by
  have hpos : 0 < n := Nat.pos_of_ne_zero fun hzero => by simp [hzero] at hi
  rw [coopmatQ4kGemm, Nat.div_mul_cancel hm, Nat.div_mul_cancel hn, writeRows_apply hi,
    if_pos (Nat.mod_lt i hpos)]

theorem coopmatGemm_apply {values a : Buf} {i : ℕ} (hm : 64 ∣ m) (hn : 64 ∣ n) (hi : i < m * n) :
    coopmatGemm m n k values a b i =
      ∑ j ∈ range (k ⌈/⌉ 16 * 16), a (i / n * k + j) * values (j * n + i % n) := by
  have hpos : 0 < n := Nat.pos_of_ne_zero fun hzero => by simp [hzero] at hi
  rw [coopmatGemm, Nat.div_mul_cancel hm, Nat.div_mul_cancel hn, writeRows_apply hi,
    if_pos (Nat.mod_lt i hpos)]

theorem coopmatQ4kGemm_agree {values : List ℚ} {a : Buf} (hm : 128 ∣ m) (hn : 128 ∣ n) :
    SameBelow (m * n) (coopmatQ4kGemm m n k nb values a b) (coopmatQ4kGemm m n k nb values a b') :=
  fun _ hi => (coopmatQ4kGemm_apply hm hn hi).trans (coopmatQ4kGemm_apply hm hn hi).symm

theorem coopmatGemm_agree {values a : Buf} (hm : 64 ∣ m) (hn : 64 ∣ n) :
    SameBelow (m * n) (coopmatGemm m n k values a b) (coopmatGemm m n k values a b') :=
  fun _ hi => (coopmatGemm_apply hm hn hi).trans (coopmatGemm_apply hm hn hi).symm

/-- A rotation stays within its rows. -/
theorem brope_agree {heads hd : ℕ} {cosb sinb : Buf} (hsame : SameBelow (m * (heads * hd)) b b') :
    SameBelow (m * (heads * hd)) (brope heads hd m cosb sinb b) (brope heads hd m cosb sinb b') := by
  intro i hi
  have hpos : 0 < heads * hd := Nat.pos_of_ne_zero fun hzero => by simp [hzero] at hi
  have hrow : i / (heads * hd) < m := (Nat.div_lt_iff_lt_mul hpos).mpr hi
  set e := i % (heads * hd) with he
  have hlt : e < heads * hd := Nat.mod_lt i hpos
  have hread : ∀ j < heads * hd, b (i / (heads * hd) * (heads * hd) + j) =
      b' (i / (heads * hd) * (heads * hd) + j) := fun j hj => hsame _ (index_lt hrow hj)
  rw [brope, brope, writeRows_apply hi, writeRows_apply hi, ← he, ropeAt, ropeAt]
  split_ifs with hpair hfirst
  · have hhead : e / hd < heads := (Nat.div_lt_iff_lt_mul (by
      by_contra hzero
      simp [Nat.eq_zero_of_not_pos hzero] at hpos)).mpr hlt
    have hnext : e / hd * hd + (e % hd + 1) < heads * hd := index_lt hhead (by omega)
    rw [← add_assoc, Nat.div_add_mod'] at hnext
    rw [hread e hlt, hread (e + 1) hnext]
  · rw [hread e hlt, hread (e - 1) (by omega)]
  · exact hread e hlt

theorem toF16_congr {src src' dst : Buf} (hsame : SameBelow n src src') :
    toF16 n src dst = toF16 n src' dst :=
  writeAt_congr hsame

end Kernels

section Prefill

variable {land : List (ℕ × ℝ) → List (ℕ × ℝ)} {pos m l : ℕ} {layer : VkLayer}

/-- Attention reads the rows up to the tile's last. -/
theorem prefillAttend_congr {k k' v v' : Buf} (hk : SameBelow ((pos + m) * kvDim model) k k')
    (hv : SameBelow ((pos + m) * kvDim model) v v') (pf : PrefillRes) :
    prefillAttend land model pos m k v pf = prefillAttend land model pos m k' v' pf := by
  unfold prefillAttend
  dsimp only
  rw [toF16_congr hk, toF16_congr hv]

/-- A tile of whole output tiles writes all its rows before it reads them. -/
theorem prefillProject_agree (hcols : 128 ∣ kvDim model) (hm : 128 ∣ m) (hpf : h.pf = p.pf)
    (hk : SameBelow (pos * kvDim model) (h.kc l) (p.kc l))
    (hv : SameBelow (pos * kvDim model) (h.vc l) (p.vc l)) :
    (prefillProject model pos m l layer h).pf = (prefillProject model pos m l layer p).pf ∧
      SameBelow ((pos + m) * kvDim model) ((prefillProject model pos m l layer h).kc l)
        ((prefillProject model pos m l layer p).kc l) ∧
      SameBelow ((pos + m) * kvDim model) ((prefillProject model pos m l layer h).vc l)
        ((prefillProject model pos m l layer p).vc l) := by
  have hhalf {n : ℕ} (hn : 128 ∣ n) : 64 ∣ n := Dvd.dvd.trans (by decide) hn
  have hproduct {f : Buf → Buf} (hf : ∀ c c', SameBelow (m * kvDim model) (f c) (f c')) :=
    window_agree hk (hf (fun i => h.kc l (pos * kvDim model + i)) _)
  simp only [prefillProject, Function.update_self, hpf, add_mul]
  refine ⟨trivial, window_agree (fun i hi => ?_) (brope_agree fun i hi => ?_), ?_⟩
  · exact hproduct (fun _ _ => coopmatQ4kGemm_agree hm hcols) i (by omega)
  · exact hproduct (fun _ _ => coopmatQ4kGemm_agree hm hcols) _ (Nat.add_lt_add_left hi _)
  · exact window_agree hv (coopmatGemm_agree (hhalf hm) (hhalf hcols))

theorem prefillLayer_agree (hcols : 128 ∣ kvDim model) (hm : 128 ∣ m) (halike : Alike model h p)
    (hk : SameBelow (pos * kvDim model) (h.kc l) (p.kc l))
    (hv : SameBelow (pos * kvDim model) (h.vc l) (p.vc l)) :
    Alike model (prefillLayer land model pos m l layer h)
        (prefillLayer land model pos m l layer p) ∧
      SameBelow ((pos + m) * kvDim model) ((prefillLayer land model pos m l layer h).kc l)
        ((prefillLayer land model pos m l layer p).kc l) ∧
      SameBelow ((pos + m) * kvDim model) ((prefillLayer land model pos m l layer h).vc l)
        ((prefillLayer land model pos m l layer p).vc l) := by
  obtain ⟨hpf, hkeys, hvalues⟩ := prefillProject_agree hcols hm halike.pf hk hv
  refine ⟨{ halike with pf := ?_ }, hkeys, hvalues⟩
  rw [prefillLayer, prefillLayer]
  dsimp only
  rw [hpf, prefillAttend_congr hkeys hvalues]

/-- The leading rows of both runs' caches are the same, as they are in the prefill's layout. -/
structure SamePrefix (model : VkModelWeights) (n : ℕ) (h p : Resident) : Prop where
  alike : Alike model h p
  keys : ∀ l < model.layers.length, SameBelow (n * kvDim model) (h.kc l) (p.kc l)
  values : ∀ l < model.layers.length, SameBelow (n * kvDim model) (h.vc l) (p.vc l)

theorem SamePrefix.mono {n n' : ℕ} (hsame : SamePrefix model n h p) (hn : n' ≤ n) :
    SamePrefix model n' h p where
  alike := hsame.alike
  keys l hl i hi := hsame.keys l hl i (hi.trans_le (Nat.mul_le_mul_right _ hn))
  values l hl i hi := hsame.values l hl i (hi.trans_le (Nat.mul_le_mul_right _ hn))

/-- Layers below `done` have the tile's rows already. -/
theorem sweep_agree (hcols : 128 ∣ kvDim model) (hm : 128 ∣ m) (hsame : SamePrefix model pos h p) :
    SamePrefix model (pos + m) (sweep (prefillLayer land model pos m) 0 model.layers h)
      (sweep (prefillLayer land model pos m) 0 model.layers p) := by
  have hsweep := sweep_simulation (prefillLayer land model pos m) (prefillLayer land model pos m)
    (fun done h p => Alike model h p ∧ ∀ l < model.layers.length,
      SameBelow ((if l < done then pos + m else pos) * kvDim model) (h.kc l) (p.kc l) ∧
        SameBelow ((if l < done then pos + m else pos) * kvDim model) (h.vc l) (p.vc l))
    model.layers (l := 0) (s := h) (t := p)
    ⟨hsame.alike, fun l hl => ⟨hsame.keys l hl, hsame.values l hl⟩⟩
    fun i layer h p hlayer hat => by
      rw [zero_add] at hat ⊢
      obtain ⟨halike, hrows⟩ := hat
      have hi : i < model.layers.length := (List.getElem?_eq_some_iff.mp hlayer).1
      obtain ⟨hk, hv⟩ := hrows i hi
      rw [if_neg (Nat.lt_irrefl i)] at hk hv
      obtain ⟨halike', hk', hv'⟩ := prefillLayer_agree (l := i) hcols hm halike hk hv
      refine ⟨halike', fun l hl => ?_⟩
      rcases eq_or_ne l i with rfl | hne
      · rw [if_pos (Nat.lt_succ_self l)]
        exact ⟨hk', hv'⟩
      · have hdone : (l < i + 1) = (l < i) := propext (by omega)
        simp only [prefillLayer, prefillProject, Function.update_of_ne hne, hdone]
        exact hrows l hl
  rw [zero_add] at hsweep
  obtain ⟨halike, hrows⟩ := hsweep
  refine ⟨halike, fun l hl => ?_, fun l hl => ?_⟩
  · have hk := (hrows l hl).1
    rwa [if_pos hl] at hk
  · have hv := (hrows l hl).2
    rwa [if_pos hl] at hv

theorem runTile_agree (hcols : 128 ∣ kvDim model) (tokens : List ℕ)
    (hsame : SamePrefix model pos h p) :
    SamePrefix model (pos + VkModel.paddedM tokens.length) (runTile land model tokens pos h)
        (runTile land model tokens pos p) := by
  have hinputs : SamePrefix model pos (writeTile model tokens pos (VkModel.paddedM tokens.length) h)
      (writeTile model tokens pos (VkModel.paddedM tokens.length) p) := by
    refine { hsame with alike := { hsame.alike with pf := ?_ } }
    rw [writeTile, writeTile, hsame.alike.pf]
  have hunits : 128 ∣ VkModel.paddedM tokens.length := VkModel.padUnit_dvd_paddedM tokens.length
  have hsweep : SamePrefix model (pos + VkModel.paddedM tokens.length) (sweep
        (prefillLayer land model pos (VkModel.paddedM tokens.length)) 0 model.layers _)
      (sweep (prefillLayer land model pos (VkModel.paddedM tokens.length)) 0 model.layers _) :=
    sweep_agree hcols hunits hinputs
  refine { hsweep with alike := { hsweep.alike with pf := ?_ } }
  rw [runTile, runTile]
  dsimp only
  rw [hsweep.alike.pf]

theorem prefillInner_agree (hcols : 128 ∣ kvDim model) {tokens : List ℕ} {h' : Resident}
    {logits : List ℝ} (hsame : SamePrefix model pos h p)
    (hok : prefillInner land model tokens pos h = .ok (h', logits)) :
    ∃ p', prefillInner land model tokens pos p = .ok (p', logits) ∧
      SamePrefix model (pos + VkModel.paddedM tokens.length) h' p' := by
  obtain ⟨u, hroom, hok⟩ := bind_eq_ok.mp hok
  obtain ⟨u', htokens, hok⟩ := bind_eq_ok.mp hok
  obtain ⟨u'', hgrids, hok⟩ := bind_eq_ok.mp hok
  obtain ⟨rfl, rfl⟩ := Prod.mk.inj (pure_eq_ok.mp hok)
  have htile : SamePrefix model (pos + VkModel.paddedM tokens.length)
      (runTile land model tokens pos h) (runTile land model tokens pos p) :=
    runTile_agree hcols tokens hsame
  refine ⟨runTile land model tokens pos p, bind_eq_ok.mpr ⟨u, hroom, bind_eq_ok.mpr ⟨u', htokens,
    bind_eq_ok.mpr ⟨u'', hgrids, ?_⟩⟩⟩, htile⟩
  rw [htile.alike.pf]
  rfl

/-- Tile after tile, each over the rows of those before it. -/
theorem prefillFrom_agree (hcols : 128 ∣ kvDim model) {tokens : List ℕ} {h' : Resident}
    {logits : List ℝ} (hsame : SamePrefix model pos h p)
    (hok : prefillFrom land model tokens pos h = .ok (h', logits)) :
    ∃ p', prefillFrom land model tokens pos p = .ok (p', logits) ∧
      SamePrefix model (pos + tokens.length) h' p' := by
  suffices hchunks : ∀ pos h p before, SamePrefix model pos h p →
      prefillChunks land model (tokens.length ⌈/⌉ prefillMaxM) tokens pos (h, before) =
        .ok (h', logits) →
      ∃ p', prefillChunks land model (tokens.length ⌈/⌉ prefillMaxM) tokens pos (p, before) =
          .ok (p', logits) ∧
        SamePrefix model (pos + tokens.length) h' p' from
    hchunks pos h p [] hsame hok
  refine chunk_induction (P := fun chunks tokens => ∀ pos h p before, SamePrefix model pos h p →
    prefillChunks land model chunks tokens pos (h, before) = .ok (h', logits) →
    ∃ p', prefillChunks land model chunks tokens pos (p, before) = .ok (p', logits) ∧
      SamePrefix model (pos + tokens.length) h' p') ?nil ?last ?more tokens
  case nil =>
    intro pos h p before hsame hok
    obtain ⟨rfl, rfl⟩ := Prod.mk.inj (Except.ok.inj hok)
    exact ⟨p, rfl, hsame⟩
  case last =>
    intro tokens hshort pos h p before hsame hok
    obtain ⟨⟨filled, next⟩, hinner, hrest⟩ := bind_eq_ok.mp hok
    obtain ⟨p', hinner', htile⟩ := prefillInner_agree hcols hsame hinner
    obtain ⟨rfl, rfl⟩ := Prod.mk.inj (Except.ok.inj hrest)
    rw [List.take_of_length_le hshort] at htile
    have hpad := VkModel.le_paddedM tokens.length
    rw [min_eq_left hshort] at hpad
    exact ⟨p', bind_eq_ok.mpr ⟨_, hinner', rfl⟩, htile.mono (by omega)⟩
  case more =>
    intro chunks tokens hlong ih pos h p before hsame hok
    obtain ⟨⟨filled, next⟩, hinner, hrest⟩ := bind_eq_ok.mp hok
    obtain ⟨p₁, hinner', htile⟩ := prefillInner_agree hcols hsame hinner
    have hfull : (tokens.take prefillMaxM).length = prefillMaxM := by
      rw [List.length_take, min_eq_left hlong.le]
    have hpad : VkModel.paddedM prefillMaxM = prefillMaxM := by decide
    rw [hfull, hpad] at htile
    obtain ⟨p', hrest', hall⟩ := ih _ _ _ _ htile hrest
    refine ⟨p', bind_eq_ok.mpr ⟨_, hinner', hrest'⟩, hall.mono ?_⟩
    rw [List.length_drop]
    omega

theorem transposeKvHeadmajor_apply {n t g d : ℕ} (hn : n ≤ maxSeq) (hl : l < model.layers.length)
    (ht : t < n) (hg : g < model.nKv) (hd : d < model.hd) (s : Resident) :
    (transposeKvHeadmajor model n s).kc l (hmCell model.hd g t d) =
        s.kc l ((t * model.nKv + g) * model.hd + d) ∧
      (transposeKvHeadmajor model n s).vc l (hmCell model.hd g t d) =
        s.vc l ((t * model.nKv + g) * model.hd + d) := by
  rw [transposeKvHeadmajor, if_neg (by omega)]
  dsimp only
  rw [if_pos hl, if_pos hl, kvDim]
  exact ⟨kvTransposeHm_apply hn ht hg hd, kvTransposeHm_apply hn ht hg hd⟩

/-- The rearranged caches stand for the rows they were. -/
theorem transpose_mirrors {n : ℕ} (hn : n ≤ maxSeq) (hsame : SamePrefix model n h p) :
    Mirrors model n (transposeKvHeadmajor model n h) p := by
  have hcell : ∀ t < n, ∀ g < model.nKv, ∀ d < model.hd,
      (t * model.nKv + g) * model.hd + d < n * kvDim model := by
    intro t ht g hg d hd
    rw [kvDim, ← mul_assoc]
    exact index_lt (index_lt ht hg) hd
  refine ⟨?_, fun l hl t ht g hg d hd => ?_, fun l hl t ht g hg d hd => ?_⟩
  · unfold transposeKvHeadmajor
    dsimp only
    split_ifs
    · exact hsame.alike
    · exact { hsame.alike with }
  · rw [(transposeKvHeadmajor_apply hn hl ht hg hd h).1]
    exact hsame.keys l hl _ (hcell t ht g hg d hd)
  · rw [(transposeKvHeadmajor_apply hn hl ht hg hd h).2]
    exact hsame.values l hl _ (hcell t ht g hg d hd)

end Prefill

end Zllm.Vulkan.VkPass
