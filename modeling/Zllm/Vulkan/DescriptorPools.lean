import Zllm.Lib.Pool
import Zllm.Vulkan.VerifyAgrees

/-!
# Descriptor pools of the raw-Vulkan lane

Loading sizes its pool of descriptor sets by the number of layers, verification has a pool and
uniform buffers of fixed sizes. What either takes follows from the layers' recording: loading
outgrows its pool only with fused query and key rows and enough tensors in six bits, verification
outgrows its uniform buffers from some number of layers on.
-/

namespace Zllm.Vulkan.VkPass

open Loader Outcome

/-! ### Recording -/

/-- Uniform buffers, descriptor sets and storage descriptors. Each set has one uniform descriptor
beside, of which a pool has as many as sets. -/
abbrev Request := ℕ × ℕ × ℕ

/-- The next of the uniform buffers that verification has. -/
def uni : Request := (1, 0, 0)

/-- A set with some storage buffers. -/
def mkset (storage : ℕ) : Request := (0, 1, storage)

/-- `vk_mk_mv`, whose uniform is a buffer of its own. -/
def vkMkMv (w : VkWeight) : Request := mkset (if w.dtype = .q6k then 6 else 3)

/-- The sets of a layer's `VkLayerOps`. -/
def layerOps (l : VkLayer) : List Request :=
  [vkMkMv l.wq, vkMkMv l.wk, vkMkMv l.wv, vkMkMv l.wo, vkMkMv (l.w13Q3.getD l.w13), vkMkMv l.w2,
    mkset 5, mkset 5] ++
  (if l.wqk.isSome then [mkset 5] else []) ++
  [mkset 2, mkset 3, mkset 2, mkset 4, mkset 4, mkset 2, mkset 2, mkset 2, mkset 3]

/-- The sets that loading takes: the shared ones, then the layers'. -/
def loadRequests (m : VkModelWeights) : List Request :=
  [mkset 3, mkset 3, mkset 3, mkset (if m.lmQ4 then 3 else 6), mkset 2, mkset 3] ++
    m.layers.flatMap layerOps

/-- `desc_pool` -/
def descPool (layers : ℕ) : Request :=
  (0, (layers * 20 + 16) % 2 ^ 32, (layers * 60 + 64) % 2 ^ 32)

/-- The switches that leave parts of a verification out: `VK_V_MVONLY`, `VK_V_NONORM` and
`VK_V_NOSDPA`. -/
structure VerifyEnv where
  mvonly : Bool
  nonorm : Bool
  nosdpa : Bool

def VerifyEnv.skipNorm (env : VerifyEnv) : Bool := env.mvonly || env.nonorm

def VerifyEnv.skipAttn (env : VerifyEnv) : Bool := env.mvonly || env.nosdpa

/-- `mvq4`, whichever kernel it dispatches, and `mvf16` -/
def mv : List Request := [uni, mkset 3]

/-- What is recorded where a switch does not leave it out. -/
def leftOut (skip : Bool) (requests : List Request) : List Request := if skip then [] else requests

/-- A layer of the recording loop of `verify_inner`. -/
def verifyOps (env : VerifyEnv) : List Request :=
  leftOut env.skipNorm [mkset 3] ++ (mv ++ mv ++ mv) ++
  leftOut env.skipAttn [uni, mkset 3, uni, mkset 3, uni, mkset 4] ++ mv ++
  leftOut env.mvonly [uni, mkset 2] ++ leftOut env.skipNorm [mkset 3] ++ mv ++
  leftOut env.mvonly [uni, mkset 2] ++ mv ++ leftOut env.mvonly [uni, mkset 2]

def verifyRequests (env : VerifyEnv) (layers rows : ℕ) : List Request :=
  [uni] ++ (List.replicate layers (verifyOps env)).flatten ++ [mkset 3, uni, mkset 6] ++
    (List.replicate rows [uni, mkset 2]).flatten

/-- `verify_unis` and `verify_pool` -/
def verifyPool : Request := (verifyUnis, 640, 3200)

/-- Loading and every verification find all they take. -/
structure WithinPools (env : VerifyEnv) (m : VkModelWeights) : Prop where
  load : (Pool.serve (descPool m.layers.length) 0 (loadRequests m)).isSome
  verify : ∀ (tokens : List ℕ) (pos : ℕ), 1 ≤ tokens.length → tokens.length ≤ verifyMaxM →
    pos + tokens.length ≤ m.maxSeq →
      (Pool.serve verifyPool 0 (verifyRequests env m.layers.length tokens.length)).isSome

/-- One for a tensor in six bits. -/
def sixBit (gguf : Gguf) (name : TensorName) : ℕ :=
  if (gguf.tensors name).map QTensor.dtype = some .q6k then 1 else 0

/-- The value and down projections and the tied head, as far as they are in six bits. -/
def sixBitTensors (gguf : Gguf) (layers : ℕ) : ℕ :=
  sixBit gguf .tokenEmbd +
    ((List.range layers).map fun i => sixBit gguf (.blk i .attnV) + sixBit gguf (.blk i .ffnDown)).sum

/-- The most layers that the uniform buffers suffice for. -/
def VerifyEnv.deepest (env : VerifyEnv) : ℕ :=
  if env.mvonly then 62 else if env.nosdpa then 41 else 31

/-! ### Verification -/

theorem sum_verifyOps (env : VerifyEnv) : (verifyOps env).sum =
    (6 + (if env.skipAttn then 0 else 3) + (if env.mvonly then 0 else 3),
      6 + (if env.skipNorm then 0 else 2) + (if env.skipAttn then 0 else 3) +
        (if env.mvonly then 0 else 3),
      18 + (if env.skipNorm then 0 else 6) + (if env.skipAttn then 0 else 10) +
        (if env.mvonly then 0 else 6)) := by
  cases hnorm : env.skipNorm <;> cases hattn : env.skipAttn <;> cases hextra : env.mvonly <;>
    simp [verifyOps, leftOut, mv, uni, mkset, hnorm, hattn, hextra]

theorem sum_flatten_replicate (n : ℕ) (requests : List Request) :
    (List.replicate n requests).flatten.sum = n • requests.sum := by
  rw [List.sum_flatten, List.map_replicate, List.sum_replicate]

theorem sum_verifyRequests (env : VerifyEnv) (layers rows : ℕ) :
    (verifyRequests env layers rows).sum =
      (2, 2, 9) + layers • (verifyOps env).sum + rows • (1, 1, 2) := by
  have hends : [uni].sum + [mkset 3, uni, mkset 6].sum = (2, 2, 9) := by decide
  have hrow : [uni, mkset 2].sum = (1, 1, 2) := by decide
  rw [verifyRequests, List.sum_append, List.sum_append, List.sum_append, sum_flatten_replicate,
    sum_flatten_replicate, hrow, add_right_comm _ _ [mkset 3, uni, mkset 6].sum, hends]

/-- The uniforms of a layer. -/
def VerifyEnv.layerUnis (env : VerifyEnv) : ℕ :=
  6 + (if env.skipAttn then 0 else 3) + (if env.mvonly then 0 else 3)

/-- The uniform buffers run out first. -/
theorem verify_serves_iff (env : VerifyEnv) (layers : ℕ) {rows : ℕ} (hrows : rows ≤ verifyMaxM) :
    (Pool.serve verifyPool 0 (verifyRequests env layers rows)).isSome ↔
      2 + layers * env.layerUnis + rows ≤ verifyUnis := by
  rw [Pool.serve_isSome_iff, sum_verifyRequests, sum_verifyOps, verifyPool, VerifyEnv.layerUnis]
  simp only [verifyMaxM, verifyUnis] at hrows ⊢
  cases hextra : env.mvonly <;> cases hattn : env.nosdpa <;> cases hnorm : env.nonorm <;>
    simp [VerifyEnv.skipAttn, VerifyEnv.skipNorm, hextra, hattn, hnorm] <;> omega

/-- The uniforms of a verification with nothing left out are those that its pass checks. -/
theorem uniformsOf_eq (layers rows : ℕ) :
    ((verifyRequests ⟨false, false, false⟩ layers rows).sum).1 = uniformsOf layers rows := by
  rw [sum_verifyRequests, sum_verifyOps, uniformsOf]
  simp [VerifyEnv.skipAttn, VerifyEnv.skipNorm]
  omega

/-- Every window is served exactly if the widest one is. -/
theorem verify_serves_all_iff (env : VerifyEnv) {m : VkModelWeights} (hroom : verifyMaxM ≤ m.maxSeq) :
    (∀ (tokens : List ℕ) (pos : ℕ), 1 ≤ tokens.length → tokens.length ≤ verifyMaxM →
      pos + tokens.length ≤ m.maxSeq →
        (Pool.serve verifyPool 0 (verifyRequests env m.layers.length tokens.length)).isSome) ↔
      m.layers.length ≤ env.deepest := by
  have hwidest : 2 + m.layers.length * env.layerUnis + verifyMaxM ≤ verifyUnis ↔
      m.layers.length ≤ env.deepest := by
    rw [VerifyEnv.layerUnis, VerifyEnv.deepest, verifyMaxM, verifyUnis]
    cases hextra : env.mvonly <;> cases hattn : env.nosdpa <;>
      simp [VerifyEnv.skipAttn, hextra, hattn] <;> omega
  rw [← hwidest]
  constructor
  · intro hall
    have hserved := hall (List.replicate verifyMaxM 0) 0
    rw [List.length_replicate, zero_add] at hserved
    exact (verify_serves_iff env _ le_rfl).mp (hserved (by decide) le_rfl hroom)
  · intro hlast tokens pos _ hrows _
    refine (verify_serves_iff env _ hrows).mpr (le_trans ?_ hlast)
    exact Nat.add_le_add_left hrows _

/-! ### Loading -/

section Load

variable {quantize : GgmlDType → List ℚ → List ℚ} {env : VkEnv} {gguf : Gguf}

theorem loadVkW_dtype {name : TensorName} {w : VkWeight} (hload : loadVkW gguf name = .ok w) :
    (gguf.tensors name).map QTensor.dtype = some w.dtype := by
  unfold loadVkW at hload
  obtain ⟨qt, htensor, hload⟩ := bind_eq_ok.mp hload
  obtain ⟨cols, -, hload⟩ := bind_eq_ok.mp hload
  rw [Gguf.tensor_eq_ok.mp htensor, Option.map_some]
  split_ifs at hload with hq4 hq6
  · obtain rfl := pure_eq_ok.mp hload
    exact congrArg some hq4
  · obtain ⟨rows, -, hload⟩ := bind_eq_ok.mp hload
    split_ifs at hload
    · obtain rfl := pure_eq_ok.mp hload
      exact congrArg some hq6

theorem vkMkMv_eq {name : TensorName} {w : VkWeight} (hload : loadVkW gguf name = .ok w) :
    vkMkMv w = (0, 1, 3 + 3 * sixBit gguf name) := by
  simp only [vkMkMv, mkset, sixBit, loadVkW_dtype hload, Option.some.injEq]
  split_ifs <;> rfl

theorem vkMkMv_q4 {w : VkWeight} {name : TensorName} (hq4 : requireQ4 w.dtype name = .ok ()) :
    vkMkMv w = (0, 1, 3) := by
  unfold requireQ4 at hq4
  split_ifs at hq4 with hdtype
  rw [vkMkMv, hdtype]
  rfl

theorem vkMkMv_gateup {i : ℕ} {asQ3 : Bool} {w : VkWeight}
    (hload : loadGateup quantize gguf i asQ3 = .ok w) : vkMkMv w = (0, 1, 3) := by
  unfold loadGateup at hload
  obtain ⟨g, -, hload⟩ := bind_eq_ok.mp hload
  obtain ⟨u, -, hload⟩ := bind_eq_ok.mp hload
  obtain ⟨-, -, hload⟩ := bind_eq_ok.mp hload
  obtain ⟨-, -, hload⟩ := bind_eq_ok.mp hload
  obtain ⟨cols, -, hload⟩ := bind_eq_ok.mp hload
  split_ifs at hload
  · obtain rfl := pure_eq_ok.mp hload
    rfl
  · obtain rfl := pure_eq_ok.mp hload
    rfl

theorem sum_layerOps {nEmbd kvDim nInter i : ℕ} {l : VkLayer}
    (hload : loadVkLayer quantize env gguf nEmbd kvDim nInter i = .ok l) :
    (layerOps l).sum = (0, 17 + env.fusedQkv.toNat, 52 + 5 * env.fusedQkv.toNat +
      3 * (sixBit gguf (.blk i .attnV) + sixBit gguf (.blk i .ffnDown))) := by
  unfold loadVkLayer at hload
  obtain ⟨attnNorm, -, hload⟩ := bind_eq_ok.mp hload
  obtain ⟨ffnNorm, -, hload⟩ := bind_eq_ok.mp hload
  obtain ⟨wq, -, hload⟩ := bind_eq_ok.mp hload
  obtain ⟨wk, -, hload⟩ := bind_eq_ok.mp hload
  obtain ⟨wv, hwv, hload⟩ := bind_eq_ok.mp hload
  obtain ⟨wo, -, hload⟩ := bind_eq_ok.mp hload
  obtain ⟨w13, hw13, hload⟩ := bind_eq_ok.mp hload
  obtain ⟨w13Q3, hw13Q3, hload⟩ := bind_eq_ok.mp hload
  obtain ⟨w2, hw2, hload⟩ := bind_eq_ok.mp hload
  obtain ⟨wqk, hwqk, hload⟩ := bind_eq_ok.mp hload
  obtain ⟨_, hq, hload⟩ := bind_eq_ok.mp hload
  obtain ⟨_, hk, hload⟩ := bind_eq_ok.mp hload
  obtain ⟨wvDeq, -, hload⟩ := bind_eq_ok.mp hload
  obtain ⟨w2Deq, -, hload⟩ := bind_eq_ok.mp hload
  obtain ⟨wvF16, -, hload⟩ := bind_eq_ok.mp hload
  obtain ⟨w2F16, -, hload⟩ := bind_eq_ok.mp hload
  obtain ⟨_, ho, hload⟩ := bind_eq_ok.mp hload
  obtain rfl := pure_eq_ok.mp hload
  have hgateup : vkMkMv (w13Q3.getD w13) = (0, 1, 3) := by
    rcases loadWhen_eq_ok hw13Q3 with ⟨-, rfl⟩ | ⟨b, -, hb, rfl⟩
    · exact vkMkMv_gateup hw13
    · exact vkMkMv_gateup hb
  have hfused : wqk.isSome = env.fusedQkv := by
    rcases loadWhen_eq_ok hwqk with ⟨hoff, rfl⟩ | ⟨b, hon, -, rfl⟩
    · exact hoff.symm
    · exact hon.symm
  simp only [layerOps, hfused, vkMkMv_q4 hq, vkMkMv_q4 hk, vkMkMv_q4 ho, vkMkMv_eq hwv,
    vkMkMv_eq hw2, hgateup]
  cases env.fusedQkv <;> simp [mkset] <;> omega

theorem sum_flatMap_layerOps {is : List ℕ} {layers : List VkLayer} {sum : ℕ → Request}
    (hlayers : List.Forall₂ (fun i l => (layerOps l).sum = sum i) is layers) :
    (layers.flatMap layerOps).sum = (is.map sum).sum := by
  induction hlayers with
  | nil => rfl
  | cons hlayer _ ih => rw [List.flatMap_cons, List.sum_append, hlayer, ih, List.map_cons,
      List.sum_cons]

theorem sum_map_request (a b : ℕ) (extra : ℕ → ℕ) (is : List ℕ) :
    (is.map fun i => ((0, a, b + 3 * extra i) : Request)).sum =
      (0, is.length * a, is.length * b + 3 * (is.map extra).sum) := by
  induction is with
  | nil =>
    rw [List.length_nil, zero_mul, zero_mul]
    rfl
  | cons i is ih =>
    rw [List.map_cons, List.sum_cons, ih, List.map_cons, List.sum_cons, List.length_cons]
    refine Prod.ext rfl (Prod.ext ?_ ?_)
    · show a + is.length * a = (is.length + 1) * a
      ring
    · show b + 3 * extra i + (is.length * b + 3 * _) = (is.length + 1) * b + 3 * (extra i + _)
      ring

variable {hp : HParams} {m : VkModelWeights}

theorem mkset_lmHead (hload : VkModelWeights.load quantize env gguf = .ok m) :
    mkset (if m.lmQ4 then 3 else 6) = (0, 1, 3 + 3 * sixBit gguf .tokenEmbd) := by
  unfold VkModelWeights.load at hload
  obtain ⟨hp, -, hload⟩ := bind_eq_ok.mp hload
  obtain ⟨headDim, -, hload⟩ := bind_eq_ok.mp hload
  obtain ⟨embedQt, hembed, hload⟩ := bind_eq_ok.mp hload
  obtain ⟨vocab, -, hload⟩ := bind_eq_ok.mp hload
  obtain ⟨lmHead, hhead, hload⟩ := bind_eq_ok.mp hload
  obtain ⟨norm, -, hload⟩ := bind_eq_ok.mp hload
  obtain ⟨gate, -, hload⟩ := bind_eq_ok.mp hload
  obtain ⟨nInter, -, hload⟩ := bind_eq_ok.mp hload
  obtain ⟨layers, -, hload⟩ := bind_eq_ok.mp hload
  obtain rfl := pure_eq_ok.mp hload
  simp only [mkset, sixBit, Gguf.tensor_eq_ok.mp hembed, Option.map_some, Option.some.injEq,
    decide_eq_true_eq]
  unfold loadVkLmHead at hhead
  split_ifs at hhead with hsix hother
  · rw [hsix]
    rfl
  · rw [hother]
    rfl

theorem length_layers (hread : HParams.read gguf.metadata ArchSpec.llama = .ok hp)
    (hload : VkModelWeights.load quantize env gguf = .ok m) : m.layers.length = hp.nLayers := by
  obtain ⟨hp', headDim, hmodel⟩ := VkModelWeights.load_read hload
  obtain rfl := Except.ok.inj
    (hread.symm.trans (hmodel.plain (VkLayer.decodeDense 0 0 0)).read)
  rw [← hmodel.layers.length_eq, List.length_range]

theorem sum_loadRequests (hread : HParams.read gguf.metadata ArchSpec.llama = .ok hp)
    (hload : VkModelWeights.load quantize env gguf = .ok m) :
    (loadRequests m).sum = (0, 6 + hp.nLayers * (17 + env.fusedQkv.toNat),
      17 + hp.nLayers * (52 + 5 * env.fusedQkv.toNat) + 3 * sixBitTensors gguf hp.nLayers) := by
  have hhead := mkset_lmHead hload
  obtain ⟨hp', headDim, hmodel⟩ := VkModelWeights.load_read hload
  obtain rfl := Except.ok.inj
    (hread.symm.trans (hmodel.plain (VkLayer.decodeDense 0 0 0)).read)
  have hlayers := sum_flatMap_layerOps (hmodel.layers.imp fun _ _ => sum_layerOps)
  rw [loadRequests, List.sum_append, hlayers, hhead, sum_map_request, List.length_range,
    sixBitTensors]
  refine Prod.ext rfl (Prod.ext ?_ ?_)
  · simp [mkset]
  · simp [mkset]
    ring

theorem sixBitTensors_le (gguf : Gguf) (layers : ℕ) :
    sixBitTensors gguf layers ≤ 1 + layers * 2 := by
  have hone (name : TensorName) : sixBit gguf name ≤ 1 := by
    rw [sixBit]
    split_ifs <;> simp
  have hall := List.sum_le_card_nsmul
    ((List.range layers).map fun i => sixBit gguf (.blk i .attnV) + sixBit gguf (.blk i .ffnDown)) 2
  rw [List.length_map, List.length_range, smul_eq_mul] at hall
  rw [sixBitTensors]
  refine Nat.add_le_add (hone _) (hall fun count hcount => ?_)
  obtain ⟨i, -, rfl⟩ := List.mem_map.mp hcount
  exact Nat.add_le_add (hone _) (hone _)

/-- **Loading.** Its pool is too small only for fused rows and many tensors in six bits. -/
theorem load_serves_iff (hread : HParams.read gguf.metadata ArchSpec.llama = .ok hp)
    (hload : VkModelWeights.load quantize env gguf = .ok m)
    (hlayers : hp.nLayers * 60 + 64 < 2 ^ 32) :
    (Pool.serve (descPool m.layers.length) 0 (loadRequests m)).isSome ↔
      (env.fusedQkv → sixBitTensors gguf hp.nLayers ≤ hp.nLayers + 15) := by
  have hmost := sixBitTensors_le gguf hp.nLayers
  rw [Pool.serve_isSome_iff, sum_loadRequests hread hload, length_layers hread hload, descPool,
    Nat.mod_eq_of_lt (by omega), Nat.mod_eq_of_lt hlayers]
  simp only [Prod.mk_le_mk]
  cases env.fusedQkv <;> simp <;> omega

end Load

/-- **Recording resources.** Loading and all verifications of an accepted file find what they take
exactly if the file has no more layers than the fixed uniform buffers suffice for and, with fused
query and key rows, at most fifteen tensors in six bits more than layers. -/
theorem recording_within_iff {quantize : GgmlDType → List ℚ → List ℚ} {env : VkEnv} {gguf : Gguf}
    {hp : HParams} {m : VkModelWeights} (venv : VerifyEnv)
    (hread : HParams.read gguf.metadata ArchSpec.llama = .ok hp)
    (hload : VkModelWeights.load quantize env gguf = .ok m) :
    WithinPools venv m ↔ hp.nLayers ≤ venv.deepest ∧
      (env.fusedQkv → sixBitTensors gguf hp.nLayers ≤ hp.nLayers + 15) := by
  have hroom : verifyMaxM ≤ m.maxSeq := by
    rw [(loaded_of_load hload).maxSeq]
    decide
  have hdeepest : venv.deepest ≤ 62 := by
    rw [VerifyEnv.deepest]
    split_ifs <;> decide
  have hverify := verify_serves_all_iff venv hroom
  rw [length_layers hread hload] at hverify
  constructor
  · intro hwithin
    have hshallow := hverify.mp (length_layers hread hload ▸ hwithin.verify)
    exact ⟨hshallow, (load_serves_iff hread hload (by omega)).mp hwithin.load⟩
  · rintro ⟨hshallow, hsix⟩
    refine ⟨(load_serves_iff hread hload (by omega)).mpr hsix, ?_⟩
    rw [length_layers hread hload]
    exact hverify.mpr hshallow

/-- A file of 31 layers. -/
theorem recording_within_31_layers :
    WithinPools ⟨false, false, false⟩ (uniformVkModel (layersOf 31)) := by
  have hread : HParams.read (sixBitGguf (layersOf 31)).metadata ArchSpec.llama =
      .ok (uniformHParams (layersOf 31)) := read_uniform _
  refine (recording_within_iff _ hread (vk_loads_layersOf 31)).mpr ⟨?_, ?_⟩
  · decide
  · intro hfused
    cases hfused

/-- A file of 32 layers loads, and no verification of it finds its uniform buffers. -/
theorem recording_exceeds_32_layers :
    ¬ ∀ (quantize : GgmlDType → List ℚ → List ℚ) (env : VkEnv) (gguf : Gguf) (m : VkModelWeights),
      VkModelWeights.load quantize env gguf = .ok m → WithinPools ⟨false, false, false⟩ m := by
  intro hall
  have hwithin := hall _ _ _ _ (vk_loads_layersOf 32)
  have hroom : 0 + 1 ≤ gpuMaxSeq := by decide
  have hverify := hwithin.verify [0] 0 le_rfl (by decide) hroom
  rw [verify_serves_iff _ _ (by decide)] at hverify
  have hlayers : (uniformVkModel (layersOf 32)).layers.length = 32 := List.length_replicate
  rw [hlayers] at hverify
  exact absurd hverify (by decide)

end Zllm.Vulkan.VkPass
