import Zllm.Candle.StandalonePasses
import Zllm.Engine.Unrolled

/-!
# The inference runner over a candle model

Where hooks only read, `InferenceRunner::generate` over a candle backend draws its first token from
the logits that one pass through the model with repeated reasoning layers gives, and every later one
from those of one pass through the model itself.
-/

namespace Zllm.Dense

open Reasoning
open Extended (fin)

/-- The number in a cell of a finite tensor. -/
def real : Extended ℝ → ℝ
  | fin x => x
  | _ => 0

theorem map_real_fin (xs : List ℝ) : (xs.map fin).map real = xs := by
  rw [List.map_map]
  exact List.map_id xs

/-- The rows of a tensor one behind the other. -/
def tensor (width : ℕ) (x : List Row) : Tensor := (Backend.flatten width x).map fin

/-- `impl Backend for CandleCpuBackend`, as the runner sees it. -/
noncomputable def candleBackend : Reasoning.Backend Backend CandleError where
  nLayers b := b.nLayers
  embedTokens b tokens := (b.embedTokens tokens).map (·.map fin)
  forwardLayer b layerIdx hidden seqLen :=
    match b.forwardLayer layerIdx (hidden.map real) seqLen with
    | (.error e, _) => .error e
    | (.ok out, b) => .ok (out.map fin, b)
  computeLogits b hidden := (b.computeLogits (hidden.map real)).map (·.map fin)

/-- A backend with the weights of `m`, whatever its caches hold. -/
structure Ready (m : ModelWeights) (width : ℕ) (b : Backend) : Prop where
  model : ∃ m', b.model = some m' ∧ Like m m'
  nLayers : b.nLayers = m.layers.length
  hiddenSize : b.hiddenSize = width

namespace Ready

variable {m : ModelWeights} {width : ℕ} {b : Backend} {path tokens : List ℕ}

/-- The rows behind the first `l` layers of the list. -/
noncomputable def hiddenAt (m : ModelWeights) (width : ℕ) (path tokens : List ℕ) (l : ℕ) : Tensor :=
  tensor width (rowsFrom 0 tokens.length ((m.unrolled path).rowAt unhooked tokens l))

theorem rowsOf_hiddenAt (hwide : m.Wide width) (path tokens : List ℕ) (l : ℕ) :
    Backend.rowsOf tokens.length width ((hiddenAt m width path tokens l).map real) =
      rowsFrom 0 tokens.length ((m.unrolled path).rowAt unhooked tokens l) := by
  have hrows : ∀ row ∈ rowsFrom 0 tokens.length ((m.unrolled path).rowAt unhooked tokens l),
      Tile.cut width row = row := by
    intro row hrow
    obtain ⟨i, -, rfl⟩ := List.mem_map.mp hrow
    exact rowAt_wide (hwide.unrolled path) tokens l _
  have hback := rowsOf_flatten hrows
  rwa [rowsFrom_length, ← map_real_fin (Backend.flatten _ _)] at hback

theorem hiddenAt_length (m : ModelWeights) (width : ℕ) (path tokens : List ℕ) (l : ℕ) :
    ((hiddenAt m width path tokens l).map real).length = tokens.length * width := by
  rw [List.length_map, hiddenAt, tensor, List.length_map, flatten_length, rowsFrom_length]

theorem embedTokens (hb : Ready m width b) (path : List ℕ) (hne : tokens ≠ [])
    (htokens : ∀ t ∈ tokens, t < m.vocabSize) :
    candleBackend.embedTokens b tokens = .ok (hiddenAt m width path tokens 0) := by
  obtain ⟨⟨m', hmodel, hlike⟩, -, hwidth⟩ := hb
  have hempty : ¬ tokens.isEmpty = true := by simpa using hne
  have hvocab : tokens.all (· < m'.vocabSize) = true := by
    rw [hlike.rest]
    simpa using htokens
  have hrows : tokens.map m'.tokEmbeddings =
      rowsFrom 0 tokens.length ((m.unrolled path).rowAt unhooked tokens 0) := by
    rw [hlike.rest]
    exact embedded_eq (m := m.unrolled path) unhooked [] tokens
  show (b.embedTokens tokens).map _ = _
  rw [Backend.embedTokens, hmodel]
  simp only [if_neg hempty, if_pos hvocab, hrows, hwidth]
  rfl

theorem forwardLayer (hb : Ready m width b) (hwide : m.Wide width) (hne : tokens ≠ [])
    (hpath : ∀ j ∈ path, j < m.layers.length) (hroom : m.Room tokens.length) {l j : ℕ}
    (hj : path[l]? = some j) :
    ∃ b', Ready m width b' ∧
      candleBackend.forwardLayer b j (hiddenAt m width path tokens l) tokens.length =
        .ok (hiddenAt m width path tokens (l + 1), b') := by
  obtain ⟨⟨m', hmodel, hlike⟩, hlayers, hwidth⟩ := hb
  obtain ⟨m'', hlike', hforward⟩ := hlike.forwardOneLayer b.device hpath hroom hj
  refine ⟨{ b with model := some m'' }, ⟨⟨m'', rfl, hlike'⟩, hlayers, hwidth⟩, ?_⟩
  have hshape : ¬ (tokens.length = 0 ∨
      ((hiddenAt m width path tokens l).map real).length ≠ tokens.length * b.hiddenSize) := by
    rw [hiddenAt_length, hwidth]
    simpa using hne
  simp only [candleBackend, Backend.forwardLayer, if_neg hshape, hmodel]
  rw [hwidth, rowsOf_hiddenAt hwide, hforward]
  rfl

theorem computeLogits (hb : Ready m width b) (hwide : m.Wide width) (hne : tokens ≠ [])
    (hpath : ∀ j ∈ path, j < m.layers.length) :
    candleBackend.computeLogits b (hiddenAt m width path tokens path.length) =
      .ok (tensor m.vocabSize [(m.unrolled path).logitsAt unhooked tokens]) := by
  obtain ⟨⟨m', hmodel, hlike⟩, -, hwidth⟩ := hb
  have hlen := hiddenAt_length m width path tokens path.length
  have hshape : ¬ (b.hiddenSize = 0 ∨
      ((hiddenAt m width path tokens path.length).map real).isEmpty = true ∨
      ((hiddenAt m width path tokens path.length).map real).length % b.hiddenSize ≠ 0) := by
    rw [List.isEmpty_iff, ← List.length_eq_zero_iff, hlen, hwidth, Nat.mul_mod_left]
    have hpos := hwide.pos
    have hlenpos := List.length_pos_iff.mpr hne
    have := Nat.mul_pos hlenpos hpos
    omega
  have hlast : (m.unrolled path).lastLogits (rowsFrom ([] : List Token).length tokens.length
      ((m.unrolled path).rowAt unhooked ([] ++ tokens) (m.unrolled path).layers.length)) =
        (m.unrolled path).logitsAt unhooked ([] ++ tokens) := lastLogits_rowsFrom hne
  simp only [candleBackend, Backend.computeLogits, if_neg hshape, hmodel]
  rw [hlen, hwidth, Nat.mul_div_cancel _ hwide.pos, rowsOf_hiddenAt hwide, hlike.rest]
  rw [ModelWeights.unrolled_length hpath, List.nil_append, List.length_nil] at hlast
  rw [← hlast]
  rfl

end Ready

/-! ### The runner -/

section

variable {W : Type} {r : InferenceRunner Backend W CandleError} {m : ModelWeights} {width : ℕ}
  {b : Backend} {tokens : List ℕ}

theorem forwardLayers_ready (hr : r.backend = candleBackend) (hwide : m.Wide width)
    (hne : tokens ≠ []) (hroom : m.Room tokens.length) (done rest : List ℕ)
    (hpath : ∀ j ∈ done ++ rest, j < m.layers.length) (hb : Ready m width b) :
    ∃ b', Ready m width b' ∧
      r.forwardLayers tokens.length rest
          (Ready.hiddenAt m width (done ++ rest) tokens done.length, b) =
        .ok (Ready.hiddenAt m width (done ++ rest) tokens (done ++ rest).length, b') := by
  induction rest generalizing done b with
  | nil =>
    refine ⟨b, hb, ?_⟩
    rw [List.append_nil]
    rfl
  | cons j rest ih =>
    have hj : (done ++ j :: rest)[done.length]? = some j := by simp
    obtain ⟨b₁, hb₁, hlayer⟩ := hb.forwardLayer hwide hne hpath hroom hj
    have hsplit : done ++ [j] ++ rest = done ++ j :: rest := List.append_assoc _ _ _
    obtain ⟨b₂, hb₂, hrest⟩ := ih (done ++ [j]) (by rwa [hsplit]) hb₁
    refine ⟨b₂, hb₂, ?_⟩
    rw [hsplit, List.length_append, List.length_singleton] at hrest
    rw [InferenceRunner.forwardLayers, hr, hlayer]
    exact hrest

/-- A standalone pass through a list of layers. -/
theorem pass_ready (hr : r.backend = candleBackend) (hwide : m.Wide width) (hne : tokens ≠ [])
    (htokens : ∀ t ∈ tokens, t < m.vocabSize) (hroom : m.Room tokens.length) {path : List ℕ}
    (hpath : ∀ j ∈ path, j < m.layers.length) (hb : Ready m width b) :
    ∃ b', Ready m width b' ∧ r.pass b tokens path =
      .ok (tensor m.vocabSize [(m.unrolled path).logitsAt unhooked tokens], b') := by
  obtain ⟨b', hb', hlayers⟩ := forwardLayers_ready hr hwide hne hroom [] path hpath hb
  refine ⟨b', hb', ?_⟩
  rw [InferenceRunner.pass, hr, hb.embedTokens path hne htokens]
  simp only [bind, Except.bind]
  rw [show r.forwardLayers tokens.length path (Ready.hiddenAt m width path tokens 0, b) = _ from
    hlayers]
  simp only [List.nil_append]
  rw [hb'.computeLogits hwide hne hpath]
  rfl

/-- The logits of one pass over these tokens from empty caches. -/
noncomputable def singleLogits (m : ModelWeights) (dev : Device) (tokens : List ℕ) :
    Except CandleError Tensor :=
  (singleShot m dev (fun _ _ => none) tokens).1.map fun row => tensor m.vocabSize [row]

theorem singleLogits_eq (dev : Device) (hmasks : CausalMasks m.masks) (hne : tokens ≠ [])
    (htokens : Known m tokens) :
    singleLogits m dev tokens = .ok (tensor m.vocabSize [m.logitsAt unhooked tokens]) := by
  have hrow : RowWise (fun _ _ => none) unhooked := fun l x => (List.map_id x).symm
  rw [singleLogits, singleShot_fst dev hmasks hrow hne htokens]
  rfl

theorem tensor_length (width : ℕ) (x : List Row) : (tensor width x).length = x.length * width := by
  rw [tensor, List.length_map, flatten_length]

/-- What the sampler draws from logits of the vocabulary is in it. -/
def DrawsKnown (r : InferenceRunner Backend W CandleError) (m : ModelWeights) : Prop :=
  ∀ step logits, logits.length = m.vocabSize → r.draw step logits < m.vocabSize

theorem DrawsKnown.known (hdraw : DrawsKnown r m) {all : List ℕ}
    (hall : ∀ t ∈ all, t < m.vocabSize) (step : ℕ) {logits : Tensor}
    (hlogits : logits.length = m.vocabSize) :
    ∀ t ∈ all ++ [r.draw step logits], t < m.vocabSize := by
  intro t ht
  rcases List.mem_append.mp ht with hold | hnew
  · exact hall t hold
  · rw [List.mem_singleton.mp hnew]
    exact hdraw _ _ hlogits

theorem room_append {all : List ℕ} {remaining : ℕ} (hroom : m.Room (all.length + (remaining + 1)))
    (token : ℕ) : m.Room ((all ++ [token]).length + remaining) := by
  rwa [List.length_append, List.length_singleton, Nat.add_assoc, Nat.add_comm 1]

theorem known_unrolled {tokens : List ℕ} (htokens : ∀ t ∈ tokens, t < m.vocabSize)
    (hroom : m.Room tokens.length) (path : List ℕ) : Known (m.unrolled path) tokens := by
  refine ⟨htokens, fun w hw => ?_⟩
  obtain ⟨j, -, hj⟩ := List.mem_filterMap.mp hw
  exact hroom w (List.mem_of_getElem? hj)

theorem decode_ready (hr : r.backend = candleBackend) (hwide : m.Wide width)
    (hmasks : CausalMasks m.masks) (hdraw : DrawsKnown r m) (dev : Device) (maxTokens : ℕ)
    (remaining : ℕ) (all output : List ℕ) (logits : Tensor) (hall : ∀ t ∈ all, t < m.vocabSize)
    (hroom : m.Room (all.length + remaining)) (hlogits : logits.length = m.vocabSize)
    (hb : Ready m width b) :
    r.decode maxTokens m.layers.length remaining all output logits b =
      r.drawFrom (singleLogits m dev) maxTokens remaining all output logits := by
  induction remaining generalizing all output logits b with
  | zero => rfl
  | succ remaining ih =>
    rw [InferenceRunner.decode_succ, InferenceRunner.drawFrom]
    dsimp only
    split_ifs with hstop
    · rfl
    · set tokenId := r.draw output.length logits
      have htokens := hdraw.known hall output.length hlogits
      have hrest := room_append hroom tokenId
      have hroom' : m.Room (all ++ [tokenId]).length := fun w hw => le_of_add_le_left (hrest w hw)
      have hne : all ++ [tokenId] ≠ [] := by simp
      have hrange : ∀ j ∈ List.range m.layers.length, j < m.layers.length := fun j hj =>
        List.mem_range.mp hj
      obtain ⟨b', hb', hpass⟩ := pass_ready hr hwide hne htokens hroom' hrange hb
      rw [m.unrolled_range] at hpass
      rw [hpass, singleLogits_eq dev hmasks hne ⟨htokens, hroom'⟩]
      exact ih _ _ _ htokens hrest (by rw [tensor_length]; exact Nat.one_mul _) hb'

/-- A run with `k` reasoning loops over single passes: the first token from the model with as many
copies of its reasoning layers, every later one from the model itself. -/
noncomputable def generateSingleShot (r : InferenceRunner Backend W CandleError) (m : ModelWeights)
    (dev : Device) (k : ℕ) (promptTokens : List ℕ) (maxTokens : ℕ) :
    Except CandleError (List ℕ) := do
  let logits ← singleLogits (m.unrolled (r.unrolled m.layers.length k)) dev promptTokens
  r.drawFrom (singleLogits m dev) maxTokens maxTokens promptTokens [] logits

theorem generateUnrolled_ready (hr : r.backend = candleBackend) (hwide : m.Wide width)
    (hmasks : CausalMasks m.masks) (hdraw : DrawsKnown r m) (dev : Device) (hne : tokens ≠ [])
    (htokens : ∀ t ∈ tokens, t < m.vocabSize) (maxTokens : ℕ)
    (hroom : m.Room (tokens.length + maxTokens)) (hb : Ready m width b) (k : ℕ) :
    r.generateUnrolled k b tokens maxTokens = generateSingleShot r m dev k tokens maxTokens := by
  have hlayers : r.backend.nLayers b = m.layers.length := by
    rw [hr]
    exact hb.nLayers
  have hpath : ∀ j ∈ r.unrolled m.layers.length k, j < m.layers.length := fun j hj =>
    r.unrolled_lt hj
  have hroom' : m.Room tokens.length := fun w hw => le_of_add_le_left (hroom w hw)
  have hknown := known_unrolled htokens hroom' (r.unrolled m.layers.length k)
  obtain ⟨b', hb', hpass⟩ := pass_ready hr hwide hne htokens hroom' hpath hb
  have hfirst := singleLogits_eq (m := m.unrolled _) dev hmasks hne hknown
  rw [InferenceRunner.generateUnrolled, generateSingleShot, hlayers, hpass, hfirst]
  exact decode_ready hr hwide hmasks hdraw dev maxTokens maxTokens tokens [] _ htokens hroom
    (by rw [tensor_length]; exact Nat.one_mul _) hb'

end

/-- Over a loaded model, whatever its backend has gone through since: a run whose hooks only read
draws its first token from one pass through the model with its reasoning layers repeated, and every
later one from one pass through the model itself. -/
theorem generate_single_shot {W : Type} (r : InferenceRunner Backend W CandleError)
    (hbackend : r.backend = candleBackend) (hhooks : ∀ hook ∈ r.hooks, hook.Observes)
    (loaded : Backend) (hloaded : ∀ m, loaded.model = some m → m.masks = []) (earlier : List Call)
    (onLayer : ℕ → List Row → Option (List Row)) (m : ModelWeights)
    (hmodel : (loaded.run onLayer earlier).2.model = some m)
    (hlayers : (loaded.run onLayer earlier).2.nLayers = m.layers.length)
    (hwide : m.Wide (loaded.run onLayer earlier).2.hiddenSize) (hdraw : DrawsKnown r m)
    (world : W) (promptTokens : List ℕ) (hne : promptTokens ≠ [])
    (hknown : ∀ t ∈ promptTokens, t < m.vocabSize) (maxTokens : ℕ)
    (hroom : m.Room (promptTokens.length + maxTokens)) (budget : ReasoningBudget)
    (requestId : String) :
    let b := (loaded.run onLayer earlier).2
    ∃ k ≤ budget.maxLoops,
      (r.generate b world promptTokens maxTokens budget requestId).map (·.map (·.tokens)) =
        some (generateSingleShot r m b.device k promptTokens maxTokens) ∧
      ∀ result, r.generate b world promptTokens maxTokens budget requestId = some (.ok result) →
        result.reasoningLoopsUsed = k := by
  intro b
  have hmasks : CausalMasks m.masks := run_causalMasks hloaded onLayer earlier m hmodel
  have hready : Ready m b.hiddenSize b := ⟨⟨m, hmodel, rfl, rfl, hmasks⟩, hlayers, rfl⟩
  obtain ⟨k, hk, hrun, hloops⟩ := r.generate_unrolled hhooks b world promptTokens maxTokens
    budget requestId
  refine ⟨k, hk, ?_, hloops⟩
  rw [hrun, generateUnrolled_ready hbackend hwide hmasks hdraw b.device hne hknown maxTokens hroom
    hready]

/-! ### A run -/

section

variable {W : Type} {r : InferenceRunner Backend W CandleError} {m : ModelWeights} {dev : Device}

/-- Known tokens for which there is room have logits. -/
theorem drawFrom_ok (hmasks : CausalMasks m.masks) (hdraw : DrawsKnown r m)
    (maxTokens remaining : ℕ) (all output : List ℕ) (logits : Tensor) (hall : ∀ t ∈ all, t < m.vocabSize)
    (hroom : m.Room (all.length + remaining)) (hlogits : logits.length = m.vocabSize) :
    ∃ tokens, r.drawFrom (singleLogits m dev) maxTokens remaining all output logits =
      .ok tokens := by
  induction remaining generalizing all output logits with
  | zero => exact ⟨output, rfl⟩
  | succ remaining ih =>
    rw [InferenceRunner.drawFrom]
    split_ifs
    · exact ⟨_, rfl⟩
    · set tokenId := r.draw output.length logits
      have htokens := hdraw.known hall output.length hlogits
      have hrest := room_append hroom tokenId
      have hroom' : m.Room (all ++ [tokenId]).length := fun w hw => le_of_add_le_left (hrest w hw)
      rw [singleLogits_eq dev hmasks (by simp) ⟨htokens, hroom'⟩]
      exact ih _ _ _ htokens hrest (by rw [tensor_length]; exact Nat.one_mul _)

theorem generateSingleShot_ok (hmasks : CausalMasks m.masks) (hdraw : DrawsKnown r m) (k : ℕ)
    {tokens : List ℕ} (hne : tokens ≠ []) (htokens : ∀ t ∈ tokens, t < m.vocabSize) (maxTokens : ℕ)
    (hroom : m.Room (tokens.length + maxTokens)) :
    ∃ answer, generateSingleShot r m dev k tokens maxTokens = .ok answer := by
  have hroom' : m.Room tokens.length := fun w hw => le_of_add_le_left (hroom w hw)
  have hknown := known_unrolled htokens hroom' (r.unrolled m.layers.length k)
  have hfirst := singleLogits_eq (m := m.unrolled _) dev hmasks hne hknown
  rw [generateSingleShot, hfirst]
  exact drawFrom_ok hmasks hdraw maxTokens maxTokens tokens [] _ htokens hroom
    (by rw [tensor_length]; exact Nat.one_mul _)

/-- Behind the encoding zone there is a row for each token. -/
theorem encode_length {width : ℕ} {b : Backend} {tokens : List ℕ} (hr : r.backend = candleBackend)
    (hwide : m.Wide width) (hne : tokens ≠ []) (htokens : ∀ t ∈ tokens, t < m.vocabSize)
    (hroom : m.Room tokens.length) (hb : Ready m width b) {world : W} {budget : ReasoningBudget}
    {requestId : String} {p : InferenceRunner.Plan} {start : LoopState Backend W}
    (hencode : r.encode b world tokens budget requestId = .ok (p, start)) :
    start.zone.fired.hidden.length = tokens.length * width := by
  have hrange : ∀ j ∈ [] ++ List.range (min 8 (r.backend.nLayers b)), j < m.layers.length := by
    intro j hj
    rw [List.nil_append, List.mem_range, hr] at hj
    exact (lt_min_iff.mp hj).2.trans_eq hb.nLayers
  obtain ⟨b', -, hlayers⟩ := forwardLayers_ready hr hwide hne hroom [] _ hrange hb
  rw [InferenceRunner.encode, hr, hb.embedTokens _ hne htokens] at hencode
  simp only [bind, Except.bind] at hencode
  rw [hr] at hlayers
  rw [show r.forwardLayers tokens.length (List.range (min 8 (candleBackend.nLayers b)))
    (Ready.hiddenAt m width _ tokens 0, b) = _ from hlayers] at hencode
  cases hencode
  rw [← List.length_map, Ready.hiddenAt_length]

end

/-- It counts the layers of the reasoning zone that were run. -/
def countingHook : Hook ℕ where
  targetLayers _ := [8, 9]
  onLayer _ _ f := (.modifyState, { f with world := f.world + 1 })

/-- A runner of the narrow model with two reasoning layers of twelve, that draws by turns. -/
noncomputable def narrowRunner : InferenceRunner Backend ℕ CandleError where
  floats := .float32
  backend := candleBackend
  hooks := [countingHook]
  dModel := 2
  reasoningLayers := 2
  eosTokens := []
  draw step _ := step % 2

/-- A budget whose confidence is never reached. -/
noncomputable def patientBudget : ReasoningBudget where
  maxLoops := 8
  maxMemoryMb := 64
  confidenceThreshold := Extended.ofRat 2
  perTokenAdaptive := true

theorem narrow_wide (held : List Token) (masks : List ((ℕ × ℕ) × Mask)) :
    (narrowModel.holding unhooked held masks).Wide 2 where
  pos := Nat.two_pos
  embeddings _ := Tile.cut_cut 2 _
  attention b hb x := by
    obtain ⟨j, hj, rfl⟩ := List.mem_mapIdx.mp hb
    obtain ⟨l, -, hl⟩ := List.mem_map.mp (List.getElem_mem hj)
    rw [← hl]
    exact Tile.cut_cut 2 x
  mlp b hb x := by
    obtain ⟨j, hj, rfl⟩ := List.mem_mapIdx.mp hb
    obtain ⟨l, -, hl⟩ := List.mem_map.mp (List.getElem_mem hj)
    rw [← hl]
    exact Tile.cut_cut 2 x

/-- Behind another prompt, five tokens with two reasoning loops or more. -/
theorem generate_single_shot_narrow :
    let b := (narrowBackend.run (fun _ _ => none) [.forwardLogits [1, 0]]).2
    ∃ m k result, b.model = some m ∧ 2 ≤ k ∧ k ≤ 8 ∧
      narrowRunner.generate b 0 [0, 1, 1, 0, 1] 3 patientBudget "" = some (.ok result) ∧
      result.reasoningLoopsUsed = k ∧
      generateSingleShot narrowRunner m b.device k [0, 1, 1, 0, 1] 3 = .ok result.tokens := by
  intro b
  obtain ⟨masks, hmasks, hmodel⟩ := narrow_used
  set m := narrowModel.holding unhooked [1, 0] masks with hm
  have hroom (n : ℕ) (hn : n ≤ 8) : m.Room n :=
    holding_room (narrow_room n hn) unhooked [1, 0] masks
  have hhooks : ∀ hook ∈ narrowRunner.hooks, hook.Observes := by
    intro hook hhook
    rw [List.mem_singleton.mp hhook]
    exact fun _ _ _ => ⟨rfl, fun _ => HookAction.noConfusion⟩
  have hdraw : DrawsKnown narrowRunner m := fun step _ _ => Nat.mod_lt step Nat.two_pos
  have hknown : ∀ t ∈ [0, 1, 1, 0, 1], t < m.vocabSize := show ∀ t ∈ [0, 1, 1, 0, 1], t < 2 by decide
  have hlayers : b.nLayers = m.layers.length := by
    rw [hm, ModelWeights.holding, holdLayers, List.length_mapIdx]
    rfl
  obtain ⟨k, hk, hrun, hloops⟩ := generate_single_shot narrowRunner rfl hhooks narrowBackend
    (fun m hm => by cases hm; rfl) [.forwardLogits [1, 0]] (fun _ _ => none) m hmodel hlayers
    (narrow_wide [1, 0] masks) hdraw 0 [0, 1, 1, 0, 1] (by decide) hknown 3 (hroom 8 le_rfl)
    patientBudget ""
  obtain ⟨answer, hanswer⟩ : ∃ answer,
      generateSingleShot narrowRunner m b.device k [0, 1, 1, 0, 1] 3 = .ok answer :=
    generateSingleShot_ok hmasks hdraw k (by decide) hknown 3 (hroom 8 le_rfl)
  rw [hanswer] at hrun
  obtain ⟨outcome, hgenerate, htokens⟩ := Option.map_eq_some_iff.mp hrun
  obtain ⟨result, rfl, rfl⟩ : ∃ result, outcome = .ok result ∧ result.tokens = answer := by
    cases outcome with
    | error e => cases htokens
    | ok result => exact ⟨result, rfl, Except.ok.inj htokens⟩
  have hthreshold : (1 : Extended ℝ) < Extended.ofRat 2 := by
    show (1 : ℝ) < ((2 : ℚ) : ℝ)
    norm_num
  obtain ⟨p, start, hencode, hplanned⟩ :=
    InferenceRunner.planned_completed hhooks hgenerate hthreshold (by decide)
  have hlong := encode_length rfl (narrow_wide [1, 0] masks) (by decide) hknown
    (hroom 5 (by decide)) ⟨⟨m, hmodel, rfl, rfl, hmasks⟩, hlayers, rfl⟩ hencode
  have htwo : 2 ≤ p.nLoopsNeeded := by
    rw [(InferenceRunner.encode_planned hencode).1]
    exact two_le_loopsNeeded rfl (by decide) (by decide) le_rfl (by decide)
      (by rw [hlong]; decide)
  have hused := hloops result hgenerate
  refine ⟨m, k, result, hmodel, ?_, hk, hgenerate, hused, hanswer⟩
  calc 2 ≤ min p.nLoopsNeeded patientBudget.maxLoops := le_min htwo (by decide)
    _ ≤ result.reasoningLoopsUsed := hplanned
    _ = k := hused

end Zllm.Dense
