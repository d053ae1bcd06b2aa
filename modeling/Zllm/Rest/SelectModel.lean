import Zllm.Basic
import Zllm.Lib.Outcome
import Zllm.Loader.Gguf

/-!
# Selecting a model

`select_model` looks the file up, checks its architecture and loads its tokenizer before it touches
the pool. Then it unloads and reloads the slots one after another, and on success publishes the
tokenizer and the name of the new model.
-/

namespace Zllm.Rest

/-! ### A slot's backend -/

/-- A path of a GGUF file. -/
abbrev GgufPath := String

structure LoadedModel where
  file : GgufPath
  maxSeq : Nat

/-- `kv` lists the tokens whose KV is materialized; its length is `index_pos`. -/
structure CandleCpuBackend where
  model : Option LoadedModel
  nLayers : Nat
  hiddenSize : Nat
  kv : List Token

/-- How the stages of one `load_model` call end. -/
structure LoadAttempt where
  file : Except String Unit
  content : Except String Unit
  spec : Except String Unit
  hparams : Except String (Nat × Nat)
  weights : Except String Nat

def LoadAttempt.succeeds (attempt : LoadAttempt) : Bool :=
  attempt.file.isOk && attempt.content.isOk && attempt.spec.isOk && attempt.hparams.isOk &&
    attempt.weights.isOk

/-- A `ZllmError::Model` with what was being done. -/
def modelError {α : Type} (context : String) (x : Except String α) : Except String α :=
  x.mapError fun e => "model error: " ++ context ++ e

namespace CandleCpuBackend

def unloadModel (backend : CandleCpuBackend) : CandleCpuBackend :=
  { backend with model := none, kv := [] }

/-- An error leaves the backend as it was. -/
def loadModel (path : GgufPath) (attempt : LoadAttempt) : Except String CandleCpuBackend := do
  modelError "cannot open model file: " attempt.file
  modelError "invalid GGUF file: " attempt.content
  modelError "" attempt.spec
  let hp ← modelError "" attempt.hparams
  let maxSeq ← modelError "failed to load model weights: " attempt.weights
  return { model := some ⟨path, maxSeq⟩, nLayers := hp.1, hiddenSize := hp.2, kv := [] }

end CandleCpuBackend

structure BackendSlot where
  backend : CandleCpuBackend
  promptCache : List Token

/-- The slots in order, each unloaded and then loaded; the first error ends the loop. -/
def reloadSlots (path : GgufPath) (attempts : Nat → LoadAttempt) :
    Nat → List BackendSlot → Except String Unit × List BackendSlot
  | _, [] => (.ok (), [])
  | i, slot :: rest =>
    match CandleCpuBackend.loadModel path (attempts i) with
    | .error e => (.error e, { slot with backend := slot.backend.unloadModel } :: rest)
    | .ok backend =>
      let reloaded := reloadSlots path attempts (i + 1) rest
      (reloaded.1, { backend := backend, promptCache := [] } :: reloaded.2)

/-! ### The call -/

variable {T C : Type}

/-- What a selection changes of the server, apart from the engines of the fast lanes and the
entries of the memory store. -/
structure ServedModel (T C : Type) where
  pool : List BackendSlot
  tokenizer : T
  currentModel : String
  modelCtx : Nat
  tokenTable : Bool
  chatMeta : C

/-- What the disk answers to one selection: the file that the scan finds for the id, the
architecture it declares, the tokenizer beside it, the one embedded in it, and the loads. -/
structure Disk (T C : Type) where
  found : Option GgufPath
  architecture : Option String
  sibling : Option (Except String T)
  embedded : Except String T
  attempts : Nat → LoadAttempt
  chatMeta : C

structure Failure where
  status : Nat
  error : String

/-- `char::is_whitespace`. -/
def isWhitespace (c : Char) : Bool :=
  let n := c.toNat
  (0x9 ≤ n && n ≤ 0xD) || n == 0x20 || n == 0x85 || n == 0xA0 || n == 0x1680 ||
    (0x2000 ≤ n && n ≤ 0x200A) || n == 0x2028 || n == 0x2029 || n == 0x202F || n == 0x205F ||
    n == 0x3000

/-- `s.trim().is_empty()`. -/
def isBlank (s : String) : Bool := s.toList.all isWhitespace

def archIsSupported (arch : String) : Bool := (Loader.specFor arch).isSome

def Disk.arch (disk : Disk T C) : String := disk.architecture.getD "unknown"

def Disk.tokenizer (disk : Disk T C) (path : GgufPath) : Except Failure T :=
  match disk.sibling with
  | some loaded => loaded.mapError fun e => ⟨500, "tokenizer load failed: " ++ e⟩
  | none => disk.embedded.mapError fun e =>
      ⟨400, "no tokenizer.json next to " ++ path ++ " and the embedded vocab is unusable: " ++ e⟩

/-- `char::escape_debug`, as strings use it. Which characters are printable is a table of the
standard library. -/
def escapeDebug (printable : Char → Bool) (c : Char) : String :=
  match c.toNat with
  | 0x00 => "\\0"
  | 0x09 => "\\t"
  | 0x0A => "\\n"
  | 0x0D => "\\r"
  | 0x22 => "\\\""
  | 0x5C => "\\\\"
  | n =>
    if printable c then c.toString
    else "\\u\x7b" ++ String.ofList (Nat.toDigits 16 n) ++ "\x7d"

/-- `format!("{:?}", s)`. -/
def debug (printable : Char → Bool) (s : String) : String :=
  "\"" ++ String.join (s.toList.map (escapeDebug printable)) ++ "\""

/-- What `select_model` settles before it takes the slots. -/
def prepare (printable : Char → Bool) (modelsDir : Bool) (id : String) (disk : Disk T C) :
    Except Failure (GgufPath × T) :=
  if modelsDir = false then
    .error ⟨400, "models_dir not configured"⟩
  else if isBlank id then
    .error ⟨400, "id required"⟩
  else
    match disk.found with
    | none => .error ⟨404, "model " ++ debug printable id ++ " not found in scan dir"⟩
    | some path =>
      if archIsSupported disk.arch then
        (disk.tokenizer path).map fun tokenizer => (path, tokenizer)
      else
        .error ⟨400, "architecture " ++ debug printable disk.arch ++ " is not supported — zllm " ++
          "loads the \"llama\" (incl. Mistral) and \"qwen2\" families today. Other arches need " ++
          "their own backend fork (parallel to src/backend/candle/quantized_llama_fork.rs)."⟩

namespace ServedModel

/-- The new model's window, tokenizer, name and chat metadata; the byte table is rebuilt later. -/
def publish (s : ServedModel T C) (id : String) (tokenizer : T) (chatMeta : C) : ServedModel T C :=
  { s with
    modelCtx := (s.pool.head?.bind fun slot => slot.backend.model).elim 0 LoadedModel.maxSeq
    tokenizer := tokenizer
    currentModel := id
    tokenTable := false
    chatMeta := chatMeta }

def selectModel (s : ServedModel T C) (printable : Char → Bool) (modelsDir : Bool) (id : String)
    (disk : Disk T C) : Except Failure Unit × ServedModel T C :=
  match prepare printable modelsDir id disk with
  | .error e => (.error e, s)
  | .ok (path, tokenizer) =>
    let reloaded := reloadSlots path disk.attempts 0 s.pool
    let s' := { s with pool := reloaded.2 }
    match reloaded.1 with
    | .error e => (.error ⟨500, "model load failed in pool slot: " ++ e⟩, s')
    | .ok () => (.ok (), s'.publish id tokenizer disk.chatMeta)

/-! ### Atomic failure -/

/-- Every slot has the model of `path` loaded, with KV for what its prompt cache says, and the
tokenizer is that model's. -/
structure Serves (tokenizerOf : GgufPath → T) (path : GgufPath) (s : ServedModel T C) : Prop where
  loaded : ∀ slot ∈ s.pool, ∃ m, slot.backend.model = some m ∧ m.file = path
  cached : ∀ slot ∈ s.pool, slot.promptCache <+: slot.backend.kv
  tokenizer_eq : s.tokenizer = tokenizerOf path

end ServedModel

/-- A request that is turned away with the slots untouched. -/
def Refused (modelsDir : Bool) (id : String) (disk : Disk T C) : Prop :=
  modelsDir = false ∨ isBlank id ∨ disk.found = none ∨ ¬ archIsSupported disk.arch ∨
    (disk.sibling.getD disk.embedded).isOk = false

theorem isOk_loadModel (path : GgufPath) (attempt : LoadAttempt) :
    (CandleCpuBackend.loadModel path attempt).isOk = attempt.succeeds := by
  obtain ⟨file, content, spec, hparams, weights⟩ := attempt
  cases file with
  | error e => rfl
  | ok _ =>
    cases content with
    | error e => rfl
    | ok _ =>
      cases spec with
      | error e => rfl
      | ok _ =>
        cases hparams with
        | error e => rfl
        | ok hp => cases weights <;> rfl

theorem file_loadModel {path : GgufPath} {attempt : LoadAttempt} {backend : CandleCpuBackend}
    (hload : CandleCpuBackend.loadModel path attempt = .ok backend) :
    ∃ m, backend.model = some m ∧ m.file = path := by
  obtain ⟨_, -, hload⟩ := Outcome.bind_eq_ok.mp hload
  obtain ⟨_, -, hload⟩ := Outcome.bind_eq_ok.mp hload
  obtain ⟨_, -, hload⟩ := Outcome.bind_eq_ok.mp hload
  obtain ⟨hp, -, hload⟩ := Outcome.bind_eq_ok.mp hload
  obtain ⟨maxSeq, -, hload⟩ := Outcome.bind_eq_ok.mp hload
  rw [← Outcome.pure_eq_ok.mp hload]
  exact ⟨_, rfl, rfl⟩

/-- The loop goes through if every slot's load does. -/
theorem isOk_reloadSlots (path : GgufPath) (attempts : Nat → LoadAttempt) (i : Nat)
    (pool : List BackendSlot) :
    (reloadSlots path attempts i pool).1.isOk ↔
      ∀ k < pool.length, (attempts (i + k)).succeeds := by
  induction pool generalizing i with
  | nil => simp [reloadSlots, Except.isOk, Except.toBool]
  | cons slot rest ih =>
    have hload := isOk_loadModel path (attempts i)
    rw [List.length_cons, Nat.forall_lt_succ_left, Nat.add_zero, reloadSlots]
    split
    · rename_i e herror
      have hfirst : (attempts i).succeeds = false := by rw [← hload, herror]; rfl
      simp [hfirst, Except.isOk, Except.toBool]
    · rename_i backend hok
      have hshift : ∀ k, attempts (i + (k + 1)) = attempts (i + 1 + k) := by
        intro k
        rw [Nat.add_right_comm, Nat.add_assoc]
      have hfirst : (attempts i).succeeds = true := by rw [← hload, hok]; rfl
      rw [hfirst]
      simpa only [hshift, true_and] using ih (i + 1)

/-- The slot whose load fails is left without a model. -/
theorem exists_unloaded {path : GgufPath} {attempts : Nat → LoadAttempt} {i : Nat}
    {pool : List BackendSlot} (herror : (reloadSlots path attempts i pool).1.isOk = false) :
    ∃ slot ∈ (reloadSlots path attempts i pool).2, slot.backend.model = none := by
  induction pool generalizing i with
  | nil => simp [reloadSlots, Except.isOk, Except.toBool] at herror
  | cons slot rest ih =>
    rw [reloadSlots] at herror ⊢
    split
    · exact ⟨_, List.mem_cons_self, rfl⟩
    · rename_i backend hok
      rw [hok] at herror
      obtain ⟨slot, hslot, hnone⟩ := ih herror
      exact ⟨slot, List.mem_cons_of_mem _ hslot, hnone⟩

/-- A slot after the loop is unloaded, has the new model, or was not reached. -/
theorem mem_reloadSlots {path : GgufPath} {attempts : Nat → LoadAttempt} {i : Nat}
    {pool : List BackendSlot} {slot : BackendSlot}
    (hslot : slot ∈ (reloadSlots path attempts i pool).2) :
    slot.backend.model = none ∨ (∃ m, slot.backend.model = some m ∧ m.file = path) ∨
      (slot ∈ pool ∧ (reloadSlots path attempts i pool).1.isOk = false) := by
  induction pool generalizing i with
  | nil => cases hslot
  | cons first rest ih =>
    rw [reloadSlots] at hslot ⊢
    split at hslot
    · rcases List.mem_cons.mp hslot with rfl | hslot
      · exact .inl rfl
      · exact .inr (.inr ⟨List.mem_cons_of_mem _ hslot, rfl⟩)
    · rename_i backend hok
      rcases List.mem_cons.mp hslot with rfl | hslot
      · exact .inr (.inl (file_loadModel hok))
      · rcases ih hslot with hnone | hnew | ⟨hold, hfails⟩
        · exact .inl hnone
        · exact .inr (.inl hnew)
        · exact .inr (.inr ⟨List.mem_cons_of_mem _ hold, hfails⟩)

/-- A loop whose first load fails loads nothing. -/
theorem mem_reloadSlots_of_first {path : GgufPath} {attempts : Nat → LoadAttempt} {i : Nat}
    {pool : List BackendSlot} (hfirst : (attempts i).succeeds = false) {slot : BackendSlot}
    (hslot : slot ∈ (reloadSlots path attempts i pool).2) :
    slot.backend.model = none ∨ slot ∈ pool := by
  cases pool with
  | nil => cases hslot
  | cons first rest =>
    have hload := isOk_loadModel path (attempts i)
    rw [hfirst] at hload
    rw [reloadSlots] at hslot
    split at hslot
    · rcases List.mem_cons.mp hslot with rfl | hslot
      · exact .inl rfl
      · exact .inr (List.mem_cons_of_mem _ hslot)
    · rename_i backend hok
      rw [hok] at hload
      cases hload

theorem isOk_tokenizer (disk : Disk T C) (path : GgufPath) :
    (disk.tokenizer path).isOk = (disk.sibling.getD disk.embedded).isOk := by
  unfold Disk.tokenizer
  cases disk.sibling with
  | none => cases disk.embedded <;> rfl
  | some loaded => cases loaded <;> rfl

theorem isOk_prepare (printable : Char → Bool) (modelsDir : Bool) (id : String) (disk : Disk T C) :
    (prepare printable modelsDir id disk).isOk = false ↔ Refused modelsDir id disk := by
  unfold prepare Refused
  split
  · rename_i hdir
    exact iff_of_true rfl (.inl hdir)
  · rename_i hdir
    split
    · rename_i hblank
      exact iff_of_true rfl (.inr (.inl hblank))
    · rename_i hblank
      split
      · rename_i hfound
        exact iff_of_true rfl (.inr (.inr (.inl hfound)))
      · rename_i path hfound
        split
        · rename_i harch
          have htokenizer := isOk_tokenizer disk path
          rw [← htokenizer]
          cases disk.tokenizer path <;>
            simp [Except.map, Except.isOk, Except.toBool, hdir, hblank, hfound, harch]
        · rename_i harch
          exact iff_of_true rfl (.inr (.inr (.inr (.inl harch))))

namespace ServedModel

/-- A call that fails leaves every slot serving the model selected before if and only if it is
turned away before it touches the slots, and they did; no failing load is undone. -/
theorem failed_selection_atomic_iff (tokenizerOf : GgufPath → T) (path : GgufPath)
    (s : ServedModel T C) (printable : Char → Bool) (modelsDir : Bool) (id : String)
    (disk : Disk T C) :
    ((s.selectModel printable modelsDir id disk).1.isOk = false →
        (s.selectModel printable modelsDir id disk).2.Serves tokenizerOf path) ↔
      (Refused modelsDir id disk → s.Serves tokenizerOf path) ∧
        (¬ Refused modelsDir id disk → ∀ i < s.pool.length, (disk.attempts i).succeeds) := by
  have hprepare := isOk_prepare printable modelsDir id disk
  unfold selectModel
  split
  · rename_i e herror
    rw [herror] at hprepare
    have hrefused := hprepare.mp rfl
    simp [hrefused, Except.isOk, Except.toBool]
  · rename_i found tokenizer hok
    rw [hok] at hprepare
    have hrefused : ¬ Refused modelsDir id disk := fun h => Bool.noConfusion (hprepare.mpr h)
    have hloop := isOk_reloadSlots found disk.attempts 0 s.pool
    simp only [Nat.zero_add] at hloop
    dsimp only
    split
    · rename_i e herror
      have hfails : (reloadSlots found disk.attempts 0 s.pool).1.isOk = false := by
        rw [herror]
        rfl
      obtain ⟨slot, hslot, hnone⟩ := exists_unloaded hfails
      rw [hfails] at hloop
      constructor
      · intro hserves
        obtain ⟨m, hm, -⟩ := (hserves rfl).loaded slot hslot
        simp [hnone] at hm
      · intro hcondition
        exact absurd (hloop.mpr (hcondition.2 hrefused)) (by decide)
    · rename_i hloaded
      rw [hloaded] at hloop
      refine iff_of_true (fun h => Bool.noConfusion h) ⟨fun h => absurd h hrefused, fun _ => ?_⟩
      exact hloop.mp rfl

/-- Two slots that serve one model. -/
def twoSlots : ServedModel GgufPath Unit where
  pool := List.replicate 2 ⟨⟨some ⟨"old.gguf", 2048⟩, 16, 2048, []⟩, []⟩
  tokenizer := "old.gguf"
  currentModel := "old"
  modelCtx := 2048
  tokenTable := false
  chatMeta := ()

/-- A model that the first slot loads, and whose file cannot be opened for the second. -/
def vanishing : Disk GgufPath Unit where
  found := some "new.gguf"
  architecture := some "llama"
  sibling := some (.ok "new.gguf")
  embedded := .error ""
  attempts
    | 0 => ⟨.ok (), .ok (), .ok (), .ok (16, 2048), .ok 2048⟩
    | _ => ⟨.error "No such file or directory", .ok (), .ok (), .ok (16, 2048), .ok 2048⟩
  chatMeta := ()

theorem failed_selection_leaves_mixture :
    ¬ ∀ (s : ServedModel GgufPath Unit) (printable : Char → Bool) (modelsDir : Bool) (id : String)
      (disk : Disk GgufPath Unit) (path : GgufPath), s.Serves (fun path => path) path →
      (s.selectModel printable modelsDir id disk).1.isOk = false →
      (s.selectModel printable modelsDir id disk).2.Serves (fun path => path) path := by
  intro hclaim
  have hbefore : twoSlots.Serves (fun path => path) "old.gguf" := by
    refine ⟨?_, ?_, rfl⟩
    · intro slot hslot
      rw [List.eq_of_mem_replicate hslot]
      exact ⟨_, rfl, rfl⟩
    · intro slot hslot
      rw [List.eq_of_mem_replicate hslot]
  have hafter := hclaim twoSlots (fun _ => true) true "new" vanishing "old.gguf" hbefore rfl
  obtain ⟨m, hm, hfile⟩ := hafter.loaded _ List.mem_cons_self
  cases hm
  exact absurd hfile (by decide)

end ServedModel

end Zllm.Rest
