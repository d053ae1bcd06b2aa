import Zllm.Engine.BudgetKept
import Zllm.Lib.Outcome

/-!
# The reasoning zone unrolled

Where hooks only read, the three zones of `InferenceRunner::generate` are one pass through a list of
layers, in which the reasoning layers stand as often as the report says. Only the first token is
drawn from it: every later one comes from a plain pass through the model.
-/

namespace Zllm.Reasoning

open Extended (nan fin minNum toUsize)

namespace InferenceRunner

variable {B W ε : Type} (r : InferenceRunner B W ε)

/-- The layers of the prompt's pass with `k` reasoning loops. -/
def unrolled (n k : ℕ) : List ℕ :=
  let encodeEnd := min 8 n
  let reasonEnd := min (encodeEnd + r.reasoningLayers) n
  List.range encodeEnd ++
    ((List.replicate k (List.range' encodeEnd (reasonEnd - encodeEnd))).flatten ++
      List.range' reasonEnd (n - reasonEnd))

/-- One pass through these layers, and its logits. -/
def pass (b : B) (tokens layers : List ℕ) : Except ε (Tensor × B) := do
  let hidden ← r.backend.embedTokens b tokens
  let s ← r.forwardLayers tokens.length layers (hidden, b)
  let logits ← r.backend.computeLogits s.2 s.1
  return (logits, s.2)

/-- The prompt in one pass, then the decode loop. -/
def generateUnrolled (k : ℕ) (b : B) (promptTokens : List ℕ) (maxTokens : ℕ) :
    Except ε (List ℕ) := do
  let s ← r.pass b promptTokens (r.unrolled (r.backend.nLayers b) k)
  r.decode maxTokens (r.backend.nLayers b) maxTokens promptTokens [] s.1 s.2

/-! ### Lists of layers -/

theorem forwardLayers_append (seqLen : ℕ) (xs ys : List ℕ) (s : Tensor × B) :
    r.forwardLayers seqLen (xs ++ ys) s =
      r.forwardLayers seqLen xs s >>= r.forwardLayers seqLen ys := by
  induction xs generalizing s with
  | nil => rfl
  | cons x xs ih =>
    rw [List.cons_append, forwardLayers, forwardLayers, bind_assoc]
    exact congrArg (_ >>= ·) (funext fun s => ih s)

/-- With one loop every layer stands once. -/
theorem unrolled_one (n : ℕ) : r.unrolled n 1 = List.range n := by
  unfold unrolled
  set encodeEnd := min 8 n
  set reasonEnd := min (encodeEnd + r.reasoningLayers) n
  have hencode : encodeEnd ≤ reasonEnd := by omega
  have hreason : reasonEnd ≤ n := by omega
  have hlast : List.range' encodeEnd (reasonEnd - encodeEnd) ++
      List.range' (encodeEnd + (reasonEnd - encodeEnd)) (n - reasonEnd) =
        List.range' encodeEnd (reasonEnd - encodeEnd + (n - reasonEnd)) := List.range'_append_1
  have hfirst : List.range' 0 encodeEnd ++ List.range' (0 + encodeEnd) (n - encodeEnd) =
      List.range' 0 (encodeEnd + (n - encodeEnd)) := List.range'_append_1
  rw [Nat.add_sub_cancel' hencode, show reasonEnd - encodeEnd + (n - reasonEnd) = n - encodeEnd by
    omega] at hlast
  rw [Nat.zero_add, Nat.add_sub_cancel' (hencode.trans hreason)] at hfirst
  calc List.range encodeEnd ++
        ((List.replicate 1 (List.range' encodeEnd (reasonEnd - encodeEnd))).flatten ++
          List.range' reasonEnd (n - reasonEnd)) =
        List.range encodeEnd ++ List.range' encodeEnd (n - encodeEnd) := by
          rw [List.replicate_one, List.flatten_singleton, hlast]
    _ = List.range n := by rw [List.range_eq_range', List.range_eq_range', hfirst]

theorem unrolled_lt {n k j : ℕ} (hj : j ∈ r.unrolled n k) : j < n := by
  simp only [unrolled, List.mem_append, List.mem_flatten, List.mem_replicate, List.mem_range,
    List.mem_range'_1] at hj
  rcases hj with hj | ⟨_, ⟨-, rfl⟩, hj⟩ | hj
  · omega
  · rw [List.mem_range'_1] at hj
    omega
  · omega

/-- A step of the decode loop takes a plain pass. -/
theorem decode_succ (maxTokens n remaining : ℕ) (all output : List ℕ) (logits : Tensor) (b : B) :
    r.decode maxTokens n (remaining + 1) all output logits b =
      let tokenId := r.draw output.length logits
      let output := output ++ [tokenId]
      if tokenId ∈ r.eosTokens ∨ output.length = maxTokens then .ok output
      else r.pass b (all ++ [tokenId]) (List.range n) >>= fun s =>
        r.decode maxTokens n remaining (all ++ [tokenId]) output s.1 s.2 := by
  rw [decode]
  simp only [pass, bind_assoc, pure_bind]
  rfl

/-- The decode loop over a source of logits. -/
def drawFrom (logitsOf : List ℕ → Except ε Tensor) (maxTokens : ℕ) :
    (remaining : ℕ) → (all output : List ℕ) → (logits : Tensor) → Except ε (List ℕ)
  | 0, _, output, _ => .ok output
  | remaining + 1, all, output, logits => do
      let tokenId := r.draw output.length logits
      let output := output ++ [tokenId]
      if tokenId ∈ r.eosTokens ∨ output.length = maxTokens then
        return output
      else
        let logits ← logitsOf (all ++ [tokenId])
        drawFrom logitsOf maxTokens remaining (all ++ [tokenId]) output logits

end InferenceRunner

/-! ### What is planned -/

section

variable {q : Rounding} {hidden : Tensor} {n : ℕ} {budget : ReasoningBudget}

theorem not_one_lt_confidence (q : Rounding) (hidden : Tensor) : ¬ 1 < confidence q hidden := by
  have hzero : ¬ (1 : Extended ℝ) < 0 := fun hlt => absurd (show (1 : ℝ) < 0 from hlt) (by norm_num)
  unfold confidence
  dsimp only
  split_ifs
  · exact hzero
  · exact hzero
  · exact Extended.not_lt_clamp (Extended.zero_le_fin.mpr zero_le_one)

/-- The first two tokens of a long prompt are of full importance. -/
theorem importance_first (hlong : 4 < n) (hhidden : n ≤ hidden.length) :
    ∃ rest, importance q hidden n = 1 :: 1 :: rest ∧ rest.length + 2 = n := by
  obtain ⟨k, rfl⟩ : ∃ k, n = k + 2 := ⟨n - 2, by omega⟩
  have hmodel : hidden.length / (k + 2) ≠ 0 := (Nat.div_pos hhidden (by omega)).ne'
  have hempty : ¬ (k + 2 = 0 ∨ hidden.isEmpty = true) := by
    rintro (h | h)
    · omega
    · rw [List.isEmpty_iff.mp h, List.length_nil] at hhidden
      omega
  have hone : (0 : Extended ℝ) ≤ 1 := Extended.zero_le_fin.mpr zero_le_one
  have hself : (1 : Extended ℝ) ≤ 1 := Extended.fin_le_fin.mpr le_rfl
  rw [importance, if_neg hempty]
  dsimp only
  rw [if_neg hmodel]
  generalize hscore : (fun t => minNum (q.div (q.sqrt (q.sum
    (((hidden.drop (t * (hidden.length / (k + 2)))).take (hidden.length / (k + 2))).map
      fun x => q.mul x x))) (q.sqrt (q.round (fin ((hidden.length / (k + 2) : ℕ) : ℝ))))) 1) = score
  have hnonneg (t : ℕ) : 0 ≤ score t := by
    rw [← hscore]
    refine Extended.le_minNum ?_ hone
    exact Rounding.nan_or_div_nonneg (Rounding.nan_or_sqrt_nonneg _) (Rounding.nan_or_sqrt_nonneg _)
  have hraised (t : ℕ) : minNum (q.add (score t) 1) 1 = 1 :=
    Extended.minNum_of_le (Rounding.isFloat_one.le_add_right (hnonneg t) hone hself)
  have hfirst : ¬ (k + 2 - 2 ≤ 0) := by omega
  have hsecond : ¬ (k + 2 - 2 ≤ 1) := by omega
  have hboosted : ∃ rest, boosted q ((List.range (k + 2)).map score) = 1 :: 1 :: rest := by
    rw [boosted, if_pos (by simpa using hlong)]
    simp only [List.range_succ_eq_map, List.map_cons, List.mapIdx_cons, List.length_cons,
      List.length_map, List.length_range, hfirst, hsecond, Nat.zero_lt_two, Nat.one_lt_two,
      zero_add, if_true, if_false, hraised]
    exact ⟨_, rfl⟩
  have hlength : (boosted q ((List.range (k + 2)).map score)).length = k + 2 := by
    unfold boosted
    split_ifs <;> simp
  obtain ⟨rest, hrest⟩ := hboosted
  refine ⟨rest, hrest, ?_⟩
  rwa [hrest] at hlength

/-- Of a prompt of five to eight tokens, two loops or more are planned. -/
theorem two_le_loopsNeeded (hadaptive : budget.perTokenAdaptive = true) (hlong : 4 < n)
    (hshort : n ≤ 8) (hloops : 8 ≤ budget.maxLoops) (hfloat : budget.maxLoops ≤ 2 ^ 24)
    (hhidden : n ≤ hidden.length) : 2 ≤ loopsNeeded q budget hidden (importance q hidden n) := by
  obtain ⟨rest, himportance, hrest⟩ := importance_first (q := q) hlong hhidden
  have hlow : q.lit (7 / 10) ≤ 1 := by
    obtain ⟨a, ha, -, hle⟩ := Rounding.lit_mem (q := q) (r := 7 / 10) (k := 1) (by norm_num)
      (by norm_num) (by norm_num)
    rw [ha]
    exact Extended.fin_le_fin.mpr hle
  rw [loopsNeeded, if_pos hadaptive]
  dsimp only
  set high := (importance q hidden n).countP fun s => q.lit (7 / 10) ≤ s with hhigh
  have hlen : (importance q hidden n).length = n := by
    rw [himportance, List.length_cons, List.length_cons]
    omega
  have htwo : 2 ≤ high := by
    have hcounts : decide (q.lit (7 / 10) ≤ 1) = true := decide_eq_true hlow
    rw [hhigh, himportance, List.countP_cons, List.countP_cons, hcounts]
    exact Nat.le_add_left 2 _
  have hall : high ≤ n := hlen ▸ List.countP_le_length
  have hpos : (0 : ℝ) < n := by exact_mod_cast (show 0 < n by omega)
  have hquarter : (1 / 2 : ℝ) ^ 2 ≤ high / n := by
    rw [le_div_iff₀ hpos]
    have hlow : (2 : ℝ) ≤ high := by exact_mod_cast htwo
    have hup : (n : ℝ) ≤ 8 := by exact_mod_cast hshort
    linarith
  have hone : (high : ℝ) / n ≤ 1 := (div_le_one hpos).mpr (by exact_mod_cast hall)
  have hfloats (k : ℕ) (hk : k ≤ 2 ^ 24) : q.IsFloat (fin (k : ℝ)) := q.round_natCast k hk
  have hquot : q.div (fin (high : ℝ)) (fin (n : ℝ)) = q.round (fin (high / n)) := by
    rw [Rounding.div, Extended.fin_div_fin hpos.ne']
  obtain ⟨a, ha, hlowa, hahigh⟩ := Rounding.round_between
    (Rounding.isFloat_halfPow (q := q) (k := 2) (by norm_num)) Rounding.isFloat_one (by positivity)
    hquarter hone
  have hmax : (8 : ℝ) ≤ budget.maxLoops := by exact_mod_cast hloops
  obtain ⟨b, hb, hlowb, -⟩ := Rounding.round_between (hfloats 2 (by norm_num)) (hfloats _ hfloat)
    (Nat.cast_nonneg 2) (show ((2 : ℕ) : ℝ) ≤ a * budget.maxLoops by push_cast; nlinarith)
    (mul_le_of_le_one_left (by linarith) hahigh)
  have hproduct : q.mul (fin a) (fin (budget.maxLoops : ℝ)) = fin b := hb
  have hceil : 2 ≤ toUsize (Extended.ceil (fin b)) := by
    have hle : (2 : ℝ) ≤ (⌈b⌉ : ℝ) := by exact_mod_cast hlowb.trans (Int.le_ceil b)
    refine le_min (Nat.le_floor ?_) (by norm_num)
    exact_mod_cast hle
  rw [hlen, max_eq_left (by omega : 1 ≤ n), hfloats high (by omega), hfloats n (by omega),
    hfloats _ hfloat, hquot, ha, hproduct]
  omega

end

/-! ### One loop -/

variable {B W ε : Type}

/-- A hook that reads: it neither changes the residual stream nor ends the zone. -/
def Hook.Observes (hook : Hook W) : Prop :=
  ∀ layerIdx loopIdx f, (hook.onLayer layerIdx loopIdx f).2.hidden = f.hidden ∧
    ∀ reason, (hook.onLayer layerIdx loopIdx f).1 ≠ .earlyExit reason

theorem fire_observes {hooks : List (Hook W)} (hhooks : ∀ hook ∈ hooks, Hook.Observes hook)
    (layerIdx loopIdx : ℕ) (f : Fired W) :
    (fire layerIdx loopIdx hooks f).2.hidden = f.hidden ∧
      ∀ reason, (fire layerIdx loopIdx hooks f).1 ≠ .earlyExit reason := by
  induction hooks generalizing f with
  | nil => exact ⟨rfl, fun reason => HookAction.noConfusion⟩
  | cons hook hooks ih =>
    obtain ⟨hhook, hrest⟩ := List.forall_mem_cons.1 hhooks
    obtain ⟨hhidden, hexit⟩ := hhook layerIdx loopIdx f
    unfold fire
    split_ifs with htarget
    · split
      · next heq => exact absurd (congrArg Prod.fst heq) (hexit _)
      · next heq =>
        rw [heq] at hhidden
        exact ⟨hhidden, fun reason => HookAction.noConfusion⟩
      · next heq =>
        rw [heq] at hhidden
        exact hhidden ▸ ih hrest _
    · exact ih hrest f

variable {r : InferenceRunner B W ε} {p : InferenceRunner.Plan} {l start : LoopState B W}

namespace InferenceRunner

/-- Where hooks only read, a loop is a pass through its layers. -/
theorem reasoningLayersFrom_eq (hhooks : ∀ hook ∈ r.hooks, hook.Observes) (seqLen loopIdx : ℕ)
    (layers : List ℕ) (z : Zone B W) :
    (∀ e, r.forwardLayers seqLen layers (z.fired.hidden, z.backend) = .error e →
      r.reasoningLayersFrom seqLen loopIdx layers z = .error e) ∧
    ∀ s, r.forwardLayers seqLen layers (z.fired.hidden, z.backend) = .ok s →
      ∃ fired, r.reasoningLayersFrom seqLen loopIdx layers z =
        .ok ({ backend := s.2, fired }, false) ∧ fired.hidden = s.1 := by
  induction layers generalizing z with
  | nil =>
    constructor
    · intro e herror
      cases herror
    · intro s hok
      cases hok
      exact ⟨z.fired, rfl, rfl⟩
  | cons layerIdx layers ih =>
    rw [forwardLayers, reasoningLayersFrom]
    cases hlayer : r.backend.forwardLayer z.backend layerIdx z.fired.hidden seqLen with
    | error e =>
      constructor
      · intro e' herror
        cases herror
        rfl
      · intro s hok
        cases hok
    | ok s =>
      simp only [bind, Except.bind]
      obtain ⟨hhidden, hexit⟩ := fire_observes hhooks layerIdx loopIdx
        { z.fired with hidden := s.1
                       context := { z.fired.context with currentConfidence := confidence r.floats s.1 } }
      split
      · next heq => exact absurd (congrArg Prod.fst heq) (hexit _)
      · next action fired _ heq =>
        rw [heq] at hhidden
        have hrest := ih { backend := s.2, fired }
        rw [show fired.hidden = s.1 from hhidden] at hrest
        exact hrest

variable (r p) in
/-- The loops so far, in a row from where the reasoning zone was entered. -/
def Looped (start l : LoopState B W) : Prop :=
  r.forwardLayers p.seqLen (List.replicate l.loopIdx p.layers).flatten
    (start.zone.fired.hidden, start.zone.backend) = .ok (l.zone.fired.hidden, l.zone.backend)

theorem Looped.succ (hlooped : Looped r p start l) :
    r.forwardLayers p.seqLen (List.replicate (l.loopIdx + 1) p.layers).flatten
        (start.zone.fired.hidden, start.zone.backend) =
      r.forwardLayers p.seqLen p.layers (l.zone.fired.hidden, l.zone.backend) := by
  rw [List.replicate_succ', List.flatten_append, List.flatten_singleton, forwardLayers_append,
    hlooped]
  rfl

theorem Looped.more {l' : LoopState B W} (hhooks : ∀ hook ∈ r.hooks, hook.Observes) (hlooped : Looped r p start l)
    (hstep : r.reasoningStep p l = .more l') : Looped r p start l' := by
  obtain ⟨herror, hok⟩ := reasoningLayersFrom_eq hhooks p.seqLen l.loopIdx p.layers l.zone
  unfold reasoningStep at hstep
  split_ifs at hstep with hgo
  cases hlayers : r.forwardLayers p.seqLen p.layers (l.zone.fired.hidden, l.zone.backend) with
  | error e =>
    rw [herror e hlayers] at hstep
    cases hstep
  | ok s =>
    obtain ⟨fired, hfrom, hhidden⟩ := hok s hlayers
    rw [hfrom] at hstep
    cases hstep
    unfold Looped
    rw [hlooped.succ, hlayers, hhidden]

theorem Looped.reaches (hhooks : ∀ hook ∈ r.hooks, hook.Observes) (hstart : start.loopIdx = 0)
    (hreach : Loop.Reaches (r.reasoningStep p) start l) : Looped r p start l := by
  induction hreach with
  | refl =>
    unfold Looped
    rw [hstart]
    rfl
  | tail _ hstep ih => exact ih.more hhooks hstep

/-- How the zone is left: behind the loops that were completed, or by the error of the one that was
not. -/
theorem Looped.done {outcome : Except ε (Reasoned B W)} (hhooks : ∀ hook ∈ r.hooks, hook.Observes)
    (hlooped : Looped r p start l) (hstep : r.reasoningStep p l = .done outcome) :
    outcome = .ok { state := l.state, zone := l.zone, earlyExit := false } ∨
    ∃ e, outcome = .error e ∧ l.state.loopsUsed < p.budget.maxLoops ∧
      r.forwardLayers p.seqLen (List.replicate (l.loopIdx + 1) p.layers).flatten
        (start.zone.fired.hidden, start.zone.backend) = .error e := by
  obtain ⟨herror, hok⟩ := reasoningLayersFrom_eq hhooks p.seqLen l.loopIdx p.layers l.zone
  unfold reasoningStep at hstep
  split_ifs at hstep with hgo
  · cases hlayers : r.forwardLayers p.seqLen p.layers (l.zone.fired.hidden, l.zone.backend) with
    | error e =>
      rw [herror e hlayers] at hstep
      cases hstep
      exact .inr ⟨e, rfl, Nat.lt_of_not_le hgo.2.1, hlooped.succ.trans hlayers⟩
    | ok s =>
      obtain ⟨fired, hfrom, -⟩ := hok s hlayers
      rw [hfrom] at hstep
      cases hstep
  · cases hstep
    exact .inl rfl

/-! ### The run -/

variable (r p) in
/-- Behind the reasoning zone: the output layers and the decode loop. -/
def answer (promptTokens : List ℕ) (maxTokens : ℕ) (s : Tensor × B) : Except ε (List ℕ) := do
  let s ← r.forwardLayers p.seqLen (List.range' p.reasonEnd (p.nLayers - p.reasonEnd)) s
  let logits ← r.backend.computeLogits s.2 s.1
  r.decode maxTokens p.nLayers maxTokens promptTokens [] logits s.2

theorem finish_tokens (promptTokens : List ℕ) (maxTokens : ℕ) (reasoned : Reasoned B W) :
    (r.finish promptTokens maxTokens p reasoned).map (·.tokens) =
      r.answer p promptTokens maxTokens
        (reasoned.zone.fired.hidden, reasoned.zone.backend) := by
  unfold finish answer
  cases r.forwardLayers p.seqLen (List.range' p.reasonEnd (p.nLayers - p.reasonEnd))
    (reasoned.zone.fired.hidden, reasoned.zone.backend) with
  | error e => rfl
  | ok s =>
    simp only [bind, Except.bind]
    cases r.backend.computeLogits s.2 s.1 with
    | error e => rfl
    | ok logits =>
      cases hdecode : r.decode maxTokens p.nLayers maxTokens promptTokens [] logits s.2 <;>
        simp only [hdecode, Except.map, pure, Except.pure]

variable {b : B} {world : W} {promptTokens : List ℕ} {budget : ReasoningBudget}
  {requestId : String}

/-- What fails in the encoding zone fails in every unrolled pass. -/
theorem encode_error {e : ε}
    (hencode : r.encode b world promptTokens budget requestId = .error e) (k maxTokens : ℕ) :
    r.generateUnrolled k b promptTokens maxTokens = .error e := by
  unfold encode at hencode
  unfold generateUnrolled pass unrolled
  cases hembed : r.backend.embedTokens b promptTokens with
  | error e' =>
    rw [hembed] at hencode
    cases hencode
    rfl
  | ok hidden =>
    simp only [hembed, bind, Except.bind] at hencode
    cases hlayers : r.forwardLayers promptTokens.length
        (List.range (min 8 (r.backend.nLayers b))) (hidden, b) with
    | error e' =>
      rw [hlayers] at hencode
      cases hencode
      simp only [forwardLayers_append, hlayers, bind, Except.bind]
    | ok s =>
      rw [hlayers] at hencode
      cases hencode

/-- Behind the encoding zone an unrolled pass goes on with its reasoning layers. -/
theorem encode_ok (hencode : r.encode b world promptTokens budget requestId = .ok (p, start))
    (k maxTokens : ℕ) :
    r.generateUnrolled k b promptTokens maxTokens =
      r.forwardLayers p.seqLen (List.replicate k p.layers).flatten
        (start.zone.fired.hidden, start.zone.backend) >>=
          r.answer p promptTokens maxTokens := by
  have hok {α β : Type} (a : α) (f : α → Except ε β) : Except.ok a >>= f = f a := rfl
  unfold encode at hencode
  unfold generateUnrolled pass unrolled
  cases hembed : r.backend.embedTokens b promptTokens with
  | error e =>
    rw [hembed] at hencode
    cases hencode
  | ok hidden =>
    simp only [hembed, bind, Except.bind] at hencode
    cases hlayers : r.forwardLayers promptTokens.length
        (List.range (min 8 (r.backend.nLayers b))) (hidden, b) with
    | error e =>
      rw [hlayers] at hencode
      cases hencode
    | ok s =>
      rw [hlayers] at hencode
      cases hencode
      simp only [forwardLayers_append, bind_assoc, pure_bind, hok, hlayers]
      rfl

/-- Where hooks only read, `generate` is a run with the loops it reports. -/
theorem generate_unrolled (r : InferenceRunner B W ε) (hhooks : ∀ hook ∈ r.hooks, hook.Observes)
    (b : B) (world : W) (promptTokens : List ℕ) (maxTokens : ℕ) (budget : ReasoningBudget)
    (requestId : String) :
    ∃ k ≤ budget.maxLoops,
      (r.generate b world promptTokens maxTokens budget requestId).map (·.map (·.tokens)) =
        some (r.generateUnrolled k b promptTokens maxTokens) ∧
      ∀ result, r.generate b world promptTokens maxTokens budget requestId = some (.ok result) →
        result.reasoningLoopsUsed = k := by
  obtain ⟨outcome, hgenerate⟩ :=
    exists_generate r b world promptTokens maxTokens budget requestId
  rw [hgenerate]
  unfold generate at hgenerate
  cases hencode : r.encode b world promptTokens budget requestId with
  | error e =>
    simp only [hencode, Option.some.injEq] at hgenerate
    subst hgenerate
    refine ⟨0, Nat.zero_le _, ?_, ?_⟩
    · rw [encode_error hencode]
      rfl
    · intro result hresult
      cases hresult
  | ok planned =>
    obtain ⟨p, start⟩ := planned
    simp only [hencode] at hgenerate
    obtain ⟨reasoned, hrun, hfinish⟩ := Option.map_eq_some_iff.1 hgenerate
    obtain ⟨last, hreach, hdone⟩ := Loop.exists_last hrun
    obtain ⟨hstart, rfl, hzero⟩ := encode_counted hencode
    have hcounted := hstart.reaches hreach
    have hlooped := Looped.reaches hhooks hzero hreach
    rcases hlooped.done hhooks hdone with rfl | ⟨e, rfl, hless, herror⟩
    · refine ⟨last.loopIdx, hcounted.within, ?_, ?_⟩
      · rw [encode_ok hencode, hlooped, ← hfinish]
        exact congrArg some (finish_tokens promptTokens maxTokens _)
      · intro result hresult
        cases hresult
        rw [(finish_report hfinish).1, hcounted.loopsUsed]
    · subst hfinish
      refine ⟨last.loopIdx + 1, hcounted.loopsUsed ▸ hless, ?_, ?_⟩
      · rw [encode_ok hencode, herror]
        rfl
      · intro result hresult
        cases hresult

/-! ### Loops that are completed -/

theorem encode_planned (hencode : r.encode b world promptTokens budget requestId = .ok (p, start)) :
    p.nLoopsNeeded = loopsNeeded r.floats budget start.zone.fired.hidden
      (importance r.floats start.zone.fired.hidden promptTokens.length) ∧
      start.state.currentConfidence = 0 := by
  unfold encode at hencode
  simp only [bind, Except.bind, pure, Except.pure] at hencode
  split at hencode
  · cases hencode
  · split at hencode
    · cases hencode
    · cases hencode
      exact ⟨rfl, rfl⟩

theorem reaches_confidence (hstart : ¬ 1 < start.state.currentConfidence)
    (hreach : Loop.Reaches (r.reasoningStep p) start l) : ¬ 1 < l.state.currentConfidence := by
  induction hreach with
  | refl => exact hstart
  | tail _ hstep ih =>
    unfold reasoningStep at hstep
    split_ifs at hstep
    split at hstep <;> cases hstep
    exact not_one_lt_confidence _ _

/-- Where hooks only read and neither memory nor confidence ends the zone, all loops are completed
that are planned and allowed. -/
theorem planned_completed (hhooks : ∀ hook ∈ r.hooks, hook.Observes) {maxTokens : ℕ}
    {result : GenerationResult}
    (hrun : r.generate b world promptTokens maxTokens budget requestId = some (.ok result))
    (hthreshold : 1 < budget.confidenceThreshold)
    (hroom : budget.maxLoops * ReasoningBudget.estimateMemoryPerLoop promptTokens.length r.dModel
      r.reasoningLayers < budget.maxMemoryMb) :
    ∃ p start, r.encode b world promptTokens budget requestId = .ok (p, start) ∧
      min p.nLoopsNeeded budget.maxLoops ≤ result.reasoningLoopsUsed := by
  obtain ⟨p, start, last, reasoned, hencode, hreach, hdone, hloops, -⟩ := exists_last hrun
  obtain ⟨hstart, rfl, -⟩ := encode_counted hencode
  have hcounted := hstart.reaches hreach
  refine ⟨p, start, hencode, ?_⟩
  rw [hloops]
  by_contra hless
  rw [not_le, hcounted.loopsUsed, lt_min_iff] at hless
  have hconfident : ¬ p.budget.confidenceThreshold ≤ last.state.currentConfidence := by
    have hzero := (encode_planned hencode).2
    have hlast := reaches_confidence (hzero ▸ not_one_lt_confidence r.floats []) hreach
    exact fun hle => hlast (Extended.lt_of_lt_of_le hthreshold hle)
  have hmemory : ¬ p.budget.maxMemoryMb ≤ last.state.memoryUsedMb := by
    rw [hcounted.memoryUsed, encode_memoryPerLoop hencode]
    exact not_le.mpr ((Nat.mul_le_mul_right _ hcounted.within).trans_lt hroom)
  have hgo : p.budget.shouldContinue last.state :=
    ⟨not_le.mpr (hcounted.loopsUsed ▸ hless.2), hmemory, hconfident⟩
  obtain ⟨herror, hok⟩ :=
    reasoningLayersFrom_eq hhooks p.seqLen last.loopIdx p.layers last.zone
  rw [reasoningStep, if_pos ⟨hless.1, hgo⟩] at hdone
  cases hlayers : r.forwardLayers p.seqLen p.layers (last.zone.fired.hidden, last.zone.backend) with
  | error e =>
    rw [herror e hlayers] at hdone
    cases hdone
  | ok s =>
    obtain ⟨fired, hfrom, -⟩ := hok s hlayers
    rw [hfrom] at hdone
    cases hdone

end InferenceRunner

end Zllm.Reasoning
