import Zllm.Engine.DecodeCtrl
import Zllm.Rest.SelectModel

/-!
# Penalties on masked logits

`build_decode_ctrl` clamps the biases of a request and takes its penalties as they are. A repetition
penalty that is not above zero takes a masked logit off minus infinity, and an infinite penalty
takes a logit to infinity or to no number. What a token's penalty must be for the mask to hold is
said for each sign of its logit.
-/

namespace Zllm.DecodeCtrl

open Extended GreedyChoice

/-! ### The request -/

/-- The `f32` of a JSON number, without the rounding. -/
def toF32 (x : ℚ) : Extended ℚ :=
  if 2 ^ 128 - 2 ^ 103 ≤ x then top else if x ≤ -(2 ^ 128 - 2 ^ 103) then bot else fin x

/-- `parse::<u32>`. -/
def parseU32 (s : List Char) : Option ℕ :=
  let digits := if s.head? = some '+' then s.tail else s
  if digits.isEmpty || !digits.all Char.isDigit then none
  else
    let n := digits.foldl (fun n c => 10 * n + (c.toNat - 48)) 0
    if n < 2 ^ 32 then some n else none

def trim (s : List Char) : List Char :=
  ((s.dropWhile Rest.isWhitespace).reverse.dropWhile Rest.isWhitespace).reverse

/-- `f32::clamp`. -/
def clamp (least largest x : Extended ℚ) : Extended ℚ :=
  let x := if x < least then least else x
  if largest < x then largest else x

/-- The decoding parameters of a request, as its JSON has them. -/
structure DecodeParams where
  stop : Option (List (List UInt8)) := none
  presencePenalty : Option ℚ := none
  frequencyPenalty : Option ℚ := none
  repeatPenalty : Option ℚ := none
  logitBias : Option (List (List Char × ℚ)) := none
  seed : Option ℕ := none

def DecodeParams.penalties (req : DecodeParams) : PenaltyConfig where
  «repeat» := (req.repeatPenalty.map toF32).getD 1
  presence := (req.presencePenalty.map toF32).getD 0
  frequency := (req.frequencyPenalty.map toF32).getD 0

def buildDecodeCtrl (req : DecodeParams) : DecodeControl :=
  let stops := ((req.stop.getD []).filter fun s => !s.isEmpty).take 8
  let bias := (req.logitBias.getD []).filterMap fun entry =>
    (parseU32 (trim entry.1)).map fun id => (id, clamp (fin (-100)) (fin 100) (toF32 entry.2))
  .new req.penalties bias req.seed stops

/-! ### What the penalties need -/

/-- The penalties of a token seen so often leave its logit below the upper infinity, and at minus
infinity where it is masked. -/
structure Mild (p : PenaltyConfig) (cnt : ℕ) (l : Logit) : Prop where
  shift : bot < p.shift cnt
  masked : l = ⊥ → 0 < p.repeat
  negative : ∀ x : ℚ, l = x → x < 0 → bot < p.repeat
  zero : l = (0 : ℚ) → bot < p.repeat ∧ p.repeat < top
  positive : ∀ x : ℚ, l = x → 0 < x → p.repeat ≠ nan ∧ p.repeat ≠ 0

/-- They take a logit to minus infinity that is not there. -/
def Sinks (p : PenaltyConfig) (cnt : ℕ) (l : Logit) : Prop :=
  p.shift cnt = top ∨ l < (0 : ℚ) ∧ p.repeat = top

/-- The biases of a request, by token. -/
def DecodeParams.biases (req : DecodeParams) : List (Token × ℚ) :=
  (req.logitBias.getD []).filterMap fun entry =>
    (parseU32 (trim entry.1)).map fun id => (id, max (-100) (min entry.2 100))

def biasOf (biases : List (Token × ℚ)) (token : Token) : ℚ :=
  ((biases.filter fun entry => entry.1 = token).map Prod.snd).sum

def DecodeParams.bias (req : DecodeParams) (token : Token) : ℚ :=
  biasOf req.biases token

/-- The penalties of a request are mild on the logits that they touch, and the last logit or one
that they do not sink is not masked. -/
structure Spares (req : DecodeParams) (observed : List Token) (logits : List Logit) : Prop where
  mild : req.penalties.isActive = true → ∀ token ∈ observed, ∀ l, logits[token]? = some l →
    Mild req.penalties (observed.count token) (l + req.bias token)
  left : logits.getLast? ≠ some ⊥ ∨ ∃ (token : Token) (x : ℚ), logits[token]? = some ↑x ∧
    (req.penalties.isActive = true → token ∈ observed →
      ¬ Sinks req.penalties (observed.count token) ↑(x + req.bias token))

/-- The mask outlives the adjustment. -/
structure MaskKept (ctrl : DecodeControl) (logits : List Logit) : Prop where
  banned : ∀ token : Token, logits[token]? = some ⊥ →
    (ctrl.adjustLogits (logits.map ofWithBot))[token]? = some bot
  number : ∀ l ∈ ctrl.adjustLogits (logits.map ofWithBot), l ≠ nan ∧ l ≠ top
  drawn : logits[ctrl.sampleToken (logits.map ofWithBot)]? ≠ some ⊥

/-! ### One logit -/

section

variable {p : PenaltyConfig} {cnt : ℕ}

theorem scale_of_pos (hone : p.repeat ≠ 1) {l : Extended ℚ} (hl : 0 < l) :
    p.scale l = l / p.repeat := by
  rw [PenaltyConfig.scale, if_pos hone, if_pos hl]

theorem scale_of_not_pos (hone : p.repeat ≠ 1) {l : Extended ℚ} (hl : ¬ 0 < l) :
    p.scale l = l * p.repeat := by
  rw [PenaltyConfig.scale, if_pos hone, if_neg hl]

theorem scale_of_eq_one (hone : p.repeat = 1) (l : Extended ℚ) : p.scale l = l := by
  rw [PenaltyConfig.scale, if_neg (not_not.mpr hone)]

theorem scale_lt_top_iff (l : Logit) : p.scale (ofWithBot l) < top ↔
    (l = ⊥ → 0 < p.repeat) ∧ (∀ x : ℚ, l = x → x < 0 → bot < p.repeat) ∧
      (l = (0 : ℚ) → bot < p.repeat ∧ p.repeat < top) ∧
        ∀ x : ℚ, l = x → 0 < x → p.repeat ≠ nan ∧ p.repeat ≠ 0 := by
  by_cases hone : p.repeat = 1
  · rw [scale_of_eq_one hone, hone]
    have hlow : ofWithBot l < top := by
      induction l using WithBot.recBotCoe <;> trivial
    refine iff_of_true hlow ⟨fun _ => ?_, fun _ _ _ => trivial, fun _ => ⟨trivial, trivial⟩,
      fun _ _ _ => ⟨by decide, by decide⟩⟩
    decide
  · induction l using WithBot.recBotCoe with
    | bot =>
      rw [ofWithBot_bot, scale_of_not_pos hone (not_lt_bot 0), bot_mul_lt_top]
      simp
    | coe x =>
      rw [ofWithBot_coe]
      rcases lt_trichotomy x 0 with hx | rfl | hx
      · rw [scale_of_not_pos hone (mt zero_lt_fin.mp hx.not_gt), neg_mul_lt_top hx]
        simp [hx, hx.ne, hx.le]
      · rw [scale_of_not_pos hone (mt zero_lt_fin.mp (lt_irrefl 0)), zero_mul_lt_top]
        simp
      · rw [scale_of_pos hone (zero_lt_fin.mpr hx), pos_div_lt_top hx]
        simp [hx, hx.ne', hx.le]

theorem scale_eq_bot_iff (l : Logit) (hlow : p.scale (ofWithBot l) < top) :
    p.scale (ofWithBot l) = bot ↔ l = ⊥ ∨ l < (0 : ℚ) ∧ p.repeat = top := by
  obtain ⟨hmasked, -, hzero, -⟩ := (scale_lt_top_iff l).mp hlow
  by_cases hone : p.repeat = 1
  · rw [scale_of_eq_one hone, hone]
    induction l using WithBot.recBotCoe with
    | bot => simp
    | coe x => exact iff_of_false nofun (by rintro (h | ⟨-, h⟩) <;> cases h)
  · induction l using WithBot.recBotCoe with
    | bot =>
      rw [ofWithBot_bot, scale_of_not_pos hone (not_lt_bot 0), bot_mul_eq_bot]
      simpa using hmasked rfl
    | coe x =>
      rw [ofWithBot_coe]
      rcases lt_trichotomy x 0 with hx | rfl | hx
      · rw [scale_of_not_pos hone (mt zero_lt_fin.mp hx.not_gt), neg_mul_eq_bot hx]
        simp [hx]
      · rw [scale_of_not_pos hone (mt zero_lt_fin.mp (lt_irrefl 0))]
        obtain ⟨hbot, htop⟩ := hzero rfl
        cases hrepeat : p.repeat <;> simp_all [lt_top_iff]
      · rw [scale_of_pos hone (zero_lt_fin.mpr hx)]
        simp [pos_div_ne_bot hx, hx.le]

theorem penalized_lt_top_iff (l : Logit) : p.penalized cnt (ofWithBot l) < top ↔ Mild p cnt l := by
  rw [PenaltyConfig.penalized, sub_lt_top, scale_lt_top_iff]
  constructor
  · rintro ⟨⟨hmasked, hneg, hzero, hpos⟩, hshift⟩
    exact ⟨hshift, hmasked, hneg, hzero, hpos⟩
  · rintro ⟨hshift, hmasked, hneg, hzero, hpos⟩
    exact ⟨⟨hmasked, hneg, hzero, hpos⟩, hshift⟩

theorem penalized_eq_bot_iff {l : Logit} (hmild : Mild p cnt l) :
    p.penalized cnt (ofWithBot l) = bot ↔ l = ⊥ ∨ Sinks p cnt l := by
  obtain ⟨hlow, hshift⟩ := sub_lt_top.mp ((penalized_lt_top_iff l).mpr hmild)
  rw [PenaltyConfig.penalized, sub_eq_bot hlow hshift, scale_eq_bot_iff l hlow, Sinks]
  tauto

end

/-! ### The biases -/

theorem clamp_toF32 (x : ℚ) :
    clamp (fin (-100)) (fin 100) (toF32 x) = fin (max (-100) (min x 100)) := by
  rw [toF32]
  split
  · next hlarge =>
    have hx : 100 ≤ x := le_trans (by norm_num) hlarge
    rw [min_eq_right hx, max_eq_right (by norm_num)]
    rfl
  · split
    · next hsmall =>
      have hx : x ≤ -100 := hsmall.trans (by norm_num)
      rw [min_eq_left (by linarith), max_eq_left hx]
      rfl
    · simp only [clamp, fin_lt_fin]
      split
      · next hlow =>
        rw [min_eq_left (by linarith), max_eq_left hlow.le]
        norm_num
      · next hlow =>
        rw [not_lt] at hlow
        split
        · next hhigh =>
          rw [min_eq_right (le_of_lt hhigh), max_eq_right (by norm_num)]
        · next hhigh =>
          rw [min_eq_left (not_lt.mp hhigh), max_eq_right hlow]

theorem buildDecodeCtrl_logitBias (req : DecodeParams) :
    (buildDecodeCtrl req).logitBias = req.biases.map (Prod.map id fin) := by
  simp only [buildDecodeCtrl, DecodeControl.new, DecodeParams.biases, List.map_filterMap,
    Option.map_map]
  congr 1
  funext entry
  cases parseU32 (trim entry.1) with
  | none => rfl
  | some id => simp [clamp_toF32]

theorem ofWithBot_add (l : Logit) (x : ℚ) : ofWithBot l + fin x = ofWithBot (l + (x : Logit)) := by
  induction l using WithBot.recBotCoe with
  | bot => rfl
  | coe y => rfl

theorem foldl_bias (biases : List (Token × ℚ)) (token : Token) (l : Logit) :
    (biases.map (Prod.map id fin)).foldl
        (fun l entry => if entry.1 = token then l + entry.2 else l) (ofWithBot l) =
      ofWithBot (l + (biasOf biases token : Logit)) := by
  induction biases generalizing l with
  | nil => simp [biasOf]
  | cons entry biases ih =>
    rw [List.map_cons, List.foldl_cons]
    by_cases hsame : entry.1 = token
    · have hstep : ofWithBot l + fin entry.2 = ofWithBot (l + (entry.2 : Logit)) :=
        ofWithBot_add l entry.2
      simp only [Prod.map_fst, Prod.map_snd, id, hsame, if_true, hstep, ih, biasOf,
        List.filter_cons, decide_true, List.map_cons, List.sum_cons, WithBot.coe_add, add_assoc]
    · simp only [Prod.map_fst, id, hsame, if_false, ih, biasOf, List.filter_cons, decide_false,
        Bool.false_eq_true]

/-! ### Every request and history -/

/-- The control of a request after the tail of its prompt and the tokens of a history. -/
def ctrlAfter (req : DecodeParams) (prompt : List Token) (lastN : ℕ) (history : List Token) :
    DecodeControl :=
  history.foldl DecodeControl.observe ((buildDecodeCtrl req).observePromptTail prompt lastN)

section

variable (req : DecodeParams) (prompt history : List Token) (lastN : ℕ) (logits : List Logit)

/-- What the adjustment makes of a token's logit. -/
def adjusted (observed : List Token) (token : Token) (l : Logit) : Extended ℚ :=
  if req.penalties.isActive = true ∧ token ∈ observed then
    req.penalties.penalized (observed.count token) (ofWithBot (l + req.bias token))
  else ofWithBot (l + req.bias token)

theorem getElem?_adjusted (token : Token) :
    ((ctrlAfter req prompt lastN history).adjustLogits (logits.map ofWithBot))[token]? =
      logits[token]?.map (adjusted req (prompt.reverse.take lastN ++ history) token) := by
  rw [getElem?_adjustLogits, List.getElem?_map, Option.map_map, ctrlAfter,
    DecodeControl.foldl_observe_observePromptTail]
  congr 1
  funext l
  have hpenalties : (buildDecodeCtrl req).penalties = req.penalties := rfl
  by_cases hactive : req.penalties.isActive = true
  · obtain ⟨hp, hb⟩ : _ = (buildDecodeCtrl req).penalties ∧ _ = (buildDecodeCtrl req).logitBias :=
      DecodeControl.foldl_bump_penalties (prompt.reverse.take lastN ++ history)
    have hempty : (buildDecodeCtrl req).counts = ∅ := rfl
    simp only [Function.comp_apply, hpenalties, hactive, if_true, hp, hb,
      DecodeControl.lookup_foldl_bump hempty,
      buildDecodeCtrl_logitBias, foldl_bias, adjusted, true_and]
    split <;> rfl
  · simp only [Function.comp_apply, hpenalties, hactive, if_false, adjusted, false_and,
      buildDecodeCtrl_logitBias, foldl_bias, Bool.false_eq_true]
    rfl

theorem sampleToken_eq (ctrl : DecodeControl) (v : List (Extended ℚ)) :
    ctrl.sampleToken v = sampleGreedy (ctrl.adjustLogits v) := by
  rw [DecodeControl.sampleToken]
  split
  · rfl
  · next hnone =>
    simp only [DecodeControl.modifiesLogits, Bool.or_eq_true, Bool.not_eq_true', not_or,
      Bool.not_eq_true, Bool.not_eq_false, List.isEmpty_iff] at hnone
    simp [DecodeControl.adjustLogits, hnone.1, hnone.2]

variable {req logits} {observed : List Token}

theorem adjusted_lt_top_iff (token : Token) (l : Logit) : adjusted req observed token l < top ↔
    (req.penalties.isActive = true → token ∈ observed →
      Mild req.penalties (observed.count token) (l + req.bias token)) := by
  rw [adjusted]
  split
  · next hboth =>
    rw [penalized_lt_top_iff]
    exact ⟨fun hmild _ _ => hmild, fun hmild => hmild hboth.1 hboth.2⟩
  · next hnot =>
    refine iff_of_true ?_ fun hactive hmem => absurd ⟨hactive, hmem⟩ hnot
    induction l using WithBot.recBotCoe <;> trivial

theorem adjusted_eq_bot_iff {token : Token} {l : Logit}
    (hlow : adjusted req observed token l < top) : adjusted req observed token l = bot ↔
      l = ⊥ ∨ req.penalties.isActive = true ∧ token ∈ observed ∧
        Sinks req.penalties (observed.count token) (l + req.bias token) := by
  have hmild := (adjusted_lt_top_iff token l).mp hlow
  have hmasked : l + (req.bias token : Logit) = ⊥ ↔ l = ⊥ := by
    induction l using WithBot.recBotCoe with
    | bot => simp
    | coe x => exact iff_of_false (WithBot.coe_ne_bot (a := x + req.bias token)) WithBot.coe_ne_bot
  rw [adjusted]
  split
  · next hboth =>
    rw [penalized_eq_bot_iff (hmild hboth.1 hboth.2), hmasked]
    simp [hboth.1, hboth.2]
  · next hnot =>
    have hright : ¬ (req.penalties.isActive = true ∧ token ∈ observed ∧
        Sinks req.penalties (observed.count token) (l + req.bias token)) :=
      fun h => hnot ⟨h.1, h.2.1⟩
    rw [or_iff_left hright, ← hmasked]
    induction l using WithBot.recBotCoe with
    | bot => simp
    | coe x => exact iff_of_false nofun (WithBot.coe_ne_bot (a := x + req.bias token))

section

variable {v : List (Extended ℚ)}

/-- Where the last of a list's numbers is taken at minus infinity, it is the list's last. -/
theorem getLast?_of_sampleGreedy_bot (hne : v ≠ []) (hnum : nan ∉ v)
    (hbot : v[sampleGreedy v]? = some bot) : sampleGreedy v = v.length - 1 := by
  obtain ⟨x, hx, -, hlater⟩ := sampleGreedy_spec hne hnum
  obtain rfl := Option.some.inj (hbot.symm.trans hx)
  obtain ⟨hlt, -⟩ := List.getElem?_eq_some_iff.mp hbot
  by_contra hplace
  have hnext : sampleGreedy v + 1 < v.length := by omega
  exact not_lt_bot _ (hlater _ _ (Nat.lt_succ_self _) (List.getElem?_eq_getElem hnext))

end

/-- A token that the mask closes is not drawn unless every logit is at minus infinity and the last
one is masked. -/
theorem drawn_iff (v : List (Extended ℚ))
    (hv : ∀ token, v[token]? = logits[token]?.map (adjusted req observed token))
    (hlow : ∀ token l, logits[token]? = some l → adjusted req observed token l < top) :
    logits[sampleGreedy v]? ≠ some ⊥ ↔ logits.getLast? ≠ some ⊥ ∨
      ∃ (token : Token) (x : ℚ), logits[token]? = some ↑x ∧
        (req.penalties.isActive = true → token ∈ observed →
          ¬ Sinks req.penalties (observed.count token) ↑(x + req.bias token)) := by
  have hshort (i : ℕ) : v.length ≤ i ↔ logits.length ≤ i := by
    rw [← List.getElem?_eq_none_iff, ← List.getElem?_eq_none_iff, hv, Option.map_eq_none_iff]
  have hlength : v.length = logits.length :=
    le_antisymm ((hshort _).mpr le_rfl) ((hshort _).mp le_rfl)
  have hnum : nan ∉ v := by
    intro hmem
    obtain ⟨token, htoken⟩ := List.mem_iff_getElem?.mp hmem
    rw [hv] at htoken
    obtain ⟨l, hl, hnan⟩ := Option.map_eq_some_iff.mp htoken
    exact (lt_top_iff.mp (hlow token l hl)).1 hnan
  rcases eq_or_ne logits [] with rfl | hne
  · exact iff_of_true (by simp) (.inl (by simp))
  have hne' : v ≠ [] := List.ne_nil_of_length_pos (hlength ▸ List.length_pos_iff.mpr hne)
  obtain ⟨x, hx, hmax, -⟩ := sampleGreedy_spec hne' hnum
  obtain ⟨l, hl, rfl⟩ := Option.map_eq_some_iff.mp (hv _ ▸ hx)
  have hlast (hbot : adjusted req observed (sampleGreedy v) l = bot) : logits.getLast? = some l := by
    rw [List.getLast?_eq_getElem?, ← hlength,
      ← getLast?_of_sampleGreedy_bot hne' hnum (by rw [hx, hbot]), hl]
  have hsinks := adjusted_eq_bot_iff (hlow _ l hl)
  rw [hl]
  constructor
  · intro hdrawn
    by_cases hbot : adjusted req observed (sampleGreedy v) l = bot
    · exact .inl (by rw [hlast hbot]; exact hdrawn)
    · induction l using WithBot.recBotCoe with
      | bot => exact absurd rfl hdrawn
      | coe y =>
        refine .inr ⟨_, y, hl, fun hactive hmem hsink => hbot (hsinks.mpr (.inr ?_))⟩
        exact ⟨hactive, hmem, hsink⟩
  · intro hleft hdrawn
    obtain rfl := Option.some.inj hdrawn
    have hbot := hsinks.mpr (.inl rfl)
    rcases hleft with hend | ⟨token, y, hy, hfloat⟩
    · exact hend (hlast hbot)
    · have hlow' := hlow token y hy
      have hmem : adjusted req observed token y ∈ v :=
        List.mem_of_getElem? (i := token) (by rw [hv, hy]; rfl)
      have hne : adjusted req observed token y ≠ bot := by
        intro hbot'
        rcases (adjusted_eq_bot_iff hlow').mp hbot' with h | ⟨hactive, hmem, hsink⟩
        · exact WithBot.coe_ne_bot h
        · exact hfloat hactive hmem hsink
      rw [hbot] at hmax
      exact hmax _ hmem (bot_lt_of_ne hlow' hne)

/-- The mask outlives the adjustment for the request, the tokens seen and the logits exactly where
the penalties are mild on the logits that they touch, and the last logit or one that they do not
sink is not masked. -/
theorem adjust_keeps_mask_iff (req : DecodeParams) (prompt : List Token) (lastN : ℕ)
    (history : List Token) (logits : List Logit) :
    MaskKept (ctrlAfter req prompt lastN history) logits ↔
      Spares req (prompt.reverse.take lastN ++ history) logits := by
  have hv := getElem?_adjusted req prompt history lastN logits
  have hlow : (∀ token l, logits[token]? = some l →
      adjusted req (prompt.reverse.take lastN ++ history) token l < top) ↔
      (req.penalties.isActive = true → ∀ token ∈ prompt.reverse.take lastN ++ history, ∀ l,
        logits[token]? = some l → Mild req.penalties
          ((prompt.reverse.take lastN ++ history).count token) (l + req.bias token)) := by
    simp only [adjusted_lt_top_iff]
    exact ⟨fun h hactive token hmem l hl => h token l hl hactive hmem,
      fun h token l hl hactive hmem => h hactive token hmem l hl⟩
  have hdrawn := drawn_iff _ hv
  rw [← sampleToken_eq] at hdrawn
  constructor
  · rintro ⟨-, hnumber, hclosed⟩
    have hall : ∀ token l, logits[token]? = some l →
        adjusted req (prompt.reverse.take lastN ++ history) token l < top := by
      intro token l hl
      apply lt_top_iff.mpr
      apply hnumber
      apply List.mem_of_getElem? (i := token)
      rw [hv, hl]
      rfl
    exact ⟨hlow.mp hall, (hdrawn hall).mp hclosed⟩
  · rintro ⟨hmild, hleft⟩
    have hall := hlow.mpr hmild
    refine ⟨fun token htoken => ?_, fun l hl => ?_, (hdrawn hall).mpr hleft⟩
    · rw [hv, htoken, Option.map_some, (adjusted_eq_bot_iff (hall token ⊥ htoken)).mpr (.inl rfl)]
    · obtain ⟨token, htoken⟩ := List.mem_iff_getElem?.mp hl
      rw [hv] at htoken
      obtain ⟨m, hm, rfl⟩ := Option.map_eq_some_iff.mp htoken
      exact lt_top_iff.mp (hall token m hm)

end

/-- A repetition penalty below zero takes a masked token to the largest logit, and it is drawn. -/
theorem adjust_revives_masked :
    ¬ ∀ (req : DecodeParams) (prompt : List Token) (lastN : ℕ) (history : List Token)
      (logits : List Logit), MaskKept (ctrlAfter req prompt lastN history) logits := by
  intro hkept
  have hdrawn := (hkept { repeatPenalty := some (-1) } [] 0 [0] [⊥, (1 : ℚ)]).drawn
  have hzero : (ctrlAfter { repeatPenalty := some (-1) } [] 0 [0]).sampleToken [bot, fin 1] = 0 := by
    decide +kernel
  exact hdrawn (congrArg ([⊥, ((1 : ℚ) : Logit)][·]?) hzero)

end Zllm.DecodeCtrl
