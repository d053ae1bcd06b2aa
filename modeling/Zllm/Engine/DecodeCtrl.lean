import Zllm.Basic
import Zllm.Engine.GreedyChoice
import Mathlib.Data.List.AList

/-!
# Decode control

`DecodeControl`: the penalties, the biases, the generator and the stop strings of one request.
Floats are not rounded, and texts are their bytes. The generator stands for its seed.
-/

namespace Zllm.DecodeCtrl

open GreedyChoice (sampleGreedy)

structure PenaltyConfig where
  «repeat» : Extended ℚ := 1
  presence : Extended ℚ := 0
  frequency : Extended ℚ := 0

def PenaltyConfig.isActive (p : PenaltyConfig) : Bool :=
  decide (p.repeat ≠ 1) || decide (p.presence ≠ 0) || decide (p.frequency ≠ 0)

/-- What the penalties subtract from the logit of a token seen so often. -/
def PenaltyConfig.shift (p : PenaltyConfig) (cnt : ℕ) : Extended ℚ :=
  p.frequency * .fin cnt + p.presence

def PenaltyConfig.scale (p : PenaltyConfig) (l : Extended ℚ) : Extended ℚ :=
  if p.repeat ≠ 1 then if 0 < l then l / p.repeat else l * p.repeat else l

/-- The logit of a token seen so often, divided or multiplied and then lowered. -/
def PenaltyConfig.penalized (p : PenaltyConfig) (cnt : ℕ) (l : Extended ℚ) : Extended ℚ :=
  p.scale l - p.shift cnt

structure DecodeControl where
  penalties : PenaltyConfig
  logitBias : List (Token × Extended ℚ)
  counts : AList fun _ : Token => ℕ
  rng : Option ℕ
  stops : List (List UInt8)
  windowTokens : ℕ

namespace DecodeControl

def new (penalties : PenaltyConfig) (logitBias : List (Token × Extended ℚ)) (seed : Option ℕ)
    (stops : List (List UInt8)) : DecodeControl where
  penalties := penalties
  logitBias := logitBias
  counts := ∅
  rng := seed
  stops := stops
  windowTokens := 8 + (stops.map List.length).foldr max 0

variable (ctrl : DecodeControl)

/-! ### Sampling -/

/-- One more occurrence. -/
def bump (token : Token) : DecodeControl :=
  { ctrl with counts := ctrl.counts.insert token ((ctrl.counts.lookup token).getD 0 + 1) }

def observePromptTail (prompt : List Token) (lastN : ℕ) : DecodeControl :=
  if ctrl.penalties.isActive then (prompt.reverse.take lastN).foldl bump ctrl else ctrl

def observe (token : Token) : DecodeControl :=
  if ctrl.penalties.isActive then ctrl.bump token else ctrl

def modifiesLogits : Bool := ctrl.penalties.isActive || !ctrl.logitBias.isEmpty

/-- The biases and then the penalties, each on the logit of its token. -/
def adjustLogits (logits : List (Extended ℚ)) : List (Extended ℚ) :=
  let logits := ctrl.logitBias.foldl
    (fun logits entry => logits.modify entry.1 fun l => l + entry.2) logits
  if ctrl.penalties.isActive then
    ctrl.counts.entries.foldl
      (fun logits entry => logits.modify entry.1 (ctrl.penalties.penalized entry.2)) logits
  else logits

/-- `sample_token` at temperature zero, which makes no draw. -/
def sampleToken (logits : List (Extended ℚ)) : Token :=
  sampleGreedy (if ctrl.modifiesLogits then ctrl.adjustLogits logits else logits)

end DecodeControl

/-! ### What the tokens seen leave in the counts -/

namespace DecodeControl

variable {ctrl : DecodeControl}

@[simp]
theorem bump_penalties (token : Token) : (ctrl.bump token).penalties = ctrl.penalties := rfl

@[simp]
theorem bump_logitBias (token : Token) : (ctrl.bump token).logitBias = ctrl.logitBias := rfl

/-- Only the counts change, and only where there are penalties. -/
theorem observe_of_inactive (hactive : ctrl.penalties.isActive = false) (token : Token) :
    ctrl.observe token = ctrl := by
  simp [observe, hactive]

theorem foldl_observe_of_inactive (hactive : ctrl.penalties.isActive = false)
    (tokens : List Token) : tokens.foldl observe ctrl = ctrl := by
  induction tokens with
  | nil => rfl
  | cons token tokens ih => rw [List.foldl_cons, observe_of_inactive hactive, ih]

theorem foldl_bump_penalties (tokens : List Token) :
    (tokens.foldl bump ctrl).penalties = ctrl.penalties ∧
      (tokens.foldl bump ctrl).logitBias = ctrl.logitBias := by
  induction tokens generalizing ctrl with
  | nil => exact ⟨rfl, rfl⟩
  | cons token tokens ih => exact ih

theorem foldl_observe_of_active (hactive : ctrl.penalties.isActive = true) (tokens : List Token) :
    tokens.foldl observe ctrl = tokens.foldl bump ctrl := by
  induction tokens generalizing ctrl with
  | nil => rfl
  | cons token tokens ih =>
    have hstep : ctrl.observe token = ctrl.bump token := by rw [observe, if_pos hactive]
    rw [List.foldl_cons, List.foldl_cons, hstep]
    exact ih hactive

/-- A control that was made, shown the tail of a prompt and then the tokens of a history. -/
theorem foldl_observe_observePromptTail (prompt history : List Token) (lastN : ℕ) :
    history.foldl observe (ctrl.observePromptTail prompt lastN) =
      if ctrl.penalties.isActive then
        (prompt.reverse.take lastN ++ history).foldl bump ctrl
      else ctrl := by
  cases hactive : ctrl.penalties.isActive with
  | false =>
    rw [observePromptTail, hactive]
    exact foldl_observe_of_inactive hactive history
  | true =>
    have htail : ((prompt.reverse.take lastN).foldl bump ctrl).penalties.isActive = true := by
      rw [(foldl_bump_penalties _).1, hactive]
    rw [observePromptTail, hactive, if_pos rfl, if_pos rfl, foldl_observe_of_active htail,
      List.foldl_append]

theorem lookup_bump (token other : Token) : (ctrl.bump token).counts.lookup other =
    if other = token then some ((ctrl.counts.lookup token).getD 0 + 1)
    else ctrl.counts.lookup other := by
  split
  · next hsame => rw [hsame, bump, AList.lookup_insert]
  · next hne => rw [bump, AList.lookup_insert_ne hne]

/-- The counts are those of the tokens seen. -/
theorem lookup_foldl_bump (hempty : ctrl.counts = ∅) (tokens : List Token) (token : Token) :
    (tokens.foldl bump ctrl).counts.lookup token =
      if token ∈ tokens then some (tokens.count token) else none := by
  induction tokens using List.reverseRecOn generalizing token with
  | nil => simp [hempty]
  | append_singleton tokens t ih =>
    rw [List.foldl_append, List.foldl_cons, List.foldl_nil, lookup_bump]
    by_cases hsame : token = t
    · subst hsame
      have hcount : ((tokens.foldl bump ctrl).counts.lookup token).getD 0 = tokens.count token := by
        rw [ih token]
        by_cases hmem : token ∈ tokens
        · rw [if_pos hmem, Option.getD_some]
        · rw [if_neg hmem, Option.getD_none, List.count_eq_zero.mpr hmem]
      rw [if_pos rfl, hcount, if_pos (List.mem_append_right _ (List.mem_singleton_self token)),
        List.count_append, List.count_singleton_self]
    · rw [if_neg hsame, ih]
      simp [hsame, Ne.symm hsame]

end DecodeControl

/-! ### What the adjustment does to one logit -/

section

variable {β ε : Type}

theorem getElem?_foldl_modify (key : ε → ℕ) (f : ε → β → β) (es : List ε) (ls : List β) (i : ℕ) :
    (es.foldl (fun ls e => ls.modify (key e) (f e)) ls)[i]? =
      ls[i]?.map fun l => es.foldl (fun l e => if key e = i then f e l else l) l := by
  induction es generalizing ls with
  | nil => simp
  | cons e es ih =>
    rw [List.foldl_cons, ih, List.getElem?_modify]
    simp only [List.foldl_cons]
    cases ls[i]? with
    | none => rfl
    | some l => rfl

/-- A key that occurs once is used once. -/
theorem foldl_of_nodupKeys (f : ℕ → β → β) {es : List (Sigma fun _ : Token => ℕ)}
    (hnodup : es.NodupKeys) (token : Token) (l : β) :
    es.foldl (fun l e => if e.1 = token then f e.2 l else l) l =
      (es.dlookup token).elim l fun cnt => f cnt l := by
  induction es generalizing l with
  | nil => rfl
  | cons e es ih =>
    obtain ⟨t, cnt⟩ := e
    obtain ⟨hfresh, hnodup⟩ := List.nodupKeys_cons.mp hnodup
    rw [List.foldl_cons, ih hnodup]
    by_cases hsame : t = token
    · subst hsame
      rw [List.dlookup_eq_none.mpr hfresh, List.dlookup_cons_eq]
      simp
    · rw [List.dlookup_cons_ne _ _ (Ne.symm hsame), if_neg hsame]

end

theorem getElem?_adjustLogits (ctrl : DecodeControl) (logits : List (Extended ℚ)) (token : Token) :
    (ctrl.adjustLogits logits)[token]? = logits[token]?.map fun l =>
      let l := ctrl.logitBias.foldl (fun l entry => if entry.1 = token then l + entry.2 else l) l
      if ctrl.penalties.isActive then
        (ctrl.counts.lookup token).elim l fun cnt => ctrl.penalties.penalized cnt l
      else l := by
  have hbias := getElem?_foldl_modify Prod.fst
    (fun (entry : Token × Extended ℚ) l => l + entry.2) ctrl.logitBias logits token
  rw [DecodeControl.adjustLogits]
  dsimp only
  split
  · have hpenalty := getElem?_foldl_modify Sigma.fst
      (fun (entry : Sigma fun _ : Token => ℕ) => ctrl.penalties.penalized entry.2)
      ctrl.counts.entries (ctrl.logitBias.foldl
        (fun logits entry => logits.modify entry.1 fun l => l + entry.2) logits) token
    rw [hpenalty, hbias, Option.map_map]
    simp only [Function.comp_def,
      foldl_of_nodupKeys ctrl.penalties.penalized ctrl.counts.nodupKeys token]
    rfl
  · exact hbias

end Zllm.DecodeCtrl
