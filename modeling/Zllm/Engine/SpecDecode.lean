import Mathlib.Data.List.GetD
import Zllm.Basic
import Zllm.Lib.Outcome

/-!
# Speculative decoding with a draft model

`spec_iter` of `engine/spec_decode.rs` over candle backends, and its iteration. The logits of a
model depend on the tokens that its cache holds; a forward pass may fail, when there is no room or a
token is not in the vocabulary.
-/

namespace Zllm.SpecDecode

open Zllm.Outcome

/-! ### Backends -/

structure Network where
  /-- The last row after these tokens. -/
  logits : List Token → List Logit
  /-- A forward pass that ends with these tokens held succeeds. -/
  accepts : List Token → Bool

inductive BackendError
  | emptyInput
  | forwardPass
  | panicked

structure Backend where
  model : Network
  held : List Token
  indexPos : Nat

namespace Backend

def forwardLogits (b : Backend) (tokens : List Token) :
    Except BackendError (List Logit × Backend) :=
  if tokens.isEmpty then .error .emptyInput
  else if b.model.accepts (b.held ++ tokens) then
    .ok (b.model.logits (b.held ++ tokens),
      { b with held := b.held ++ tokens, indexPos := b.indexPos + tokens.length })
  else .error .forwardPass

/-- One row for each of the tokens. -/
def forwardAllLogits (b : Backend) (tokens : List Token) :
    Except BackendError (List (List Logit) × Backend) :=
  if b.model.accepts (b.held ++ tokens) then
    .ok ((List.range tokens.length).map fun i => b.model.logits (b.held ++ tokens.take (i + 1)),
      { b with held := b.held ++ tokens, indexPos := b.indexPos + tokens.length })
  else .error .forwardPass

def truncateTo (b : Backend) (n : Nat) : Backend :=
  { b with held := b.held.take n, indexPos := n }

/-- The cache and the position agree. -/
structure Holds (b : Backend) (tokens : List Token) : Prop where
  held : b.held = tokens
  indexPos : b.indexPos = tokens.length

end Backend

/-! ### One iteration -/

/-- The first of the largest. -/
def argmax (v : List Logit) : Token :=
  (v.zipIdx.foldl (fun best x => if best.1 < x.1 then x else best) (⊥, 0)).2

/-- The draft model forwards each of its proposals. -/
def propose : Nat → Backend → List Logit → Except BackendError (List Token × Backend)
  | 0, draft, _ => .ok ([], draft)
  | k + 1, draft, logits => do
    let d := argmax logits
    let next ← draft.forwardLogits [d]
    let rest ← propose k next.2 next.1
    pure (d :: rest.1, rest.2)

/-- How many drafts in a row agree with the row before them. -/
def agreeing : List (List Logit) → List Token → Nat
  | row :: rows, d :: drafts => if argmax row = d then agreeing rows drafts + 1 else 0
  | _, _ => 0

structure SpecIterResult where
  committed : List Token
  accepted : Nat
  draftProposed : Nat
  nextMainLogit : List Logit
  nextDraftLogit : List Logit

def specIter (main draft : Backend) (lastMainLogit lastDraftLogit : List Logit) (k : Nat) :
    Except BackendError (SpecIterResult × Backend × Backend) := do
  let t := argmax lastMainLogit
  let proposed ← propose k draft lastDraftLogit
  let drafts := proposed.1
  let verified ← main.forwardAllLogits drafts
  let rows := verified.1
  match drafts with
  | [] => .error .panicked
  | d :: rest =>
    let accepted := if d = t then agreeing rows rest + 1 else 0
    let corrected :=
      if accepted = 0 then t
      else if accepted < drafts.length then argmax (rows.getD (accepted - 1) [])
      else argmax (rows.getD (drafts.length - 1) [])
    let target := verified.2.indexPos - (drafts.length - accepted)
    let nextMain ← (verified.2.truncateTo target).forwardLogits [corrected]
    let nextDraft ← (proposed.2.truncateTo target).forwardLogits [corrected]
    pure ({ committed := drafts.take accepted ++ [corrected], accepted
            draftProposed := drafts.length, nextMainLogit := nextMain.1
            nextDraftLogit := nextDraft.1 }, nextMain.2, nextDraft.2)

/-- Both backends with their pending logits. -/
structure SpecState where
  main : Backend
  draft : Backend
  lastMainLogit : List Logit
  lastDraftLogit : List Logit

/-- So many iterations, and all the tokens that they commit. -/
def specRun (k : Nat) : Nat → SpecState → Except BackendError (List Token × SpecState)
  | 0, s => .ok ([], s)
  | n + 1, s => do
    let r ← specIter s.main s.draft s.lastMainLogit s.lastDraftLogit k
    let rest ← specRun k n ⟨r.2.1, r.2.2, r.1.nextMainLogit, r.1.nextDraftLogit⟩
    pure (r.1.committed ++ rest.1, rest.2)

/-! ### Greedy decoding -/

/-- The first tokens of decoding one argmax at a time, from pending logits and the tokens held. -/
def greedy (net : Network) : Nat → List Logit → List Token → List Token
  | 0, _, _ => []
  | n + 1, pending, held =>
    argmax pending :: greedy net n (net.logits (held ++ [argmax pending])) (held ++ [argmax pending])

/-- How many tokens two lists have in common at their start. -/
def commonPrefix : List Token → List Token → Nat
  | x :: xs, y :: ys => if x = y then commonPrefix xs ys + 1 else 0
  | _, _ => 0

section

variable {net : Network} {pending : List Logit} {held : List Token}

@[simp]
theorem greedy_length (n : Nat) : (greedy net n pending held).length = n := by
  induction n generalizing pending held with
  | zero => rfl
  | succ n ih => rw [greedy, List.length_cons, ih]

/-- Decoding goes on from the logits after what was decoded. -/
theorem greedy_add {m : Nat} (hm : 0 < m) (n : Nat) :
    greedy net (m + n) pending held = greedy net m pending held ++
      greedy net n (net.logits (held ++ greedy net m pending held))
        (held ++ greedy net m pending held) := by
  induction m generalizing pending held with
  | zero => exact absurd hm (lt_irrefl 0)
  | succ m ih =>
    rw [Nat.succ_add, greedy, greedy, List.cons_append]
    cases m with
    | zero => rw [Nat.zero_add, greedy, List.nil_append]
    | succ m => rw [ih m.succ_pos, ← List.append_cons]

theorem greedy_succ_take (n : Nat) :
    (greedy net (n + 1) pending held).take n = greedy net n pending held := by
  induction n generalizing pending held with
  | zero => rfl
  | succ n ih => exact congrArg (argmax pending :: ·) ih

theorem greedy_take {m n : Nat} (hle : m ≤ n) :
    (greedy net n pending held).take m = greedy net m pending held := by
  induction hle with
  | refl => rw [List.take_of_length_le (greedy_length m).le]
  | @step n hle ih =>
    rw [← ih, ← greedy_succ_take n, List.take_take, min_eq_left hle]

end

theorem commonPrefix_le (xs ys : List Token) : commonPrefix xs ys ≤ ys.length := by
  induction xs generalizing ys with
  | nil => exact Nat.zero_le _
  | cons x xs ih =>
    cases ys with
    | nil => exact le_rfl
    | cons y ys =>
      rw [commonPrefix]
      split
      · exact Nat.succ_le_succ (ih ys)
      · exact Nat.zero_le _

theorem commonPrefix_shared (xs ys : List Token) :
    ys.take (commonPrefix xs ys) = xs.take (commonPrefix xs ys) := by
  induction xs generalizing ys with
  | nil => simp [commonPrefix]
  | cons x xs ih =>
    cases ys with
    | nil => simp [commonPrefix]
    | cons y ys =>
      rw [commonPrefix]
      split
      · next hsame => rw [List.take_succ_cons, List.take_succ_cons, ih, hsame]
      · rfl

/-! ### What a backend holds after a call -/

namespace Backend

variable {b b' : Backend} {tokens more : List Token}

theorem Holds.forwardLogits (h : b.Holds tokens) {r : List Logit × Backend}
    (hok : b.forwardLogits more = .ok r) :
    r.1 = b.model.logits (tokens ++ more) ∧ r.2.Holds (tokens ++ more) ∧ r.2.model = b.model := by
  unfold Backend.forwardLogits at hok
  split at hok
  · cases hok
  · split at hok
    · cases hok
      rw [← h.held]
      refine ⟨rfl, ⟨rfl, ?_⟩, rfl⟩
      rw [List.length_append, h.indexPos, h.held]
    · cases hok

theorem Holds.forwardLogits_succeeds (h : b.Holds tokens) (hne : more ≠ [])
    (haccepts : b.model.accepts (tokens ++ more) = true) : ∃ r, b.forwardLogits more = .ok r := by
  unfold Backend.forwardLogits
  rw [if_neg (by simpa using hne), h.held, if_pos haccepts]
  exact ⟨_, rfl⟩

theorem Holds.forwardAllLogits (h : b.Holds tokens) {r : List (List Logit) × Backend}
    (hok : b.forwardAllLogits more = .ok r) :
    r.1 = (List.range more.length).map (fun i => b.model.logits (tokens ++ more.take (i + 1))) ∧
      r.2.Holds (tokens ++ more) ∧ r.2.model = b.model := by
  unfold Backend.forwardAllLogits at hok
  split at hok
  · cases hok
    rw [← h.held]
    refine ⟨rfl, ⟨rfl, ?_⟩, rfl⟩
    rw [List.length_append, h.indexPos, h.held]
  · cases hok

theorem Holds.forwardAllLogits_succeeds (h : b.Holds tokens)
    (haccepts : b.model.accepts (tokens ++ more) = true) : ∃ r, b.forwardAllLogits more = .ok r := by
  unfold Backend.forwardAllLogits
  rw [h.held, if_pos haccepts]
  exact ⟨_, rfl⟩

/-- Tokens that were forwarded too far are dropped. -/
theorem Holds.truncateTo (h : b.Holds (tokens ++ more)) {n : Nat} (hn : n ≤ more.length) :
    (b.truncateTo (tokens.length + n)).Holds (tokens ++ more.take n) where
  held := by
    show b.held.take (tokens.length + n) = _
    rw [h.held, List.take_length_add_append]
  indexPos := by
    show tokens.length + n = _
    rw [List.length_append, List.length_take, min_eq_left hn]

end Backend

section

variable {main draft : Backend} {tokens : List Token} {logits : List Logit} {k : Nat}

/-- The proposals are the draft model's own greedy decoding. -/
theorem propose_eq (h : draft.Holds tokens) {r : List Token × Backend}
    (hok : propose k draft logits = .ok r) :
    r.1 = greedy draft.model k logits tokens ∧ r.2.Holds (tokens ++ r.1) ∧
      r.2.model = draft.model := by
  induction k generalizing draft tokens logits r with
  | zero =>
    cases hok
    rw [List.append_nil]
    exact ⟨rfl, h, rfl⟩
  | succ k ih =>
    rw [propose] at hok
    obtain ⟨next, hnext, hok⟩ := bind_eq_ok.mp hok
    obtain ⟨rest, hrest, hok⟩ := bind_eq_ok.mp hok
    obtain rfl := pure_eq_ok.mp hok
    obtain ⟨hlogits, hholds, hmodel⟩ := h.forwardLogits hnext
    obtain ⟨htokens, hheld, hsame⟩ := ih hholds hrest
    rw [hmodel, hlogits] at htokens
    refine ⟨?_, ?_, hsame.trans hmodel⟩
    · rw [greedy, ← htokens]
    · rwa [List.append_cons]

theorem propose_succeeds (logits : List Logit) (h : draft.Holds tokens)
    (haccepts : ∀ more, more.length ≤ k → draft.model.accepts (tokens ++ more) = true) :
    ∃ r, propose k draft logits = .ok r := by
  induction k generalizing draft tokens logits with
  | zero => exact ⟨_, rfl⟩
  | succ k ih =>
    obtain ⟨next, hnext⟩ := h.forwardLogits_succeeds (List.cons_ne_nil (argmax logits) [])
      (haccepts _ (Nat.le_add_left 1 k))
    obtain ⟨-, hholds, hmodel⟩ := h.forwardLogits hnext
    obtain ⟨rest, hrest⟩ := ih next.1 hholds fun more hmore => by
      rw [hmodel, List.append_assoc]
      exact haccepts _ (Nat.succ_le_succ hmore)
    exact bind_succeeds hnext (bind_succeeds hrest ⟨_, rfl⟩)

/-- Rows of drafts agree with them as far as greedy decoding does. -/
theorem agreeing_eq (net : Network) (drafts : List Token) :
    agreeing ((List.range (drafts.length + 1)).map fun i => net.logits (tokens ++ drafts.take i))
      drafts = commonPrefix (greedy net drafts.length (net.logits tokens) tokens) drafts := by
  induction drafts generalizing tokens with
  | nil => rfl
  | cons d drafts ih =>
    rw [List.length_cons, List.range_succ_eq_map, List.map_cons, List.map_map, List.take_zero,
      List.append_nil, agreeing, greedy, commonPrefix]
    split
    · next hsame =>
      subst hsame
      rw [← @ih (tokens ++ [argmax (net.logits tokens)])]
      refine congrArg (agreeing · drafts + 1) (List.map_congr_left fun i _ => ?_)
      rw [Function.comp_apply, List.take_succ_cons, List.append_cons]
    · rfl

/-- What is accepted is what the drafts have in common with greedy decoding. -/
theorem accepted_eq (net : Network) (tokens : List Token) (logits : List Logit) (d : Token)
    (rest : List Token) :
    (if d = argmax logits then
      agreeing ((List.range (d :: rest).length).map fun i =>
        net.logits (tokens ++ (d :: rest).take (i + 1))) rest + 1 else 0) =
      commonPrefix (greedy net (d :: rest).length logits tokens) (d :: rest) := by
  rw [List.length_cons, greedy, commonPrefix]
  by_cases hsame : d = argmax logits
  · subst hsame
    rw [if_pos rfl, if_pos rfl, ← agreeing_eq]
    refine congrArg (agreeing · rest + 1) (List.map_congr_left fun i _ => ?_)
    rw [List.take_succ_cons, List.append_cons]
  · rw [if_neg hsame, if_neg (Ne.symm hsame)]

/-- The token after the accepted ones is the next of greedy decoding. -/
theorem greedy_corrected (net : Network) {drafts : List Token} {a : Nat} (ha : a ≤ drafts.length)
    (hshared : drafts.take a = greedy net a logits tokens) :
    greedy net (a + 1) logits tokens = drafts.take a ++
      [if a = 0 then argmax logits
        else if a < drafts.length then argmax (((List.range drafts.length).map fun i =>
          net.logits (tokens ++ drafts.take (i + 1))).getD (a - 1) [])
        else argmax (((List.range drafts.length).map fun i =>
          net.logits (tokens ++ drafts.take (i + 1))).getD (drafts.length - 1) [])] := by
  rcases Nat.eq_zero_or_pos a with rfl | hpos
  · rfl
  · have hlast : (if a < drafts.length then argmax (((List.range drafts.length).map fun i =>
        net.logits (tokens ++ drafts.take (i + 1))).getD (a - 1) [])
        else argmax (((List.range drafts.length).map fun i =>
          net.logits (tokens ++ drafts.take (i + 1))).getD (drafts.length - 1) [])) =
        argmax (net.logits (tokens ++ drafts.take a)) := by
      have hrow : ((List.range drafts.length).map fun i =>
          net.logits (tokens ++ drafts.take (i + 1))).getD (a - 1) [] =
            net.logits (tokens ++ drafts.take a) := by
        have hlt : a - 1 < drafts.length := by omega
        rw [List.getD_eq_getElem _ _ (by simpa using hlt), List.getElem_map, List.getElem_range,
          Nat.sub_add_cancel hpos]
      split
      · rw [hrow]
      · next hge =>
        have hsame : drafts.length - 1 = a - 1 := by omega
        rw [hsame, hrow]
    rw [if_neg hpos.ne', hlast, greedy_add hpos, hshared]
    rfl

end

/-! ### Iterations -/

/-- What an iteration commits, and where it leaves the backends. -/
theorem specIter_spec {main draft : Backend} {tokens : List Token} {p q : List Logit} {k : Nat}
    (hk : 0 < k) (hmain : main.Holds tokens) (hdraft : draft.Holds tokens)
    {r : SpecIterResult × Backend × Backend} (hok : specIter main draft p q k = .ok r) :
    r.1.accepted =
        commonPrefix (greedy main.model k p tokens) (greedy draft.model k q tokens) ∧
      r.1.committed = greedy main.model (r.1.accepted + 1) p tokens ∧
      (r.2.1.Holds (tokens ++ r.1.committed) ∧ r.2.1.model = main.model ∧
        r.1.nextMainLogit = main.model.logits (tokens ++ r.1.committed)) ∧
      r.2.2.Holds (tokens ++ r.1.committed) ∧ r.2.2.model = draft.model ∧
        r.1.nextDraftLogit = draft.model.logits (tokens ++ r.1.committed) := by
  rw [specIter] at hok
  obtain ⟨⟨drafts, draft'⟩, hproposed, hok⟩ := bind_eq_ok.mp hok
  obtain ⟨⟨rows, main'⟩, hverified, hok⟩ := bind_eq_ok.mp hok
  obtain ⟨hdrafts, hdraftHolds, hdraftModel⟩ := propose_eq hdraft hproposed
  obtain ⟨hrows, hmainHolds, hmainModel⟩ := hmain.forwardAllLogits hverified
  dsimp only at hok hdrafts hdraftHolds hdraftModel hrows hmainHolds hmainModel
  have hlength : drafts.length = k := by rw [hdrafts, greedy_length]
  obtain ⟨d, rest, rfl⟩ := List.exists_cons_of_length_pos (hlength ▸ hk)
  subst hrows
  obtain ⟨nextMain, hnextMain, hok⟩ := bind_eq_ok.mp hok
  obtain ⟨nextDraft, hnextDraft, hok⟩ := bind_eq_ok.mp hok
  obtain rfl := pure_eq_ok.mp hok
  have haccepted := accepted_eq main.model tokens p d rest
  have hle := commonPrefix_le (greedy main.model (d :: rest).length p tokens) (d :: rest)
  have hshared := commonPrefix_shared (greedy main.model (d :: rest).length p tokens) (d :: rest)
  rw [← haccepted] at hle hshared
  rw [← hdrafts, ← hlength]
  generalize (if d = argmax p then
    agreeing ((List.range (d :: rest).length).map fun i =>
      main.model.logits (tokens ++ (d :: rest).take (i + 1))) rest + 1 else 0) = a at *
  rw [greedy_take hle] at hshared
  have hgreedy := greedy_corrected main.model hle hshared
  generalize (if a = 0 then argmax p else _) = corrected at *
  have htarget : main'.indexPos - ((d :: rest).length - a) = tokens.length + a := by
    rw [hmainHolds.indexPos, List.length_append]
    omega
  rw [htarget] at hnextMain hnextDraft
  have hcommitted : tokens ++ (d :: rest).take a ++ [corrected] =
      tokens ++ ((d :: rest).take a ++ [corrected]) := List.append_assoc _ _ _
  obtain ⟨hmainLogits, hmainNext, hmainSame⟩ :=
    (hmainHolds.truncateTo hle).forwardLogits hnextMain
  obtain ⟨hdraftLogits, hdraftNext, hdraftSame⟩ :=
    (hdraftHolds.truncateTo hle).forwardLogits hnextDraft
  rw [hcommitted] at hmainLogits hmainNext hdraftLogits hdraftNext
  have hmainModel' : (main'.truncateTo (tokens.length + a)).model = main.model := hmainModel
  have hdraftModel' : (draft'.truncateTo (tokens.length + a)).model = draft.model := hdraftModel
  rw [hmainModel'] at hmainLogits hmainSame
  rw [hdraftModel'] at hdraftLogits hdraftSame
  exact ⟨haccepted, hgreedy.symm, ⟨hmainNext, hmainSame, hmainLogits⟩, hdraftNext, hdraftSame,
    hdraftLogits⟩

/-- With room for the drafts and one more token, and all of them in both vocabularies, an iteration
succeeds. -/
theorem specIter_succeeds {main draft : Backend} {tokens : List Token} {p q : List Logit} {k : Nat}
    (hk : 0 < k) (hmain : main.Holds tokens) (hdraft : draft.Holds tokens)
    (haccepts : ∀ more, more.length ≤ k + 1 → main.model.accepts (tokens ++ more) = true ∧
      draft.model.accepts (tokens ++ more) = true) : ∃ r, specIter main draft p q k = .ok r := by
  obtain ⟨⟨drafts, draft'⟩, hproposed⟩ := propose_succeeds (k := k) q hdraft
    fun more hmore => (haccepts more (hmore.trans k.le_succ)).2
  obtain ⟨hdrafts, hdraftHolds, hdraftModel⟩ := propose_eq hdraft hproposed
  have hlength : drafts.length = k := by
    show (drafts, draft').1.length = k
    rw [hdrafts, greedy_length]
  obtain ⟨⟨rows, main'⟩, hverified⟩ := hmain.forwardAllLogits_succeeds
    (haccepts drafts (hlength.le.trans k.le_succ)).1
  obtain ⟨hrows, hmainHolds, hmainModel⟩ := hmain.forwardAllLogits hverified
  dsimp only at hdraftHolds hdraftModel hrows hmainHolds hmainModel
  obtain ⟨d, rest, rfl⟩ := List.exists_cons_of_length_pos (hlength ▸ hk)
  subst hrows
  refine bind_succeeds hproposed (bind_succeeds hverified ?_)
  dsimp only
  have haccepted := accepted_eq main.model tokens p d rest
  have hle := commonPrefix_le (greedy main.model (d :: rest).length p tokens) (d :: rest)
  rw [← haccepted] at hle
  generalize (if d = argmax p then
    agreeing ((List.range (d :: rest).length).map fun i =>
      main.model.logits (tokens ++ (d :: rest).take (i + 1))) rest + 1 else 0) = a at *
  generalize (if a = 0 then argmax p else _) = corrected
  have htarget : main'.indexPos - ((d :: rest).length - a) = tokens.length + a := by
    rw [hmainHolds.indexPos, List.length_append]
    omega
  have hroom : ((d :: rest).take a ++ [corrected]).length ≤ k + 1 := by
    rw [List.length_append, List.length_take, min_eq_left hle]
    exact Nat.succ_le_succ (hle.trans hlength.le)
  obtain ⟨hmainAccepts, hdraftAccepts⟩ := haccepts _ hroom
  rw [← List.append_assoc] at hmainAccepts hdraftAccepts
  rw [htarget]
  obtain ⟨nextMain, hnextMain⟩ := (hmainHolds.truncateTo hle).forwardLogits_succeeds
    (List.cons_ne_nil corrected []) (by rw [← hmainModel] at hmainAccepts; exact hmainAccepts)
  obtain ⟨nextDraft, hnextDraft⟩ := (hdraftHolds.truncateTo hle).forwardLogits_succeeds
    (List.cons_ne_nil corrected []) (by rw [← hdraftModel] at hdraftAccepts; exact hdraftAccepts)
  exact bind_succeeds hnextMain (bind_succeeds hnextDraft ⟨_, rfl⟩)

/-- Iterations commit the main model's greedy decoding, at least one token each. -/
theorem specRun_spec {k : Nat} (hk : 0 < k) {n : Nat} {s s' : SpecState} {tokens out : List Token}
    (hmain : s.main.Holds tokens) (hdraft : s.draft.Holds tokens)
    (hok : specRun k n s = .ok (out, s')) :
    n ≤ out.length ∧ out = greedy s.main.model out.length s.lastMainLogit tokens ∧
      s'.main.Holds (tokens ++ out) ∧ s'.draft.Holds (tokens ++ out) := by
  induction n generalizing s tokens out with
  | zero =>
    cases hok
    rw [List.append_nil]
    exact ⟨le_rfl, rfl, hmain, hdraft⟩
  | succ n ih =>
    rw [specRun] at hok
    obtain ⟨r, hr, hok⟩ := bind_eq_ok.mp hok
    obtain ⟨⟨rest, last⟩, hrest, hok⟩ := bind_eq_ok.mp hok
    cases pure_eq_ok.mp hok
    obtain ⟨-, hcommitted, ⟨hmainNext, hmainModel, hmainLogit⟩, hdraftNext, -, -⟩ :=
      specIter_spec hk hmain hdraft hr
    obtain ⟨hn, hgreedy, hmainLast, hdraftLast⟩ := ih hmainNext hdraftNext hrest
    dsimp only at hgreedy
    rw [hmainModel, hmainLogit] at hgreedy
    have hlength : r.1.committed.length = r.1.accepted + 1 := by rw [hcommitted, greedy_length]
    rw [List.append_assoc] at hmainLast hdraftLast
    refine ⟨?_, ?_, hmainLast, hdraftLast⟩
    · show n + 1 ≤ (r.1.committed ++ rest).length
      rw [List.length_append, hlength]
      omega
    · rw [List.length_append, hlength, greedy_add (Nat.succ_pos _), ← hcommitted, ← hgreedy]

theorem specRun_succeeds {k : Nat} (hk : 0 < k) (n : Nat) {s : SpecState} {tokens : List Token}
    (hmain : s.main.Holds tokens) (hdraft : s.draft.Holds tokens)
    (haccepts : ∀ more, s.main.model.accepts (tokens ++ more) = true ∧
      s.draft.model.accepts (tokens ++ more) = true) : ∃ r, specRun k n s = .ok r := by
  induction n generalizing s tokens with
  | zero => exact ⟨_, rfl⟩
  | succ n ih =>
    obtain ⟨r, hr⟩ := specIter_succeeds (p := s.lastMainLogit) (q := s.lastDraftLogit) hk hmain
      hdraft fun more _ => haccepts more
    obtain ⟨-, -, ⟨hmainNext, hmainModel, -⟩, hdraftNext, hdraftModel, -⟩ :=
      specIter_spec hk hmain hdraft hr
    obtain ⟨rest, hrest⟩ := ih (s := ⟨r.2.1, r.2.2, r.1.nextMainLogit, r.1.nextDraftLogit⟩)
      hmainNext hdraftNext fun more => by
        dsimp only
        rw [hmainModel, hdraftModel, List.append_assoc]
        exact haccepts _
    exact bind_succeeds hr (bind_succeeds hrest ⟨_, rfl⟩)

/-- An iteration commits the accepted drafts and the next token of the main model's greedy decoding,
and leaves both backends with these and their logits; so iterations reproduce greedy decoding. They
succeed where the forward passes do. -/
theorem specIter_refines_greedy (main draft : Backend) (tokens : List Token) (p q : List Logit)
    (k : Nat) (hk : 0 < k) (hmain : main.Holds tokens) (hdraft : draft.Holds tokens) :
    (∀ r, specIter main draft p q k = .ok r →
      r.1.accepted =
        commonPrefix (greedy main.model k p tokens) (greedy draft.model k q tokens) ∧
      r.1.committed = greedy main.model (r.1.accepted + 1) p tokens ∧
      (r.2.1.Holds (tokens ++ r.1.committed) ∧ r.2.1.model = main.model ∧
        r.1.nextMainLogit = main.model.logits (tokens ++ r.1.committed)) ∧
      r.2.2.Holds (tokens ++ r.1.committed) ∧ r.2.2.model = draft.model ∧
        r.1.nextDraftLogit = draft.model.logits (tokens ++ r.1.committed)) ∧
    ((∀ more, more.length ≤ k + 1 → main.model.accepts (tokens ++ more) = true ∧
      draft.model.accepts (tokens ++ more) = true) → ∃ r, specIter main draft p q k = .ok r) ∧
    (∀ n out s, specRun k n ⟨main, draft, p, q⟩ = .ok (out, s) →
      n ≤ out.length ∧ out = greedy main.model out.length p tokens ∧
        s.main.Holds (tokens ++ out) ∧ s.draft.Holds (tokens ++ out)) ∧
    ((∀ more, main.model.accepts (tokens ++ more) = true ∧
      draft.model.accepts (tokens ++ more) = true) →
        ∀ n, ∃ r, specRun k n ⟨main, draft, p, q⟩ = .ok r) := by
  refine ⟨fun r hok => specIter_spec hk hmain hdraft hok, specIter_succeeds hk hmain hdraft, ?_, ?_⟩
  · exact fun n out s hok => specRun_spec hk (s := ⟨main, draft, p, q⟩) hmain hdraft hok
  · exact fun haccepts n => specRun_succeeds hk n (s := ⟨main, draft, p, q⟩) hmain hdraft haccepts

/-! Two models that count up, one of them by two after the third token. -/

def counting (step : Nat → Nat) : Network where
  logits held := List.replicate (step held.length) ⊥ ++ [0]
  accepts _ := true

theorem specIter_refines_counting :
    ∃ r, specIter ⟨counting id, [7], 1⟩ ⟨counting fun n => if n < 3 then n else n + 1, [7], 1⟩
      [⊥, 0] [⊥, 0] 4 = .ok r ∧ r.1.committed = [1, 2, 3] ∧ r.1.accepted = 2 := by
  obtain ⟨hspec, hsucceeds, -, -⟩ := specIter_refines_greedy ⟨counting id, [7], 1⟩
    ⟨counting fun n => if n < 3 then n else n + 1, [7], 1⟩ [7] [⊥, 0] [⊥, 0] 4 (by decide)
    ⟨rfl, rfl⟩ ⟨rfl, rfl⟩
  obtain ⟨r, hr⟩ := hsucceeds fun _ _ => ⟨rfl, rfl⟩
  obtain ⟨haccepted, hcommitted, -, -⟩ := hspec r hr
  have htwo : r.1.accepted = 2 := haccepted.trans rfl
  refine ⟨r, hr, ?_, htwo⟩
  rw [hcommitted, htwo]
  rfl

end Zllm.SpecDecode
