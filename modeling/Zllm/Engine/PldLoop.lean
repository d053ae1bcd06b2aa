import Zllm.Engine.PromptLookup
import Zllm.Engine.SpecDecode
import Zllm.Lib.TokenService

/-!
# The prompt-lookup decode loop

The loop that the two `generate_pld` share: a draft is looked up in what has been generated,
verified with the pending token in one forward, and committed as far as the forward agrees with it.
A cache that holds the tokens of its first positions, whatever it has behind them, makes the loop's
output that of decoding one token at a time.
-/

namespace Zllm.SpecDecode

open Outcome TokenService

/-- What the loop calls: the forward of several tokens from a position on with the choice at each,
and the forward of one token. -/
structure Forwards (σ ε : Type) where
  verify : (inp : List Token) → (pos : Nat) → σ → Except ε (List Token × σ)
  single : (tok : Token) → (pos : Nat) → σ → Except ε (Token × σ)

/-- The local variables of `generate_pld`. -/
structure PldVars where
  hist : List Token
  produced : List Token
  next : Token
  pos : Nat
  forwards : Nat

def PldVars.push (tok : Token) (vars : PldVars) : PldVars :=
  { vars with produced := vars.produced ++ [tok], hist := vars.hist ++ [tok], next := tok }

/-- The commit loop, which an end token and a full output break. -/
def PldVars.commit (eos : Token) (maxNew : Nat) : List Token → PldVars → PldVars
  | [], vars => vars
  | tok :: toks, vars =>
      if tok = eos ∨ maxNew ≤ (vars.push tok).produced.length then vars.push tok
      else commit eos maxNew toks (vars.push tok)

namespace Forwards

variable {σ ε : Type} (f : Forwards σ ε) (eos : Token) (maxNew lookupLen draftK : Nat)

/-- One iteration. -/
def pldStep (vars : PldVars) (s : σ) : Except ε (PldVars × σ) :=
  let k := min draftK (maxNew - vars.produced.length)
  match lookupDraftBest vars.hist vars.hist lookupLen k with
  | some d => do
      let (outs, s) ← f.verify (vars.next :: d) vars.pos s
      let accepted := commonPrefix outs d
      let committed := vars.commit eos maxNew (outs.take (accepted + 1))
      return ({ committed with
        pos := vars.pos + (accepted + 1), forwards := vars.forwards + 1 }, s)
  | none => do
      let (tok, s) ← f.single vars.next vars.pos s
      return ({ vars.push tok with pos := vars.pos + 1, forwards := vars.forwards + 1 }, s)

/-- The loop. An iteration produces a token, so that `maxNew` of them are enough. -/
def pldLoop : (fuel : Nat) → PldVars → σ → Except ε (PldVars × σ)
  | 0, vars, s => .ok (vars, s)
  | fuel + 1, vars, s =>
      if vars.produced.length < maxNew ∧ vars.next ≠ eos then do
        let (vars, s) ← f.pldStep eos maxNew lookupLen draftK vars s
        pldLoop fuel vars s
      else
        .ok (vars, s)

/-- The loop after a prefill that chose `first`: the tokens produced, and the number of forwards. -/
def pldRun (prompt : List Token) (first : Token) (s : σ) : Except ε ((List Token × Nat) × σ) := do
  let (vars, s) ← f.pldLoop eos maxNew lookupLen draftK maxNew
    { hist := prompt ++ [first], produced := [first], next := first, pos := prompt.length
      forwards := 0 } s
  return ((vars.produced, vars.forwards), s)

end Forwards

/-- One token at a time behind a prompt, up to `maxNew` of them or the first `eos`. -/
def greedyAlone (next : List Token → Token) (prompt : List Token) (eos : Token) (maxNew : Nat) :
    List Token :=
  decodeAlone (fun produced => next (prompt ++ produced)) (· == eos) maxNew []

/-- Behind some start of the greedy output the lookup drafts at least `rows` tokens. -/
def Overdrafts (next : List Token → Token) (prompt : List Token) (eos : Token)
    (maxNew lookupLen draftK rows : Nat) : Prop :=
  ∃ produced d, produced <+: greedyAlone next prompt eos maxNew ∧
    lookupDraftBest (prompt ++ produced) (prompt ++ produced) lookupLen
      (min draftK (maxNew - produced.length)) = some d ∧ rows ≤ d.length

theorem Overdrafts.le {next : List Token → Token} {prompt : List Token} {eos : Token}
    {maxNew lookupLen draftK rows : Nat}
    (hover : Overdrafts next prompt eos maxNew lookupLen draftK rows) : rows ≤ draftK := by
  obtain ⟨produced, d, -, hdraft, hrows⟩ := hover
  have hlength := length_lookupDraftBest hdraft
  omega

/-! ### The loop over a cache -/

/-- The forwards choose by the tokens up to each position, from a cache that holds those before the
first. A forward of more than `rows` tokens is refused. -/
structure Forwards.Lawful {σ ε : Type} (f : Forwards σ ε) (next : List Token → Token)
    (Holds : List Token → σ → Prop) (rows room : Nat) (refused : ε) : Prop where
  truncate : ∀ {held kept s}, Holds held s → kept <+: held → Holds kept s
  verify : ∀ {held s} (inp), Holds held s → inp ≠ [] → held.length + inp.length ≤ room →
    inp.length ≤ rows → ∃ s', f.verify inp held.length s =
        .ok ((List.range inp.length).map fun i => next (held ++ inp.take (i + 1)), s') ∧
      Holds (held ++ inp) s'
  refuses : ∀ {held s} (inp), Holds held s → rows < inp.length →
    f.verify inp held.length s = .error refused
  single : ∀ {held s} (tok), Holds held s → held.length + 1 ≤ room →
    ∃ s', f.single tok held.length s = .ok (next (held ++ [tok]), s') ∧ Holds (held ++ [tok]) s'

/-- Each token is the choice behind those before it. -/
def Follows (next : List Token → Token) : (ctx toks : List Token) → Prop
  | _, [] => True
  | ctx, tok :: toks => tok = next ctx ∧ Follows next (ctx ++ [tok]) toks

variable {next : List Token → Token} {prompt : List Token} {eos : Token} {maxNew : Nat}
  {vars : PldVars}

/-- What is still to come behind the tokens produced. -/
def PldVars.rest (next : List Token → Token) (prompt : List Token) (eos : Token) (maxNew : Nat)
    (vars : PldVars) : List Token :=
  if vars.next = eos then []
  else decodeAlone (fun produced => next (prompt ++ produced)) (· == eos)
    (maxNew - vars.produced.length) vars.produced

/-- The variables are those of a loop that has produced the start of the greedy output. -/
structure PldVars.Sound (next : List Token → Token) (prompt : List Token) (eos : Token)
    (maxNew : Nat) (vars : PldVars) : Prop where
  hist : vars.hist = prompt ++ vars.produced
  last : ∃ before, vars.produced = before ++ [vars.next]
  output : vars.produced ++ vars.rest next prompt eos maxNew = greedyAlone next prompt eos maxNew

theorem PldVars.Sound.push (hsound : vars.Sound next prompt eos maxNew)
    (hmore : vars.produced.length < maxNew) (hnext : vars.next ≠ eos) {tok : Token}
    (htok : tok = next vars.hist) : (vars.push tok).Sound next prompt eos maxNew := by
  refine ⟨?_, ⟨vars.produced, rfl⟩, ?_⟩
  · rw [PldVars.push, hsound.hist, List.append_assoc]
  · rw [← hsound.output, PldVars.rest, PldVars.rest, if_neg hnext]
    obtain ⟨left, hleft⟩ := Nat.exists_eq_add_of_lt hmore
    have hcount : maxNew - vars.produced.length = left + 1 := by omega
    have hcount' : maxNew - (vars.push tok).produced.length = left := by
      simp only [PldVars.push, List.length_append, List.length_singleton]
      omega
    rw [hcount, hcount', decodeAlone, ← hsound.hist, ← htok]
    by_cases heos : tok = eos
    · simp [PldVars.push, heos]
    · simp [PldVars.push, heos]

/-- Committing tokens that follow the history stops early only where the loop ends. -/
theorem PldVars.Sound.commit {toks : List Token} (hsound : vars.Sound next prompt eos maxNew)
    (hmore : vars.produced.length < maxNew) (hnext : vars.next ≠ eos)
    (hfollows : Follows next vars.hist toks) :
    (vars.commit eos maxNew toks).Sound next prompt eos maxNew ∧
      vars.produced.length + min 1 toks.length ≤ (vars.commit eos maxNew toks).produced.length ∧
      (maxNew ≤ (vars.commit eos maxNew toks).produced.length ∨
        (vars.commit eos maxNew toks).next = eos ∨
        (vars.commit eos maxNew toks).hist = vars.hist ++ toks) := by
  induction toks generalizing vars with
  | nil => exact ⟨hsound, le_rfl, .inr (.inr (List.append_nil _).symm)⟩
  | cons tok toks ih =>
    obtain ⟨htok, hrest⟩ := hfollows
    have hpushed := hsound.push hmore hnext htok
    have hlength : (vars.push tok).produced.length = vars.produced.length + 1 := by
      rw [PldVars.push, List.length_append, List.length_singleton]
    rw [PldVars.commit, List.length_cons]
    split
    · next hend =>
      refine ⟨hpushed, by omega, ?_⟩
      rcases hend with heos | hfull
      · exact .inr (.inl heos)
      · exact .inl hfull
    · next hgo =>
      obtain ⟨heos, hfull⟩ := not_or.mp hgo
      obtain ⟨hsound', hle, hcases⟩ := ih hpushed (not_le.mp hfull) heos hrest
      refine ⟨hsound', by omega, hcases.imp_right (.imp_right fun hhist => ?_)⟩
      rw [hhist, PldVars.push, List.append_assoc]
      rfl

/-- The choices up to the first that leaves the draft follow the history. -/
theorem follows_accepted (next : List Token → Token) (ctx d : List Token) :
    Follows next ctx (((List.range (d.length + 1)).map fun i => next (ctx ++ d.take i)).take
      (commonPrefix ((List.range (d.length + 1)).map fun i => next (ctx ++ d.take i)) d + 1)) := by
  induction d generalizing ctx with
  | nil => simp [Follows]
  | cons tok d ih =>
    have houts : (List.range ((tok :: d).length + 1)).map (fun i => next (ctx ++ (tok :: d).take i)) =
        next ctx ::
          (List.range (d.length + 1)).map fun i => next (ctx ++ [tok] ++ d.take i) := by
      rw [List.length_cons, List.range_succ_eq_map, List.map_cons, List.map_map, List.take_zero,
        List.append_nil]
      congr 1
      refine List.map_congr_left fun i _ => ?_
      simp
    rw [houts, List.take_succ_cons]
    refine ⟨rfl, ?_⟩
    rw [commonPrefix]
    split
    · next hsame =>
      rw [hsame]
      exact ih _
    · exact trivial

section

variable {σ ε : Type} {f : Forwards σ ε} {Holds : List Token → σ → Prop} {rows room : Nat}
  {refused : ε} (lookupLen draftK : Nat) {s : σ}

/-- The cache holds everything before the pending token. -/
def PldVars.Ready (Holds : List Token → σ → Prop) (vars : PldVars) (s : σ) : Prop :=
  ∃ held, vars.hist = held ++ [vars.next] ∧ vars.pos = held.length ∧ Holds held s

theorem PldVars.Sound.length_held (hsound : vars.Sound next prompt eos maxNew) {held : List Token}
    (hheld : vars.hist = held ++ [vars.next]) :
    held.length + 1 = prompt.length + vars.produced.length := by
  have hlength := congrArg List.length (hsound.hist.symm.trans hheld)
  simp only [List.length_append, List.length_singleton] at hlength
  exact hlength.symm

/-- An iteration produces tokens and leaves the cache ready for the next one, unless its draft has
more rows than a forward. -/
theorem Forwards.Lawful.pldStep (hlawful : f.Lawful next Holds rows room refused)
    (hroom : prompt.length + maxNew ≤ room) (hsound : vars.Sound next prompt eos maxNew)
    (hready : vars.Ready Holds s) (hmore : vars.produced.length < maxNew)
    (hnext : vars.next ≠ eos) :
    (∃ vars' s', f.pldStep eos maxNew lookupLen draftK vars s = .ok (vars', s') ∧
      vars'.Sound next prompt eos maxNew ∧ vars.produced.length < vars'.produced.length ∧
      (vars'.produced.length < maxNew → vars'.next ≠ eos → vars'.Ready Holds s')) ∨
    (f.pldStep eos maxNew lookupLen draftK vars s = .error refused ∧
      Overdrafts next prompt eos maxNew lookupLen draftK rows) := by
  obtain ⟨held, hheld, hpos, hholds⟩ := hready
  have hlength := hsound.length_held hheld
  rw [Forwards.pldStep, hpos]
  dsimp only
  cases hdraft : lookupDraftBest vars.hist vars.hist lookupLen
      (min draftK (maxNew - vars.produced.length)) with
  | none =>
    obtain ⟨s', hsingle, hholds'⟩ := hlawful.single vars.next hholds (by omega)
    rw [← hheld] at hsingle hholds'
    refine .inl ⟨_, s', by rw [hsingle]; rfl, ?_, ?_, fun _ _ => ?_⟩
    · obtain ⟨hhist, hlast, houtput⟩ := hsound.push hmore hnext rfl
      exact ⟨hhist, hlast, houtput⟩
    · simp [PldVars.push]
    · refine ⟨vars.hist, rfl, ?_, hholds'⟩
      rw [hheld, List.length_append, List.length_singleton]
  | some d =>
    dsimp only
    have hdlen := length_lookupDraftBest hdraft
    by_cases hrows : d.length + 1 ≤ rows
    · obtain ⟨s', hverify, hholds'⟩ := hlawful.verify (vars.next :: d) hholds (by simp)
        (by rw [List.length_cons]; omega) hrows
      have hreads : ((List.range (vars.next :: d).length).map fun i =>
          next (held ++ (vars.next :: d).take (i + 1))) =
          (List.range (d.length + 1)).map fun i => next (vars.hist ++ d.take i) := by
        refine List.map_congr_left fun i _ => ?_
        rw [List.take_succ_cons, hheld, List.append_assoc]
        rfl
      rw [hreads] at hverify
      have hfollows := follows_accepted next vars.hist d
      have houts : ((List.range (d.length + 1)).map fun i =>
        next (vars.hist ++ d.take i)).length = d.length + 1 := by simp
      rw [hverify]
      generalize ((List.range (d.length + 1)).map fun i => next (vars.hist ++ d.take i)) = outs
        at hfollows houts ⊢
      have hle := commonPrefix_le outs d
      have hshared := commonPrefix_shared outs d
      obtain ⟨hsound', hgrown, hcases⟩ := hsound.commit hmore hnext hfollows
      have htoks : (outs.take (commonPrefix outs d + 1)).length = commonPrefix outs d + 1 := by
        rw [List.length_take]
        omega
      refine .inl ⟨{ vars.commit eos maxNew (outs.take (commonPrefix outs d + 1)) with
        pos := held.length + (commonPrefix outs d + 1), forwards := vars.forwards + 1 }, s', rfl,
        ⟨hsound'.hist, hsound'.last, hsound'.output⟩, ?_, ?_⟩
      · rw [htoks, min_eq_left (Nat.le_add_left _ _)] at hgrown
        exact hgrown
      · intro hmore' hnext'
        obtain hhist : (vars.commit eos maxNew _).hist = _ :=
          (hcases.resolve_left (not_le.mpr hmore')).resolve_left hnext'
        obtain ⟨before, hbefore⟩ := hsound'.last
        have hheld' : (vars.commit eos maxNew (outs.take (commonPrefix outs d + 1))).hist =
            (prompt ++ before) ++ [(vars.commit eos maxNew
              (outs.take (commonPrefix outs d + 1))).next] := by
          rw [hsound'.hist, hbefore, List.append_assoc]
        have hkept : prompt ++ before = vars.hist ++ outs.take (commonPrefix outs d) := by
          have hdrop := congrArg List.dropLast (hheld'.symm.trans hhist)
          rw [List.dropLast_concat, List.dropLast_append_of_ne_nil
            (List.ne_nil_of_length_pos (by omega)), List.dropLast_eq_take, htoks,
            List.take_take] at hdrop
          simpa using hdrop
        refine ⟨prompt ++ before, hheld', ?_, ?_⟩
        · rw [hkept, List.length_append, List.length_take_of_le (by omega), hheld,
            List.length_append, List.length_singleton]
          have hcount : held.length + (commonPrefix outs d + 1) =
              held.length + 1 + commonPrefix outs d := by omega
          exact hcount
        · -- The accepted drafts stay in the cache, and what was fed behind them counts no more.
          refine hlawful.truncate hholds' ?_
          rw [hkept, ← hshared, hheld, List.append_assoc]
          exact (List.prefix_append_right_inj _).mpr
            (List.cons_prefix_cons.mpr ⟨rfl, List.take_prefix _ _⟩)
    · rw [hsound.hist] at hdraft
      refine .inr ⟨?_, vars.produced, d, ⟨_, hsound.output⟩, hdraft, by omega⟩
      rw [hlawful.refuses (vars.next :: d) hholds (by rw [List.length_cons]; omega)]
      rfl

/-- Where the loop ends, the whole output has been produced. -/
theorem PldVars.Sound.ended (hsound : vars.Sound next prompt eos maxNew)
    (hend : ¬ (vars.produced.length < maxNew ∧ vars.next ≠ eos)) :
    vars.produced = greedyAlone next prompt eos maxNew := by
  rw [← hsound.output, PldVars.rest]
  by_cases heos : vars.next = eos
  · rw [if_pos heos, List.append_nil]
  · have hfull : maxNew - vars.produced.length = 0 :=
      Nat.sub_eq_zero_of_le (not_lt.mp fun hlt => hend ⟨hlt, heos⟩)
    rw [if_neg heos, hfull, decodeAlone, List.append_nil]

theorem Forwards.Lawful.pldLoop (hlawful : f.Lawful next Holds rows room refused)
    (hroom : prompt.length + maxNew ≤ room) (fuel : Nat)
    (hfuel : maxNew ≤ vars.produced.length + fuel) (hsound : vars.Sound next prompt eos maxNew)
    (hready : vars.produced.length < maxNew → vars.next ≠ eos → vars.Ready Holds s) :
    (∃ vars' s', f.pldLoop eos maxNew lookupLen draftK fuel vars s = .ok (vars', s') ∧
      vars'.produced = greedyAlone next prompt eos maxNew) ∨
    (f.pldLoop eos maxNew lookupLen draftK fuel vars s = .error refused ∧
      Overdrafts next prompt eos maxNew lookupLen draftK rows) := by
  induction fuel generalizing vars s with
  | zero => exact .inl ⟨vars, s, rfl, hsound.ended fun hgo => by omega⟩
  | succ fuel ih =>
    rw [Forwards.pldLoop]
    split
    · next hgo =>
      rcases hlawful.pldStep lookupLen draftK hroom hsound (hready hgo.1 hgo.2) hgo.1
        hgo.2 with ⟨vars', s', hstep, hsound', hlt, hready'⟩ | ⟨hstep, hover⟩
      · rw [hstep]
        exact ih (by omega) hsound' hready'
      · rw [hstep]
        exact .inr ⟨rfl, hover⟩
    · next hstop => exact .inl ⟨vars, s, rfl, hsound.ended hstop⟩

/-- **The loop decodes greedily.** From a cache that holds the prompt, the tokens produced are those
of decoding one at a time, unless a draft has more rows than a forward. -/
theorem Forwards.Lawful.pldRun (hlawful : f.Lawful next Holds rows room refused)
    (hroom : prompt.length + maxNew ≤ room) (hpos : 0 < maxNew) (hholds : Holds prompt s)
    (eos : Token) :
    (∃ forwards s', f.pldRun eos maxNew lookupLen draftK prompt (next prompt) s =
      .ok ((greedyAlone next prompt eos maxNew, forwards), s')) ∨
    (f.pldRun eos maxNew lookupLen draftK prompt (next prompt) s = .error refused ∧
      Overdrafts next prompt eos maxNew lookupLen draftK rows) := by
  have hsound : PldVars.Sound next prompt eos maxNew
      { hist := prompt ++ [next prompt], produced := [next prompt], next := next prompt
        pos := prompt.length, forwards := 0 } := by
    refine ⟨rfl, ⟨[], rfl⟩, ?_⟩
    obtain ⟨left, rfl⟩ := Nat.exists_eq_add_one.mpr hpos
    rw [PldVars.rest, greedyAlone, decodeAlone, List.append_nil]
    by_cases heos : next prompt = eos
    · simp [heos]
    · simp [heos]
  rw [Forwards.pldRun]
  rcases hlawful.pldLoop lookupLen draftK hroom maxNew (Nat.le_add_left _ _) hsound
    (fun _ _ => ⟨prompt, rfl, rfl, hholds⟩) with
    ⟨vars, s', hloop, hproduced⟩ | ⟨hloop, hover⟩
  · rw [hloop]
    exact .inl ⟨vars.forwards, s', by rw [← hproduced]; rfl⟩
  · rw [hloop]
    exact .inr ⟨rfl, hover⟩

end

end Zllm.SpecDecode
