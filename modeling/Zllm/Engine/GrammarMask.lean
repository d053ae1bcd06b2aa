import Zllm.Engine.LogitFsm
import Mathlib.Computability.DFA

/-!
# The mask is exact

The language of a regex grammar is that of its DFA with one sink for the dead and quit states. The
mask of `LogitFSM` leaves open exactly the tokens that extend the text to a prefix of a word of that
language, and the end of the text exactly where the text is such a word.
-/

namespace Zllm.Engine

open Relation (ReflTransGen)
open Saturation (Edge Explored)

variable {σ : Type}

/-! ### The language -/

namespace RegexDfa

variable {dfa : RegexDfa σ} {s t : σ}

/-- The total DFA whose sink `none` stands for the dead and quit states, and which accepts where the
end of the input leads to a match state. -/
def toDFA (dfa : RegexDfa σ) : DFA UInt8 (Option σ) where
  step := fun s b => s.bind fun s =>
    let next := dfa.nextState s b
    if dfa.isDeadState next = true ∨ dfa.isQuitState next = true then none else some next
  start := some dfa.start
  accept := { s | ∃ t, s = some t ∧ dfa.isMatchState (dfa.nextEoiState t) = true }

/-- The texts that match the pattern from their first byte to their last. -/
def language (dfa : RegexDfa σ) : Language UInt8 := dfa.toDFA.accepts

/-- Some text that starts with `bytes` matches. -/
def Extendable (dfa : RegexDfa σ) (bytes : List UInt8) : Prop :=
  ∃ rest, bytes ++ rest ∈ dfa.language

/-- A match is reachable from state `s`. -/
def Live (dfa : RegexDfa σ) (s : σ) : Prop := ∃ bytes, bytes ∈ dfa.toDFA.acceptsFrom (some s)

theorem walk_append (s : σ) (left right : List UInt8) :
    dfa.walk s (left ++ right) = (dfa.walk s left).bind fun t => dfa.walk t right :=
  List.foldlM_append

theorem walk_cons (s : σ) (b : UInt8) (bytes : List UInt8) :
    dfa.walk s (b :: bytes) = (dfa.stepByte s b).bind fun t => dfa.walk t bytes :=
  List.foldlM_cons

theorem toDFA_step (s : σ) (b : UInt8) : dfa.toDFA.step (some s) b = dfa.stepByte s b := by
  simp only [toDFA, stepByte, Option.bind_some, Bool.or_eq_true]

theorem evalFrom_eq_bind (s : Option σ) (bytes : List UInt8) :
    dfa.toDFA.evalFrom s bytes = s.bind fun s => dfa.walk s bytes := by
  induction bytes generalizing s with
  | nil => cases s <;> rfl
  | cons b bytes ih =>
      rw [DFA.evalFrom_cons, ih]
      cases s with
      | none => rfl
      | some s => rw [toDFA_step, Option.bind_some, walk_cons]

theorem mem_acceptsFrom {bytes : List UInt8} :
    bytes ∈ dfa.toDFA.acceptsFrom (some s) ↔
      ∃ t, dfa.walk s bytes = some t ∧ dfa.isAccept t = true := by
  rw [DFA.mem_acceptsFrom, evalFrom_eq_bind]
  rfl

theorem mem_language {bytes : List UInt8} :
    bytes ∈ dfa.language ↔ ∃ t, dfa.walk dfa.start bytes = some t ∧ dfa.isAccept t = true := by
  exact mem_acceptsFrom

theorem mem_language_of_walk {bytes : List UInt8} (hwalk : dfa.walk dfa.start bytes = some s) :
    bytes ∈ dfa.language ↔ dfa.isAccept s = true := by
  simp [mem_language, hwalk]

/-- What may follow a text is decided by the state it leads to. -/
theorem extendable_append {bytes more : List UInt8} (hwalk : dfa.walk dfa.start bytes = some s) :
    dfa.Extendable (bytes ++ more) ↔ ∃ t, dfa.walk s more = some t ∧ dfa.Live t := by
  simp only [Extendable, Live, mem_language, mem_acceptsFrom, List.append_assoc, walk_append, hwalk,
    Option.bind_some]
  constructor
  · rintro ⟨rest, u, hrest, hu⟩
    obtain ⟨t, ht, hrest⟩ := Option.bind_eq_some_iff.mp hrest
    exact ⟨t, ht, rest, u, hrest, hu⟩
  · rintro ⟨t, ht, rest, u, hrest, hu⟩
    exact ⟨rest, u, Option.bind_eq_some_iff.mpr ⟨t, ht, hrest⟩, hu⟩

theorem mem_allBytes (b : UInt8) : b ∈ allBytes :=
  List.mem_map.mpr ⟨b.toNat, List.mem_range.mpr b.toNat_lt, by simp⟩

theorem edge_iff : Edge dfa.stepByte allBytes s t ↔ ∃ b, dfa.stepByte s b = some t := by
  simp [Edge, mem_allBytes]

theorem reaches_iff_walk :
    ReflTransGen (Edge dfa.stepByte allBytes) s t ↔ ∃ bytes, dfa.walk s bytes = some t := by
  constructor
  · intro hreach
    induction hreach using ReflTransGen.head_induction_on with
    | refl => exact ⟨[], rfl⟩
    | head hedge _ ih =>
        obtain ⟨b, hb⟩ := edge_iff.mp hedge
        obtain ⟨bytes, hwalk⟩ := ih
        exact ⟨b :: bytes, by rw [walk_cons, hb, Option.bind_some, hwalk]⟩
  · rintro ⟨bytes, hwalk⟩
    induction bytes generalizing s with
    | nil =>
        obtain rfl := Option.some.inj hwalk
        exact .refl
    | cons b bytes ih =>
        rw [walk_cons] at hwalk
        obtain ⟨u, hu, hwalk⟩ := Option.bind_eq_some_iff.mp hwalk
        exact .head (edge_iff.mpr ⟨b, hu⟩) (ih hwalk)

theorem live_iff_reaches :
    dfa.Live s ↔ ∃ t, ReflTransGen (Edge dfa.stepByte allBytes) s t ∧ dfa.isAccept t = true := by
  simp only [reaches_iff_walk, Live, mem_acceptsFrom]
  constructor
  · rintro ⟨bytes, t, hwalk, ht⟩
    exact ⟨t, ⟨bytes, hwalk⟩, ht⟩
  · rintro ⟨t, ⟨bytes, hwalk⟩, ht⟩
    exact ⟨bytes, t, hwalk, ht⟩

end RegexDfa

/-! ### The memo tables -/

namespace RegexEngine

variable {dfa : RegexDfa σ} {table : TokenByteTable} {rx rx' : RegexEngine σ} {s t : σ}

/-- The bytes of `entry` lead from `s` to a state that can still match. -/
def Viable (dfa : RegexDfa σ) (s : σ) (entry : Option (List UInt8)) : Prop :=
  ∃ bytes t, entry = some bytes ∧ dfa.walk s bytes = some t ∧ dfa.Live t

/-- `mask` has the verdict on each entry of the vocabulary. -/
def IsMask (dfa : RegexDfa σ) (s : σ) (entries : List (Option (List UInt8))) (mask : List Bool) :
    Prop :=
  List.Forall₂ (fun entry allowed => allowed = true ↔ Viable dfa s entry) entries mask

/-- The memo tables hold nothing wrong. -/
structure Memoized (rx : RegexEngine σ) : Prop where
  live : ∀ s live, rx.liveCache s = some live → (live = true ↔ rx.dfa.Live s)
  mask : ∀ s mask, rx.maskCache s = some mask → IsMask rx.dfa s rx.table.bytes mask

theorem memoized_new (dfa : RegexDfa σ) (table : TokenByteTable) : (new dfa table).Memoized :=
  ⟨nofun, nofun⟩

/-- Only the memo tables differ. -/
structure SameText (rx rx' : RegexEngine σ) : Prop where
  dfa_eq : rx'.dfa = rx.dfa
  table_eq : rx'.table = rx.table
  state_eq : rx'.state = rx.state

theorem sameText_refl (rx : RegexEngine σ) : SameText rx rx := ⟨rfl, rfl, rfl⟩

theorem SameText.trans {rx'' : RegexEngine σ} (hfirst : SameText rx rx')
    (hsecond : SameText rx' rx'') : SameText rx rx'' :=
  ⟨hsecond.dfa_eq.trans hfirst.dfa_eq, hsecond.table_eq.trans hfirst.table_eq,
    hsecond.state_eq.trans hfirst.state_eq⟩

theorem IsMask.getD_eq_true {entries : List (Option (List UInt8))} {mask : List Bool}
    (h : IsMask dfa s entries mask) (id : Nat) :
    mask.getD id false = true ↔ Viable dfa s (entries.getD id none) := by
  induction h generalizing id with
  | nil => simp [Viable]
  | cons hallowed _ ih =>
      cases id with
      | zero => exact hallowed
      | succ id => exact ih id

theorem any_id_eq_true {mask : List Bool} :
    mask.any id = true ↔ ∃ i, mask.getD i false = true := by
  simp only [List.any_eq_true, id_eq, exists_eq_right, List.mem_iff_getElem?,
    List.getD_eq_getElem?_getD]
  constructor
  · rintro ⟨i, hi⟩
    exact ⟨i, by rw [hi, Option.getD_some]⟩
  · rintro ⟨i, hi⟩
    cases hmask : mask[i]? with
    | none => simp [hmask] at hi
    | some allowed => exact ⟨i, by simpa [hmask] using hi⟩

theorem IsMask.any_eq_true {entries : List (Option (List UInt8))} {mask : List Bool}
    (h : IsMask dfa s entries mask) :
    mask.any id = true ↔ ∃ id, Viable dfa s (entries.getD id none) := by
  rw [any_id_eq_true]
  simp only [h.getD_eq_true]

variable [DecidableEq σ] [Fintype σ] {order : IterOrder (σ × List σ)}

theorem explored_subgraph (dfa : RegexDfa σ) (s : σ) :
    Explored dfa.stepByte allBytes s (subgraph dfa s) ∧ (subgraph dfa s).stack = [] := by
  have hstart := Saturation.explored_start dfa.stepByte allBytes s
  exact ⟨hstart.explore _, hstart.stack_eq_nil _ (by simp)⟩

theorem liveStates_eq_true (hs : t ∈ (subgraph dfa s).seen) :
    liveStates order dfa (subgraph dfa s) t = true ↔ dfa.Live t := by
  obtain ⟨hexplored, hdone⟩ := explored_subgraph dfa s
  have hperm := order.perm (subgraph dfa s).succ
  have hlisted : Saturation.Listed (order.arrange (subgraph dfa s).succ) =
      Saturation.Listed (subgraph dfa s).succ := by
    funext u v
    simp only [Saturation.Listed, hperm.mem_iff]
  rw [liveStates, Saturation.saturate_eq_true, hlisted, RegexDfa.live_iff_reaches]
  · constructor
    · rintro ⟨u, hreach, hu⟩
      simp only [Bool.and_eq_true, decide_eq_true_eq] at hu
      exact ⟨u, (hexplored.listed_iff hdone hs).mp hreach, hu.2⟩
    · rintro ⟨u, hreach, hu⟩
      have hseen : u ∈ (subgraph dfa s).seen := hexplored.seen_of_reaches hdone hs hreach
      exact ⟨u, (hexplored.listed_iff hdone hs).mpr hreach, by simp [hseen, hu]⟩
  · exact Nat.lt_succ_of_le (List.countP_le_length.trans hperm.length_eq.le)

theorem isLive_spec (order : IterOrder (σ × List σ)) (h : rx.Memoized) (s : σ) :
    ((rx.isLive order s).1 = true ↔ rx.dfa.Live s) ∧ (rx.isLive order s).2.Memoized ∧
      SameText rx (rx.isLive order s).2 := by
  unfold isLive
  cases hcache : rx.liveCache s with
  | some live => exact ⟨h.live s live hcache, h, sameText_refl rx⟩
  | none =>
      obtain ⟨hexplored, -⟩ := explored_subgraph rx.dfa s
      refine ⟨liveStates_eq_true hexplored.start_seen, ⟨?_, h.mask⟩, ⟨rfl, rfl, rfl⟩⟩
      intro u live hlive
      dsimp only at hlive ⊢
      split at hlive
      case isTrue hseen =>
        obtain rfl := Option.some.inj hlive
        exact liveStates_eq_true hseen
      case isFalse => exact h.live u live hlive

theorem tokenAllowed_spec (order : IterOrder (σ × List σ)) (h : rx.Memoized) (s : σ) (entry : Option (List UInt8)) :
    ((rx.tokenAllowed order s entry).1 = true ↔ Viable rx.dfa s entry) ∧
      (rx.tokenAllowed order s entry).2.Memoized ∧
      SameText rx (rx.tokenAllowed order s entry).2 := by
  unfold tokenAllowed
  cases entry with
  | none => exact ⟨by simp [Viable], h, sameText_refl rx⟩
  | some bytes =>
      dsimp only
      cases hwalk : rx.dfa.walk s bytes with
      | none => exact ⟨by simp [Viable, hwalk], h, sameText_refl rx⟩
      | some t =>
          obtain ⟨hlive, hrest⟩ := isLive_spec order h t
          exact ⟨by simp [Viable, hwalk, hlive], hrest⟩

theorem maskOf_spec (order : IterOrder (σ × List σ)) (s : σ) (entries : List (Option (List UInt8))) (h : rx.Memoized) :
    IsMask rx.dfa s entries (maskOf order s entries rx).1 ∧
      (maskOf order s entries rx).2.Memoized ∧ SameText rx (maskOf order s entries rx).2 := by
  induction entries generalizing rx with
  | nil => exact ⟨.nil, h, sameText_refl rx⟩
  | cons entry entries ih =>
      obtain ⟨hallowed, hmemo, hsame⟩ := tokenAllowed_spec order h s entry
      obtain ⟨hmask, hmemo', hsame'⟩ := ih hmemo
      rw [hsame.dfa_eq] at hmask
      exact ⟨.cons hallowed hmask, hmemo', hsame.trans hsame'⟩

theorem allowedMask_spec (order : IterOrder (σ × List σ)) (h : rx.Memoized) (s : σ) :
    IsMask rx.dfa s rx.table.bytes (rx.allowedMask order s).1 ∧
      (rx.allowedMask order s).2.Memoized ∧ SameText rx (rx.allowedMask order s).2 := by
  unfold allowedMask
  cases hcache : rx.maskCache s with
  | some mask => exact ⟨h.mask s mask hcache, h, sameText_refl rx⟩
  | none =>
      obtain ⟨hmask, hmemo, hsame⟩ := maskOf_spec order s rx.table.bytes h
      refine ⟨hmask, ⟨hmemo.live, ?_⟩, ⟨hsame.dfa_eq, hsame.table_eq, hsame.state_eq⟩⟩
      intro u mask hu
      dsimp only at hu ⊢
      rw [hsame.dfa_eq, hsame.table_eq]
      by_cases heq : u = s
      · subst heq
        rw [Function.update_self, Option.some.injEq] at hu
        rwa [← hu]
      · rw [Function.update_of_ne heq] at hu
        have hold := hmemo.mask u mask hu
        rwa [hsame.dfa_eq, hsame.table_eq] at hold

end RegexEngine

/-! ### One step -/

/-- A sampling step: the logits before the mask, and the token drawn after it. -/
abbrev SampleStep := List Logit × Token

/-- The bytes that a token puts into the text. -/
def TokenByteTable.surface (table : TokenByteTable) (id : Token) : List UInt8 :=
  if id = table.eos then [] else (table.bytes.getD id none).getD []

def TokenByteTable.text (table : TokenByteTable) (steps : List SampleStep) : List UInt8 :=
  steps.flatMap fun step => table.surface step.2

def Finite (logits : List Logit) : Prop := ∀ l ∈ logits, l ≠ ⊥

/-- The mask left `id` open. -/
def Unmasked (logits : List Logit) (id : Token) : Prop := ∃ l, logits[id]? = some l ∧ l ≠ ⊥

/-- `fsm` has read `text`. -/
structure HasRead (dfa : RegexDfa σ) (table : TokenByteTable) (text : List UInt8)
    (fsm : LogitFsm σ) (rx : RegexEngine σ) : Prop where
  banned_eq : fsm.banned = []
  regex_eq : fsm.regex = some rx
  dfa_eq : rx.dfa = dfa
  table_eq : rx.table = table
  memoized : rx.Memoized
  walk : dfa.walk dfa.start text = some rx.state

/-- Token `token` extends `text` to a prefix of a match. -/
def Continues (dfa : RegexDfa σ) (table : TokenByteTable) (text : List UInt8) (token : Token) :
    Prop :=
  ∃ bytes, table.bytes[token]? = some (some bytes) ∧ dfa.Extendable (text ++ bytes)

section

variable {dfa : RegexDfa σ} {table : TokenByteTable} {text : List UInt8} {fsm : LogitFsm σ}
  {rx : RegexEngine σ} {logits : List Logit} {token : Token}

theorem continues_iff_viable {s : σ} (hwalk : dfa.walk dfa.start text = some s) :
    Continues dfa table text token ↔ RegexEngine.Viable dfa s (table.bytes.getD token none) := by
  simp only [Continues, RegexEngine.Viable, RegexDfa.extendable_append hwalk,
    List.getD_eq_getElem?_getD]
  constructor
  · rintro ⟨bytes, hentry, t, hbytes, ht⟩
    exact ⟨bytes, t, by rw [hentry, Option.getD_some], hbytes, ht⟩
  · rintro ⟨bytes, t, hentry, hbytes, ht⟩
    refine ⟨bytes, ?_, t, hbytes, ht⟩
    cases hget : table.bytes[token]? with
    | none => simp [hget] at hentry
    | some entry => simpa [hget] using hentry

theorem hasRead_compileRegex (dfa : RegexDfa σ) (table : TokenByteTable) :
    HasRead dfa table [] (.compileRegex dfa table) (.new dfa table) where
  banned_eq := rfl
  regex_eq := rfl
  dfa_eq := rfl
  table_eq := rfl
  memoized := RegexEngine.memoized_new dfa table
  walk := rfl

theorem unmasked_maskLogits {allowed : List Bool} (hfinite : Finite logits)
    (htoken : token < logits.length) :
    Unmasked (LogitFsm.maskLogits rx allowed logits) token ↔
      LogitFsm.isOpen rx allowed token = true := by
  have hslot : (LogitFsm.maskLogits rx allowed logits)[token]? =
      some (if LogitFsm.isOpen rx allowed token then logits[token] else ⊥) := by
    rw [LogitFsm.maskLogits, List.getElem?_mapIdx, List.getElem?_eq_getElem htoken]
    rfl
  have hne : logits[token] ≠ ⊥ := hfinite _ (List.getElem_mem htoken)
  simp only [Unmasked, hslot, Option.some.injEq]
  by_cases hopen : LogitFsm.isOpen rx allowed token = true
  · simp [hopen, hne]
  · simp [hopen]

theorem lt_length_of_unmasked {allowed : List Bool}
    (h : Unmasked (LogitFsm.maskLogits rx allowed logits) token) : token < logits.length := by
  obtain ⟨l, hl, -⟩ := h
  obtain ⟨hlt, -⟩ := List.getElem?_eq_some_iff.mp hl
  simpa [LogitFsm.maskLogits] using hlt

/-- Advancing by a token that leads to `t`. -/
theorem HasRead.advance {bytes : List UInt8} {t : σ} (h : HasRead dfa table text fsm rx)
    (heos : token ≠ table.eos) (hentry : table.bytes[token]? = some (some bytes))
    (hwalk : dfa.walk rx.state bytes = some t) :
    HasRead dfa table (text ++ bytes) (fsm.advance token) { rx with state := t } := by
  obtain ⟨hbanned, hregex, rfl, rfl, hmemo, htext⟩ := h
  have hadvance : fsm.advance token = { fsm with regex := some { rx with state := t } } := by
    simp [LogitFsm.advance, hregex, heos, hentry, hwalk]
  rw [hadvance]
  exact ⟨hbanned, rfl, rfl, rfl, ⟨hmemo.live, hmemo.mask⟩, by
    rw [RegexDfa.walk_append, htext, Option.bind_some, hwalk]⟩

theorem HasRead.advance_eos (h : HasRead dfa table text fsm rx) : fsm.advance table.eos = fsm := by
  obtain ⟨-, hregex, rfl, rfl, -, -⟩ := h
  simp [LogitFsm.advance, hregex]

variable [DecidableEq σ] [Fintype σ]

/-- One `apply_mask`: the tokens it leaves open, and the text it has read stays the same. -/
theorem HasRead.applyMask (order : IterOrder (σ × List σ)) (h : HasRead dfa table text fsm rx)
    (hfinite : Finite logits) :
    (∃ rx', HasRead dfa table text (fsm.applyMask order logits).2 rx') ∧
    (∀ token, Unmasked (fsm.applyMask order logits).1 token → token < logits.length) ∧
    (∀ token < logits.length, token ≠ table.eos →
      (Unmasked (fsm.applyMask order logits).1 token ↔ Continues dfa table text token)) ∧
    (table.eos < logits.length →
      (Unmasked (fsm.applyMask order logits).1 table.eos ↔
        text ∈ dfa.language ∨ ∀ token, ¬Continues dfa table text token)) := by
  obtain ⟨hbanned, hregex, rfl, rfl, hmemo, htext⟩ := h
  obtain ⟨hmask, hmemo', hsame⟩ := RegexEngine.allowedMask_spec order hmemo rx.state
  have happly : fsm.applyMask order logits =
      (LogitFsm.maskLogits (rx.allowedMask order rx.state).2 (rx.allowedMask order rx.state).1 logits,
        { fsm with regex := some (rx.allowedMask order rx.state).2 }) := by
    simp [LogitFsm.applyMask, hbanned, hregex]
  rw [happly]
  refine ⟨⟨_, hbanned, rfl, hsame.dfa_eq, hsame.table_eq, hmemo', ?_⟩, fun _ => lt_length_of_unmasked,
    fun token htoken heos => ?_, fun heos => ?_⟩
  · rw [hsame.state_eq, htext]
  · rw [unmasked_maskLogits hfinite htoken, LogitFsm.isOpen, hsame.table_eq, if_neg heos,
      hmask.getD_eq_true, continues_iff_viable htext]
  · rw [unmasked_maskLogits hfinite heos, LogitFsm.isOpen, hsame.table_eq, if_pos rfl,
      hsame.dfa_eq, hsame.state_eq, Bool.or_eq_true, RegexDfa.mem_language_of_walk htext,
      Bool.not_eq_true', ← Bool.not_eq_true, hmask.any_eq_true]
    simp only [continues_iff_viable htext, not_exists]

/-! ### Runs -/

/-- Each sampled token is one that the mask left open, and the grammar advances by it. -/
inductive FsmRun (order : IterOrder (σ × List σ)) (dfa : RegexDfa σ) (table : TokenByteTable) :
    List SampleStep → LogitFsm σ → Prop where
  | start : FsmRun order dfa table [] (.compileRegex dfa table)
  | step {steps : List SampleStep} {fsm : LogitFsm σ} {logits : List Logit} {token : Token} :
      FsmRun order dfa table steps fsm → Finite logits →
      Unmasked (fsm.applyMask order logits).1 token →
      FsmRun order dfa table (steps ++ [(logits, token)])
        ((fsm.applyMask order logits).2.advance token)

variable {order : IterOrder (σ × List σ)} {steps : List SampleStep}

omit [DecidableEq σ] [Fintype σ] in
theorem text_concat (table : TokenByteTable) (steps : List SampleStep) (step : SampleStep) :
    table.text (steps ++ [step]) = table.text steps ++ table.surface step.2 := by
  simp [TokenByteTable.text]

omit [DecidableEq σ] [Fintype σ] in
theorem surface_of_entry {bytes : List UInt8} (heos : token ≠ table.eos)
    (hentry : table.bytes[token]? = some (some bytes)) : table.surface token = bytes := by
  simp [TokenByteTable.surface, heos, hentry]

omit [DecidableEq σ] [Fintype σ] in
theorem RegexDfa.Extendable.of_append {left right : List UInt8}
    (h : dfa.Extendable (left ++ right)) : dfa.Extendable left := by
  obtain ⟨rest, hrest⟩ := h
  exact ⟨right ++ rest, by rwa [← List.append_assoc]⟩

/-- A token that the mask left open takes the grammar to the text with its bytes. -/
theorem HasRead.step (h : HasRead dfa table text fsm rx) (hfinite : Finite logits)
    (hopen : Unmasked (fsm.applyMask order logits).1 token) :
    (∃ rx', HasRead dfa table (text ++ table.surface token)
        ((fsm.applyMask order logits).2.advance token) rx') ∧
      (dfa.Extendable text → dfa.Extendable (text ++ table.surface token)) := by
  obtain ⟨⟨rx', hread⟩, hlength, hother, -⟩ := h.applyMask order hfinite
  by_cases heos : token = table.eos
  · subst heos
    have hsurface : table.surface table.eos = [] := by simp [TokenByteTable.surface]
    rw [hread.advance_eos, hsurface, List.append_nil]
    exact ⟨⟨rx', hread⟩, fun h => h⟩
  · obtain ⟨bytes, hentry, hextends⟩ := (hother token (hlength token hopen) heos).mp hopen
    obtain ⟨t, hwalk, -⟩ := (RegexDfa.extendable_append hread.walk).mp hextends
    rw [surface_of_entry heos hentry]
    exact ⟨⟨_, hread.advance heos hentry hwalk⟩, fun _ => hextends⟩

theorem FsmRun.hasRead (hrun : FsmRun order dfa table steps fsm) :
    (∃ rx, HasRead dfa table (table.text steps) fsm rx) ∧
      (dfa.Extendable [] → dfa.Extendable (table.text steps)) := by
  induction hrun with
  | start => exact ⟨⟨_, hasRead_compileRegex dfa table⟩, fun h => h⟩
  | step _ hfinite hopen ih =>
      obtain ⟨⟨rx, hread⟩, hkeeps⟩ := ih
      obtain ⟨hread', hkeeps'⟩ := hread.step hfinite hopen
      rw [text_concat]
      exact ⟨hread', fun h => hkeeps' (hkeeps h)⟩

/-- A step samples a token of the vocabulary that has bytes. -/
def SampleStep.Spells (table : TokenByteTable) (step : SampleStep) : Prop :=
  Finite step.1 ∧ step.2 < step.1.length ∧ step.2 ≠ table.eos ∧
    ∃ bytes, table.bytes[step.2]? = some (some bytes)

/-- Any tokens that spell a prefix of a match can be sampled. -/
theorem exists_run_of_extendable (hspells : ∀ step ∈ steps, step.Spells table)
    (hextends : dfa.Extendable (table.text steps)) : ∃ fsm, FsmRun order dfa table steps fsm := by
  induction steps using List.reverseRecOn with
  | nil => exact ⟨_, .start⟩
  | append_singleton steps step ih =>
      rw [text_concat] at hextends
      obtain ⟨fsm, hrun⟩ := ih (fun step hstep => hspells step (List.mem_append_left _ hstep))
        hextends.of_append
      obtain ⟨logits, token⟩ := step
      obtain ⟨hfinite, hlength, heos, bytes, hentry⟩ := hspells (logits, token) (by simp)
      obtain ⟨⟨rx, hread⟩, -⟩ := hrun.hasRead
      obtain ⟨-, -, hother, -⟩ := hread.applyMask order hfinite
      rw [surface_of_entry heos hentry] at hextends
      exact ⟨_, hrun.step hfinite ((hother token hlength heos).mpr ⟨bytes, hentry, hextends⟩)⟩

/-- What it means for the grammar mask to be exact. -/
structure MaskExact (order : IterOrder (σ × List σ)) (dfa : RegexDfa σ) (table : TokenByteTable) :
    Prop where
  token : ∀ {steps fsm}, FsmRun order dfa table steps fsm → ∀ logits, Finite logits →
    ∀ token < logits.length, token ≠ table.eos →
      (Unmasked (fsm.applyMask order logits).1 token ↔
        Continues dfa table (table.text steps) token)
  eos : ∀ {steps fsm}, FsmRun order dfa table steps fsm → ∀ logits, Finite logits →
    table.eos < logits.length →
      (Unmasked (fsm.applyMask order logits).1 table.eos ↔
        table.text steps ∈ dfa.language ∨ ∀ token, ¬Continues dfa table (table.text steps) token)
  ended : ∀ {steps fsm rx}, FsmRun order dfa table steps fsm → fsm.regex = some rx →
    rx.dfa.isAccept rx.state = true → table.text steps ∈ dfa.language
  extendable : dfa.Extendable [] → ∀ {steps fsm}, FsmRun order dfa table steps fsm →
    dfa.Extendable (table.text steps)
  produced : ∀ {steps}, (∀ step ∈ steps, step.Spells table) → table.text steps ∈ dfa.language →
    ∃ fsm, FsmRun order dfa table steps fsm ∧ ∀ logits, Finite logits →
      table.eos < logits.length → Unmasked (fsm.applyMask order logits).1 table.eos

/-- **Grammar mask exactness.** -/
theorem grammar_mask_exact (order : IterOrder (σ × List σ)) (dfa : RegexDfa σ)
    (table : TokenByteTable) : MaskExact order dfa table := by
  refine ⟨?_, ?_, ?_, ?_, ?_⟩
  · intro steps fsm hrun logits hfinite
    obtain ⟨⟨rx, hread⟩, -⟩ := hrun.hasRead
    exact (hread.applyMask order hfinite).2.2.1
  · intro steps fsm hrun logits hfinite
    obtain ⟨⟨rx, hread⟩, -⟩ := hrun.hasRead
    exact (hread.applyMask order hfinite).2.2.2
  · intro steps fsm rx hrun hregex haccept
    obtain ⟨⟨rx', hread⟩, -⟩ := hrun.hasRead
    obtain rfl : rx' = rx := Option.some.inj (hread.regex_eq.symm.trans hregex)
    rw [RegexDfa.mem_language_of_walk hread.walk, ← hread.dfa_eq]
    exact haccept
  · intro hstart steps fsm hrun
    exact hrun.hasRead.2 hstart
  · intro steps hspells hmatch
    obtain ⟨fsm, hrun⟩ : ∃ fsm, FsmRun order dfa table steps fsm :=
      exists_run_of_extendable hspells ⟨[], by rwa [List.append_nil]⟩
    obtain ⟨⟨rx, hread⟩, -⟩ := hrun.hasRead
    refine ⟨fsm, hrun, fun logits hfinite heos => ?_⟩
    exact ((hread.applyMask order hfinite).2.2.2 heos).mpr (Or.inl hmatch)

end

/-! ### The pattern `ab*c` -/

/-- The bytes behind a match lead to a state that is not dead and matches nothing. -/
inductive AbcState
  | start | opened | full | beyond | dead | matched
  deriving DecidableEq

instance : Fintype AbcState where
  elems := {.start, .opened, .full, .beyond, .dead, .matched}
  complete s := by cases s <;> decide

def abStarC : RegexDfa AbcState where
  start := .start
  nextState s b :=
    match s with
    | .start => if b = 97 then .opened else .dead
    | .opened => if b = 98 then .opened else if b = 99 then .full else .dead
    | .full | .beyond => .beyond
    | .dead | .matched => .dead
  nextEoiState s := if s = .full then .matched else .dead
  isDeadState s := s = .dead
  isQuitState _ := false
  isMatchState s := s = .matched

/-- The end token and `a`, `bb`, `c` and `cc`. -/
def abcTable : TokenByteTable where
  bytes := [none, some [97], some [98, 98], some [99], some [99, 99]]
  eos := 0

theorem walk_beyond (bytes : List UInt8) : abStarC.walk .beyond bytes = some .beyond := by
  induction bytes with
  | nil => rfl
  | cons b bytes ih =>
      rw [RegexDfa.walk_cons]
      exact ih

theorem not_live_beyond : ¬abStarC.Live .beyond := by
  rintro ⟨bytes, hmem⟩
  obtain ⟨t, hwalk, haccept⟩ := RegexDfa.mem_acceptsFrom.mp hmem
  rw [walk_beyond] at hwalk
  obtain rfl := Option.some.inj hwalk
  exact absurd haccept (by decide)

theorem live_opened : abStarC.Live .opened :=
  ⟨[99], RegexDfa.mem_acceptsFrom.mpr ⟨.full, rfl, rfl⟩⟩

/-- Behind `a` the mask leaves `bb` and `c` open, and neither `cc` nor the end of the text; behind
`ac` it leaves the end open. -/
theorem grammar_mask_exact_abStarC : ∀ order : IterOrder (AbcState × List AbcState),
    ∃ fsm fsm' : LogitFsm AbcState,
      FsmRun order abStarC abcTable [([0, 0, 0, 0, 0], 1)] fsm ∧
      FsmRun order abStarC abcTable [([0, 0, 0, 0, 0], 1), ([0, 0, 0, 0, 0], 3)] fsm' ∧
      Unmasked (fsm.applyMask order [0, 0, 0, 0, 0]).1 2 ∧
      ¬Unmasked (fsm.applyMask order [0, 0, 0, 0, 0]).1 4 ∧
      ¬Unmasked (fsm.applyMask order [0, 0, 0, 0, 0]).1 0 ∧
      Unmasked (fsm'.applyMask order [0, 0, 0, 0, 0]).1 0 := by
  intro order
  have hexact := grammar_mask_exact order abStarC abcTable
  have hfinite : Finite [0, 0, 0, 0, 0] := by simp [Finite]
  have hcontinues {text : List UInt8} {s : AbcState} (hwalk : abStarC.walk .start text = some s)
      (token : Token) : Continues abStarC abcTable text token ↔
        RegexEngine.Viable abStarC s (abcTable.bytes.getD token none) := continues_iff_viable hwalk
  have hopened : abStarC.walk .start [97] = some .opened := rfl
  have hfirst := (hexact.token .start _ hfinite 1 (by decide) (by decide)).mpr
    ((hcontinues rfl 1).mpr ⟨[97], .opened, rfl, rfl, live_opened⟩)
  have hrun := FsmRun.start.step hfinite hfirst
  have hsecond := (hexact.token hrun _ hfinite 3 (by decide) (by decide)).mpr
    ((hcontinues hopened 3).mpr ⟨[99], .full, rfl, rfl, [], RegexDfa.mem_acceptsFrom.mpr
      ⟨.full, rfl, rfl⟩⟩)
  have hrun' := hrun.step hfinite hsecond
  refine ⟨_, _, hrun, hrun', ?bb, ?cc, ?ended, ?matched⟩
  case bb =>
    exact (hexact.token hrun _ hfinite 2 (by decide) (by decide)).mpr
      ((hcontinues hopened 2).mpr ⟨[98, 98], .opened, rfl, rfl, live_opened⟩)
  case cc =>
    intro hopen
    obtain ⟨bytes, t, hbytes, hwalk, hlive⟩ := (hcontinues hopened 4).mp
      ((hexact.token hrun _ hfinite 4 (by decide) (by decide)).mp hopen)
    obtain rfl : [99, 99] = bytes := Option.some.inj hbytes
    obtain rfl : .beyond = t := Option.some.inj hwalk
    exact not_live_beyond hlive
  case ended =>
    intro hopen
    rcases (hexact.eos hrun _ hfinite (by decide)).mp hopen with hmatch | hnone
    · exact absurd ((RegexDfa.mem_language_of_walk hopened).mp hmatch) (by decide)
    · exact hnone 3 ((hexact.token hrun _ hfinite 3 (by decide) (by decide)).mp hsecond)
  case matched =>
    exact (hexact.eos hrun' _ hfinite (by decide)).mpr
      (.inl (RegexDfa.mem_language.mpr ⟨.full, rfl, rfl⟩))

end Zllm.Engine
