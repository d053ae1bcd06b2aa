import Zllm.Engine.GrammarMask

/-!
# What the mask leaves

EOS is forced where no token of the byte table is viable, so that the grammar never masks every
logit. The table is not the logits: a viable token may be past their end, and EOS may itself have
bytes. The mask then finds a token that is viable and closes every logit.
-/

namespace Zllm.Engine

open RegexEngine (Viable)

variable {σ : Type}

/-- The bytes of a token lead on from a state. -/
def TokenByteTable.Viable (table : TokenByteTable) (dfa : RegexDfa σ) (s : σ) (id : Token) : Prop :=
  RegexEngine.Viable dfa s (table.bytes.getD id none)

/-- A match ends here, nothing can follow, or one of the first `n` tokens can that is not EOS. -/
def KeepsOne (dfa : RegexDfa σ) (table : TokenByteTable) (s : σ) (n : Nat) : Prop :=
  dfa.isAccept s = true ∨ (∀ id, ¬ table.Viable dfa s id) ∨
    ∃ id < n, id ≠ table.eos ∧ table.Viable dfa s id

section

variable {order : IterOrder (σ × List σ)} {dfa : RegexDfa σ} {table : TokenByteTable}
  {text : List UInt8} {fsm : LogitFsm σ} {rx : RegexEngine σ} {logits : List Logit}

theorem exists_ne_bot_iff : (∃ l ∈ logits, l ≠ ⊥) ↔ ∃ token, Unmasked logits token := by
  constructor
  · rintro ⟨l, hmem, hne⟩
    obtain ⟨token, htoken⟩ := List.mem_iff_getElem?.mp hmem
    exact ⟨token, l, htoken, hne⟩
  · rintro ⟨token, l, htoken, hne⟩
    exact ⟨l, List.mem_of_getElem? htoken, hne⟩

theorem HasRead.advance_any (h : HasRead dfa table text fsm rx) (token : Token) :
    ∃ text rx, HasRead dfa table text (fsm.advance token) rx := by
  by_cases heos : token = table.eos
  · subst heos
    exact ⟨text, rx, h.advance_eos.symm ▸ h⟩
  · cases hentry : table.bytes[token]? with
    | none =>
      have hsame : fsm.advance token = fsm := by
        simp [LogitFsm.advance, h.regex_eq, h.table_eq, heos, hentry]
      exact ⟨text, rx, hsame.symm ▸ h⟩
    | some entry =>
      cases entry with
      | none =>
        have hsame : fsm.advance token = fsm := by
          simp [LogitFsm.advance, h.regex_eq, h.table_eq, heos, hentry]
        exact ⟨text, rx, hsame.symm ▸ h⟩
      | some bytes =>
        cases hwalk : dfa.walk rx.state bytes with
        | none =>
          have hsame : fsm.advance token = fsm := by
            simp [LogitFsm.advance, h.regex_eq, h.table_eq, h.dfa_eq, heos, hentry, hwalk]
          exact ⟨text, rx, hsame.symm ▸ h⟩
        | some t => exact ⟨_, _, h.advance heos hentry hwalk⟩

variable [DecidableEq σ] [Fintype σ]

/-- What the mask does to the grammar's state does not depend on the logits. -/
theorem LogitFsm.applyMask_snd (order : IterOrder (σ × List σ)) (fsm : LogitFsm σ)
    (logits : List Logit) : (fsm.applyMask order logits).2 = (fsm.applyMask order []).2 := by
  unfold LogitFsm.applyMask
  cases fsm.regex <;> rfl

/-- The states that a grammar comes to, whatever is masked and sampled. -/
inductive FsmReached (order : IterOrder (σ × List σ)) (dfa : RegexDfa σ) (table : TokenByteTable) :
    LogitFsm σ → Prop
  | compile : FsmReached order dfa table (.compileRegex dfa table)
  | applyMask {fsm : LogitFsm σ} (logits : List Logit) : FsmReached order dfa table fsm →
      FsmReached order dfa table (fsm.applyMask order logits).2
  | advance {fsm : LogitFsm σ} (token : Token) : FsmReached order dfa table fsm →
      FsmReached order dfa table (fsm.advance token)

theorem FsmReached.hasRead (h : FsmReached order dfa table fsm) :
    ∃ text rx, HasRead dfa table text fsm rx := by
  induction h with
  | compile => exact ⟨[], _, hasRead_compileRegex dfa table⟩
  | applyMask logits _ ih =>
    obtain ⟨text, rx, hread⟩ := ih
    have hempty : Finite [] := fun l hl => absurd hl List.not_mem_nil
    obtain ⟨⟨rx', hread'⟩, -⟩ := hread.applyMask order hempty
    rw [LogitFsm.applyMask_snd]
    exact ⟨text, rx', hread'⟩
  | advance token _ ih =>
    obtain ⟨text, rx, hread⟩ := ih
    exact hread.advance_any token

theorem HasRead.exists_ne_bot_iff (h : HasRead dfa table text fsm rx) (hfinite : Finite logits)
    (heos : table.eos < logits.length) :
    (∃ l ∈ (fsm.applyMask order logits).1, l ≠ ⊥) ↔
      KeepsOne dfa table rx.state logits.length := by
  obtain ⟨-, hlength, hother, hend⟩ := h.applyMask order hfinite
  have hviable (token : Token) : Continues dfa table text token ↔
      table.Viable dfa rx.state token := continues_iff_viable h.walk
  have haccept := RegexDfa.mem_language_of_walk h.walk
  simp only [hviable, haccept] at hother hend
  rw [Engine.exists_ne_bot_iff]
  constructor
  · rintro ⟨token, hopen⟩
    by_cases htoken : token = table.eos
    · subst htoken
      exact ((hend heos).mp hopen).imp_right .inl
    · have hlt := hlength token hopen
      exact .inr (.inr ⟨token, hlt, htoken, (hother token hlt htoken).mp hopen⟩)
  · rintro (hmatch | hnone | ⟨token, hlt, htoken, hopen⟩)
    · exact ⟨table.eos, (hend heos).mpr (.inl hmatch)⟩
    · exact ⟨table.eos, (hend heos).mpr (.inr hnone)⟩
    · exact ⟨token, (hother token hlt htoken).mpr hopen⟩

/-- A logit is left in a state that a grammar comes to exactly where a match ends, nothing can
follow, or a token of the logits can that is not EOS. -/
theorem mask_leaves_logit_iff (order : IterOrder (σ × List σ)) (dfa : RegexDfa σ)
    (table : TokenByteTable) (fsm : LogitFsm σ) (hreached : FsmReached order dfa table fsm)
    (rx : RegexEngine σ) (hregex : fsm.regex = some rx) (logits : List Logit)
    (hfinite : Finite logits) (heos : table.eos < logits.length) :
    (∃ l ∈ (fsm.applyMask order logits).1, l ≠ ⊥) ↔
      KeepsOne dfa table rx.state logits.length := by
  obtain ⟨text, rx', hread⟩ := hreached.hasRead
  obtain rfl : rx' = rx := Option.some.inj (hread.regex_eq.symm.trans hregex)
  exact hread.exists_ne_bot_iff hfinite heos

end

/-! ### A token past the logits -/

/-- Any text but the empty one. -/
def someText : RegexDfa Bool where
  start := false
  nextState := fun _ _ => true
  nextEoiState := id
  isDeadState := fun _ => false
  isQuitState := fun _ => false
  isMatchState := id

/-- EOS and one letter. -/
def letterTable : TokenByteTable := ⟨[none, some [98]], 0⟩

def asListed : IterOrder (Bool × List Bool) := ⟨id, fun _ => .rfl⟩

theorem letter_viable : letterTable.Viable someText false 1 :=
  ⟨[98], true, rfl, rfl, [], true, rfl, rfl⟩

theorem mask_leaves_logit_letter :
    (∃ l ∈ ((LogitFsm.compileRegex someText letterTable).applyMask asListed [1, 2]).1, l ≠ ⊥) ↔
      KeepsOne someText letterTable false 2 :=
  mask_leaves_logit_iff asListed someText letterTable _ .compile _ rfl [1, 2] (by simp [Finite])
    (by decide)

/-- The letter is viable, so that EOS is not forced, and has no logit. -/
theorem mask_leaves_nothing :
    ¬ ∀ (dfa : RegexDfa Bool) (table : TokenByteTable) (fsm : LogitFsm Bool),
      FsmReached asListed dfa table fsm → ∀ logits : List Logit, Finite logits →
        table.eos < logits.length → ∃ l ∈ (fsm.applyMask asListed logits).1, l ≠ ⊥ := by
  intro hleaves
  have hleft := hleaves someText letterTable _ .compile [1] (by simp [Finite]) (by decide)
  rw [(hasRead_compileRegex someText letterTable).exists_ne_bot_iff (by simp [Finite])
    (by decide)] at hleft
  rcases hleft with haccept | hnone | ⟨id, hid, heos, -⟩
  · exact absurd haccept (by decide)
  · exact hnone 1 letter_viable
  · exact heos (Nat.lt_one_iff.mp hid)

end Zllm.Engine
