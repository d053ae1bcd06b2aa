import Zllm.Engine.GrammarMask

/-!
# The memo of live states

A query explores what its state reaches and remembers the verdict on all of it. Whatever was asked
before, and in whatever order the tables were walked, the verdicts are those of a new engine.
-/

namespace Zllm.Engine.RegexEngine

variable {σ : Type} [DecidableEq σ] [Fintype σ]

/-- The engine after `queries`, each with the order in which it walked its tables. -/
def ask (rx : RegexEngine σ) (queries : List (IterOrder (σ × List σ) × σ)) : RegexEngine σ :=
  queries.foldl (fun rx query => (rx.isLive query.1 query.2).2) rx

theorem ask_spec {rx : RegexEngine σ} (hmemo : rx.Memoized)
    (queries : List (IterOrder (σ × List σ) × σ)) :
    (rx.ask queries).Memoized ∧ SameText rx (rx.ask queries) := by
  induction queries generalizing rx with
  | nil => exact ⟨hmemo, sameText_refl rx⟩
  | cons query queries ih =>
    obtain ⟨-, hnext, hsame⟩ := isLive_spec query.1 hmemo query.2
    obtain ⟨hlast, hrest⟩ := ih hnext
    exact ⟨hlast, hsame.trans hrest⟩

/-- Both loops of a query end: nothing is left to visit, and a further pass marks nothing. -/
structure QueryEnds (order : IterOrder (σ × List σ)) (dfa : RegexDfa σ) (s : σ) : Prop where
  explored : (subgraph dfa s).stack = []
  saturated : ((order.arrange (subgraph dfa s).succ).foldl Saturation.relax
    (liveStates order dfa (subgraph dfa s), false)).2 = false

theorem queryEnds (order : IterOrder (σ × List σ)) (dfa : RegexDfa σ) (s : σ) :
    QueryEnds order dfa s where
  explored := (explored_subgraph dfa s).2
  saturated := by
    have hlength := (order.perm (subgraph dfa s).succ).length_eq
    refine Saturation.saturate_still _ (Nat.lt_succ_of_le ?_)
    calc Saturation.unmarked _ _ ≤ (order.arrange (subgraph dfa s).succ).length :=
          List.countP_le_length
      _ ≤ (subgraph dfa s).succ.length := hlength.le

/-- After any queries, a query ends, finds whether a match can be reached, and leaves in the memo
only what a new engine would answer. -/
theorem isLive_memo (dfa : RegexDfa σ) (table : TokenByteTable)
    (queries : List (IterOrder (σ × List σ) × σ)) (order : IterOrder (σ × List σ)) (s : σ) :
    QueryEnds order dfa s ∧
    ((((new dfa table).ask queries).isLive order s).1 = true ↔ dfa.Live s) ∧
    ∀ u live, (((new dfa table).ask queries).isLive order s).2.liveCache u = some live →
      ∀ order', live = ((new dfa table).isLive order' u).1 := by
  obtain ⟨hmemo, hsame⟩ := ask_spec (memoized_new dfa table) queries
  obtain ⟨hlive, hafter, hnext⟩ := isLive_spec order hmemo s
  have hdfa : (((new dfa table).ask queries).isLive order s).2.dfa = dfa :=
    hnext.dfa_eq.trans hsame.dfa_eq
  refine ⟨queryEnds order dfa s, ?_, fun u live hu order' => ?_⟩
  · rw [hlive, hsame.dfa_eq]
    exact Iff.rfl
  · have hstored := hafter.live u live hu
    have hfresh := (isLive_spec order' (memoized_new dfa table) u).1
    rw [hdfa] at hstored
    exact Bool.eq_iff_iff.mpr (hstored.trans hfresh.symm)

/-- Whichever is asked first, the start and the state of a match are live, and the state behind a
match, which leads back to itself alone, is not. -/
theorem isLive_memo_abStarC : ∀ order order' : IterOrder (AbcState × List AbcState),
    ((((new abStarC abcTable).ask [(order, .beyond)]).isLive order' .start).1 = true) ∧
    ((((new abStarC abcTable).ask [(order, .beyond)]).isLive order' .full).1 = true) ∧
    ((((new abStarC abcTable).ask [(order, .start)]).isLive order' .beyond).1 = false) := by
  intro order order'
  have hstart : abStarC.Live .start := ⟨[97, 98, 99], RegexDfa.mem_acceptsFrom.mpr ⟨.full, rfl, rfl⟩⟩
  have hfull : abStarC.Live .full := ⟨[], RegexDfa.mem_acceptsFrom.mpr ⟨.full, rfl, rfl⟩⟩
  refine ⟨?_, ?_, ?_⟩
  · exact (isLive_memo abStarC abcTable [(order, .beyond)] order' .start).2.1.mpr hstart
  · exact (isLive_memo abStarC abcTable [(order, .beyond)] order' .full).2.1.mpr hfull
  · rw [Bool.eq_false_iff]
    exact mt (isLive_memo abStarC abcTable [(order, .start)] order' .beyond).2.1.mp not_live_beyond

end Zllm.Engine.RegexEngine
