import Mathlib.Data.Fintype.Card
import Mathlib.Logic.Function.Basic
import Mathlib.Logic.Relation
import Mathlib.Tactic

/-!
# Exploring a finite graph

A worklist that visits everything reachable from one vertex and lists the successors of each vertex
it visits, and a fixpoint that marks every vertex from which a marked one is reachable. Edges are
labelled, and a label may lead nowhere.
-/

namespace Zllm.Saturation

open Relation (ReflTransGen)
open Function (update update_of_ne update_self)

variable {σ β : Type}

/-! ### The worklist -/

structure Worklist (σ : Type) where
  stack : List σ
  seen : Finset σ
  succ : List (σ × List σ)

/-- What one vertex adds to the worklist, over the labels scanned so far. -/
structure Scan (σ : Type) where
  outs : List σ
  stack : List σ
  seen : Finset σ

def scanLabel [DecidableEq σ] (next : σ → β → Option σ) (u : σ) (scan : Scan σ) (label : β) : Scan σ :=
  match next u label with
  | none => scan
  | some v => {
      outs := if v ∈ scan.outs then scan.outs else scan.outs ++ [v]
      stack := if v ∈ scan.seen then scan.stack else v :: scan.stack
      seen := insert v scan.seen }

def explore [DecidableEq σ] (next : σ → β → Option σ) (labels : List β) :
    (fuel : Nat) → Worklist σ → Worklist σ
  | 0, work => work
  | fuel + 1, work =>
      match work.stack with
      | [] => work
      | u :: stack =>
          let scan := labels.foldl (scanLabel next u) ⟨[], stack, work.seen⟩
          explore next labels fuel ⟨scan.stack, scan.seen, work.succ ++ [(u, scan.outs)]⟩

def Edge (next : σ → β → Option σ) (labels : List β) (u v : σ) : Prop :=
  ∃ label ∈ labels, next u label = some v

/-- `v` is listed as a successor of `u`. -/
def Listed (entries : List (σ × List σ)) (u v : σ) : Prop :=
  ∃ outs, (u, outs) ∈ entries ∧ v ∈ outs

section

variable {next : σ → β → Option σ} {labels : List β} {u v start : σ} {work : Worklist σ}

/-- What scanning `labels` did to `before`. -/
structure Scanned (next : σ → β → Option σ) (labels : List β) (u : σ) (before after : Scan σ) :
    Prop where
  mem_outs : ∀ v, v ∈ after.outs ↔ v ∈ before.outs ∨ Edge next labels u v
  mem_seen : ∀ v, v ∈ after.seen ↔ v ∈ before.seen ∨ Edge next labels u v
  mem_stack : ∀ v, v ∈ after.stack ↔ v ∈ before.stack ∨ v ∉ before.seen ∧ Edge next labels u v
  count : after.stack.length + before.seen.card = before.stack.length + after.seen.card

/-- The invariant of `explore`: each seen vertex is reachable from the start, and waits on the stack
or has its successors listed. -/
structure Explored (next : σ → β → Option σ) (labels : List β) (start : σ) (work : Worklist σ) :
    Prop where
  start_seen : start ∈ work.seen
  reached : ∀ v ∈ work.seen, ReflTransGen (Edge next labels) start v
  stacked : ∀ v ∈ work.stack, v ∈ work.seen
  pending : ∀ v ∈ work.seen, v ∈ work.stack ∨ ∃ outs, (v, outs) ∈ work.succ
  listed : ∀ v outs, (v, outs) ∈ work.succ →
    v ∈ work.seen ∧ ∀ w, w ∈ outs ↔ Edge next labels v w
  succ_seen : ∀ v outs, (v, outs) ∈ work.succ → ∀ w ∈ outs, w ∈ work.seen
  count : work.succ.length + work.stack.length = work.seen.card

theorem explored_start (next : σ → β → Option σ) (labels : List β) (start : σ) :
    Explored next labels start ⟨[start], {start}, []⟩ where
  start_seen := by simp
  reached := by
    intro v hv
    rw [Finset.mem_singleton.mp hv]
  stacked := by simp
  pending := by simp
  listed := by simp
  succ_seen := by simp
  count := by simp

theorem Explored.seen_of_reaches {t : σ} (h : Explored next labels start work)
    (hdone : work.stack = []) (hu : u ∈ work.seen)
    (hreach : ReflTransGen (Edge next labels) u t) : t ∈ work.seen := by
  induction hreach with
  | refl => exact hu
  | @tail v w _ hedge hv =>
      obtain ⟨outs, hmem⟩ := (h.pending v hv).resolve_left (by simp [hdone])
      exact h.succ_seen v outs hmem w (((h.listed v outs hmem).2 w).mpr hedge)

/-- With nothing left on the stack, the listed successors are all the edges there are. -/
theorem Explored.listed_iff {t : σ} (h : Explored next labels start work) (hdone : work.stack = [])
    (hu : u ∈ work.seen) :
    ReflTransGen (Listed work.succ) u t ↔ ReflTransGen (Edge next labels) u t := by
  constructor
  · apply ReflTransGen.mono
    rintro v w ⟨outs, hmem, hw⟩
    exact ((h.listed v outs hmem).2 w).mp hw
  · intro hreach
    induction hreach using ReflTransGen.head_induction_on with
    | refl => exact .refl
    | @head v w hedge _ ih =>
        obtain ⟨outs, hmem⟩ := (h.pending v hu).resolve_left (by simp [hdone])
        have hw := ((h.listed v outs hmem).2 w).mpr hedge
        exact .head ⟨outs, hmem, hw⟩ (ih (h.succ_seen v outs hmem w hw))

variable [DecidableEq σ]

theorem scanned_label (u : σ) (scan : Scan σ) (label : β) :
    Scanned next [label] u scan (scanLabel next u scan label) := by
  have hedge : ∀ v, Edge next [label] u v ↔ next u label = some v := by simp [Edge]
  unfold scanLabel
  cases hnext : next u label with
  | none =>
      refine ⟨?_, ?_, ?_, rfl⟩ <;> simp [hedge, hnext]
  | some w =>
      refine ⟨fun v => ?_, fun v => ?_, fun v => ?_, ?_⟩
      · rw [hedge, hnext, Option.some.injEq]
        by_cases hw : w ∈ scan.outs
        · simp only [hw, if_true]
          exact ⟨Or.inl, fun h => h.elim id fun hv => hv ▸ hw⟩
        · simp [hw, eq_comm]
      · rw [hedge, hnext, Option.some.injEq, Finset.mem_insert, or_comm, eq_comm]
      · rw [hedge, hnext, Option.some.injEq]
        by_cases hw : w ∈ scan.seen
        · simp only [hw, if_true]
          exact ⟨Or.inl, fun h => h.elim id fun hv => absurd (hv.2 ▸ hw) hv.1⟩
        · simp only [hw, if_false, List.mem_cons]
          constructor
          · rintro (rfl | hv)
            · exact Or.inr ⟨hw, rfl⟩
            · exact Or.inl hv
          · rintro (hv | ⟨-, rfl⟩)
            · exact Or.inr hv
            · exact Or.inl rfl
      · by_cases hw : w ∈ scan.seen
        · simp [hw, Finset.insert_eq_of_mem]
        · simp [hw, Finset.card_insert_of_notMem]
          omega

theorem scanned_foldl (u : σ) (labels : List β) (scan : Scan σ) :
    Scanned next labels u scan (labels.foldl (scanLabel next u) scan) := by
  induction labels generalizing scan with
  | nil => exact ⟨by simp [Edge], by simp [Edge], by simp [Edge], rfl⟩
  | cons label labels ih =>
      have hhead : Scanned next [label] u scan (scanLabel next u scan label) :=
        scanned_label u scan label
      have htail := ih (scanLabel next u scan label)
      have hedge : ∀ v, Edge next (label :: labels) u v ↔
          Edge next [label] u v ∨ Edge next labels u v := by simp [Edge]
      refine ⟨fun v => ?_, fun v => ?_, fun v => ?_, ?_⟩
      · rw [List.foldl_cons, htail.mem_outs, hhead.mem_outs, hedge, or_assoc]
      · rw [List.foldl_cons, htail.mem_seen, hhead.mem_seen, hedge, or_assoc]
      · rw [List.foldl_cons, htail.mem_stack, hhead.mem_stack, hhead.mem_seen, hedge]
        tauto
      · rw [List.foldl_cons]
        have := hhead.count
        have := htail.count
        omega

theorem Explored.visit {stack : List σ} {succ : List (σ × List σ)} {seen : Finset σ} {scan : Scan σ}
    (h : Explored next labels start ⟨u :: stack, seen, succ⟩)
    (hscan : Scanned next labels u ⟨[], stack, seen⟩ scan) :
    Explored next labels start ⟨scan.stack, scan.seen, succ ++ [(u, scan.outs)]⟩ := by
  have hu : u ∈ seen := h.stacked u List.mem_cons_self
  have hgrow : ∀ v ∈ seen, v ∈ scan.seen := fun v hv => (hscan.mem_seen v).mpr (Or.inl hv)
  refine ⟨hgrow _ h.start_seen, ?_, ?_, ?_, ?_, ?_, ?_⟩
  · intro v hv
    rcases (hscan.mem_seen v).mp hv with hold | hedge
    · exact h.reached v hold
    · exact (h.reached u hu).tail hedge
  · intro v hv
    rcases (hscan.mem_stack v).mp hv with hold | ⟨-, hedge⟩
    · exact hgrow v (h.stacked v (List.mem_cons_of_mem _ hold))
    · exact (hscan.mem_seen v).mpr (Or.inr hedge)
  · intro v hv
    by_cases hold : v ∈ seen
    · rcases h.pending v hold with hstack | ⟨outs, houts⟩
      · rcases List.mem_cons.mp hstack with rfl | hstack
        · exact Or.inr ⟨scan.outs, by simp⟩
        · exact Or.inl ((hscan.mem_stack v).mpr (Or.inl hstack))
      · exact Or.inr ⟨outs, List.mem_append_left _ houts⟩
    · have hedge := ((hscan.mem_seen v).mp hv).resolve_left hold
      exact Or.inl ((hscan.mem_stack v).mpr (Or.inr ⟨hold, hedge⟩))
  · intro v outs hmem
    rcases List.mem_append.mp hmem with hold | hnew
    · exact ⟨hgrow v (h.listed v outs hold).1, (h.listed v outs hold).2⟩
    · obtain ⟨rfl, rfl⟩ : v = u ∧ outs = scan.outs := by simpa using hnew
      exact ⟨hgrow v hu, fun w => by simpa using hscan.mem_outs w⟩
  · intro v outs hmem w hw
    rcases List.mem_append.mp hmem with hold | hnew
    · exact hgrow w (h.succ_seen v outs hold w hw)
    · obtain ⟨rfl, rfl⟩ : v = u ∧ outs = scan.outs := by simpa using hnew
      have hedge : Edge next labels v w := by simpa using (hscan.mem_outs w).mp hw
      exact (hscan.mem_seen w).mpr (Or.inr hedge)
  · have hbefore := h.count
    have hafter := hscan.count
    simp only [List.length_cons, List.length_append, List.length_nil] at hbefore hafter ⊢
    omega

theorem Explored.explore (fuel : Nat) (h : Explored next labels start work) :
    Explored next labels start (explore next labels fuel work) := by
  induction fuel generalizing work with
  | zero => exact h
  | succ fuel ih =>
      obtain ⟨stack, seen, succ⟩ := work
      rw [Saturation.explore]
      cases stack with
      | nil => exact h
      | cons u stack => exact ih (h.visit (scanned_foldl u labels _))

/-- A vertex is visited once, so as many rounds as there are vertices empty the stack. -/
theorem Explored.stack_eq_nil [Fintype σ] (fuel : Nat) (h : Explored next labels start work)
    (hfuel : Fintype.card σ ≤ fuel + work.succ.length) :
    (Saturation.explore next labels fuel work).stack = [] := by
  induction fuel generalizing work with
  | zero =>
      have hcount := h.count
      have hseen := Finset.card_le_univ work.seen
      rw [Saturation.explore, ← List.length_eq_zero_iff]
      omega
  | succ fuel ih =>
      obtain ⟨stack, seen, succ⟩ := work
      rw [Saturation.explore]
      cases stack with
      | nil => rfl
      | cons u stack =>
          apply ih (h.visit (scanned_foldl u labels _))
          simp only [List.length_append, List.length_singleton] at hfuel ⊢
          omega

end

/-! ### The fixpoint -/

/-- Mark the vertex of an entry if one of its listed successors is marked. -/
def relax [DecidableEq σ] (state : (σ → Bool) × Bool) (entry : σ × List σ) : (σ → Bool) × Bool :=
  if !state.1 entry.1 && entry.2.any state.1 then (update state.1 entry.1 true, true) else state

/-- Passes over all entries until one changes nothing. -/
def saturate [DecidableEq σ] (entries : List (σ × List σ)) : (fuel : Nat) → (σ → Bool) → (σ → Bool)
  | 0, mark => mark
  | fuel + 1, mark =>
      match entries.foldl relax (mark, false) with
      | (mark, true) => saturate entries fuel mark
      | (mark, false) => mark

/-- The entries that are left to mark. -/
def unmarked (entries : List (σ × List σ)) (mark : σ → Bool) : Nat :=
  entries.countP fun entry => !mark entry.1

/-- What relaxing `rest` did to `before`. -/
structure Relaxed (entries rest : List (σ × List σ)) (before after : (σ → Bool) × Bool) :
    Prop where
  grows : ∀ v, before.1 v = true → after.1 v = true
  sound : ∀ v, after.1 v = true → ∃ t, ReflTransGen (Listed entries) v t ∧ before.1 t = true
  flagged : before.2 = true → after.2 = true
  still : after.2 = false → after.1 = before.1 ∧
    ∀ u outs, (u, outs) ∈ rest → ∀ v ∈ outs, before.1 v = true → before.1 u = true
  progress : after.2 = true → before.2 = true ∨ unmarked entries after.1 < unmarked entries before.1

section

variable {entries rest : List (σ × List σ)} {mark mark' : σ → Bool} {u v : σ}

theorem unmarked_le (hgrows : ∀ v, mark v = true → mark' v = true) :
    unmarked entries mark' ≤ unmarked entries mark := by
  apply List.countP_mono_left
  intro entry _ hentry
  simp only [Bool.not_eq_true'] at hentry ⊢
  by_contra hmark
  have := hgrows entry.1 (by simpa using hmark)
  simp [this] at hentry

theorem unmarked_lt {outs : List σ} (hgrows : ∀ v, mark v = true → mark' v = true)
    (hmem : (u, outs) ∈ entries) (hbefore : mark u = false) (hafter : mark' u = true) :
    unmarked entries mark' < unmarked entries mark := by
  obtain ⟨left, right, rfl⟩ := List.append_of_mem hmem
  have hleft : unmarked left mark' ≤ unmarked left mark := unmarked_le hgrows
  have hright : unmarked right mark' ≤ unmarked right mark := unmarked_le hgrows
  simp only [unmarked, List.countP_append, List.countP_cons, hbefore, hafter] at hleft hright ⊢
  simp only [Bool.not_false, Bool.not_true, if_true, Bool.false_eq_true, if_false]
  omega

theorem Relaxed.trans {left right : List (σ × List σ)} {before middle after : (σ → Bool) × Bool}
    (hleft : Relaxed entries left before middle) (hright : Relaxed entries right middle after) :
    Relaxed entries (left ++ right) before after where
  grows := fun v hv => hright.grows v (hleft.grows v hv)
  sound := by
    intro v hv
    obtain ⟨t, hvt, ht⟩ := hright.sound v hv
    obtain ⟨w, htw, hw⟩ := hleft.sound t ht
    exact ⟨w, hvt.trans htw, hw⟩
  flagged := fun h => hright.flagged (hleft.flagged h)
  still := by
    intro hafter
    have hmiddle : middle.2 = false := by
      by_contra hflag
      rw [hright.flagged (by simpa using hflag)] at hafter
      cases hafter
    obtain ⟨hsame, hclosed⟩ := hright.still hafter
    obtain ⟨hsame', hclosed'⟩ := hleft.still hmiddle
    rw [hsame'] at hsame hclosed
    refine ⟨hsame, fun u outs hmem => ?_⟩
    exact (List.mem_append.mp hmem).elim (hclosed' u outs) (hclosed u outs)
  progress := by
    intro hafter
    rcases hright.progress hafter with hmiddle | hlt
    · rcases hleft.progress hmiddle with hbefore | hlt
      · exact Or.inl hbefore
      · exact Or.inr ((unmarked_le hright.grows).trans_lt hlt)
    · exact Or.inr (hlt.trans_le (unmarked_le hleft.grows))

theorem mark_of_reaches {t : σ}
    (hclosed : ∀ u outs, (u, outs) ∈ entries → ∀ v ∈ outs, mark v = true → mark u = true)
    (hreach : ReflTransGen (Listed entries) v t) (ht : mark t = true) : mark v = true := by
  induction hreach using ReflTransGen.head_induction_on with
  | refl => exact ht
  | head hedge _ hmark =>
      obtain ⟨outs, hmem, hw⟩ := hedge
      exact hclosed _ outs hmem _ hw hmark

variable [DecidableEq σ]

theorem relaxed_entry {entry : σ × List σ} (hmem : entry ∈ entries) (state : (σ → Bool) × Bool) :
    Relaxed entries [entry] state (relax state entry) := by
  obtain ⟨u, outs⟩ := entry
  unfold relax
  split
  case isTrue hmarks =>
    obtain ⟨hu, hany⟩ := by simpa using hmarks
    have hgrows : ∀ v, state.1 v = true → update state.1 u true v = true := by
      intro v hv
      by_cases heq : v = u
      · rw [heq, update_self]
      · rwa [update_of_ne heq]
    refine ⟨hgrows, ?_, fun _ => rfl, by simp, fun _ => Or.inr ?_⟩
    · intro v hv
      by_cases heq : v = u
      · obtain ⟨w, hw, hmark⟩ := hany
        rw [heq]
        exact ⟨w, .single ⟨outs, hmem, hw⟩, hmark⟩
      · refine ⟨v, .refl, ?_⟩
        rwa [← update_of_ne heq true state.1]
    · exact unmarked_lt hgrows hmem hu (update_self u true state.1)
  case isFalse hstays =>
    refine ⟨fun _ => id, fun v hv => ⟨v, .refl, hv⟩, id, fun _ => ⟨rfl, ?_⟩, Or.inl⟩
    intro w outs' hw v hv hmark
    obtain ⟨rfl, rfl⟩ : w = u ∧ outs' = outs := by simpa using hw
    by_contra hu
    exact hstays (by simpa using ⟨by simpa using hu, v, hv, hmark⟩)

theorem relaxed_foldl (hsub : rest ⊆ entries) (state : (σ → Bool) × Bool) :
    Relaxed entries rest state (rest.foldl relax state) := by
  induction rest generalizing state with
  | nil => exact ⟨fun _ => id, fun v hv => ⟨v, .refl, hv⟩, id, fun _ => ⟨rfl, by simp⟩, Or.inl⟩
  | cons entry rest ih =>
      have hhead := relaxed_entry (hsub List.mem_cons_self) state
      exact hhead.trans (ih (List.subset_of_cons_subset hsub) (relax state entry))

/-- Once a pass changes nothing, a vertex is marked exactly if it reaches one that was marked. -/
theorem saturate_eq_true (fuel : Nat) (hfuel : unmarked entries mark < fuel) :
    saturate entries fuel mark v = true ↔
      ∃ t, ReflTransGen (Listed entries) v t ∧ mark t = true := by
  induction fuel generalizing mark with
  | zero => omega
  | succ fuel ih =>
      have hpass := relaxed_foldl (List.Subset.refl entries) (mark, false)
      rw [saturate]
      generalize hafter : entries.foldl relax (mark, false) = after at hpass
      obtain ⟨mark', changed⟩ := after
      cases changed with
      | true =>
          have hless := (hpass.progress rfl).resolve_left (by simp)
          dsimp only at hless ⊢
          rw [ih (by omega)]
          constructor
          · rintro ⟨t, hvt, ht⟩
            obtain ⟨w, htw, hw⟩ := hpass.sound t ht
            exact ⟨w, hvt.trans htw, hw⟩
          · rintro ⟨t, hvt, ht⟩
            exact ⟨t, hvt, hpass.grows t ht⟩
      | false =>
          obtain ⟨rfl, hclosed⟩ := hpass.still rfl
          refine ⟨fun hv => ⟨v, .refl, hv⟩, ?_⟩
          rintro ⟨t, hvt, ht⟩
          exact mark_of_reaches hclosed hvt ht

/-- The fixpoint is one: another pass changes nothing. -/
theorem saturate_still (fuel : Nat) (hfuel : unmarked entries mark < fuel) :
    (entries.foldl relax (saturate entries fuel mark, false)).2 = false := by
  induction fuel generalizing mark with
  | zero => omega
  | succ fuel ih =>
      have hpass := relaxed_foldl (List.Subset.refl entries) (mark, false)
      rw [saturate]
      generalize hafter : entries.foldl relax (mark, false) = after at hpass
      obtain ⟨mark', changed⟩ := after
      cases changed with
      | true =>
          have hless := (hpass.progress rfl).resolve_left (by simp)
          dsimp only at hless
          exact ih (by omega)
      | false =>
          obtain ⟨rfl, -⟩ := hpass.still rfl
          exact congrArg Prod.snd hafter

end

end Zllm.Saturation
