import Mathlib.Data.List.Induction
import Mathlib.Data.List.Sort

/-!
# The first entries of a stable sort, kept one by one

A descending list of bounded length. A new entry goes behind those that are not below it, and
pushes out the last one when the list is full. What is kept of entries that come in the order of
their ranks is a prefix of all of them sorted, ties by rank.
-/

namespace Zllm.TopN

variable {α β : Type} [LinearOrder β] (key : α → β)

/-- Behind every entry that is not below the new one. -/
def place (x : α) : List α → List α
  | [] => [x]
  | a :: rest => if key x ≤ key a then a :: place x rest else x :: a :: rest

/-- One entry offered to a list of at most `n`. -/
def push (n : Nat) (top : List α) (x : α) : List α :=
  if top.length < n then place key x top
  else
    match top.getLast? with
    | some last => if key last < key x then place key x top.dropLast else top
    | none => top

/-- Larger first, then the lower rank. -/
def Before (rank : α → Nat) (a b : α) : Prop :=
  key b < key a ∨ key b = key a ∧ rank a < rank b

variable {key} {rank : α → Nat} {n : Nat} {x : α} {top xs : List α}

/-! ### One entry -/

theorem perm_place (x : α) (top : List α) : (place key x top).Perm (x :: top) := by
  induction top with
  | nil => exact .refl _
  | cons a rest ih =>
    unfold place
    split_ifs
    · exact (ih.cons a).trans (.swap x a rest)
    · exact .refl _

theorem length_place (key : α → β) (x : α) (top : List α) :
    (place key x top).length = top.length + 1 :=
  (perm_place x top).length_eq

theorem length_push_le (hroom : top.length ≤ n) (x : α) : (push key n top x).length ≤ n := by
  unfold push
  split_ifs with hlt
  · rw [length_place]
    omega
  · rcases List.eq_nil_or_concat top with rfl | ⟨init, last, rfl⟩
    · exact hroom
    · rw [List.concat_eq_append] at hroom ⊢
      simp only [List.getLast?_concat, List.dropLast_concat]
      split_ifs
      · rwa [length_place, ← List.length_singleton (a := last), ← List.length_append]
      · exact hroom

theorem place_of_forall_le (hle : ∀ a ∈ top, key x ≤ key a) : place key x top = top ++ [x] := by
  induction top with
  | nil => rfl
  | cons a rest ih =>
    rw [place, if_pos (hle a List.mem_cons_self),
      ih fun b hb => hle b (List.mem_cons_of_mem _ hb), List.cons_append]

/-- An entry below the new one stays last. -/
theorem place_append_singleton {last : α} (hlt : key last < key x) :
    place key x (top ++ [last]) = place key x top ++ [last] := by
  induction top with
  | nil => exact if_neg hlt.not_ge
  | cons a rest ih =>
    rw [List.cons_append, place, place]
    split_ifs
    · rw [ih, List.cons_append]
    · rfl

/-- The first entries after a placing depend only on the first ones before. -/
theorem take_place (x : α) (top : List α) (n : Nat) :
    (place key x (top.take n)).take n = (place key x top).take n := by
  induction top generalizing n with
  | nil => rw [List.take_nil]
  | cons a rest ih =>
    cases n with
    | zero => rw [List.take_zero, List.take_zero]
    | succ n =>
      rw [List.take_succ_cons, place, place]
      split_ifs
      · rw [List.take_succ_cons, List.take_succ_cons, ih]
      · rw [List.take_succ_cons, List.take_succ_cons, ← List.take_succ_cons (a := a),
          List.take_take, Nat.min_eq_left (Nat.le_succ n)]

theorem pairwise_place (hsorted : top.Pairwise (Before key rank))
    (hlater : ∀ a ∈ top, rank a < rank x) :
    (place key x top).Pairwise (Before key rank) := by
  induction top with
  | nil => exact List.pairwise_singleton _ _
  | cons a rest ih =>
    obtain ⟨hfirst, hrest⟩ := List.pairwise_cons.1 hsorted
    unfold place
    split_ifs with hle
    · refine List.pairwise_cons.2
        ⟨fun b hb => ?_, ih hrest fun b hb => hlater b (List.mem_cons_of_mem _ hb)⟩
      rcases List.mem_cons.1 ((perm_place x rest).mem_iff.1 hb) with rfl | hb
      · rcases hle.lt_or_eq with hlt | heq
        · exact .inl hlt
        · exact .inr ⟨heq, hlater a List.mem_cons_self⟩
      · exact hfirst b hb
    · have hlt := not_le.1 hle
      refine List.pairwise_cons.2 ⟨fun b hb => .inl ?_, hsorted⟩
      rcases List.mem_cons.1 hb with rfl | hb
      · exact hlt
      · rcases hfirst b hb with hbelow | ⟨heq, -⟩
        · exact hbelow.trans hlt
        · exact heq ▸ hlt

/-- To push on the first entries is to place among all, and keep the first. -/
theorem push_take (hsorted : top.Pairwise (Before key rank)) (n : Nat) (x : α) :
    push key n (top.take n) x = (place key x top).take n := by
  rw [← take_place]
  have htaken : (top.take n).Pairwise (Before key rank) := hsorted.sublist (List.take_sublist n top)
  have hlen : (top.take n).length ≤ n := List.length_take_le n top
  generalize top.take n = kept at htaken hlen
  unfold push
  split_ifs with hroom
  · rw [List.take_of_length_le (by rw [length_place]; omega)]
  · rcases List.eq_nil_or_concat kept with rfl | ⟨init, last, rfl⟩
    · have hn : n = 0 := by simpa using hroom
      rw [hn, List.take_zero]
      rfl
    · rw [List.concat_eq_append] at htaken hlen hroom ⊢
      rw [List.length_append, List.length_singleton] at hlen hroom
      have hn : n = init.length + 1 := by omega
      simp only [List.getLast?_concat, List.dropLast_concat]
      split_ifs with hlt
      · rw [place_append_singleton hlt, hn, ← length_place key x init, List.take_left]
      · have hle : ∀ a ∈ init ++ [last], key x ≤ key a := by
          intro a ha
          rcases List.mem_append.1 ha with ha | ha
          · have hbefore := (List.pairwise_append.1 htaken).2.2 a ha last List.mem_cons_self
            rcases hbefore with hb | ⟨hb, -⟩
            · exact (not_lt.1 hlt).trans hb.le
            · exact (not_lt.1 hlt).trans hb.le
          · rw [List.mem_singleton.1 ha]
            exact le_of_not_gt hlt
        rw [place_of_forall_le hle, hn, ← List.length_singleton (a := last), ← List.length_append,
          List.take_left]

/-! ### All entries -/

/-- Entries in the order of their ranks, placed one by one. -/
theorem foldl_place (key : α → β) (hxs : xs.Pairwise (fun a b => rank a < rank b)) :
    (xs.foldl (fun top x => place key x top) []).Pairwise (Before key rank) ∧
      (xs.foldl (fun top x => place key x top) []).Perm xs := by
  induction xs using List.reverseRecOn with
  | nil => exact ⟨List.Pairwise.nil, .refl _⟩
  | append_singleton xs x ih =>
    obtain ⟨hbefore, -, hlater⟩ := List.pairwise_append.1 hxs
    obtain ⟨hsorted, hperm⟩ := ih hbefore
    rw [List.foldl_append, List.foldl_cons, List.foldl_nil]
    refine ⟨pairwise_place hsorted fun a ha => ?_, ?_⟩
    · exact hlater a (hperm.mem_iff.1 ha) x List.mem_cons_self
    · exact (perm_place x _).trans ((hperm.cons x).trans (List.perm_append_singleton x xs).symm)

theorem foldl_push (hxs : xs.Pairwise (fun a b => rank a < rank b)) (n : Nat) :
    xs.foldl (push key n) [] = (xs.foldl (fun top x => place key x top) []).take n := by
  induction xs using List.reverseRecOn with
  | nil => rw [List.foldl_nil, List.foldl_nil, List.take_nil]
  | append_singleton xs x ih =>
    have hbefore := (List.pairwise_append.1 hxs).1
    rw [List.foldl_append, List.foldl_append, List.foldl_cons, List.foldl_cons, List.foldl_nil,
      List.foldl_nil, ih hbefore, push_take (foldl_place key hbefore).1]

/-- A stable descending sort, ties by rank. -/
def before (key : α → β) (rank : α → Nat) (a b : α) : Bool :=
  key b < key a ∨ key b = key a ∧ rank a ≤ rank b

/-- Pushing keeps the first entries of the sort. -/
theorem foldl_push_eq_mergeSort (hxs : xs.Pairwise (fun a b => rank a < rank b)) (n : Nat) :
    xs.foldl (push key n) [] = (xs.mergeSort (before key rank)).take n := by
  obtain ⟨hsorted, hperm⟩ := foldl_place key hxs
  rw [foldl_push hxs]
  congr 1
  have hinj : ∀ a ∈ xs, ∀ b ∈ xs, rank a = rank b → a = b := by
    intro a ha b hb
    apply List.Pairwise.forall_of_forall_of_flip (R := fun a b => rank a = rank b → a = b)
      _ _ _ ha hb
    · exact fun _ _ _ => rfl
    · exact hxs.imp fun hlt heq => absurd heq hlt.ne
    · exact hxs.imp fun hlt heq => absurd heq hlt.ne'
  have htrans : ∀ a b c : α, before key rank a b → before key rank b c → before key rank a c := by
    intro a b c hab hbc
    simp only [before, decide_eq_true_eq] at hab hbc ⊢
    rcases hab with hab | ⟨hab, hr⟩ <;> rcases hbc with hbc | ⟨hbc, hr'⟩
    · exact .inl (hbc.trans hab)
    · exact .inl (hbc ▸ hab)
    · exact .inl (hab ▸ hbc)
    · exact .inr ⟨hbc.trans hab, hr.trans hr'⟩
  have htotal : ∀ a b : α, before key rank a b || before key rank b a := by
    intro a b
    simp only [before, Bool.or_eq_true, decide_eq_true_eq]
    rcases lt_trichotomy (key a) (key b) with hlt | heq | hlt
    · exact .inr (.inl hlt)
    · rcases Nat.le_total (rank a) (rank b) with hr | hr
      · exact .inl (.inr ⟨heq.symm, hr⟩)
      · exact .inr (.inr ⟨heq, hr⟩)
    · exact .inl (.inl hlt)
  refine (hperm.trans (List.mergeSort_perm xs _).symm).eq_of_pairwise ?_
    (hsorted.imp fun h => ?_) (List.pairwise_mergeSort htrans htotal xs)
  · intro a b ha hb hab hba
    simp only [before, decide_eq_true_eq] at hab hba
    apply hinj a (hperm.mem_iff.1 ha) b (List.mem_mergeSort.1 hb)
    rcases hab with hab | ⟨hab, hr⟩ <;> rcases hba with hba | ⟨hba, hr'⟩
    · exact absurd hab hba.not_gt
    · exact absurd hba hab.ne'
    · exact absurd hab hba.ne'
    · exact le_antisymm hr hr'
  · exact decide_eq_true (h.imp_right fun h => ⟨h.1, h.2.le⟩)

end Zllm.TopN
