import Mathlib.Data.Option.Basic
import Zllm.Engine.PromptLookup

/-!
# The draft is the longest, most recent match

What `lookup_draft_best` returns, in terms of where the suffixes of the recent tokens occur; no slice
that it takes is out of range.
-/

namespace Zllm.SpecDecode

/-! ### Occurrences -/

/-- The key stands at this position, and at least one token follows it. -/
def OccursAt (haystack key : List Token) (p : Nat) : Prop :=
  p + key.length < haystack.length ∧ (haystack.drop p).take key.length = key

/-- The last `len` tokens. -/
def suffix (recent : List Token) (len : Nat) : List Token :=
  recent.drop (recent.length - len)

structure Matches (haystack recent : List Token) (maxLen len p : Nat) : Prop where
  two_le : 2 ≤ len
  le_max : len ≤ max 2 maxLen
  le_recent : len ≤ recent.length
  occurs : OccursAt haystack (suffix recent len) p

/-- No longer suffix occurs, and this one not later. -/
structure LongestLatest (haystack recent : List Token) (maxLen len p : Nat) : Prop where
  matched : Matches haystack recent maxLen len p
  longest : ∀ len' p', Matches haystack recent maxLen len' p' → len' ≤ len
  latest : ∀ p', Matches haystack recent maxLen len p' → p' ≤ p

section
variable {haystack recent key draft : List Token} {maxLen len k p : Nat}

theorem length_suffix (hlen : len ≤ recent.length) : (suffix recent len).length = len := by
  rw [suffix, List.length_drop]
  omega

theorem LongestLatest.unique {len' p' : Nat}
    (hbest : LongestLatest haystack recent maxLen len p)
    (hbest' : LongestLatest haystack recent maxLen len' p') : len = len' ∧ p = p' := by
  have hlen : len = len' :=
    le_antisymm (hbest'.longest _ _ hbest.matched) (hbest.longest _ _ hbest'.matched)
  subst hlen
  exact ⟨rfl, le_antisymm (hbest'.latest _ hbest.matched) (hbest.latest _ hbest'.matched)⟩

/-! ### One length -/

theorem scanBackwards_eq_none (hk : 1 ≤ k) {starts : Nat}
    (hscan : scanBackwards haystack key k starts = none) (hp : p < starts) :
    ¬OccursAt haystack key p := by
  induction starts with
  | zero => omega
  | succ start ih =>
    simp only [scanBackwards] at hscan
    rintro ⟨hroom, hkey⟩
    rcases Nat.lt_succ_iff_lt_or_eq.1 hp with hlt | rfl
    · split_ifs at hscan
      · exact ih hscan hlt ⟨hroom, hkey⟩
      · exact ih hscan hlt ⟨hroom, hkey⟩
    · rw [if_pos hkey, if_neg (by omega)] at hscan
      cases hscan

theorem scanBackwards_eq_some (hk : 1 ≤ k) {starts : Nat}
    (hscan : scanBackwards haystack key k starts = some draft) :
    ∃ p, OccursAt haystack key p ∧ (∀ q < starts, OccursAt haystack key q → q ≤ p) ∧
      draft = (haystack.drop (p + key.length)).take k := by
  induction starts with
  | zero => cases hscan
  | succ start ih =>
    -- A start that is passed over is no occurrence.
    have hpass : ¬OccursAt haystack key start →
        scanBackwards haystack key k start = some draft →
        ∃ p, OccursAt haystack key p ∧ (∀ q < start + 1, OccursAt haystack key q → q ≤ p) ∧
          draft = (haystack.drop (p + key.length)).take k := by
      intro hno hrest
      obtain ⟨p, hoccurs, hlatest, hdraft⟩ := ih hrest
      refine ⟨p, hoccurs, ?_, hdraft⟩
      intro q hq hq'
      rcases Nat.lt_succ_iff_lt_or_eq.1 hq with hlt | rfl
      · exact hlatest q hlt hq'
      · exact absurd hq' hno
    simp only [scanBackwards] at hscan
    split_ifs at hscan with hkey htake
    · apply hpass _ hscan
      rintro ⟨hroom, -⟩
      omega
    · have hroom : start + key.length < haystack.length := by omega
      refine ⟨start, ⟨hroom, hkey⟩, fun q hq _ => by omega, ?_⟩
      rw [← Option.some.inj hscan, ← List.length_drop, List.take_eq_take_iff]
      simp
    · apply hpass _ hscan
      rintro ⟨-, hkey'⟩
      exact hkey hkey'

/-- Occurrences stand in the range that the scan covers. -/
theorem OccursAt.lt_starts (hoccurs : OccursAt haystack key p) :
    p < haystack.length - key.length := by
  have hroom := hoccurs.1
  omega

theorem lookupDraft_eq_none (hk : 1 ≤ k) (hlen : len ≤ recent.length)
    (hnone : lookupDraft haystack recent len k = none) :
    ¬OccursAt haystack (suffix recent len) p := by
  intro hoccurs
  have hroom := hoccurs.1
  have hstarts := hoccurs.lt_starts
  rw [length_suffix hlen] at hroom hstarts
  rw [lookupDraft, if_neg (by omega)] at hnone
  exact scanBackwards_eq_none hk hnone hstarts hoccurs

theorem lookupDraft_eq_some (hk : 1 ≤ k) (hsome : lookupDraft haystack recent len k = some draft) :
    len ≤ recent.length ∧ ∃ p, OccursAt haystack (suffix recent len) p ∧
      (∀ q, OccursAt haystack (suffix recent len) q → q ≤ p) ∧
      draft = (haystack.drop (p + len)).take k := by
  unfold lookupDraft at hsome
  split_ifs at hsome with hshort
  have hlen : len ≤ recent.length := by omega
  obtain ⟨p, hoccurs, hlatest, hdraft⟩ := scanBackwards_eq_some hk hsome
  rw [← suffix] at hoccurs hlatest hdraft
  rw [length_suffix hlen] at hdraft
  refine ⟨hlen, p, hoccurs, fun q hq => ?_, hdraft⟩
  apply hlatest q _ hq
  have hstarts := hq.lt_starts
  rwa [length_suffix hlen] at hstarts

/-! ### All lengths -/

theorem mem_lookupLengths : len ∈ lookupLengths maxLen ↔ 2 ≤ len ∧ len ≤ max 2 maxLen := by
  simp only [lookupLengths, List.mem_reverse, List.mem_range'_1]
  omega

theorem lookupLengths_descend (maxLen : Nat) :
    (lookupLengths maxLen).Pairwise (fun a b => b < a) := by
  rw [lookupLengths, List.pairwise_reverse]
  exact List.pairwise_lt_range'

theorem Matches.isSome_lookupDraft (hk : 1 ≤ k)
    (hmatch : Matches haystack recent maxLen len p) :
    (lookupDraft haystack recent len k).isSome := by
  rw [Option.isSome_iff_ne_none]
  intro hnone
  exact lookupDraft_eq_none hk hmatch.le_recent hnone hmatch.occurs

theorem lookupDraftBest_eq_some (hk : 1 ≤ k)
    (hsome : lookupDraftBest haystack recent maxLen k = some draft) :
    ∃ len p, LongestLatest haystack recent maxLen len p ∧
      draft = (haystack.drop (p + len)).take k := by
  obtain ⟨longer, len, shorter, hlengths, hdraft, hlonger⟩ :=
    List.findSome?_eq_some_iff.1 hsome
  obtain ⟨hrecent, p, hoccurs, hlatest, hafter⟩ := lookupDraft_eq_some hk hdraft
  have hmem := mem_lookupLengths.1 (show len ∈ lookupLengths maxLen by simp [hlengths])
  refine ⟨len, p, ⟨⟨hmem.1, hmem.2, hrecent, hoccurs⟩, ?_, ?_⟩, hafter⟩
  · intro len' p' hmatch
    have hmem' : len' ∈ longer ++ len :: shorter :=
      hlengths ▸ mem_lookupLengths.2 ⟨hmatch.two_le, hmatch.le_max⟩
    have hdescend := hlengths ▸ lookupLengths_descend maxLen
    rcases List.mem_append.1 hmem' with hin | hin
    · have hisSome := hmatch.isSome_lookupDraft hk
      rw [hlonger len' hin] at hisSome
      cases hisSome
    · rcases List.mem_cons.1 hin with rfl | hshorter
      · exact le_rfl
      · have hcons := (List.pairwise_append.1 hdescend).2.1
        exact le_of_lt (List.rel_of_pairwise_cons hcons hshorter)
  · exact fun p' hmatch => hlatest p' hmatch.occurs

theorem Matches.isSome_lookupDraftBest (hk : 1 ≤ k)
    (hmatch : Matches haystack recent maxLen len p) :
    (lookupDraftBest haystack recent maxLen k).isSome := by
  rw [lookupDraftBest, List.findSome?_isSome_iff]
  exact ⟨len, mem_lookupLengths.2 ⟨hmatch.two_le, hmatch.le_max⟩, hmatch.isSome_lookupDraft hk⟩

end

/-! ### Indexing

The same two functions with every subtraction and slice checked. `none` is a panic.
-/

def checkedSub (a b : Nat) : Option Nat :=
  if b ≤ a then some (a - b) else none

/-- `list[lo..hi]` -/
def slice (list : List Token) (lo hi : Nat) : Option (List Token) :=
  if lo ≤ hi ∧ hi ≤ list.length then some ((list.drop lo).take (hi - lo)) else none

def scanIndexed (haystack key : List Token) (lookupLen k : Nat) :
    (starts : Nat) → Option (Option (List Token))
  | 0 => some none
  | start + 1 => do
      if (← slice haystack start (start + lookupLen)) = key then
        let after := start + lookupLen
        let take := min k (← checkedSub haystack.length after)
        if take = 0 then scanIndexed haystack key lookupLen k start
        else return some (← slice haystack after (after + take))
      else
        scanIndexed haystack key lookupLen k start

def lookupDraftIndexed (haystack recent : List Token) (lookupLen k : Nat) :
    Option (Option (List Token)) :=
  if recent.length < lookupLen ∨ haystack.length < lookupLen + 1 ∨ k = 0 then
    some none
  else do
    let key ← slice recent (← checkedSub recent.length lookupLen) recent.length
    scanIndexed haystack key lookupLen k (haystack.length - lookupLen)

def bestIndexed (haystack recent : List Token) (k : Nat) :
    (lengths : List Nat) → Option (Option (List Token))
  | [] => some none
  | len :: lengths => do
      match ← lookupDraftIndexed haystack recent len k with
      | some draft => return some draft
      | none => bestIndexed haystack recent k lengths

def lookupDraftBestIndexed (haystack recent : List Token) (maxLen k : Nat) :
    Option (Option (List Token)) :=
  bestIndexed haystack recent k (lookupLengths maxLen)

section
variable {haystack recent key : List Token} {len k starts : Nat}

theorem checkedSub_of_le {a b : Nat} (hle : b ≤ a) : checkedSub a b = some (a - b) :=
  if_pos hle

theorem slice_add (list : List Token) (lo n : Nat) (hroom : lo + n ≤ list.length) :
    slice list lo (lo + n) = some ((list.drop lo).take n) := by
  rw [slice, if_pos (by omega), Nat.add_sub_cancel_left]

theorem scanIndexed_eq (hkey : key.length = len) (hroom : starts + len ≤ haystack.length) :
    scanIndexed haystack key len k starts = some (scanBackwards haystack key k starts) := by
  induction starts with
  | zero => rfl
  | succ start ih =>
    subst hkey
    have hrest := ih (by omega)
    have hsub := checkedSub_of_le (show start + key.length ≤ haystack.length by omega)
    have hkey := slice_add haystack start key.length (by omega)
    have htaken := slice_add haystack (start + key.length)
      (min k (haystack.length - (start + key.length))) (by omega)
    simp only [scanIndexed, scanBackwards, hkey, hsub, Option.bind_eq_bind, Option.bind_some, hrest,
      htaken]
    split_ifs <;> rfl

theorem lookupDraftIndexed_eq :
    lookupDraftIndexed haystack recent len k = some (lookupDraft haystack recent len k) := by
  unfold lookupDraftIndexed lookupDraft
  split_ifs with hshort
  · rfl
  · have hlen : len ≤ recent.length := by omega
    have hslice := slice_add recent (recent.length - len) len (by omega)
    rw [Nat.sub_add_cancel hlen] at hslice
    have hkey : (suffix recent len).length = len := length_suffix hlen
    rw [checkedSub_of_le hlen, Option.bind_eq_bind, Option.bind_some, hslice,
      Option.bind_eq_bind, Option.bind_some, ← suffix, List.take_of_length_le hkey.le]
    exact scanIndexed_eq hkey (by omega)

theorem bestIndexed_eq (lengths : List Nat) :
    bestIndexed haystack recent k lengths =
      some (lengths.findSome? fun len => lookupDraft haystack recent len k) := by
  induction lengths with
  | nil => rfl
  | cons len lengths ih =>
    rw [bestIndexed, lookupDraftIndexed_eq, Option.bind_eq_bind, Option.bind_some,
      List.findSome?_cons]
    cases lookupDraft haystack recent len k with
    | none => exact ih
    | some draft => rfl

end

/-- A draft is what follows the latest occurrence of the longest suffix that occurs. -/
theorem lookupDraftBest_iff_longestLatest (haystack recent : List Token) (maxLen k : Nat)
    (hk : 1 ≤ k) :
    ((lookupDraftBest haystack recent maxLen k).isSome ↔
      ∃ len p, Matches haystack recent maxLen len p) ∧
    (∀ draft, lookupDraftBest haystack recent maxLen k = some draft ↔
      ∃ len p, LongestLatest haystack recent maxLen len p ∧
        draft = (haystack.drop (p + len)).take k) ∧
    lookupDraftBestIndexed haystack recent maxLen k =
      some (lookupDraftBest haystack recent maxLen k) := by
  refine ⟨⟨?_, ?_⟩, fun draft => ⟨lookupDraftBest_eq_some hk, ?_⟩, bestIndexed_eq _⟩
  · intro hisSome
    obtain ⟨draft, hdraft⟩ := Option.isSome_iff_exists.1 hisSome
    obtain ⟨len, p, hbest, -⟩ := lookupDraftBest_eq_some hk hdraft
    exact ⟨len, p, hbest.matched⟩
  · rintro ⟨len, p, hmatch⟩
    exact hmatch.isSome_lookupDraftBest hk
  · rintro ⟨len, p, hbest, rfl⟩
    obtain ⟨draft, hdraft⟩ :=
      Option.isSome_iff_exists.1 (hbest.matched.isSome_lookupDraftBest hk)
    obtain ⟨len', p', hbest', rfl⟩ := lookupDraftBest_eq_some hk hdraft
    obtain ⟨rfl, rfl⟩ := hbest.unique hbest'
    exact hdraft

/-- Of the two occurrences of `[2, 3]` the later one is followed. -/
theorem lookupDraftBest_of_two_occurrences :
    ∃ len p, LongestLatest [2, 3, 9, 2, 3, 7, 8] [5, 2, 3] 3 len p ∧
      [7] = ([2, 3, 9, 2, 3, 7, 8].drop (p + len)).take 1 :=
  ((lookupDraftBest_iff_longestLatest [2, 3, 9, 2, 3, 7, 8] [5, 2, 3] 3 1 (by decide)).2.1 [7]).1
    (by decide)

end Zllm.SpecDecode
