import Zllm.Basic

/-!
# Prompt-lookup drafting

`lookup_draft` and `lookup_draft_best` of `engine/spec_decode.rs`.
-/

namespace Zllm.SpecDecode

/-- The scan of `lookup_draft` over start positions `starts - 1, …, 0`. -/
def scanBackwards (haystack key : List Token) (k : Nat) : (starts : Nat) → Option (List Token)
  | 0 => none
  | start + 1 =>
      if (haystack.drop start).take key.length = key then
        let after := start + key.length
        let take := min k (haystack.length - after)
        if take = 0 then scanBackwards haystack key k start
        else some ((haystack.drop after).take take)
      else
        scanBackwards haystack key k start

def lookupDraft (haystack recent : List Token) (lookupLen k : Nat) : Option (List Token) :=
  if recent.length < lookupLen ∨ haystack.length < lookupLen + 1 ∨ k = 0 then
    none
  else
    scanBackwards haystack (recent.drop (recent.length - lookupLen)) k
      (haystack.length - lookupLen)

/-- The lengths `lookup_draft_best` tries, longest first: `(2..=max_len.max(2)).rev()`. -/
def lookupLengths (maxLen : Nat) : List Nat :=
  (List.range' 2 (max maxLen 2 - 1)).reverse

def lookupDraftBest (haystack recent : List Token) (maxLen k : Nat) : Option (List Token) :=
  (lookupLengths maxLen).findSome? fun len => lookupDraft haystack recent len k

theorem length_scanBackwards {haystack key draft : List Token} {k starts : Nat}
    (hdraft : scanBackwards haystack key k starts = some draft) : draft.length ≤ k := by
  induction starts with
  | zero => cases hdraft
  | succ start ih =>
      simp only [scanBackwards] at hdraft
      split at hdraft
      case isFalse => exact ih hdraft
      case isTrue =>
        split at hdraft
        case isTrue => exact ih hdraft
        case isFalse =>
          obtain rfl := by simpa using hdraft
          rw [List.length_take]
          exact (Nat.min_le_left _ _).trans (Nat.min_le_left _ _)

/-- A draft is never longer than asked for. -/
theorem length_lookupDraftBest {haystack recent draft : List Token} {maxLen k : Nat}
    (hdraft : lookupDraftBest haystack recent maxLen k = some draft) : draft.length ≤ k := by
  obtain ⟨len, -, hlookup⟩ := List.exists_of_findSome?_eq_some hdraft
  unfold lookupDraft at hlookup
  split at hlookup
  case isTrue => cases hlookup
  case isFalse => exact length_scanBackwards hlookup

end Zllm.SpecDecode
