import Mathlib.Data.List.AList
import Zllm.Engine.LogitFsm
import Zllm.Engine.LongestMatch
import Zllm.Lib.Loop

/-!
# Draft trees

`lookup_tree` and `tree_accept` of `engine/spec_decode.rs`. The tree is grown from a frontier, best
score first; `none` is a panic.
-/

namespace Zllm.SpecDecode

open Engine (IterOrder)

structure TreeNode where
  token : Token
  parent : Nat
  depth : Nat

structure DraftTree where
  nodes : List TreeNode

namespace DraftTree

/-- The tokens from this node up to below the root. -/
def climb (tree : DraftTree) : (fuel idx : Nat) → Option (List Token)
  | 0, _ => none
  | fuel + 1, idx =>
      if idx = 0 then some []
      else do
        let node ← tree.nodes[idx]?
        let above ← tree.climb fuel node.parent
        return node.token :: above

def pathAfterRoot (tree : DraftTree) (fuel idx : Nat) : Option (List Token) :=
  (tree.climb fuel idx).map List.reverse

end DraftTree

/-! ### Continuations -/

structure Followers where
  count : AList fun _ : Token => Nat
  lastSeen : AList fun _ : Token => Nat

/-- The token after a match is counted. Later starts overwrite earlier ones. -/
def Followers.see (haystack key : List Token) (f : Followers) (start : Nat) : Option Followers := do
  if (← slice haystack start (start + key.length)) = key then
    let nxt ← haystack[start + key.length]?
    return { count := f.count.insert nxt ((f.count.lookup nxt).getD 0 + 1),
             lastSeen := f.lastSeen.insert nxt start }
  else
    return f

/-- `0..=haystack.len() - l - 1` -/
def followers (haystack key : List Token) : Option Followers :=
  (List.range (haystack.length - key.length)).foldlM (Followers.see haystack key) ⟨∅, ∅⟩

/-- More often first, then more recently. -/
def ranksBefore (lastSeen : Token → Nat) (a b : Token × Nat) : Bool :=
  b.2 < a.2 ∨ a.2 = b.2 ∧ lastSeen b.1 ≤ lastSeen a.1

/-- The map is taken in any order. -/
def ngramContinuations (order : IterOrder (Sigma fun _ : Token => Nat)) (haystack key : List Token)
    (branch : Nat) : Option (List (Token × Nat)) :=
  if key.length = 0 ∨ haystack.length ≤ key.length ∨ branch = 0 then
    some []
  else do
    let f ← followers haystack key
    let v := (order.arrange f.count.entries).map fun e => (e.1, e.2)
    -- `last_seen[..]` panics on a token that it does not hold.
    if v.all fun c => (f.lastSeen.lookup c.1).isSome then
      return (v.mergeSort (ranksBefore fun tok => (f.lastSeen.lookup tok).getD 0)).take branch
    else none

def firstContinuations (order : IterOrder (Sigma fun _ : Token => Nat))
    (haystack recent : List Token) (branch : Nat) :
    (lengths : List Nat) → Option (List (Token × Nat))
  | [] => some []
  | len :: lengths =>
      if recent.length < len then
        firstContinuations order haystack recent branch lengths
      else do
        let key ← slice recent (recent.length - len) recent.length
        let c ← ngramContinuations order haystack key branch
        if c.isEmpty then firstContinuations order haystack recent branch lengths
        else return c

def bestContinuations (order : IterOrder (Sigma fun _ : Token => Nat))
    (haystack recent : List Token) (maxLen branch : Nat) : Option (List (Token × Nat)) :=
  firstContinuations order haystack recent branch (lookupLengths maxLen)

/-! ### Growth -/

/-- The arithmetic of scores: `1.0`, and `score * (cnt as f64 / total as f64)`. -/
structure Scoring (S : Type) where
  one : S
  share : S → (cnt total : Nat) → S

structure Growth (S : Type) where
  nodes : List TreeNode
  frontier : List (S × Nat)

/-- `max_by` keeps the last of the largest. -/
def keepLarger {S : Type} [LinearOrder S] :
    Option ((S × Nat) × Nat) → (S × Nat) × Nat → Option ((S × Nat) × Nat)
  | none, x => some x
  | some b, x => if x.1.1 < b.1.1 then some b else some x

def maxIndex {S : Type} [LinearOrder S] (frontier : List (S × Nat)) : Option Nat :=
  (frontier.zipIdx.foldl keepLarger none).map Prod.snd

/-- The inner loop over the continuations of one node. -/
def addChildren {S : Type} (scoring : Scoring S) (maxNodes : Nat) (score : S) (idx total : Nat) :
    (conts : List (Token × Nat)) → Growth S → Option (Growth S)
  | [], g => some g
  | (tok, cnt) :: conts, g =>
      if maxNodes ≤ g.nodes.length then
        some g
      else do
        let up ← g.nodes[idx]?
        addChildren scoring maxNodes score idx total conts
          { nodes := g.nodes ++ [{ token := tok, parent := idx, depth := up.depth + 1 }],
            frontier := g.frontier ++ [(scoring.share score cnt total, g.nodes.length)] }

section
variable {S : Type} [LinearOrder S]

/-- What `lookup_tree` is called with. -/
structure TreeCall (S : Type) where
  order : IterOrder (Sigma fun _ : Token => Nat)
  scoring : Scoring S
  haystack : List Token
  recent : List Token
  maxLen : Nat
  branch : Nat
  maxNodes : Nat

def expand (c : TreeCall S) (fuel : Nat) (g : Growth S) : Option (Growth S) := do
  let bi ← maxIndex g.frontier
  let best ← g.frontier[bi]?
  let path ← DraftTree.pathAfterRoot ⟨g.nodes⟩ fuel best.2
  let conts ← bestContinuations c.order c.haystack (c.recent ++ path) c.maxLen c.branch
  let total := max 1 (conts.map Prod.snd).sum
  addChildren c.scoring c.maxNodes best.1 best.2 total conts
    { g with frontier := g.frontier.eraseIdx bi }

def growStep (c : TreeCall S) (fuel : Nat) (g : Growth S) :
    Loop.Step (Growth S) (Option DraftTree) :=
  if g.nodes.length < c.maxNodes ∧ g.frontier ≠ [] then
    match expand c fuel g with
    | none => .done none
    | some g' => .more g'
  else
    .done (some ⟨g.nodes⟩)

def lookupTree (c : TreeCall S) (fuel : Nat) : Option DraftTree :=
  match c.recent.getLast? with
  | none => some ⟨[]⟩
  | some rootTok =>
      let root : TreeNode := { token := rootTok, parent := 0, depth := 0 }
      if c.maxNodes ≤ 1 ∨ c.branch = 0 then
        some ⟨[root]⟩
      else
        (Loop.run (growStep c fuel) fuel
          { nodes := [root], frontier := [(c.scoring.one, 0)] }).join

end

/-! ### Acceptance -/

/-- The first child of `cur` with this token. -/
def findChild (tree : DraftTree) (cur : Nat) (want : Token) : Option Nat :=
  (tree.nodes.zipIdx.find? fun x => x.2 ≠ 0 ∧ x.1.parent = cur ∧ x.1.token = want).map Prod.snd

def acceptFrom (tree : DraftTree) (cur acc : Nat) : (target : List Token) → Nat
  | [] => acc
  | want :: target =>
      match findChild tree cur want with
      | some i => acceptFrom tree i (acc + 1) target
      | none => acc

def treeAccept (tree : DraftTree) (target : List Token) : Nat :=
  if tree.nodes.isEmpty then 0 else acceptFrom tree 0 0 target

end Zllm.SpecDecode
