import Mathlib.Algebra.Order.Ring.Rat
import Zllm.Engine.DraftTree

/-!
# Draft trees are well formed and followed as far as possible

What growth keeps of a tree, and why the first child with the wanted token is the only one.
-/

namespace Zllm.SpecDecode

open Engine (IterOrder)

/-! ### Well-formed trees -/

structure DraftTree.WellFormed (tree : DraftTree) : Prop where
  parent_lt : ∀ i node, tree.nodes[i]? = some node → i ≠ 0 → node.parent < i
  depth_eq : ∀ i node up, tree.nodes[i]? = some node → i ≠ 0 →
    tree.nodes[node.parent]? = some up → node.depth = up.depth + 1
  siblings : ∀ i j node node', tree.nodes[i]? = some node → i ≠ 0 →
    tree.nodes[j]? = some node' → j ≠ 0 →
    node.parent = node'.parent → node.token = node'.token → i = j

/-- A path from below this node carries these tokens. -/
def DraftTree.Labels (tree : DraftTree) : (cur : Nat) → List Token → Prop
  | _, [] => True
  | cur, want :: rest => ∃ i node, tree.nodes[i]? = some node ∧ i ≠ 0 ∧
      node.parent = cur ∧ node.token = want ∧ tree.Labels i rest

theorem DraftTree.WellFormed.exists_path {tree : DraftTree} (htree : tree.WellFormed) {fuel : Nat} :
    ∀ {idx : Nat}, idx < tree.nodes.length → idx < fuel →
      ∃ path, tree.pathAfterRoot fuel idx = some path := by
  simp only [pathAfterRoot, Option.map_eq_some_iff]
  suffices hclimb : ∀ idx, idx < tree.nodes.length → idx < fuel →
      ∃ path, tree.climb fuel idx = some path by
    intro idx hidx hfuel
    obtain ⟨path, hpath⟩ := hclimb idx hidx hfuel
    exact ⟨path.reverse, path, hpath, rfl⟩
  induction fuel with
  | zero => intro idx _ hfuel; omega
  | succ fuel ih =>
    intro idx hidx hfuel
    by_cases hroot : idx = 0
    · exact ⟨[], by rw [climb, if_pos hroot]⟩
    · have hnode := List.getElem?_eq_getElem hidx
      have hparent := htree.parent_lt idx _ hnode hroot
      obtain ⟨above, habove⟩ := ih _ (by omega) (show tree.nodes[idx].parent < fuel by omega)
      exact ⟨tree.nodes[idx].token :: above, by simp [climb, hroot, hnode, habove]⟩

/-! ### Continuations carry distinct tokens -/

/-- A scan that goes on from every state it meets goes to the end. -/
theorem foldlM_isSome {α β : Type} {step : β → α → Option β} {P : β → Prop} {list : List α}
    (hstep : ∀ b, ∀ a ∈ list, P b → ∃ b', step b a = some b' ∧ P b') {b : β} (hb : P b) :
    ∃ b', list.foldlM step b = some b' ∧ P b' := by
  induction list generalizing b with
  | nil => exact ⟨b, rfl, hb⟩
  | cons a list ih =>
    obtain ⟨b', hb', hP⟩ := hstep b a List.mem_cons_self hb
    obtain ⟨b'', hb'', hP'⟩ := ih (fun b a ha => hstep b a (List.mem_cons_of_mem _ ha)) hP
    exact ⟨b'', by simpa [List.foldlM_cons, hb'] using hb'', hP'⟩

structure Followers.Sound (haystack key : List Token) (f : Followers) : Prop where
  seen : ∀ tok, tok ∈ f.count → tok ∈ f.lastSeen
  after : ∀ tok start, f.lastSeen.lookup tok = some start →
    haystack[start + key.length]? = some tok

section
variable {haystack key : List Token} {f : Followers}

theorem Followers.Sound.exists_see (hf : f.Sound haystack key) {start : Nat}
    (hstart : start + key.length < haystack.length) :
    ∃ f', f.see haystack key start = some f' ∧ f'.Sound haystack key := by
  have hslice := slice_add haystack start key.length hstart.le
  have hnxt := List.getElem?_eq_getElem hstart
  by_cases hkey : (haystack.drop start).take key.length = key
  · refine ⟨_, by simp [see, hslice, hkey, hnxt]; rfl, ?_, ?_⟩
    · intro tok htok
      rw [AList.mem_insert] at htok ⊢
      exact htok.imp_right (hf.seen tok)
    · intro tok start' hlookup
      rcases eq_or_ne tok haystack[start + key.length] with rfl | hne
      · rw [AList.lookup_insert, Option.some.injEq] at hlookup
        rw [← hlookup, hnxt]
      · rw [AList.lookup_insert_ne hne] at hlookup
        exact hf.after tok start' hlookup
  · exact ⟨f, by simp [see, hslice, hkey], hf⟩

theorem exists_followers (haystack key : List Token) :
    ∃ f, followers haystack key = some f ∧ f.Sound haystack key := by
  apply foldlM_isSome
  · intro f start hmem hf
    have hstart := List.mem_range.1 hmem
    exact hf.exists_see (by omega)
  · constructor
    · intro tok htok
      exact absurd htok (AList.notMem_empty tok)
    · intro tok start hlookup
      rw [AList.lookup_empty] at hlookup
      cases hlookup

variable {order : IterOrder (Sigma fun _ : Token => Nat)} {recent : List Token} {branch : Nat}

/-- The counted tokens, in any order of the map. -/
theorem map_fst_arrange (order : IterOrder (Sigma fun _ : Token => Nat)) (f : Followers) :
    (((order.arrange f.count.entries).map fun e => (e.1, e.2)).map Prod.fst).Perm f.count.keys := by
  rw [List.map_map]
  exact (order.perm _).map _

theorem Followers.Sound.isSome_lastSeen (hf : f.Sound haystack key) {c : Token × Nat}
    (hc : c ∈ (order.arrange f.count.entries).map fun e => (e.1, e.2)) :
    (f.lastSeen.lookup c.1).isSome := by
  have hkey := (map_fst_arrange order f).mem_iff.1 (List.mem_map_of_mem hc)
  exact AList.lookup_isSome.2 (hf.seen _ (AList.mem_keys.2 hkey))

theorem Followers.Sound.all_seen (hf : f.Sound haystack key)
    (order : IterOrder (Sigma fun _ : Token => Nat)) :
    (((order.arrange f.count.entries).map fun e => (e.1, e.2)).all
      fun c => (f.lastSeen.lookup c.1).isSome) = true :=
  List.all_eq_true.2 fun _ hc => hf.isSome_lastSeen hc

theorem exists_ngramContinuations (order : IterOrder (Sigma fun _ : Token => Nat))
    (haystack key : List Token) (branch : Nat) :
    ∃ c, ngramContinuations order haystack key branch = some c ∧ (c.map Prod.fst).Nodup := by
  unfold ngramContinuations
  split_ifs with hnothing
  · exact ⟨[], rfl, List.nodup_nil⟩
  · obtain ⟨f, hf, hsound⟩ := exists_followers haystack key
    set v := (order.arrange f.count.entries).map fun e => (e.1, e.2) with hv
    have hkeys : (v.map Prod.fst).Perm f.count.keys := map_fst_arrange order f
    have hall := hsound.all_seen order
    rw [← hv] at hall
    simp only [hf, Option.bind_eq_bind, Option.bind_some, ← hv, hall, if_true]
    refine ⟨_, rfl, ?_⟩
    apply List.Nodup.sublist ((List.take_sublist _ _).map _)
    apply ((List.mergeSort_perm v _).map Prod.fst).nodup_iff.2
    exact hkeys.nodup_iff.2 f.count.nodupKeys

/-- The followers of one key were last seen in different places, so no two of them are level. -/
theorem Followers.Sound.ranksBefore_antisymm (hf : f.Sound haystack key) {a b : Token × Nat}
    (ha : a ∈ (order.arrange f.count.entries).map fun e => (e.1, e.2))
    (hb : b ∈ (order.arrange f.count.entries).map fun e => (e.1, e.2))
    (hab : ranksBefore (fun tok => (f.lastSeen.lookup tok).getD 0) a b)
    (hba : ranksBefore (fun tok => (f.lastSeen.lookup tok).getD 0) b a) : a = b := by
  obtain ⟨p, hp⟩ := Option.isSome_iff_exists.1 (hf.isSome_lastSeen ha)
  obtain ⟨q, hq⟩ := Option.isSome_iff_exists.1 (hf.isSome_lastSeen hb)
  simp only [ranksBefore, decide_eq_true_eq, hp, hq, Option.getD_some] at hab hba
  have hcount : a.2 = b.2 := by omega
  obtain rfl : p = q := by omega
  have htok : a.1 = b.1 := Option.some.inj ((hf.after _ _ hp).symm.trans (hf.after _ _ hq))
  exact Prod.ext htok hcount

theorem mergeSort_eq_of_perm {α : Type} {list list' : List α} (le : α → α → Bool)
    (htrans : ∀ a b c, le a b → le b c → le a c) (htotal : ∀ a b, le a b || le b a)
    (hanti : ∀ a ∈ list, ∀ b ∈ list, le a b → le b a → a = b) (hperm : list.Perm list') :
    list.mergeSort le = list'.mergeSort le := by
  have hsorted := ((List.mergeSort_perm list le).trans hperm).trans
    (List.mergeSort_perm list' le).symm
  refine hsorted.eq_of_pairwise ?_ (List.pairwise_mergeSort htrans htotal _)
    (List.pairwise_mergeSort htrans htotal _)
  intro a b ha hb
  exact hanti a (List.mem_mergeSort.1 ha) b (hperm.mem_iff.2 (List.mem_mergeSort.1 hb))

/-- The ranking hides the order of the map. -/
theorem ngramContinuations_order (order order' : IterOrder (Sigma fun _ : Token => Nat))
    (haystack key : List Token) (branch : Nat) :
    ngramContinuations order haystack key branch =
      ngramContinuations order' haystack key branch := by
  obtain ⟨f, hf, hsound⟩ := exists_followers haystack key
  have hperm : ((order.arrange f.count.entries).map fun e => (e.1, e.2)).Perm
      ((order'.arrange f.count.entries).map fun e => (e.1, e.2)) :=
    ((order.perm _).trans (order'.perm _).symm).map _
  have hsort := mergeSort_eq_of_perm
    (ranksBefore fun tok => (f.lastSeen.lookup tok).getD 0) ?_ ?_
    (fun a ha b hb => hsound.ranksBefore_antisymm ha hb) hperm
  · simp only [ngramContinuations, hf, Option.bind_eq_bind, Option.bind_some,
      hsound.all_seen order, hsound.all_seen order', if_true, hsort]
  · intro a b c hab hbc
    simp only [ranksBefore, decide_eq_true_eq] at hab hbc ⊢
    omega
  · intro a b
    simp only [ranksBefore, Bool.or_eq_true, decide_eq_true_eq]
    omega

theorem exists_firstContinuations (order : IterOrder (Sigma fun _ : Token => Nat))
    (haystack recent : List Token) (branch : Nat) (lengths : List Nat) :
    ∃ c, firstContinuations order haystack recent branch lengths = some c ∧
      (c.map Prod.fst).Nodup := by
  induction lengths with
  | nil => exact ⟨[], rfl, List.nodup_nil⟩
  | cons len lengths ih =>
    unfold firstContinuations
    split_ifs with hshort
    · exact ih
    · have hslice := slice_add recent (recent.length - len) len (by omega)
      rw [Nat.sub_add_cancel (by omega)] at hslice
      obtain ⟨c, hc, hnodup⟩ := exists_ngramContinuations order haystack
        ((recent.drop (recent.length - len)).take len) branch
      simp only [hslice, Option.bind_eq_bind, Option.bind_some, hc]
      split_ifs
      · exact ih
      · exact ⟨c, rfl, hnodup⟩

end

/-! ### Growth -/

section
variable {S : Type}

structure Growth.Sound (root : Token) (maxNodes : Nat) (g : Growth S) : Prop where
  wellFormed : DraftTree.WellFormed ⟨g.nodes⟩
  rooted : g.nodes[0]? = some { token := root, parent := 0, depth := 0 }
  room : g.nodes.length ≤ maxNodes
  distinct : (g.frontier.map Prod.snd).Nodup
  inside : ∀ i ∈ g.frontier.map Prod.snd, i < g.nodes.length
  /-- A node of the frontier has no children yet. -/
  leaf : ∀ i ∈ g.frontier.map Prod.snd, ∀ j node, g.nodes[j]? = some node → j ≠ 0 →
    node.parent ≠ i

variable {root tok : Token} {maxNodes idx : Nat} {g : Growth S} {scoring : Scoring S}

theorem getElem?_append_singleton {α : Type} {list : List α} {a b : α} {i : Nat}
    (hget : (list ++ [a])[i]? = some b) :
    (i < list.length ∧ list[i]? = some b) ∨ (i = list.length ∧ a = b) := by
  rw [List.getElem?_append] at hget
  split_ifs at hget with hlt
  · exact .inl ⟨hlt, hget⟩
  · have hi : i = list.length := by
      by_contra hne
      rw [List.getElem?_eq_none (by rw [List.length_singleton]; omega)] at hget
      cases hget
    subst hi
    exact .inr ⟨rfl, by simpa using hget⟩

/-- One more child of a node that is off the frontier, with a token of its own. -/
theorem DraftTree.WellFormed.push {nodes : List TreeNode} {up : TreeNode}
    (htree : DraftTree.WellFormed ⟨nodes⟩) (hup : nodes[idx]? = some up)
    (hfresh : ∀ j node, nodes[j]? = some node → j ≠ 0 → node.parent = idx → node.token ≠ tok) :
    DraftTree.WellFormed ⟨nodes ++ [{ token := tok, parent := idx, depth := up.depth + 1 }]⟩ := by
  have hidx : idx < nodes.length := (List.getElem?_eq_some_iff.1 hup).1
  constructor
  · intro i node hnode hi
    rcases getElem?_append_singleton hnode with ⟨-, hold⟩ | ⟨rfl, rfl⟩
    · exact htree.parent_lt i node hold hi
    · exact hidx
  · intro i node up' hnode hi hup'
    rcases getElem?_append_singleton hnode with ⟨hlt, hold⟩ | ⟨rfl, rfl⟩
    · have hparent := htree.parent_lt i node hold hi
      rw [List.getElem?_append_left (by omega)] at hup'
      exact htree.depth_eq i node up' hold hi hup'
    · rw [List.getElem?_append_left hidx, hup, Option.some.injEq] at hup'
      rw [hup']
  · intro i j node node' hnode hi hnode' hj hparent htoken
    rcases getElem?_append_singleton hnode with ⟨-, hold⟩ | ⟨rfl, rfl⟩ <;>
      rcases getElem?_append_singleton hnode' with ⟨-, hold'⟩ | ⟨rfl, rfl⟩
    · exact htree.siblings i j node node' hold hi hold' hj hparent htoken
    · exact absurd htoken (hfresh i node hold hi hparent)
    · exact absurd htoken.symm (hfresh j node' hold' hj hparent.symm)
    · rfl

/-- The inner loop: the node is off the frontier, and what is still to come is not yet a child. -/
theorem Growth.Sound.exists_addChildren {score : S} {total : Nat} {conts : List (Token × Nat)}
    (hg : g.Sound root maxNodes) (hidx : idx < g.nodes.length)
    (hoff : idx ∉ g.frontier.map Prod.snd) (hconts : (conts.map Prod.fst).Nodup)
    (hfresh : ∀ j node, g.nodes[j]? = some node → j ≠ 0 → node.parent = idx →
      node.token ∉ conts.map Prod.fst) :
    ∃ g', addChildren scoring maxNodes score idx total conts g = some g' ∧
      g'.Sound root maxNodes := by
  induction conts generalizing g with
  | nil => exact ⟨g, rfl, hg⟩
  | cons c conts ih =>
    obtain ⟨tok, cnt⟩ := c
    unfold addChildren
    split_ifs with hfull
    · exact ⟨g, rfl, hg⟩
    · have hup := List.getElem?_eq_getElem hidx
      simp only [hup, Option.bind_eq_bind, Option.bind_some]
      rw [List.map_cons, List.nodup_cons] at hconts
      have hmem : ∀ {i}, i ∈ (g.frontier ++ [(scoring.share score cnt total, g.nodes.length)]).map
          Prod.snd ↔ i ∈ g.frontier.map Prod.snd ∨ i = g.nodes.length := by
        simp
      have hnew : g.nodes.length ∉ g.frontier.map Prod.snd :=
        fun hin => absurd (hg.inside _ hin) (lt_irrefl _)
      apply ih
      · constructor
        · apply hg.wellFormed.push hup
          intro j node hnode hj hparent htoken
          exact hfresh j node hnode hj hparent (htoken ▸ List.mem_cons_self)
        · rw [List.getElem?_append_left (by omega)]
          exact hg.rooted
        · rw [List.length_append, List.length_singleton]
          omega
        · rw [List.map_append]
          exact hg.distinct.append (List.nodup_singleton _) (by simpa using hnew)
        · intro i hi
          rw [List.length_append, List.length_singleton]
          rcases hmem.1 hi with hold | rfl
          · exact Nat.lt_succ_of_lt (hg.inside i hold)
          · exact Nat.lt_succ_self _
        · intro i hi j node hnode hj
          rcases getElem?_append_singleton hnode with ⟨hlt, hold⟩ | ⟨rfl, rfl⟩
          · rcases hmem.1 hi with hin | rfl
            · exact hg.leaf i hin j node hold hj
            · have hparent := hg.wellFormed.parent_lt j node hold hj
              omega
          · rcases hmem.1 hi with hin | rfl
            · rintro rfl
              exact hoff hin
            · exact hidx.ne
      · rw [List.length_append]
        omega
      · rw [hmem, not_or]
        exact ⟨hoff, hidx.ne⟩
      · exact hconts.2
      · intro j node hnode hj hparent
        rcases getElem?_append_singleton hnode with ⟨-, hold⟩ | ⟨rfl, rfl⟩
        · exact fun hin => hfresh j node hold hj hparent (List.mem_cons_of_mem _ hin)
        · exact hconts.1

/-! ### The loop ends -/

/-- Every child costs two and puts one node on the frontier. -/
def Growth.rank (maxNodes : Nat) (g : Growth S) : Nat :=
  2 * (maxNodes - g.nodes.length) + g.frontier.length

theorem rank_addChildren {score : S} {total : Nat} {conts : List (Token × Nat)} {g' : Growth S}
    (hadd : addChildren scoring maxNodes score idx total conts g = some g') :
    g'.rank maxNodes ≤ g.rank maxNodes := by
  induction conts generalizing g with
  | nil => exact (Option.some.inj hadd) ▸ le_rfl
  | cons c conts ih =>
    obtain ⟨tok, cnt⟩ := c
    unfold addChildren at hadd
    split_ifs at hadd with hfull
    · exact (Option.some.inj hadd) ▸ le_rfl
    · obtain ⟨up, -, hrest⟩ := Option.bind_eq_some_iff.1 hadd
      have hle := ih hrest
      simp only [Growth.rank, List.length_append, List.length_singleton] at hle ⊢
      omega

theorem Growth.Sound.start (root : Token) (score : S) (hroom : 1 ≤ maxNodes) :
    Growth.Sound root maxNodes
      { nodes := [{ token := root, parent := 0, depth := 0 }], frontier := [(score, 0)] } := by
  have honly : ∀ {i : Nat} {node : TreeNode},
      [{ token := root, parent := 0, depth := 0 : TreeNode }][i]? = some node → i = 0 := by
    intro i node hnode
    have hlt := (List.getElem?_eq_some_iff.1 hnode).1
    rw [List.length_singleton] at hlt
    omega
  constructor
  · constructor
    · exact fun i node hnode hi => absurd (honly hnode) hi
    · exact fun i node up hnode hi => absurd (honly hnode) hi
    · exact fun i j node node' hnode hi => absurd (honly hnode) hi
  · rfl
  · exact hroom
  · exact List.nodup_singleton _
  · simp
  · exact fun i _ j node hnode hj => absurd (honly hnode) hj

variable [LinearOrder S]

theorem exists_maxIndex {frontier : List (S × Nat)} (hne : frontier ≠ []) :
    ∃ bi best, maxIndex frontier = some bi ∧ frontier[bi]? = some best := by
  have hkeep : ∀ (list : List ((S × Nat) × Nat)) b,
      ∃ x, list.foldl keepLarger (some b) = some x ∧ x ∈ b :: list := by
    intro list
    induction list with
    | nil => exact fun b => ⟨b, rfl, List.mem_cons_self⟩
    | cons a list ih =>
      intro b
      by_cases hlt : a.1.1 < b.1.1
      · obtain ⟨x, hx, hmem⟩ := ih b
        refine ⟨x, by simpa [keepLarger, hlt] using hx, ?_⟩
        rcases List.mem_cons.1 hmem with rfl | hin
        · exact List.mem_cons_self
        · exact List.mem_cons_of_mem _ (List.mem_cons_of_mem _ hin)
      · obtain ⟨x, hx, hmem⟩ := ih a
        exact ⟨x, by simpa [keepLarger, hlt] using hx, List.mem_cons_of_mem _ hmem⟩
  cases frontier with
  | nil => exact absurd rfl hne
  | cons first rest =>
    obtain ⟨x, hx, hmem⟩ := hkeep (rest.zipIdx 1) (first, 0)
    rw [← List.zipIdx_cons] at hmem
    refine ⟨x.2, x.1, ?_, List.mem_zipIdx_iff_getElem?.1 hmem⟩
    rw [maxIndex, List.zipIdx_cons, List.foldl_cons]
    exact congrArg (Option.map Prod.snd) hx

variable {c : TreeCall S} {fuel : Nat}

theorem Growth.Sound.exists_expand (hg : g.Sound root c.maxNodes) (hfuel : c.maxNodes ≤ fuel)
    (hne : g.frontier ≠ []) :
    ∃ g', expand c fuel g = some g' ∧ g'.Sound root c.maxNodes := by
  obtain ⟨bi, best, hbi, hbest⟩ := exists_maxIndex hne
  obtain ⟨hlt, rfl⟩ := List.getElem?_eq_some_iff.1 hbest
  -- The expanded node and the rest of the frontier.
  have hperm : (g.frontier[bi].2 :: (g.frontier.eraseIdx bi).map Prod.snd).Perm
      (g.frontier.map Prod.snd) :=
    (List.getElem_cons_eraseIdx_perm hlt).map Prod.snd
  have hdistinct := List.nodup_cons.1 (hperm.nodup_iff.2 hg.distinct)
  have hsub : ∀ i ∈ (g.frontier.eraseIdx bi).map Prod.snd, i ∈ g.frontier.map Prod.snd :=
    fun i hi => hperm.mem_iff.1 (List.mem_cons_of_mem _ hi)
  have hmem : g.frontier[bi].2 ∈ g.frontier.map Prod.snd := hperm.mem_iff.1 List.mem_cons_self
  have hidx := hg.inside _ hmem
  have hroom := hg.room
  obtain ⟨path, hpath⟩ := hg.wellFormed.exists_path hidx (show g.frontier[bi].2 < fuel by omega)
  obtain ⟨conts, hconts, hnodup⟩ :=
    exists_firstContinuations c.order c.haystack (c.recent ++ path) c.branch
      (lookupLengths c.maxLen)
  simp only [expand, hbi, hbest, hpath, bestContinuations, hconts, Option.bind_eq_bind,
    Option.bind_some]
  have hrest : Growth.Sound root c.maxNodes { g with frontier := g.frontier.eraseIdx bi } :=
    { wellFormed := hg.wellFormed
      rooted := hg.rooted
      room := hg.room
      distinct := hdistinct.2
      inside := fun i hi => hg.inside i (hsub i hi)
      leaf := fun i hi => hg.leaf i (hsub i hi) }
  apply hrest.exists_addChildren hidx hdistinct.1 hnodup
  intro j node hnode hj hparent
  exact absurd hparent (hg.leaf _ hmem j node hnode hj)

theorem rank_expand {g' : Growth S} (hexpand : expand c fuel g = some g') :
    g'.rank c.maxNodes < g.rank c.maxNodes := by
  obtain ⟨bi, -, hexpand⟩ := Option.bind_eq_some_iff.1 hexpand
  obtain ⟨best, hbest, hexpand⟩ := Option.bind_eq_some_iff.1 hexpand
  obtain ⟨path, -, hexpand⟩ := Option.bind_eq_some_iff.1 hexpand
  obtain ⟨conts, -, hadd⟩ := Option.bind_eq_some_iff.1 hexpand
  have hlt := (List.getElem?_eq_some_iff.1 hbest).1
  have hle := rank_addChildren hadd
  simp only [Growth.rank, List.length_eraseIdx_of_lt hlt] at hle ⊢
  omega

theorem exists_run_growStep (hg : g.Sound root c.maxNodes) (hfuel : c.maxNodes ≤ fuel)
    (steps : Nat) (hsteps : g.rank c.maxNodes < steps) :
    ∃ g' : Growth S, Loop.run (growStep c fuel) steps g = some (some ⟨g'.nodes⟩) ∧
      g'.Sound root c.maxNodes := by
  obtain ⟨result, hrun⟩ : ∃ result, Loop.run (growStep c fuel) steps g = some result := by
    apply Loop.exists_run (Growth.rank c.maxNodes) _ hsteps
    intro g g' hstep
    unfold growStep at hstep
    split_ifs at hstep
    cases hexpand : expand c fuel g with
    | none => rw [hexpand] at hstep; cases hstep
    | some g'' =>
      rw [hexpand] at hstep
      obtain rfl := Loop.Step.more.inj hstep
      exact rank_expand hexpand
  obtain ⟨last, hreach, hlast⟩ := Loop.exists_last hrun
  have hsound : last.Sound root c.maxNodes := by
    clear hlast
    induction hreach with
    | refl => exact hg
    | @tail g' g'' _ hstep ih =>
      unfold growStep at hstep
      split_ifs at hstep with hgo
      obtain ⟨next, hexpand, hsound⟩ := ih.exists_expand hfuel hgo.2
      rw [hexpand] at hstep
      exact (Loop.Step.more.inj hstep) ▸ hsound
  unfold growStep at hlast
  split_ifs at hlast with hgo
  · obtain ⟨g', hexpand, -⟩ := hsound.exists_expand hfuel hgo.2
    rw [hexpand] at hlast
    cases hlast
  · exact ⟨last, (Loop.Step.done.inj hlast) ▸ hrun, hsound⟩

/-- What `lookup_tree` promises of its result. -/
structure DraftTree.GrownFrom (tree : DraftTree) (root : Token) (maxNodes : Nat) : Prop where
  wellFormed : tree.WellFormed
  rooted : tree.nodes[0]? = some { token := root, parent := 0, depth := 0 }
  room : tree.nodes.length ≤ max 1 maxNodes

theorem exists_lookupTree (c : TreeCall S) {root : Token} (hroot : c.recent.getLast? = some root)
    {fuel : Nat} (hfuel : 2 * c.maxNodes ≤ fuel) :
    ∃ tree, lookupTree c fuel = some tree ∧ tree.GrownFrom root c.maxNodes := by
  unfold lookupTree
  simp only [hroot]
  split_ifs with hsmall
  · have hstart := Growth.Sound.start root c.scoring.one le_rfl
    exact ⟨_, rfl, hstart.wellFormed, hstart.rooted, le_max_left _ _⟩
  · have hstart := Growth.Sound.start root c.scoring.one (show 1 ≤ c.maxNodes by omega)
    have hrank : 2 * (c.maxNodes - 1) + 1 < fuel := by omega
    obtain ⟨g, hrun, hg⟩ := exists_run_growStep hstart (show c.maxNodes ≤ fuel by omega) fuel hrank
    refine ⟨⟨g.nodes⟩, by rw [hrun]; rfl, hg.wellFormed, hg.rooted, ?_⟩
    exact hg.room.trans (le_max_right _ _)

end

/-! ### Acceptance -/

section
variable {tree : DraftTree} {cur : Nat} {want : Token}

theorem findChild_eq_some {i : Nat} (hfind : findChild tree cur want = some i) :
    ∃ node, tree.nodes[i]? = some node ∧ i ≠ 0 ∧ node.parent = cur ∧ node.token = want := by
  obtain ⟨x, hx, rfl⟩ := Option.map_eq_some_iff.1 hfind
  have hchild := List.find?_some hx
  rw [decide_eq_true_eq] at hchild
  exact ⟨x.1, List.mem_zipIdx_iff_getElem?.1 (List.mem_of_find?_eq_some hx), hchild⟩

theorem findChild_eq_none (hfind : findChild tree cur want = none) {i : Nat} {node : TreeNode}
    (hnode : tree.nodes[i]? = some node) (hi : i ≠ 0) (hparent : node.parent = cur) :
    node.token ≠ want := by
  intro htoken
  rw [findChild, Option.map_eq_none_iff, List.find?_eq_none] at hfind
  apply hfind (node, i) (List.mem_zipIdx_iff_getElem?.2 hnode)
  exact decide_eq_true ⟨hi, hparent, htoken⟩

/-- The child found is the only one, so a longer path has to go through it. -/
theorem acceptFrom_spec (htree : tree.WellFormed) (cur : Nat) (target : List Token) (acc : Nat) :
    ∃ n, acceptFrom tree cur acc target = acc + n ∧ n ≤ target.length ∧
      tree.Labels cur (target.take n) ∧
      ∀ m ≤ target.length, tree.Labels cur (target.take m) → m ≤ n := by
  induction target generalizing cur acc with
  | nil => exact ⟨0, rfl, le_rfl, trivial, fun m hm _ => hm⟩
  | cons want target ih =>
    unfold acceptFrom
    cases hfind : findChild tree cur want with
    | none =>
      refine ⟨0, rfl, Nat.zero_le _, trivial, fun m _ hlabels => ?_⟩
      cases m with
      | zero => exact le_rfl
      | succ m =>
        obtain ⟨i, node, hnode, hi, hparent, htoken, -⟩ := hlabels
        exact absurd htoken (findChild_eq_none hfind hnode hi hparent)
    | some i =>
      obtain ⟨node, hnode, hi, hparent, htoken⟩ := findChild_eq_some hfind
      obtain ⟨n, hn, hle, hlabels, hmax⟩ := ih i (acc + 1)
      refine ⟨n + 1, by simp only [hn]; omega, Nat.succ_le_succ hle,
        ⟨i, node, hnode, hi, hparent, htoken, hlabels⟩, ?_⟩
      intro m hm hlabels'
      cases m with
      | zero => exact Nat.zero_le _
      | succ m =>
        obtain ⟨j, node', hnode', hj, hparent', htoken', hrest⟩ := hlabels'
        obtain rfl : i = j := htree.siblings i j node node' hnode hi hnode' hj
          (hparent.trans hparent'.symm) (htoken.trans htoken'.symm)
        exact Nat.succ_le_succ (hmax m (Nat.le_of_succ_le_succ hm) hrest)

end

/-- The length of the longest part of the target that labels a path from below the root. -/
def DraftTree.LongestLabel (tree : DraftTree) (target : List Token) (n : Nat) : Prop :=
  n ≤ target.length ∧ tree.Labels 0 (target.take n) ∧
    ∀ m ≤ target.length, tree.Labels 0 (target.take m) → m ≤ n

/-- The check for an empty tree changes nothing. -/
theorem treeAccept_eq (tree : DraftTree) (target : List Token) :
    treeAccept tree target = acceptFrom tree 0 0 target := by
  unfold treeAccept
  split_ifs with hempty
  · cases target with
    | nil => rfl
    | cons want target =>
      have hnone : findChild tree 0 want = none := by
        rw [findChild, List.isEmpty_iff.1 hempty]
        rfl
      simp only [acceptFrom, hnone]
  · rfl

theorem DraftTree.WellFormed.longestLabel {tree : DraftTree} (htree : tree.WellFormed)
    (target : List Token) : tree.LongestLabel target (treeAccept tree target) := by
  obtain ⟨n, hn, hlongest⟩ := acceptFrom_spec htree 0 target 0
  rw [treeAccept_eq, hn, Nat.zero_add]
  exact hlongest

/-- Trees are grown well formed, and of a well-formed tree acceptance takes as much as there is. -/
theorem lookupTree_grown_and_treeAccept_longest {S : Type} [LinearOrder S] :
    (∀ (c : TreeCall S) (root : Token), c.recent.getLast? = some root →
      ∀ fuel, 2 * c.maxNodes ≤ fuel →
        ∃ tree, lookupTree c fuel = some tree ∧ tree.GrownFrom root c.maxNodes) ∧
    ∀ tree : DraftTree, tree.WellFormed → ∀ target,
      tree.LongestLabel target (treeAccept tree target) :=
  ⟨fun c _ hroot _ hfuel => exists_lookupTree c hroot hfuel,
    fun _ htree target => htree.longestLabel target⟩

/-- Both continuations of `[1, 2]` are in the tree, and the older one is followed. -/
theorem lookupTree_of_two_continuations :
    ∃ tree, lookupTree (S := ℚ)
        { order := ⟨fun entries => entries, fun _ => List.Perm.refl _⟩
          scoring := ⟨1, fun score cnt total => score * (cnt / total)⟩
          haystack := [1, 2, 4, 5, 8, 1, 2, 3, 6, 9], recent := [1, 2]
          maxLen := 2, branch := 2, maxNodes := 8 } 16 = some tree ∧
      tree.GrownFrom 2 8 ∧ tree.LongestLabel [4, 5] (treeAccept tree [4, 5]) := by
  obtain ⟨tree, htree, hgrown⟩ := (lookupTree_grown_and_treeAccept_longest (S := ℚ)).1
    { order := ⟨fun entries => entries, fun _ => List.Perm.refl _⟩
      scoring := ⟨1, fun score cnt total => score * (cnt / total)⟩
      haystack := [1, 2, 4, 5, 8, 1, 2, 3, 6, 9], recent := [1, 2]
      maxLen := 2, branch := 2, maxNodes := 8 } 2 rfl 16 (by decide)
  exact ⟨tree, htree, hgrown,
    lookupTree_grown_and_treeAccept_longest (S := ℚ).2 tree hgrown.wellFormed [4, 5]⟩

end Zllm.SpecDecode
