import Zllm.Gpu.PagedKernels

/-!
# Paged attention is contiguous attention

After the pack a position's cell holds the row packed into it, or what it held before, and the read
side finds its elements at the addresses the write side used. Rescaled as they go, the sums are the
plain softmax average, so the pool's attention is the one over a contiguous cache of that content.
-/

namespace Zllm.Gpu.Paged

open Finset Workgroup
open Softmax (Partial)
open Tile (index_div index_mod index_lt)

variable {W : Type} {halves : Halves W} {D : Dispatch} {posb slots blockTable : ℕ → ℕ}

/-! ### The content of a cell -/

variable (halves D posb slots blockTable) in
/-- Element `e` of position `t` of `slot`: of the row that the dispatch packs into its cell, or else
of the cell before. -/
def content (src : Buf) (pool : ℕ → W) (slot t e : ℕ) : ℝ :=
  let cell := D.physPos blockTable slot t
  match (List.range D.m).find? (fun r => D.physPos blockTable (slots r) (posb r) = cell) with
  | some r => src (r * D.kvDim + e)
  | none => half (halves.unpack2x16float (pool (cell * (D.kvDim / 2) + e / 2))) e

variable (D posb slots blockTable) in
/-- The rows address pairwise distinct cells. -/
def DistinctCells : Prop :=
  Set.InjOn (fun s => D.physPos blockTable (slots s) (posb s)) {s | s < D.m}

theorem headDim_eq (D : Dispatch) : 2 * (D.headDim / 2) = D.headDim :=
  Nat.mul_div_cancel' D.headDim_even.two_dvd

theorem kvDim_half (D : Dispatch) : D.kvDim / 2 = D.nKvHead * (D.headDim / 2) :=
  Nat.mul_div_assoc _ D.headDim_even.two_dvd

theorem kvDim_eq (D : Dispatch) : D.kvDim = 2 * (D.kvDim / 2) := by
  rw [kvDim_half, mul_left_comm, headDim_eq]
  rfl

/-- The host rounds the workgroups up, so each index below the shader's bound has a thread. -/
theorem lt_ceilDiv_mul {n idx : ℕ} (hidx : idx < n) : idx < n ⌈/⌉ 64 * 64 := by
  rw [Nat.ceilDiv_eq_add_pred_div]
  omega

variable (halves) in
theorem covers_recordBkvPack (hdistinct : DistinctCells D posb slots blockTable) (src : Buf) :
    Covers (recordBkvPack halves D posb slots blockTable src)
      {c : ℕ × ℕ | c.1 < D.m ∧ c.2 < D.kvDim / 2}
      (fun c => D.physPos blockTable (slots c.1) (posb c.1) * (D.kvDim / 2) + c.2)
      (fun c => halves.pack2x16float
        (src (c.1 * D.kvDim + 2 * c.2), src (c.1 * D.kvDim + 2 * c.2 + 1))) := by
  constructor
  · intro store
    rw [recordBkvPack, mem_line]
    constructor
    · rintro ⟨idx, -, hmem⟩
      rw [bkvPack] at hmem
      split_ifs at hmem with hidx
      · exact absurd hmem List.not_mem_nil
      · have hidx := not_le.mp hidx
        have hpos : 0 < D.kvDim / 2 := Nat.pos_of_mul_pos_left (by omega : 0 < D.m * (D.kvDim / 2))
        refine ⟨(idx / (D.kvDim / 2), idx % (D.kvDim / 2)), ⟨?_, Nat.mod_lt _ hpos⟩, ?_⟩
        · rwa [Nat.div_lt_iff_lt_mul hpos]
        · exact (List.mem_singleton.mp hmem).symm
    · rintro ⟨⟨s, j⟩, ⟨hs, hj⟩, rfl⟩
      have hidx : s * (D.kvDim / 2) + j < D.m * (D.kvDim / 2) := index_lt hs hj
      have hgroups : D.m * D.kvDim / 2 = D.m * (D.kvDim / 2) :=
        Nat.mul_div_assoc _ (Dvd.intro _ (kvDim_eq D).symm)
      refine ⟨s * (D.kvDim / 2) + j, ?_, ?_⟩
      · rw [hgroups]
        exact lt_ceilDiv_mul hidx
      · simp only [bkvPack, if_neg (not_le.mpr hidx), index_div hj, index_mod hj]
        exact List.mem_singleton_self _
  · rintro ⟨s, j⟩ ⟨hs, hj⟩ ⟨s', j'⟩ ⟨hs', hj'⟩ haddr
    have hcell := congrArg (· / (D.kvDim / 2)) haddr
    have helement := congrArg (· % (D.kvDim / 2)) haddr
    simp only [index_div hj, index_div hj'] at hcell
    simp only [index_mod hj, index_mod hj'] at helement
    exact Prod.ext (hdistinct hs hs' hcell) helement

theorem half_pair (f : ℕ → ℝ) (e : ℕ) : half (f (2 * (e / 2)), f (2 * (e / 2) + 1)) e = f e := by
  rw [half]
  split_ifs with heven
  · exact congrArg f (by omega)
  · exact congrArg f (by omega)

/-- What the read side unpacks of a cell. -/
theorem unpack_leaves (hdistinct : DistinctCells D posb slots blockTable) {src : Buf}
    {pool pool' : ℕ → W}
    (hpack : Leaves (recordBkvPack halves D posb slots blockTable src) pool pool') (slot t : ℕ)
    {e : ℕ} (he : e < D.kvDim) :
    half (halves.unpack2x16float
        (pool' (D.physPos blockTable slot t * (D.kvDim / 2) + e / 2))) e =
      content halves D posb slots blockTable src pool slot t e := by
  have hcovers := covers_recordBkvPack halves hdistinct src
  have hpair : e / 2 < D.kvDim / 2 := by
    have := kvDim_eq D
    omega
  rw [content]
  split
  · next r hfind =>
    have hr := List.mem_range.mp (List.mem_of_find?_eq_some hfind)
    have hcell : D.physPos blockTable (slots r) (posb r) = D.physPos blockTable slot t := by
      simpa using List.find?_some hfind
    rw [← hcell, hcovers.apply hpack (i := (r, e / 2)) ⟨hr, hpair⟩, halves.unpack_pack]
    exact half_pair (fun e => src (r * D.kvDim + e)) e
  · next hnone =>
    have hother : ∀ r < D.m,
        D.physPos blockTable (slots r) (posb r) ≠ D.physPos blockTable slot t := by
      intro r hr hcell
      exact List.find?_eq_none.mp hnone r (List.mem_range.mpr hr) (decide_eq_true hcell)
    rw [hcovers.apply_of_ne hpack]
    rintro ⟨r, j⟩ ⟨hr, hj⟩ haddr
    have hcell := congrArg (· / (D.kvDim / 2)) haddr
    simp only [index_div hj, index_div hpair] at hcell
    exact hother r hr hcell

/-! ### A thread's loop -/

/-- At its dimensions the thread's sums are those of the online softmax. -/
theorem attendLoop_eq (width seqLen : ℕ) (score : ℕ → ℝ) (value : ℕ → ℕ → ℝ) :
    let st := attendLoop width seqLen score value
    let all := Softmax.online (-1e30) score value seqLen
    st.mx = all.mx ∧ st.l = all.l ∧ ∀ d < width, d < 128 → st.av d = all.av d := by
  induction seqLen with
  | zero => exact ⟨rfl, rfl, fun _ _ _ => rfl⟩
  | succ n ih =>
    obtain ⟨hmx, hl, hav⟩ := ih
    rw [attendLoop, List.range_succ, List.foldl_append, ← attendLoop, List.foldl_cons,
      List.foldl_nil, Softmax.online, attendStep, Partial.push, hmx, hl]
    refine ⟨rfl, rfl, fun d hd hlen => ?_⟩
    refine (if_pos ⟨hd, hlen⟩).trans ?_
    rw [hav d hd hlen]

theorem attendLoop_average {width d : ℕ} (hd : d < width) (hlen : d < 128) (seqLen : ℕ)
    (score : ℕ → ℝ) (value : ℕ → ℕ → ℝ) :
    (attendLoop width seqLen score value).av d * (1 / (attendLoop width seqLen score value).l) =
      Softmax.average (range seqLen) score value d := by
  obtain ⟨-, hl, hav⟩ := attendLoop_eq width seqLen score value
  rw [mul_one_div, hl, hav d hd hlen, Softmax.online_average]

/-! ### The output -/

variable (D posb slots) in
/-- `softmax(q·k/√head_dim)·V` of row `s` and head `h` over positions `0..=posb[s]` of its slot, with
element `e` of a position's keys and values at `K slot t e` and `V slot t e`. -/
noncomputable def attention (q : Buf) (K V : ℕ → ℕ → ℕ → ℝ) (s h d : ℕ) : ℝ :=
  Softmax.average (range (posb s + 1))
    (fun t => (∑ e ∈ range D.headDim,
      q (D.qBase s h + e) * K (slots s) t (D.kvh h * D.headDim + e)) / √D.headDim)
    (fun t d => V (slots s) t (D.kvh h * D.headDim + d)) d

theorem kvh_lt {h : ℕ} (hh : h < D.nHead) : D.kvh h < D.nKvHead := by
  have hpos : 0 < D.nKvHead := Nat.pos_of_dvd_of_pos D.grouped (by omega)
  have hgroup : 0 < D.nHead / D.nKvHead := Nat.div_pos (Nat.le_of_dvd (by omega) D.grouped) hpos
  rw [Dispatch.kvh, Nat.div_lt_iff_lt_mul hgroup, Nat.mul_div_cancel' D.grouped]
  exact hh

theorem kv_lt {h e : ℕ} (hh : h < D.nHead) (he : e < D.headDim) :
    D.kvh h * D.headDim + e < D.kvDim :=
  index_lt (kvh_lt hh) he

/-- A dispatch with a thread for each row and head. -/
theorem output_leaves {kernel : ℕ → List (ℕ × ℝ)} {v : ℕ → ℕ → ℕ → ℝ} {outp outp' : Buf}
    (hkernel : ∀ s < D.m, ∀ h < D.nHead,
      kernel (s * D.nHead + h) = (List.range D.headDim).map fun d => (D.qBase s h + d, v s h d))
    (hbound : ∀ idx, D.m * D.nHead ≤ idx → kernel idx = [])
    (hleaves : Leaves (line 64 ((D.m * D.nHead) ⌈/⌉ 64) kernel) outp outp') {s h d : ℕ}
    (hs : s < D.m) (hh : h < D.nHead) (hd : d < D.headDim) :
    outp' (D.qBase s h + d) = v s h d := by
  have hbase (s h : ℕ) : D.qBase s h = (s * D.nHead + h) * D.headDim := by
    rw [Dispatch.qBase]
    ring
  have hcovers : Covers (line 64 ((D.m * D.nHead) ⌈/⌉ 64) kernel)
      {c : ℕ × ℕ × ℕ | c.1 < D.m ∧ c.2.1 < D.nHead ∧ c.2.2 < D.headDim}
      (fun c => D.qBase c.1 c.2.1 + c.2.2) (fun c => v c.1 c.2.1 c.2.2) := by
    constructor
    · intro store
      rw [mem_line]
      constructor
      · rintro ⟨idx, -, hmem⟩
        have hidx : idx < D.m * D.nHead := by
          by_contra hle
          rw [hbound idx (not_lt.mp hle)] at hmem
          exact List.not_mem_nil hmem
        have hpos : 0 < D.nHead := Nat.pos_of_mul_pos_left (by omega : 0 < D.m * D.nHead)
        have hrow : idx / D.nHead < D.m := by rwa [Nat.div_lt_iff_lt_mul hpos]
        have hhead := Nat.mod_lt idx hpos
        rw [← Nat.div_add_mod' idx D.nHead, hkernel _ hrow _ hhead] at hmem
        obtain ⟨d, hd, hstore⟩ := List.mem_map.mp hmem
        exact ⟨(idx / D.nHead, idx % D.nHead, d), ⟨hrow, hhead, List.mem_range.mp hd⟩, hstore⟩
      · rintro ⟨⟨s, h, d⟩, ⟨hs, hh, hd⟩, rfl⟩
        refine ⟨s * D.nHead + h, lt_ceilDiv_mul (index_lt hs hh), ?_⟩
        rw [hkernel s hs h hh]
        exact List.mem_map.mpr ⟨d, List.mem_range.mpr hd, rfl⟩
    · rintro ⟨s, h, d⟩ ⟨-, hh, hd⟩ ⟨s', h', d'⟩ ⟨-, hh', hd'⟩ haddr
      simp only [hbase] at haddr
      have hthread := congrArg (· / D.headDim) haddr
      have hdim := congrArg (· % D.headDim) haddr
      simp only [index_div hd, index_div hd'] at hthread
      simp only [index_mod hd, index_mod hd'] at hdim
      have hrow := congrArg (· / D.nHead) hthread
      have hhead := congrArg (· % D.nHead) hthread
      simp only [index_div hh, index_div hh'] at hrow
      simp only [index_mod hh, index_mod hh'] at hhead
      exact Prod.ext hrow (Prod.ext hhead hdim)
  exact hcovers.apply hleaves (i := (s, h, d)) ⟨hs, hh, hd⟩

/-- The loops over pairs are loops over dimensions. -/
theorem sum_pairs (n : ℕ) (f : ℕ → ℝ) :
    ∑ j ∈ range n, (f (2 * j) + f (2 * j + 1)) = ∑ e ∈ range (2 * n), f e := by
  rw [mul_comm 2 n, sum_rows]
  refine sum_congr rfl fun j _ => ?_
  rw [sum_range_succ, sum_range_one, mul_comm j, add_zero]

/-- A pool's words hold `K`, as the reading shader addresses them. -/
def HoldsPool (halves : Halves W) (D : Dispatch) (blockTable : ℕ → ℕ) (pool : ℕ → W)
    (K : ℕ → ℕ → ℕ → ℝ) : Prop :=
  ∀ slot t, ∀ e < D.kvDim,
    half (halves.unpack2x16float (pool (D.physPos blockTable slot t * (D.kvDim / 2) + e / 2))) e =
      K slot t e

/-- A cache with `maxSeq` positions a slot holds `K` as far as the rows attend. -/
def HoldsCache (D : Dispatch) (posb slots : ℕ → ℕ) (maxSeq : ℕ) (cache : Buf)
    (K : ℕ → ℕ → ℕ → ℝ) : Prop :=
  ∀ s < D.m, ∀ t ≤ posb s, ∀ e < D.kvDim,
    cache ((slots s * maxSeq + t) * D.kvDim + e) = K (slots s) t e

/-- A contiguous cache of that content. -/
def cacheOf (D : Dispatch) (maxSeq : ℕ) (K : ℕ → ℕ → ℕ → ℝ) : Buf := fun i =>
  K (i / D.kvDim / maxSeq) (i / D.kvDim % maxSeq) (i % D.kvDim)

theorem holdsCache_cacheOf {maxSeq : ℕ} (hposb : ∀ s < D.m, posb s < maxSeq)
    (K : ℕ → ℕ → ℕ → ℝ) : HoldsCache D posb slots maxSeq (cacheOf D maxSeq K) K := by
  intro s hs t ht e he
  have ht : t < maxSeq := ht.trans_lt (hposb s hs)
  rw [cacheOf, index_div he, index_mod he, index_div ht, index_mod ht]

variable {q kc vc : Buf} {kPool vPool : ℕ → W} {K V : ℕ → ℕ → ℕ → ℝ}

/-- A head's element in the pool is its element in the cell. -/
theorem HoldsPool.read (hpool : HoldsPool halves D blockTable kPool K) {h e : ℕ} (hh : h < D.nHead)
    (he : e < D.headDim) (slot t : ℕ) :
    half (halves.unpack2x16float (kPool ((D.physPos blockTable slot t * D.nKvHead + D.kvh h) *
      (D.headDim / 2) + e / 2))) e = K slot t (D.kvh h * D.headDim + e) := by
  have hhead := headDim_eq D
  have hpair : D.kvh h * D.headDim + e = 2 * (D.kvh h * (D.headDim / 2)) + e := by
    rw [mul_left_comm, hhead]
  have haddr : (D.physPos blockTable slot t * D.nKvHead + D.kvh h) * (D.headDim / 2) + e / 2 =
      D.physPos blockTable slot t * (D.kvDim / 2) + (D.kvh h * D.headDim + e) / 2 := by
    rw [kvDim_half, hpair, Nat.mul_add_div (by decide)]
    ring
  have hparity (v : ℝ × ℝ) : half v (D.kvh h * D.headDim + e) = half v e := by
    rw [half, half, hpair, Nat.mul_add_mod]
  rw [haddr, ← hparity, hpool slot t _ (kv_lt hh he)]

theorem bdsdpaPaged_row (hk : HoldsPool halves D blockTable kPool K)
    (hv : HoldsPool halves D blockTable vPool V) {s h : ℕ} (hs : s < D.m) (hh : h < D.nHead) :
    bdsdpaPaged halves D posb slots blockTable q kPool vPool (s * D.nHead + h) =
      (List.range D.headDim).map fun d =>
        (D.qBase s h + d, attention D posb slots q K V s h d) := by
  have hhead := headDim_eq D
  rw [bdsdpaPaged, if_neg (not_le.mpr (index_lt hs hh))]
  simp only [index_div hh, index_mod hh, outputRow]
  refine List.map_congr_left fun d hd => ?_
  have hd := List.mem_range.mp hd
  rw [attendLoop_average (by omega) (hd.trans_le D.headDim_le), attention]
  congr 1
  refine Softmax.average_congr (fun t _ => ?_) fun t _ => hv.read hh hd (slots s) t
  rw [mul_one_div, ← hhead, ← sum_pairs, hhead]
  congr 1
  refine sum_congr rfl fun j hj => ?_
  have hj := mem_range.mp hj
  have hfirst := hk.read hh (show 2 * j < D.headDim by omega) (slots s) t
  have hsecond := hk.read hh (show 2 * j + 1 < D.headDim by omega) (slots s) t
  rw [half, if_pos (by omega), show 2 * j / 2 = j by omega] at hfirst
  rw [half, if_neg (by omega), show (2 * j + 1) / 2 = j by omega] at hsecond
  rw [hfirst, hsecond, add_assoc]

theorem bdsdpa_row {maxSeq : ℕ} (hk : HoldsCache D posb slots maxSeq kc K)
    (hv : HoldsCache D posb slots maxSeq vc V) {s h : ℕ} (hs : s < D.m) (hh : h < D.nHead) :
    bdsdpa D posb slots maxSeq q kc vc (s * D.nHead + h) =
      (List.range D.headDim).map fun d =>
        (D.qBase s h + d, attention D posb slots q K V s h d) := by
  have haddr (t e : ℕ) : slots s * maxSeq * D.nKvHead * D.headDim +
      (t * D.nKvHead + D.kvh h) * D.headDim + e =
        (slots s * maxSeq + t) * D.kvDim + (D.kvh h * D.headDim + e) := by
    rw [Dispatch.kvDim]
    ring
  rw [bdsdpa, if_neg (not_le.mpr (index_lt hs hh))]
  simp only [index_div hh, index_mod hh, outputRow, haddr]
  refine List.map_congr_left fun d hd => ?_
  have hd := List.mem_range.mp hd
  rw [attendLoop_average hd (hd.trans_le D.headDim_le), attention]
  congr 1
  have hle {t : ℕ} (ht : t ∈ range (posb s + 1)) : t ≤ posb s :=
    Nat.le_of_lt_succ (mem_range.mp ht)
  refine Softmax.average_congr (fun t ht => ?_) fun t ht => hv s hs t (hle ht) _ (kv_lt hh hd)
  rw [mul_one_div]
  congr 1
  refine sum_congr rfl fun e he => ?_
  rw [hk s hs t (hle ht) _ (kv_lt hh (mem_range.mp he))]

/-- The output holds each row's attention over positions of its own slot. -/
def IsAttention (D : Dispatch) (posb slots : ℕ → ℕ) (q : Buf) (K V : ℕ → ℕ → ℕ → ℝ) (outp : Buf) :
    Prop :=
  ∀ s < D.m, ∀ h < D.nHead, ∀ d < D.headDim,
    outp (D.qBase s h + d) = attention D posb slots q K V s h d

/-- Packed into a pool and gathered through the block table, or read from one contiguous cache a slot
with that content, the keys and values give the same attention. -/
theorem paged_isAttention (halves : Halves W) (D : Dispatch) (posb slots blockTable : ℕ → ℕ)
    (hdistinct : DistinctCells D posb slots blockTable) (q kSrc vSrc : Buf)
    (kPool vPool : ℕ → W) :
    let K := content halves D posb slots blockTable kSrc kPool
    let V := content halves D posb slots blockTable vSrc vPool
    (∀ kPool' vPool' outp outp',
      Leaves (recordBkvPack halves D posb slots blockTable kSrc) kPool kPool' →
      Leaves (recordBkvPack halves D posb slots blockTable vSrc) vPool vPool' →
      Leaves (recordBdsdpaPaged halves D posb slots blockTable q kPool' vPool') outp outp' →
      IsAttention D posb slots q K V outp') ∧
    ∀ maxSeq kc vc outp outp', HoldsCache D posb slots maxSeq kc K →
      HoldsCache D posb slots maxSeq vc V →
      Leaves (recordBdsdpa D posb slots maxSeq q kc vc) outp outp' →
      IsAttention D posb slots q K V outp' := by
  intro K V
  constructor
  · intro kPool' vPool' outp outp' hkPack hvPack hleaves s hs h hh d hd
    have hk : HoldsPool halves D blockTable kPool' K := fun slot t e he =>
      unpack_leaves hdistinct hkPack slot t he
    have hv : HoldsPool halves D blockTable vPool' V := fun slot t e he =>
      unpack_leaves hdistinct hvPack slot t he
    refine output_leaves (fun s hs h hh => bdsdpaPaged_row hk hv hs hh) (fun idx hidx => ?_)
      hleaves hs hh hd
    exact if_pos hidx
  · intro maxSeq kc vc outp outp' hk hv hleaves s hs h hh d hd
    refine output_leaves (fun s hs h hh => bdsdpa_row hk hv hs hh) (fun idx hidx => ?_)
      hleaves hs hh hd
    exact if_pos hidx

/-- Two heads on one key head, two rows of slots 0 and 1, at positions 0 and 1 of blocks of two. -/
def twoRows : Dispatch :=
  ⟨2, 1, 2, 2, 2, 2, by decide, by decide, by decide, by decide⟩

theorem paged_isAttention_two_rows :
    let halves : Halves (ℝ × ℝ) := ⟨id, id, fun _ => rfl⟩
    let K := content halves twoRows id id id (fun i => i) fun _ => (1, 1)
    IsAttention twoRows id id (fun i => i) K K
        (perform (recordBdsdpaPaged halves twoRows id id id (fun i => i)
          (perform (recordBkvPack halves twoRows id id id fun i => i) fun _ => (1, 1))
          (perform (recordBkvPack halves twoRows id id id fun i => i) fun _ => (1, 1))) 0) ∧
      IsAttention twoRows id id (fun i => i) K K
        (perform (recordBdsdpa twoRows id id 2 (fun i => i) (cacheOf twoRows 2 K)
          (cacheOf twoRows 2 K)) 0) := by
  intro halves K
  have hdistinct : DistinctCells twoRows id id id := by
    intro s hs s' hs' hcell
    have hs : s < 2 := hs
    have hs' : s' < 2 := hs'
    simp only [Dispatch.physPos, twoRows, id_eq] at hcell
    omega
  have hcache : HoldsCache twoRows id id 2 (cacheOf twoRows 2 K) K :=
    holdsCache_cacheOf (fun s hs => hs) K
  obtain ⟨hpaged, hcontiguous⟩ := paged_isAttention halves twoRows id id id hdistinct
    (fun i => i) (fun i => i) (fun i => i) (fun _ => (1, 1)) fun _ => (1, 1)
  exact ⟨hpaged _ _ 0 _ (leaves_perform _ _) (leaves_perform _ _) (leaves_perform _ _),
    hcontiguous 2 _ _ 0 _ hcache hcache (leaves_perform _ _)⟩

end Zllm.Gpu.Paged
