import Zllm.Gpu.SingleStream

/-!
# The wgpu kernels on rows

What a dispatch does to the rows of its buffers, in terms of the decoder layer's operations: for a
kernel on one row, and for the same kernel on a tile.
-/

namespace Zllm.Gpu

open Finset Tile Loader Llama

/-! ### What the threads of one row compute -/

section Body

variable {n heads headDim : ℕ} {x : Buf}

theorem cut_norm (eps : ℝ) (wgt : Buf) (base : ℕ) :
    cut n (fun i => x (base + i) * normInv n eps x base * wgt i) =
      rmsNorm n eps wgt (cut n fun i => x (base + i)) := by
  refine cut_congr fun i hi => ?_
  have hmean : meanSquare n (cut n fun i => x (base + i)) =
      (∑ i ∈ range n, x (base + i) * x (base + i)) / n := by
    rw [meanSquare]
    congr 1
    refine sum_congr rfl fun k hk => ?_
    rw [cut_apply (mem_range.mp hk), sq]
  rw [hmean, cut_apply hi, normInv]
  ring

theorem succ_lt_of_even {i : ℕ} (heven : Even headDim) (hi : i < heads * headDim)
    (hfirst : i % headDim % 2 = 0) : i + 1 < heads * headDim := by
  obtain ⟨c, rfl⟩ := heven
  have htotal : heads * (c + c) = 2 * (heads * c) := by ring
  have hmod : i % (c + c) % 2 = i % 2 := Nat.mod_mod_of_dvd i ⟨c, by ring⟩
  omega

theorem cut_ropeAt (heven : Even headDim) (hpos : 0 < headDim) (c s : Buf) :
    cut (heads * headDim) (ropeAt headDim c s x) =
      rotate heads headDim c s (cut (heads * headDim) x) := by
  refine cut_congr fun i hi => ?_
  have hwhole : 2 * (headDim / 2) = headDim := Nat.two_mul_div_two_of_even heven
  have hlt : i % headDim < 2 * (headDim / 2) := by
    rw [hwhole]
    exact Nat.mod_lt i hpos
  simp only [ropeAt, if_pos hlt]
  split_ifs with hfirst
  · rw [cut_apply hi, cut_apply (succ_lt_of_even heven hi hfirst)]
  · rw [cut_apply hi, cut_apply (by omega)]

theorem rotate_congr {c c' s s' : Buf} (hpos : 0 < headDim) (heven : Even headDim)
    (hc : ∀ j < headDim / 2, c j = c' j) (hs : ∀ j < headDim / 2, s j = s' j) :
    rotate heads headDim c s x = rotate heads headDim c' s' x := by
  refine cut_congr fun i _ => ?_
  have hpair : i % headDim / 2 < headDim / 2 := by
    have hmod := Nat.mod_lt i hpos
    obtain ⟨k, hk⟩ := heven
    omega
  simp only [hc _ hpair, hs _ hpair]

/-- The online loop over the flat caches is grouped attention over their rows. -/
theorem cut_sdpaHead {S : Shape} (hvalid : S.Valid) (q kc vc : Buf) (pos : ℕ) :
    cut S.attnDim (fun i =>
        sdpaHead S.nHead S.nKvHead S.headDim (pos + 1) q kc vc (i / S.headDim) (i % S.headDim)) =
      S.attend pos (cut S.attnDim q) fun t => (row S.kvDim kc t, row S.kvDim vc t) := by
  refine cut_congr fun i hi => ?_
  have hh : i / S.headDim < S.nHead := by
    rwa [Nat.div_lt_iff_lt_mul hvalid.headDim_pos]
  have hkv := hvalid.kvHead_lt hh
  have haddr : ∀ t e, (t * S.nKvHead + S.kvHead (i / S.headDim)) * S.headDim + e =
      t * S.kvDim + (S.kvHead (i / S.headDim) * S.headDim + e) := by
    intro t e
    rw [Shape.kvDim]
    ring
  have hd : i % S.headDim < S.headDim := Nat.mod_lt i hvalid.headDim_pos
  rw [sdpaHead, mul_one_div, Softmax.online_average]
  refine Softmax.average_congr (fun t _ => ?_) fun t _ => ?_
  · rw [Shape.score, mul_one_div]
    congr 1
    refine sum_congr rfl fun e he => ?_
    have he := mem_range.mp he
    have hq : i / S.headDim * S.headDim + e < S.attnDim := index_lt hh he
    have hk : S.kvHead (i / S.headDim) * S.headDim + e < S.kvDim := index_lt hkv he
    show q _ * kc ((t * S.nKvHead + S.kvHead (i / S.headDim)) * S.headDim + e) =
      cut S.attnDim q _ * row S.kvDim kc t _
    rw [cut_apply hq, row_apply hk, haddr]
  · have hv : S.kvHead (i / S.headDim) * S.headDim + i % S.headDim < S.kvDim :=
      index_lt hkv hd
    show vc ((t * S.nKvHead + S.kvHead (i / S.headDim)) * S.headDim + i % S.headDim) =
      row S.kvDim vc t _
    rw [row_apply hv, haddr]

theorem cut_act (gate up : Buf) : cut n (act gate up) = swiglu n (cut n gate) (cut n up) :=
  cut_congr fun k hk => by rw [act, cut_apply hk, cut_apply hk]

theorem project_cut (rows cols : ℕ) (w : ℕ → ℕ → ℝ) (x : Buf) :
    project rows cols w (cut cols x) = project rows cols w x :=
  project_congr fun _ hk => cut_apply hk

end Body

/-! ### Kernels on one row -/

section OneRow

variable {n cols heads headDim : ℕ} {w : ResidentWeight}

theorem cut_rmsnorm (eps : ℝ) (wgt x y : Buf) :
    cut n (rmsnorm n eps wgt x y) = rmsNorm n eps wgt (cut n x) := by
  have hrow := row_writeAt n 0 (fun i => x i * normInv n eps x 0 * wgt i) y 0
  have hnorm := cut_norm (n := n) (x := x) eps wgt 0
  simp only [zero_add] at hnorm
  rw [zero_mul, row_zero, if_pos rfl, hnorm] at hrow
  exact hrow

/-- A matvec whose output base is a row writes that row. -/
theorem row_matvec (hrows : w.rows = n) (hcols : w.cols = cols) (pos : ℕ) (x outp : Buf) (i : ℕ) :
    row n (matvec w false (pos * n) x outp) i =
      if i = pos then project n cols (weightAt w) (cut cols x) else row n outp i := by
  subst hrows hcols
  rw [matvec, row_writeAt, project_cut]
  rfl

theorem cut_matvec (hrows : w.rows = n) (hcols : w.cols = cols) (x outp : Buf) :
    cut n (matvec w false 0 x outp) = project n cols (weightAt w) (cut cols x) := by
  have hrow := row_matvec hrows hcols 0 x outp 0
  rwa [zero_mul, row_zero, if_pos rfl] at hrow

theorem cut_matvec_acc (hrows : w.rows = n) (hcols : w.cols = cols) (x outp : Buf) :
    cut n (matvec w true 0 x outp) =
      add n (cut n outp) (project n cols (weightAt w) (cut cols x)) := by
  subst hrows hcols
  have hrow := row_writeAt w.rows 0
    (fun row => outp (0 + row) + ∑ k ∈ range w.cols, weightAt w row k * x k) outp 0
  rw [zero_mul, row_zero, if_pos rfl] at hrow
  refine hrow.trans (cut_congr fun j hj => ?_)
  rw [zero_add, cut_apply hj, project_cut, project, cut_apply hj]

theorem row_rope (heven : Even headDim) (hpos : 0 < headDim) (pos : ℕ) (c s x : Buf) (i : ℕ) :
    row (heads * headDim) (rope heads headDim (pos * (heads * headDim)) c s x) i =
      if i = pos then rotate heads headDim c s (row (heads * headDim) x pos)
      else row (heads * headDim) x i := by
  rw [rope, row_writeAt, cut_ropeAt heven hpos]
  rfl

theorem cut_rope (heven : Even headDim) (hpos : 0 < headDim) (c s x : Buf) :
    cut (heads * headDim) (rope heads headDim 0 c s x) =
      rotate heads headDim c s (cut (heads * headDim) x) := by
  have hrow : row (heads * headDim) (rope heads headDim (0 * (heads * headDim)) c s x) 0 = _ :=
    row_rope heven hpos 0 c s x 0
  rwa [zero_mul, row_zero, row_zero, if_pos rfl] at hrow

theorem cut_sdpaDecode {S : Shape} (hvalid : S.Valid) (pos : ℕ) (q kc vc outp : Buf) :
    cut S.attnDim (sdpaDecode S.nHead S.nKvHead S.headDim (pos + 1) q kc vc outp) =
      S.attend pos (cut S.attnDim q) fun t => (row S.kvDim kc t, row S.kvDim vc t) := by
  have hrow := row_writeAt S.attnDim 0 (fun i =>
    sdpaHead S.nHead S.nKvHead S.headDim (pos + 1) q kc vc (i / S.headDim) (i % S.headDim)) outp 0
  rwa [zero_mul, row_zero, if_pos rfl, cut_sdpaHead hvalid] at hrow

end OneRow

/-! ### Kernels on a tile -/

section Rows

variable {n cols heads headDim m r : ℕ} {w : ResidentWeight}

theorem row_bnorm (hr : r < m) (eps : ℝ) (wgt x y : Buf) :
    row n (bnorm n eps m wgt x y) r = rmsNorm n eps wgt (row n x r) := by
  rw [bnorm, row_writeRows, if_pos ⟨Nat.zero_le r, by omega⟩, Nat.sub_zero, cut_norm]
  rfl

/-- With the weight's own shape in the parameters. -/
theorem row_gemm (hrows : w.rows = n) (hcols : w.cols = cols) (hblocks : 256 ∣ cols) (acc : Bool)
    (x outp : Buf) (i : ℕ) :
    row n (gemm w n cols m acc x outp) i =
      if i < m then
        if acc then add n (row n outp i) (project n cols (weightAt w) (row cols x i))
        else project n cols (weightAt w) (row cols x i)
      else row n outp i := by
  rw [gemm, row_writeRows]
  simp only [Nat.zero_le, true_and, zero_add, Nat.sub_zero, Nat.mul_div_cancel' hblocks]
  have hdot : ∀ j, ∑ k ∈ range cols, ((w.values.getD (j * cols + k) 0 : ℚ) : ℝ) * x (i * cols + k) =
      ∑ k ∈ range cols, weightAt w j k * row cols x i k := by
    intro j
    refine sum_congr rfl fun k hk => ?_
    rw [weightAt, hcols, row_apply (mem_range.mp hk)]
  refine if_congr Iff.rfl ?_ rfl
  cases acc with
  | false =>
    refine cut_congr fun j hj => ?_
    rw [if_pos (by omega), hdot]
    rfl
  | true =>
    refine cut_congr fun j hj => ?_
    rw [if_pos (by omega), hdot, row_apply hj, project, cut_apply hj]
    rfl

theorem row_brope (heven : Even headDim) (hpos : 0 < headDim) (hr : r < m) (c s x : Buf) :
    row (heads * headDim) (brope heads headDim m c s x) r =
      rotate heads headDim (fun j => c (r * (headDim / 2) + j))
        (fun j => s (r * (headDim / 2) + j)) (row (heads * headDim) x r) := by
  rw [brope, row_writeRows, if_pos ⟨Nat.zero_le r, by omega⟩, Nat.sub_zero,
    cut_ropeAt heven hpos]
  rfl

theorem row_bsdpa {S : Shape} (hvalid : S.Valid) (hr : r < m) (pos : ℕ) (q kc vc outp : Buf) :
    row S.attnDim (bsdpa S.nHead S.nKvHead S.headDim m pos q kc vc outp) r =
      S.attend (pos + r) (row S.attnDim q r) fun t => (row S.kvDim kc t, row S.kvDim vc t) := by
  have hwrite := row_writeRows S.attnDim 0 m (fun r i =>
    sdpaHead S.nHead S.nKvHead S.headDim (pos + r + 1) (fun j => q (r * S.attnDim + j)) kc vc
      (i / S.headDim) (i % S.headDim)) outp r
  rw [if_pos ⟨Nat.zero_le r, by omega⟩, Nat.sub_zero, cut_sdpaHead hvalid] at hwrite
  exact hwrite

/-- Workgroups rounded up reach every element. -/
theorem row_siluMul {len : ℕ} (hr : r < m) (hlen : m * n ≤ len) (gate up h : Buf) :
    row n (siluMul ((m * n) ⌈/⌉ 64) len gate up h) r = swiglu n (row n gate r) (row n up r) := by
  rw [row, row, row, ← cut_act]
  refine cut_congr fun j hj => ?_
  have hlt : r * n + j < m * n := index_lt hr hj
  have hceil : m * n ≤ 64 • ((m * n) ⌈/⌉ 64) := le_smul_ceilDiv (by norm_num)
  rw [smul_eq_mul] at hceil
  rw [siluMul, if_pos ⟨by omega, by omega⟩]
  rfl

end Rows

end Zllm.Gpu
