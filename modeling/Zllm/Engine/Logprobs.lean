import Zllm.Lib.Rounding
import Zllm.Lib.TopN

/-!
# Top logprobs

`engine/logprobs.rs`: each observed token with the logprobs of the likeliest ones, in rounded
arithmetic. Token ids are below `2 ^ 32`.
-/

namespace Zllm.Logprobs

open Extended (fin bot nan exp ln maxNum ofWithBot)

structure TokenLogprobs where
  tokenId : ℕ
  logprob : Extended ℝ
  top : List (ℕ × Extended ℝ)

structure LogprobsCollector where
  topN : ℕ
  entries : List TokenLogprobs

def LogprobsCollector.new (topN : ℕ) : LogprobsCollector :=
  { topN := min topN 20, entries := [] }

/-- `top.insert(top.partition_point(|x| x.1 >= lp), (i, lp))` -/
noncomputable def insertRanked (top : List (ℕ × Extended ℝ)) (i : ℕ) (lp : Extended ℝ) :
    List (ℕ × Extended ℝ) :=
  top.insertIdx (top.takeWhile (lp ≤ ·.2)).length (i, lp)

/-- The body of the scan over the logits. -/
noncomputable def offer (topN : ℕ) (top : List (ℕ × Extended ℝ)) (i : ℕ) (lp : Extended ℝ) :
    List (ℕ × Extended ℝ) :=
  if top.length < topN then insertRanked top i lp
  else
    match top[topN - 1]? with
    | some last => if last.2 < lp then insertRanked top.dropLast i lp else top
    | none => top

section

variable (q : Rounding) (m : Libm)

/-- `lse` of `observe`: the largest logit is taken out of the sum. -/
noncomputable def stableLogsumexp (logits : List (Extended ℝ)) : Extended ℝ :=
  let max := logits.foldl maxNum bot
  q.add max (m.ln (q.sum (logits.map fun l => m.exp (q.sub l max))))

noncomputable def LogprobsCollector.observe (c : LogprobsCollector) (logits : List (Extended ℝ))
    (chosen : ℕ) : LogprobsCollector :=
  let lse := stableLogsumexp q m logits
  let logprob := (logits[chosen]?).elim bot (q.sub · lse)
  let top :=
    if 0 < c.topN then logits.zipIdx.foldl (fun top x => offer c.topN top x.2 (q.sub x.1 lse)) []
    else []
  { c with entries := c.entries ++ [{ tokenId := chosen, logprob, top }] }

/-- A collector after these observations. -/
noncomputable def collected (topN : ℕ) (past : List (List (Extended ℝ) × ℕ)) : LogprobsCollector :=
  past.foldl (fun c o => c.observe q m o.1 o.2) (LogprobsCollector.new topN)

end

/-! ### The true top -/

section

variable (q : Rounding) (m : Libm)

noncomputable def logprobsOf (logits : List (Extended ℝ)) : List (ℕ × Extended ℝ) :=
  logits.zipIdx.map fun x => (x.2, q.sub x.1 (stableLogsumexp q m logits))

/-- Larger first, then the smaller id. -/
noncomputable def ranksBefore (a b : ℕ × Extended ℝ) : Bool :=
  b.2 < a.2 ∨ ¬ a.2 < b.2 ∧ a.1 ≤ b.1

noncomputable def topLogprobs (logits : List (Extended ℝ)) (n : ℕ) : List (ℕ × Extended ℝ) :=
  ((logprobsOf q m logits).mergeSort ranksBefore).take n

structure TrueTop (topN : ℕ) (logits : List (Extended ℝ)) (chosen : ℕ) (entry : TokenLogprobs) :
    Prop where
  tokenId : entry.tokenId = chosen
  top : entry.top = topLogprobs q m logits (min (min topN 20) logits.length)
  logprob : ∀ lp, (chosen, lp) ∈ entry.top → entry.logprob = lp

end

noncomputable def sum (xs : List (Extended ℝ)) : Extended ℝ := xs.foldl (· + ·) 0

/-- Without rounding, and without taking out the largest logit. -/
noncomputable def logsumexp (logits : List (Extended ℝ)) : Extended ℝ :=
  ln (sum (logits.map exp))

/-! ### The normalizer -/

theorem exists_map_ofWithBot {logits : List (Extended ℝ)} (hnan : nan ∉ logits)
    (htop : Extended.top ∉ logits) : ∃ ws : List (WithBot ℝ), logits = ws.map ofWithBot := by
  induction logits with
  | nil => exact ⟨[], rfl⟩
  | cons l logits ih =>
    obtain ⟨ws, rfl⟩ := ih (fun h => hnan (List.mem_cons_of_mem _ h))
      fun h => htop (List.mem_cons_of_mem _ h)
    obtain ⟨w, rfl⟩ := Extended.exists_ofWithBot
      (fun h => hnan (h ▸ List.mem_cons_self)) fun h => htop (h ▸ List.mem_cons_self)
    exact ⟨w :: ws, rfl⟩

theorem foldl_maxNum (ws : List (WithBot ℝ)) (w : WithBot ℝ) :
    (ws.map ofWithBot).foldl maxNum (ofWithBot w) = ofWithBot (ws.foldl max w) := by
  rw [List.foldl_map]
  exact List.foldl_hom ofWithBot (fun a b => Extended.maxNum_ofWithBot a b)

theorem sum_map_fin (xs : List ℝ) : sum (xs.map fin) = fin xs.sum := by
  rw [sum, List.sum_eq_foldl, List.foldl_map]
  exact List.foldl_hom fin fun a b => Extended.fin_add_fin a b

/-- `exp`, where the lower infinity counts nothing. -/
noncomputable def weight : WithBot ℝ → ℝ
  | ⊥ => 0
  | (x : ℝ) => Real.exp x

theorem exp_ofWithBot (w : WithBot ℝ) : exp (ofWithBot w) = fin (weight w) := by
  induction w using WithBot.recBotCoe <;> rfl

theorem weight_sub (w : WithBot ℝ) (m : ℝ) : weight (w.map (· - m)) = weight w * Real.exp (-m) := by
  induction w using WithBot.recBotCoe with
  | bot => exact (zero_mul _).symm
  | coe x =>
    change Real.exp (x - m) = Real.exp x * Real.exp (-m)
    rw [← Real.exp_add, sub_eq_add_neg]

theorem weight_nonneg (w : WithBot ℝ) : 0 ≤ weight w := by
  induction w using WithBot.recBotCoe with
  | bot => exact le_rfl
  | coe x => exact (Real.exp_pos x).le

theorem sum_weight_pos {ws : List (WithBot ℝ)} {x : ℝ} (hx : (x : WithBot ℝ) ∈ ws) :
    0 < (ws.map weight).sum :=
  calc (0 : ℝ) < Real.exp x := Real.exp_pos x
    _ ≤ (ws.map weight).sum := by
      apply List.single_le_sum
      · intro y hy
        obtain ⟨w, -, rfl⟩ := List.mem_map.1 hy
        exact weight_nonneg w
      · exact List.mem_map_of_mem hx

theorem le_foldl_max {ws : List (WithBot ℝ)} {v w : WithBot ℝ} (hv : v = w ∨ v ∈ ws) :
    v ≤ ws.foldl max w := by
  induction ws generalizing v w with
  | nil => exact (hv.resolve_right List.not_mem_nil).le
  | cons u ws ih =>
    rw [List.foldl_cons]
    rcases hv with rfl | hv
    · exact (le_max_left v u).trans (ih (.inl rfl))
    · rcases List.mem_cons.1 hv with rfl | hv
      · exact (le_max_right w v).trans (ih (.inl rfl))
      · exact ih (.inr hv)

theorem foldl_max_mem {ws : List (WithBot ℝ)} {w : WithBot ℝ} :
    ws.foldl max w = w ∨ ws.foldl max w ∈ ws := by
  induction ws generalizing w with
  | nil => exact .inl rfl
  | cons u ws ih =>
    rw [List.foldl_cons]
    rcases ih (w := max w u) with heq | hmem
    · rw [heq]
      refine (max_choice w u).imp_right fun hmax => ?_
      rw [hmax]
      exact List.mem_cons_self
    · exact .inr (List.mem_cons_of_mem u hmem)

theorem exists_finite {ws : List (WithBot ℝ)} (hfin : ∃ x, fin x ∈ ws.map ofWithBot) :
    ∃ x : ℝ, (x : WithBot ℝ) ∈ ws := by
  obtain ⟨x, hx⟩ := hfin
  obtain ⟨w, hw, hwx⟩ := List.mem_map.1 hx
  obtain rfl : w = (x : WithBot ℝ) := Extended.ofWithBot_injective hwx
  exact ⟨x, hw⟩

theorem exists_max {ws : List (WithBot ℝ)} {x : ℝ} (hx : (x : WithBot ℝ) ∈ ws) :
    ∃ m : ℝ, ws.foldl max ⊥ = m := by
  have hle := le_foldl_max (w := ⊥) (.inr hx)
  obtain ⟨m, hm⟩ := WithBot.ne_bot_iff_exists.1
    (ne_bot_of_le_ne_bot (WithBot.coe_ne_bot (a := x)) hle)
  exact ⟨m, hm.symm⟩

/-- Without rounding the normalizer is the logarithm of the sum of all exponentials. -/
theorem stableLogsumexp_exact {logits : List (Extended ℝ)} (hnan : nan ∉ logits)
    (htop : Extended.top ∉ logits) (hfin : ∃ x, fin x ∈ logits) :
    stableLogsumexp .exact .exact logits = logsumexp logits := by
  obtain ⟨ws, rfl⟩ := exists_map_ofWithBot hnan htop
  obtain ⟨x, hx⟩ := exists_finite hfin
  have hpos := sum_weight_pos hx
  obtain ⟨m, hm⟩ := exists_max hx
  have hmax : (ws.map ofWithBot).foldl maxNum bot = fin m := by
    rw [← Extended.ofWithBot_bot, foldl_maxNum, hm, Extended.ofWithBot_coe]
  have hplain : (ws.map ofWithBot).map exp = (ws.map weight).map fin := by
    simp only [List.map_map, Function.comp_def, exp_ofWithBot]
  have hstable : (ws.map ofWithBot).map (fun l => exp (l - fin m)) =
      (ws.map fun w => weight w * Real.exp (-m)).map fin := by
    simp only [List.map_map, Function.comp_def, Extended.ofWithBot_sub_fin, exp_ofWithBot,
      weight_sub]
  calc stableLogsumexp .exact .exact (ws.map ofWithBot)
      = fin m + ln (sum ((ws.map ofWithBot).map fun l => exp (l - fin m))) := by
        rw [← hmax]
        rfl
    _ = fin m + fin (Real.log ((ws.map weight).sum * Real.exp (-m))) := by
        rw [hstable, sum_map_fin, List.sum_map_mul_right,
          Extended.ln_pos (mul_pos hpos (Real.exp_pos _))]
    _ = fin (Real.log (ws.map weight).sum) := by
        rw [Extended.fin_add_fin, Real.log_mul hpos.ne' (Real.exp_ne_zero _), Real.log_exp]
        congr 1
        ring
    _ = logsumexp (ws.map ofWithBot) := by
        rw [logsumexp, hplain, sum_map_fin, Extended.ln_pos hpos]

section

variable {q : Rounding} {m : Libm}

/-- A sum of numbers not below zero is not below any of them that is a float. -/
theorem le_foldl_add {xs : List (Extended ℝ)} (hnonneg : ∀ x ∈ xs, 0 ≤ x) {y acc : Extended ℝ}
    (hy : q.IsFloat y) (hacc : 0 ≤ acc) (hle : y ≤ acc ∨ y ∈ xs) : y ≤ xs.foldl q.add acc := by
  induction xs generalizing acc with
  | nil => exact hle.resolve_right List.not_mem_nil
  | cons x xs ih =>
    obtain ⟨hx, hxs⟩ := List.forall_mem_cons.mp hnonneg
    rw [List.foldl_cons]
    apply ih hxs (Rounding.add_nonneg hacc hx)
    rcases hle with hle | hmem
    · exact .inl (hy.le_add hacc hx hle)
    · rcases List.mem_cons.mp hmem with rfl | hmem
      · exact .inl (hy.le_add_right hacc hx (Extended.le_self (Extended.ne_nan_of_le hx).2))
      · exact .inr hmem

theorem ofWithBot_sub_ne_nan (w : WithBot ℝ) (x : ℝ) : ofWithBot w - fin x ≠ nan := by
  rw [Extended.ofWithBot_sub_fin]
  exact Extended.ofWithBot_ne_nan _

/-- With a finite logit the normalizer is not below the largest one. -/
theorem le_stableLogsumexp {ws : List (WithBot ℝ)} {top : ℝ} (htop : ws.foldl max ⊥ = top)
    (hmem : (top : WithBot ℝ) ∈ ws) (hfloat : q.IsFloat (fin top)) :
    fin top ≤ stableLogsumexp q m (ws.map ofWithBot) := by
  have hmax : (ws.map ofWithBot).foldl maxNum bot = fin top := by
    rw [← Extended.ofWithBot_bot, foldl_maxNum, htop, Extended.ofWithBot_coe]
  have hterms : ∀ e ∈ (ws.map ofWithBot).map fun l => m.exp (q.sub l (fin top)), 0 ≤ e := by
    intro e he
    obtain ⟨l, hl, rfl⟩ := List.mem_map.mp he
    obtain ⟨w, -, rfl⟩ := List.mem_map.mp hl
    exact m.exp_nonneg (Rounding.round_ne_nan (ofWithBot_sub_ne_nan w top))
  -- The term of the largest logit is one.
  have hone : (1 : Extended ℝ) ∈ (ws.map ofWithBot).map fun l => m.exp (q.sub l (fin top)) := by
    refine List.mem_map.mpr ⟨fin top, List.mem_map_of_mem hmem, ?_⟩
    rw [q.sub_self_fin, m.exp_zero]
  have hsum : 1 ≤ q.sum ((ws.map ofWithBot).map fun l => m.exp (q.sub l (fin top))) :=
    le_foldl_add hterms Rounding.isFloat_one (Extended.zero_le_fin.mpr le_rfl) (.inr hone)
  have hln := m.ln_nonneg hsum
  rw [stableLogsumexp]
  simp only [hmax]
  exact hfloat.le_round (Extended.fin_le_fin_add hln)

end

/-! ### The scan -/

/-- An entry whose logprob is a number or the lower infinity. -/
def lift (x : ℕ × WithBot ℝ) : ℕ × Extended ℝ := (x.1, ofWithBot x.2)

theorem insertRanked_lift (top : List (ℕ × WithBot ℝ)) (i : ℕ) (w : WithBot ℝ) :
    insertRanked (top.map lift) i (ofWithBot w) = (TopN.place Prod.snd (i, w) top).map lift := by
  unfold insertRanked
  induction top with
  | nil => rfl
  | cons a rest ih =>
    by_cases hle : w ≤ a.2
    · have hstay : ofWithBot w ≤ (lift a).2 := Extended.ofWithBot_le.2 hle
      rw [List.map_cons, List.takeWhile_cons_of_pos (by simpa using hstay), List.length_cons,
        List.insertIdx_succ_cons, ih, TopN.place, if_pos hle, List.map_cons]
    · have hgo : ¬ ofWithBot w ≤ (lift a).2 := mt Extended.ofWithBot_le.1 hle
      rw [List.map_cons, List.takeWhile_cons_of_neg (by simpa using hgo), List.length_nil,
        List.insertIdx_zero, TopN.place, if_neg hle, List.map_cons, List.map_cons]
      rfl

theorem offer_lift {topN : ℕ} {top : List (ℕ × WithBot ℝ)} (hroom : top.length ≤ topN) (i : ℕ)
    (w : WithBot ℝ) :
    offer topN (top.map lift) i (ofWithBot w) = (TopN.push Prod.snd topN top (i, w)).map lift := by
  unfold offer TopN.push
  rw [List.length_map]
  split_ifs with hlt
  · exact insertRanked_lift top i w
  · have hfull : topN = top.length := by omega
    rw [hfull, List.getElem?_map, ← List.getLast?_eq_getElem?]
    cases top.getLast? with
    | none => rfl
    | some last =>
      simp only [Option.map_some]
      by_cases hbeats : last.2 < w
      · rw [if_pos (show (lift last).2 < ofWithBot w from Extended.ofWithBot_lt.2 hbeats),
          if_pos hbeats, ← List.map_dropLast, insertRanked_lift]
      · rw [if_neg (show ¬ (lift last).2 < ofWithBot w from mt Extended.ofWithBot_lt.1 hbeats),
          if_neg hbeats]

theorem foldl_offer_lift {topN : ℕ} (xs : List (ℕ × WithBot ℝ)) {top : List (ℕ × WithBot ℝ)}
    (hroom : top.length ≤ topN) :
    (xs.map lift).foldl (fun top x => offer topN top x.1 x.2) (top.map lift) =
      (xs.foldl (TopN.push Prod.snd topN) top).map lift := by
  induction xs generalizing top with
  | nil => rfl
  | cons x xs ih =>
    rw [List.map_cons, List.foldl_cons, List.foldl_cons]
    have hoffer := offer_lift hroom x.1 x.2
    rw [show (lift x).1 = x.1 from rfl, show (lift x).2 = ofWithBot x.2 from rfl, hoffer]
    exact ih (TopN.length_push_le hroom x)

theorem ranksBefore_lift (a b : ℕ × WithBot ℝ) :
    TopN.before Prod.snd Prod.fst a b = ranksBefore (lift a) (lift b) := by
  rw [TopN.before, ranksBefore, decide_eq_decide]
  simp only [lift, Extended.ofWithBot_lt, not_lt]
  constructor
  · exact fun h => h.imp_right fun h => ⟨h.1.le, h.2⟩
  · rintro (hlt | ⟨hle, hid⟩)
    · exact .inl hlt
    · exact hle.lt_or_eq.imp_right fun heq => ⟨heq, hid⟩

/-- The scan keeps the first entries of the sorted list. -/
theorem foldl_offer_eq_mergeSort {xs : List (ℕ × WithBot ℝ)}
    (hids : xs.Pairwise fun a b => a.1 < b.1) (topN : ℕ) :
    (xs.map lift).foldl (fun top x => offer topN top x.1 x.2) [] =
      ((xs.map lift).mergeSort ranksBefore).take topN := by
  have hempty : ([] : List (ℕ × WithBot ℝ)).length ≤ topN := Nat.zero_le topN
  have hscan := foldl_offer_lift xs hempty
  rw [List.map_nil] at hscan
  rw [hscan, TopN.foldl_push_eq_mergeSort hids, List.map_take,
    List.map_mergeSort fun a _ b _ => ranksBefore_lift a b]

/-! ### One observation -/

section

variable {q : Rounding} {m : Libm} {logits : List (Extended ℝ)} {c : LogprobsCollector}
  {topN chosen : ℕ}

/-- With a finite logit no logprob is above zero. -/
theorem logprob_le_zero {ws : List (WithBot ℝ)} {x : ℝ} (hx : (x : WithBot ℝ) ∈ ws)
    (hfloats : ∀ l ∈ ws.map ofWithBot, q.IsFloat l) {w : WithBot ℝ} (hw : w ∈ ws) :
    q.sub (ofWithBot w) (stableLogsumexp q m (ws.map ofWithBot)) ≤ 0 := by
  obtain ⟨top, htop⟩ := exists_max hx
  have hmem : (top : WithBot ℝ) ∈ ws := by
    have hlargest : ws.foldl max ⊥ = ⊥ ∨ ws.foldl max ⊥ ∈ ws := foldl_max_mem
    rcases hlargest with hbot | hmem
    · rw [htop] at hbot
      exact absurd hbot (WithBot.coe_ne_bot)
    · rwa [htop] at hmem
  have hle : w ≤ top := htop ▸ le_foldl_max (.inr hw)
  have hlse := le_stableLogsumexp (m := m) htop hmem (hfloats _ (List.mem_map_of_mem hmem))
  exact Rounding.isFloat_zero.round_le (Extended.ofWithBot_sub_le_zero hle hlse)

theorem ids_logprobsOf (logits : List (Extended ℝ)) :
    (logprobsOf q m logits).map Prod.fst = List.range logits.length := by
  rw [logprobsOf, List.map_map, Function.comp_def, List.zipIdx_map_snd, List.range_eq_range']

theorem length_logprobsOf (logits : List (Extended ℝ)) :
    (logprobsOf q m logits).length = logits.length := by
  rw [logprobsOf, List.length_map, List.length_zipIdx]

theorem exists_lift {top : List (ℕ × Extended ℝ)} (hvalues : ∀ x ∈ top, x.2 ≤ 0) :
    ∃ xs : List (ℕ × WithBot ℝ), top = xs.map lift := by
  induction top with
  | nil => exact ⟨[], rfl⟩
  | cons x top ih =>
    obtain ⟨hx, htop⟩ := List.forall_mem_cons.mp hvalues
    obtain ⟨xs, rfl⟩ := ih htop
    obtain ⟨w, hw⟩ := Extended.exists_ofWithBot (Extended.ne_nan_of_le hx).1 (by
      intro heq
      rw [heq] at hx
      cases Extended.eq_top_of_top_le hx)
    exact ⟨(x.1, w) :: xs, by rw [List.map_cons, lift, ← hw]⟩

/-- The logprobs of a vector with a finite logit, and neither `nan` nor the upper infinity. -/
theorem logprobsOf_lift (hfloats : ∀ l ∈ logits, q.IsFloat l) (hnan : nan ∉ logits)
    (htop : Extended.top ∉ logits) (hfin : ∃ x, fin x ∈ logits) :
    ∃ xs : List (ℕ × WithBot ℝ), logprobsOf q m logits = xs.map lift ∧
      xs.Pairwise fun a b => a.1 < b.1 := by
  have hvalues : ∀ x ∈ logprobsOf q m logits, x.2 ≤ 0 := by
    obtain ⟨ws, rfl⟩ := exists_map_ofWithBot hnan htop
    obtain ⟨x, hx⟩ := exists_finite hfin
    intro lp hlp
    obtain ⟨l, hl, rfl⟩ := List.mem_map.mp hlp
    obtain ⟨w, hw, hwl⟩ := List.mem_map.mp (List.fst_mem_of_mem_zipIdx hl)
    rw [← hwl]
    exact logprob_le_zero hx hfloats hw
  obtain ⟨xs, hxs⟩ := exists_lift hvalues
  refine ⟨xs, hxs, List.pairwise_map.1 ?_⟩
  have hids : xs.map Prod.fst = List.range logits.length := by
    rw [← ids_logprobsOf (q := q) (m := m), hxs, List.map_map]
    rfl
  rw [hids]
  exact List.pairwise_lt_range

/-- What is listed of a token is its logit less the normalizer. -/
theorem mem_topLogprobs {n : ℕ} {lp : Extended ℝ}
    (hmem : (chosen, lp) ∈ topLogprobs q m logits n) :
    ∃ l, logits[chosen]? = some l ∧ lp = q.sub l (stableLogsumexp q m logits) := by
  have hin := List.mem_mergeSort.1 (List.mem_of_mem_take hmem)
  obtain ⟨x, hx, heq⟩ := List.mem_map.1 hin
  rw [Prod.mk.injEq] at heq
  refine ⟨x.1, ?_, heq.2.symm⟩
  rw [← heq.1]
  exact List.mem_zipIdx_iff_getElem?.1 hx

/-- The scan over a vector's logprobs keeps the top ones. -/
theorem foldl_offer_eq_topLogprobs (hfloats : ∀ l ∈ logits, q.IsFloat l) (hnan : nan ∉ logits)
    (htop : Extended.top ∉ logits) (hfin : ∃ x, fin x ∈ logits) (n : ℕ) :
    (logprobsOf q m logits).foldl (fun top x => offer n top x.1 x.2) [] =
      topLogprobs q m logits (min n logits.length) := by
  obtain ⟨xs, hxs, hids⟩ := logprobsOf_lift (m := m) hfloats hnan htop hfin
  have hsorted : ((logprobsOf q m logits).mergeSort ranksBefore).length = logits.length := by
    rw [List.length_mergeSort, length_logprobsOf]
  rw [topLogprobs, ← hsorted, ← List.take_eq_take_min, hxs]
  exact foldl_offer_eq_mergeSort hids n

/-- With no `nan`, no upper infinity and a finite logit, the top is the true one. -/
theorem observe_entry (hfloats : ∀ l ∈ logits, q.IsFloat l) (hnan : nan ∉ logits)
    (htop : Extended.top ∉ logits) (hfin : ∃ x, fin x ∈ logits) (hc : c.topN = min topN 20)
    (chosen : ℕ) :
    ∃ entry, (c.observe q m logits chosen).entries = c.entries ++ [entry] ∧
      TrueTop q m topN logits chosen entry := by
  have htrue : (if 0 < c.topN then
      logits.zipIdx.foldl (fun top x =>
        offer c.topN top x.2 (q.sub x.1 (stableLogsumexp q m logits))) []
      else []) = topLogprobs q m logits (min (min topN 20) logits.length) := by
    have hscan := foldl_offer_eq_topLogprobs (m := m) hfloats hnan htop hfin c.topN
    rw [logprobsOf, List.foldl_map] at hscan
    rw [hscan, hc]
    split_ifs with hpos
    · rfl
    · rw [topLogprobs, show min topN 20 = 0 by omega, Nat.zero_min, List.take_zero]
  refine ⟨_, rfl, rfl, htrue, fun lp hlp => ?_⟩
  obtain ⟨l, hl, rfl⟩ := mem_topLogprobs (htrue ▸ hlp)
  rw [hl]
  rfl

end

theorem topN_collected (q : Rounding) (m : Libm) (topN : ℕ)
    (past : List (List (Extended ℝ) × ℕ)) : (collected q m topN past).topN = min topN 20 := by
  unfold collected
  induction past using List.reverseRecOn with
  | nil => rfl
  | append_singleton past o ih => rw [List.foldl_append]; exact ih

/-- What `observe` records after any observations before it, whatever the rounding. Without rounding
the normalizer is the logarithm of the sum of the exponentials. -/
theorem observe_trueTop (q : Rounding) (m : Libm) (topN : ℕ)
    (past : List (List (Extended ℝ) × ℕ)) (logits : List (Extended ℝ)) (chosen : ℕ)
    (hfloats : ∀ l ∈ logits, q.IsFloat l) (hnan : nan ∉ logits) (htop : Extended.top ∉ logits)
    (hfin : ∃ x, fin x ∈ logits) :
    (∃ entry, ((collected q m topN past).observe q m logits chosen).entries =
        (collected q m topN past).entries ++ [entry] ∧ TrueTop q m topN logits chosen entry) ∧
      stableLogsumexp .exact .exact logits = logsumexp logits := by
  constructor
  · exact observe_entry hfloats hnan htop hfin (topN_collected q m topN past) chosen
  · exact stableLogsumexp_exact hnan htop hfin

/-! ### 32-bit floats -/

open Rounding (float32)

theorem float32_hundred {x : ℝ} (hx : |x - 100| < (1 / 2) ^ 18) :
    float32.round (fin x) = fin 100 := by
  obtain ⟨hlow, hhigh⟩ := abs_lt.mp hx
  have hvalue : ((13107200 : ℤ) : ℝ) * 2 ^ (-17 : ℤ) = 100 := by norm_num
  rw [← hvalue]
  refine Rounding.float32_of_near (by norm_num) ?_ ?_ ?_ ?_
  · norm_num at hlow ⊢
    linarith
  · norm_num at hhigh ⊢
    linarith
  · rw [hvalue]
    norm_num at hx ⊢
    exact hx
  · rw [hvalue]
    norm_num

/-- Two logits that are less apart than the unit at the largest one. -/
noncomputable def tiedLogits : List (Extended ℝ) := [0, (1 / 2) ^ 30, 100].map Extended.ofRat

theorem tiedLogits_eq : tiedLogits = [fin 0, fin ((1 / 2) ^ 30), fin 100] := by
  simp [tiedLogits, Extended.ofRat]

/-- A number less than the unit at the largest logit is lost in a difference. -/
theorem sub_hundred {x : ℝ} (hx : |x| < (1 / 2) ^ 18) :
    float32.sub (fin x) (fin 100) = fin (-100) := by
  have hnear := float32_hundred (x := 100 - x) (by rwa [sub_sub_cancel_left, abs_neg])
  have hpos : 0 < 100 - x := by
    have hless := (abs_lt.mp hx).2
    norm_num at hless
    linarith
  rw [Rounding.sub, Extended.fin_sub_fin, ← neg_sub, Rounding.float32_neg hpos, hnear]
  rfl

theorem exists_small {k : ℕ} (hk : k ≤ 149) {x : ℝ} (hx : 0 ≤ x) (hle : x ≤ (1 / 2) ^ k) :
    ∃ a : ℝ, float32.round (fin x) = fin a ∧ 0 ≤ a ∧ a ≤ (1 / 2) ^ k :=
  Rounding.round_between Rounding.isFloat_zero (Rounding.isFloat_halfPow hk) le_rfl hx hle

theorem exp_neg_hundred_le : Real.exp (-100) ≤ (1 / 2) ^ 100 := by
  have hone : Real.exp (-1) ≤ 1 / 2 := by
    rw [Real.exp_neg, one_div]
    apply inv_anti₀ two_pos
    linarith [Real.add_one_le_exp 1]
  calc Real.exp (-100) = Real.exp (-1) ^ 100 := by
        rw [← Real.exp_nat_mul]
        norm_num
    _ ≤ (1 / 2) ^ 100 := pow_le_pow_left₀ (Real.exp_pos _).le hone 100

theorem stableLogsumexp_tiedLogits :
    stableLogsumexp float32 (.rounded float32) tiedLogits = fin 100 := by
  have hmax : tiedLogits.foldl maxNum bot = fin 100 := by
    have hfirst : (0 : ℝ) < (1 / 2) ^ 30 := by norm_num
    have hsecond : ((1 : ℝ) / 2) ^ 30 < 100 := by norm_num
    simp only [tiedLogits_eq, List.foldl_cons, List.foldl_nil, maxNum, reduceCtorEq, if_false,
      Extended.bot_lt_fin, if_true, Extended.fin_lt_fin, hfirst, hsecond]
  obtain ⟨a, hexp, ha, hale⟩ := exists_small (k := 100) (by norm_num) (Real.exp_pos (-100)).le
    exp_neg_hundred_le
  have hsmall : (Libm.rounded float32).exp (fin (-100)) = fin a := hexp
  have hterms : tiedLogits.map (fun l => (Libm.rounded float32).exp (float32.sub l (fin 100))) =
      [fin a, fin a, 1] := by
    rw [tiedLogits_eq, List.map_cons, List.map_cons, List.map_singleton, float32.sub_self_fin,
      (Libm.rounded float32).exp_zero, sub_hundred (by norm_num), sub_hundred (by norm_num), hsmall]
  have hsum : float32.sum [fin a, fin a, 1] = 1 := by
    obtain ⟨b, hb, hbpos, hble⟩ := exists_small (k := 100) (x := 0 + a) (by norm_num)
      (by rwa [zero_add]) (by rwa [zero_add])
    obtain ⟨c, hc, hcpos, hcle⟩ := exists_small (k := 99) (x := b + a) (by norm_num)
      (add_nonneg hbpos ha) (by
        rw [show ((1 : ℝ) / 2) ^ 99 = (1 / 2) ^ 100 + (1 / 2) ^ 100 by norm_num]
        exact add_le_add hble hale)
    have hfirst : float32.add 0 (fin a) = fin b := hb
    have hsecond : float32.add (fin b) (fin a) = fin c := hc
    rw [Rounding.sum, List.foldl_cons, List.foldl_cons, List.foldl_cons, List.foldl_nil, hfirst,
      hsecond]
    exact Rounding.float32_add_one hcpos (hcle.trans_lt (by norm_num))
  have hln : (Libm.rounded float32).ln 1 = 0 := by
    change float32.round (Extended.ln (fin 1)) = 0
    rw [Extended.ln_pos one_pos, Real.log_one]
    exact float32.round_zero
  unfold stableLogsumexp
  simp only [hmax, hterms, hsum, hln]
  change float32.round (fin (100 + 0)) = fin 100
  exact float32_hundred (by norm_num)

/-- Tokens that differ before they are rounded are listed by their ids. -/
theorem observe_trueTop_tied :
    ∃ entry, ((collected float32 (.rounded float32) 2 []).observe float32 (.rounded float32)
        tiedLogits 1).entries = [] ++ [entry] ∧
      TrueTop float32 (.rounded float32) 2 tiedLogits 1 entry ∧
      entry.top = [(2, 0), (0, fin (-100))] := by
  have hfloats : ∀ l ∈ tiedLogits, float32.IsFloat l := by
    intro l hl
    simp only [tiedLogits_eq, List.mem_cons, List.not_mem_nil, or_false] at hl
    rcases hl with rfl | rfl | rfl
    · exact float32.round_zero
    · exact float32.round_halfPow 30 (by norm_num)
    · exact float32_hundred (by norm_num)
  obtain ⟨⟨entry, hentry, htrue⟩, -⟩ := observe_trueTop float32 (.rounded float32) 2 [] tiedLogits 1
    hfloats (by simp [tiedLogits_eq]) (by simp [tiedLogits_eq]) ⟨0, by simp [tiedLogits_eq]⟩
  refine ⟨entry, hentry, htrue, ?_⟩
  have hlogprobs : logprobsOf float32 (.rounded float32) tiedLogits =
      [(0, fin (-100)), (1, fin (-100)), (2, 0)] := by
    rw [logprobsOf, stableLogsumexp_tiedLogits, tiedLogits_eq, List.zipIdx_cons, List.zipIdx_cons,
      List.zipIdx_cons, List.zipIdx_nil, List.map_cons, List.map_cons, List.map_cons, List.map_nil,
      sub_hundred (by norm_num), sub_hundred (by norm_num), float32.sub_self_fin]
  rw [htrue.top, topLogprobs, hlogprobs]
  have hlt : fin (-100) < (0 : Extended ℝ) := by
    change (-100 : ℝ) < 0
    norm_num
  simp [List.mergeSort, List.MergeSort.Internal.splitInTwo, ranksBefore, tiedLogits_eq, hlt,
    Extended.lt_asymm' hlt]

/-- The upper infinity turns every logprob into `nan`, and the ids come out backwards. -/
theorem observe_infinite_logit :
    ¬ ∀ (topN : ℕ) (past : List (List (Extended ℝ) × ℕ)) (logits : List (Extended ℝ)) (chosen : ℕ),
      (∀ l ∈ logits, float32.IsFloat l) → nan ∉ logits → (∃ x, fin x ∈ logits) →
        ∃ entry, ((collected float32 (.rounded float32) topN past).observe float32
            (.rounded float32) logits chosen).entries =
            (collected float32 (.rounded float32) topN past).entries ++ [entry] ∧
          TrueTop float32 (.rounded float32) topN logits chosen entry := by
  intro hall
  have hfloats : ∀ l ∈ [Extended.top, fin 0], float32.IsFloat l := by
    intro l hl
    rcases List.mem_pair.mp hl with rfl | rfl
    · rfl
    · exact float32.round_zero
  obtain ⟨entry, hentry, -, htop, -⟩ :=
    hall 2 [] [Extended.top, fin 0] 0 hfloats (by simp) ⟨0, by simp⟩
  have hmax : [Extended.top, fin 0].foldl maxNum (bot : Extended ℝ) = Extended.top := by
    have hbot : (bot : Extended ℝ) < Extended.top := trivial
    have hfin : ¬ (Extended.top : Extended ℝ) < fin 0 := id
    simp [maxNum, hbot, hfin]
  have hlse : stableLogsumexp float32 (.rounded float32) [Extended.top, fin 0] = nan := by
    simp only [stableLogsumexp, hmax]
    rfl
  have hscan : offer 2 (offer 2 [] 0 nan) 1 nan = [(1, nan), (0, nan)] := by
    simp [offer, insertRanked]
  have hlisted : entry.top = [(1, nan), (0, nan)] := by
    rw [← List.singleton_inj.1 hentry]
    change offer 2 (offer 2 [] 0 (float32.sub Extended.top (stableLogsumexp _ _ _))) 1
      (float32.sub (fin 0) (stableLogsumexp _ _ _)) = _
    rw [hlse]
    exact hscan
  -- The sort keeps the order of the ids, since nothing is larger than `nan`.
  have hlogprobs : logprobsOf float32 (.rounded float32) [Extended.top, fin 0] =
      [(0, nan), (1, nan)] := by
    rw [logprobsOf, hlse]
    rfl
  rw [htop, topLogprobs, hlogprobs] at hlisted
  simp [List.mergeSort, List.MergeSort.Internal.splitInTwo, ranksBefore] at hlisted

end Zllm.Logprobs
