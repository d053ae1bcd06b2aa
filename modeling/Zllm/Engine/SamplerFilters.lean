import Zllm.Engine.Sampler

/-!
# What the sampler can draw

Stage by stage, the lists that the sampler computes are the masses of what the filters keep, up to a
common factor. So a token has a positive probability exactly if it survives the filters, and what is
drawn survives unless the draw is zero and the first token does not.
-/

namespace Zllm.Sampler

open Zllm.Ranking

/-! ### Largest entries -/

theorem foldl_max_eq {α : Type*} [LinearOrder α] {xs : List α} {start m : α} (hmem : m ∈ xs)
    (hle : ∀ x ∈ xs, x ≤ m) (hstart : start ≤ m) : xs.foldl max start = m := by
  induction xs generalizing start with
  | nil => exact absurd hmem List.not_mem_nil
  | cons x rest ih =>
    obtain ⟨hx, hrest⟩ := List.forall_mem_cons.mp hle
    rw [List.foldl_cons]
    by_cases hlater : m ∈ rest
    · exact ih hlater hrest (max_le hstart hx)
    · obtain rfl := (List.mem_cons.mp hmem).resolve_right hlater
      rw [max_eq_right hstart]
      clear ih hmem hle hstart hx hlater
      induction rest with
      | nil => rfl
      | cons y rest ih =>
        obtain ⟨hy, hrest⟩ := List.forall_mem_cons.mp hrest
        rw [List.foldl_cons, max_eq_left hy]
        exact ih hrest

/-- Some logit is a number that no logit exceeds. -/
theorem exists_largest {logits : List Logit} (hfinite : ∃ l ∈ logits, l ≠ ⊥) :
    ∃ b : ℝ, (b : Logit) ∈ logits ∧ ∀ l ∈ logits, l ≤ b := by
  obtain ⟨l, hl, hne⟩ := hfinite
  obtain ⟨m, hm, hmax⟩ := logits.toFinset.exists_max_image id ⟨l, List.mem_toFinset.mpr hl⟩
  have hle : ∀ x ∈ logits, x ≤ m := fun x hx => hmax x (List.mem_toFinset.mpr hx)
  have hbot : m ≠ ⊥ := fun h => hne (le_bot_iff.mp (h ▸ hle l hl))
  obtain ⟨b, rfl⟩ := WithBot.ne_bot_iff_exists.mp hbot
  exact ⟨b, List.mem_toFinset.mp hm, hle⟩

/-! ### Temperature and top-k -/

section

variable {cfg : SamplerConfig} {logits : List Logit}

theorem temperatureScaled_eq (temperature : ℝ) (logits : List Logit) :
    temperatureScaled temperature logits = logits.map (divided temperature) := by
  unfold temperatureScaled
  split
  · rfl
  · next hone =>
    have hid : divided temperature = id := by
      funext l
      rw [not_not.mp hone]
      induction l using WithBot.recBotCoe with
      | bot => rfl
      | coe x => exact congrArg _ (div_one x)
    rw [hid, List.map_id]

theorem divided_lt_divided {temperature : ℝ} (hpos : 0 < temperature) {l l' : Logit} :
    divided temperature l < divided temperature l' ↔ l < l' := by
  have hmono : StrictMono fun x : ℝ => x / temperature := fun x y hxy =>
    div_lt_div_of_pos_right hxy hpos
  exact hmono.withBot_map.lt_iff_lt

theorem divided_le_divided {temperature : ℝ} (hpos : 0 < temperature) {l l' : Logit} :
    divided temperature l ≤ divided temperature l' ↔ l ≤ l' := by
  rw [← not_lt, ← not_lt, divided_lt_divided hpos]

/-- A logit below the one at rank `topK` has at least `topK` logits above it. -/
theorem topKFiltered_eq (topK : ℕ) (logits : List Logit) :
    topKFiltered topK logits = logits.map fun l =>
      if topK = 0 ∨ logits.length ≤ topK ∨ logits.countP (fun x => decide (l < x)) < topK then l
      else ⊥ := by
  unfold topKFiltered
  split
  · next hon =>
    obtain ⟨hpos, hlt⟩ := hon
    have hlength : topK - 1 < (ranked logits).length := by
      rw [(ranked_perm logits).length_eq, List.length_zipIdx]
      omega
    refine List.map_congr_left fun l _ => ?_
    rw [List.getElem?_eq_getElem hlength, Option.elim_some]
    have hiff : l < (ranked logits)[topK - 1].1 ↔
        ¬ (topK = 0 ∨ logits.length ≤ topK ∨ logits.countP (fun x => decide (l < x)) < topK) := by
      rw [lt_ranked_iff hlength]
      omega
    by_cases hkept : topK = 0 ∨ logits.length ≤ topK ∨
        logits.countP (fun x => decide (l < x)) < topK
    · rw [if_pos hkept, if_neg fun hbelow => hiff.mp hbelow hkept]
    · rw [if_neg hkept, if_pos (hiff.mpr hkept)]
  · next hoff =>
    have hall : topK = 0 ∨ logits.length ≤ topK := by omega
    conv_lhs => rw [← List.map_id logits]
    refine List.map_congr_left fun l _ => ?_
    rw [if_pos (hall.imp_right Or.inl)]
    rfl

/-- Scaling changes no order, so what is filtered can be told before it. -/
theorem topKFiltered_scaled (hpos : 0 < cfg.temperature) :
    topKFiltered cfg.topK (temperatureScaled cfg.temperature logits) =
      logits.map fun l =>
        if KeptByTopK cfg logits l then divided cfg.temperature l else ⊥ := by
  rw [temperatureScaled_eq, topKFiltered_eq, List.map_map]
  refine List.map_congr_left fun l _ => ?_
  have hcount : (logits.map (divided cfg.temperature)).countP
      (fun x => decide (divided cfg.temperature l < x)) =
      logits.countP fun x => decide (l < x) := by
    rw [List.countP_map]
    refine List.countP_congr fun x _ => ?_
    simp only [Function.comp_apply, decide_eq_true_eq, divided_lt_divided hpos]
  rw [Function.comp_apply, List.length_map, hcount]
  rfl

/-! ### Softmax -/

theorem expShifted_nonneg (largest : ℝ) (l : Logit) : 0 ≤ expShifted largest l := by
  induction l using WithBot.recBotCoe with
  | bot => exact le_rfl
  | coe x => exact (Real.exp_pos _).le

theorem expShifted_pos {largest : ℝ} {l : Logit} : 0 < expShifted largest l ↔ l ≠ ⊥ := by
  induction l using WithBot.recBotCoe with
  | bot => exact iff_of_false (lt_irrefl _) fun h => h rfl
  | coe x => exact iff_of_true (Real.exp_pos _) WithBot.coe_ne_bot

theorem expShifted_le_one {largest : ℝ} {l : Logit} (hle : l ≤ (largest : Logit)) :
    expShifted largest l ≤ 1 := by
  induction l using WithBot.recBotCoe with
  | bot => exact zero_le_one
  | coe x => exact Real.exp_le_one_iff.mpr (sub_nonpos.mpr (WithBot.coe_le_coe.mp hle))

theorem expShifted_self (largest : ℝ) : expShifted largest largest = 1 := by
  show Real.exp (largest - largest) = 1
  rw [sub_self, Real.exp_zero]

theorem divided_eq_bot {temperature : ℝ} {l : Logit} : divided temperature l = ⊥ ↔ l = ⊥ :=
  WithBot.map_eq_bot_iff

theorem relative_pos {l : Logit} : 0 < relative cfg logits l ↔ l ≠ ⊥ := by
  rw [relative, expShifted_pos, ne_eq, divided_eq_bot]

theorem keptByTopK_largest {b : ℝ} (hle : ∀ l ∈ logits, l ≤ (b : Logit)) :
    KeptByTopK cfg logits b := by
  rcases Nat.eq_zero_or_pos cfg.topK with hzero | hpos
  · exact .inl hzero
  · have hnone : logits.countP (fun x => decide ((b : Logit) < x)) = 0 := by
      refine List.countP_eq_zero.mpr fun x hx => ?_
      simpa using hle x hx
    exact .inr (.inr (hnone ▸ hpos))

/-- The probability of what top-k keeps, in units of the largest. -/
noncomputable def topKMass (cfg : SamplerConfig) (logits : List Logit) (l : Logit) : ℝ :=
  if KeptByTopK cfg logits l then relative cfg logits l else 0

theorem largest_eq {b : ℝ} (hmem : (b : Logit) ∈ logits) (hle : ∀ l ∈ logits, l ≤ (b : Logit)) :
    (logits.foldl max ⊥).unbotD 0 = b := by
  rw [foldl_max_eq hmem hle bot_le]
  rfl

theorem relative_largest {b : ℝ} (hmem : (b : Logit) ∈ logits)
    (hle : ∀ l ∈ logits, l ≤ (b : Logit)) : relative cfg logits b = 1 := by
  rw [relative, largest_eq hmem hle]
  exact expShifted_self _

theorem relative_le_one {b : ℝ} (hpos : 0 < cfg.temperature) (hmem : (b : Logit) ∈ logits)
    (hle : ∀ l ∈ logits, l ≤ (b : Logit)) {l : Logit} (hl : l ∈ logits) :
    relative cfg logits l ≤ 1 := by
  rw [relative, largest_eq hmem hle]
  exact expShifted_le_one ((divided_le_divided hpos).mpr (hle l hl))

theorem softmax_filtered (hpos : 0 < cfg.temperature) (hfinite : ∃ l ∈ logits, l ≠ ⊥) :
    softmax (topKFiltered cfg.topK (temperatureScaled cfg.temperature logits)) =
      logits.map fun l =>
        topKMass cfg logits l / (logits.map (topKMass cfg logits)).sum := by
  obtain ⟨b, hmem, hle⟩ := exists_largest hfinite
  rw [topKFiltered_scaled hpos, softmax]
  have hlargest : (logits.map fun l =>
      if KeptByTopK cfg logits l then divided cfg.temperature l else ⊥).foldl max ⊥ =
        ((b / cfg.temperature : ℝ) : Logit) := by
    refine foldl_max_eq (List.mem_map.mpr ⟨b, hmem, if_pos (keptByTopK_largest hle)⟩) ?_ bot_le
    refine List.forall_mem_map.mpr fun l hl => ?_
    split_ifs
    · exact (divided_le_divided hpos).mpr (hle l hl)
    · exact bot_le
  have hweight : ∀ l, expShifted (b / cfg.temperature)
      (if KeptByTopK cfg logits l then divided cfg.temperature l else ⊥) =
        topKMass cfg logits l := by
    intro l
    rw [topKMass, relative, largest_eq hmem hle]
    split_ifs
    · rfl
    · rfl
  simp only [hlargest, WithBot.unbotD_coe, List.map_map, Function.comp_def, hweight]

/-! ### Min-p -/

theorem sum_map_div {α : Type*} (xs : List α) (f : α → ℝ) (c : ℝ) :
    (xs.map fun x => f x / c).sum = (xs.map f).sum / c := by
  simp only [div_eq_mul_inv, List.sum_map_mul_right]

theorem relative_nonneg (l : Logit) : 0 ≤ relative cfg logits l := expShifted_nonneg _ _

theorem topKMass_nonneg (l : Logit) : 0 ≤ topKMass cfg logits l := by
  unfold topKMass
  split_ifs
  · exact relative_nonneg l
  · exact le_rfl

theorem mass_nonneg (l : Logit) : 0 ≤ mass cfg logits l := by
  unfold mass
  split_ifs
  · exact relative_nonneg l
  · exact le_rfl

/-- Min-p clears what top-k keeps below `minP`. -/
theorem mass_eq (hon : 0 < cfg.minP) (l : Logit) :
    mass cfg logits l = if topKMass cfg logits l < cfg.minP then 0 else topKMass cfg logits l := by
  have hminP : KeptByMinP cfg logits l ↔ cfg.minP ≤ relative cfg logits l :=
    or_iff_right hon.not_ge
  unfold mass topKMass
  by_cases htopK : KeptByTopK cfg logits l
  · by_cases hlt : relative cfg logits l < cfg.minP
    · rw [if_pos htopK, if_pos hlt, if_neg fun h => hlt.not_ge (hminP.mp h.2)]
    · rw [if_pos htopK, if_neg hlt, if_pos ⟨htopK, hminP.mpr (not_lt.mp hlt)⟩]
  · rw [if_neg htopK, if_pos hon, if_neg fun h => htopK h.1]

theorem mass_off (hoff : cfg.minP ≤ 0) (l : Logit) :
    mass cfg logits l = topKMass cfg logits l := by
  have hkept : KeptByMinP cfg logits l := .inl hoff
  unfold mass topKMass
  simp only [hkept, and_true]

theorem sum_pos_of_mem {xs : List ℝ} (hnonneg : ∀ x ∈ xs, 0 ≤ x) {x : ℝ} (hx : x ∈ xs)
    (hpos : 0 < x) : 0 < xs.sum :=
  hpos.trans_le (List.single_le_sum hnonneg x hx)

/-- Where the largest logit is kept, the filtered probabilities are the masses, normalized. -/
theorem minPFiltered_eq (hpos : 0 < cfg.temperature) (hfinite : ∃ l ∈ logits, l ≠ ⊥)
    (hminP : cfg.minP ≤ 1) :
    0 < (masses cfg logits).sum ∧
      minPFiltered cfg.minP
        (softmax (topKFiltered cfg.topK (temperatureScaled cfg.temperature logits))) =
        (masses cfg logits).map (· / (masses cfg logits).sum) := by
  obtain ⟨b, hmem, hle⟩ := exists_largest hfinite
  have hlargest := @relative_largest cfg _ _ hmem hle
  have htopK : topKMass cfg logits b = 1 := by
    rw [topKMass, if_pos (keptByTopK_largest hle), hlargest]
  have hmass : mass cfg logits b = 1 := by
    rw [mass, if_pos ⟨keptByTopK_largest hle, .inr (hlargest ▸ hminP)⟩, hlargest]
  have hmasses : 0 < (masses cfg logits).sum :=
    sum_pos_of_mem (List.forall_mem_map.mpr fun l _ => mass_nonneg l)
      (List.mem_map.mpr ⟨b, hmem, rfl⟩) (hmass ▸ one_pos)
  have hz : 0 < (logits.map (topKMass cfg logits)).sum :=
    sum_pos_of_mem (List.forall_mem_map.mpr fun l _ => topKMass_nonneg l)
      (List.mem_map.mpr ⟨b, hmem, rfl⟩) (htopK ▸ one_pos)
  refine ⟨hmasses, ?_⟩
  rw [softmax_filtered hpos hfinite, masses, List.map_map, minPFiltered]
  generalize hZ : (logits.map (topKMass cfg logits)).sum = Z at hz
  split
  · next hon =>
    have hmax : (logits.map fun l => topKMass cfg logits l / Z).foldl max 0 = 1 / Z := by
      refine foldl_max_eq (List.mem_map.mpr ⟨b, hmem, by rw [htopK]⟩) ?_ (by positivity)
      refine List.forall_mem_map.mpr fun l hl => div_le_div_of_nonneg_right ?_ hz.le
      unfold topKMass
      split_ifs
      · exact relative_le_one hpos hmem hle hl
      · exact zero_le_one
    have hcleared : ((logits.map fun l => topKMass cfg logits l / Z).map fun p =>
        if p < cfg.minP * (logits.map fun l => topKMass cfg logits l / Z).foldl max 0 then 0
        else p) = logits.map fun l => mass cfg logits l / Z := by
      rw [hmax, List.map_map]
      refine List.map_congr_left fun l _ => ?_
      rw [Function.comp_apply, mul_one_div, mass_eq hon]
      simp only [div_lt_div_iff_of_pos_right hz]
      split_ifs
      · exact (zero_div Z).symm
      · rfl
    have hsum : (logits.map fun l => mass cfg logits l / Z).sum =
        (logits.map (mass cfg logits)).sum / Z := sum_map_div _ _ _
    have hkept : 0 < (logits.map (mass cfg logits)).sum / Z := div_pos hmasses hz
    simp only [hcleared, hsum]
    rw [if_pos hkept, List.map_map]
    refine List.map_congr_left fun l _ => ?_
    exact div_div_div_cancel_right₀ hz.ne' _ _
  · next hoff =>
    have hsame : mass cfg logits = topKMass cfg logits :=
      funext fun l => mass_off (not_lt.mp hoff) l
    rw [hsame, hZ]
    rfl

end

/-! ### Top-p -/

theorem nucleus_eq (topP cumsum : ℝ) (filtered : List ℝ) (ranks : List (ℝ × ℕ)) :
    nucleus topP cumsum filtered ranks =
      (cut topP cumsum ranks).foldl (fun probs a => probs.set a.2 a.1) filtered := by
  induction ranks generalizing cumsum filtered with
  | nil => rfl
  | cons a ranks ih =>
    rw [nucleus, cut]
    split
    · rfl
    · rw [List.foldl_cons, ih]

/-- Entries that are set to what they are elsewhere. -/
theorem getD_foldl_set {probs filtered : List ℝ} {chosen : List (ℝ × ℕ)}
    (hchosen : ∀ a ∈ chosen, probs[a.2]? = some a.1) (hlength : filtered.length = probs.length)
    (i : ℕ) :
    (chosen.foldl (fun probs a => probs.set a.2 a.1) filtered).getD i 0 =
      if (probs.getD i 0, i) ∈ chosen then probs.getD i 0 else filtered.getD i 0 := by
  induction chosen generalizing filtered with
  | nil => rw [List.foldl_nil, if_neg List.not_mem_nil]
  | cons a chosen ih =>
    obtain ⟨ha, hrest⟩ := List.forall_mem_cons.mp hchosen
    rw [List.foldl_cons, ih hrest (by rw [List.length_set, hlength])]
    by_cases hlater : (probs.getD i 0, i) ∈ chosen
    · rw [if_pos hlater, if_pos (List.mem_cons_of_mem a hlater)]
    · rw [if_neg hlater]
      by_cases hhere : (probs.getD i 0, i) = a
      · subst hhere
        have hi : i < filtered.length := by
          rw [hlength]
          exact (List.getElem?_eq_some_iff.mp ha).1
        rw [if_pos List.mem_cons_self, List.getD_eq_getElem?_getD, List.getElem?_set_self hi]
        rfl
      · have hne : a.2 ≠ i := by
          rintro rfl
          refine hhere (Prod.ext ?_ rfl)
          show probs.getD a.2 0 = a.1
          rw [List.getD_eq_getElem?_getD, ha]
          rfl
        have hnot : (probs.getD i 0, i) ∉ a :: chosen := fun hmem =>
          (List.mem_cons.mp hmem).elim hhere hlater
        rw [if_neg hnot, List.getD_eq_getElem?_getD,
          List.getElem?_set_ne hne, ← List.getD_eq_getElem?_getD]

theorem mem_ranked_getD {probs : List ℝ} {i : ℕ} (hi : i < probs.length) :
    (probs.getD i 0, i) ∈ ranked probs := by
  rw [mem_ranked, List.getD_eq_getElem?_getD, List.getElem?_eq_getElem hi]
  rfl

theorem getD_of_length_le {probs : List ℝ} {i : ℕ} (hi : probs.length ≤ i) :
    probs.getD i 0 = 0 := by
  rw [List.getD_eq_getElem?_getD, List.getElem?_eq_none hi]
  rfl

theorem nucleus_getD {probs : List ℝ} (hnonneg : ∀ p ∈ probs, 0 ≤ p) (topP : ℝ) (i : ℕ) :
    (nucleus topP 0 (List.replicate probs.length 0) (ranked probs)).getD i 0 =
      if sumBefore probs.zipIdx (probs.getD i 0, i) < topP then probs.getD i 0 else 0 := by
  have hranked : ∀ a ∈ ranked probs, 0 ≤ a.1 := fun a ha =>
    hnonneg a.1 (List.mem_of_getElem? (mem_ranked.mp ha))
  have hcut : ∀ a, a ∈ cut topP 0 (ranked probs) ↔
      a ∈ ranked probs ∧ sumBefore probs.zipIdx a < topP := by
    intro a
    rw [mem_cut_iff (ranked_pairwise probs) hranked, zero_add, sumBefore_perm (ranked_perm probs)]
  rw [nucleus_eq, getD_foldl_set (fun a ha => mem_ranked.mp ((hcut a).mp ha).1) (by simp)]
  rcases lt_or_ge i probs.length with hi | hi
  · have hzero : (List.replicate probs.length (0 : ℝ)).getD i 0 = 0 := by simp
    have hiff := (hcut (probs.getD i 0, i)).trans (and_iff_right (mem_ranked_getD hi))
    rw [hzero]
    simp only [hiff]
  · rw [getD_of_length_le hi, getD_of_length_le (by simpa using hi)]
    split_ifs <;> rfl

theorem forall_getD {xs : List ℝ} (h : ∀ i, 0 ≤ xs.getD i 0) : ∀ x ∈ xs, 0 ≤ x := by
  intro x hx
  obtain ⟨i, hi, rfl⟩ := List.getElem_of_mem hx
  have hentry := h i
  rwa [List.getD_eq_getElem _ _ hi] at hentry

theorem getD_nonneg {xs : List ℝ} (h : ∀ x ∈ xs, 0 ≤ x) (i : ℕ) : 0 ≤ xs.getD i 0 := by
  rcases lt_or_ge i xs.length with hi | hi
  · rw [List.getD_eq_getElem _ _ hi]
    exact h _ (List.getElem_mem hi)
  · rw [getD_of_length_le hi]

/-- Some entry is positive and has nothing ranked before it. -/
theorem exists_first {probs : List ℝ} (hsum : 0 < probs.sum) :
    ∃ i, 0 < probs.getD i 0 ∧ sumBefore probs.zipIdx (probs.getD i 0, i) = 0 := by
  have hne : ranked probs ≠ [] := by
    intro hnil
    have hlength := (ranked_perm probs).length_eq
    rw [hnil, List.length_zipIdx] at hlength
    rw [List.eq_nil_of_length_eq_zero hlength.symm] at hsum
    exact lt_irrefl 0 hsum
  obtain ⟨a, rest, hranked⟩ := List.exists_cons_of_ne_nil hne
  have hpairwise := ranked_pairwise probs
  rw [hranked] at hpairwise
  have hfirst := (List.pairwise_cons.mp hpairwise).1
  have ha : probs.getD a.2 0 = a.1 := by
    have hmem : a ∈ ranked probs := hranked ▸ List.mem_cons_self
    rw [List.getD_eq_getElem?_getD, mem_ranked.mp hmem]
    rfl
  refine ⟨a.2, ?_, ?_⟩
  · rw [ha]
    by_contra hle
    have hall : ∀ p ∈ probs, p ≤ 0 := by
      intro p hp
      obtain ⟨i, hi, rfl⟩ := List.getElem_of_mem hp
      have hmem := mem_ranked_getD hi
      rw [List.getD_eq_getElem _ _ hi, hranked, List.mem_cons] at hmem
      rcases hmem with heq | hmem
      · exact (congrArg Prod.fst heq).le.trans (not_lt.mp hle)
      · exact ((hfirst _ hmem).elim le_of_lt fun h => h.1.ge).trans (not_lt.mp hle)
    have htotal := List.sum_le_card_nsmul probs 0 hall
    rw [smul_zero] at htotal
    exact hsum.not_ge htotal
  · rw [ha, ← sumBefore_perm (ranked_perm probs), hranked]
    refine List.sum_eq_zero (List.forall_mem_map.mpr fun b hb => if_neg fun hba => ?_)
    rcases List.mem_cons.mp hb with rfl | hb
    · exact Before.irrefl _ hba
    · exact Before.irrefl _ ((hfirst b hb).trans hba)

theorem getD_map_div (xs : List ℝ) (c : ℝ) (i : ℕ) :
    (xs.map (· / c)).getD i 0 = xs.getD i 0 / c := by
  rw [← zero_div c, List.getD_map, zero_div]

/-- Top-p keeps probabilities, and those positive that rank within the limit. -/
theorem topPFiltered_spec {probs : List ℝ} (hnonneg : ∀ p ∈ probs, 0 ≤ p) (hsum : probs.sum = 1)
    (topP : ℝ) :
    (∀ p ∈ topPFiltered topP probs, 0 ≤ p) ∧ (topPFiltered topP probs).sum = 1 ∧
      ∀ i, 0 < (topPFiltered topP probs).getD i 0 ↔ 0 < probs.getD i 0 ∧
        (1 ≤ topP ∨ topP ≤ 0 ∨ sumBefore probs.zipIdx (probs.getD i 0, i) < topP) := by
  have hentry := nucleus_getD hnonneg topP
  have hfiltered : ∀ p ∈ nucleus topP 0 (List.replicate probs.length 0) (ranked probs), 0 ≤ p := by
    refine forall_getD fun i => ?_
    rw [hentry]
    split_ifs
    · exact getD_nonneg hnonneg i
    · exact le_rfl
  rw [topPFiltered]
  split
  · next hon =>
    by_cases hpos : 0 < topP
    · obtain ⟨i, hi, hfirst⟩ := exists_first (hsum ▸ one_pos)
      have htotal : 0 < (nucleus topP 0 (List.replicate probs.length 0) (ranked probs)).sum := by
        have hkept : (nucleus topP 0 (List.replicate probs.length 0) (ranked probs)).getD i 0 =
            probs.getD i 0 := by
          rw [hentry, hfirst, if_pos hpos]
        have hlt : i < (nucleus topP 0 (List.replicate probs.length 0) (ranked probs)).length := by
          by_contra hge
          rw [getD_of_length_le (not_lt.mp hge)] at hkept
          exact hi.ne hkept
        rw [List.getD_eq_getElem _ _ hlt] at hkept
        exact sum_pos_of_mem hfiltered (List.getElem_mem hlt) (hkept ▸ hi)
      simp only [if_pos htotal]
      refine ⟨List.forall_mem_map.mpr fun p hp => div_nonneg (hfiltered p hp) htotal.le, ?_, ?_⟩
      · have hdiv := sum_map_div (nucleus topP 0 (List.replicate probs.length 0) (ranked probs)) id
          (nucleus topP 0 (List.replicate probs.length 0) (ranked probs)).sum
        rw [List.map_id, div_self htotal.ne'] at hdiv
        exact hdiv
      · intro j
        rw [getD_map_div, div_pos_iff_of_pos_right htotal, hentry]
        have hlimit : (1 ≤ topP ∨ topP ≤ 0 ∨ sumBefore probs.zipIdx (probs.getD j 0, j) < topP) ↔
            sumBefore probs.zipIdx (probs.getD j 0, j) < topP := by
          rw [or_iff_right hon.not_ge, or_iff_right hpos.not_ge]
        rw [hlimit]
        split_ifs with hwithin
        · exact (and_iff_left hwithin).symm
        · exact iff_of_false (lt_irrefl 0) fun h => hwithin h.2
    · have hnone : ∀ i, (nucleus topP 0 (List.replicate probs.length 0) (ranked probs)).getD i 0 =
          0 := by
        intro i
        have hbefore : 0 ≤ sumBefore probs.zipIdx (probs.getD i 0, i) :=
          sumBefore_nonneg (fun b hb => hnonneg b.1 (List.fst_mem_of_mem_zipIdx hb)) _
        rw [hentry, if_neg (by linarith)]
      have htotal : (nucleus topP 0 (List.replicate probs.length 0) (ranked probs)).sum = 0 := by
        refine List.sum_eq_zero fun p hp => ?_
        obtain ⟨i, hi, rfl⟩ := List.getElem_of_mem hp
        rw [← List.getD_eq_getElem _ 0 hi, hnone]
      simp only [htotal, if_neg (lt_irrefl (0 : ℝ))]
      exact ⟨hnonneg, hsum, fun i => (and_iff_left (.inr (.inl (not_lt.mp hpos)))).symm⟩
  · next hoff => exact ⟨hnonneg, hsum, fun i => (and_iff_left (.inl (not_lt.mp hoff))).symm⟩

/-! ### The draw -/

section

variable {cfg : SamplerConfig} {logits : List Logit}

theorem sumBefore_div {xs : List ℝ} {c : ℝ} (hc : 0 < c) (a : ℝ × ℕ) :
    sumBefore (xs.map (· / c)).zipIdx (a.1 / c, a.2) = sumBefore xs.zipIdx a / c := by
  have hbefore (b : ℝ × ℕ) : Before (b.1 / c, b.2) (a.1 / c, a.2) ↔ Before b a :=
    or_congr (div_lt_div_iff_of_pos_right hc)
      (and_congr_left fun _ => div_left_inj' hc.ne')
  rw [sumBefore, sumBefore, List.zipIdx_map, List.map_map, ← sum_map_div]
  refine congrArg List.sum (List.map_congr_left fun b _ => ?_)
  show (if Before (b.1 / c, b.2) (a.1 / c, a.2) then b.1 / c else 0) = _
  simp only [hbefore]
  split_ifs
  · rfl
  · exact (zero_div c).symm

theorem mass_pos {l : Logit} : 0 < mass cfg logits l ↔
    l ≠ ⊥ ∧ KeptByTopK cfg logits l ∧ KeptByMinP cfg logits l := by
  unfold mass
  split_ifs with hkept
  · rw [relative_pos]
    exact (and_iff_left hkept).symm
  · exact iff_of_false (lt_irrefl 0) fun h => hkept h.2

theorem masses_getD (i : ℕ) :
    (masses cfg logits).getD i 0 = mass cfg logits (logits.getD i ⊥) := by
  have hbot : mass cfg logits ⊥ = 0 := by
    refine le_antisymm (not_lt.mp fun h => ?_) (mass_nonneg ⊥)
    exact (mass_pos.mp h).1 rfl
  rw [masses, ← hbot, List.getD_map]

theorem survives_iff {i : ℕ} : Survives cfg logits i ↔
    0 < (masses cfg logits).getD i 0 ∧ KeptByTopP cfg logits i := by
  rw [masses_getD, mass_pos]
  constructor
  · rintro ⟨hfinite, htopK, hminP, htopP⟩
    exact ⟨⟨hfinite, htopK, hminP⟩, htopP⟩
  · rintro ⟨⟨hfinite, htopK, hminP⟩, htopP⟩
    exact ⟨hfinite, htopK, hminP, htopP⟩

/-- Where min-p keeps the largest logit, what survives is what has a positive probability. -/
theorem probabilities_spec (hpos : 0 < cfg.temperature) (hfinite : ∃ l ∈ logits, l ≠ ⊥)
    (hminP : cfg.minP ≤ 1) :
    (∀ p ∈ probabilities cfg logits, 0 ≤ p) ∧ (probabilities cfg logits).sum = 1 ∧
      ∀ i, 0 < (probabilities cfg logits).getD i 0 ↔ Survives cfg logits i := by
  obtain ⟨htotal, heq⟩ := minPFiltered_eq hpos hfinite hminP
  have hnonneg : ∀ p ∈ (masses cfg logits).map (· / (masses cfg logits).sum), 0 ≤ p := by
    refine List.forall_mem_map.mpr fun m hm => div_nonneg ?_ htotal.le
    obtain ⟨l, -, rfl⟩ := List.mem_map.mp hm
    exact mass_nonneg l
  have hsum : ((masses cfg logits).map (· / (masses cfg logits).sum)).sum = 1 := by
    have hdiv := sum_map_div (masses cfg logits) id (masses cfg logits).sum
    rw [List.map_id, div_self htotal.ne'] at hdiv
    exact hdiv
  obtain ⟨hall, hone, hkept⟩ := topPFiltered_spec hnonneg hsum cfg.topP
  rw [probabilities, heq]
  refine ⟨hall, hone, fun i => ?_⟩
  rw [hkept, survives_iff, getD_map_div, div_pos_iff_of_pos_right htotal, KeptByTopP,
    sumBefore_div htotal ((masses cfg logits).getD i 0, i), div_lt_iff₀ htotal]

theorem not_survives (hpos : 0 < cfg.temperature) (hfinite : ∃ l ∈ logits, l ≠ ⊥)
    (hminP : 1 < cfg.minP) (i : ℕ) : ¬ Survives cfg logits i := by
  rintro ⟨hbot, -, hkept, -⟩
  obtain ⟨b, hmem, hle⟩ := exists_largest hfinite
  have hi : i < logits.length := by
    by_contra hge
    rw [List.getD_eq_getElem?_getD, List.getElem?_eq_none (not_lt.mp hge)] at hbot
    exact hbot rfl
  rw [List.getD_eq_getElem _ _ hi] at hkept
  have hone := relative_le_one hpos hmem hle (List.getElem_mem hi)
  rcases hkept with hoff | hkept
  · linarith
  · linarith

end

/-- What is drawn survives the filters exactly if `min_p` is at most one and the draw is not zero or
the first token survives; what survives is what has a positive probability before the draw. -/
theorem sampleWithRng_survives_iff (cfg : SamplerConfig) (logits : List Logit) (r : ℝ)
    (hpos : 0 < cfg.temperature) (hfinite : ∃ l ∈ logits, l ≠ ⊥) (hr : 0 ≤ r) (hr' : r < 1) :
    (Survives cfg logits (sampleWithRng cfg logits r) ↔
      cfg.minP ≤ 1 ∧ (0 < r ∨ Survives cfg logits 0)) ∧
    (cfg.minP ≤ 1 → ∀ i, Survives cfg logits i ↔ 0 < (probabilities cfg logits).getD i 0) := by
  constructor
  · rcases le_or_gt cfg.minP 1 with hminP | hminP
    · obtain ⟨hnonneg, hsum, hiff⟩ := probabilities_spec hpos hfinite hminP
      rw [and_iff_right hminP, ← hiff, ← hiff, sampleWithRng, if_neg hpos.not_ge]
      exact pick_pos_iff hnonneg hsum hr hr'
    · exact iff_of_false (not_survives hpos hfinite hminP _) fun h => hminP.not_ge h.1
  · intro hminP i
    exact ((probabilities_spec hpos hfinite hminP).2.2 i).symm

/-- All three filters, at the temperature at which one more doubles a probability. -/
noncomputable def narrowing : SamplerConfig where
  temperature := 1 / Real.log ((2 : ℕ) : ℝ)
  topK := 4
  topP := ((3 / 5 : ℚ) : ℝ)
  minP := ((2 / 5 : ℚ) : ℝ)

/-- A masked token and five others. -/
noncomputable def sixLogits : List Logit := ⊥ :: [0, 1, 3, 2, 2].map fun n : ℕ => ((n : ℝ) : Logit)

theorem narrowing_pos : 0 < narrowing.temperature :=
  one_div_pos.mpr (Real.log_pos (by norm_num))

theorem mem_sixLogits {l : Logit} : l ∈ sixLogits ↔
    l = ⊥ ∨ l = (0 : ℝ) ∨ l = (1 : ℝ) ∨ l = (3 : ℝ) ∨ l = (2 : ℝ) := by
  simp [sixLogits]

/-- A step down from the largest logit halves the probability. -/
theorem relative_narrowing {k n : ℕ} (hk : n + k = 3) :
    relative narrowing sixLogits ((n : ℝ) : Logit) = (1 / 2) ^ k := by
  have hlargest : sixLogits.foldl max ⊥ = ((3 : ℝ) : Logit) := by
    refine foldl_max_eq (mem_sixLogits.mpr (by simp)) (fun l hl => ?_) bot_le
    rcases mem_sixLogits.mp hl with rfl | rfl | rfl | rfl | rfl
    · exact bot_le
    all_goals exact WithBot.coe_le_coe.mpr (by norm_num)
  have hthree : ((3 : ℝ) : ℝ) = n + k := by exact_mod_cast hk.symm
  calc relative narrowing sixLogits ((n : ℝ) : Logit)
      = Real.exp (n / narrowing.temperature - 3 / narrowing.temperature) := by
        rw [relative, hlargest]
        rfl
    _ = Real.exp (Real.log 2 * (-k : ℝ)) := by
        rw [hthree, narrowing]
        congr 1
        push_cast
        field_simp
        ring
    _ = (2 : ℝ) ^ (-k : ℝ) := (Real.rpow_def_of_pos two_pos _).symm
    _ = (1 / 2) ^ k := by rw [Real.rpow_neg two_pos.le, Real.rpow_natCast, one_div_pow, one_div]

theorem mass_narrowing {k n : ℕ} (hk : n + k = 3) :
    mass narrowing sixLogits ((n : ℝ) : Logit) =
      if [0, 1, 3, 2, 2].countP (n < ·) < 4 ∧ (2 / 5 : ℝ) ≤ (1 / 2) ^ k then (1 / 2) ^ k
      else 0 := by
  have htopK : KeptByTopK narrowing sixLogits ((n : ℝ) : Logit) ↔
      [0, 1, 3, 2, 2].countP (n < ·) < 4 := by
    have hcount : sixLogits.countP (fun l => decide (((n : ℝ) : Logit) < l)) =
        [0, 1, 3, 2, 2].countP (n < ·) := by
      rw [sixLogits, List.countP_cons_of_neg (by simp), List.countP_map]
      congr 1
      funext m
      simp
    have hlen : ¬ sixLogits.length ≤ 4 := by simp [sixLogits]
    rw [KeptByTopK, hcount]
    exact (or_iff_right (by decide)).trans (or_iff_right hlen)
  have hminP : KeptByMinP narrowing sixLogits ((n : ℝ) : Logit) ↔ (2 / 5 : ℝ) ≤ (1 / 2) ^ k := by
    have hminP : narrowing.minP = 2 / 5 := by norm_num [narrowing]
    rw [KeptByMinP, hminP, relative_narrowing hk, or_iff_right (by norm_num)]
  simp only [mass, htopK, hminP, relative_narrowing hk]

/-- Top-k clears the second token, min-p the third. -/
theorem masses_narrowing : masses narrowing sixLogits = [0, 0, 0, 1, 1 / 2, 1 / 2] := by
  have hbot : mass narrowing sixLogits ⊥ = 0 := by
    refine le_antisymm (not_lt.mp fun h => ?_) (mass_nonneg ⊥)
    exact (mass_pos.mp h).1 rfl
  simp only [masses, sixLogits, List.map_cons, List.map_nil]
  change [mass narrowing sixLogits ⊥, mass narrowing sixLogits ((0 : ℕ) : ℝ),
    mass narrowing sixLogits ((1 : ℕ) : ℝ), mass narrowing sixLogits ((3 : ℕ) : ℝ),
    mass narrowing sixLogits ((2 : ℕ) : ℝ), mass narrowing sixLogits ((2 : ℕ) : ℝ)] = _
  rw [hbot, mass_narrowing (show 0 + 3 = 3 from rfl), mass_narrowing (show 1 + 2 = 3 from rfl),
    mass_narrowing (show 2 + 1 = 3 from rfl), mass_narrowing (show 3 + 0 = 3 from rfl)]
  norm_num [List.countP_cons]

theorem survives_narrowing (i : ℕ) : Survives narrowing sixLogits i ↔ i = 3 ∨ i = 4 := by
  have htopP : narrowing.topP = 3 / 5 := by norm_num [narrowing]
  rw [survives_iff, KeptByTopP, masses_narrowing, htopP]
  rcases lt_or_ge i 6 with hlt | hge
  · interval_cases i <;> norm_num [sumBefore, Before]
  · rw [getD_of_length_le hge]
    exact iff_of_false (fun h => lt_irrefl 0 h.1) (by omega)

/-- Top-k, min-p and top-p clear one token each: a late draw takes one of the two that are left. -/
theorem sampleWithRng_survives_narrowing :
    let i := sampleWithRng narrowing sixLogits (9 / 10)
    Survives narrowing sixLogits i ∧ (i = 3 ∨ i = 4) ∧
      ∀ j, 0 < (probabilities narrowing sixLogits).getD j 0 ↔ j = 3 ∨ j = 4 := by
  have hminP : narrowing.minP ≤ 1 := by norm_num [narrowing]
  have hfinite : ∃ l ∈ sixLogits, l ≠ ⊥ :=
    ⟨(0 : ℝ), mem_sixLogits.mpr (by simp), WithBot.coe_ne_bot⟩
  obtain ⟨hdrawn, hpositive⟩ := sampleWithRng_survives_iff narrowing sixLogits (9 / 10)
    narrowing_pos hfinite (by norm_num) (by norm_num)
  have hsurvives := hdrawn.mpr ⟨hminP, .inl (by norm_num)⟩
  refine ⟨hsurvives, (survives_narrowing _).mp hsurvives, fun j => ?_⟩
  rw [← hpositive hminP j, survives_narrowing]

/-- The second of two tokens, without a filter. -/
def plain : SamplerConfig := { temperature := 1, topK := 0, topP := 1, minP := 0 }

/-- A draw of zero returns the first token, whose logit is minus infinity. -/
theorem sampleWithRng_excluded :
    ¬ ∀ (cfg : SamplerConfig) (logits : List Logit) (r : ℝ), 0 < cfg.temperature →
      (∃ l ∈ logits, l ≠ ⊥) → 0 ≤ r → r < 1 → Survives cfg logits (sampleWithRng cfg logits r) := by
  intro hall
  have hfinite : ∃ l ∈ ([⊥, ((0 : ℝ) : Logit)] : List Logit), l ≠ ⊥ :=
    ⟨(0 : ℝ), by simp, WithBot.coe_ne_bot⟩
  obtain ⟨hnonneg, hsum, -⟩ := @probabilities_spec plain _ one_pos hfinite zero_le_one
  have hsurvives := hall plain _ 0 one_pos hfinite le_rfl one_pos
  have hfirst : sampleWithRng plain [⊥, ((0 : ℝ) : Logit)] 0 = 0 := by
    have hne : probabilities plain [⊥, ((0 : ℝ) : Logit)] ≠ [] := by
      intro hnil
      rw [hnil] at hsum
      exact zero_ne_one hsum
    rw [sampleWithRng, if_neg (show ¬ plain.temperature ≤ 0 from one_pos.not_ge)]
    simp only [pick_zero hnonneg hne, Option.getD_some]
  rw [hfirst] at hsurvives
  exact hsurvives.finite rfl

end Zllm.Sampler
