import Zllm.Engine.DecodeCtrl

/-!
# Stop strings

A check decodes the last tokens only, eight more than the longest stop string has bytes. A stop
string that the tokens since the last check complete starts at most its own length before them, and
each token has a byte, so that it starts inside the window. The tokenizer's decoding is a function
on the tokens whose texts are joined.
-/

namespace Zllm.DecodeCtrl

/-! ### Texts -/

/-- `str::find`. -/
def find (s : List UInt8) : List UInt8 → Option ℕ
  | [] => if s = [] then some 0 else none
  | b :: text => if s <+: b :: text then some 0 else (find s text).map (· + 1)

/-- `str::contains`. -/
def contains (text s : List UInt8) : Bool := (find s text).isSome

namespace DecodeControl

variable (ctrl : DecodeControl)

def stopHitIn (windowText : List UInt8) : Bool := ctrl.stops.any fun s => contains windowText s

/-- The text up to the earliest stop string, and whether there is one. -/
def truncateAtStop (text : List UInt8) : Bool × List UInt8 :=
  let cut := ctrl.stops.foldl (fun cut s =>
    match find s text with
    | some i => some (cut.elim i fun c => min c i)
    | none => cut) none
  match cut with
  | some i => (true, text.take i)
  | none => (false, text)

end DecodeControl

def stopWindowText (decode : List Token → List UInt8) (generated : List Token) (window : ℕ) :
    List UInt8 :=
  decode (generated.drop (generated.length - window))

section

variable {s text : List UInt8}

theorem find_eq_some_iff {i : ℕ} : find s text = some i ↔
    (i ≤ text.length ∧ s <+: text.drop i) ∧ ∀ j < i, ¬ s <+: text.drop j := by
  induction text generalizing i with
  | nil =>
    rw [find]
    split
    · next hs =>
      subst hs
      cases i <;> simp
    · next hs =>
      simp [hs]
  | cons b text ih =>
    rw [find]
    split
    · next hprefix =>
      cases i with
      | zero => simpa using hprefix
      | succ i =>
        refine iff_of_false nofun fun h => h.2 0 (Nat.succ_pos i) ?_
        simpa using hprefix
    · next hprefix =>
      cases i with
      | zero => simpa using hprefix
      | succ i =>
        simp only [Option.map_eq_some_iff, Nat.add_right_cancel_iff, exists_eq_right, ih,
          List.length_cons, List.drop_succ_cons, Nat.add_le_add_iff_right]
        refine and_congr_right fun _ => ⟨fun hbefore j hj => ?_, fun hbefore j hj => ?_⟩
        · cases j with
          | zero => simpa using hprefix
          | succ j => exact hbefore j (by omega)
        · exact hbefore (j + 1) (by omega)

theorem find_eq_none_iff : find s text = none ↔ ∀ i ≤ text.length, ¬ s <+: text.drop i := by
  induction text with
  | nil =>
    rw [find]
    split
    · next hs =>
      simp [hs]
    · next hs =>
      simp [hs]
  | cons b text ih =>
    rw [find]
    split
    · next hprefix =>
      refine iff_of_false nofun fun h => h 0 (Nat.zero_le _) ?_
      simpa using hprefix
    · next hprefix =>
      rw [Option.map_eq_none_iff, ih]
      constructor
      · intro hnone i hi
        cases i with
        | zero => simpa using hprefix
        | succ i => exact hnone i (by simpa using hi)
      · exact fun hnone i hi => hnone (i + 1) (by simpa using hi)

theorem contains_eq_true_iff : contains text s = true ↔ s <:+: text := by
  rw [contains, Option.isSome_iff_ne_none, ne_eq, find_eq_none_iff, List.infix_iff_prefix_suffix]
  push Not
  constructor
  · rintro ⟨i, -, hprefix⟩
    exact ⟨text.drop i, hprefix, List.drop_suffix i text⟩
  · rintro ⟨rest, hprefix, hsuffix⟩
    rw [List.suffix_iff_eq_drop.mp hsuffix] at hprefix
    exact ⟨_, Nat.sub_le _ _, hprefix⟩

/-- A string that is found, and not within the first `n` bytes, is found past what is at least its
own length before them. -/
theorem infix_of_append {left right : List UInt8} {n : ℕ} (hinside : s <:+: left ++ right)
    (hn : left.length + s.length ≤ n) (hbefore : ¬ s <:+: (left ++ right).take n) :
    s <:+: right := by
  obtain ⟨before, after, hsplit⟩ := hinside
  rcases Nat.lt_or_ge before.length left.length with hlt | hge
  · have hcut : before ++ s <+: (left ++ right).take n := by
      rw [List.prefix_take_iff]
      exact ⟨⟨after, hsplit⟩, by rw [List.length_append]; omega⟩
    exact absurd ((List.suffix_append before s).isInfix.trans hcut.isInfix) hbefore
  · rw [List.append_assoc] at hsplit
    have hleft : left <+: before :=
      List.prefix_of_prefix_length_le ⟨right, rfl⟩ ⟨s ++ after, hsplit⟩ hge
    obtain ⟨gap, rfl⟩ := hleft
    rw [List.append_assoc, List.append_cancel_left_eq] at hsplit
    exact ⟨gap, after, by rw [List.append_assoc, hsplit]⟩

end

/-! ### The window -/

/-- The text of tokens is that of each, one after another, and no committed token's is empty. -/
structure Joins (decode : List Token → List UInt8) (committed : List Token) : Prop where
  append : ∀ left right, decode (left ++ right) = decode left ++ decode right
  nonempty : ∀ token ∈ committed, decode [token] ≠ []

section

variable {decode : List Token → List UInt8} {committed : List Token}

theorem Joins.nil (hjoins : Joins decode committed) : decode [] = [] := by
  have hself := hjoins.append [] []
  rw [List.append_nil] at hself
  exact List.append_cancel_left (hself.symm.trans (List.append_nil _).symm)

theorem Joins.length_le (hjoins : Joins decode committed) {tokens : List Token}
    (hsubset : tokens ⊆ committed) : tokens.length ≤ (decode tokens).length := by
  induction tokens with
  | nil => exact Nat.zero_le _
  | cons token tokens ih =>
    obtain ⟨hmem, hsubset⟩ := List.cons_subset.mp hsubset
    specialize ih hsubset
    have hfirst := List.length_pos_iff.mpr (hjoins.nonempty token hmem)
    have hsplit := hjoins.append [token] tokens
    rw [List.singleton_append] at hsplit
    rw [hsplit, List.length_append, List.length_cons]
    omega

theorem Joins.take_prefix (hjoins : Joins decode committed) (tokens : List Token) (n : ℕ) :
    decode (tokens.take n) <+: decode tokens := by
  conv_rhs => rw [← List.take_append_drop n tokens, hjoins.append]
  exact List.prefix_append _ _

/-- A stop string that the last tokens complete is in the window, if the window has at least its
length more. -/
theorem Joins.infix_window (hjoins : Joins decode committed) {s : List UInt8}
    {generated : List Token} (hsubset : generated ⊆ committed) {n window : ℕ}
    (hn : generated.length ≤ n + 6) (hwindow : 6 + s.length ≤ window)
    (hinside : s <:+: decode generated) (hbefore : ¬ s <:+: decode (generated.take n)) :
    s <:+: stopWindowText decode generated window := by
  rw [stopWindowText]
  rcases Nat.le_total generated.length window with hshort | hlong
  · rw [Nat.sub_eq_zero_of_le hshort, List.drop_zero]
    exact hinside
  · set start := generated.length - window with hstart
    have hsplit : decode generated = decode (generated.take start) ++
        decode (generated.drop start) := by
      rw [← hjoins.append, List.take_append_drop]
    -- Between the start of the window and the tokens checked before there are as many tokens, and
    -- so at least as many bytes, as the stop string has bytes.
    have hbetween : (decode (generated.take start)).length + s.length ≤
        (decode (generated.take n)).length := by
      have hgap := hjoins.append (generated.take start) ((generated.take n).drop start)
      have htake : generated.take start ++ (generated.take n).drop start = generated.take n := by
        have hle : start ≤ n := by omega
        conv_rhs => rw [← List.take_append_drop start (generated.take n), List.take_take,
          Nat.min_eq_left hle]
      rw [htake] at hgap
      have hmiddle : (generated.take n).drop start ⊆ committed := fun token hmem =>
        hsubset (List.mem_of_mem_take (List.mem_of_mem_drop hmem))
      have hbytes := hjoins.length_le hmiddle
      rw [List.length_drop, List.length_take] at hbytes
      rw [hgap, List.length_append]
      omega
    rw [hsplit] at hinside
    apply infix_of_append hinside hbetween
    rw [← hsplit, ← List.prefix_iff_eq_take.mp (hjoins.take_prefix generated n)]
    exact hbefore

/-! ### The schedule of checks -/

/-- How many tokens are committed at each check: at most six more than at the check before. -/
def Scheduled (checks : List ℕ) : Prop :=
  List.IsChain (fun before after => before ≤ after ∧ after ≤ before + 6) (0 :: checks)

variable {ctrl : DecodeControl} {tokens : List Token}

theorem stopHitIn_eq_true_iff {text : List UInt8} :
    ctrl.stopHitIn text = true ↔ ∃ s ∈ ctrl.stops, s <:+: text := by
  simp only [DecodeControl.stopHitIn, List.any_eq_true, contains_eq_true_iff]

/-- The check of the window after the first `n` tokens. -/
def firesAt (ctrl : DecodeControl) (decode : List Token → List UInt8) (tokens : List Token)
    (n : ℕ) : Bool :=
  ctrl.stopHitIn (stopWindowText decode (tokens.take n) ctrl.windowTokens)

theorem Joins.fires_next (hjoins : Joins decode tokens)
    (hwindow : ∀ s ∈ ctrl.stops, 6 + s.length ≤ ctrl.windowTokens) {before n : ℕ}
    (hle : before ≤ n) (hn : n ≤ before + 6)
    (hbefore : ctrl.stopHitIn (decode (tokens.take before)) = false)
    (hhit : ctrl.stopHitIn (decode (tokens.take n)) = true) :
    firesAt ctrl decode tokens n = true := by
  obtain ⟨s, hs, hinside⟩ := stopHitIn_eq_true_iff.mp hhit
  refine stopHitIn_eq_true_iff.mpr ⟨s, hs, ?_⟩
  have hearlier : ¬ s <:+: decode ((tokens.take n).take before) := by
    rw [List.take_take, Nat.min_eq_left hle]
    intro hfound
    rw [stopHitIn_eq_true_iff.mpr ⟨s, hs, hfound⟩] at hbefore
    cases hbefore
  have hlength : (tokens.take n).length ≤ before + 6 :=
    (List.length_take_le n tokens).trans hn
  exact hjoins.infix_window (List.take_subset n tokens) hlength (hwindow s hs) hinside hearlier

/-- From a check that no stop string has been generated at, the window is hit at the latest where
the whole text is. -/
theorem Joins.fires_by (hjoins : Joins decode tokens)
    (hwindow : ∀ s ∈ ctrl.stops, 6 + s.length ≤ ctrl.windowTokens) {checks : List ℕ} {before : ℕ}
    (hchain : List.IsChain (fun before after => before ≤ after ∧ after ≤ before + 6)
      (before :: checks))
    (hbefore : ctrl.stopHitIn (decode (tokens.take before)) = false) {n : ℕ} (hn : n ∈ checks)
    (hhit : ctrl.stopHitIn (decode (tokens.take n)) = true) :
    ∃ m ∈ checks, m ≤ n ∧ firesAt ctrl decode tokens m = true := by
  induction checks generalizing before with
  | nil => cases hn
  | cons check checks ih =>
    obtain ⟨⟨hle, hgap⟩, hrest⟩ := List.isChain_cons_cons.mp hchain
    cases hcheck : ctrl.stopHitIn (decode (tokens.take check)) with
    | true =>
      have hfirst : check ≤ n := by
        rcases List.mem_cons.mp hn with rfl | hn
        · exact le_rfl
        · have hsorted : (check :: checks).Pairwise (· ≤ ·) :=
            (hrest.imp fun _ _ h => h.1).pairwise
          exact List.rel_of_pairwise_cons hsorted hn
      exact ⟨check, List.mem_cons_self, hfirst,
        hjoins.fires_next hwindow hle hgap hbefore hcheck⟩
    | false =>
      have hlater : n ∈ checks := by
        rcases List.mem_cons.mp hn with rfl | hn
        · rw [hcheck] at hhit
          cases hhit
        · exact hn
      obtain ⟨m, hm, hmn, hfires⟩ := ih hrest hcheck hlater
      exact ⟨m, List.mem_cons_of_mem check hm, hmn, hfires⟩

end

/-! ### The cut -/

section

variable {stops : List (List UInt8)} {text : List UInt8}

/-- The fold of `truncate_at_stop` keeps the least of the places found. -/
theorem foldl_cut (stops : List (List UInt8)) (text : List UInt8) (start : Option ℕ) :
    let cut := stops.foldl (fun cut s =>
      match find s text with
      | some i => some (cut.elim i fun c => min c i)
      | none => cut) start
    (∀ c, cut = some c → start = some c ∨ ∃ s ∈ stops, find s text = some c) ∧
      (∀ i, (start = some i ∨ ∃ s ∈ stops, find s text = some i) → ∃ c ≤ i, cut = some c) := by
  induction stops generalizing start with
  | nil =>
    refine ⟨fun c hc => .inl hc, fun i hi => ?_⟩
    rcases hi with hi | ⟨s, hs, -⟩
    · exact ⟨i, le_rfl, hi⟩
    · cases hs
  | cons s stops ih =>
    cases hfind : find s text with
    | none =>
      obtain ⟨hfrom, hleast⟩ := ih start
      simp only [List.foldl_cons, hfind]
      refine ⟨fun c hc => (hfrom c hc).imp_right ?_, fun i hi => hleast i (hi.imp_right ?_)⟩
      · rintro ⟨other, hother, hplace⟩
        exact ⟨other, List.mem_cons_of_mem s hother, hplace⟩
      · rintro ⟨other, hother, hplace⟩
        rcases List.mem_cons.mp hother with rfl | hother
        · rw [hfind] at hplace
          cases hplace
        · exact ⟨other, hother, hplace⟩
    | some place =>
      obtain ⟨hfrom, hleast⟩ := ih (some (start.elim place fun c => min c place))
      simp only [List.foldl_cons, hfind]
      constructor
      · intro c hc
        rcases hfrom c hc with hsame | ⟨other, hother, hplace⟩
        · cases start with
          | none => exact .inr ⟨s, List.mem_cons_self, hfind.trans hsame⟩
          | some first =>
            rcases min_choice first place with hmin | hmin
            · exact .inl (by rw [← hsame, Option.elim_some, hmin])
            · refine .inr ⟨s, List.mem_cons_self, ?_⟩
              rw [hfind, ← hsame, Option.elim_some, hmin]
        · exact .inr ⟨other, List.mem_cons_of_mem s hother, hplace⟩
      · intro i hi
        have hpresent : ∀ j, (start = some j ∨ place = j) →
            (start.elim place fun c => min c place) ≤ j := by
          rintro j (rfl | rfl)
          · exact min_le_left _ _
          · cases start with
            | none => exact le_rfl
            | some first => exact min_le_right _ _
        have hstep (j : ℕ) (hj : start = some j ∨ place = j) (hji : j ≤ i) :
            ∃ c ≤ i, stops.foldl (fun cut s =>
              match find s text with
              | some i => some (cut.elim i fun c => min c i)
              | none => cut) (some (start.elim place fun c => min c place)) = some c := by
          obtain ⟨c, hc, hcut⟩ := hleast _ (.inl rfl)
          exact ⟨c, hc.trans ((hpresent j hj).trans hji), hcut⟩
        rcases hi with hi | ⟨other, hother, hplace⟩
        · exact hstep i (.inl hi) le_rfl
        · rcases List.mem_cons.mp hother with rfl | hother
          · exact hstep i (.inr (Option.some.inj (hfind.symm.trans hplace))) le_rfl
          · exact hleast i (.inr ⟨other, hother, hplace⟩)

end

section

variable {ctrl : DecodeControl} {text : List UInt8}

/-- A stop string starts at a place of the text. -/
def StartsAt (ctrl : DecodeControl) (text : List UInt8) (i : ℕ) : Prop :=
  ∃ s ∈ ctrl.stops, s <+: text.drop i

/-- The longest start of a text before the earliest stop string, and there is none in it. -/
structure Trimmed (ctrl : DecodeControl) (text rest : List UInt8) : Prop where
  isPrefix : rest <+: text
  before : ∀ i, StartsAt ctrl text i → rest.length ≤ i
  clean : ∀ s ∈ ctrl.stops, ¬ s <:+: rest
  longest : ∀ other, other <+: text → (∀ i, StartsAt ctrl text i → other.length ≤ i) →
    other.length ≤ rest.length

theorem exists_find_of_startsAt (hstops : ∀ s ∈ ctrl.stops, s ≠ []) {i : ℕ}
    (hstarts : StartsAt ctrl text i) : ∃ s ∈ ctrl.stops, ∃ j ≤ i, find s text = some j := by
  obtain ⟨s, hs, hprefix⟩ := hstarts
  have hlt : i < text.length := by
    by_contra hpast
    rw [List.drop_eq_nil_of_le (Nat.le_of_not_lt hpast)] at hprefix
    exact hstops s hs (List.prefix_nil.mp hprefix)
  cases hfind : find s text with
  | none => exact absurd hprefix (find_eq_none_iff.mp hfind i hlt.le)
  | some j =>
    refine ⟨s, hs, j, ?_, hfind⟩
    by_contra hlate
    exact (find_eq_some_iff.mp hfind).2 i (Nat.lt_of_not_le hlate) hprefix

/-- A stop string inside the start of a text starts in the text, and before that start ends. -/
theorem exists_startsAt_of_infix_take (hstops : ∀ s ∈ ctrl.stops, s ≠ []) {s : List UInt8}
    (hs : s ∈ ctrl.stops) {n : ℕ} (hinside : s <:+: text.take n) :
    ∃ i < n, StartsAt ctrl text i := by
  obtain ⟨left, right, hsplit⟩ := hinside
  have hlength := congrArg List.length hsplit
  have hpos := List.length_pos_iff.mpr (hstops s hs)
  rw [List.length_append, List.length_append, List.length_take] at hlength
  refine ⟨left.length, by omega, s, hs, ?_⟩
  have hprefix : left ++ s <+: text :=
    (List.prefix_append (left ++ s) right).trans (hsplit ▸ List.take_prefix n text)
  obtain ⟨rest, rfl⟩ := hprefix
  rw [List.append_assoc, List.drop_left]
  exact List.prefix_append s rest

theorem trimmed_truncateAtStop (hstops : ∀ s ∈ ctrl.stops, s ≠ []) (text : List UInt8) :
    Trimmed ctrl text (ctrl.truncateAtStop text).2 := by
  obtain ⟨hfrom, hleast⟩ := foldl_cut ctrl.stops text none
  rw [DecodeControl.truncateAtStop]
  generalize ctrl.stops.foldl _ none = cut at hfrom hleast ⊢
  have hstart : ∀ i, StartsAt ctrl text i → ∃ c ≤ i, cut = some c := by
    intro i hstarts
    obtain ⟨s, hs, j, hj, hfind⟩ := exists_find_of_startsAt hstops hstarts
    obtain ⟨c, hc, hcut⟩ := hleast j (.inr ⟨s, hs, hfind⟩)
    exact ⟨c, hc.trans hj, hcut⟩
  cases cut with
  | none =>
    have hnone : ∀ i, ¬ StartsAt ctrl text i := by
      intro i hstarts
      obtain ⟨c, -, hcut⟩ := hstart i hstarts
      cases hcut
    refine ⟨List.prefix_rfl, fun i hi => absurd hi (hnone i), fun s hs hinside => ?_,
      fun other hother _ => hother.length_le⟩
    rw [← List.take_length (l := text)] at hinside
    obtain ⟨i, -, hstarts⟩ := exists_startsAt_of_infix_take hstops hs hinside
    exact hnone i hstarts
  | some c =>
    have hc : ∀ i, StartsAt ctrl text i → c ≤ i := by
      intro i hstarts
      obtain ⟨d, hd, hcut⟩ := hstart i hstarts
      obtain rfl := Option.some.inj hcut
      exact hd
    refine ⟨List.take_prefix c text, fun i hi => ?_, fun s hs hinside => ?_,
      fun other hother hbefore => ?_⟩
    · exact (List.length_take_le c text).trans (hc i hi)
    · obtain ⟨i, hi, hstarts⟩ := exists_startsAt_of_infix_take hstops hs hinside
      exact absurd (hc i hstarts) (Nat.not_le_of_lt hi)
    · rcases hfrom c rfl with hnone | ⟨s, hs, hfind⟩
      · cases hnone
      · have hstarts : StartsAt ctrl text c := ⟨s, hs, (find_eq_some_iff.mp hfind).1.2⟩
        rw [List.length_take]
        exact le_min (hbefore c hstarts) hother.length_le

end

section

variable {decode : List Token → List UInt8} {ctrl : DecodeControl} {tokens : List Token}

theorem Joins.infix_of_fires (hjoins : Joins decode tokens) {n : ℕ}
    (hfires : firesAt ctrl decode tokens n = true) :
    ∃ s ∈ ctrl.stops, s <:+: decode (tokens.take n) := by
  obtain ⟨s, hs, hinside⟩ := stopHitIn_eq_true_iff.mp hfires
  refine ⟨s, hs, hinside.trans ?_⟩
  have hwhole := hjoins.append
    ((tokens.take n).take ((tokens.take n).length - ctrl.windowTokens))
    ((tokens.take n).drop ((tokens.take n).length - ctrl.windowTokens))
  rw [List.take_append_drop] at hwhole
  rw [hwhole]
  exact (List.suffix_append _ _).isInfix

end

/-- **Stop strings are caught in time and trimmed.** The check of the window fires no later than the
first check at which the whole text contains a stop string, and at no check at which it contains
none; the cut leaves the longest start of the text before the earliest one. -/
theorem stop_strings_caught (penalties : PenaltyConfig) (logitBias : List (Token × Extended ℚ))
    (seed : Option ℕ) (stops : List (List UInt8)) (hstops : ∀ s ∈ stops, s ≠ [])
    (decode : List Token → List UInt8) (tokens : List Token) (hjoins : Joins decode tokens)
    (checks : List ℕ) (hschedule : Scheduled checks) :
    let ctrl := DecodeControl.new penalties logitBias seed stops
    (∀ n ∈ checks, (∃ s ∈ stops, s <:+: decode (tokens.take n)) →
      ∃ m ∈ checks, m ≤ n ∧ firesAt ctrl decode tokens m = true) ∧
    (∀ n, firesAt ctrl decode tokens n = true → ∃ s ∈ stops, s <:+: decode (tokens.take n)) ∧
    Trimmed ctrl (decode tokens) (ctrl.truncateAtStop (decode tokens)).2 := by
  intro ctrl
  have hwindow : ∀ s ∈ ctrl.stops, 6 + s.length ≤ ctrl.windowTokens := by
    intro s hs
    have hmax : s.length ≤ (stops.map List.length).foldr max 0 :=
      List.le_max_of_le' 0 (List.mem_map_of_mem hs) le_rfl
    change 6 + s.length ≤ 8 + (stops.map List.length).foldr max 0
    omega
  have hstart : ctrl.stopHitIn (decode (tokens.take 0)) = false := by
    rw [List.take_zero, hjoins.nil, ← Bool.not_eq_true, stopHitIn_eq_true_iff]
    rintro ⟨s, hs, hinside⟩
    exact hstops s hs (List.infix_nil.mp hinside)
  refine ⟨fun n hn hhit => ?_, fun n hfires => hjoins.infix_of_fires hfires,
    trimmed_truncateAtStop hstops _⟩
  exact hjoins.fires_by hwindow hschedule hstart hn (stopHitIn_eq_true_iff.mpr hhit)

/-- A tokenizer with the texts `a`, `S`, `TO` and `P`. -/
def stopTexts : Token → List UInt8
  | 1 => [83]
  | 2 => [84, 79]
  | 3 => [80]
  | _ => [97]

theorem joins_flatMap_stopTexts (tokens : List Token) : Joins (List.flatMap stopTexts) tokens := by
  refine ⟨fun left right => List.flatMap_append, fun token _ => ?_⟩
  rw [List.flatMap_singleton]
  unfold stopTexts
  split <;> simp

/-- `STOP` starts before the second check, at which its window is shorter than the text, and is
complete at the third. -/
theorem stop_strings_caught_straddling :
    let ctrl := DecodeControl.new {} [] none [[83, 84, 79, 80]]
    let decode := List.flatMap stopTexts
    let tokens := List.replicate 12 0 ++ [1, 2, 3] ++ List.replicate 4 0
    (ctrl.windowTokens = 12 ∧ firesAt ctrl decode tokens 14 = false) ∧
    (∃ m ∈ [6, 8, 14, 19], m ≤ 19 ∧ firesAt ctrl decode tokens m = true) ∧
    (∀ n, firesAt ctrl decode tokens n = true →
      ∃ s ∈ [[83, 84, 79, 80]], s <:+: decode (tokens.take n)) ∧
    Trimmed ctrl (decode tokens) (ctrl.truncateAtStop (decode tokens)).2 := by
  intro ctrl decode tokens
  obtain ⟨hcaught, hsound, htrimmed⟩ := stop_strings_caught {} [] none [[83, 84, 79, 80]] (by simp)
    decode tokens (joins_flatMap_stopTexts tokens) [6, 8, 14, 19] (by simp [Scheduled])
  refine ⟨⟨rfl, by decide⟩, hcaught 19 (by simp) ?_, hsound, htrimmed⟩
  exact ⟨_, List.mem_singleton.mpr rfl, List.replicate 12 97, List.replicate 4 97, by decide⟩

end Zllm.DecodeCtrl
