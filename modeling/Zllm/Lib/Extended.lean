import Mathlib

/-!
# Extended numbers

The arithmetic of floats without rounding: a number of an ordered field, one of the two infinities,
or no number at all. Zero has one sign, and a number above zero divided by it is the upper infinity.
-/

namespace Zllm

inductive Extended (α : Type*)
  | nan
  | bot
  | fin (x : α)
  | top
deriving DecidableEq

namespace Extended

variable {α : Type*}

/-! ### Comparisons -/

section

variable [LinearOrder α]

/-- Nothing compares with `nan`. -/
protected def Lt : Extended α → Extended α → Prop
  | bot, fin _ | bot, top | fin _, top => True
  | fin x, fin y => x < y
  | _, _ => False

instance : LT (Extended α) := ⟨Extended.Lt⟩

instance : DecidableRel (fun x y : Extended α => x < y) := fun x y =>
  match x, y with
  | bot, fin _ | bot, top | fin _, top => .isTrue trivial
  | fin x, fin y => inferInstanceAs (Decidable (x < y))
  | nan, _ | top, _ | bot, nan | fin _, nan | bot, bot | fin _, bot => .isFalse id

@[simp]
theorem fin_lt_fin {x y : α} : fin x < fin y ↔ x < y := Iff.rfl

@[simp]
theorem bot_lt_fin {x : α} : bot < fin x := trivial

@[simp]
theorem not_lt_bot (x : Extended α) : ¬ x < bot := by cases x <;> exact id

@[simp]
theorem not_lt_nan (x : Extended α) : ¬ x < nan := by cases x <;> exact id

@[simp]
theorem not_nan_lt (x : Extended α) : ¬ nan < x := by cases x <;> exact id

variable {x y z : Extended α}

theorem lt_top_iff : x < top ↔ x ≠ nan ∧ x ≠ top := by
  cases x with
  | nan => exact iff_of_false id fun h => h.1 rfl
  | bot => exact iff_of_true trivial ⟨nofun, nofun⟩
  | fin x => exact iff_of_true trivial ⟨nofun, nofun⟩
  | top => exact iff_of_false id fun h => h.2 rfl

theorem lt_trans' (hxy : x < y) (hyz : y < z) : x < z := by
  cases x <;> cases y <;> cases z <;> first | exact hxy | exact hyz | trivial | skip
  exact lt_trans (α := α) hxy hyz

theorem lt_asymm' (hxy : x < y) : ¬ y < x := by
  intro hyx
  have hself := lt_trans' hxy hyx
  cases x with
  | fin x => exact lt_irrefl x hself
  | _ => exact hself

theorem bot_lt_of_lt (hxy : x < y) : bot < y := by
  cases y with
  | nan => exact absurd hxy (not_lt_nan x)
  | bot => exact absurd hxy (not_lt_bot x)
  | fin y => trivial
  | top => trivial

theorem bot_lt_of_ne (hx : x < top) (hne : x ≠ bot) : bot < x := by
  cases x with
  | nan => exact absurd hx (not_nan_lt top)
  | bot => exact absurd rfl hne
  | fin x => trivial
  | top => trivial

/-- What is not above is no number, or not above anything larger. -/
theorem eq_nan_or_lt_of_not_lt (hxy : ¬ x < y) (hxz : x < z) : y = nan ∨ y < z := by
  cases x <;> cases y <;> cases z <;> first
    | exact .inl rfl
    | exact .inr trivial
    | exact absurd trivial hxy
    | exact absurd hxz id
    | skip
  exact .inr (lt_of_le_of_lt (α := α) (not_lt.mp hxy) hxz)

end

/-! ### Arithmetic -/

section

variable [Field α]

instance : Zero (Extended α) := ⟨fin 0⟩

instance : One (Extended α) := ⟨fin 1⟩

protected def neg : Extended α → Extended α
  | nan => nan
  | bot => top
  | fin x => fin (-x)
  | top => bot

protected def add : Extended α → Extended α → Extended α
  | fin x, fin y => fin (x + y)
  | bot, fin _ | fin _, bot | bot, bot => bot
  | top, fin _ | fin _, top | top, top => top
  | _, _ => nan

instance : Neg (Extended α) := ⟨Extended.neg⟩

instance : Add (Extended α) := ⟨Extended.add⟩

instance : Sub (Extended α) := ⟨fun x y => x + -y⟩

theorem zero_eq : (0 : Extended α) = fin 0 := rfl

@[simp]
theorem fin_add_fin (x y : α) : fin x + fin y = fin (x + y) := rfl

theorem fin_sub_fin (x y : α) : fin x - fin y = fin (x - y) :=
  congrArg fin (sub_eq_add_neg x y).symm

@[simp]
theorem bot_add_fin (y : α) : (bot : Extended α) + fin y = bot := rfl

variable [LinearOrder α]

def sign : Extended α → SignType
  | nan => 0
  | bot => -1
  | fin x => SignType.sign x
  | top => 1

/-- The infinity of a sign. -/
def infinite : SignType → Extended α
  | .zero => nan
  | .neg => bot
  | .pos => top

protected def mul : Extended α → Extended α → Extended α
  | nan, _ | _, nan => nan
  | fin x, fin y => fin (x * y)
  | x, y => infinite (x.sign * y.sign)

protected def div : Extended α → Extended α → Extended α
  | nan, _ | _, nan => nan
  | fin x, fin y => if y = 0 then infinite (SignType.sign x) else fin (x / y)
  | fin _, _ => fin 0
  | x, fin y => if y = 0 then x else infinite (x.sign * SignType.sign y)
  | _, _ => nan

instance : Mul (Extended α) := ⟨Extended.mul⟩

instance : Div (Extended α) := ⟨Extended.div⟩

theorem zero_lt_fin {x : α} : 0 < fin x ↔ 0 < x := Iff.rfl

@[simp]
theorem fin_mul_fin (x y : α) : fin x * fin y = fin (x * y) := rfl

/-- A difference stays below the upper infinity unless the lower one is taken away. -/
theorem sub_lt_top {x y : Extended α} : x - y < top ↔ x < top ∧ bot < y := by
  cases x <;> cases y <;> first
    | exact iff_of_true trivial ⟨trivial, trivial⟩
    | exact iff_of_false id fun h => h.1
    | exact iff_of_false id fun h => h.2

theorem sub_eq_bot {x y : Extended α} (hx : x < top) (hy : bot < y) :
    x - y = bot ↔ x = bot ∨ y = top := by
  cases x <;> cases y <;> first
    | exact absurd hx id
    | exact absurd hy id
    | exact iff_of_true rfl (.inl rfl)
    | exact iff_of_true rfl (.inr rfl)
    | exact iff_of_false nofun (by rintro (h | h) <;> cases h)

theorem bot_mul_eq_bot {y : Extended α} : bot * y = bot ↔ 0 < y := by
  cases y with
  | nan => exact iff_of_false nofun id
  | bot => exact iff_of_false nofun id
  | top => exact iff_of_true rfl trivial
  | fin y =>
    change infinite (-1 * SignType.sign y) = bot ↔ 0 < y
    rcases lt_trichotomy y 0 with hy | rfl | hy
    · simpa [sign_neg hy, infinite] using hy.le
    · simp [infinite]
    · simpa [sign_pos hy, infinite] using hy

theorem bot_mul_lt_top {y : Extended α} : bot * y < top ↔ 0 < y := by
  cases y with
  | nan => exact iff_of_false id id
  | bot => exact iff_of_false id id
  | top => exact iff_of_true trivial trivial
  | fin y =>
    change infinite (-1 * SignType.sign y) < top ↔ 0 < y
    rcases lt_trichotomy y 0 with hy | rfl | hy
    · simp [sign_neg hy, hy.le, infinite, lt_top_iff]
    · simp [infinite, lt_top_iff]
    · simp [sign_pos hy, hy, infinite, lt_top_iff]

@[simp]
theorem zero_mul_bot : (fin 0 : Extended α) * bot = nan := by
  change infinite (SignType.sign 0 * -1) = nan
  rw [sign_zero, zero_mul]
  rfl

@[simp]
theorem zero_mul_top : (fin 0 : Extended α) * top = nan := by
  change infinite (SignType.sign 0 * 1) = nan
  rw [sign_zero, zero_mul]
  rfl

theorem zero_mul_lt_top {y : Extended α} : fin 0 * y < top ↔ bot < y ∧ y < top := by
  cases y with
  | nan => exact iff_of_false id fun h => h.1
  | bot => exact iff_of_false (by simp) fun h => not_lt_bot bot h.1
  | fin y => exact iff_of_true trivial ⟨trivial, trivial⟩
  | top => exact iff_of_false (by simp) fun h => (lt_top_iff.mp h.2).2 rfl

section

variable {x : α}

theorem neg_mul_bot (hx : x < 0) : fin x * bot = top := by
  change infinite (SignType.sign x * -1) = top
  rw [sign_neg hx]
  rfl

theorem neg_mul_top (hx : x < 0) : fin x * top = bot := by
  change infinite (SignType.sign x * 1) = bot
  rw [sign_neg hx]
  rfl

theorem neg_mul_lt_top (hx : x < 0) {y : Extended α} : fin x * y < top ↔ bot < y := by
  cases y with
  | nan => exact iff_of_false id id
  | bot => exact iff_of_false (by simp [neg_mul_bot hx, lt_top_iff]) id
  | fin y => exact iff_of_true trivial trivial
  | top => exact iff_of_true (neg_mul_top hx ▸ trivial) trivial

theorem neg_mul_eq_bot (hx : x < 0) {y : Extended α} : fin x * y = bot ↔ y = top := by
  cases y with
  | nan => exact iff_of_false nofun nofun
  | bot => exact iff_of_false (by simp [neg_mul_bot hx]) nofun
  | fin y => exact iff_of_false nofun nofun
  | top => exact iff_of_true (neg_mul_top hx) rfl

theorem pos_div_zero (hx : 0 < x) : fin x / 0 = top := by
  change (if (0 : α) = 0 then infinite (SignType.sign x) else _) = top
  rw [if_pos rfl, sign_pos hx]
  rfl

theorem fin_div_fin {y : α} (hy : y ≠ 0) : fin x / fin y = fin (x / y) := if_neg hy

theorem pos_div_lt_top (hx : 0 < x) {y : Extended α} : fin x / y < top ↔ y ≠ nan ∧ y ≠ 0 := by
  cases y with
  | nan => exact iff_of_false id fun h => h.1 rfl
  | bot => exact iff_of_true trivial ⟨nofun, nofun⟩
  | top => exact iff_of_true trivial ⟨nofun, nofun⟩
  | fin y =>
    rcases eq_or_ne y 0 with rfl | hy
    · rw [← zero_eq, pos_div_zero hx]
      exact iff_of_false id fun h => h.2 rfl
    · rw [fin_div_fin hy]
      exact iff_of_true trivial ⟨nofun, fun h => hy (fin.inj h)⟩

theorem pos_div_ne_bot (hx : 0 < x) (y : Extended α) : fin x / y ≠ bot := by
  cases y with
  | fin y =>
    rcases eq_or_ne y 0 with rfl | hy
    · rw [← zero_eq, pos_div_zero hx]
      exact nofun
    · rw [fin_div_fin hy]
      exact nofun
  | _ => exact nofun

end

end

/-! ### Numbers with a least one -/

def ofWithBot : WithBot α → Extended α
  | ⊥ => bot
  | (x : α) => fin x

@[simp]
theorem ofWithBot_bot : ofWithBot (⊥ : WithBot α) = bot := rfl

@[simp]
theorem ofWithBot_coe (x : α) : ofWithBot (x : WithBot α) = fin x := rfl

@[simp]
theorem ofWithBot_lt [LinearOrder α] {x y : WithBot α} : ofWithBot x < ofWithBot y ↔ x < y := by
  induction x using WithBot.recBotCoe <;> induction y using WithBot.recBotCoe <;> simp

theorem ofWithBot_injective : Function.Injective (ofWithBot : WithBot α → Extended α) := by
  intro x y heq
  induction x using WithBot.recBotCoe <;> induction y using WithBot.recBotCoe <;> cases heq <;> rfl

theorem ofWithBot_ne_nan (x : WithBot α) : ofWithBot x ≠ nan := by
  induction x using WithBot.recBotCoe <;> exact nofun

/-- Every number but `nan` and the upper infinity. -/
theorem exists_ofWithBot {x : Extended α} (hnan : x ≠ nan) (htop : x ≠ top) :
    ∃ y : WithBot α, x = ofWithBot y := by
  cases x with
  | nan => exact absurd rfl hnan
  | bot => exact ⟨⊥, rfl⟩
  | fin x => exact ⟨x, rfl⟩
  | top => exact absurd rfl htop

/-! ### Not below, and functions -/

section

variable [LinearOrder α]

/-- Nothing compares with `nan`, itself included. -/
protected def Le (x y : Extended α) : Prop := x < y ∨ x = y ∧ x ≠ nan

instance : LE (Extended α) := ⟨Extended.Le⟩

instance : DecidableRel (fun x y : Extended α => x ≤ y) := fun x y =>
  inferInstanceAs (Decidable (x < y ∨ x = y ∧ x ≠ nan))

@[simp]
theorem ofWithBot_le {x y : WithBot α} : ofWithBot x ≤ ofWithBot y ↔ x ≤ y := by
  change ofWithBot x < ofWithBot y ∨ ofWithBot x = ofWithBot y ∧ ofWithBot x ≠ nan ↔ x ≤ y
  rw [ofWithBot_lt, ofWithBot_injective.eq_iff, and_iff_left (ofWithBot_ne_nan x), le_iff_lt_or_eq]

@[simp]
theorem not_nan_le (x : Extended α) : ¬ nan ≤ x := fun h => h.elim (not_nan_lt x) fun h => h.2 rfl

@[simp]
theorem fin_le_fin {x y : α} : fin x ≤ fin y ↔ x ≤ y :=
  ofWithBot_le (x := (x : WithBot α)) (y := (y : WithBot α)) |>.trans WithBot.coe_le_coe

theorem not_fin_le_bot {x : α} : ¬ fin x ≤ (bot : Extended α) := by
  rintro (hlt | ⟨heq, -⟩)
  · exact hlt
  · cases heq

theorem eq_top_of_top_le {x : Extended α} (hx : top ≤ x) : x = top := by
  rcases hx with hlt | ⟨heq, -⟩
  · cases x <;> exact hlt.elim
  · exact heq.symm

theorem le_self {x : Extended α} (hx : x ≠ nan) : x ≤ x := .inr ⟨rfl, hx⟩

protected theorem le_antisymm {x y : Extended α} (hxy : x ≤ y) (hyx : y ≤ x) : x = y := by
  rcases hxy with hlt | ⟨heq, -⟩
  · rcases hyx with hlt' | ⟨heq, -⟩
    · exact absurd hlt' (lt_asymm' hlt)
    · exact heq.symm
  · exact heq

theorem ne_nan_of_le {x y : Extended α} (hxy : x ≤ y) : x ≠ nan ∧ y ≠ nan := by
  rcases hxy with hlt | ⟨rfl, hx⟩
  · constructor
    · rintro rfl
      exact not_nan_lt y hlt
    · rintro rfl
      exact not_lt_nan x hlt
  · exact ⟨hx, hx⟩

protected theorem le_trans {x y z : Extended α} (hxy : x ≤ y) (hyz : y ≤ z) : x ≤ z := by
  rcases hxy with hlt | ⟨rfl, -⟩
  · rcases hyz with hlt' | ⟨rfl, -⟩
    · exact .inl (lt_trans' hlt hlt')
    · exact .inl hlt
  · exact hyz

theorem lt_of_le_of_lt {x y z : Extended α} (hxy : x ≤ y) (hyz : y < z) : x < z := by
  rcases hxy with hlt | ⟨rfl, -⟩
  · exact lt_trans' hlt hyz
  · exact hyz

theorem lt_of_lt_of_le {x y z : Extended α} (hxy : x < y) (hyz : y ≤ z) : x < z := by
  rcases hyz with hlt | ⟨rfl, -⟩
  · exact lt_trans' hxy hlt
  · exact hxy

theorem le_top {x : Extended α} (hx : x ≠ nan) : x ≤ top := by
  cases x with
  | nan => exact absurd rfl hx
  | bot => exact .inl trivial
  | fin x => exact .inl trivial
  | top => exact le_self hx

theorem bot_le {x : Extended α} (hx : x ≠ nan) : bot ≤ x := by
  cases x with
  | nan => exact absurd rfl hx
  | bot => exact le_self hx
  | fin x => exact .inl trivial
  | top => exact .inl trivial

/-- The larger one, where `nan` gives way to the other. -/
def maxNum (x y : Extended α) : Extended α :=
  if x = nan then y else if y = nan then x else if x < y then y else x

/-- The smaller one, where `nan` gives way to the other. -/
def minNum (x y : Extended α) : Extended α :=
  if x = nan then y else if y = nan then x else if y < x then y else x

def clamp (x low high : Extended α) : Extended α :=
  if x < low then low else if high < x then high else x

theorem le_minNum {x y z : Extended α} (hx : x = nan ∨ z ≤ x) (hy : z ≤ y) : z ≤ minNum x y := by
  rcases hx with rfl | hx
  · exact hy
  · rw [minNum, if_neg (ne_nan_of_le hx).2, if_neg (ne_nan_of_le hy).2]
    split_ifs
    · exact hy
    · exact hx

theorem minNum_of_le {x y : Extended α} (hle : y ≤ x) : minNum x y = y := by
  obtain ⟨hy, hx⟩ := ne_nan_of_le hle
  rw [minNum, if_neg hx, if_neg hy]
  split_ifs with hlt
  · rfl
  · exact (hle.resolve_left hlt).1.symm

theorem not_lt_clamp {x low high : Extended α} (hle : low ≤ high) : ¬ high < clamp x low high := by
  unfold clamp
  split_ifs with hlow hhigh
  · exact fun hlt => lt_asymm' (lt_of_lt_of_le hlt hle) (lt_of_lt_of_le hlt hle)
  · exact fun hlt => lt_asymm' hlt hlt
  · exact hhigh

theorem maxNum_ofWithBot (x y : WithBot α) :
    maxNum (ofWithBot x) (ofWithBot y) = ofWithBot (max x y) := by
  rw [maxNum, if_neg (ofWithBot_ne_nan x), if_neg (ofWithBot_ne_nan y)]
  by_cases hlt : x < y
  · rw [if_pos (ofWithBot_lt.2 hlt), max_eq_right hlt.le]
  · rw [if_neg (mt ofWithBot_lt.1 hlt), max_eq_left (not_lt.1 hlt)]

end

section

variable [Field α] [LinearOrder α] {x y : Extended α}

omit [LinearOrder α] in
theorem neg_zero : -(0 : Extended α) = 0 := by
  change fin (-0) = fin 0
  simp

theorem zero_le_fin {x : α} : 0 ≤ fin x ↔ 0 ≤ x := fin_le_fin

/-- What is not below zero is a number or the upper infinity. -/
theorem nonneg_cases (hx : 0 ≤ x) : x = top ∨ ∃ a : α, 0 ≤ a ∧ x = fin a := by
  cases x with
  | nan => exact absurd rfl (ne_nan_of_le hx).2
  | bot => exact hx.elim (fun h => absurd h (not_lt_bot 0)) fun h => by cases h.1
  | fin a => exact .inr ⟨a, fin_le_fin.1 hx, rfl⟩
  | top => exact .inl rfl

theorem exists_fin_of_le {b : α} (hx : 0 ≤ x) (hxb : x ≤ fin b) :
    ∃ a, x = fin a ∧ 0 ≤ a ∧ a ≤ b := by
  rcases nonneg_cases hx with rfl | ⟨a, ha, rfl⟩
  · cases eq_top_of_top_le hxb
  · exact ⟨a, rfl, ha, fin_le_fin.1 hxb⟩

variable [IsStrictOrderedRing α]

theorem div_nonneg {b : α} (hx : 0 ≤ x) (hb : 0 < b) : 0 ≤ x / fin b := by
  rcases nonneg_cases hx with rfl | ⟨a, ha, rfl⟩
  · have htop : (top : Extended α) / fin b = top := by
      change (if b = 0 then top else infinite (1 * SignType.sign b)) = top
      rw [if_neg hb.ne', sign_pos hb]
      rfl
    rw [htop]
    exact le_top nofun
  · rw [fin_div_fin hb.ne']
    exact zero_le_fin.2 (by positivity)

theorem nan_or_div_nonneg (hx : 0 ≤ x) (hy : 0 ≤ y) : x / y = nan ∨ 0 ≤ x / y := by
  rcases nonneg_cases hy with rfl | ⟨b, hb, rfl⟩
  · rcases nonneg_cases hx with rfl | ⟨a, -, rfl⟩
    · exact .inl rfl
    · exact .inr (zero_le_fin.2 le_rfl)
  · rcases hb.eq_or_lt with rfl | hpos
    · rcases nonneg_cases hx with rfl | ⟨a, ha, rfl⟩
      · change (if (0 : α) = 0 then top else _) = nan ∨ 0 ≤ (if (0 : α) = 0 then top else _)
        rw [if_pos rfl]
        exact .inr (le_top nofun)
      · rcases ha.eq_or_lt with rfl | hpos
        · apply Or.inl
          change (if (0 : α) = 0 then infinite (SignType.sign 0) else _) = nan
          rw [if_pos rfl, sign_zero]
          rfl
        · have htop : fin a / fin 0 = top := pos_div_zero hpos
          rw [htop]
          exact .inr (le_top nofun)
    · exact .inr (div_nonneg hx hpos)

/-- One divided by what is not below it is between zero and one. -/
theorem one_div_mem (hx : 1 ≤ x) : 0 ≤ 1 / x ∧ 1 / x ≤ 1 := by
  have hone : (0 : Extended α) ≤ 1 := zero_le_fin.2 zero_le_one
  rcases nonneg_cases (Extended.le_trans hone hx) with rfl | ⟨a, -, rfl⟩
  · exact ⟨le_self nofun, hone⟩
  · have ha : 1 ≤ a := fin_le_fin.1 hx
    have hpos : 0 < a := zero_lt_one.trans_le ha
    have hquot : (1 : Extended α) / fin a = fin (1 / a) := fin_div_fin hpos.ne'
    rw [hquot]
    exact ⟨zero_le_fin.2 (one_div_pos.2 hpos).le, fin_le_fin.2 ((div_le_one hpos).2 ha)⟩

theorem neg_le_neg (hxy : x ≤ y) : -y ≤ -x := by
  obtain ⟨hx, hy⟩ := ne_nan_of_le hxy
  cases x with
  | nan => exact absurd rfl hx
  | bot =>
    cases y with
    | nan => exact absurd rfl hy
    | _ => exact le_top nofun
  | fin x =>
    cases y with
    | nan => exact absurd rfl hy
    | bot => exact absurd hxy not_fin_le_bot
    | fin y => exact fin_le_fin.2 (by linarith [fin_le_fin.1 hxy])
    | top => exact bot_le nofun
  | top =>
    obtain rfl := eq_top_of_top_le hxy
    exact le_self nofun

theorem le_add_of_nonneg (hx : 0 ≤ x) (hy : 0 ≤ y) : x ≤ x + y := by
  rcases nonneg_cases hx with rfl | ⟨a, ha, rfl⟩
  · rcases nonneg_cases hy with rfl | ⟨b, hb, rfl⟩
    · exact le_self nofun
    · exact le_self nofun
  · rcases nonneg_cases hy with rfl | ⟨b, hb, rfl⟩
    · exact le_top nofun
    · exact fin_le_fin.2 (by linarith)

theorem fin_le_fin_add {x : α} (hy : 0 ≤ y) : fin x ≤ fin x + y := by
  rcases nonneg_cases hy with rfl | ⟨b, hb, rfl⟩
  · exact le_top nofun
  · exact fin_le_fin.2 (by linarith)

/-- What is not above a number, less something not below that number. -/
theorem ofWithBot_sub_le_zero {w : WithBot α} {a : α} (hw : w ≤ a) (hy : fin a ≤ y) :
    ofWithBot w - y ≤ 0 := by
  induction w using WithBot.recBotCoe with
  | bot =>
    cases y with
    | nan => exact absurd rfl (ne_nan_of_le hy).2
    | bot => exact absurd hy not_fin_le_bot
    | fin y => exact bot_le nofun
    | top => exact bot_le nofun
  | coe x =>
    have hx : x ≤ a := WithBot.coe_le_coe.1 hw
    cases y with
    | nan => exact absurd rfl (ne_nan_of_le hy).2
    | bot => exact absurd hy not_fin_le_bot
    | fin y => exact fin_le_fin.2 (by linarith [fin_le_fin.1 hy])
    | top => exact bot_le nofun

theorem le_add_of_nonneg_left (hx : 0 ≤ x) (hy : 0 ≤ y) : y ≤ x + y := by
  rcases nonneg_cases hx with rfl | ⟨a, ha, rfl⟩
  · rcases nonneg_cases hy with rfl | ⟨b, hb, rfl⟩
    · exact le_self nofun
    · exact le_top nofun
  · rcases nonneg_cases hy with rfl | ⟨b, hb, rfl⟩
    · exact le_self nofun
    · exact fin_le_fin.2 (by linarith)

end

theorem ofWithBot_sub_fin [Field α] (x : WithBot α) (y : α) :
    ofWithBot x - fin y = ofWithBot (x.map (· - y)) := by
  induction x using WithBot.recBotCoe with
  | bot => rfl
  | coe x => exact congrArg fin (sub_eq_add_neg x y).symm

/-- A literal. -/
noncomputable def ofRat (q : ℚ) : Extended ℝ := fin q

noncomputable def exp : Extended ℝ → Extended ℝ
  | nan => nan
  | bot => fin 0
  | fin x => fin (Real.exp x)
  | top => top

noncomputable def ln : Extended ℝ → Extended ℝ
  | nan | bot => nan
  | fin x => if x < 0 then nan else if x = 0 then bot else fin (Real.log x)
  | top => top

noncomputable def sqrt : Extended ℝ → Extended ℝ
  | nan | bot => nan
  | fin x => if x < 0 then nan else fin (Real.sqrt x)
  | top => top

theorem nan_or_sqrt_nonneg (x : Extended ℝ) : x.sqrt = nan ∨ 0 ≤ x.sqrt := by
  cases x with
  | nan => exact .inl rfl
  | bot => exact .inl rfl
  | top => exact .inr (le_top nofun)
  | fin x =>
    rw [sqrt]
    split_ifs
    · exact .inl rfl
    · exact .inr (zero_le_fin.2 (Real.sqrt_nonneg x))

noncomputable def ceil : Extended ℝ → Extended ℝ
  | fin x => fin ⌈x⌉
  | x => x

/-- The cast to a 64-bit unsigned integer: truncated, and saturating at both ends. -/
noncomputable def toUsize : Extended ℝ → ℕ
  | nan | bot => 0
  | fin x => min ⌊x⌋₊ (2 ^ 64 - 1)
  | top => 2 ^ 64 - 1

theorem ln_pos {x : ℝ} (hx : 0 < x) : ln (fin x) = fin (Real.log x) := by
  rw [ln, if_neg hx.not_gt, if_neg hx.ne']

end Extended

end Zllm
