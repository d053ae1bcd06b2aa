import Zllm.Engine.JsonSchema
import Zllm.Lib.Regex

/-!
# The texts of a schema

What the pieces of a compiled pattern match, and from them, by the cases of the compiler, what the
pattern of a schema matches.
-/

namespace Zllm.JsonSchema

open Zllm.Texts Zllm.Regex

/-! ### Terminals -/

/-- At most one space. -/
def space : Language Char := optional (exactly [' '])

def comma : Language Char := space * exactly [','] * space

def colon : Language Char := space * exactly [':'] * space

def hexDigits : Char → Bool := fun c =>
  (decide ('0' ≤ c) && decide (c ≤ '9')) || ((decide ('a' ≤ c) && decide (c ≤ 'f')) ||
    (decide ('A' ≤ c) && decide (c ≤ 'F')))

/-- What stands between the quotes: any characters but a quote or a backslash, and escapes. -/
def stringBody : Language Char :=
  KStar.kstar (oneOf (fun c => c != '"' && c != '\\') +
    exactly ['\\'] * (oneOf (fun c => c ∈ ['"', '\\', '/', 'b', 'f', 'n', 'r', 't']) +
      exactly ['u'] * repeated (oneOf hexDigits) 4 (some 4)))

def quoted (body : Language Char) : Language Char := exactly ['"'] * body * exactly ['"']

def stringTexts : Language Char := quoted stringBody

def boolTexts : Language Char := exactly "true".toList + exactly "false".toList

/-- The types whose texts do not depend on the rest of a schema. -/
inductive Primitive
  | integer
  | number
  | boolean
  | null

namespace Primitive

def typeName : Primitive → String
  | integer => "integer"
  | number => "number"
  | boolean => "boolean"
  | null => "null"

def regex : Primitive → Pattern
  | integer => INTEGER
  | number => NUMBER
  | boolean => BOOL
  | null => NULL

def texts : Primitive → Language Char
  | integer => Json.integer
  | number => Json.number
  | boolean => boolTexts
  | null => exactly "null".toList

end Primitive

section

variable {named : Char → Option (Char → Bool)}

theorem denotes_SP : Denotes named SP space := (item_plain (by decide)).opt

theorem denotes_text {s : List Char} (hplain : ∀ c ∈ s, plain c = true) :
    Denotes named s (exactly s) := by
  induction s with
  | nil => exact denotes_nil
  | cons c s ih =>
    rw [exactly_cons]
    exact (denotes_plain (hplain c List.mem_cons_self)).append
      (ih fun d hmem => hplain d (List.mem_cons_of_mem c hmem))

theorem denotes_sep : Denotes named sep comma :=
  (denotes_SP.append (denotes_text (by decide))).append denotes_SP

theorem denotes_colon : Denotes named (SP ++ ":".toList ++ SP) colon :=
  (denotes_SP.append (denotes_text (by decide))).append denotes_SP

/-- An escaped text matches itself and nothing else. -/
theorem denotes_esc (s : List Char) : Denotes named (esc s) (exactly s) := by
  induction s with
  | nil => exact denotes_nil
  | cons c s ih =>
    rw [exactly_cons]
    refine Denotes.append ?_ ih
    show Denotes named (if isMeta c then ['\\', c] else [c]) (exactly [c])
    split
    · next hc =>
      refine denotes_escape ?_
      simp only [isMeta, decide_eq_true_eq] at hc
      revert c
      decide
    · next hc =>
      refine denotes_plain ?_
      simp only [isMeta, decide_eq_true_eq] at hc
      simp only [plain, Bool.not_eq_true', decide_eq_false_iff_not]
      intro hmem
      refine hc ((?_ : ∀ d ∈ ['\\', '(', ')', '|', '*', '+', '?', '{', '[', '.', '^', '$'],
        d ∈ ['\\', '.', '+', '*', '?', '(', ')', '|', '[', ']', '{', '}', '^', '$']) c hmem)
      decide

/-! The reader is run on the classes and counts that the terminals have. -/

theorem item_of_run {text : List Char} {p q : Char → Bool}
    (hrun : ∀ stack frame repeated,
      State.run named text { stack, frame, mode := .normal repeated } =
        some { stack, frame := { frame with items := .one p :: frame.items }
               mode := .normal false })
    (hsame : ∀ c, p c = q c) : DenotesItem named text (oneOf q) :=
  ⟨.one p, congrArg (fun chars => Placed.anywhere (oneOf chars)) (funext hsame), hrun⟩

theorem item_notQuote :
    DenotesItem named ['[', '^', '"', '\\', '\\', ']']
      (oneOf fun c => c != '"' && c != '\\') := by
  refine item_of_run (fun stack frame repeated => rfl) fun c => ?_
  simp [bne]

theorem item_escapes :
    DenotesItem named ['[', '"', '\\', '\\', '/', 'b', 'f', 'n', 'r', 't', ']']
      (oneOf fun c => c ∈ ['"', '\\', '/', 'b', 'f', 'n', 'r', 't']) := by
  refine item_of_run (fun stack frame repeated => rfl) fun c => ?_
  rw [Bool.eq_iff_iff]
  simp

theorem denotes_fourHex :
    Denotes named
      ['[', '0', '-', '9', 'a', '-', 'f', 'A', '-', 'F', ']', '\x7b', '4', '\x7d']
      (repeated (oneOf hexDigits) 4 (some 4)) := by
  refine ⟨[_], fun stack frame repeated => ⟨_, rfl⟩, (lang_seqs_singleton _).trans ?_⟩
  apply lang_times
  refine congrArg (fun chars => Placed.anywhere (oneOf chars)) ?_
  funext c
  simp [hexDigits]

theorem item_digit : DenotesItem named ['[', '0', '-', '9', ']'] Json.digit := by
  refine item_of_run (fun stack frame repeated => rfl) fun c => ?_
  simp only [Bool.false_xor, Bool.or_false]
  rfl

theorem item_leadingDigit :
    DenotesItem named ['[', '1', '-', '9', ']'] (oneOf fun c => c.isDigit && c != '0') := by
  refine item_of_run (fun stack frame repeated => rfl) fun c => ?_
  have hzero : c ≠ '0' ↔ c.toNat ≠ 48 := by
    rw [ne_eq, ne_eq, ← Char.toNat_inj]
    rfl
  rw [Bool.eq_iff_iff]
  simp only [Bool.false_xor, Bool.or_false, Bool.and_eq_true, decide_eq_true_eq, bne_iff_ne, hzero,
    Char.isDigit_iff_toNat, Char.le_def, UInt32.le_iff_toNat_le]
  show 49 ≤ c.toNat ∧ c.toNat ≤ 57 ↔ (48 ≤ c.toNat ∧ c.toNat ≤ 57) ∧ c.toNat ≠ 48
  omega

theorem item_e :
    DenotesItem named ['[', 'e', 'E', ']'] (oneOf fun c => c == 'e' || c == 'E') := by
  refine item_of_run (fun stack frame repeated => rfl) fun c => ?_
  simp

theorem item_sign :
    DenotesItem named ['[', '+', '-', ']'] (oneOf fun c => c == '+' || c == '-') := by
  refine item_of_run (fun stack frame repeated => rfl) fun c => ?_
  simp

theorem denotes_STRING : Denotes named STRING stringTexts := by
  have hquote : Denotes named ['"'] (exactly ['"']) := denotes_plain (by decide)
  have hslash : Denotes named ['\\', '\\'] (exactly ['\\']) := denotes_escape (by decide)
  have hu : Denotes named ['u'] (exactly ['u']) := denotes_plain (by decide)
  have hcodes :=
    (denotesBranches_of_denotes (hu.append denotes_fourHex)).cons item_escapes.denotes
  have hescape := hslash.append hcodes.group
  have hbody := ((denotesBranches_of_denotes hescape).cons item_notQuote.denotes).star
  exact (hquote.append hbody).append hquote

theorem denotes_INTEGER : Denotes named INTEGER Json.integer := by
  have hminus : Denotes named ['-', '?'] (optional (exactly ['-'])) :=
    (item_plain (by decide)).opt
  have hzero : Denotes named ['0'] (exactly ['0']) := denotes_plain (by decide)
  have hdigits : Denotes named _ _ := item_leadingDigit.denotes.append item_digit.star
  exact hminus.append ((denotesBranches_of_denotes hdigits).cons hzero).group

theorem denotes_NUMBER : Denotes named NUMBER Json.number := by
  have hpoint : Denotes named ['\\', '.'] (exactly ['.']) := denotes_escape (by decide)
  have hfraction := (denotesBranches_of_denotes (hpoint.append item_digit.plus)).opt
  have hexponent : Denotes named _ _ := (denotesBranches_of_denotes
    ((item_e.denotes.append item_sign.opt).append item_digit.plus)).opt
  exact (denotes_INTEGER.append hfraction).append hexponent

theorem denotes_BOOL : Denotes named BOOL boolTexts := by
  have htrue : Denotes named "true".toList (exactly "true".toList) := denotes_text (by decide)
  have hfalse : Denotes named "false".toList (exactly "false".toList) := denotes_text (by decide)
  exact ((denotesBranches_of_denotes hfalse).cons htrue).group

theorem denotes_primitive (ty : Primitive) : Denotes named ty.regex ty.texts := by
  cases ty with
  | integer => exact denotes_INTEGER
  | number => exact denotes_NUMBER
  | boolean => exact denotes_BOOL
  | null => exact denotes_text (by decide)

end

/-! ### Arrays and objects -/

/-- Members in sequence, as many as fit. -/
def members (fits : ℕ → Prop) (item : Language Char) : Language Char :=
  { w | ∃ n, fits n ∧ w ∈ separated comma (List.replicate n item) }

/-- The space before a closing bracket; the compiler leaves it out where nothing can stand before
it. -/
def closing (fits : ℕ → Prop) : Language Char := { w | w = [] ∨ w = [' '] ∧ ∃ n, fits n ∧ n ≠ 0 }

def arrayTexts (fits : ℕ → Prop) (item : Language Char) : Language Char :=
  exactly ['['] * space * members fits item * closing fits * exactly [']']

def objectTexts : List (Language Char) → Language Char
  | [] => exactly ['\x7b'] * space * exactly ['\x7d']
  | pair :: rest =>
    exactly ['\x7b'] * space * separated comma (pair :: rest) * space * exactly ['\x7d']

def pairTexts (name value : Language Char) : Language Char := name * colon * value

def nameTexts (key : String) : Language Char := exactly ('"' :: key.toList ++ ['"'])

/-- An object with any names and as many members as there are. -/
def anyObjectTexts (value : Language Char) : Language Char :=
  exactly ['\x7b'] * space * members (fun _ => True) (pairTexts stringTexts value) * space *
    exactly ['\x7d']

/-- The texts of a value of bounded depth. -/
def anyTexts : ℕ → Language Char
  | 0 => stringTexts + Json.number + boolTexts + exactly "null".toList
  | depth + 1 =>
    stringTexts + Json.number + boolTexts + exactly "null".toList +
      arrayTexts (fun _ => True) (anyTexts depth) + anyObjectTexts (anyTexts depth)

theorem members_all (item : Language Char) :
    members (fun _ => True) item = optional (item * KStar.kstar (comma * item)) := by
  rw [mul_kstar_eq_separated]
  ext w
  rw [mem_optional, Language.mem_iSup]
  constructor
  · rintro ⟨n, -, hw⟩
    cases n with
    | zero => exact .inl hw
    | succ n => exact .inr ⟨n, hw⟩
  · rintro (rfl | ⟨n, hw⟩)
    · exact ⟨0, trivial, rfl⟩
    · exact ⟨n + 1, trivial, hw⟩

theorem members_atLeast (item : Language Char) (n : ℕ) :
    members (fun count => n + 1 ≤ count) item =
      separated comma (List.replicate (n + 1) item) * KStar.kstar (comma * item) := by
  rw [separated_append_kstar]
  ext w
  rw [Language.mem_iSup]
  constructor
  · rintro ⟨count, hcount, hw⟩
    obtain ⟨k, rfl⟩ := Nat.exists_eq_add_of_le hcount
    exact ⟨k, hw⟩
  · rintro ⟨k, hw⟩
    exact ⟨n + 1 + k, Nat.le_add_right _ k, hw⟩

theorem members_between (item : Language Char) (least most : ℕ) :
    members (fun count => least ≤ count ∧ count ≤ most ∧ count ≠ 0) item =
      ((List.range' (max least 1) (most + 1 - max least 1)).map fun count =>
        separated comma (List.replicate count item)).sum := by
  ext w
  rw [sum_map_mem]
  constructor
  · rintro ⟨n, ⟨hleast, hmost, hne⟩, hw⟩
    refine ⟨n, List.mem_range'_1.mpr ?_, hw⟩
    omega
  · rintro ⟨n, hmem, hw⟩
    have hrange := List.mem_range'_1.mp hmem
    exact ⟨n, by omega, hw⟩

theorem closing_of_exists {fits : ℕ → Prop} {n : ℕ} (hfits : fits n) (hne : n ≠ 0) :
    closing fits = space := by
  ext w
  constructor
  · rintro (rfl | ⟨rfl, -⟩)
    · exact .inl rfl
    · exact .inr rfl
  · rintro (h | h)
    · exact .inl h
    · exact .inr ⟨h, n, hfits, hne⟩

section

variable {named : Char → Option (Char → Bool)} {item : Pattern} {l : Language Char}

theorem denotes_bracketed (h : Denotes named item l) :
    Denotes named (bracketed item) (exactly ['['] * l * exactly [']']) :=
  ((denotes_escape (by decide)).append h).append (denotes_escape (by decide))

theorem denotes_braced (h : Denotes named item l) :
    Denotes named (braced item) (exactly ['\x7b'] * l * exactly ['\x7d']) :=
  ((denotes_escape (by decide)).append h).append (denotes_escape (by decide))

theorem denotes_more (h : Denotes named item l) :
    Denotes named ('(' :: sep ++ item ++ ")*".toList) (KStar.kstar (comma * l)) := by
  have hmore := (denotesBranches_of_denotes (denotes_sep.append h)).star
  exact hmore

theorem denotes_many (h : Denotes named item l) :
    Denotes named (manyRegex item) (members (fun _ => True) l) := by
  have hmany := (denotesBranches_of_denotes (h.append (denotes_more h))).opt
  rw [members_all]
  simpa [manyRegex] using hmany

theorem denotes_counted (h : Denotes named item l) (count : ℕ) :
    Denotes named (join sep (List.replicate count item))
      (separated comma (List.replicate count l)) := by
  have hjoin := denotes_join (List.range count) denotes_sep fun _ _ => h
  rw [join]
  simpa using hjoin

theorem arrayTexts_none {fits : ℕ → Prop} (hnone : ∀ n, fits n → n = 0) (hfits : fits 0) :
    arrayTexts fits l = exactly ['['] * space * exactly [']'] := by
  have hmembers : members fits l = 1 := by
    ext w
    constructor
    · rintro ⟨n, hn, hw⟩
      rw [hnone n hn] at hw
      exact hw
    · intro hw
      exact ⟨0, hfits, hw⟩
  have hclosing : closing fits = 1 := by
    ext w
    constructor
    · rintro (hw | ⟨-, n, hn, hne⟩)
      · exact hw
      · exact absurd (hnone n hn) hne
    · exact .inl
  rw [arrayTexts, hmembers, hclosing, mul_one, mul_one]

theorem item_counts (h : Denotes named item l) {least m : ℕ} (hle : least ≤ m + 1) :
    DenotesItem named
      (alternatives ((List.range' (max least 1) (m + 1 + 1 - max least 1)).map fun count =>
        join sep (List.replicate count item)))
      (members (fun count => least ≤ count ∧ count ≤ m + 1 ∧ count ≠ 0) l) := by
  have hne : List.range' (max least 1) (m + 1 + 1 - max least 1) ≠ [] := by
    rw [ne_eq, List.range'_eq_nil_iff]
    omega
  rw [members_between]
  exact (denotesBranches_join hne fun count _ => denotes_counted h count).item

theorem members_upTo (m : ℕ) :
    members (fun count => 0 ≤ count ∧ ∀ k ∈ some (m + 1), count ≤ k) l =
      optional (members (fun count => 0 ≤ count ∧ count ≤ m + 1 ∧ count ≠ 0) l) := by
  ext w
  rw [mem_optional]
  constructor
  · rintro ⟨n, ⟨-, hmost⟩, hw⟩
    cases n with
    | zero => exact .inl hw
    | succ n => exact .inr ⟨n + 1, ⟨Nat.zero_le _, hmost (m + 1) rfl, Nat.succ_ne_zero n⟩, hw⟩
  · rintro (rfl | ⟨n, ⟨hzero, hmost, -⟩, hw⟩)
    · exact ⟨0, ⟨le_rfl, fun k hk => Nat.zero_le k⟩, rfl⟩
    · exact ⟨n, ⟨hzero, fun k hk => (Option.some.inj hk) ▸ hmost⟩, hw⟩

theorem members_from (n m : ℕ) :
    members (fun count => n + 1 ≤ count ∧ count ≤ m + 1 ∧ count ≠ 0) l =
      members (fun count => n + 1 ≤ count ∧ ∀ k ∈ some (m + 1), count ≤ k) l := by
  congr 1
  funext count
  simp only [Option.mem_some_iff, forall_eq', eq_iff_iff]
  omega

/-- Where no item fits, the pattern of the items is left out. -/
theorem denotes_noItems (item : Pattern) (l : Language Char) {least : ℕ} (hleast : least ≤ 0) :
    Denotes named (arrayRegex item least (some 0))
      (arrayTexts (fun n => least ≤ n ∧ ∀ m ∈ some 0, n ≤ m) l) := by
  have hzero : least ≤ 0 ∧ ∀ m ∈ some 0, 0 ≤ m := ⟨hleast, fun m hm => Nat.zero_le m⟩
  rw [arrayTexts_none (fun n hfits => Nat.le_zero.mp (hfits.2 0 rfl)) hzero]
  exact denotes_bracketed denotes_SP

/-- The pattern of an array matches its items, between its bounds. -/
theorem denotes_arrayRegex (h : Denotes named item l) {least : ℕ} {most : Option ℕ}
    (hbounds : ∀ m ∈ most, least ≤ m) :
    Denotes named (arrayRegex item least most)
      (arrayTexts (fun n => least ≤ n ∧ ∀ m ∈ most, n ≤ m) l) := by
  cases most with
  | none =>
    have hfits : (fun n => least ≤ n ∧ ∀ m ∈ (none : Option ℕ), n ≤ m) = fun n => least ≤ n := by
      funext n
      simp
    have hclosing : closing (fun n => least ≤ n) = space :=
      closing_of_exists (Nat.le_succ least) (Nat.succ_ne_zero least)
    rw [hfits, arrayTexts, hclosing]
    cases least with
    | zero =>
      have hmany := denotes_bracketed ((denotes_SP.append (denotes_many h)).append denotes_SP)
      show Denotes named (bracketed (SP ++ manyRegex item ++ SP)) _
      simpa only [Nat.zero_le, mul_assoc] using hmany
    | succ n =>
      have hcounted := (denotes_counted h (n + 1)).append (denotes_more h)
      have hall := denotes_bracketed ((denotes_SP.append hcounted).append denotes_SP)
      rw [members_atLeast]
      simpa only [arrayRegex, List.append_assoc, mul_assoc] using hall
  | some m =>
    have hleast : least ≤ m := hbounds m rfl
    cases m with
    | zero => exact denotes_noItems item l hleast
    | succ m =>
      have hclosing : closing (fun n => least ≤ n ∧ ∀ k ∈ some (m + 1), n ≤ k) = space := by
        refine closing_of_exists ⟨hleast, fun k hk => ?_⟩ (Nat.succ_ne_zero m)
        exact (Option.some.inj hk).le
      rw [arrayTexts, hclosing]
      cases least with
      | zero =>
        have halt := (denotesBranches_of_denotes (item_counts h hleast).denotes).opt
        have hall := denotes_bracketed ((denotes_SP.append halt).append denotes_SP)
        rw [← members_upTo m, ← mul_assoc, ← mul_assoc] at hall
        exact hall
      | succ n =>
        have halt := (item_counts h hleast).denotes
        have hall := denotes_bracketed ((denotes_SP.append halt).append denotes_SP)
        rw [members_from, ← mul_assoc, ← mul_assoc] at hall
        exact hall

end

end Zllm.JsonSchema

