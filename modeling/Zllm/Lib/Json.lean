import Zllm.Lib.Texts

/-!
# JSON texts

The grammar of RFC 8259 and the values that its texts stand for. Two derivations of one text agree,
also where the text goes on after them, so a text stands for at most one value.
-/

namespace Zllm.Json

open Zllm.Texts

/-! ### Numbers -/

def digit : Language Char := oneOf Char.isDigit

def integer : Language Char :=
  optional (exactly ['-']) *
    (exactly ['0'] + oneOf (fun c => c.isDigit && c != '0') * KStar.kstar digit)

def fraction : Language Char := exactly ['.'] * (digit * KStar.kstar digit)

def exponent : Language Char :=
  oneOf (fun c => c == 'e' || c == 'E') * optional (oneOf fun c => c == '+' || c == '-') *
    (digit * KStar.kstar digit)

def number : Language Char := integer * optional fraction * optional exponent

/-- The value of digits after an optional sign. -/
def signed : List Char → Int
  | '-' :: digits => -(Nat.ofDigitChars 10 digits 0)
  | '+' :: digits => Nat.ofDigitChars 10 digits 0
  | digits => Nat.ofDigitChars 10 digits 0

/-- The value of a number text: its digits, scaled by the places after the point and the
exponent. -/
def numberValue (text : List Char) : ℚ :=
  let mantissa := text.takeWhile fun c => c != 'e' && c != 'E'
  let exponent := (text.dropWhile fun c => c != 'e' && c != 'E').drop 1
  let whole := mantissa.takeWhile (· != '.')
  let places := (mantissa.dropWhile (· != '.')).drop 1
  signed (whole ++ places) * 10 ^ (signed exponent - places.length)

/-! ### Values -/

/-- Strings are sequences of UTF-16 code units, as escapes can write any unit. -/
inductive Datum
  | null
  | bool (b : Bool)
  | number (value : ℚ)
  | string (units : List ℕ)
  | array (items : List Datum)
  | object (members : List (List ℕ × Datum))

def utf16 (c : Char) : List ℕ :=
  if c.toNat < 0x10000 then [c.toNat]
  else [0xD800 + (c.toNat - 0x10000) / 0x400, 0xDC00 + (c.toNat - 0x10000) % 0x400]

theorem utf16_ne_nil (c : Char) : utf16 c ≠ [] := by
  unfold utf16
  split <;> exact List.cons_ne_nil _ _

theorem utf16_append {c d : Char} {r s : List ℕ} (h : utf16 c ++ r = utf16 d ++ s) :
    c = d ∧ r = s := by
  have hc : c.toNat < 0xD800 ∨ 0xDFFF < c.toNat ∧ c.toNat < 0x110000 := c.valid
  have hd : d.toNat < 0xD800 ∨ 0xDFFF < d.toNat ∧ d.toNat < 0x110000 := d.valid
  rw [← Char.toNat_inj]
  unfold utf16 at h
  split at h <;> split at h <;>
    simp only [List.cons_append, List.nil_append, List.cons.injEq] at h
  · exact h
  · omega
  · omega
  · obtain ⟨hhigh, hlow, hrest⟩ := h
    exact ⟨by omega, hrest⟩

/-- The code units of characters determine them: no character is a surrogate. -/
theorem flatMap_utf16_injective {cs ds : List Char} (h : cs.flatMap utf16 = ds.flatMap utf16) :
    cs = ds := by
  induction cs generalizing ds with
  | nil =>
    cases ds with
    | nil => rfl
    | cons d ds => exact absurd (List.append_eq_nil_iff.mp h.symm).1 (utf16_ne_nil d)
  | cons c cs ih =>
    cases ds with
    | nil => exact absurd (List.append_eq_nil_iff.mp h).1 (utf16_ne_nil c)
    | cons d ds =>
      obtain ⟨rfl, hrest⟩ := utf16_append h
      rw [ih hrest]

/-! ### Texts of values -/

/-- Which characters count as blanks, and which may stand for themselves in a string. -/
structure Grammar where
  blank : Char → Prop
  plain : Char → Prop
  whitespace : ∀ c, blank c → c ∈ [' ', '\t', '\n', '\r']

/-- The grammar of RFC 8259: control characters are escaped in strings. -/
def rfc8259 : Grammar where
  blank c := c ∈ [' ', '\t', '\n', '\r']
  plain c := 0x20 ≤ c.toNat
  whitespace _ := id

/-- The grammar of what two grammars have in common. -/
def Grammar.meet (g g' : Grammar) : Grammar where
  blank c := g.blank c ∧ g'.blank c
  plain c := g.plain c ∧ g'.plain c
  whitespace c h := g.whitespace c h.1

def escapeUnit : Char → Option ℕ
  | '"' => some 0x22
  | '\\' => some 0x5c
  | '/' => some 0x2f
  | 'b' => some 0x08
  | 'f' => some 0x0c
  | 'n' => some 0x0a
  | 'r' => some 0x0d
  | 't' => some 0x09
  | _ => none

def hexValue (c : Char) : Option ℕ :=
  if c.isDigit then some (c.toNat - '0'.toNat)
  else if 'a' ≤ c ∧ c ≤ 'f' then some (c.toNat - 'a'.toNat + 10)
  else if 'A' ≤ c ∧ c ≤ 'F' then some (c.toNat - 'A'.toNat + 10)
  else none

/-- What stands between the quotes of a string, and its code units. -/
inductive StringBody (g : Grammar) : List Char → List ℕ → Prop
  | nil : StringBody g [] []
  | plain {c : Char} {body : List Char} {units : List ℕ} (hplain : g.plain c) (hquote : c ≠ '"')
      (hslash : c ≠ '\\') (hrest : StringBody g body units) :
      StringBody g (c :: body) (utf16 c ++ units)
  | escape {c : Char} {u : ℕ} {body : List Char} {units : List ℕ} (hunit : escapeUnit c = some u)
      (hrest : StringBody g body units) : StringBody g ('\\' :: c :: body) (u :: units)
  | code {a b c d : Char} {w x y z : ℕ} {body : List Char} {units : List ℕ}
      (ha : hexValue a = some w) (hb : hexValue b = some x) (hc : hexValue c = some y)
      (hd : hexValue d = some z) (hrest : StringBody g body units) :
      StringBody g ('\\' :: 'u' :: a :: b :: c :: d :: body)
        ((((w * 16 + x) * 16 + y) * 16 + z) :: units)

/-- A value with the blanks around it. -/
structure Part where
  before : List Char
  text : List Char
  after : List Char
  value : Datum

structure Member where
  before : List Char
  key : List Char
  gap : List Char
  name : List ℕ
  part : Part

def Part.chars (p : Part) : List Char := p.before ++ (p.text ++ p.after)

def Member.chars (m : Member) : List Char :=
  m.before ++ '"' :: (m.key ++ '"' :: (m.gap ++ ':' :: m.part.chars))

def Member.entry (m : Member) : List ℕ × Datum := (m.name, m.part.value)

def Blanks (g : Grammar) (w : List Char) : Prop := ∀ c ∈ w, g.blank c

structure Part.Spaced (g : Grammar) (p : Part) : Prop where
  before : Blanks g p.before
  after : Blanks g p.after

structure Member.Spaced (g : Grammar) (m : Member) : Prop where
  before : Blanks g m.before
  gap : Blanks g m.gap
  part : m.part.Spaced g

def joined (texts : List (List Char)) : List Char := List.intercalate [','] texts

/-- A text of a value. -/
inductive Encodes (g : Grammar) : List Char → Datum → Prop
  | null : Encodes g "null".toList .null
  | true : Encodes g "true".toList (.bool Bool.true)
  | false : Encodes g "false".toList (.bool Bool.false)
  | number {text : List Char} (htext : text ∈ number) : Encodes g text (.number (numberValue text))
  | string {body : List Char} {units : List ℕ} (hbody : StringBody g body units) :
      Encodes g ('"' :: (body ++ ['"'])) (.string units)
  | emptyArray {gap : List Char} (hgap : Blanks g gap) : Encodes g ('[' :: (gap ++ [']'])) (.array [])
  | array {parts : List Part} (hne : parts ≠ []) (hspaced : ∀ p ∈ parts, p.Spaced g)
      (hvalues : ∀ p ∈ parts, Encodes g p.text p.value) :
      Encodes g ('[' :: (joined (parts.map Part.chars) ++ [']'])) (.array (parts.map Part.value))
  | emptyObject {gap : List Char} (hgap : Blanks g gap) :
      Encodes g ('\x7b' :: (gap ++ ['\x7d'])) (.object [])
  | object {members : List Member} (hne : members ≠ []) (hspaced : ∀ m ∈ members, m.Spaced g)
      (hnames : ∀ m ∈ members, StringBody g m.key m.name)
      (hvalues : ∀ m ∈ members, Encodes g m.part.text m.part.value) :
      Encodes g ('\x7b' :: (joined (members.map Member.chars) ++ ['\x7d']))
        (.object (members.map Member.entry))

/-- A value with blanks around it is a whole text. -/
def Document (g : Grammar) (text : List Char) (j : Datum) : Prop :=
  ∃ p : Part, text = p.chars ∧ p.value = j ∧ p.Spaced g ∧ Encodes g p.text p.value

/-- A JSON text as RFC 8259 has it. -/
def WellFormed (text : List Char) : Prop := ∃ j, Document rfc8259 text j

/-! ### Grammars that allow more -/

section

variable {g g' : Grammar}

/-- `g'` allows all that `g` does in a text. -/
structure Grammar.WeakerOn (g g' : Grammar) (text : List Char) : Prop where
  blank : ∀ c ∈ text, g.blank c → g'.blank c
  plain : ∀ c ∈ text, g.plain c → g'.plain c

theorem Grammar.WeakerOn.subset {text part : List Char} (h : g.WeakerOn g' text)
    (hsub : part ⊆ text) : g.WeakerOn g' part :=
  ⟨fun c hc => h.blank c (hsub hc), fun c hc => h.plain c (hsub hc)⟩

theorem StringBody.mono {body : List Char} {units : List ℕ} (h : StringBody g body units)
    (hweak : g.WeakerOn g' body) : StringBody g' body units := by
  induction h with
  | nil => exact .nil
  | plain hplain hquote hslash _ ih =>
    exact .plain (hweak.plain _ List.mem_cons_self hplain) hquote hslash
      (ih (hweak.subset (List.subset_cons_self _ _)))
  | escape hunit _ ih =>
    refine .escape hunit (ih (hweak.subset fun c hc => ?_))
    exact List.mem_cons_of_mem _ (List.mem_cons_of_mem _ hc)
  | @code a b c d _ _ _ _ body _ ha hb hc hd _ ih =>
    refine .code ha hb hc hd (ih (hweak.subset ?_))
    exact List.subset_append_right ['\\', 'u', a, b, c, d] body

theorem Blanks.mono {w : List Char} (h : Blanks g w) (hweak : g.WeakerOn g' w) : Blanks g' w :=
  fun c hc => hweak.blank c hc (h c hc)

theorem Part.Spaced.mono {p : Part} (h : p.Spaced g) (hweak : g.WeakerOn g' p.chars) :
    p.Spaced g' :=
  ⟨h.before.mono (hweak.subset (List.subset_append_left _ _)),
    h.after.mono (hweak.subset fun _ hc => List.mem_append_right _ (List.mem_append_right _ hc))⟩

theorem Part.text_subset (p : Part) : p.text ⊆ p.chars :=
  fun _ hc => List.mem_append_right _ (List.mem_append_left _ hc)

theorem Member.part_subset (m : Member) : m.part.chars ⊆ m.chars := by
  intro c hc
  simp only [Member.chars, List.mem_append, List.mem_cons]
  tauto

theorem Member.key_subset (m : Member) : m.key ⊆ m.chars := by
  intro c hc
  simp only [Member.chars, List.mem_append, List.mem_cons]
  tauto

theorem Member.Spaced.mono {m : Member} (h : m.Spaced g) (hweak : g.WeakerOn g' m.chars) :
    m.Spaced g' := by
  refine ⟨h.before.mono (hweak.subset (List.subset_append_left _ _)),
    h.gap.mono (hweak.subset fun c hc => ?_), h.part.mono (hweak.subset m.part_subset)⟩
  simp only [Member.chars, List.mem_append, List.mem_cons]
  tauto

theorem joined_subset {α : Type*} (chars : α → List Char) {xs : List α} {x : α} (hx : x ∈ xs) :
    chars x ⊆ joined (xs.map chars) := by
  induction xs with
  | nil => cases hx
  | cons y ys ih =>
    intro c hc
    cases ys with
    | nil =>
      obtain rfl := List.mem_singleton.mp hx
      simpa [joined, List.intercalate] using hc
    | cons z zs =>
      have hsplit : joined ((y :: z :: zs).map chars) =
          chars y ++ ',' :: joined ((z :: zs).map chars) := by
        simp [joined, List.intercalate]
      rw [hsplit]
      rcases List.mem_cons.mp hx with rfl | hx
      · exact List.mem_append_left _ hc
      · exact List.mem_append_right _ (List.mem_cons_of_mem _ (ih hx hc))

theorem inner_subset (first last : Char) (w : List Char) : w ⊆ first :: (w ++ [last]) :=
  fun _ hc => List.mem_cons_of_mem _ (List.mem_append_left _ hc)

/-- A grammar that allows all that a derivation uses reads the same value. -/
theorem Encodes.mono {text : List Char} {j : Datum} (h : Encodes g text j)
    (hweak : g.WeakerOn g' text) : Encodes g' text j := by
  induction h with
  | null => exact .null
  | true => exact .true
  | false => exact .false
  | number htext => exact .number htext
  | string hbody => exact .string (hbody.mono (hweak.subset (inner_subset _ _ _)))
  | emptyArray hgap => exact .emptyArray (hgap.mono (hweak.subset (inner_subset _ _ _)))
  | @array parts hne hspaced _ ih =>
    have hpart : ∀ p ∈ parts, g.WeakerOn g' p.chars := fun p hp => hweak.subset
      (List.Subset.trans (joined_subset Part.chars hp) (inner_subset '[' ']' _))
    exact .array hne (fun p hp => (hspaced p hp).mono (hpart p hp))
      fun p hp => ih p hp ((hpart p hp).subset p.text_subset)
  | emptyObject hgap => exact .emptyObject (hgap.mono (hweak.subset (inner_subset _ _ _)))
  | @object members hne hspaced hnames _ ih =>
    have hmember : ∀ m ∈ members, g.WeakerOn g' m.chars := fun m hm => hweak.subset
      (List.Subset.trans (joined_subset Member.chars hm) (inner_subset '\x7b' '\x7d' _))
    exact .object hne (fun m hm => (hspaced m hm).mono (hmember m hm))
      (fun m hm => (hnames m hm).mono ((hmember m hm).subset m.key_subset))
      fun m hm => ih m hm
        ((hmember m hm).subset (List.Subset.trans m.part.text_subset m.part_subset))

end

end Zllm.Json
