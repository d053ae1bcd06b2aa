import Zllm.Engine.SchemaTexts
import Zllm.Lib.JsonUnique
import Mathlib.Data.List.TakeWhile

/-!
# Compiled texts as JSON

The terminals match JSON but for control characters, which the string terminal lets through
unescaped. Arrays and objects of such texts are such texts again, with the values of their members.
-/

namespace Zllm.JsonSchema

open Zllm.Texts Zllm.Json

/-- JSON with single spaces for blanks, and any character in a string. -/
def loose : Grammar where
  blank c := c = ' '
  plain _ := True
  whitespace _ h := h ▸ List.mem_cons_self

/-- JSON without blanks. -/
def compact : Grammar where
  blank _ := False
  plain c := 0x20 ≤ c.toNat
  whitespace _ := False.elim

/-! ### Serialized values -/

theorem compact_loose (text : List Char) : compact.WeakerOn loose text :=
  ⟨fun _ _ => False.elim, fun _ _ _ => trivial⟩

/-- The decimal digits of a positive number start with a nonzero digit. -/
theorem toDigits_pos {n : ℕ} (hn : 0 < n) :
    Nat.toDigits 10 n ∈ oneOf (fun c => c.isDigit && c != '0') * KStar.kstar digit := by
  induction n using Nat.strong_induction_on with
  | _ n ih =>
    by_cases hlt : n < 10
    · have hnonzero : ∀ k < 10, 0 < k → (k.digitChar.isDigit && k.digitChar != '0') = true := by
        decide
      rw [Nat.toDigits_of_lt_base hlt]
      exact ⟨[n.digitChar], ⟨_, rfl, hnonzero n hlt hn⟩, [], Language.nil_mem_kstar _, rfl⟩
    · have hten : 10 ≤ n := Nat.le_of_not_lt hlt
      obtain ⟨first, hfirst, rest, hrest, hsplit⟩ :=
        ih (n / 10) (Nat.div_lt_self hn (by decide)) (Nat.div_pos hten (by decide))
      obtain ⟨parts, rfl, hparts⟩ := Language.mem_kstar.mp hrest
      have hdigit : (n % 10).digitChar.isDigit = true := by
        rw [Nat.isDigit_digitChar]
        exact decide_eq_true (Nat.mod_lt n (by decide))
      rw [Nat.toDigits_of_base_le (by decide) hten, ← hsplit]
      refine ⟨first, hfirst, (parts ++ [[(n % 10).digitChar]]).flatten, ?_, by simp⟩
      refine Language.join_mem_kstar fun part hpart => ?_
      rcases List.mem_append.mp hpart with hpart | hpart
      · exact hparts part hpart
      · rw [List.mem_singleton.mp hpart]
        exact ⟨_, rfl, hdigit⟩

/-- Decimal digits are an integer text without a sign. -/
theorem toDigits_mem (n : ℕ) :
    Nat.toDigits 10 n ∈
      exactly ['0'] + oneOf (fun c => c.isDigit && c != '0') * KStar.kstar digit := by
  rcases Nat.eq_zero_or_pos n with rfl | hn
  · exact .inl rfl
  · exact .inr (toDigits_pos hn)

theorem integer_le_number : integer ≤ number := by
  intro w hw
  refine ⟨w, ⟨w, hw, [], .inl rfl, List.append_nil w⟩, [], .inl rfl, List.append_nil w⟩

theorem takeWhile_all (p : Char → Bool) {text : List Char} (hall : ∀ c ∈ text, p c = true) :
    text.takeWhile p = text ∧ text.dropWhile p = [] := by
  constructor
  · exact List.takeWhile_eq_self_iff.mpr hall
  · exact List.dropWhile_eq_nil_iff.mpr hall

/-- The value of an integer text is that of its digits and sign. -/
theorem numberValue_integer {text : List Char}
    (hall : ∀ c ∈ text, c != 'e' && c != 'E' && c != '.') : numberValue text = signed text := by
  have hmantissa := takeWhile_all (fun c => c != 'e' && c != 'E')
    fun c hc => (Bool.and_eq_true _ _ ▸ hall c hc).1
  have hwhole := takeWhile_all (· != '.')
    fun c hc => (Bool.and_eq_true _ _ ▸ hall c hc).2
  simp [numberValue, hmantissa.1, hmantissa.2, hwhole.1, hwhole.2, signed]

/-! ### Serialized values -/

def Number.value : Number → ℚ
  | posInt n => n.toNat
  | negInt n => n.toInt
  | float x => numberValue x.text

/-- The code units of a string. -/
def units (s : String) : List ℕ := s.toList.flatMap utf16

mutual

/-- What a value stands for. -/
def Value.datum : Value → Datum
  | .null => .null
  | .bool b => .bool b
  | .number n => .number n.value
  | .string s => .string (units s)
  | .array items => .array (itemData items)
  | .object fields => .object (fieldData fields)

def itemData : List Value → List Datum
  | [] => []
  | item :: rest => item.datum :: itemData rest

def fieldData : List (String × Value) → List (List ℕ × Datum)
  | [] => []
  | (key, value) :: rest => (units key, value.datum) :: fieldData rest

end

theorem digits_not_scaled {c : Char} (hc : c.isDigit = true) :
    (c != 'e' && c != 'E' && c != '.') = true := by
  simp only [Bool.and_eq_true, bne_iff_ne, ne_eq]
  refine ⟨⟨?_, ?_⟩, ?_⟩ <;> rintro rfl <;> revert hc <;> decide

theorem toDigits_not_scaled (n : ℕ) :
    ∀ c ∈ Nat.toDigits 10 n, (c != 'e' && c != 'E' && c != '.') = true :=
  fun _ hc => digits_not_scaled (Nat.isDigit_of_mem_toDigits (by decide) (by decide) hc)

theorem signed_digits {text : List Char} (hhead : ∀ c ∈ text.head?, c.isDigit = true) :
    signed text = Nat.ofDigitChars 10 text 0 := by
  unfold signed
  split
  · exact absurd (hhead '-' rfl) (by decide)
  · exact absurd (hhead '+' rfl) (by decide)
  · rfl

/-- Digits have their own value. -/
theorem signed_toDigits (n : ℕ) : signed (Nat.toDigits 10 n) = n := by
  rw [signed_digits fun c hc => Nat.isDigit_of_mem_toDigits (by decide) (by decide)
    (List.mem_of_mem_head? hc), Nat.ofDigitChars_ten_toDigits]

theorem natural_mem (n : ℕ) :
    Nat.toDigits 10 n ∈ integer ∧ numberValue (Nat.toDigits 10 n) = n := by
  constructor
  · exact ⟨[], .inl rfl, _, toDigits_mem n, List.nil_append _⟩
  · rw [numberValue_integer (toDigits_not_scaled n), signed_toDigits]
    rfl

theorem negative_mem (n : ℕ) :
    '-' :: Nat.toDigits 10 n ∈ integer ∧ numberValue ('-' :: Nat.toDigits 10 n) = -n := by
  constructor
  · exact ⟨['-'], .inr rfl, _, toDigits_mem n, rfl⟩
  · rw [numberValue_integer (List.forall_mem_cons.mpr ⟨by decide, toDigits_not_scaled n⟩), signed,
      Nat.ofDigitChars_ten_toDigits]
    push_cast
    rfl

/-- A serialized number is a number text of its value. -/
theorem Number.toJson_mem (n : Number) : n.toJson ∈ number ∧ numberValue n.toJson = n.value := by
  cases n with
  | posInt n => exact ⟨integer_le_number (natural_mem n.toNat).1, (natural_mem n.toNat).2⟩
  | negInt n =>
    rw [Number.toJson, Number.value]
    split
    · next hneg =>
      have habs : ((n.toInt.natAbs : ℕ) : ℚ) = -n.toInt := by
        rw [Nat.cast_natAbs, abs_of_neg hneg, Int.cast_neg]
      obtain ⟨hmem, hvalue⟩ := negative_mem n.toInt.natAbs
      exact ⟨integer_le_number hmem, by rw [hvalue, habs, neg_neg]⟩
    · next hpos =>
      have habs : ((n.toInt.natAbs : ℕ) : ℚ) = n.toInt := by
        rw [Nat.cast_natAbs, abs_of_nonneg (Int.not_lt.mp hpos)]
      obtain ⟨hmem, hvalue⟩ := natural_mem n.toInt.natAbs
      exact ⟨integer_le_number hmem, hvalue.trans habs⟩
  | float x => exact ⟨x.isNumber, rfl⟩

/-! A serialized string escapes what cannot stand in it, and keeps its code units. -/

theorem hexValue_hexDigit {n : ℕ} (hn : n < 16) : hexValue (hexDigit n) = some n := by
  revert n
  decide

theorem escapeChar_body {c : Char} {body : List Char} {us : List ℕ}
    (h : StringBody compact body us) :
    StringBody compact (escapeChar c ++ body) (utf16 c ++ us) := by
  unfold escapeChar
  split
  · next hc => subst hc; exact .escape rfl h
  · next hquote =>
    split
    · next hc => subst hc; exact .escape rfl h
    · next hslash =>
      iterate 5
        split
        · next hc => subst hc; exact .escape rfl h
      split
      · next hlt =>
        have hcode : ((0 * 16 + 0) * 16 + c.toNat / 16) * 16 + c.toNat % 16 = c.toNat := by omega
        have hunits : utf16 c = [c.toNat] := if_pos (by omega)
        have hfirst : hexValue (hexDigit (c.toNat / 16)) = some (c.toNat / 16) :=
          hexValue_hexDigit (by omega)
        have hlast : hexValue (hexDigit (c.toNat % 16)) = some (c.toNat % 16) :=
          hexValue_hexDigit (by omega)
        have hbody : StringBody compact _
            ((((0 * 16 + 0) * 16 + c.toNat / 16) * 16 + c.toNat % 16) :: us) :=
          .code (a := '0') (b := '0') rfl rfl hfirst hlast h
        rw [hcode] at hbody
        rw [hunits]
        exact hbody
      · next hge => exact .plain (Nat.le_of_not_lt hge) hquote hslash h

theorem escaped_body (cs : List Char) :
    StringBody compact (cs.flatMap escapeChar) (cs.flatMap utf16) := by
  induction cs with
  | nil => exact .nil
  | cons c cs ih => exact escapeChar_body ih

theorem quote_encodes (s : String) : Encodes compact (quote s) (.string (units s)) :=
  .string (escaped_body s.toList)

theorem number_encodes {g : Grammar} (n : Number) :
    Encodes g n.toJson (.number n.value) := by
  have hnumber := Encodes.number (g := g) n.toJson_mem.1
  rwa [n.toJson_mem.2] at hnumber

/-! Serialized arrays and objects. -/

/-- A serialized value as a part of an array. -/
def itemPart (v : Value) : Part := ⟨[], v.toJson, [], v.datum⟩

def fieldMember (field : String × Value) : Member :=
  ⟨[], field.1.toList.flatMap escapeChar, [], units field.1, itemPart field.2⟩

theorem itemsJson_eq (items : List Value) :
    itemsJson items = joined (items.map fun v => (itemPart v).chars) := by
  induction items with
  | nil => rfl
  | cons item rest ih =>
    cases rest with
    | nil => simp [itemsJson, joined, List.intercalate, itemPart, Part.chars]
    | cons next rest =>
      rw [itemsJson, ih]
      simp only [List.map_cons, joined_cons_cons]
      simp [itemPart, Part.chars]

theorem itemData_eq (items : List Value) : itemData items = items.map Value.datum := by
  induction items with
  | nil => rfl
  | cons item rest ih => rw [itemData, ih, List.map_cons]

theorem fieldsJson_eq (fields : List (String × Value)) :
    fieldsJson fields = joined (fields.map fun field => (fieldMember field).chars) := by
  induction fields with
  | nil => rfl
  | cons field rest ih =>
    obtain ⟨key, value⟩ := field
    cases rest with
    | nil => simp [fieldsJson, joined, List.intercalate, fieldMember, itemPart, Part.chars,
        Member.chars, quote]
    | cons next rest =>
      rw [fieldsJson, ih]
      simp only [List.map_cons, joined_cons_cons]
      simp [fieldMember, itemPart, Part.chars, Member.chars, quote]

theorem fieldData_eq (fields : List (String × Value)) :
    fieldData fields = fields.map fun field => (units field.1, field.2.datum) := by
  induction fields with
  | nil => rfl
  | cons field rest ih => rw [fieldData, ih, List.map_cons]

theorem blanks_nil {g : Grammar} : Blanks g [] := fun _ hc => absurd hc List.not_mem_nil

theorem array_encodes {items : List Value}
    (hitems : ∀ v ∈ items, Encodes compact v.toJson v.datum) :
    Encodes compact (Value.array items).toJson (Value.array items).datum := by
  rw [Value.toJson, Value.datum, itemsJson_eq, itemData_eq]
  by_cases hne : items = []
  · subst hne
    exact .emptyArray blanks_nil
  · have harray := @Encodes.array compact (items.map itemPart) (by simpa using hne)
      (List.forall_mem_map.mpr fun v _ => ⟨blanks_nil, blanks_nil⟩)
      (List.forall_mem_map.mpr hitems)
    simpa [List.map_map, itemPart, Function.comp_def] using harray

theorem object_encodes {fields : List (String × Value)}
    (hfields : ∀ field ∈ fields, Encodes compact field.2.toJson field.2.datum) :
    Encodes compact (Value.object fields).toJson (Value.object fields).datum := by
  rw [Value.toJson, Value.datum, fieldsJson_eq, fieldData_eq]
  by_cases hne : fields = []
  · subst hne
    exact .emptyObject blanks_nil
  · have hobject := @Encodes.object compact (fields.map fieldMember) (by simpa using hne)
      (List.forall_mem_map.mpr fun field _ => ⟨blanks_nil, blanks_nil, blanks_nil, blanks_nil⟩)
      (List.forall_mem_map.mpr fun field _ => escaped_body field.1.toList)
      (List.forall_mem_map.mpr hfields)
    simpa [List.map_map, Function.comp_def, Member.entry, fieldMember, itemPart] using hobject

mutual

/-- A serialized value is a JSON text of what it stands for. -/
theorem Value.toJson_encodes : (v : Value) → Encodes compact v.toJson v.datum
  | .null => .null
  | .bool b => by cases b; exacts [.false, .true]
  | .number n => number_encodes n
  | .string s => quote_encodes s
  | .array items => array_encodes (items_encode items)
  | .object fields => object_encodes (fields_encode fields)

theorem items_encode : (items : List Value) → ∀ v ∈ items, Encodes compact v.toJson v.datum
  | [] => fun _ hv => absurd hv List.not_mem_nil
  | item :: rest => List.forall_mem_cons.mpr ⟨item.toJson_encodes, items_encode rest⟩

theorem fields_encode : (fields : List (String × Value)) →
    ∀ field ∈ fields, Encodes compact field.2.toJson field.2.datum
  | [] => fun _ hfield => absurd hfield List.not_mem_nil
  | (_, value) :: rest => List.forall_mem_cons.mpr ⟨value.toJson_encodes, fields_encode rest⟩

end

/-! ### Terminals -/

theorem hexValue_isSome {c : Char} (hc : hexDigits c = true) : ∃ n, hexValue c = some n := by
  unfold hexValue
  split
  · exact ⟨_, rfl⟩
  · next hdigit =>
    split
    · exact ⟨_, rfl⟩
    · next hlower =>
      split
      · exact ⟨_, rfl⟩
      · next hupper =>
        simp only [hexDigits, Bool.or_eq_true, Bool.and_eq_true, decide_eq_true_eq] at hc
        rcases hc with hc | hc | hc
        · exact absurd (Bool.and_eq_true_iff.mpr ⟨decide_eq_true hc.1, decide_eq_true hc.2⟩) hdigit
        · exact absurd hc hlower
        · exact absurd hc hupper

/-- Four hexadecimal digits are one code unit. -/
theorem fourHex_encodes {w body : List Char} {us : List ℕ}
    (hw : w ∈ repeated (oneOf hexDigits) 4 (some 4)) (hus : StringBody loose body us) :
    ∃ u, StringBody loose ('\\' :: 'u' :: (w ++ body)) (u :: us) := by
  obtain ⟨n, hleast, hmost, hw⟩ := hw
  obtain rfl := Nat.le_antisymm (hmost 4 rfl) hleast
  obtain ⟨texts, rfl, hlength, htexts⟩ := Language.mem_pow.mp hw
  match texts, hlength, htexts with
  | [t₁, t₂, t₃, t₄], _, htexts =>
    simp only [List.forall_mem_cons] at htexts
    obtain ⟨⟨a, rfl, ha⟩, ⟨b, rfl, hb⟩, ⟨c, rfl, hc⟩, ⟨d, rfl, hd⟩, -⟩ := htexts
    obtain ⟨_, ha⟩ := hexValue_isSome ha
    obtain ⟨_, hb⟩ := hexValue_isSome hb
    obtain ⟨_, hc⟩ := hexValue_isSome hc
    obtain ⟨_, hd⟩ := hexValue_isSome hd
    exact ⟨_, .code ha hb hc hd hus⟩

theorem stringBody_encodes {body : List Char} (hbody : body ∈ stringBody) :
    ∃ us, StringBody loose body us := by
  have hunits : ∀ c ∈ ['"', '\\', '/', 'b', 'f', 'n', 'r', 't'], ∃ u, escapeUnit c = some u := by
    simp [escapeUnit]
  obtain ⟨atoms, rfl, hatoms⟩ := Language.mem_kstar.mp hbody
  clear hbody
  induction atoms with
  | nil => exact ⟨[], .nil⟩
  | cons atom atoms ih =>
    obtain ⟨us, hus⟩ := ih fun a ha => hatoms a (List.mem_cons_of_mem atom ha)
    rw [List.flatten_cons]
    rcases hatoms atom List.mem_cons_self with ⟨c, rfl, hc⟩ | hescape
    · simp only [Bool.and_eq_true, bne_iff_ne, ne_eq] at hc
      exact ⟨_, .plain trivial hc.1 hc.2 hus⟩
    · obtain ⟨_, rfl, code, hcode, rfl⟩ := Language.mem_mul.mp hescape
      rcases hcode with ⟨c, rfl, hc⟩ | hcode
      · obtain ⟨u, hu⟩ := hunits c (of_decide_eq_true hc)
        exact ⟨_, .escape hu hus⟩
      · obtain ⟨_, rfl, digits, hdigits, rfl⟩ := Language.mem_mul.mp hcode
        obtain ⟨u, hu⟩ := fourHex_encodes hdigits hus
        exact ⟨_, hu⟩

theorem string_encodes {w : List Char} (hw : w ∈ stringTexts) :
    ∃ us, Encodes loose w (.string us) := by
  obtain ⟨u, hu, _, rfl, rfl⟩ := Language.mem_mul.mp hw
  obtain ⟨_, rfl, body, hbody, rfl⟩ := Language.mem_mul.mp hu
  obtain ⟨us, hus⟩ := stringBody_encodes hbody
  exact ⟨us, .string hus⟩

theorem primitive_encodes (ty : Primitive) {w : List Char} (hw : w ∈ ty.texts) :
    ∃ j, Encodes loose w j := by
  cases ty with
  | integer => exact ⟨_, .number (integer_le_number hw)⟩
  | number => exact ⟨_, .number hw⟩
  | boolean =>
    rcases hw with rfl | rfl
    · exact ⟨_, .true⟩
    · exact ⟨_, .false⟩
  | null =>
    obtain rfl := hw
    exact ⟨_, .null⟩

/-! ### Sequences -/

open Classical in
/-- The value of a text, where it has one. -/
noncomputable def valueOf (text : List Char) : Datum :=
  if h : ∃ j, Encodes loose text j then h.choose else .null

open Classical in
/-- The code units of what stands between quotes. -/
noncomputable def nameOf (body : List Char) : List ℕ :=
  if h : ∃ us, StringBody loose body us then h.choose else []

theorem valueOf_eq {text : List Char} {j : Datum} (h : Encodes loose text j) :
    valueOf text = j := by
  have hexists : ∃ j, Encodes loose text j := ⟨j, h⟩
  rw [valueOf, dif_pos hexists]
  exact hexists.choose_spec.eq h

theorem nameOf_eq {body : List Char} {us : List ℕ} (h : StringBody loose body us) :
    nameOf body = us := by
  have hexists : ∃ us, StringBody loose body us := ⟨us, h⟩
  rw [nameOf, dif_pos hexists]
  have hsame : body ++ '"' :: [] = body ++ '"' :: [] := rfl
  exact (hexists.choose_spec.unique h hsame).2.1

/-- A text with at most one space before and after it. -/
def padded (l : Language Char) : Language Char := space * l * space

theorem padded_separated (l : Language Char) (ls : List (Language Char)) :
    padded (separated comma (l :: ls)) = separated (exactly [',']) ((l :: ls).map padded) := by
  induction ls generalizing l with
  | nil => rfl
  | cons next ls ih =>
    have hne : (next :: ls).map padded ≠ [] := List.cons_ne_nil _ _
    rw [List.map_cons, separated_cons _ _ hne, ← ih next,
      separated_cons comma l (List.cons_ne_nil next ls)]
    simp only [padded, comma, mul_assoc]

theorem space_blanks {w : List Char} (hw : w ∈ space) : Blanks loose w := by
  rcases hw with rfl | rfl
  · exact blanks_nil
  · intro c hc
    exact List.mem_singleton.mp hc

/-- A padded text as a part, with a value that depends on the text. -/
theorem mem_padded {l : Language Char} {w : List Char}
    (hw : w ∈ padded l) :
    ∃ p : Part, p.chars = w ∧ p.text ∈ l ∧ p.value = valueOf p.text ∧ p.Spaced loose := by
  obtain ⟨u, hu, after, hafter, rfl⟩ := Language.mem_mul.mp hw
  obtain ⟨before, hbefore, text, htext, rfl⟩ := Language.mem_mul.mp hu
  exact ⟨⟨before, text, after, valueOf text⟩, (List.append_assoc before text after).symm, htext, rfl,
    space_blanks hbefore, space_blanks hafter⟩

/-- The texts between two brackets, one by one. -/
theorem mem_padded_separated {ls : List (Language Char)} {w : List Char} (hne : ls ≠ [])
    (hw : w ∈ padded (separated comma ls)) :
    ∃ texts, List.Forall₂ (fun text l => text ∈ padded l) texts ls ∧ w = joined texts := by
  obtain ⟨l, ls, rfl⟩ := List.exists_cons_of_ne_nil hne
  rw [padded_separated] at hw
  obtain ⟨texts, htexts, rfl⟩ := mem_separated_exactly.mp hw
  exact ⟨texts, List.forall₂_map_right_iff.mp htexts, rfl⟩

/-- Texts that each come with a value of another type. -/
theorem forall₂_exists {α β γ : Type*} {R : α → β → Prop} {S : γ → β → Prop} {value : γ → α}
    {xs : List α} {ys : List β} (h : List.Forall₂ R xs ys)
    (hvalue : ∀ x y, R x y → ∃ z, value z = x ∧ S z y) :
    ∃ zs, zs.map value = xs ∧ List.Forall₂ S zs ys := by
  induction h with
  | nil => exact ⟨[], rfl, .nil⟩
  | cons hhead _ ih =>
    obtain ⟨z, rfl, hz⟩ := hvalue _ _ hhead
    obtain ⟨zs, rfl, hzs⟩ := ih
    exact ⟨z :: zs, rfl, .cons hz hzs⟩

theorem forall₂_mem_left {α β : Type*} {R : α → β → Prop} {xs : List α} {ys : List β}
    (h : List.Forall₂ R xs ys) {x : α} (hx : x ∈ xs) : ∃ y ∈ ys, R x y := by
  induction h with
  | nil => exact absurd hx List.not_mem_nil
  | cons hhead _ ih =>
    rcases List.mem_cons.mp hx with rfl | hx
    · exact ⟨_, List.mem_cons_self, hhead⟩
    · obtain ⟨y, hy, hR⟩ := ih hx
      exact ⟨y, List.mem_cons_of_mem _ hy, hR⟩

theorem forall₂_with_mem {α β : Type*} {R : α → β → Prop} {xs : List α} {ys : List β}
    (h : List.Forall₂ R xs ys) : List.Forall₂ (fun x y => x ∈ xs ∧ y ∈ ys ∧ R x y) xs ys := by
  induction h with
  | nil => exact .nil
  | cons hhead _ ih =>
    refine .cons ⟨List.mem_cons_self, List.mem_cons_self, hhead⟩ (ih.imp ?_)
    rintro x y ⟨hx, hy, hxy⟩
    exact ⟨List.mem_cons_of_mem _ hx, List.mem_cons_of_mem _ hy, hxy⟩

/-- An array text is empty brackets or its parts. -/
theorem array_parts {fits : ℕ → Prop} {item : Language Char}
    {w : List Char} (hw : w ∈ arrayTexts fits item) :
    (fits 0 ∧ ∃ gap, Blanks loose gap ∧ w = '[' :: (gap ++ [']'])) ∨
      ∃ parts : List Part, parts ≠ [] ∧ fits parts.length ∧
        (∀ p ∈ parts, p.text ∈ item ∧ p.value = valueOf p.text ∧ p.Spaced loose) ∧
        w = '[' :: (joined (parts.map Part.chars) ++ [']']) := by
  obtain ⟨w₁, hw₁, _, rfl, rfl⟩ := Language.mem_mul.mp hw
  obtain ⟨w₂, hw₂, after, hafter, rfl⟩ := Language.mem_mul.mp hw₁
  obtain ⟨w₃, hw₃, inner, ⟨n, hfits, hinner⟩, rfl⟩ := Language.mem_mul.mp hw₂
  obtain ⟨_, rfl, before, hbefore, rfl⟩ := Language.mem_mul.mp hw₃
  have hafter' : after ∈ space := by
    rcases hafter with rfl | ⟨rfl, -⟩
    · exact .inl rfl
    · exact .inr rfl
  cases n with
  | zero =>
    obtain rfl := hinner
    refine .inl ⟨hfits, before ++ after, fun c hc => ?_, by simp⟩
    rcases List.mem_append.mp hc with hc | hc
    · exact space_blanks hbefore c hc
    · exact space_blanks hafter' c hc
  | succ n =>
    have hpadded : before ++ inner ++ after ∈
        padded (separated comma (List.replicate (n + 1) item)) :=
      Language.append_mem_mul (Language.append_mem_mul hbefore hinner) hafter'
    obtain ⟨texts, htexts, hjoined⟩ := mem_padded_separated (by simp) hpadded
    obtain ⟨parts, rfl, hparts⟩ := forall₂_exists htexts fun text l htext => mem_padded htext
    have hlength : parts.length = n + 1 := by
      rw [hparts.length_eq, List.length_replicate]
    refine .inr ⟨parts, List.ne_nil_of_length_eq_add_one hlength, hlength ▸ hfits, ?_, ?_⟩
    · intro p hp
      obtain ⟨l, hl, hp⟩ := forall₂_mem_left hparts hp
      rwa [List.eq_of_mem_replicate hl] at hp
    · rw [← hjoined]
      simp

theorem nameTexts_eq (key : String) : nameTexts key = quoted (exactly key.toList) := by
  rw [nameTexts, quoted, ← exactly_append, ← exactly_append]
  rfl

/-- A pair of an object as a member. -/
theorem mem_padded_pair {body value : Language Char} {w : List Char}
    (hw : w ∈ padded (pairTexts (quoted body) value)) :
    ∃ m : Member, m.chars = w ∧ m.key ∈ body ∧ m.part.text ∈ value ∧ m.name = nameOf m.key ∧
      m.part.value = valueOf m.part.text ∧ m.Spaced loose := by
  obtain ⟨w₁, hw₁, after, hafter, rfl⟩ := Language.mem_mul.mp hw
  obtain ⟨before, hbefore, w₂, hw₂, rfl⟩ := Language.mem_mul.mp hw₁
  obtain ⟨w₃, hw₃, text, htext, rfl⟩ := Language.mem_mul.mp hw₂
  obtain ⟨name, hname, w₄, hw₄, rfl⟩ := Language.mem_mul.mp hw₃
  obtain ⟨w₅, hw₅, before', hbefore', rfl⟩ := Language.mem_mul.mp hw₄
  obtain ⟨gap, hgap, _, rfl, rfl⟩ := Language.mem_mul.mp hw₅
  obtain ⟨w₆, hw₆, _, rfl, rfl⟩ := Language.mem_mul.mp hname
  obtain ⟨_, rfl, key, hkey, rfl⟩ := Language.mem_mul.mp hw₆
  refine ⟨⟨before, key, gap, nameOf key, ⟨before', text, after, valueOf text⟩⟩, ?_, hkey, htext, rfl, rfl,
    space_blanks hbefore, space_blanks hgap, space_blanks hbefore', space_blanks hafter⟩
  simp [Member.chars, Part.chars]

/-- An object text is empty braces or its members. -/
theorem object_members {α : Type*} {xs : List α}
    {body value : α → Language Char} {w : List Char}
    (hw : w ∈ objectTexts (xs.map fun x => pairTexts (quoted (body x)) (value x))) :
    (xs = [] ∧ ∃ gap, Blanks loose gap ∧ w = '\x7b' :: (gap ++ ['\x7d'])) ∨
      ∃ members : List Member, xs ≠ [] ∧
        List.Forall₂ (fun m x => m.key ∈ body x ∧ m.part.text ∈ value x ∧ m.name = nameOf m.key ∧
          m.part.value = valueOf m.part.text ∧ m.Spaced loose) members xs ∧
        w = '\x7b' :: (joined (members.map Member.chars) ++ ['\x7d']) := by
  cases xs with
  | nil =>
    obtain ⟨w₁, hw₁, _, rfl, rfl⟩ := Language.mem_mul.mp hw
    obtain ⟨_, rfl, gap, hgap, rfl⟩ := Language.mem_mul.mp hw₁
    exact .inl ⟨rfl, gap, space_blanks hgap, rfl⟩
  | cons x xs =>
    obtain ⟨w₁, hw₁, _, rfl, rfl⟩ := Language.mem_mul.mp hw
    obtain ⟨w₂, hw₂, after, hafter, rfl⟩ := Language.mem_mul.mp hw₁
    obtain ⟨w₃, hw₃, inner, hinner, rfl⟩ := Language.mem_mul.mp hw₂
    obtain ⟨_, rfl, before, hbefore, rfl⟩ := Language.mem_mul.mp hw₃
    have hpadded := Language.append_mem_mul (Language.append_mem_mul hbefore hinner) hafter
    obtain ⟨texts, htexts, hjoined⟩ := mem_padded_separated (List.cons_ne_nil _ _) hpadded
    have hpairs : List.Forall₂
        (fun text y => text ∈ padded (pairTexts (quoted (body y)) (value y))) texts (x :: xs) := by
      change List.Forall₂ _ texts
        ((x :: xs).map fun y => pairTexts (quoted (body y)) (value y)) at htexts
      exact List.forall₂_map_right_iff.mp htexts
    obtain ⟨members, rfl, hmembers⟩ :=
      forall₂_exists hpairs fun text y htext => mem_padded_pair htext
    refine .inr ⟨members, List.cons_ne_nil x xs, hmembers, ?_⟩
    rw [← hjoined]
    simp

/-- An object text without fixed names is empty braces or its members. -/
theorem anyObject_members {value : Language Char} {w : List Char} (hw : w ∈ anyObjectTexts value) :
    (∃ gap, Blanks loose gap ∧ w = '\x7b' :: (gap ++ ['\x7d'])) ∨
      ∃ members : List Member, members ≠ [] ∧
        (∀ m ∈ members, m.key ∈ stringBody ∧ m.part.text ∈ value ∧ m.name = nameOf m.key ∧
          m.part.value = valueOf m.part.text ∧ m.Spaced loose) ∧
        w = '\x7b' :: (joined (members.map Member.chars) ++ ['\x7d']) := by
  obtain ⟨w₁, hw₁, _, rfl, rfl⟩ := Language.mem_mul.mp hw
  obtain ⟨w₂, hw₂, after, hafter, rfl⟩ := Language.mem_mul.mp hw₁
  obtain ⟨w₃, hw₃, inner, ⟨count, -, hinner⟩, rfl⟩ := Language.mem_mul.mp hw₂
  obtain ⟨_, rfl, before, hbefore, rfl⟩ := Language.mem_mul.mp hw₃
  cases count with
  | zero =>
    obtain rfl := hinner
    refine .inl ⟨before ++ after, fun c hc => ?_, by simp⟩
    rcases List.mem_append.mp hc with hc | hc
    · exact space_blanks hbefore c hc
    · exact space_blanks hafter c hc
  | succ count =>
    have hobject : ['\x7b'] ++ before ++ inner ++ after ++ ['\x7d'] ∈
        objectTexts ((List.range' 0 (count + 1)).map fun _ => pairTexts stringTexts value) := by
      rw [List.map_const', List.length_range']
      exact Language.append_mem_mul (Language.append_mem_mul (Language.append_mem_mul
        (Language.append_mem_mul rfl hbefore) hinner) hafter) rfl
    rcases object_members hobject with ⟨hnil, -⟩ | ⟨members, -, hmembers, hchars⟩
    · cases hnil
    · have hne : members ≠ [] := List.ne_nil_of_length_eq_add_one
        (hmembers.length_eq.trans List.length_range')
      refine .inr ⟨members, hne, fun m hm => ?_, hchars⟩
      obtain ⟨_, -, hm⟩ := forall₂_mem_left hmembers hm
      exact hm

/-! ### Arrays and objects -/

theorem part_text_subset {parts : List Part} {p : Part} (hp : p ∈ parts) (first last : Char) :
    p.text ⊆ first :: (joined (parts.map Part.chars) ++ [last]) :=
  List.Subset.trans p.text_subset
    (List.Subset.trans (joined_subset Part.chars hp) (inner_subset first last _))

theorem member_text_subset {members : List Member} {m : Member} (hm : m ∈ members)
    (first last : Char) : m.part.text ⊆ first :: (joined (members.map Member.chars) ++ [last]) :=
  List.Subset.trans (List.Subset.trans m.part.text_subset m.part_subset)
    (List.Subset.trans (joined_subset Member.chars hm) (inner_subset first last _))

/-- The values of the texts of an array, where a number of items fits; `V` holds of every one. -/
theorem array_encodes_texts {fits : ℕ → Prop} {item : Language Char} {V : Datum → Prop}
    {w : List Char}
    (hitem : ∀ n, fits n → n ≠ 0 → ∀ x ∈ item, x ⊆ w → ∃ j, Encodes loose x j ∧ V j)
    (hw : w ∈ arrayTexts fits item) :
    ∃ items, Encodes loose w (.array items) ∧ fits items.length ∧ ∀ j ∈ items, V j := by
  have hvalue : ∀ n, fits n → n ≠ 0 → ∀ x ∈ item, x ⊆ w →
      Encodes loose x (valueOf x) ∧ V (valueOf x) := by
    intro n hfits hne x hx hsub
    obtain ⟨j, hj, hV⟩ := hitem n hfits hne x hx hsub
    rw [valueOf_eq hj]
    exact ⟨hj, hV⟩
  rcases array_parts hw with ⟨hfits, gap, hgap, rfl⟩ | ⟨parts, hne, hfits, hparts, rfl⟩
  · exact ⟨[], .emptyArray hgap, hfits, fun j hj => absurd hj List.not_mem_nil⟩
  · have hpart : ∀ p ∈ parts, Encodes loose p.text p.value ∧ V p.value := by
      intro p hp
      have hlength : parts.length ≠ 0 := mt List.length_eq_zero_iff.mp hne
      rw [(hparts p hp).2.1]
      exact hvalue _ hfits hlength p.text (hparts p hp).1 (part_text_subset hp '[' ']')
    refine ⟨parts.map Part.value, ?_, ?_, List.forall_mem_map.mpr fun p hp => (hpart p hp).2⟩
    · exact .array hne (fun p hp => (hparts p hp).2.2) fun p hp => (hpart p hp).1
    · rw [List.length_map]
      exact hfits

/-- The members of the texts of an object whose names and values are of given languages. -/
theorem object_encodes_texts {α : Type*} {xs : List α} {body value : α → Language Char}
    {V : α → List ℕ → Datum → Prop} {w : List Char}
    (hbody : ∀ x ∈ xs, ∀ k ∈ body x, ∃ us, StringBody loose k us)
    (hvalue : ∀ x ∈ xs, ∀ k ∈ body x, ∀ t ∈ value x, t ⊆ w →
      ∃ j, Encodes loose t j ∧ V x (nameOf k) j)
    (hw : w ∈ objectTexts (xs.map fun x => pairTexts (quoted (body x)) (value x))) :
    ∃ entries, Encodes loose w (.object entries) ∧
      List.Forall₂ (fun entry x => V x entry.1 entry.2) entries xs := by
  rcases object_members hw with ⟨rfl, gap, hgap, rfl⟩ | ⟨members, hne, hmembers, rfl⟩
  · exact ⟨[], .emptyObject hgap, .nil⟩
  · have hne' : members ≠ [] := by
      rintro rfl
      cases hmembers
      exact hne rfl
    refine ⟨members.map Member.entry, .object hne' (fun m hm => ?_) (fun m hm => ?_)
      (fun m hm => ?_), ?_⟩
    · obtain ⟨x, hx, hkey, htext, hname, hval, hspaced⟩ := forall₂_mem_left hmembers hm
      exact hspaced
    · obtain ⟨x, hx, hkey, htext, hname, hval, hspaced⟩ := forall₂_mem_left hmembers hm
      obtain ⟨us, hus⟩ := hbody x hx m.key hkey
      rw [hname, nameOf_eq hus]
      exact hus
    · obtain ⟨x, hx, hkey, htext, hname, hval, hspaced⟩ := forall₂_mem_left hmembers hm
      obtain ⟨j, hj, -⟩ := hvalue x hx m.key hkey m.part.text htext (member_text_subset hm _ _)
      rw [hval, valueOf_eq hj]
      exact hj
    · refine List.forall₂_map_left_iff.mpr ((forall₂_with_mem hmembers).imp ?_)
      rintro m x ⟨hm, hx, hkey, htext, hname, hval, hspaced⟩
      obtain ⟨j, hj, hV⟩ := hvalue x hx m.key hkey m.part.text htext (member_text_subset hm _ _)
      show V x m.name m.part.value
      rw [hname, hval, valueOf_eq hj]
      exact hV

/-- The members of the texts of an object with any names; `V` holds of every value. -/
theorem anyObject_encodes {value : Language Char} {V : Datum → Prop} {w : List Char}
    (hvalue : ∀ x ∈ value, x ⊆ w → ∃ j, Encodes loose x j ∧ V j) (hw : w ∈ anyObjectTexts value) :
    ∃ entries, Encodes loose w (.object entries) ∧ ∀ entry ∈ entries, V entry.2 := by
  rcases anyObject_members hw with ⟨gap, hgap, rfl⟩ | ⟨members, hne, hmembers, rfl⟩
  · exact ⟨[], .emptyObject hgap, fun entry hentry => absurd hentry List.not_mem_nil⟩
  · have hmember : ∀ m ∈ members, Encodes loose m.part.text m.part.value ∧ V m.part.value := by
      intro m hm
      obtain ⟨-, htext, -, hval, -⟩ := hmembers m hm
      obtain ⟨j, hj, hV⟩ := hvalue _ htext (member_text_subset hm _ _)
      rw [hval, valueOf_eq hj]
      exact ⟨hj, hV⟩
    refine ⟨members.map Member.entry, .object hne (fun m hm => (hmembers m hm).2.2.2.2)
      (fun m hm => ?_) fun m hm => (hmember m hm).1,
      List.forall_mem_map.mpr fun m hm => (hmember m hm).2⟩
    obtain ⟨hkey, -, hname, -⟩ := hmembers m hm
    obtain ⟨us, hus⟩ := stringBody_encodes hkey
    rw [hname, nameOf_eq hus]
    exact hus

/-- A value of bounded depth is JSON, but for control characters in strings. -/
theorem any_encodes (depth : ℕ) {w : List Char} (hw : w ∈ anyTexts depth) :
    ∃ j, Encodes loose w j := by
  have hscalar : ∀ {v : List Char},
      v ∈ stringTexts + number + boolTexts + exactly "null".toList → ∃ j, Encodes loose v j := by
    rintro v (((hv | hv) | hv) | hv)
    · obtain ⟨us, hus⟩ := string_encodes hv
      exact ⟨_, hus⟩
    · exact primitive_encodes .number hv
    · exact primitive_encodes .boolean hv
    · exact primitive_encodes .null hv
  induction depth generalizing w with
  | zero => exact hscalar hw
  | succ depth ih =>
    rcases hw with (hw | hw) | hw
    · exact hscalar hw
    · obtain ⟨items, hitems, -⟩ := array_encodes_texts (V := fun _ => True)
        (fun _ _ _ x hx _ => (ih hx).imp fun j hj => ⟨hj, trivial⟩) hw
      exact ⟨_, hitems⟩
    · obtain ⟨entries, hentries, -⟩ := anyObject_encodes (V := fun _ => True)
        (fun x hx _ => (ih hx).imp fun j hj => ⟨hj, trivial⟩) hw
      exact ⟨_, hentries⟩

end Zllm.JsonSchema
