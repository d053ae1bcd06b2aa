import Zllm.Engine.SchemaMeaning

/-!
# When a pattern keeps to its schema

The compiler reads `const`, `enum`, `type`, `pattern`, `items`, `properties` and array bounds that
are written as unsigned integers, and stops at the first of `const`, `enum` and `type`. So every
matched value satisfies a schema exactly if what it says otherwise holds of all that the compiler
lets through.
-/

namespace Zllm.JsonSchema

open Zllm.Texts Zllm.Regex Zllm.Json

/-! ### What the compiler lets through -/

/-- The types that the compiler knows. -/
inductive Kind
  | primitive (ty : Primitive)
  | string
  | array
  | object

def Kind.typeName : Kind → String
  | primitive ty => ty.typeName
  | string => "string"
  | array => "array"
  | object => "object"

/-- The values of a type that depends on nothing else. -/
def Primitive.Has : Primitive → Datum → Prop
  | integer, j => ∃ n : ℤ, j = .number n
  | number, j => ∃ x ∈ Json.number, j = .number (numberValue x)
  | boolean, j => ∃ b, j = .bool b
  | null, j => j = .null

/-- A character that JSON texts have as it is. -/
def Printed (c : Char) : Prop := 0x20 ≤ c.toNat

/-- The values that a schema with a type lets through, whatever their parts are. -/
def LetsThrough (named : Char → Option (Char → Bool)) (obj : Fields) : Kind → Datum → Prop
  | .primitive ty, j => ty.Has j
  | .string, j => ∃ us, j = .string us ∧ ∀ p, (obj.get "pattern").bind Value.asStr = some p →
      ∃ w ∈ insideQuotes named p, Printable w ∧ us = w.flatMap utf16
  | .array, j => ∃ items, j = .array items ∧ FitsCompiled obj items.length ∧
      (items ≠ [] → ∀ schema, obj.get "items" = some schema → HasText named Printed schema)
  | .object, j => ∃ members, j = .object members ∧
      ∀ props, obj.get "properties" = some (.object props) →
        members.map Prod.fst = props.map fun prop => units prop.1

/-- A text as it can stand between quotes, with the meaning it has there. -/
def Verbatim (w : List Char) : Prop := ∀ c ∈ w, c ≠ '"' ∧ c ≠ '\\'

/-- No object in the texts of a schema has a name that is declared twice. -/
def NamesDistinct (named : Char → Option (Char → Bool)) (ok : Char → Prop) (depth : ℕ)
    (schema : Value) : Prop :=
  ∀ below obj props, ReachedAt named ok depth schema below (.object obj) →
    HasType obj "object" → Fields.get obj "properties" = some (.object props) →
      (props.map Prod.fst).Nodup

section

variable (named : Char → Option (Char → Bool)) (other : String → Value → Datum → Prop)

/-- What a schema says holds of all that its `const`, its `enum` or its type lets through. -/
structure Honoured (depth : ℕ) (obj : Fields) : Prop where
  literal : ∀ c, obj.get "const" = some c → Validates named other (.object obj) c.datum
  choice : obj.get "const" = none → ∀ vals, obj.get "enum" = some (.array vals) →
    ∀ v ∈ vals, Validates named other (.object obj) v.datum
  typed : ∀ kind : Kind, HasType obj kind.typeName →
    ∀ j, LetsThrough named obj kind j → Asserts named other obj j
  additional : HasType obj "object" → (∀ props, obj.get "properties" ≠ some (.object props)) →
    ∀ schema, obj.get "additionalProperties" = some schema →
      ∀ x ∈ anyTexts (shapelessDepth depth), ∀ j, Document rfc8259 x j →
        Validates named other schema j

/-- So it is everywhere in the texts of a schema. -/
def Honours (depth : ℕ) (schema : Value) : Prop :=
  ∀ below obj, ReachedAt named Printed depth schema below (.object obj) →
    Honoured named other below obj

variable {named other}

theorem Honours.items {depth : ℕ} {obj : Fields} {items : Value}
    (h : Honours named other depth (.object obj)) (htype : HasType obj "array")
    (hitems : obj.get "items" = some items) (hmost : mostItems obj ≠ some 0) :
    Honours named other (depth + 1) items :=
  fun below _ hsub => h below _ (.items htype hitems hmost hsub)

theorem Honours.property {depth : ℕ} {obj props : Fields} {prop : String × Value}
    (h : Honours named other depth (.object obj)) (htype : HasType obj "object")
    (hprops : obj.get "properties" = some (.object props)) (hmem : prop ∈ props)
    (htext : HasText named Printed (.object obj)) : Honours named other (depth + 1) prop.2 :=
  fun below _ hsub => h below _ (.property htype hprops hmem htext hsub)

theorem NamesDistinct.items {ok : Char → Prop} {depth : ℕ} {obj : Fields} {items : Value}
    (h : NamesDistinct named ok depth (.object obj)) (htype : HasType obj "array")
    (hitems : obj.get "items" = some items) (hmost : mostItems obj ≠ some 0) :
    NamesDistinct named ok (depth + 1) items :=
  fun below other props hsub => h below other props (.items htype hitems hmost hsub)

theorem NamesDistinct.weaken {ok ok' : Char → Prop} {depth : ℕ} {schema : Value}
    (h : NamesDistinct named ok' depth schema) (hok : ∀ c, ok c → ok' c) :
    NamesDistinct named ok depth schema :=
  fun below obj props hreached => h below obj props (hreached.weaken hok)

theorem NamesDistinct.property {ok : Char → Prop} {depth : ℕ} {obj props : Fields}
    {prop : String × Value} (h : NamesDistinct named ok depth (.object obj))
    (htype : HasType obj "object") (hprops : obj.get "properties" = some (.object props))
    (hmem : prop ∈ props) (htext : HasText named ok (.object obj)) :
    NamesDistinct named ok (depth + 1) prop.2 :=
  fun below other others hsub => h below other others (.property htype hprops hmem htext hsub)

/-! ### Texts and their values -/

theorem verbatim_body {w : List Char} (hw : Verbatim w) :
    StringBody loose w (w.flatMap utf16) := by
  induction w with
  | nil => exact .nil
  | cons c w ih =>
    obtain ⟨hc, hrest⟩ := List.forall_mem_cons.mp hw
    exact .plain trivial hc.1 hc.2 (ih hrest)

theorem Verbatim.nameOf {key : String} (h : Verbatim key.toList) : nameOf key.toList = units key :=
  nameOf_eq (verbatim_body h)

/-- A text of a language that is JSON for a value. -/
structure Writes (l : Language Char) (x : List Char) (j : Datum) : Prop where
  mem : x ∈ l
  printable : Printable x
  encodes : Encodes loose x j

theorem literal_writes (c : Value) : Writes (exactly c.toJson) c.toJson c.datum where
  mem := rfl
  printable := c.toJson_encodes.printable ⟨fun _ => False.elim, fun _ => id⟩
  encodes := c.toJson_encodes.mono (compact_loose _)

theorem verbatim_mem {w : List Char} (hw : Verbatim w) : w ∈ stringBody := by
  have hone : ∀ c ∈ w, [c] ∈ oneOf (fun c => c != '"' && c != '\\') := fun c hc =>
    ⟨c, rfl, by simpa using hw c hc⟩
  have hjoin : w = (w.map fun c => [c]).flatten := by
    rw [← List.flatMap_def, List.flatMap_singleton']
  exact Language.mem_kstar.mpr ⟨_, hjoin, List.forall_mem_map.mpr fun c hc => .inl (hone c hc)⟩

theorem quoted_writes {l : Language Char} {w : List Char} (hw : w ∈ l) (hprintable : Printable w)
    (hverbatim : Verbatim w) :
    Writes (quoted l) ('"' :: (w ++ ['"'])) (.string (w.flatMap utf16)) where
  mem := mem_quoted hw
  printable := printable_cons (by decide) (printable_append hprintable
    (printable_cons (by decide) fun c hc => absurd hc List.not_mem_nil))
  encodes := .string (verbatim_body hverbatim)

theorem primitive_writes (ty : Primitive) {j : Datum} (hj : ty.Has j) :
    ∃ x, Writes ty.texts x j := by
  cases ty with
  | integer =>
    obtain ⟨n, rfl⟩ := hj
    obtain ⟨x, hx, hvalue⟩ : ∃ x ∈ Json.integer, numberValue x = n := by
      cases n with
      | ofNat n => exact ⟨_, natural_mem n⟩
      | negSucc n =>
        obtain ⟨hmem, hvalue⟩ := negative_mem (n + 1)
        exact ⟨_, hmem, by rw [hvalue, Int.cast_negSucc]⟩
    have hnumber := Encodes.number (g := loose) (integer_le_number hx)
    rw [hvalue] at hnumber
    exact ⟨x, hx, number_printable (integer_le_number hx), hnumber⟩
  | number =>
    obtain ⟨x, hx, rfl⟩ := hj
    exact ⟨x, hx, number_printable hx, .number hx⟩
  | boolean =>
    obtain ⟨b, rfl⟩ := hj
    cases b
    · exact ⟨_, .inr rfl, by unfold Printable; decide, .false⟩
    · exact ⟨_, .inl rfl, by unfold Printable; decide, .true⟩
  | null =>
    obtain rfl := hj
    exact ⟨_, rfl, by unfold Printable; decide, .null⟩

theorem array_writes {fits : ℕ → Prop} {item : Language Char} {x : List Char} {j : Datum} {n : ℕ}
    (hfits : fits n) (h : Writes item x j) :
    Writes (arrayTexts fits item) (arrayOf n x) (.array (List.replicate n j)) := by
  have hjoined : Printable (joined (List.replicate n x)) := by
    rw [← List.map_id (List.replicate n x)]
    exact printable_joined fun y hy => List.eq_of_mem_replicate hy ▸ h.printable
  refine ⟨arrayOf_mem hfits h.mem, printable_cons (by decide) (printable_append hjoined
    (printable_cons (by decide) fun c hc => absurd hc List.not_mem_nil)), ?_⟩
  cases n with
  | zero => exact .emptyArray blanks_nil
  | succ n =>
    have harray := @Encodes.array loose (List.replicate (n + 1) ⟨[], x, [], j⟩) (by simp)
      (fun p hp => List.eq_of_mem_replicate hp ▸ ⟨blanks_nil, blanks_nil⟩)
      fun p hp => List.eq_of_mem_replicate hp ▸ h.encodes
    simpa [arrayOf, Part.chars] using harray

theorem emptyArray_writes {fits : ℕ → Prop} {item : Language Char} (hfits : fits 0) :
    Writes (arrayTexts fits item) ['[', ']'] (.array []) where
  mem := emptyArray_mem hfits
  printable := by
    unfold Printable
    decide
  encodes := .emptyArray blanks_nil

/-- An object whose members have the given names, texts and values. -/
theorem object_writes {α : Type*} {xs : List α} {key : α → String} {text : α → List Char}
    {value : α → Datum} {l : Language Char} (hmem : objectOf (xs.map fun a => pairOf (key a) (text a)) ∈ l)
    (hverbatim : ∀ a ∈ xs, Verbatim (key a).toList) (hkeys : ∀ a ∈ xs, Printable (key a).toList)
    (hprintable : ∀ a ∈ xs, Printable (text a)) (hencodes : ∀ a ∈ xs, Encodes loose (text a) (value a)) :
    Writes l (objectOf (xs.map fun a => pairOf (key a) (text a)))
      (.object (xs.map fun a => (units (key a), value a))) := by
  have hjoined : Printable (joined (xs.map fun a => pairOf (key a) (text a))) := by
    refine printable_joined fun a ha => printable_cons (by decide) (printable_append (hkeys a ha) ?_)
    exact printable_cons (by decide) (printable_cons (by decide) (hprintable a ha))
  refine ⟨hmem, printable_cons (by decide) (printable_append hjoined
    (printable_cons (by decide) fun c hc => absurd hc List.not_mem_nil)), ?_⟩
  by_cases hnil : xs = []
  · subst hnil
    exact .emptyObject blanks_nil
  · have hobject := @Encodes.object loose
      (xs.map fun a => ⟨[], (key a).toList, [], units (key a), ⟨[], text a, [], value a⟩⟩)
      (by simpa using hnil)
      (List.forall_mem_map.mpr fun a _ => ⟨blanks_nil, blanks_nil, blanks_nil, blanks_nil⟩)
      (List.forall_mem_map.mpr fun a ha => verbatim_body (hverbatim a ha))
      (List.forall_mem_map.mpr hencodes)
    simpa [objectOf, pairOf, Function.comp_def, Member.chars, Part.chars, Member.entry] using hobject

theorem declared_writes {props : List Property} {text : Property → List Char}
    {value : Property → Datum} (hverbatim : ∀ prop ∈ props, Verbatim prop.key.toList)
    (hkeys : ∀ prop ∈ props, Printable prop.key.toList)
    (h : ∀ prop ∈ props, Writes prop.texts (text prop) (value prop)) :
    Writes (objectTexts (props.map Property.pair))
      (objectOf (props.map fun prop => pairOf prop.key (text prop)))
      (.object (props.map fun prop => (units prop.key, value prop))) := by
  refine object_writes (objectOf_mem ?_) hverbatim hkeys (fun prop hmem => (h prop hmem).printable)
    fun prop hmem => (h prop hmem).encodes
  refine List.forall₂_map_right_iff.mpr (List.forall₂_map_left_iff.mpr ?_)
  exact List.forall₂_same.mpr fun prop hmem => pairOf_mem (h prop hmem).mem

theorem shapeless_writes {α : Type*} {xs : List α} {key : α → String} {x : List Char} {j : Datum}
    {item : Language Char} (hverbatim : ∀ a ∈ xs, Verbatim (key a).toList)
    (hkeys : ∀ a ∈ xs, Printable (key a).toList) (h : Writes item x j) :
    Writes (anyObjectTexts item) (objectOf (xs.map fun a => pairOf (key a) x))
      (.object (xs.map fun a => (units (key a), j))) := by
  refine object_writes ?_ hverbatim hkeys (fun _ _ => h.printable) fun _ _ => h.encodes
  have hpair : ∀ a ∈ xs, pairOf (key a) x ∈ pairTexts stringTexts item := by
    intro a ha
    have hname : nameTexts (key a) ≤ stringTexts := by
      rw [nameTexts_eq]
      refine mul_le_mul' (mul_le_mul' le_rfl ?_) le_rfl
      rintro _ rfl
      exact verbatim_mem (hverbatim a ha)
    exact mul_le_mul' (mul_le_mul' hname le_rfl) le_rfl (pairOf_mem h.mem)
  have htexts : List.Forall₂ (fun text l => text ∈ l) (xs.map fun a => pairOf (key a) x)
      (List.replicate xs.length (pairTexts stringTexts item)) := by
    rw [← List.map_const']
    refine List.forall₂_map_right_iff.mpr (List.forall₂_map_left_iff.mpr ?_)
    exact List.forall₂_same.mpr hpair
  have hopen : ['\x7b'] ++ [] ++ joined (xs.map fun a => pairOf (key a) x) ++ [] ++ ['\x7d'] ∈
      anyObjectTexts item :=
    Language.append_mem_mul (Language.append_mem_mul (Language.append_mem_mul
      (Language.append_mem_mul rfl (.inl rfl)) ⟨xs.length, trivial, joined_mem htexts⟩)
        (.inl rfl)) rfl
  simpa [objectOf] using hopen

end

end Zllm.JsonSchema
