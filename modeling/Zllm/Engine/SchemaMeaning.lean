import Zllm.Engine.SchemaWellFormed

/-!
# What a schema says about a value

The constraint keywords of a schema as conditions on a JSON value. What a keyword says that is not
in the list is a parameter.
-/

namespace Zllm.JsonSchema

open Zllm.Texts Zllm.Regex Zllm.Json

/-! ### Values -/

/-- Equality of values: the order of an object's members makes no difference. -/
inductive Same : Datum → Datum → Prop
  | refl (j : Datum) : Same j j
  | array {items items' : List Datum} (hlength : items.length = items'.length)
      (hitems : ∀ pair ∈ items.zip items', Same pair.1 pair.2) : Same (.array items) (.array items')
  | object {members sorted members' : List (List ℕ × Datum)} (hperm : sorted.Perm members')
      (hnames : members.map Prod.fst = sorted.map Prod.fst)
      (hvalues : ∀ pair ∈ members.zip sorted, Same pair.1.2 pair.2.2) :
      Same (.object members) (.object members')

def OfType (ty : String) : Datum → Prop
  | .null => ty = "null"
  | .bool _ => ty = "boolean"
  | .number q => ty = "number" ∨ ty = "integer" ∧ ∃ n : ℤ, q = n
  | .string _ => ty = "string"
  | .array _ => ty = "array"
  | .object _ => ty = "object"

/-- The number of characters of a string: a pair of surrogates is one. -/
def characters : List ℕ → ℕ
  | [] => 0
  | [_] => 1
  | high :: low :: rest =>
    if (0xD800 ≤ high ∧ high < 0xDC00) ∧ 0xDC00 ≤ low ∧ low < 0xE000 then characters rest + 1
    else characters (low :: rest) + 1

/-! ### Keywords -/

/-- The number that a keyword is set to. -/
def bound (obj : Fields) (keyword : String) : Option ℚ := (obj.get keyword).bind Value.numeric

structure NumberAsserts (obj : Fields) (q : ℚ) : Prop where
  least : ∀ m ∈ bound obj "minimum", m ≤ q
  most : ∀ m ∈ bound obj "maximum", q ≤ m
  above : ∀ m ∈ bound obj "exclusiveMinimum", m < q
  below : ∀ m ∈ bound obj "exclusiveMaximum", q < m
  multiple : ∀ m ∈ bound obj "multipleOf", ∃ n : ℤ, q = n * m

/-- A pattern may match anywhere in a string. -/
structure StringAsserts (named : Char → Option (Char → Bool)) (obj : Fields) (us : List ℕ) :
    Prop where
  least : ∀ m ∈ bound obj "minLength", m ≤ characters us
  most : ∀ m ∈ bound obj "maxLength", characters us ≤ m
  pattern : ∀ p ∈ (obj.get "pattern").bind Value.asStr, ∃ before w after : List Char,
    us = (before ++ w ++ after).flatMap utf16 ∧
      w ∈ matchAt named p.toList before.getLast? after.head?

structure ArrayAsserts (obj : Fields) (items : List Datum) : Prop where
  least : ∀ m ∈ bound obj "minItems", m ≤ items.length
  most : ∀ m ∈ bound obj "maxItems", items.length ≤ m
  unique : obj.get "uniqueItems" = some (.bool true) → items.Pairwise fun j j' => ¬ Same j j'

structure ObjectAsserts (obj : Fields) (names : List (List ℕ)) : Prop where
  required : ∀ keys, obj.get "required" = some (.array keys) →
    ∀ v ∈ keys, ∀ key ∈ v.asStr, units key ∈ names
  least : ∀ m ∈ bound obj "minProperties", m ≤ names.dedup.length
  most : ∀ m ∈ bound obj "maxProperties", names.dedup.length ≤ m

/-- The keywords that are spelled out here. -/
def listedKeywords : List String :=
  ["type", "const", "enum", "minimum", "maximum", "exclusiveMinimum", "exclusiveMaximum",
    "multipleOf", "minLength", "maxLength", "pattern", "minItems", "maxItems", "uniqueItems",
    "required", "minProperties", "maxProperties", "items", "properties", "additionalProperties"]

section

variable (named : Char → Option (Char → Bool)) (other : String → Value → Datum → Prop)

/-- What a schema says about a value itself, without the schemas of its parts. -/
structure Asserts (obj : Fields) (j : Datum) : Prop where
  type : ∀ ty, obj.get "type" = some (.string ty) → OfType ty j
  types : ∀ tys, obj.get "type" = some (.array tys) → ∃ v ∈ tys, ∃ ty ∈ v.asStr, OfType ty j
  const : ∀ c, obj.get "const" = some c → Same j c.datum
  enum : ∀ vals, obj.get "enum" = some (.array vals) → ∃ v ∈ vals, Same j v.datum
  number : ∀ q, j = .number q → NumberAsserts obj q
  string : ∀ us, j = .string us → StringAsserts named obj us
  array : ∀ items, j = .array items → ArrayAsserts obj items
  object : ∀ members, j = .object members → ObjectAsserts obj (members.map Prod.fst)
  other : ∀ keyword v, obj.get keyword = some v → keyword ∉ listedKeywords → other keyword v j

/-- A name that `properties` does not list. -/
def Undeclared (obj : Fields) (name : List ℕ) : Prop :=
  ∀ props, obj.get "properties" = some (.object props) → ∀ prop ∈ props, name ≠ units prop.1

/-- A value satisfies a schema. -/
inductive Validates : Value → Datum → Prop
  | anything (j : Datum) : Validates (.bool true) j
  | object {obj : Fields} {j : Datum} (hasserts : Asserts named other obj j)
      (hitems : ∀ items schema, j = .array items → obj.get "items" = some schema →
        ∀ item ∈ items, Validates schema item)
      (hproperties : ∀ members props, j = .object members →
        obj.get "properties" = some (.object props) →
          ∀ prop ∈ props, ∀ member ∈ members, member.1 = units prop.1 → Validates prop.2 member.2)
      (hadditional : ∀ members schema, j = .object members →
        obj.get "additionalProperties" = some schema →
          ∀ member ∈ members, Undeclared obj member.1 → Validates schema member.2) :
      Validates (.object obj) j

variable {named other}

theorem Validates.items {obj : Fields} {items : List Datum} {schema : Value}
    (h : Validates named other (.object obj) (.array items)) (hitems : obj.get "items" = some schema)
    {item : Datum} (hmem : item ∈ items) : Validates named other schema item := by
  cases h with
  | object _ hall => exact hall items schema rfl hitems item hmem

theorem Validates.property {obj props : Fields} {members : List (List ℕ × Datum)}
    (h : Validates named other (.object obj) (.object members))
    (hprops : obj.get "properties" = some (.object props)) {prop : String × Value}
    (hprop : prop ∈ props) {j : Datum} (hmem : (units prop.1, j) ∈ members) :
    Validates named other prop.2 j := by
  cases h with
  | object _ _ hall => exact hall members props rfl hprops prop hprop _ hmem rfl

theorem Validates.additional {obj : Fields} {members : List (List ℕ × Datum)} {schema : Value}
    (h : Validates named other (.object obj) (.object members))
    (hschema : obj.get "additionalProperties" = some schema) {member : List ℕ × Datum}
    (hmem : member ∈ members) (hundeclared : Undeclared obj member.1) :
    Validates named other schema member.2 := by
  cases h with
  | object _ _ _ hall => exact hall members schema rfl hschema member hmem hundeclared

end

end Zllm.JsonSchema
