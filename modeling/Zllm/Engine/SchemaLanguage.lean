import Zllm.Engine.SchemaCompiles
import Zllm.Engine.SchemaJson

/-!
# The language of a schema

The texts that a schema describes, by recursion on the schema, and when its compiled pattern matches
exactly those: the bounds of an array count only where they are written as unsigned integers.
-/

namespace Zllm.JsonSchema

open Zllm.Texts Zllm.Regex Zllm.Outcome

/-! ### What a schema describes -/

def Value.numeric : Value → Option ℚ
  | number n => some n.value
  | _ => none

/-- A number of items between `minItems` and `maxItems`. -/
def FitsDeclared (obj : Fields) (n : ℕ) : Prop :=
  (∀ least ∈ (obj.get "minItems").bind Value.numeric, least ≤ n) ∧
    ∀ most ∈ (obj.get "maxItems").bind Value.numeric, n ≤ most

def typeLanguage (language : Value → Language Char) (depth : ℕ) (obj : Fields) :
    String → Language Char
  | "string" => stringTexts
  | "integer" => Json.integer
  | "number" => Json.number
  | "boolean" => boolTexts
  | "null" => exactly "null".toList
  | "array" =>
    match obj.get "items" with
    | some items => arrayTexts (FitsDeclared obj) (language items)
    | none => 0
  | "object" =>
    match obj.get "properties" with
    | some (.object props) =>
      objectTexts (props.map fun prop => pairTexts (nameTexts prop.1) (language prop.2))
    | _ => anyObjectTexts (anyTexts (shapelessDepth depth))
  | _ => 0

/-- The texts of a schema with so many levels left above the limit. -/
def languageAt : ℕ → ℕ → Value → Language Char
  | 0, _, _ => 0
  | levels + 1, depth, .object obj =>
    match Fields.get obj "const", Fields.get obj "enum" with
    | some c, _ => exactly c.toJson
    | none, some (.array vals) => (vals.map fun v => exactly v.toJson).sum
    | none, _ =>
      match (Fields.get obj "type").bind Value.asStr with
      | none => 0
      | some ty => typeLanguage (languageAt levels (depth + 1)) depth obj ty
  | _ + 1, _, _ => 0

def schemaLanguage (schema : Value) : Language Char := languageAt (MAX_DEPTH + 1) 0 schema

def envelopeTexts (name args : Language Char) : Language Char :=
  exactly ['\x7b'] * space * exactly "\"name\"".toList * colon * name * comma *
    exactly "\"arguments\"".toList * colon * args * space * exactly ['\x7d']

/-- The envelopes of calls to one of the tools. -/
def envelopeLanguage (tools : List (String × Value)) : Language Char :=
  (tools.map fun tool => envelopeTexts (exactly (quote tool.1)) (schemaLanguage tool.2)).sum

/-! ### Bounds that the compiler reads -/

/-- `minItems` and `maxItems` are unsigned integers, or they bound nothing. -/
structure BoundsWritten (obj : Fields) : Prop where
  least : ∀ v, obj.get "minItems" = some v →
    v.asU64 ≠ none ∨ ∀ least ∈ v.numeric, least ≤ 0
  most : ∀ v, obj.get "maxItems" = some v → v.asU64 ≠ none ∨ v.numeric = none

/-- Every array that a schema describes has bounds that the compiler reads. -/
def BoundsRead (schema : Value) : Prop :=
  ∀ obj, Reached schema (.object obj) → HasType obj "array" → BoundsWritten obj

theorem BoundsRead.items {obj : Fields} {items : Value} (h : BoundsRead (.object obj))
    (htype : HasType obj "array") (hitems : obj.get "items" = some items)
    (hmost : mostItems obj ≠ some 0) : BoundsRead items :=
  fun other hsub => h other (.items htype hitems hmost hsub)

theorem BoundsRead.property {obj props : Fields} {prop : String × Value}
    (h : BoundsRead (.object obj)) (htype : HasType obj "object")
    (hprops : obj.get "properties" = some (.object props)) (hmem : prop ∈ props) :
    BoundsRead prop.2 :=
  fun other hsub => h other (.property htype hprops hmem hsub)

theorem numeric_asU64 {v : Value} {n : ℕ} (hv : v.asU64 = some n) : v.numeric = some (n : ℚ) := by
  cases v with
  | number x =>
    cases x with
    | posInt k =>
      obtain rfl := Option.some.inj hv
      rfl
    | _ => cases hv
  | _ => cases hv

theorem fitsDeclared_iff {obj : Fields} (hbounds : BoundsWritten obj) (n : ℕ) :
    FitsDeclared obj n ↔ FitsCompiled obj n := by
  have hleast : (∀ least ∈ (obj.get "minItems").bind Value.numeric, least ≤ (n : ℚ)) ↔
      leastItems obj ≤ n := by
    unfold leastItems
    cases hv : obj.get "minItems" with
    | none => simp
    | some v =>
      cases hu : v.asU64 with
      | none =>
        have hsmall := (hbounds.least v hv).resolve_left fun h => h hu
        have hall : ∀ least ∈ v.numeric, least ≤ (n : ℚ) := fun least hmem =>
          (hsmall least hmem).trans (Nat.cast_nonneg n)
        simpa [hu] using hall
      | some k => simp [hu, numeric_asU64 hu]
  have hmost : (∀ most ∈ (obj.get "maxItems").bind Value.numeric, (n : ℚ) ≤ most) ↔
      ∀ m ∈ mostItems obj, n ≤ m := by
    unfold mostItems
    cases hv : obj.get "maxItems" with
    | none => simp
    | some v =>
      cases hu : v.asU64 with
      | none =>
        have hnone := (hbounds.most v hv).resolve_left fun h => h hu
        simp [hu, hnone]
      | some k => simp [hu, numeric_asU64 hu]
  exact and_congr hleast hmost

/-- The compiler never reads a bound that is not there. -/
theorem fitsCompiled_of_declared {obj : Fields} {n : ℕ} (h : FitsDeclared obj n) :
    FitsCompiled obj n := by
  constructor
  · unfold leastItems
    cases hv : obj.get "minItems" with
    | none => exact Nat.zero_le n
    | some v =>
      cases hu : v.asU64 with
      | none => simp [hu]
      | some k =>
        have hk := h.1 k (by rw [hv, Option.bind_some, numeric_asU64 hu]; rfl)
        simpa [hu] using hk
  · intro m hm
    unfold mostItems at hm
    cases hv : obj.get "maxItems" with
    | none => simp [hv] at hm
    | some v =>
      rw [hv, Option.bind_some] at hm
      have hk := h.2 m (by rw [hv, Option.bind_some, numeric_asU64 hm]; rfl)
      exact_mod_cast hk

/-- If every number of items that the compiler lets through is declared, the bounds are read. -/
theorem boundsWritten_of_fits {obj : Fields}
    (hfits : ∀ n, FitsCompiled obj n → FitsDeclared obj n) : BoundsWritten obj := by
  constructor
  · intro v hv
    rw [or_iff_not_imp_left, not_not]
    intro hu least hleast
    have hzero : leastItems obj = 0 := by simp [leastItems, hv, hu]
    have hdeclared := (hfits 0 ⟨hzero.le, fun m _ => Nat.zero_le m⟩).1 least
      (by rw [hv, Option.bind_some]; exact hleast)
    exact_mod_cast hdeclared
  · intro v hv
    rw [or_iff_not_imp_left, not_not]
    intro hu
    have hnone : mostItems obj = none := by simp [mostItems, hv, hu]
    cases hq : v.numeric with
    | none => rfl
    | some q =>
      obtain ⟨n, hn⟩ := exists_nat_gt (max q (leastItems obj))
      have hcompiled : FitsCompiled obj n := by
        refine ⟨?_, fun m hm => ?_⟩
        · exact_mod_cast ((le_max_right q _).trans hn.le)
        · rw [hnone] at hm
          cases hm
      have hdeclared := (hfits n hcompiled).2 q (by rw [hv, Option.bind_some, hq]; rfl)
      exact absurd ((le_max_left q _).trans_lt hn) (not_lt.mpr hdeclared)

/-! ### The language of an accepted schema -/

section

variable {levels depth : ℕ} {obj : Fields}

theorem languageAt_type {ty : String} (htype : HasType obj ty) :
    languageAt (levels + 1) depth (.object obj) =
      typeLanguage (languageAt levels (depth + 1)) depth obj ty := by
  rw [languageAt]
  split
  · next c hconst => exact absurd (htype.noConst.symm.trans hconst) nofun
  · next vals hconst henum => exact absurd henum (htype.noEnum vals)
  · rw [htype.type_eq]

theorem languageAt_const {c : Value} (hconst : obj.get "const" = some c) :
    languageAt (levels + 1) depth (.object obj) = exactly c.toJson := by
  rw [languageAt, hconst]

theorem languageAt_enum {vals : List Value} (hconst : obj.get "const" = none)
    (henum : obj.get "enum" = some (.array vals)) :
    languageAt (levels + 1) depth (.object obj) = (vals.map fun v => exactly v.toJson).sum := by
  rw [languageAt, hconst, henum]

theorem languageAt_array {items : Value} (htype : HasType obj "array")
    (hitems : obj.get "items" = some items) :
    languageAt (levels + 1) depth (.object obj) =
      arrayTexts (FitsDeclared obj) (languageAt levels (depth + 1) items) := by
  rw [languageAt_type htype, typeLanguage, hitems]

theorem languageAt_object {props : Fields} (htype : HasType obj "object")
    (hprops : obj.get "properties" = some (.object props)) :
    languageAt (levels + 1) depth (.object obj) =
      objectTexts (props.map fun prop =>
        pairTexts (nameTexts prop.1) (languageAt levels (depth + 1) prop.2)) := by
  rw [languageAt_type htype, typeLanguage, hprops]

theorem languageAt_shapeless (htype : HasType obj "object")
    (hprops : ∀ props, obj.get "properties" ≠ some (.object props)) :
    languageAt (levels + 1) depth (.object obj) =
      anyObjectTexts (anyTexts (shapelessDepth depth)) := by
  rw [languageAt_type htype, typeLanguage]
  split
  · next props h => exact absurd h (hprops props)
  · rfl

theorem languageAt_primitive (ty : Primitive) (htype : HasType obj ty.typeName) :
    languageAt (levels + 1) depth (.object obj) = ty.texts := by
  rw [languageAt_type htype]
  cases ty <;> rfl

end

/-- The compiled texts of a schema whose bounds are read are its language. -/
theorem Compiles.languageAt_eq {named : Char → Option (Char → Bool)} {levels depth : ℕ}
    {schema : Value} {p : Pattern} {l : Language Char} (h : Compiles named levels depth schema p l)
    (hfree : PatternFree schema) (hbounds : BoundsRead schema) :
    languageAt levels depth schema = l := by
  induction h with
  | literal _ hconst => exact languageAt_const hconst
  | choice _ hconst henum => exact languageAt_enum hconst henum
  | string htype => exact languageAt_type htype
  | @pattern levels depth obj p htype hpattern =>
    rw [hfree obj (.self _)] at hpattern
    cases hpattern
  | primitive ty htype => exact languageAt_primitive ty htype
  | @array levels depth obj items item texts htype hitems hitem hleast ih =>
    have hfits : FitsDeclared obj = FitsCompiled obj := by
      funext n
      exact propext (fitsDeclared_iff (hbounds obj (.self _) htype) n)
    rw [languageAt_array htype hitems, hfits]
    by_cases hmost : mostItems obj = some 0
    · have hnone : ∀ n, FitsCompiled obj n → n = 0 := fun n hn => Nat.le_zero.mp (hn.2 0 hmost)
      have hzero : FitsCompiled obj 0 := ⟨hleast 0 hmost, fun m _ => Nat.zero_le m⟩
      rw [arrayTexts_none hnone hzero, arrayTexts_none hnone hzero]
    · rw [ih (hfree.items hitems) (hbounds.items htype hitems hmost)]
  | shapeless htype hprops => exact languageAt_shapeless htype hprops
  | @object levels depth obj props htype hprops hvalues ih =>
    rw [languageAt_object htype hprops, List.map_map]
    refine congrArg objectTexts (List.map_congr_left fun prop hmem => ?_)
    have hdeclared := List.mem_map_of_mem (f := Property.declared) hmem
    have hprop := ih prop hmem (hfree.property hprops hdeclared)
      (hbounds.property htype hprops hdeclared)
    exact congrArg (pairTexts (nameTexts prop.key)) hprop

end Zllm.JsonSchema
