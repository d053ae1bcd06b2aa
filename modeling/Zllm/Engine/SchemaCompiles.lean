import Zllm.Engine.SchemaTexts
import Zllm.Lib.Outcome

/-!
# What compiling a schema can do

The cases of the compiler as a relation between a schema, its pattern and the texts that the
pattern stands for. Every accepted schema is in one of them.
-/

namespace Zllm.JsonSchema

open Zllm.Texts Zllm.Regex Zllm.Outcome

/-! ### The cases -/

/-- No keyword that the compiler rejects. -/
def Supported (obj : Fields) : Prop := ∀ k ∈ unsupportedKeywords, obj.get k = none

/-- A schema that is compiled by its type. -/
structure HasType (obj : Fields) (ty : String) : Prop where
  supported : Supported obj
  noConst : obj.get "const" = none
  noEnum : ∀ vals, obj.get "enum" ≠ some (.array vals)
  type_eq : (obj.get "type").bind Value.asStr = some ty

theorem HasType.unique {obj : Fields} {ty ty' : String} (h : HasType obj ty)
    (h' : HasType obj ty') : ty = ty' :=
  Option.some.inj (h.type_eq.symm.trans h'.type_eq)

theorem HasType.ne {obj : Fields} {ty ty' : String} (h : HasType obj ty) (hne : ty ≠ ty') :
    ¬ HasType obj ty' :=
  fun h' => hne (h.unique h')

def leastItems (obj : Fields) : ℕ := ((obj.get "minItems").bind Value.asU64).getD 0

def mostItems (obj : Fields) : Option ℕ := (obj.get "maxItems").bind Value.asU64

/-- A number of items between the bounds that the compiler reads. -/
def FitsCompiled (obj : Fields) (n : ℕ) : Prop := leastItems obj ≤ n ∧ ∀ m ∈ mostItems obj, n ≤ m

theorem FitsCompiled.most_ne {obj : Fields} {n : ℕ} (h : FitsCompiled obj n) (hne : n ≠ 0) :
    mostItems obj ≠ some 0 :=
  fun hmost => hne (Nat.le_zero.mp (h.2 0 hmost))

/-- A declared property with its compiled subschema. -/
structure Property where
  key : String
  schema : Value
  pattern : Pattern
  texts : Language Char

namespace Property

def declared (prop : Property) : String × Value := (prop.key, prop.schema)

def regex (prop : Property) : Pattern := pairRegex (nameRegex prop.key) prop.pattern

def pair (prop : Property) : Language Char := pairTexts (nameTexts prop.key) prop.texts

end Property

/-- The depth of a value in an object that declares no properties. -/
def shapelessDepth (depth : ℕ) : ℕ := ANY_JSON_DEFAULT_DEPTH - depth - 1

/-- What a pattern matches between quotes. -/
def insideQuotes (named : Char → Option (Char → Bool)) (p : String) : Language Char :=
  matchAt named p.toList (some '"') (some '"')

/-- `Compiles named levels depth schema p l`: with so many levels left, the schema at this depth is
compiled to `p`, whose pieces stand for `l`. -/
inductive Compiles (named : Char → Option (Char → Bool)) :
    ℕ → ℕ → Value → Pattern → Language Char → Prop
  | literal {levels depth : ℕ} {obj : Fields} {c : Value} (hsupported : Supported obj)
      (hconst : obj.get "const" = some c) :
      Compiles named (levels + 1) depth (.object obj) (literalRegex c) (exactly c.toJson)
  | choice {levels depth : ℕ} {obj : Fields} {vals : List Value} (hsupported : Supported obj)
      (hconst : obj.get "const" = none) (henum : obj.get "enum" = some (.array vals))
      (hne : vals ≠ []) :
      Compiles named (levels + 1) depth (.object obj) (alternatives (vals.map literalRegex))
        (vals.map fun v => exactly v.toJson).sum
  | string {levels depth : ℕ} {obj : Fields} (htype : HasType obj "string")
      (hpattern : (obj.get "pattern").bind Value.asStr = none) :
      Compiles named (levels + 1) depth (.object obj) STRING stringTexts
  | pattern {levels depth : ℕ} {obj : Fields} {p : String} (htype : HasType obj "string")
      (hpattern : (obj.get "pattern").bind Value.asStr = some p) :
      Compiles named (levels + 1) depth (.object obj) ('"' :: p.toList ++ ['"'])
        (quoted (insideQuotes named p))
  | primitive {levels depth : ℕ} {obj : Fields} (ty : Primitive) (htype : HasType obj ty.typeName) :
      Compiles named (levels + 1) depth (.object obj) ty.regex ty.texts
  | array {levels depth : ℕ} {obj : Fields} {items : Value} {item : Pattern} {texts : Language Char}
      (htype : HasType obj "array") (hitems : obj.get "items" = some items)
      (hitem : Compiles named levels (depth + 1) items item texts)
      (hbounds : ∀ m ∈ mostItems obj, leastItems obj ≤ m) :
      Compiles named (levels + 1) depth (.object obj) (arrayRegex item (leastItems obj) (mostItems obj))
        (arrayTexts (FitsCompiled obj) texts)
  | shapeless {levels depth : ℕ} {obj : Fields} (htype : HasType obj "object")
      (hprops : ∀ props, obj.get "properties" ≠ some (.object props)) :
      Compiles named (levels + 1) depth (.object obj) (anyObjectRegex (anyValue (shapelessDepth depth)))
        (anyObjectTexts (anyTexts (shapelessDepth depth)))
  | object {levels depth : ℕ} {obj : Fields} {props : List Property} (htype : HasType obj "object")
      (hprops : obj.get "properties" = some (.object (props.map Property.declared)))
      (hvalues : ∀ prop ∈ props,
        Compiles named levels (depth + 1) prop.schema prop.pattern prop.texts) :
      Compiles named (levels + 1) depth (.object obj) (objectRegex (props.map Property.regex))
        (objectTexts (props.map Property.pair))

/-! ### Every accepted schema is in one of them -/

section

variable {named : Char → Option (Char → Bool)}

theorem compileProperties_cases {levels depth : ℕ} {props : Fields} {pairs : List Pattern}
    {compile : Value → Except SchemaError Pattern} (wrap : String → Pattern → Pattern)
    (hcompile : ∀ schema q, compile schema = .ok q → ∃ l, Compiles named levels depth schema q l)
    (hpairs : List.Forall₂ (fun prop pair => ∃ q, compile prop.2 = .ok q ∧ wrap prop.1 q = pair)
      props pairs) :
    ∃ found : List Property, found.map Property.declared = props ∧
      (found.map fun prop => wrap prop.key prop.pattern) = pairs ∧
      ∀ prop ∈ found, Compiles named levels depth prop.schema prop.pattern prop.texts := by
  induction hpairs with
  | nil => exact ⟨[], rfl, rfl, fun prop hmem => absurd hmem List.not_mem_nil⟩
  | @cons prop pair props pairs hpair hrest ih =>
    obtain ⟨q, hq, rfl⟩ := hpair
    obtain ⟨l, hl⟩ := hcompile prop.2 q hq
    obtain ⟨found, rfl, rfl, hfound⟩ := ih
    refine ⟨⟨prop.1, prop.2, q, l⟩ :: found, rfl, rfl, fun other hmem => ?_⟩
    rcases List.mem_cons.mp hmem with rfl | hmem
    · exact hl
    · exact hfound other hmem

theorem compileObject_cases {levels depth : ℕ} {obj : Fields} {p : Pattern}
    {compile : Value → Except SchemaError Pattern} (htype : HasType obj "object")
    (hcompile : ∀ schema q, compile schema = .ok q → ∃ l, Compiles named levels (depth + 1) schema q l)
    (hok : compileObject compile depth obj = .ok p) :
    ∃ l, Compiles named (levels + 1) depth (.object obj) p l := by
  rw [compileObject] at hok
  split at hok
  · next props hprops =>
    obtain ⟨pairs, hpairs, hok⟩ := bind_eq_ok.mp hok
    obtain rfl := pure_eq_ok.mp hok
    have hforall := (mapM_eq_ok.mp hpairs).imp fun prop pair hpair => bind_eq_ok.mp hpair
    simp only [pure_eq_ok] at hforall
    obtain ⟨found, rfl, rfl, hfound⟩ := compileProperties_cases
      (fun name value => pairRegex (nameRegex name) value) hcompile hforall
    exact ⟨_, .object htype hprops hfound⟩
  · next hprops =>
    obtain rfl := Except.ok.inj hok
    exact ⟨_, .shapeless htype hprops⟩

theorem compileArray_cases {levels depth : ℕ} {obj : Fields} {p : Pattern}
    {compile : Value → Except SchemaError Pattern} (htype : HasType obj "array")
    (hcompile : ∀ schema q, compile schema = .ok q → ∃ l, Compiles named levels (depth + 1) schema q l)
    (hok : compileArray compile obj = .ok p) : ∃ l, Compiles named (levels + 1) depth (.object obj) p l := by
  rw [compileArray] at hok
  split at hok
  · cases hok
  · next items hitems =>
    obtain ⟨item, hitem, hok⟩ := bind_eq_ok.mp hok
    obtain ⟨texts, htexts⟩ := hcompile items item hitem
    change (if (mostItems obj).any (· < leastItems obj) then Except.error SchemaError.crossedBounds
      else Except.ok (arrayRegex item (leastItems obj) (mostItems obj))) = .ok p at hok
    split at hok
    · cases hok
    · next hbounds =>
      obtain rfl := Except.ok.inj hok
      refine ⟨_, .array htype hitems htexts fun m hm => ?_⟩
      rw [hm] at hbounds
      simpa using hbounds

theorem compileType_cases {levels depth : ℕ} {obj : Fields} {ty : String} {p : Pattern}
    {compile : Value → Except SchemaError Pattern} (htype : HasType obj ty)
    (hcompile : ∀ schema q, compile schema = .ok q → ∃ l, Compiles named levels (depth + 1) schema q l)
    (hok : compileType compile depth obj ty = .ok p) :
    ∃ l, Compiles named (levels + 1) depth (.object obj) p l := by
  unfold compileType at hok
  split at hok
  · split at hok
    · next hpattern =>
      obtain rfl := Except.ok.inj hok
      exact ⟨_, .pattern htype hpattern⟩
    · next hpattern =>
      obtain rfl := Except.ok.inj hok
      exact ⟨_, .string htype hpattern⟩
  · obtain rfl := Except.ok.inj hok
    exact ⟨_, .primitive .integer htype⟩
  · obtain rfl := Except.ok.inj hok
    exact ⟨_, .primitive .number htype⟩
  · obtain rfl := Except.ok.inj hok
    exact ⟨_, .primitive .boolean htype⟩
  · obtain rfl := Except.ok.inj hok
    exact ⟨_, .primitive .null htype⟩
  · exact compileArray_cases htype hcompile hok
  · exact compileObject_cases htype hcompile hok
  · cases hok

theorem compileAt_cases {levels depth : ℕ} {schema : Value} {p : Pattern}
    (hok : compileAt levels depth schema = .ok p) : ∃ l, Compiles named levels depth schema p l := by
  induction levels generalizing depth schema p with
  | zero => cases hok
  | succ levels ih =>
    cases schema with
    | object obj =>
      rw [compileAt] at hok
      split at hok
      · cases hok
      · next hkeywords =>
        have hsupported : Supported obj := by
          intro k hk
          have habsent := List.find?_eq_none.mp hkeywords k hk
          simpa using habsent
        split at hok
        · next c hconst =>
          obtain rfl := Except.ok.inj hok
          exact ⟨_, .literal hsupported hconst⟩
        · next vals hconst henum =>
          split at hok
          · cases hok
          · next hne =>
            obtain rfl := Except.ok.inj hok
            exact ⟨_, .choice hsupported hconst henum (by simpa using hne)⟩
        · next hconst henum =>
          split at hok
          · cases hok
          · next ty htype =>
            exact compileType_cases ⟨hsupported, hconst, henum, htype⟩ (fun _ _ => ih) hok
    | _ => cases hok

theorem compile_cases {schema : Value} {p : Pattern} (hok : compile schema 0 = .ok p) :
    ∃ l, Compiles named (MAX_DEPTH + 1) 0 schema p l :=
  compileAt_cases hok

/-- An envelope pattern has one alternative for each tool. -/
theorem envelope_cases {tools : List (String × Value)} {p : Pattern}
    (hok : toolCallEnvelopeRegex tools = .ok p) :
    ∃ found : List Property, found ≠ [] ∧ found.map Property.declared = tools ∧
      p = alternatives
        (found.map fun prop => envelopeRegex (literalRegex (.string prop.key)) prop.pattern) ∧
      ∀ prop ∈ found, Compiles named (MAX_DEPTH + 1) 0 prop.schema prop.pattern prop.texts := by
  rw [toolCallEnvelopeRegex] at hok
  split at hok
  · cases hok
  · next hne =>
    obtain ⟨alts, halts, hok⟩ := bind_eq_ok.mp hok
    obtain rfl := pure_eq_ok.mp hok
    have hforall := (mapM_eq_ok.mp halts).imp fun tool alt halt => bind_eq_ok.mp halt
    simp only [pure_eq_ok] at hforall
    obtain ⟨found, rfl, rfl, hfound⟩ := compileProperties_cases
      (fun name args => envelopeRegex (literalRegex (.string name)) args)
      (fun _ _ => compile_cases) hforall
    refine ⟨found, ?_, rfl, rfl, hfound⟩
    rintro rfl
    exact hne rfl

/-! ### Patterns in a schema -/

/-- A schema inside a schema, as its items or as a property. -/
inductive Subschema : Value → Value → Prop
  | self (schema : Value) : Subschema schema schema
  | items {obj : Fields} {items schema : Value} (hitems : obj.get "items" = some items)
      (hsub : Subschema items schema) : Subschema (.object obj) schema
  | property {obj : Fields} {props : Fields} {prop : String × Value} {schema : Value}
      (hprops : obj.get "properties" = some (.object props)) (hmem : prop ∈ props)
      (hsub : Subschema prop.2 schema) : Subschema (.object obj) schema

/-- A schema without the `pattern` keyword. -/
def PatternFree (schema : Value) : Prop :=
  ∀ obj, Subschema schema (.object obj) → Fields.get obj "pattern" = none

/-- A subschema that takes part in what a schema describes. -/
inductive Reached : Value → Value → Prop
  | self (schema : Value) : Reached schema schema
  | items {obj : Fields} {items schema : Value} (htype : HasType obj "array")
      (hitems : obj.get "items" = some items) (hmost : mostItems obj ≠ some 0)
      (hsub : Reached items schema) : Reached (.object obj) schema
  | property {obj props : Fields} {prop : String × Value} {schema : Value}
      (htype : HasType obj "object") (hprops : obj.get "properties" = some (.object props))
      (hmem : prop ∈ props) (hsub : Reached prop.2 schema) : Reached (.object obj) schema

/-- Every pattern that a schema describes strings with is like this. -/
def PatternsAre (P : String → Prop) (schema : Value) : Prop :=
  ∀ obj p, Reached schema (.object obj) → HasType obj "string" →
    (Fields.get obj "pattern").bind Value.asStr = some p → P p

/-- A pattern that keeps its meaning where it is spliced in. -/
def Spliceable (named : Char → Option (Char → Bool)) (p : String) : Prop :=
  ∃ items, Reads named p.toList items

theorem Reached.subschema {schema sub : Value} (h : Reached schema sub) :
    Subschema schema sub := by
  induction h with
  | self schema => exact .self schema
  | items _ hitems _ _ ih => exact .items hitems ih
  | property _ hprops hmem _ ih => exact .property hprops hmem ih

theorem PatternFree.patternsAre {schema : Value} (hfree : PatternFree schema)
    (P : String → Prop) : PatternsAre P schema := by
  intro obj p hreached _ hp
  rw [hfree obj hreached.subschema] at hp
  cases hp

theorem PatternFree.items {obj : Fields} {items : Value} (h : PatternFree (.object obj))
    (hitems : obj.get "items" = some items) : PatternFree items :=
  fun other hsub => h other (.items hitems hsub)

theorem PatternFree.property {obj props : Fields} {prop : String × Value}
    (h : PatternFree (.object obj)) (hprops : obj.get "properties" = some (.object props))
    (hmem : prop ∈ props) : PatternFree prop.2 :=
  fun other hsub => h other (.property hprops hmem hsub)

theorem PatternsAre.items {P : String → Prop} {obj : Fields} {items : Value}
    (h : PatternsAre P (.object obj)) (htype : HasType obj "array")
    (hitems : obj.get "items" = some items) (hmost : mostItems obj ≠ some 0) :
    PatternsAre P items :=
  fun other p hsub => h other p (.items htype hitems hmost hsub)

theorem PatternsAre.property {P : String → Prop} {obj props : Fields} {prop : String × Value}
    (h : PatternsAre P (.object obj)) (htype : HasType obj "object")
    (hprops : obj.get "properties" = some (.object props)) (hmem : prop ∈ props) :
    PatternsAre P prop.2 :=
  fun other p hsub => h other p (.property htype hprops hmem hsub)

/-! ### What a compiled pattern stands for -/

theorem denotes_literal (v : Value) : Denotes named (literalRegex v) (exactly v.toJson) :=
  denotes_esc v.toJson

theorem denotes_alternatives {α : Type*} {xs : List α} {text : α → Pattern}
    {l : α → Language Char} (hne : xs ≠ []) (htexts : ∀ x ∈ xs, Denotes named (text x) (l x)) :
    Denotes named (alternatives (xs.map text)) (xs.map l).sum :=
  (denotesBranches_join hne htexts).group

theorem denotes_name (key : String) : Denotes named (nameRegex key) (nameTexts key) := by
  have hquote : Denotes named ['"'] (exactly ['"']) := denotes_plain (by decide)
  have hname := (hquote.append (denotes_esc key.toList)).append hquote
  rw [← exactly_append, ← exactly_append] at hname
  exact hname

theorem denotes_pair {name value : Pattern} {l m : Language Char} (hname : Denotes named name l)
    (hvalue : Denotes named value m) :
    Denotes named (pairRegex name value) (pairTexts l m) := by
  have hpair := (hname.append denotes_colon).append hvalue
  simpa only [pairRegex, pairTexts, List.append_assoc] using hpair

theorem denotes_spaced {body : Pattern} {l : Language Char} (h : Denotes named body l) :
    Denotes named (SP ++ body ++ SP) (space * l * space) :=
  (denotes_SP.append h).append denotes_SP

theorem denotes_anyObject {value : Pattern} {l : Language Char} (h : Denotes named value l) :
    Denotes named (anyObjectRegex value) (anyObjectTexts l) := by
  have hobject := denotes_braced (denotes_spaced (denotes_many (denotes_pair denotes_STRING h)))
  rw [← mul_assoc, ← mul_assoc] at hobject
  exact hobject

theorem denotes_anyArray {value : Pattern} {l : Language Char} (h : Denotes named value l) :
    Denotes named (bracketed (SP ++ manyRegex value ++ SP)) (arrayTexts (fun _ => True) l) := by
  have harray := denotes_bracketed (denotes_spaced (denotes_many h))
  have hclosing : closing (fun _ => True) = space := closing_of_exists trivial one_ne_zero
  rw [← mul_assoc, ← mul_assoc, ← hclosing] at harray
  rw [arrayTexts, ← hclosing]
  exact harray

/-- The alternatives of a value, put before those in `more`. -/
theorem branches_scalars {more : Pattern} {l : Language Char}
    (hmore : DenotesBranches named more l) :
    DenotesBranches named
      (STRING ++ '|' :: (NUMBER ++ '|' :: (BOOL ++ '|' :: (NULL ++ '|' :: more))))
      (stringTexts + (Json.number + (boolTexts + (exactly "null".toList + l)))) := by
  have hnull : Denotes named NULL (exactly "null".toList) := denotes_text (by decide)
  exact (((hmore.cons hnull).cons denotes_BOOL).cons denotes_NUMBER).cons denotes_STRING

theorem denotes_anyValue (depth : ℕ) : Denotes named (anyValue depth) (anyTexts depth) := by
  induction depth with
  | zero =>
    have hnull : Denotes named NULL (exactly "null".toList) := denotes_text (by decide)
    have hall := (((denotesBranches_of_denotes hnull).cons denotes_BOOL).cons denotes_NUMBER).cons
      denotes_STRING
    simpa [anyValue, anyTexts, alternatives, join, List.intercalate, add_assoc] using hall.group
  | succ depth ih =>
    have hlast := denotesBranches_of_denotes (denotes_anyObject ih)
    have hall := branches_scalars (hlast.cons (denotes_anyArray ih))
    simpa [anyValue, anyTexts, alternatives, join, List.intercalate, add_assoc] using hall.group

/-- The pattern of an object matches its properties in order. -/
theorem denotes_objectRegex (props : List Property)
    (hprops : ∀ prop ∈ props, Denotes named prop.regex prop.pair) :
    Denotes named (objectRegex (props.map Property.regex))
      (objectTexts (props.map Property.pair)) := by
  cases props with
  | nil => exact denotes_braced denotes_SP
  | cons prop props =>
    have hobject := denotes_braced (denotes_spaced (denotes_join (prop :: props) denotes_sep hprops))
    rw [← mul_assoc, ← mul_assoc] at hobject
    exact hobject

theorem Compiles.denotes {levels depth : ℕ} {schema : Value} {p : Pattern} {l : Language Char}
    (h : Compiles named levels depth schema p l)
    (hpatterns : PatternsAre (Spliceable named) schema) : Denotes named p l := by
  induction h with
  | literal => exact denotes_literal _
  | choice hsupported hconst henum hne =>
    exact denotes_alternatives hne fun v _ => denotes_literal v
  | string => exact denotes_STRING
  | @pattern levels depth obj p htype hpattern =>
    obtain ⟨items, hreads⟩ := hpatterns obj p (.self _) htype hpattern
    exact denotes_between hreads (by decide) (by decide)
  | primitive ty => exact denotes_primitive ty
  | @array _ _ obj items item texts htype hitems hitem hbounds ih =>
    by_cases hmost : mostItems obj = some 0
    · unfold FitsCompiled
      rw [hmost]
      exact denotes_noItems item texts (hbounds 0 hmost)
    · exact denotes_arrayRegex (ih (hpatterns.items htype hitems hmost)) hbounds
  | shapeless => exact denotes_anyObject (denotes_anyValue _)
  | @object levels depth obj props htype hprops hvalues ih =>
    have hpairs : ∀ prop ∈ props, Denotes named prop.regex prop.pair := by
      intro prop hmem
      refine denotes_pair (denotes_name prop.key) (ih prop hmem ?_)
      exact hpatterns.property htype hprops (List.mem_map_of_mem hmem)
    exact denotes_objectRegex props hpairs

/-- An envelope is an object with a fixed name and the arguments. -/
theorem denotes_envelope {name args : Pattern} {l m : Language Char}
    (hname : Denotes named name l) (hargs : Denotes named args m) :
    Denotes named (envelopeRegex name args)
      (objectTexts [pairTexts (nameTexts "name") l, pairTexts (nameTexts "arguments") m]) := by
  have hobject := denotes_objectRegex
    [⟨"name", .null, name, l⟩, ⟨"arguments", .null, args, m⟩]
    (List.forall_mem_cons.mpr ⟨denotes_pair (denotes_name "name") hname,
      List.forall_mem_singleton.mpr (denotes_pair (denotes_name "arguments") hargs)⟩)
  have htext : objectRegex
      [pairRegex (nameRegex "name") name, pairRegex (nameRegex "arguments") args] =
      envelopeRegex name args := by
    simp [objectRegex, envelopeRegex, pairRegex, nameRegex, join, List.intercalate, esc, isMeta,
      braced]
  rw [← htext]
  exact hobject

end

end Zllm.JsonSchema
