import Zllm.Engine.SchemaCompiles

/-!
# What the texts of a schema reach

A pattern may match nothing between its quotes: one with `^` never does. An object with such a
property has no text, and its other properties play no part. So what a schema puts between quotes
matters where all that stands around it has some text.
-/

namespace Zllm.JsonSchema

open Zllm.Texts Zllm.Regex

section

variable (named : Char → Option (Char → Bool)) (ok : Char → Prop)

/-- A schema has a text whose names and whose patterns' matches have such characters only. -/
inductive HasText : Value → Prop
  | literal {obj : Fields} {c : Value} (hconst : obj.get "const" = some c) : HasText (.object obj)
  | choice {obj : Fields} {vals : List Value} (henum : obj.get "enum" = some (.array vals)) :
      HasText (.object obj)
  | string {obj : Fields} (htype : HasType obj "string")
      (hpattern : (obj.get "pattern").bind Value.asStr = none) : HasText (.object obj)
  | pattern {obj : Fields} {p : String} {w : List Char} (htype : HasType obj "string")
      (hpattern : (obj.get "pattern").bind Value.asStr = some p) (hw : w ∈ insideQuotes named p)
      (hok : ∀ c ∈ w, ok c) : HasText (.object obj)
  | primitive {obj : Fields} (ty : Primitive) (htype : HasType obj ty.typeName) :
      HasText (.object obj)
  | noItems {obj : Fields} (htype : HasType obj "array") (hleast : leastItems obj = 0) :
      HasText (.object obj)
  | array {obj : Fields} {items : Value} (htype : HasType obj "array")
      (hitems : obj.get "items" = some items) (htext : HasText items) : HasText (.object obj)
  | shapeless {obj : Fields} (htype : HasType obj "object")
      (hprops : ∀ props, obj.get "properties" ≠ some (.object props)) : HasText (.object obj)
  | object {obj props : Fields} (htype : HasType obj "object")
      (hprops : obj.get "properties" = some (.object props))
      (hnames : ∀ prop ∈ props, ∀ c ∈ prop.1.toList, ok c)
      (hvalues : ∀ prop ∈ props, HasText prop.2) : HasText (.object obj)

/-- A subschema that takes part in some text of a schema at some depth, and its depth. -/
inductive ReachedAt : ℕ → Value → ℕ → Value → Prop
  | self {depth : ℕ} {schema : Value} (htext : HasText named ok schema) :
      ReachedAt depth schema depth schema
  | items {depth below : ℕ} {obj : Fields} {items schema : Value} (htype : HasType obj "array")
      (hitems : obj.get "items" = some items) (hmost : mostItems obj ≠ some 0)
      (hsub : ReachedAt (depth + 1) items below schema) :
      ReachedAt depth (.object obj) below schema
  | property {depth below : ℕ} {obj props : Fields} {prop : String × Value} {schema : Value}
      (htype : HasType obj "object") (hprops : obj.get "properties" = some (.object props))
      (hmem : prop ∈ props) (htext : HasText named ok (.object obj))
      (hsub : ReachedAt (depth + 1) prop.2 below schema) :
      ReachedAt depth (.object obj) below schema

/-- The declared names and the patterns' matches in the texts of a schema are like this. -/
structure QuotedAre (P : List Char → Prop) (depth : ℕ) (schema : Value) : Prop where
  names : ∀ below obj props, ReachedAt named ok depth schema below (.object obj) →
    HasType obj "object" → Fields.get obj "properties" = some (.object props) →
      ∀ prop ∈ props, P prop.1.toList
  matches_are : ∀ below obj p, ReachedAt named ok depth schema below (.object obj) →
    HasType obj "string" → (Fields.get obj "pattern").bind Value.asStr = some p →
      ∀ w ∈ insideQuotes named p, (∀ c ∈ w, ok c) → P w

end

section

variable {named : Char → Option (Char → Bool)} {ok : Char → Prop} {P : List Char → Prop}
  {depth : ℕ}

theorem ReachedAt.reached {below : ℕ} {schema sub : Value}
    (h : ReachedAt named ok depth schema below sub) : Reached schema sub := by
  induction h with
  | self => exact .self _
  | items htype hitems hmost _ ih => exact .items htype hitems hmost ih
  | property htype hprops hmem _ _ ih => exact .property htype hprops hmem ih

/-- An object that takes part in a text has some text. -/
theorem ReachedAt.hasText {below : ℕ} {obj : Fields} {sub : Value}
    (h : ReachedAt named ok depth (.object obj) below sub) (htype : HasType obj "object") :
    HasText named ok (.object obj) := by
  cases h with
  | self htext => exact htext
  | items htype' => exact absurd (htype.unique htype') (by decide)
  | property _ _ _ htext => exact htext

/-- A schema that is neither an array's nor an object's reaches itself alone. -/
theorem ReachedAt.eq_self {below : ℕ} {obj obj' : Fields}
    (h : ReachedAt named ok depth (.object obj) below (.object obj'))
    (harray : ¬ HasType obj "array") (hobject : ¬ HasType obj "object") :
    below = depth ∧ obj' = obj := by
  cases h with
  | self => exact ⟨rfl, rfl⟩
  | items htype => exact absurd htype harray
  | property htype => exact absurd htype hobject

theorem QuotedAre.items {obj : Fields} {items : Value}
    (h : QuotedAre named ok P depth (.object obj)) (htype : HasType obj "array")
    (hitems : obj.get "items" = some items) (hmost : mostItems obj ≠ some 0) :
    QuotedAre named ok P (depth + 1) items :=
  ⟨fun below other props hsub => h.names below other props (.items htype hitems hmost hsub),
    fun below other p hsub => h.matches_are below other p (.items htype hitems hmost hsub)⟩

theorem QuotedAre.property {obj props : Fields} {prop : String × Value}
    (h : QuotedAre named ok P depth (.object obj)) (htype : HasType obj "object")
    (hprops : obj.get "properties" = some (.object props)) (hmem : prop ∈ props)
    (htext : HasText named ok (.object obj)) : QuotedAre named ok P (depth + 1) prop.2 :=
  ⟨fun below other others hsub =>
      h.names below other others (.property htype hprops hmem htext hsub),
    fun below other p hsub => h.matches_are below other p (.property htype hprops hmem htext hsub)⟩

section Weaken

variable {ok' : Char → Prop} (hok : ∀ c, ok c → ok' c)

include hok

theorem HasText.weaken {schema : Value} (h : HasText named ok schema) :
    HasText named ok' schema := by
  induction h with
  | literal hconst => exact .literal hconst
  | choice henum => exact .choice henum
  | string htype hpattern => exact .string htype hpattern
  | pattern htype hpattern hw hchars =>
    exact .pattern htype hpattern hw fun c hc => hok c (hchars c hc)
  | primitive ty htype => exact .primitive ty htype
  | noItems htype hleast => exact .noItems htype hleast
  | array htype hitems _ ih => exact .array htype hitems ih
  | shapeless htype hprops => exact .shapeless htype hprops
  | object htype hprops hnames _ ih =>
    exact .object htype hprops (fun prop hmem c hc => hok c (hnames prop hmem c hc)) ih

theorem ReachedAt.weaken {below : ℕ} {schema sub : Value}
    (h : ReachedAt named ok depth schema below sub) :
    ReachedAt named ok' depth schema below sub := by
  induction h with
  | self htext => exact .self (htext.weaken hok)
  | items htype hitems hmost _ ih => exact .items htype hitems hmost ih
  | property htype hprops hmem htext _ ih =>
    exact .property htype hprops hmem (htext.weaken hok) ih

theorem QuotedAre.weaken {schema : Value} (h : QuotedAre named ok' P depth schema) :
    QuotedAre named ok P depth schema :=
  ⟨fun below obj props hreached => h.names below obj props (hreached.weaken hok),
    fun below obj p hreached htype hp w hw hchars =>
      h.matches_are below obj p (hreached.weaken hok) htype hp w hw fun c hc =>
        hok c (hchars c hc)⟩

end Weaken

theorem QuotedAre.mono {Q : List Char → Prop} {schema : Value}
    (h : QuotedAre named ok P depth schema) (hPQ : ∀ w, P w → Q w) :
    QuotedAre named ok Q depth schema :=
  ⟨fun below obj props hreached htype hprops prop hmem =>
      hPQ _ (h.names below obj props hreached htype hprops prop hmem),
    fun below obj p hreached htype hp w hw hok =>
      hPQ w (h.matches_are below obj p hreached htype hp w hw hok)⟩

/-! ### What a text of a schema has in it -/

theorem arrayTexts_item {fits : ℕ → Prop} {item : Language Char} {x : List Char}
    (hx : x ∈ arrayTexts fits item) : ∃ n, fits n ∧ (n = 0 ∨ ∃ u ∈ item, u ⊆ x) := by
  obtain ⟨_, hclosing, _, rfl, rfl⟩ := Language.mem_mul.mp hx
  obtain ⟨_, hmembers, closed, -, rfl⟩ := Language.mem_mul.mp hclosing
  obtain ⟨opened, -, w, ⟨n, hfits, hw⟩, rfl⟩ := Language.mem_mul.mp hmembers
  refine ⟨n, hfits, ?_⟩
  rw [or_iff_not_imp_left]
  intro hne
  obtain ⟨u, hu, hsub⟩ := exists_subset_of_separated hw item
    (List.mem_replicate.mpr ⟨hne, rfl⟩)
  refine ⟨u, hu, fun c hc => ?_⟩
  simp [hsub hc]

theorem objectTexts_pair {pairs : List (Language Char)} {x : List Char}
    (hx : x ∈ objectTexts pairs) : ∀ pair ∈ pairs, ∃ u ∈ pair, u ⊆ x := by
  cases pairs with
  | nil => exact fun pair hpair => absurd hpair List.not_mem_nil
  | cons first rest =>
    obtain ⟨_, hclosing, _, rfl, rfl⟩ := Language.mem_mul.mp hx
    obtain ⟨_, hpairs, closed, -, rfl⟩ := Language.mem_mul.mp hclosing
    obtain ⟨opened, -, w, hw, rfl⟩ := Language.mem_mul.mp hpairs
    intro pair hpair
    obtain ⟨u, hu, hsub⟩ := exists_subset_of_separated hw pair hpair
    refine ⟨u, hu, fun c hc => ?_⟩
    simp [hsub hc]

theorem quoted_body {l : Language Char} {x : List Char} (hx : x ∈ quoted l) :
    ∃ body ∈ l, body ⊆ x := by
  obtain ⟨_, hopen, _, rfl, rfl⟩ := Language.mem_mul.mp hx
  obtain ⟨_, rfl, body, hbody, rfl⟩ := Language.mem_mul.mp hopen
  exact ⟨body, hbody, fun c hc => by simp [hc]⟩

/-- A schema with a text of such characters is one that has some. -/
theorem Compiles.hasText {levels : ℕ} {schema : Value} {p : Pattern} {l : Language Char}
    (h : Compiles named levels depth schema p l) {x : List Char} (hx : x ∈ l)
    (hok : ∀ c ∈ x, ok c) : HasText named ok schema := by
  induction h generalizing x with
  | literal _ hconst => exact .literal hconst
  | choice _ _ henum => exact .choice henum
  | string htype hpattern => exact .string htype hpattern
  | pattern htype hpattern =>
    obtain ⟨body, hbody, hsub⟩ := quoted_body hx
    exact .pattern htype hpattern hbody fun c hc => hok c (hsub hc)
  | primitive ty htype => exact .primitive ty htype
  | array htype hitems _ _ ih =>
    obtain ⟨n, hfits, rfl | ⟨u, hu, hsub⟩⟩ := arrayTexts_item hx
    · exact .noItems htype (Nat.le_zero.mp hfits.1)
    · exact .array htype hitems (ih hu fun c hc => hok c (hsub hc))
  | shapeless htype hprops => exact .shapeless htype hprops
  | @object _ _ obj props htype hprops _ ih =>
    have hpair : ∀ prop ∈ props, (∀ c ∈ prop.key.toList, ok c) ∧ HasText named ok prop.schema := by
      intro prop hmem
      obtain ⟨_, hu, hsub⟩ := objectTexts_pair hx _ (List.mem_map_of_mem hmem)
      obtain ⟨_, hname, value, hvalue, rfl⟩ := Language.mem_mul.mp hu
      obtain ⟨_, rfl, gap, -, rfl⟩ := Language.mem_mul.mp hname
      constructor
      · exact fun c hc => hok c (hsub (by simp [hc]))
      · exact ih prop hmem hvalue fun c hc => hok c (hsub (by simp [hc]))
    refine .object htype hprops ?_ ?_
    · exact List.forall_mem_map.mpr fun prop hmem => (hpair prop hmem).1
    · exact List.forall_mem_map.mpr fun prop hmem => (hpair prop hmem).2

/-! ### What a schema with a text is made of -/

section

variable {obj : Fields} (h : HasText named ok (.object obj))

include h

theorem HasText.matched (htype : HasType obj "string") {p : String}
    (hpattern : (obj.get "pattern").bind Value.asStr = some p) :
    ∃ w ∈ insideQuotes named p, ∀ c ∈ w, ok c := by
  cases h with
  | literal hconst => exact absurd (htype.noConst.symm.trans hconst) nofun
  | choice henum => exact absurd henum (htype.noEnum _)
  | string _ hnone => exact absurd (hpattern.symm.trans hnone) nofun
  | pattern _ hother hw hok =>
    obtain rfl := Option.some.inj (hpattern.symm.trans hother)
    exact ⟨_, hw, hok⟩
  | primitive ty htype' => exact absurd (htype.unique htype') (by cases ty <;> decide)
  | noItems htype' => exact absurd (htype.unique htype') (by decide)
  | array htype' => exact absurd (htype.unique htype') (by decide)
  | shapeless htype' => exact absurd (htype.unique htype') (by decide)
  | object htype' => exact absurd (htype.unique htype') (by decide)

theorem HasText.itemText (htype : HasType obj "array") {items : Value}
    (hitems : obj.get "items" = some items) : leastItems obj = 0 ∨ HasText named ok items := by
  cases h with
  | literal hconst => exact absurd (htype.noConst.symm.trans hconst) nofun
  | choice henum => exact absurd henum (htype.noEnum _)
  | string htype' => exact absurd (htype.unique htype') (by decide)
  | pattern htype' => exact absurd (htype.unique htype') (by decide)
  | primitive ty htype' => exact absurd (htype.unique htype') (by cases ty <;> decide)
  | noItems _ hleast => exact .inl hleast
  | array _ hother htext =>
    obtain rfl := Option.some.inj (hitems.symm.trans hother)
    exact .inr htext
  | shapeless htype' => exact absurd (htype.unique htype') (by decide)
  | object htype' => exact absurd (htype.unique htype') (by decide)

theorem HasText.propertyText (htype : HasType obj "object") {props : Fields}
    (hprops : obj.get "properties" = some (.object props)) :
    ∀ prop ∈ props, (∀ c ∈ prop.1.toList, ok c) ∧ HasText named ok prop.2 := by
  cases h with
  | literal hconst => exact absurd (htype.noConst.symm.trans hconst) nofun
  | choice henum => exact absurd henum (htype.noEnum _)
  | string htype' => exact absurd (htype.unique htype') (by decide)
  | pattern htype' => exact absurd (htype.unique htype') (by decide)
  | primitive ty htype' => exact absurd (htype.unique htype') (by cases ty <;> decide)
  | noItems htype' => exact absurd (htype.unique htype') (by decide)
  | array htype' => exact absurd (htype.unique htype') (by decide)
  | shapeless _ hnone => exact absurd hprops (hnone props)
  | object _ hother hnames hvalues =>
    obtain rfl := Value.object.inj (Option.some.inj (hprops.symm.trans hother))
    exact fun prop hmem => ⟨hnames prop hmem, hvalues prop hmem⟩

end

end

end Zllm.JsonSchema
