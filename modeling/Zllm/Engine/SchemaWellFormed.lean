import Zllm.Engine.SchemaExact
import Zllm.Engine.SchemaReached

/-!
# Schema grammars and well-formed JSON

What a compiled schema matches is JSON but for control characters: a string may hold them as they
are. So a matched text is well formed exactly if it has none, for schemas whose names can stand
between quotes and whose patterns keep their meaning there, and for the grammar of any value.
-/

namespace Zllm.JsonSchema

open Zllm.Texts Zllm.Regex Zllm.Json

/-! ### Loose texts -/

/-- A text that can stand between quotes as it is: no quote, and every backslash begins an
escape. -/
def Quotable (w : List Char) : Prop := ∃ us, StringBody loose w us

theorem Compiles.encodes {named : Char → Option (Char → Bool)} {ok : Char → Prop}
    {levels depth : ℕ} {schema : Value} {p : Pattern} {l : Language Char}
    (h : Compiles named levels depth schema p l)
    (hquoted : QuotedAre named ok Quotable depth schema) :
    ∀ x ∈ l, (∀ c ∈ x, ok c) → ∃ j, Encodes loose x j := by
  induction h with
  | @literal _ _ _ c =>
    rintro x rfl -
    exact ⟨_, c.toJson_encodes.mono (compact_loose _)⟩
  | choice =>
    intro x hx _
    obtain ⟨v, -, rfl⟩ := sum_map_mem.mp hx
    exact ⟨_, v.toJson_encodes.mono (compact_loose _)⟩
  | string =>
    intro x hx _
    obtain ⟨us, hus⟩ := string_encodes hx
    exact ⟨_, hus⟩
  | @pattern levels depth obj p htype hpattern =>
    intro x hx hok
    have hcompiles : Compiles named (levels + 1) depth (.object obj) _ _ := .pattern htype hpattern
    have htext := hcompiles.hasText hx hok
    obtain ⟨_, hopen, _, rfl, rfl⟩ := Language.mem_mul.mp hx
    obtain ⟨_, rfl, body, hbody, rfl⟩ := Language.mem_mul.mp hopen
    have hbodyOk : ∀ c ∈ body, ok c := fun c hc => hok c (by simp [hc])
    obtain ⟨us, hus⟩ :=
      hquoted.matches_are _ obj p (.self htext) htype hpattern body hbody hbodyOk
    exact ⟨_, .string hus⟩
  | primitive ty => exact fun x hx _ => primitive_encodes ty hx
  | array htype hitems _ _ ih =>
    intro x hx hok
    obtain ⟨items, hall, -⟩ := array_encodes_texts (V := fun _ => True)
      (fun n hfits hne y hy hsub => (ih (hquoted.items htype hitems (hfits.most_ne hne)) y hy
        fun c hc => hok c (hsub hc)).imp fun j hj => ⟨hj, trivial⟩) hx
    exact ⟨_, hall⟩
  | shapeless =>
    intro x hx _
    obtain ⟨entries, hentries, -⟩ := anyObject_encodes (V := fun _ => True)
      (fun y hy _ => (any_encodes _ hy).imp fun j hj => ⟨hj, trivial⟩) hx
    exact ⟨_, hentries⟩
  | @object levels depth obj props htype hprops hvalues ih =>
    intro x hx hok
    have htext : HasText named ok (.object obj) :=
      (Compiles.object htype hprops hvalues).hasText hx hok
    have hpairs : props.map Property.pair =
        props.map fun prop => pairTexts (quoted (exactly prop.key.toList)) prop.texts :=
      List.map_congr_left fun prop _ => congrArg (pairTexts · prop.texts) (nameTexts_eq prop.key)
    rw [hpairs] at hx
    have hdeclared : ∀ prop ∈ props, prop.declared ∈ props.map Property.declared :=
      fun prop hmem => List.mem_map_of_mem hmem
    obtain ⟨entries, hentries, -⟩ := object_encodes_texts (V := fun _ _ _ => True)
      (fun prop hmem k hk => by
        rw [mem_exactly.mp hk]
        exact hquoted.names _ obj _ (.self htext) htype hprops _ (hdeclared prop hmem))
      (fun prop hmem _ _ t ht hsub =>
        (ih prop hmem (hquoted.property htype hprops (hdeclared prop hmem) htext) t ht
          fun c hc => hok c (hsub hc)).imp fun j hj => ⟨hj, trivial⟩) hx
    exact ⟨_, hentries⟩

section

variable {named : Char → Option (Char → Bool)} {ok : Char → Prop} {obj : Fields}

theorem mem_quoted {body : List Char} {l : Language Char} (hbody : body ∈ l) :
    '"' :: (body ++ ['"']) ∈ quoted l :=
  Language.append_mem_mul (Language.append_mem_mul (mem_exactly.mpr (Eq.refl ['"'])) hbody) rfl

theorem emptyArray_mem {fits : ℕ → Prop} {item : Language Char} (hfits : fits 0) :
    ['[', ']'] ∈ arrayTexts fits item := by
  have hopen : ['['] ++ [] ++ [] ++ [] ++ [']'] ∈ arrayTexts fits item :=
    Language.append_mem_mul (Language.append_mem_mul (Language.append_mem_mul
      (Language.append_mem_mul rfl (.inl rfl)) ⟨0, hfits, rfl⟩) (.inl rfl)) rfl
  exact hopen

end

end Zllm.JsonSchema
