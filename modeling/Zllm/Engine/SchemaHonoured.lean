import Zllm.Engine.SchemaValidates

/-!
# What a schema says and the compiler does not read can be seen

A value that the compiler lets through and that a schema does not accept has a well-formed text that
the pattern matches, as every part of what is reached has some text.
-/

namespace Zllm.JsonSchema

open Zllm.Texts Zllm.Regex Zllm.Json

section

variable {named : Char → Option (Char → Bool)} {other : String → Value → Datum → Prop}

theorem any_writes (depth : ℕ) : ∃ x, Writes (anyTexts depth) x .null := by
  obtain ⟨x, hx⟩ := primitive_writes .null rfl
  refine ⟨x, ?_, hx.printable, hx.encodes⟩
  cases depth with
  | zero => exact .inr hx.mem
  | succ depth => exact .inl (.inl (.inr hx.mem))

theorem properties_write {props : List Property}
    (h : ∀ prop ∈ props, ∃ x j, Writes prop.texts x j) :
    ∃ (text : Property → List Char) (value : Property → Datum),
      ∀ prop ∈ props, Writes prop.texts (text prop) (value prop) := by
  have hsome : ∀ prop : Property, ∃ x j, prop ∈ props → Writes prop.texts x j := by
    intro prop
    by_cases hmem : prop ∈ props
    · obtain ⟨x, j, hx⟩ := h prop hmem
      exact ⟨x, j, fun _ => hx⟩
    · exact ⟨[], .null, fun hprop => absurd hprop hmem⟩
  choose text value hwrites using hsome
  exact ⟨text, value, hwrites⟩

/-- A schema that has some text has a well-formed one. -/
theorem Compiles.writes {levels depth : ℕ} {schema : Value} {p : Pattern} {l : Language Char}
    (h : Compiles named levels depth schema p l)
    (hquoted : QuotedAre named Printed Verbatim depth schema)
    (htext : HasText named Printed schema) : ∃ x j, Writes l x j := by
  induction h with
  | @literal _ _ _ c => exact ⟨_, _, literal_writes c⟩
  | @choice _ _ _ vals _ _ _ hne =>
    obtain ⟨v, vals, rfl⟩ := List.exists_cons_of_ne_nil hne
    obtain ⟨hmem, hprintable, hencodes⟩ := literal_writes v
    exact ⟨_, _, sum_map_mem.mpr ⟨v, List.mem_cons_self, hmem⟩, hprintable, hencodes⟩
  | string =>
    have hnil : Verbatim [] := nofun
    exact ⟨_, _, quoted_writes (verbatim_mem hnil) nofun hnil⟩
  | @pattern _ _ obj p htype hpattern =>
    obtain ⟨w, hw, hprintable⟩ := htext.matched htype hpattern
    have hverbatim : Verbatim w :=
      hquoted.matches_are _ obj p (.self htext) htype hpattern w hw hprintable
    exact ⟨_, _, quoted_writes hw hprintable hverbatim⟩
  | primitive ty =>
    obtain ⟨j, hj⟩ : ∃ j, ty.Has j := by
      cases ty with
      | integer => exact ⟨_, 0, rfl⟩
      | number => exact ⟨_, _, integer_le_number (natural_mem 0).1, rfl⟩
      | boolean => exact ⟨_, false, rfl⟩
      | null => exact ⟨_, rfl⟩
    obtain ⟨x, hx⟩ := primitive_writes ty hj
    exact ⟨x, j, hx⟩
  | @array _ _ obj items _ _ htype hitems _ hbounds ih =>
    by_cases hempty : leastItems obj = 0
    · exact ⟨_, _, emptyArray_writes ⟨hempty.le, fun m _ => Nat.zero_le m⟩⟩
    · have hmost : mostItems obj ≠ some 0 := fun hmost =>
        hempty (Nat.le_zero.mp (hbounds 0 hmost))
      obtain ⟨x, j, hx⟩ := ih (hquoted.items htype hitems hmost)
        ((htext.itemText htype hitems).resolve_left hempty)
      exact ⟨_, _, array_writes ⟨le_rfl, hbounds⟩ hx⟩
  | @shapeless _ depth =>
    obtain ⟨x, hx⟩ := any_writes (shapelessDepth depth)
    have hnone : ∀ key ∈ ([] : List String), Verbatim key.toList ∧ Printable key.toList := nofun
    exact ⟨_, _, shapeless_writes (fun key hkey => (hnone key hkey).1)
      (fun key hkey => (hnone key hkey).2) hx⟩
  | @object _ _ obj props htype hprops _ ih =>
    have hdeclared : ∀ prop ∈ props, prop.declared ∈ props.map Property.declared :=
      fun prop hmem => List.mem_map_of_mem hmem
    have htexts := htext.propertyText htype hprops
    obtain ⟨text, value, hwrites⟩ := properties_write fun prop hmem =>
      ih prop hmem (hquoted.property htype hprops (hdeclared prop hmem) htext)
        (htexts _ (hdeclared prop hmem)).2
    exact ⟨_, _, declared_writes
      (fun prop hmem => hquoted.names _ obj _ (.self htext) htype hprops _ (hdeclared prop hmem))
      (fun prop hmem => (htexts _ (hdeclared prop hmem)).1) hwrites⟩

/-! ### From texts back to the schema -/

/-- A schema that is neither an array's nor an object's is all that it reaches. -/
theorem Honoured.alone {obj : Fields} {depth : ℕ} (h : Honoured named other depth obj)
    (harray : ¬ HasType obj "array") (hobject : ¬ HasType obj "object") :
    Honours named other depth (.object obj) := by
  intro below obj' hreached
  obtain ⟨rfl, rfl⟩ := hreached.eq_self harray hobject
  exact h

end

section

variable {named : Char → Option (Char → Bool)}

end

end Zllm.JsonSchema
