import Zllm.Engine.SchemaLanguage

/-!
# When a pattern is exact

A text of a schema can be taken apart in one way only: where a value ends, a separator or a bracket
goes on. So two schemas of one shape that have the same texts have the same texts member by member,
and a bound that the compiler does not read makes a difference that can be seen.
-/

namespace Zllm.JsonSchema

open Zllm.Texts Zllm.Regex Zllm.Json

/-- A character that a value can start with. -/
def StartsValue (c : Char) : Prop := ∃ j, Starts j c

/-- Texts that start as values do and that end where a separator or a bracket goes on. -/
structure Settled (l : Language Char) : Prop where
  starts : ∀ x ∈ l, ∃ c rest, x = c :: rest ∧ StartsValue c
  ends : ∀ x ∈ l, ∀ y ∈ l, ∀ r r', Delimited r → Delimited r' → x ++ r = y ++ r' → x = y

theorem Settled.solid {l : Language Char} (h : Settled l) {x : List Char} (hx : x ∈ l) :
    Solid x := by
  obtain ⟨c, rest, rfl, j, hc⟩ := h.starts x hx
  exact ⟨c, rest, rfl, hc.solid⟩

theorem settled_of_encodes {l : Language Char} (h : ∀ x ∈ l, ∃ j, Encodes loose x j) :
    Settled l := by
  constructor
  · intro x hx
    obtain ⟨j, hj⟩ := h x hx
    obtain ⟨c, rest, rfl, hc⟩ := hj.head
    exact ⟨c, rest, rfl, j, hc⟩
  · intro x hx y hy r r' hr hr' heq
    obtain ⟨j, hj⟩ := h x hx
    obtain ⟨j', hj'⟩ := h y hy
    exact (hj.unique y j' r r' hj' hr hr' heq).1

/-! ### Arrays -/

section

variable {item : Language Char}

/-- A part whose text is an item. -/
def IsItem (item : Language Char) (p : Part) : Prop :=
  p.text ∈ item ∧ p.value = valueOf p.text ∧ p.Spaced loose

theorem item_opens (hitem : Settled item) {p : Part} (hp : IsItem item p) :
    ∃ before c rest, Blanks loose before ∧ c ∉ [' ', '\t', '\n', '\r'] ∧ c ≠ ']' ∧
      p.chars = before ++ c :: rest := by
  obtain ⟨c, rest, htext, j, hc⟩ := hitem.starts p.text hp.1
  refine ⟨p.before, c, rest ++ p.after, hp.2.2.before, hc.solid, hc.ne_close, ?_⟩
  rw [Part.chars, htext, List.cons_append]

theorem item_split (hitem : Settled item) {p p' : Part} (hp : IsItem item p)
    (hp' : IsItem item p') {c c' : Char} {r r' : List Char} (hc : EndsPart c) (hc' : EndsPart c')
    (heq : p.chars ++ c :: r = p'.chars ++ c' :: r') : p = p' ∧ c = c' ∧ r = r' ∧ True := by
  obtain ⟨hbefore, htext, hafter, hlast, hrest, -⟩ := Part.split hp.2.2 hp'.2.2 (hitem.solid hp.1)
    (hitem.solid hp'.1) hc hc' (hitem.ends p.text hp.1 p'.text hp'.1) heq
  have hvalue : p.value = p'.value := by rw [hp.2.1, hp'.2.1, htext]
  refine ⟨?_, hlast, hrest, trivial⟩
  cases p
  cases p'
  simp_all

/-- The text between brackets has one sequence of parts. -/
theorem parts_unique (hitem : Settled item) {parts parts' : List Part}
    (hparts : ∀ p ∈ parts, IsItem item p) (hparts' : ∀ p ∈ parts', IsItem item p)
    (hne : parts ≠ []) (hne' : parts' ≠ []) {r r' : List Char}
    (heq : joined (parts.map Part.chars) ++ ']' :: r = joined (parts'.map Part.chars) ++ ']' :: r') :
    parts = parts' ∧ r = r' := by
  obtain ⟨hsame, hrest, -⟩ := joined_unique (Q := fun _ => True) endsPart_bracket (by decide) hne
    hne' (fun p hp p' hp' c c' s s' hc hc' heq =>
      item_split hitem (hparts p hp) (hparts' p' hp') hc hc' heq) heq
  exact ⟨hsame, hrest⟩

theorem settled_array (hitem : Settled item) (fits : ℕ → Prop) : Settled (arrayTexts fits item) := by
  constructor
  · intro x hx
    rcases array_parts hx with ⟨-, gap, -, rfl⟩ | ⟨parts, -, -, -, rfl⟩
    · exact ⟨'[', _, rfl, .array [], rfl⟩
    · exact ⟨'[', _, rfl, .array [], rfl⟩
  · intro x hx y hy r r' hr hr' heq
    rcases array_parts hx with ⟨-, gap, hgap, rfl⟩ | ⟨parts, hne, -, hparts, rfl⟩ <;>
      rcases array_parts hy with ⟨-, gap', hgap', rfl⟩ | ⟨parts', hne', -, hparts', rfl⟩ <;>
      simp only [List.cons_append, List.append_assoc, List.nil_append] at heq
    · obtain ⟨rfl, -, -⟩ := blanks_unique hgap hgap' ⟨']', _, rfl, by decide⟩
        ⟨']', _, rfl, by decide⟩ (List.cons.inj heq).2
      rfl
    · exact absurd (List.cons.inj heq).2 (joined_ne_close hgap endsPart_bracket hne'
        fun p hp => item_opens hitem (hparts' p hp))
    · exact absurd (List.cons.inj heq).2.symm (joined_ne_close hgap' endsPart_bracket hne
        fun p hp => item_opens hitem (hparts p hp))
    · obtain ⟨rfl, -⟩ := parts_unique hitem hparts hparts' hne hne' (List.cons.inj heq).2
      rfl

end

/-! ### Objects -/

/-- A member with a name as it was declared and a value of a language. -/
def IsMember (key : String) (value : Language Char) (m : Member) : Prop :=
  m.key ∈ exactly key.toList ∧ m.part.text ∈ value ∧ m.name = nameOf m.key ∧
    m.part.value = valueOf m.part.text ∧ m.Spaced loose

/-- Members with one name whose values cannot be read in two ways cannot be either. -/
theorem member_split {key : String} {value value' : Language Char} (hvalue : Settled value)
    (hle : value' ≤ value) {m m' : Member} (hm : IsMember key value m)
    (hm' : IsMember key value' m') {c c' : Char} {r r' : List Char} (hc : EndsPart c)
    (hc' : EndsPart c') (heq : m.chars ++ c :: r = m'.chars ++ c' :: r') :
    r = r' ∧ m.chars = m'.chars ∧ m.part.text = m'.part.text := by
  obtain ⟨hkey, htext, -, -, hspaced⟩ := hm
  obtain ⟨hkey', htext', -, -, hspaced'⟩ := hm'
  have hkeys : m.key = m'.key := (mem_exactly.mp hkey).trans (mem_exactly.mp hkey').symm
  simp only [Member.chars, List.append_assoc, List.cons_append] at heq
  obtain ⟨hbefore, hquote, -⟩ := blanks_unique hspaced.before hspaced'.before
    ⟨'"', _, rfl, by decide⟩ ⟨'"', _, rfl, by decide⟩ heq
  rw [hkeys] at hquote
  have hcolon := List.append_cancel_left (List.cons.inj hquote).2
  obtain ⟨hgap, hpart, -⟩ := blanks_unique hspaced.gap hspaced'.gap
    ⟨':', _, rfl, by decide⟩ ⟨':', _, rfl, by decide⟩ (List.cons.inj hcolon).2
  obtain ⟨hstart, hsame, hend, -, hrest, -⟩ := Part.split hspaced.part hspaced'.part
    (hvalue.solid htext) (hvalue.solid (hle htext')) hc hc'
    (hvalue.ends _ htext _ (hle htext')) (List.cons.inj hpart).2
  refine ⟨hrest, ?_, hsame⟩
  simp only [Member.chars, Part.chars, hbefore, hkeys, hgap, hstart, hsame, hend]

theorem forall₂_compose {α β γ : Type*} {R : α → γ → Prop} {S : β → γ → Prop} {xs : List α}
    {ys : List β} {zs : List γ} (h : List.Forall₂ R xs zs) (h' : List.Forall₂ S ys zs) :
    List.Forall₂ (fun x y => ∃ z ∈ zs, R x z ∧ S y z) xs ys := by
  induction h generalizing ys with
  | nil =>
    cases h'
    exact .nil
  | cons hhead _ ih =>
    cases h' with
    | cons hhead' htail' =>
      refine .cons ⟨_, List.mem_cons_self, hhead, hhead'⟩ ((ih htail').imp ?_)
      rintro x y ⟨z, hz, hR, hS⟩
      exact ⟨z, List.mem_cons_of_mem _ hz, hR, hS⟩

theorem settled_object (props : List (String × Language Char))
    (hprops : ∀ prop ∈ props, Settled prop.2) :
    Settled (objectTexts (props.map fun prop => pairTexts (nameTexts prop.1) prop.2)) := by
  simp only [nameTexts_eq]
  constructor
  · intro x hx
    rcases object_members hx with ⟨-, gap, -, rfl⟩ | ⟨members, -, -, rfl⟩
    · exact ⟨'\x7b', _, rfl, .object [], rfl⟩
    · exact ⟨'\x7b', _, rfl, .object [], rfl⟩
  · intro x hx y hy r r' hr hr' heq
    rcases object_members hx with ⟨hnil, gap, hgap, rfl⟩ | ⟨members, hne, hmembers, rfl⟩ <;>
      rcases object_members hy with ⟨hnil', gap', hgap', rfl⟩ | ⟨members', hne', hmembers', rfl⟩ <;>
      simp only [List.cons_append, List.append_assoc, List.nil_append] at heq
    · obtain ⟨rfl, -, -⟩ := blanks_unique hgap hgap' ⟨'\x7d', _, rfl, by decide⟩
        ⟨'\x7d', _, rfl, by decide⟩ (List.cons.inj heq).2
      rfl
    · exact absurd hnil hne'
    · exact absurd hnil' hne
    · obtain ⟨hjoined, -⟩ := joined_aligned (Q := fun _ _ => True) endsPart_brace
        (forall₂_compose hmembers hmembers') (fun m m' ⟨prop, hprop, hm, hm'⟩ c c' s s' hc hc' h =>
          let ⟨hrest, hchars, _⟩ := member_split (hprops prop hprop) le_rfl hm hm' hc hc' h
          ⟨hrest, hchars, trivial⟩) (List.cons.inj heq).2
      rw [hjoined]

/-! ### Texts of an array and of an object -/

theorem joined_mem {texts : List (List Char)} {ls : List (Language Char)}
    (h : List.Forall₂ (fun text l => text ∈ l) texts ls) : joined texts ∈ separated comma ls := by
  induction h with
  | nil => rfl
  | @cons text l texts ls hhead htail ih =>
    cases htail with
    | nil =>
      rw [joined_singleton]
      exact hhead
    | @cons next l' texts ls hnext hrest =>
      have hcomma : [','] ∈ comma := ⟨[','], ⟨[], .inl rfl, [','], rfl, rfl⟩, [], .inl rfl, rfl⟩
      rw [joined_cons_cons, List.append_cons]
      exact Language.append_mem_mul (Language.append_mem_mul hhead hcomma) ih

/-- The array of one item, a number of times. -/
def arrayOf (n : ℕ) (x : List Char) : List Char := '[' :: (joined (List.replicate n x) ++ [']'])

theorem arrayOf_mem {fits : ℕ → Prop} {item : Language Char} {n : ℕ} {x : List Char}
    (hfits : fits n) (hx : x ∈ item) : arrayOf n x ∈ arrayTexts fits item := by
  have htexts : List.Forall₂ (fun text l => text ∈ l) (List.replicate n x)
      (List.replicate n item) := by
    clear hfits
    induction n with
    | zero => exact .nil
    | succ n ih => exact .cons hx ih
  have hopen : ['['] ++ [] ++ joined (List.replicate n x) ++ [] ++ [']'] ∈ arrayTexts fits item :=
    Language.append_mem_mul (Language.append_mem_mul (Language.append_mem_mul
      (Language.append_mem_mul rfl (.inl rfl)) ⟨n, hfits, joined_mem htexts⟩) (.inl rfl)) rfl
  simpa [arrayOf] using hopen

/-- The object of given member texts. -/
def objectOf (texts : List (List Char)) : List Char := '\x7b' :: (joined texts ++ ['\x7d'])

theorem objectOf_mem {texts : List (List Char)} {pairs : List (Language Char)}
    (h : List.Forall₂ (fun text l => text ∈ l) texts pairs) :
    objectOf texts ∈ objectTexts pairs := by
  cases pairs with
  | nil =>
    cases h
    have hempty : ['\x7b'] ++ [] ++ ['\x7d'] ∈ objectTexts [] :=
      Language.append_mem_mul (Language.append_mem_mul rfl (.inl rfl)) rfl
    simpa [objectOf, joined] using hempty
  | cons pair pairs =>
    have hopen : ['\x7b'] ++ [] ++ joined texts ++ [] ++ ['\x7d'] ∈ objectTexts (pair :: pairs) :=
      Language.append_mem_mul (Language.append_mem_mul (Language.append_mem_mul
        (Language.append_mem_mul rfl (.inl rfl)) (joined_mem h)) (.inl rfl)) rfl
    simpa [objectOf] using hopen

/-- A pair with no spaces. -/
def pairOf (key : String) (x : List Char) : List Char := '"' :: (key.toList ++ '"' :: ':' :: x)

theorem pairOf_mem {key : String} {value : Language Char} {x : List Char} (hx : x ∈ value) :
    pairOf key x ∈ pairTexts (nameTexts key) value := by
  have hcolon : [':'] ∈ colon := ⟨[':'], ⟨[], .inl rfl, [':'], rfl, rfl⟩, [], .inl rfl, rfl⟩
  have hpair := Language.append_mem_mul
    (Language.append_mem_mul (mem_exactly.mpr (Eq.refl ('"' :: key.toList ++ ['"']))) hcolon) hx
  simpa [pairOf, pairTexts, nameTexts] using hpair

/-! ### Accepted schemas -/

theorem Primitive.texts_nonempty (ty : Primitive) : ∃ x, x ∈ ty.texts := by
  have hinteger : ['0'] ∈ Json.integer := ⟨[], .inl rfl, ['0'], .inl rfl, rfl⟩
  cases ty with
  | integer => exact ⟨_, hinteger⟩
  | number => exact ⟨_, integer_le_number hinteger⟩
  | boolean => exact ⟨_, .inl rfl⟩
  | null => exact ⟨_, rfl⟩

/-- The texts of an accepted schema end where a separator or a bracket goes on. -/
theorem Compiles.settled {named : Char → Option (Char → Bool)} {levels depth : ℕ}
    {schema : Value} {p : Pattern} {l : Language Char} (h : Compiles named levels depth schema p l)
    (hfree : PatternFree schema) : Settled l ∧ ∃ x, x ∈ l := by
  induction h with
  | @literal _ _ _ c =>
    refine ⟨settled_of_encodes ?_, c.toJson, rfl⟩
    rintro x rfl
    exact ⟨_, c.toJson_encodes.mono (compact_loose _)⟩
  | @choice _ _ _ vals _ _ _ hne =>
    obtain ⟨v, vals, rfl⟩ := List.exists_cons_of_ne_nil hne
    refine ⟨settled_of_encodes fun x hx => ?_, v.toJson, ?_⟩
    · obtain ⟨w, -, rfl⟩ := sum_map_mem.mp hx
      exact ⟨_, w.toJson_encodes.mono (compact_loose _)⟩
    · exact sum_map_mem.mpr ⟨v, List.mem_cons_self, rfl⟩
  | string =>
    refine ⟨settled_of_encodes fun x hx => ?_, ['"'] ++ [] ++ ['"'], ?_⟩
    · obtain ⟨us, hus⟩ := string_encodes hx
      exact ⟨_, hus⟩
    · exact Language.append_mem_mul (Language.append_mem_mul rfl (Language.nil_mem_kstar _)) rfl
  | @pattern levels depth obj p htype hpattern =>
    rw [hfree obj (.self _)] at hpattern
    cases hpattern
  | primitive ty => exact ⟨settled_of_encodes fun x => primitive_encodes ty, ty.texts_nonempty⟩
  | @array levels depth obj items item texts htype hitems hitem hbounds ih =>
    obtain ⟨hsettled, x, hx⟩ := ih (hfree.items hitems)
    exact ⟨settled_array hsettled _, arrayOf (leastItems obj) x, arrayOf_mem ⟨le_rfl, hbounds⟩ hx⟩
  | shapeless =>
    refine ⟨settled_of_encodes fun x hx => ?_, ['\x7b'] ++ [] ++ [] ++ [] ++ ['\x7d'], ?_⟩
    · obtain ⟨entries, hentries, -⟩ := anyObject_encodes (V := fun _ => True)
        (fun y hy _ => (any_encodes _ hy).imp fun j hj => ⟨hj, trivial⟩) hx
      exact ⟨_, hentries⟩
    · exact Language.append_mem_mul (Language.append_mem_mul (Language.append_mem_mul
        (Language.append_mem_mul rfl (.inl rfl)) ⟨0, trivial, rfl⟩) (.inl rfl)) rfl
  | @object levels depth obj props htype hprops hvalues ih =>
    have hall : ∀ prop ∈ props, Settled prop.texts ∧ ∃ x, x ∈ prop.texts := fun prop hmem =>
      ih prop hmem (hfree.property hprops (List.mem_map_of_mem hmem))
    choose! text htext using fun prop hmem => (hall prop hmem).2
    have hsettled := settled_object (props.map fun prop => (prop.key, prop.texts))
      (List.forall_mem_map.mpr fun prop hmem => (hall prop hmem).1)
    rw [List.map_map] at hsettled
    refine ⟨hsettled, objectOf (props.map fun prop => pairOf prop.key (text prop)), ?_⟩
    refine objectOf_mem (List.forall₂_map_right_iff.mpr (List.forall₂_map_left_iff.mpr ?_))
    exact List.forall₂_same.mpr fun prop hmem => pairOf_mem (htext prop hmem)

theorem arrayTexts_mono {fits fits' : ℕ → Prop} {item item' : Language Char}
    (hfits : ∀ n, fits n → fits' n) (hitem : item ≤ item') :
    arrayTexts fits item ≤ arrayTexts fits' item' := by
  have hmembers : members fits item ≤ members fits' item' := by
    rintro w ⟨n, hn, hw⟩
    refine ⟨n, hfits n hn, separated_mono comma ?_ hw⟩
    clear hn hw
    induction n with
    | zero => exact .nil
    | succ n ih => exact .cons hitem ih
  have hclosing : closing fits ≤ closing fits' := by
    rintro w (hw | ⟨hw, n, hn, hne⟩)
    · exact .inl hw
    · exact .inr ⟨hw, n, hfits n hn, hne⟩
  exact mul_le_mul' (mul_le_mul' (mul_le_mul' le_rfl hmembers) hclosing) le_rfl

theorem objectTexts_mono {ls ms : List (Language Char)} (h : List.Forall₂ (· ≤ ·) ls ms) :
    objectTexts ls ≤ objectTexts ms := by
  have hjoined := separated_mono comma h
  cases h with
  | nil => exact le_rfl
  | cons => exact mul_le_mul' (mul_le_mul' (mul_le_mul' le_rfl hjoined) le_rfl) le_rfl

/-- A schema describes no more than its pattern matches. -/
theorem Compiles.languageAt_le {named : Char → Option (Char → Bool)} {levels depth : ℕ}
    {schema : Value} {p : Pattern} {l : Language Char} (h : Compiles named levels depth schema p l)
    (hfree : PatternFree schema) : languageAt levels depth schema ≤ l := by
  induction h with
  | literal _ hconst => exact (languageAt_const hconst).le
  | choice _ hconst henum => exact (languageAt_enum hconst henum).le
  | string htype => exact (languageAt_type htype).le
  | @pattern levels depth obj p htype hpattern =>
    rw [hfree obj (.self _)] at hpattern
    cases hpattern
  | primitive ty htype => exact (languageAt_primitive ty htype).le
  | @array levels depth obj items item texts htype hitems hitem hbounds ih =>
    rw [languageAt_array htype hitems]
    exact arrayTexts_mono (fun n => fitsCompiled_of_declared) (ih (hfree.items hitems))
  | shapeless htype hprops => exact (languageAt_shapeless htype hprops).le
  | @object levels depth obj props htype hprops hvalues ih =>
    rw [languageAt_object htype hprops, List.map_map]
    refine objectTexts_mono (List.forall₂_map_left_iff.mpr (List.forall₂_map_right_iff.mpr ?_))
    refine List.forall₂_same.mpr fun prop hmem => mul_le_mul' le_rfl (ih prop hmem ?_)
    exact hfree.property hprops (List.mem_map_of_mem hmem)

/-! ### What the compiler does not read can be seen -/

/-- Where an array's texts are all described, so are its numbers of items, and its items if it can
have any. -/
theorem array_le {fits fits' : ℕ → Prop} {item item' : Language Char} (hitem : Settled item)
    (hle' : item' ≤ item) (hle : arrayTexts fits item ≤ arrayTexts fits' item') {n : ℕ}
    (hfits : fits n) {x : List Char} (hx : x ∈ item) : fits' n ∧ (n ≠ 0 → x ∈ item') := by
  let p : Part := ⟨[], x, [], valueOf x⟩
  have hp : ∀ q ∈ List.replicate n p, IsItem item q := by
    intro q hq
    rw [List.eq_of_mem_replicate hq]
    exact ⟨hx, rfl, blanks_nil, blanks_nil⟩
  have htext : arrayOf n x = '[' :: (joined ((List.replicate n p).map Part.chars) ++ [']']) := by
    rw [arrayOf, List.map_replicate]
    simp [p, Part.chars]
  have hne (hn : n ≠ 0) : List.replicate n p ≠ [] := by simpa using hn
  rcases array_parts (hle (arrayOf_mem hfits hx)) with
    ⟨hzero, gap, hgap, hsame⟩ | ⟨parts, hnonempty, hlength, hparts, hsame⟩
  · by_cases hn : n = 0
    · exact ⟨hn ▸ hzero, fun h => absurd hn h⟩
    · rw [htext] at hsame
      exact absurd (List.cons.inj hsame).2.symm (joined_ne_close hgap endsPart_bracket (hne hn)
        fun q hq => item_opens hitem (hp q hq))
  · have hitems : ∀ q ∈ parts, IsItem item q := fun q hq =>
      ⟨hle' (hparts q hq).1, (hparts q hq).2⟩
    by_cases hn : n = 0
    · subst hn
      exact absurd (List.cons.inj hsame).2 (joined_ne_close (blanks_nil (g := loose))
        endsPart_bracket hnonempty fun q hq => item_opens hitem (hitems q hq))
    · rw [htext] at hsame
      obtain ⟨rfl, -⟩ := parts_unique hitem hp hitems (hne hn) hnonempty (List.cons.inj hsame).2
      rw [List.length_replicate] at hlength
      refine ⟨hlength, fun _ => ?_⟩
      exact (hparts p (List.mem_replicate.mpr ⟨hn, rfl⟩)).1

/-- A pair with no spaces, as a member. -/
noncomputable def memberOf (key : String) (x : List Char) : Member :=
  ⟨[], key.toList, [], nameOf key.toList, ⟨[], x, [], valueOf x⟩⟩

theorem memberOf_chars (key : String) (x : List Char) : (memberOf key x).chars = pairOf key x := by
  simp [memberOf, Member.chars, Part.chars, pairOf]

theorem isMember_memberOf {key : String} {value : Language Char} {x : List Char}
    (hx : x ∈ value) : IsMember key value (memberOf key x) :=
  ⟨rfl, hx, rfl, rfl, blanks_nil, blanks_nil, blanks_nil, blanks_nil⟩

theorem memberOf_isMember {prop : Property} {x : List Char} (hx : x ∈ prop.texts) :
    IsMember prop.key prop.texts (memberOf prop.key x) ∧
      (memberOf prop.key x).chars ∈ prop.pair := by
  refine ⟨isMember_memberOf hx, ?_⟩
  rw [memberOf_chars]
  exact pairOf_mem hx

theorem forall₂_trans {α β γ : Type*} {R : α → β → Prop} {S : β → γ → Prop} {xs : List α}
    {ys : List β} {zs : List γ} (h : List.Forall₂ R xs ys) (h' : List.Forall₂ S ys zs) :
    List.Forall₂ (fun x z => ∃ y, R x y ∧ S y z) xs zs := by
  induction h generalizing zs with
  | nil =>
    cases h'
    exact .nil
  | cons hhead _ ih =>
    cases h' with
    | cons hhead' htail' => exact .cons ⟨_, hhead, hhead'⟩ (ih htail')

/-- Where an object's texts are all described, so are the values of every property. -/
theorem object_le {props : List Property} (texts : Property → Language Char)
    (hprops : ∀ prop ∈ props, Settled prop.texts ∧ ∃ x, x ∈ prop.texts)
    (hle' : ∀ prop ∈ props, texts prop ≤ prop.texts)
    (hle : objectTexts (props.map Property.pair) ≤
      objectTexts (props.map fun prop => pairTexts (nameTexts prop.key) (texts prop))) :
    ∀ prop ∈ props, prop.texts ≤ texts prop := by
  choose! text htext using fun prop hmem => (hprops prop hmem).2
  intro prop hmem x hx
  obtain ⟨before, after, rfl⟩ := List.append_of_mem hmem
  -- a member for every property, with the given text for this one
  let member (q : Property) : Member := memberOf q.key (text q)
  let members := before.map member ++ memberOf prop.key x :: after.map member
  have hmembers : List.Forall₂
      (fun m (q : Property) => IsMember q.key q.texts m ∧ m.chars ∈ q.pair) members
      (before ++ prop :: after) := by
    refine List.rel_append ?_ (.cons (memberOf_isMember hx) ?_)
    · exact List.forall₂_map_left_iff.mpr (List.forall₂_same.mpr fun q hq =>
        memberOf_isMember (htext q (List.mem_append_left _ hq)))
    · exact List.forall₂_map_left_iff.mpr (List.forall₂_same.mpr fun q hq =>
        memberOf_isMember (htext q (List.mem_append_right _ (List.mem_cons_of_mem _ hq))))
  have hchars : List.Forall₂ (fun t l => t ∈ l) (members.map Member.chars)
      ((before ++ prop :: after).map Property.pair) :=
    List.forall₂_map_left_iff.mpr (List.forall₂_map_right_iff.mpr (hmembers.imp fun m q hm => hm.2))
  have hmem := hle (objectOf_mem hchars)
  simp only [nameTexts_eq] at hmem
  rcases object_members hmem with ⟨hnil, -⟩ | ⟨members', -, hmembers', hsame⟩
  · exact absurd hnil (by simp)
  · obtain ⟨-, htexts⟩ := joined_aligned (Q := fun m m' => m.part.text = m'.part.text)
      endsPart_brace (forall₂_compose hmembers hmembers')
      (fun m m' ⟨q, hq, hm, hm'⟩ c c' s s' hc hc' h =>
        member_split (hprops q hq).1 (hle' q hq) hm.1 hm' hc hc' h) (List.cons.inj hsame).2
    have hvalues := List.forall₂_drop_append _ before _ (forall₂_trans htexts hmembers')
    have hdrop : members.drop before.length = memberOf prop.key x :: after.map member := by
      simp [members]
    rw [hdrop] at hvalues
    cases hvalues with
    | cons hhead _ =>
      obtain ⟨m', hm', hvalue⟩ := hhead
      have hx' : x = m'.part.text := hm'
      rw [hx']
      exact hvalue.2.1

/-- Where no array has to be looked into, the bounds are read. -/
theorem boundsRead_of_type {obj : Fields} {ty : String} (htype : HasType obj ty)
    (harray : ty ≠ "array") (hobject : ty ≠ "object") : BoundsRead (.object obj) := by
  intro other hreached hother
  cases hreached with
  | self => exact absurd (htype.unique hother) harray
  | items harr => exact absurd (htype.unique harr) harray
  | property hobj => exact absurd (htype.unique hobj) hobject

theorem boundsRead_of_untyped {obj : Fields}
    (hnone : ∀ ty, ¬ HasType obj ty) : BoundsRead (.object obj) := by
  intro other hreached hother
  cases hreached with
  | self => exact absurd hother (hnone _)
  | items harr => exact absurd harr (hnone _)
  | property hobj => exact absurd hobj (hnone _)

theorem exists_fits {obj : Fields} (hbounds : ∀ m ∈ mostItems obj, leastItems obj ≤ m)
    (hmost : mostItems obj ≠ some 0) : ∃ n, FitsCompiled obj n ∧ n ≠ 0 := by
  cases hm : mostItems obj with
  | none =>
    refine ⟨max (leastItems obj) 1, ⟨le_max_left _ _, fun m h => ?_⟩, by omega⟩
    rw [hm] at h
    cases h
  | some m =>
    refine ⟨m, ⟨hbounds m hm, fun k hk => ?_⟩, fun hzero => hmost (hzero ▸ hm)⟩
    rw [hm] at hk
    exact (Option.some.inj hk).le

/-- Where all that a pattern matches is described, every bound is read. -/
theorem Compiles.boundsRead_of_le {named : Char → Option (Char → Bool)} {levels depth : ℕ}
    {schema : Value} {p : Pattern} {l : Language Char} (h : Compiles named levels depth schema p l)
    (hfree : PatternFree schema) (hle : l ≤ languageAt levels depth schema) :
    BoundsRead schema := by
  induction h with
  | literal _ hconst =>
    exact boundsRead_of_untyped fun ty htype => by simp [htype.noConst] at hconst
  | choice _ _ henum => exact boundsRead_of_untyped fun ty htype => htype.noEnum _ henum
  | string htype => exact boundsRead_of_type htype (by decide) (by decide)
  | pattern htype => exact boundsRead_of_type htype (by decide) (by decide)
  | primitive ty htype => cases ty <;> exact boundsRead_of_type htype (by decide) (by decide)
  | @array levels depth obj items item texts htype hitems hitem hbounds ih =>
    rw [languageAt_array htype hitems] at hle
    have hfree' := hfree.items hitems
    obtain ⟨hsettled, x, hx⟩ := hitem.settled hfree'
    have hsub := hitem.languageAt_le hfree'
    intro other hreached hother
    cases hreached with
    | self =>
      exact boundsWritten_of_fits fun n hn => (array_le hsettled hsub hle hn hx).1
    | items htype' hitems' hmost hreached =>
      obtain rfl := Option.some.inj (hitems.symm.trans hitems')
      -- one item or more is let through, so every item text is described
      obtain ⟨n, hn, hne⟩ := exists_fits hbounds hmost
      exact ih hfree' (fun y hy => (array_le hsettled hsub hle hn hy).2 hne) other hreached hother
    | property hobj => exact absurd (htype.unique hobj) (by decide)
  | @shapeless levels depth obj htype hprops =>
    intro other hreached hother
    cases hreached with
    | self => exact absurd (htype.unique hother) (by decide)
    | items harr => exact absurd (htype.unique harr) (by decide)
    | property hobj hprops' => exact absurd hprops' (hprops _)
  | @object levels depth obj props htype hprops hvalues ih =>
    rw [languageAt_object htype hprops, List.map_map] at hle
    have hfree' : ∀ prop ∈ props, PatternFree prop.schema := fun prop hmem =>
      hfree.property hprops (List.mem_map_of_mem hmem)
    have hall := object_le (fun prop => languageAt levels (depth + 1) prop.schema)
      (fun prop hmem => (hvalues prop hmem).settled (hfree' prop hmem))
      (fun prop hmem => (hvalues prop hmem).languageAt_le (hfree' prop hmem)) hle
    intro other hreached hother
    cases hreached with
    | self => exact absurd (htype.unique hother) (by decide)
    | items harr => exact absurd (htype.unique harr) (by decide)
    | property hobj hprops' hmem hreached =>
      obtain rfl := Value.object.inj (Option.some.inj (hprops.symm.trans hprops'))
      obtain ⟨prop, hprop, rfl⟩ := List.mem_map.mp hmem
      exact ih prop hprop (hfree' prop hprop) (hall prop hprop) other hreached hother

/-! ### Envelopes -/

theorem envelopeTexts_eq (name args : Language Char) :
    envelopeTexts name args =
      objectTexts [pairTexts (nameTexts "name") name, pairTexts (nameTexts "arguments") args] := by
  simp only [envelopeTexts, objectTexts, separated, pairTexts, mul_assoc]
  rfl

theorem units_injective {s t : String} (h : units s = units t) : s = t :=
  String.toList_inj.mp (flatMap_utf16_injective h)

/-- A serialized name reads back as one name only. -/
theorem quote_injective {s t : String} (h : quote s = quote t) : s = t := by
  have hs : Encodes compact (quote t) (.string (units s)) := h ▸ quote_encodes s
  exact units_injective (Datum.string.inj (hs.eq (quote_encodes t)))

def quotedNames : Language Char := { w | ∃ s, w = quote s }

theorem settled_quotedNames : Settled quotedNames := by
  refine settled_of_encodes ?_
  rintro x ⟨s, rfl⟩
  exact ⟨_, (quote_encodes s).mono (compact_loose _)⟩

/-- An envelope has one tool's name and arguments. -/
theorem envelope_split {name name' : String} {args args' : Language Char} {x : List Char}
    (hargs : name = name' → Settled args ∧ args' ≤ args) (hx : x ∈ args)
    (hmem : objectOf [pairOf "name" (quote name), pairOf "arguments" x] ∈
      envelopeTexts (exactly (quote name')) args') : name = name' ∧ x ∈ args' := by
  have hmem' : objectOf [pairOf "name" (quote name), pairOf "arguments" x] ∈ objectTexts
      ([("name", exactly (quote name')), ("arguments", args')].map fun pair =>
        pairTexts (quoted (exactly pair.1.toList)) pair.2) := by
    rw [envelopeTexts_eq, nameTexts_eq, nameTexts_eq] at hmem
    exact hmem
  rcases object_members hmem' with ⟨hnil, -⟩ | ⟨members, -, hmembers, hsame⟩
  · cases hnil
  · rcases hmembers with _ | ⟨hfirst, _ | ⟨hsecond, ⟨⟩⟩⟩
    have hname : IsMember "name" quotedNames (memberOf "name" (quote name)) :=
      isMember_memberOf ⟨name, rfl⟩
    have harguments : IsMember "arguments" args (memberOf "arguments" x) := isMember_memberOf hx
    have heq := (List.cons.inj hsame).2
    simp only [List.map_cons, List.map_nil, joined_cons_cons, joined_singleton, List.append_assoc,
      List.cons_append, ← memberOf_chars] at heq
    have hle : exactly (quote name') ≤ quotedNames := fun w hw => ⟨name', hw⟩
    obtain ⟨hrest, -, htext⟩ := member_split settled_quotedNames hle hname hfirst
      List.mem_cons_self List.mem_cons_self heq
    have hquote : quote name = quote name' := htext.trans hfirst.2.1
    have hnames := quote_injective hquote
    obtain ⟨hsettled, hargs⟩ := hargs hnames
    obtain ⟨-, -, hvalue⟩ := member_split hsettled hargs harguments hsecond endsPart_brace
      endsPart_brace hrest
    have hx' : x = _ := hvalue
    exact ⟨hnames, hx' ▸ hsecond.2.1⟩

theorem envelope_texts {named : Char → Option (Char → Bool)} {tools : List (String × Value)}
    {p : Pattern} (hfree : ∀ tool ∈ tools, PatternFree tool.2)
    (hok : toolCallEnvelopeRegex tools = .ok p) :
    ∃ found : List Property, found.map Property.declared = tools ∧
      (∀ prop ∈ found, PatternFree prop.schema ∧
        Compiles named (MAX_DEPTH + 1) 0 prop.schema prop.pattern prop.texts) ∧
      fullMatch named p =
        (found.map fun prop => envelopeTexts (exactly (quote prop.key)) prop.texts).sum := by
  obtain ⟨found, hne, rfl, rfl, hfound⟩ : ∃ found : List Property, _ := envelope_cases hok
  have hfree' : ∀ prop ∈ found, PatternFree prop.schema := fun prop hmem =>
    hfree _ (List.mem_map_of_mem hmem)
  refine ⟨found, rfl, fun prop hmem => ⟨hfree' prop hmem, hfound prop hmem⟩, ?_⟩
  simp only [envelopeTexts_eq]
  refine (denotes_alternatives hne fun prop hmem => ?_).fullMatch
  exact denotes_envelope (denotes_literal _)
    ((hfound prop hmem).denotes ((hfree' prop hmem).patternsAre _))

theorem envelopeLanguage_declared (found : List Property) :
    envelopeLanguage (found.map Property.declared) =
      (found.map fun prop =>
        envelopeTexts (exactly (quote prop.key)) (schemaLanguage prop.schema)).sum := by
  rw [envelopeLanguage, List.map_map]
  rfl

/-- Where all envelopes are described and no name is listed twice, so are all arguments. -/
theorem arguments_le {found : List Property} {texts : Property → Language Char}
    (hsettled : ∀ prop ∈ found, Settled prop.texts) (hle : ∀ prop ∈ found, texts prop ≤ prop.texts)
    (hnodup : (found.map Property.key).Nodup)
    (heq : (found.map fun prop => envelopeTexts (exactly (quote prop.key)) prop.texts).sum =
      (found.map fun prop => envelopeTexts (exactly (quote prop.key)) (texts prop)).sum) :
    ∀ prop ∈ found, prop.texts ≤ texts prop := by
  intro prop hmem x hx
  have hobject : objectOf [pairOf "name" (quote prop.key), pairOf "arguments" x] ∈
      envelopeTexts (exactly (quote prop.key)) prop.texts := by
    rw [envelopeTexts_eq]
    exact objectOf_mem (.cons (pairOf_mem rfl) (.cons (pairOf_mem hx) .nil))
  have hall : objectOf [pairOf "name" (quote prop.key), pairOf "arguments" x] ∈
      (found.map fun q => envelopeTexts (exactly (quote q.key)) q.texts).sum :=
    sum_map_mem.mpr ⟨prop, hmem, hobject⟩
  rw [heq] at hall
  obtain ⟨other, hother, hobject'⟩ := sum_map_mem.mp hall
  have hsame (hkey : prop.key = other.key) : prop = other :=
    List.inj_on_of_nodup_map hnodup hmem hother hkey
  obtain ⟨hkey, hx'⟩ := envelope_split
    (fun hkey => hsame hkey ▸ ⟨hsettled prop hmem, hle prop hmem⟩) hx hobject'
  rw [hsame hkey]
  exact hx'

/-- The pattern of a schema without `pattern` matches exactly what the schema describes if and only
if the compiler reads every bound of an array in it; and so do envelopes, where a name that is
listed twice may have the texts of either. -/
theorem schemaToRegex_exact_iff (named : Char → Option (Char → Bool)) :
    (∀ schema p, PatternFree schema → schemaToRegex schema = .ok p →
      (fullMatch named p = schemaLanguage schema ↔ BoundsRead schema)) ∧
    ∀ tools p, (∀ tool ∈ tools, PatternFree tool.2) → toolCallEnvelopeRegex tools = .ok p →
      ((∀ tool ∈ tools, BoundsRead tool.2) → fullMatch named p = envelopeLanguage tools) ∧
      ((tools.map Prod.fst).Nodup → fullMatch named p = envelopeLanguage tools →
        ∀ tool ∈ tools, BoundsRead tool.2) := by
  constructor
  · intro schema p hfree hok
    obtain ⟨l, hl⟩ : ∃ l, Compiles named _ _ _ _ l := compile_cases hok
    rw [(hl.denotes (hfree.patternsAre _)).fullMatch]
    constructor
    · intro heq
      exact hl.boundsRead_of_le hfree heq.le
    · intro hbounds
      exact (hl.languageAt_eq hfree hbounds).symm
  · intro tools p hfree hok
    obtain ⟨found, rfl, hfound, hmatch⟩ : ∃ found : List Property, _ := envelope_texts hfree hok
    rw [hmatch, envelopeLanguage_declared]
    constructor
    · intro hbounds
      refine congrArg List.sum (List.map_congr_left fun prop hmem => ?_)
      obtain ⟨hfree', hcompiles⟩ := hfound prop hmem
      rw [schemaLanguage, hcompiles.languageAt_eq hfree' (hbounds _ (List.mem_map_of_mem hmem))]
    · intro hnodup heq tool hmem
      obtain ⟨prop, hprop, rfl⟩ := List.mem_map.mp hmem
      rw [List.map_map] at hnodup
      obtain ⟨hfree', hcompiles⟩ := hfound prop hprop
      have hle := arguments_le
        (fun q hq => ((hfound q hq).2.settled (hfound q hq).1).1)
        (fun q hq => (hfound q hq).2.languageAt_le (hfound q hq).1) hnodup heq prop hprop
      exact hcompiles.boundsRead_of_le hfree' hle

/-! A list of booleans with at most two members, its bound written as an integer or as a float. -/

def boolSchema : Value := .object [("type", .string "boolean")]

def boolsUpTo (most : Number) : Value :=
  .object [("type", .string "array"), ("items", boolSchema), ("maxItems", .number most)]

theorem boolsUpTo_hasType (most : Number) :
    HasType [("type", .string "array"), ("items", boolSchema), ("maxItems", .number most)]
      "array" :=
  ⟨by simp [Supported, unsupportedKeywords, Fields.get, List.lookup], rfl, nofun, rfl⟩

theorem boolsUpTo_patternFree (most : Number) : PatternFree (boolsUpTo most) := by
  intro obj hsub
  cases hsub with
  | self => rfl
  | items hitems hsub =>
    obtain rfl := Option.some.inj hitems
    cases hsub with
    | self => rfl
    | items hitems => cases hitems
    | property hprops => cases hprops
  | property hprops => cases hprops

theorem boolsUpTo_two_boundsRead : BoundsRead (boolsUpTo (.posInt 2)) := by
  intro obj hreached htype
  cases hreached with
  | self =>
    refine ⟨nofun, fun v hv => .inl ?_⟩
    obtain rfl := Option.some.inj hv
    exact nofun
  | items _ hitems _ hreached =>
    obtain rfl := Option.some.inj hitems
    cases hreached with
    | self => exact absurd htype.type_eq (by decide)
    | items _ hitems => cases hitems
    | property _ hprops => cases hprops
  | property _ hprops => cases hprops

theorem schemaToRegex_exact_bools :
    fullMatch (fun _ => none) "\\[ ?(((true|false)|(true|false) ?, ?(true|false)))? ?\\]".toList =
      schemaLanguage (boolsUpTo (.posInt 2)) ∧
    ∃ p, toolCallEnvelopeRegex [("set", boolsUpTo (.posInt 2))] = .ok p ∧
      fullMatch (fun _ => none) p = envelopeLanguage [("set", boolsUpTo (.posInt 2))] :=
  ⟨((schemaToRegex_exact_iff _).1 _ _ (boolsUpTo_patternFree _) rfl).mpr boolsUpTo_two_boundsRead,
    _, rfl, ((schemaToRegex_exact_iff _).2 _ _
      (List.forall_mem_singleton.mpr (boolsUpTo_patternFree _)) rfl).1
      (List.forall_mem_singleton.mpr boolsUpTo_two_boundsRead)⟩

/-- The float `2.0`. -/
def twoPointZero : FloatText where
  text := "2.0".toList
  isNumber := ⟨['2', '.', '0'], ⟨['2'], ⟨[], .inl rfl, ['2'],
    .inr ⟨['2'], ⟨'2', rfl, rfl⟩, [], Language.nil_mem_kstar _, rfl⟩, rfl⟩, ['.', '0'],
    .inr ⟨['.'], rfl, ['0'], ⟨['0'], ⟨'0', rfl, rfl⟩, [], Language.nil_mem_kstar _, rfl⟩, rfl⟩, rfl⟩,
    [], .inl rfl, rfl⟩

/-- A bound of `2.0` is not read: three booleans match. -/
theorem schemaToRegex_ignores_float_bound :
    ¬ ∀ (named : Char → Option (Char → Bool)) (schema : Value) (p : Pattern), PatternFree schema →
      schemaToRegex schema = .ok p → fullMatch named p = schemaLanguage schema := by
  intro hexact
  have hfree := boolsUpTo_patternFree (.float twoPointZero)
  have heq := hexact (fun _ => none) (boolsUpTo (.float twoPointZero)) _ hfree rfl
  obtain ⟨l, hl⟩ : ∃ l, Compiles (fun _ => none) _ _ (boolsUpTo (.float twoPointZero)) _ l :=
    compile_cases rfl
  rw [(hl.denotes (hfree.patternsAre _)).fullMatch] at heq
  have hbounds := hl.boundsRead_of_le hfree heq.le _ (.self _) (boolsUpTo_hasType _)
  rcases hbounds.most _ rfl with hread | hnone
  · exact hread rfl
  · cases hnone

end Zllm.JsonSchema
