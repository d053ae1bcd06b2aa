import Zllm.Lib.Json

/-!
# One text, one value

Two derivations of a text under two grammars are one derivation under what the grammars have in
common, also where the text goes on after them: what follows a value starts with a blank or a
structural character, so the value cannot be read further.
-/

namespace Zllm.Json

open Zllm.Texts

/-! ### Where a value ends -/

/-- Blanks and structural characters, which end a number. -/
def isDelimiter (c : Char) : Bool := c ∈ [' ', '\t', '\n', '\r', ',', ']', '\x7d']

def Delimited (rest : List Char) : Prop := ∀ c ∈ rest.head?, isDelimiter c = true

theorem delimited_nil : Delimited [] := fun _ hc => absurd hc (by simp)

def isNumberChar (c : Char) : Bool := c.isDigit || c ∈ ['-', '+', '.', 'e', 'E']

theorem isNumberChar_of_delimiter {c : Char} (hc : isDelimiter c = true) :
    isNumberChar c = false := by
  simp only [isDelimiter, decide_eq_true_eq] at hc
  revert c
  decide

/-- Two texts of one class, each followed by what does not start in the class, are one text. -/
theorem run_unique {p : Char → Bool} {u v r s : List Char} (hu : ∀ c ∈ u, p c = true)
    (hv : ∀ c ∈ v, p c = true) (hr : ∀ c ∈ r.head?, p c = false)
    (hs : ∀ c ∈ s.head?, p c = false) (heq : u ++ r = v ++ s) : u = v ∧ r = s := by
  induction u generalizing v with
  | nil =>
    cases v with
    | nil => exact ⟨rfl, heq⟩
    | cons c v =>
      have hr' := hr c (by rw [List.nil_append] at heq; rw [heq]; rfl)
      rw [hv c List.mem_cons_self] at hr'
      cases hr'
  | cons c u ih =>
    cases v with
    | nil =>
      have hs' := hs c (by rw [List.nil_append] at heq; rw [← heq]; rfl)
      rw [hu c List.mem_cons_self] at hs'
      cases hs'
    | cons d v =>
      obtain ⟨rfl, htail⟩ := List.cons.inj heq
      obtain ⟨rfl, hrest⟩ := ih (fun e he => hu e (List.mem_cons_of_mem c he))
        (fun e he => hv e (List.mem_cons_of_mem c he)) htail
      exact ⟨rfl, hrest⟩

/-! ### Numbers -/

/-- Texts of characters that are all of one class. -/
def allOf (p : Char → Bool) : Language Char := { w | ∀ c ∈ w, p c = true }

section

variable {p : Char → Bool} {l m : Language Char}

theorem oneOf_le_allOf {q : Char → Bool} (hq : ∀ c, q c = true → p c = true) :
    oneOf q ≤ allOf p := by
  rintro w ⟨c, rfl, hc⟩ d hd
  rw [List.mem_singleton.mp hd]
  exact hq c hc

theorem exactly_le_allOf {w : List Char} (hw : ∀ c ∈ w, p c = true) : exactly w ≤ allOf p := by
  rintro v rfl
  exact hw

theorem mul_le_allOf (hl : l ≤ allOf p) (hm : m ≤ allOf p) : l * m ≤ allOf p := by
  intro w hw
  obtain ⟨u, hu, v, hv, rfl⟩ := Language.mem_mul.mp hw
  intro c hc
  rcases List.mem_append.mp hc with hc | hc
  · exact hl hu c hc
  · exact hm hv c hc

theorem add_le_allOf (hl : l ≤ allOf p) (hm : m ≤ allOf p) : l + m ≤ allOf p := by
  rintro w (hw | hw)
  · exact hl hw
  · exact hm hw

theorem optional_le_allOf (hl : l ≤ allOf p) : optional l ≤ allOf p := by
  rintro w (hw | hw)
  · rw [hw]
    exact fun c hc => absurd hc List.not_mem_nil
  · exact hl hw

theorem kstar_le_allOf (hl : l ≤ allOf p) : KStar.kstar l ≤ allOf p := by
  intro w hw
  obtain ⟨parts, rfl, hparts⟩ := Language.mem_kstar.mp hw
  intro c hc
  obtain ⟨part, hpart, hc⟩ := List.mem_flatten.mp hc
  exact hl (hparts part hpart) c hc

end

theorem number_chars : number ≤ allOf isNumberChar := by
  have hdigit : digit ≤ allOf isNumberChar :=
    oneOf_le_allOf fun c hc => by simp [isNumberChar, hc]
  have hdigits := mul_le_allOf hdigit (kstar_le_allOf hdigit)
  refine mul_le_allOf (mul_le_allOf (mul_le_allOf ?_ (add_le_allOf ?_ ?_)) ?_) ?_
  · exact optional_le_allOf (exactly_le_allOf (by decide))
  · exact exactly_le_allOf (by decide)
  · refine mul_le_allOf (oneOf_le_allOf fun c hc => ?_) (kstar_le_allOf hdigit)
    simp only [Bool.and_eq_true] at hc
    simp [isNumberChar, hc.1]
  · exact optional_le_allOf (mul_le_allOf (exactly_le_allOf (by decide)) hdigits)
  · refine optional_le_allOf (mul_le_allOf (mul_le_allOf (oneOf_le_allOf fun c hc => ?_)
      (optional_le_allOf (oneOf_le_allOf fun c hc => ?_))) hdigits)
    · simp only [Bool.or_eq_true, beq_iff_eq] at hc
      rcases hc with rfl | rfl <;> decide
    · simp only [Bool.or_eq_true, beq_iff_eq] at hc
      rcases hc with rfl | rfl <;> decide

/-- A number starts with a minus or a digit. -/
theorem number_head {text : List Char} (htext : text ∈ number) :
    ∃ c rest, text = c :: rest ∧ (c = '-' ∨ c.isDigit = true) := by
  obtain ⟨u, hu, v, -, rfl⟩ := Language.mem_mul.mp htext
  obtain ⟨x, hx, y, -, rfl⟩ := Language.mem_mul.mp hu
  obtain ⟨sign, hsign, digits, hdigits, rfl⟩ := Language.mem_mul.mp hx
  rcases hsign with rfl | rfl
  · rcases hdigits with rfl | hdigits
    · exact ⟨'0', _, rfl, .inr rfl⟩
    · obtain ⟨_, ⟨c, rfl, hc⟩, more, -, rfl⟩ := Language.mem_mul.mp hdigits
      exact ⟨c, _, rfl, .inr (Bool.and_eq_true _ _ ▸ hc).1⟩
  · exact ⟨'-', _, rfl, .inl rfl⟩

/-! ### Strings -/

section

variable {g g' : Grammar}

theorem StringBody.unique {body body' r r' : List Char} {units units' : List ℕ}
    (h : StringBody g body units) (h' : StringBody g' body' units')
    (heq : body ++ '"' :: r = body' ++ '"' :: r') :
    body = body' ∧ units = units' ∧ r = r' ∧ StringBody (g.meet g') body units := by
  induction h generalizing body' units' with
  | nil =>
    cases h' with
    | nil => exact ⟨rfl, rfl, (List.cons.inj heq).2, .nil⟩
    | plain hplain hquote => exact absurd (List.cons.inj heq).1.symm hquote
    | escape => cases (List.cons.inj heq).1
    | code => cases (List.cons.inj heq).1
  | plain hplain hquote hslash hrest ih =>
    cases h' with
    | nil => exact absurd (List.cons.inj heq).1 hquote
    | plain hplain' hquote' hslash' hrest' =>
      obtain ⟨rfl, htail⟩ := List.cons.inj heq
      obtain ⟨rfl, rfl, rfl, hmeet⟩ := ih hrest' htail
      exact ⟨rfl, rfl, rfl, .plain ⟨hplain, hplain'⟩ hquote hslash hmeet⟩
    | escape => exact absurd (List.cons.inj heq).1 hslash
    | code => exact absurd (List.cons.inj heq).1 hslash
  | escape hunit hrest ih =>
    cases h' with
    | nil => cases (List.cons.inj heq).1
    | plain hplain hquote hslash => exact absurd (List.cons.inj heq).1.symm hslash
    | escape hunit' hrest' =>
      obtain ⟨rfl, htail⟩ := List.cons.inj (List.cons.inj heq).2
      obtain ⟨rfl, rfl, rfl, hmeet⟩ := ih hrest' htail
      rw [hunit] at hunit'
      obtain rfl := Option.some.inj hunit'
      exact ⟨rfl, rfl, rfl, .escape hunit hmeet⟩
    | code =>
      obtain ⟨rfl, -⟩ := List.cons.inj (List.cons.inj heq).2
      cases hunit
  | code ha hb hc hd hrest ih =>
    cases h' with
    | nil => cases (List.cons.inj heq).1
    | plain hplain hquote hslash => exact absurd (List.cons.inj heq).1.symm hslash
    | escape hunit =>
      obtain ⟨rfl, -⟩ := List.cons.inj (List.cons.inj heq).2
      cases hunit
    | code ha' hb' hc' hd' hrest' =>
      simp only [List.cons_append, List.cons.injEq, true_and] at heq
      obtain ⟨rfl, rfl, rfl, rfl, htail⟩ := heq
      obtain ⟨rfl, rfl, rfl, hmeet⟩ := ih hrest' htail
      rw [ha] at ha'
      rw [hb] at hb'
      rw [hc] at hc'
      rw [hd] at hd'
      obtain rfl := Option.some.inj ha'
      obtain rfl := Option.some.inj hb'
      obtain rfl := Option.some.inj hc'
      obtain rfl := Option.some.inj hd'
      exact ⟨rfl, rfl, rfl, .code ha hb hc hd hmeet⟩

/-! ### Blanks -/

theorem blank_whitespace {w : List Char} (hw : Blanks g w) :
    ∀ c ∈ w, decide (c ∈ [' ', '\t', '\n', '\r']) = true :=
  fun c hc => decide_eq_true (g.whitespace c (hw c hc))

/-- A text that starts with a character that is no blank. -/
def Solid (w : List Char) : Prop := ∃ c rest, w = c :: rest ∧ c ∉ [' ', '\t', '\n', '\r']

theorem Solid.append {w : List Char} (hw : Solid w) (r : List Char) : Solid (w ++ r) := by
  obtain ⟨c, rest, rfl, hc⟩ := hw
  exact ⟨c, rest ++ r, rfl, hc⟩

theorem blanks_unique {b b' w w' : List Char} (hb : Blanks g b) (hb' : Blanks g' b')
    (hw : Solid w) (hw' : Solid w') (heq : b ++ w = b' ++ w') :
    b = b' ∧ w = w' ∧ Blanks (g.meet g') b := by
  have hhead : ∀ {v : List Char}, Solid v → ∀ c ∈ v.head?,
      decide (c ∈ [' ', '\t', '\n', '\r']) = false := by
    rintro v ⟨d, rest, rfl, hd⟩ c hc
    obtain rfl := Option.some.inj hc
    exact decide_eq_false hd
  obtain ⟨rfl, rfl⟩ := run_unique (blank_whitespace hb) (blank_whitespace hb') (hhead hw)
    (hhead hw') heq
  exact ⟨rfl, rfl, fun c hc => ⟨hb c hc, hb' c hc⟩⟩

/-! ### How values start -/

/-- The characters that a value can start with. -/
def Starts : Datum → Char → Prop
  | .null, c => c = 'n'
  | .bool true, c => c = 't'
  | .bool false, c => c = 'f'
  | .number _, c => c = '-' ∨ c.isDigit = true
  | .string _, c => c = '"'
  | .array _, c => c = '['
  | .object _, c => c = '\x7b'

theorem Encodes.head {text : List Char} {j : Datum} (h : Encodes g text j) :
    ∃ c rest, text = c :: rest ∧ Starts j c := by
  cases h with
  | null => exact ⟨'n', _, rfl, rfl⟩
  | true => exact ⟨'t', _, rfl, rfl⟩
  | false => exact ⟨'f', _, rfl, rfl⟩
  | number htext => exact number_head htext
  | string => exact ⟨'"', _, rfl, rfl⟩
  | emptyArray => exact ⟨'[', _, rfl, rfl⟩
  | array => exact ⟨'[', _, rfl, rfl⟩
  | emptyObject => exact ⟨'\x7b', _, rfl, rfl⟩
  | object => exact ⟨'\x7b', _, rfl, rfl⟩

theorem Starts.solid {j : Datum} {c : Char} (h : Starts j c) :
    c ∉ [' ', '\t', '\n', '\r'] := by
  cases j with
  | number =>
    rcases h with rfl | hc
    · decide
    · intro hmem
      have hblank : ∀ d ∈ [' ', '\t', '\n', '\r'], d.isDigit = false := by decide
      rw [hblank c hmem] at hc
      cases hc
  | bool b => cases b <;> (rw [h]; decide)
  | _ => rw [h]; decide

theorem Encodes.solid {text : List Char} {j : Datum} (h : Encodes g text j) : Solid text := by
  obtain ⟨c, rest, rfl, hc⟩ := h.head
  exact ⟨c, rest, rfl, hc.solid⟩

/-! ### Parts of arrays and objects -/

/-- What ends a part: a comma or a closing bracket. -/
def EndsPart (c : Char) : Prop := c ∈ [',', ']', '\x7d']

theorem EndsPart.not_blank {c : Char} (hc : EndsPart c) : c ∉ [' ', '\t', '\n', '\r'] := by
  revert c
  simp only [EndsPart]
  decide

theorem delimited_after {w r : List Char} {c : Char} (hw : Blanks g w) (hc : EndsPart c) :
    Delimited (w ++ c :: r) := by
  have hends : ∀ d ∈ [',', ']', '\x7d'], isDelimiter d = true := by decide
  have hblank : ∀ d ∈ [' ', '\t', '\n', '\r'], isDelimiter d = true := by decide
  intro d hd
  cases w with
  | nil =>
    obtain rfl := Option.some.inj hd
    exact hends c hc
  | cons e w =>
    obtain rfl := Option.some.inj hd
    exact hblank e (g.whitespace e (hw e List.mem_cons_self))

/-- No other value under `g'` starts where this one does. -/
def Unique (g g' : Grammar) (text : List Char) (j : Datum) : Prop :=
  ∀ text' j' r r', Encodes g' text' j' → Delimited r → Delimited r' →
    text ++ r = text' ++ r' → text = text' ∧ j = j' ∧ r = r' ∧ Encodes (g.meet g') text j

/-- Parts whose texts cannot be read in two ways cannot be either. -/
theorem Part.split {p p' : Part} {c c' : Char} {r r' : List Char} (hspaced : p.Spaced g)
    (hspaced' : p'.Spaced g') (hsolid : Solid p.text) (hsolid' : Solid p'.text) (hc : EndsPart c)
    (hc' : EndsPart c')
    (htext : ∀ s s', Delimited s → Delimited s' → p.text ++ s = p'.text ++ s' → p.text = p'.text)
    (heq : p.chars ++ c :: r = p'.chars ++ c' :: r') :
    p.before = p'.before ∧ p.text = p'.text ∧ p.after = p'.after ∧ c = c' ∧ r = r' ∧
      p.Spaced (g.meet g') := by
  simp only [Part.chars, List.append_assoc] at heq
  obtain ⟨hbefore, htail, hblank⟩ := blanks_unique hspaced.before hspaced'.before
    (hsolid.append _) (hsolid'.append _) heq
  have hsame := htext _ _ (delimited_after hspaced.after hc) (delimited_after hspaced'.after hc')
    htail
  rw [hsame] at htail
  obtain ⟨hafter, hlast, hblank'⟩ := blanks_unique hspaced.after hspaced'.after
    ⟨c, r, rfl, hc.not_blank⟩ ⟨c', r', rfl, hc'.not_blank⟩ (List.append_cancel_left htail)
  obtain ⟨rfl, rfl⟩ := List.cons.inj hlast
  exact ⟨hbefore, hsame, hafter, rfl, rfl, hblank, hblank'⟩

theorem Part.unique {p p' : Part} {c c' : Char} {r r' : List Char} (hspaced : p.Spaced g)
    (hvalue : Encodes g p.text p.value) (hunique : Unique g g' p.text p.value)
    (hspaced' : p'.Spaced g') (hvalue' : Encodes g' p'.text p'.value) (hc : EndsPart c)
    (hc' : EndsPart c') (heq : p.chars ++ c :: r = p'.chars ++ c' :: r') :
    p = p' ∧ c = c' ∧ r = r' ∧ p.Spaced (g.meet g') ∧ Encodes (g.meet g') p.text p.value := by
  have htext : ∀ s s', Delimited s → Delimited s' → p.text ++ s = p'.text ++ s' →
      p.text = p'.text := fun s s' hs hs' h => (hunique _ _ s s' hvalue' hs hs' h).1
  obtain ⟨before, text, after, value⟩ := p
  obtain ⟨before', text', after', value'⟩ := p'
  obtain ⟨rfl, rfl, rfl, rfl, rfl, hspacedBoth⟩ := Part.split hspaced hspaced' hvalue.solid
    hvalue'.solid hc hc' htext heq
  obtain ⟨-, rfl, -, hmeet⟩ :=
    hunique text value' [] [] hvalue' delimited_nil delimited_nil rfl
  exact ⟨rfl, rfl, rfl, hspacedBoth, hmeet⟩

theorem Member.unique {m m' : Member} {c c' : Char} {r r' : List Char} (hspaced : m.Spaced g)
    (hname : StringBody g m.key m.name) (hvalue : Encodes g m.part.text m.part.value)
    (hunique : Unique g g' m.part.text m.part.value) (hspaced' : m'.Spaced g')
    (hname' : StringBody g' m'.key m'.name) (hvalue' : Encodes g' m'.part.text m'.part.value)
    (hc : EndsPart c) (hc' : EndsPart c') (heq : m.chars ++ c :: r = m'.chars ++ c' :: r') :
    m = m' ∧ c = c' ∧ r = r' ∧ m.Spaced (g.meet g') ∧ StringBody (g.meet g') m.key m.name ∧
      Encodes (g.meet g') m.part.text m.part.value := by
  obtain ⟨before, key, gap, name, part⟩ := m
  obtain ⟨before', key', gap', name', part'⟩ := m'
  simp only [Member.chars, List.append_assoc, List.cons_append] at heq
  obtain ⟨rfl, htail, hbefore⟩ := blanks_unique hspaced.before hspaced'.before
    ⟨'"', _, rfl, by decide⟩ ⟨'"', _, rfl, by decide⟩ heq
  obtain ⟨rfl, rfl, hcolon, hkey⟩ := hname.unique hname' (List.cons.inj htail).2
  obtain ⟨rfl, hpart, hgap⟩ := blanks_unique hspaced.gap hspaced'.gap
    ⟨':', _, rfl, by decide⟩ ⟨':', _, rfl, by decide⟩ hcolon
  obtain ⟨rfl, rfl, rfl, hpartSpaced, hmeet⟩ := Part.unique hspaced.part hvalue hunique
    hspaced'.part hvalue' hc hc' (List.cons.inj hpart).2
  exact ⟨rfl, rfl, rfl, ⟨hbefore, hgap, hpartSpaced⟩, hkey, hmeet⟩

theorem joined_cons_cons (x y : List Char) (rest : List (List Char)) :
    joined (x :: y :: rest) = x ++ ',' :: joined (y :: rest) := by
  simp [joined, List.intercalate, List.intersperse]

theorem joined_append_cons {α : Type*} (chars : α → List Char) (x : α) {xs : List α}
    (hne : xs ≠ []) (s : List Char) :
    joined ((x :: xs).map chars) ++ s = chars x ++ ',' :: (joined (xs.map chars) ++ s) := by
  cases xs with
  | nil => exact absurd rfl hne
  | cons y xs =>
    rw [List.map_cons, List.map_cons, joined_cons_cons, List.append_assoc, List.cons_append]

theorem joined_singleton (x : List Char) : joined [x] = x := by
  simp [joined, List.intercalate]

/-- Sequences whose members cannot be read in two ways cannot be either. -/
theorem joined_unique {α : Type*} {chars : α → List Char} {Q : α → Prop} {close : Char}
    {xs ys : List α} {r r' : List Char} (hclose : EndsPart close) (hcomma : close ≠ ',')
    (hxs : xs ≠ []) (hys : ys ≠ [])
    (hmembers : ∀ x ∈ xs, ∀ y ∈ ys, ∀ c c' s s', EndsPart c → EndsPart c' →
      chars x ++ c :: s = chars y ++ c' :: s' → x = y ∧ c = c' ∧ s = s' ∧ Q x)
    (heq : joined (xs.map chars) ++ close :: r = joined (ys.map chars) ++ close :: r') :
    xs = ys ∧ r = r' ∧ ∀ x ∈ xs, Q x := by
  have hsep : EndsPart ',' := List.mem_cons_self
  induction xs generalizing ys with
  | nil => exact absurd rfl hxs
  | cons x xs ih =>
    cases ys with
    | nil => exact absurd rfl hys
    | cons y ys =>
      have hhead := hmembers x List.mem_cons_self y List.mem_cons_self
      by_cases hnil : xs = [] <;> by_cases hnil' : ys = []
      · subst hnil hnil'
        simp only [List.map_cons, List.map_nil, joined_singleton] at heq
        obtain ⟨rfl, -, rfl, hQ⟩ := hhead _ _ _ _ hclose hclose heq
        exact ⟨rfl, rfl, fun z hz => List.mem_singleton.mp hz ▸ hQ⟩
      · subst hnil
        rw [joined_append_cons chars y hnil', List.map_singleton, joined_singleton] at heq
        exact absurd (hhead _ _ _ _ hclose hsep heq).2.1 hcomma
      · subst hnil'
        rw [joined_append_cons chars x hnil, List.map_singleton, joined_singleton] at heq
        exact absurd (hhead _ _ _ _ hsep hclose heq).2.1.symm hcomma
      · rw [joined_append_cons chars x hnil, joined_append_cons chars y hnil'] at heq
        obtain ⟨rfl, -, hrest, hQ⟩ := hhead _ _ _ _ hsep hsep heq
        obtain ⟨rfl, rfl, hall⟩ := ih hnil hnil'
          (fun z hz w hw => hmembers z (List.mem_cons_of_mem x hz) w (List.mem_cons_of_mem x hw))
          hrest
        exact ⟨rfl, rfl, List.forall_mem_cons.mpr ⟨hQ, hall⟩⟩

/-- Sequences of matching members, each of which can be read in one way only. -/
theorem joined_aligned {α β : Type*} {chars : α → List Char} {chars' : β → List Char}
    {R Q : α → β → Prop} {close : Char} {xs : List α} {ys : List β} {r r' : List Char}
    (hclose : EndsPart close) (hxs : List.Forall₂ R xs ys)
    (hmembers : ∀ x y, R x y → ∀ c c' s s', EndsPart c → EndsPart c' →
      chars x ++ c :: s = chars' y ++ c' :: s' → s = s' ∧ chars x = chars' y ∧ Q x y)
    (heq : joined (xs.map chars) ++ close :: r = joined (ys.map chars') ++ close :: r') :
    joined (xs.map chars) = joined (ys.map chars') ∧ List.Forall₂ Q xs ys := by
  have hsep : EndsPart ',' := List.mem_cons_self
  induction hxs with
  | nil => exact ⟨rfl, .nil⟩
  | @cons x y xs ys hhead htail ih =>
    cases htail with
    | nil =>
      simp only [List.map_cons, List.map_nil, joined_singleton] at heq ⊢
      obtain ⟨-, hchars, hQ⟩ := hmembers x y hhead _ _ _ _ hclose hclose heq
      exact ⟨hchars, .cons hQ .nil⟩
    | @cons x' y' xs ys hnext hrest =>
      have hsplit := joined_append_cons chars x (List.cons_ne_nil x' xs)
      have hsplit' := joined_append_cons chars' y (List.cons_ne_nil y' ys)
      rw [hsplit, hsplit'] at heq
      obtain ⟨hrest', hchars, hQ⟩ := hmembers x y hhead _ _ _ _ hsep hsep heq
      obtain ⟨hjoined, hall⟩ := ih hrest'
      refine ⟨?_, .cons hQ hall⟩
      have hleft := hsplit []
      have hright := hsplit' []
      rw [List.append_nil, List.append_nil] at hleft hright
      rw [hleft, hright, hchars, hjoined]

/-! ### Values -/

/-- How a value starts says what kind of value it is. -/
def SameKind : Datum → Datum → Prop
  | .null, j => j = .null
  | .bool b, j => j = .bool b
  | .number _, j => ∃ q, j = .number q
  | .string _, j => ∃ units, j = .string units
  | .array _, j => ∃ items, j = .array items
  | .object _, j => ∃ members, j = .object members

theorem Starts.sameKind {j j' : Datum} {c : Char} (h : Starts j c) (h' : Starts j' c) :
    SameKind j j' := by
  rcases j with _ | (_ | _) | _ | _ | _ | _ <;> rcases j' with _ | (_ | _) | _ | _ | _ | _ <;>
    simp only [Starts] at h h' <;>
    first
    | rfl
    | exact ⟨_, rfl⟩
    | (exfalso; subst h; revert h'; decide)
    | (exfalso; subst h'; revert h; decide)

theorem Encodes.sameKind {text text' r r' : List Char} {j j' : Datum} (h : Encodes g text j)
    (h' : Encodes g' text' j') (heq : text ++ r = text' ++ r') : SameKind j j' := by
  obtain ⟨c, rest, rfl, hc⟩ := h.head
  obtain ⟨c', rest', rfl, hc'⟩ := h'.head
  obtain ⟨rfl, -⟩ := List.cons.inj heq
  exact hc.sameKind hc'

theorem endsPart_bracket : EndsPart ']' := List.mem_cons_of_mem _ List.mem_cons_self

theorem endsPart_brace : EndsPart '\x7d' :=
  List.mem_cons_of_mem _ (List.mem_cons_of_mem _ List.mem_cons_self)

/-- A nonempty sequence does not read as an empty one: its first member starts with blanks and
then a character that does not close the sequence. -/
theorem joined_ne_close {α : Type*} {chars : α → List Char} {xs : List α} {close : Char}
    {gap r r' : List Char} (hgap : Blanks g gap) (hclose : EndsPart close) (hne : xs ≠ [])
    (hopens : ∀ x ∈ xs, ∃ before c rest, Blanks g' before ∧
      c ∉ [' ', '\t', '\n', '\r'] ∧ c ≠ close ∧ chars x = before ++ c :: rest) :
    gap ++ close :: r ≠ joined (xs.map chars) ++ r' := by
  intro heq
  obtain ⟨x, xs, rfl⟩ := List.exists_cons_of_ne_nil hne
  obtain ⟨before, c, rest, hbefore, hblank, hc, hchars⟩ := hopens x List.mem_cons_self
  have hfirst : ∃ more, joined ((x :: xs).map chars) ++ r' = before ++ c :: more := by
    by_cases hnil : xs = []
    · subst hnil
      rw [List.map_singleton, joined_singleton, hchars, List.append_assoc, List.cons_append]
      exact ⟨_, rfl⟩
    · rw [joined_append_cons chars x hnil, hchars, List.append_assoc, List.cons_append]
      exact ⟨_, rfl⟩
  obtain ⟨more, hmore⟩ := hfirst
  rw [hmore] at heq
  obtain ⟨-, htail, -⟩ := blanks_unique hgap hbefore ⟨close, r, rfl, hclose.not_blank⟩
    ⟨c, more, rfl, hblank⟩ heq
  exact hc (List.cons.inj htail).1.symm

theorem Starts.ne_close {j : Datum} {c : Char} (h : Starts j c) : c ≠ ']' := by
  rintro rfl
  rcases j with _ | (_ | _) | _ | _ | _ | _ <;> revert h <;> simp only [Starts] <;> decide

theorem part_opens {p : Part} (hspaced : p.Spaced g) (hvalue : Encodes g p.text p.value) :
    ∃ before c rest, Blanks g before ∧ c ∉ [' ', '\t', '\n', '\r'] ∧ c ≠ ']' ∧
      p.chars = before ++ c :: rest := by
  obtain ⟨c, rest, htext, hc⟩ := hvalue.head
  refine ⟨p.before, c, rest ++ p.after, hspaced.before, hc.solid, hc.ne_close, ?_⟩
  rw [Part.chars, htext, List.cons_append]

theorem member_opens {m : Member} (hspaced : m.Spaced g) :
    ∃ before c rest, Blanks g before ∧ c ∉ [' ', '\t', '\n', '\r'] ∧ c ≠ '\x7d' ∧
      m.chars = before ++ c :: rest :=
  ⟨m.before, '"', _, hspaced.before, by decide, by decide, rfl⟩

theorem Encodes.unique {text : List Char} {j : Datum} (h : Encodes g text j) :
    Unique g g' text j := by
  induction h with
  | null =>
    intro text' j' r r' h' hr hr' heq
    obtain rfl := (Encodes.null (g := g)).sameKind h' heq
    cases h'
    exact ⟨rfl, rfl, List.append_cancel_left heq, .null⟩
  | true =>
    intro text' j' r r' h' hr hr' heq
    obtain rfl := (Encodes.true (g := g)).sameKind h' heq
    cases h'
    exact ⟨rfl, rfl, List.append_cancel_left heq, .true⟩
  | false =>
    intro text' j' r r' h' hr hr' heq
    obtain rfl := (Encodes.false (g := g)).sameKind h' heq
    cases h'
    exact ⟨rfl, rfl, List.append_cancel_left heq, .false⟩
  | number htext =>
    intro text' j' r r' h' hr hr' heq
    obtain ⟨q, rfl⟩ := (Encodes.number (g := g) htext).sameKind h' heq
    cases h' with
    | number htext' =>
      obtain ⟨rfl, rfl⟩ := run_unique (number_chars htext) (number_chars htext')
        (fun c hc => isNumberChar_of_delimiter (hr c hc))
        (fun c hc => isNumberChar_of_delimiter (hr' c hc)) heq
      exact ⟨rfl, rfl, rfl, .number htext⟩
  | string hbody =>
    intro text' j' r r' h' hr hr' heq
    obtain ⟨units, rfl⟩ := (Encodes.string hbody).sameKind h' heq
    cases h' with
    | string hbody' =>
      simp only [List.cons_append, List.append_assoc, List.nil_append] at heq
      obtain ⟨rfl, rfl, rfl, hmeet⟩ := hbody.unique hbody' (List.cons.inj heq).2
      exact ⟨rfl, rfl, rfl, .string hmeet⟩
  | @emptyArray gap hgap =>
    intro text' j' r r' h' hr hr' heq
    obtain ⟨items, rfl⟩ := (Encodes.emptyArray hgap).sameKind h' heq
    cases h' with
    | emptyArray hgap' =>
      simp only [List.cons_append, List.append_assoc, List.nil_append] at heq
      obtain ⟨rfl, hrest, hmeet⟩ := blanks_unique hgap hgap' ⟨']', _, rfl, by decide⟩
        ⟨']', _, rfl, by decide⟩ (List.cons.inj heq).2
      exact ⟨rfl, rfl, (List.cons.inj hrest).2, .emptyArray hmeet⟩
    | array hne hspaced hvalues =>
      simp only [List.cons_append, List.append_assoc, List.nil_append] at heq
      exact absurd (List.cons.inj heq).2 (joined_ne_close hgap endsPart_bracket hne
        fun p hp => part_opens (hspaced p hp) (hvalues p hp))
  | @array parts hne hspaced hvalues ih =>
    intro text' j' r r' h' hr hr' heq
    obtain ⟨items, rfl⟩ := (Encodes.array hne hspaced hvalues).sameKind h' heq
    cases h' with
    | emptyArray hgap' =>
      simp only [List.cons_append, List.append_assoc, List.nil_append] at heq
      exact absurd (List.cons.inj heq).2.symm (joined_ne_close hgap' endsPart_bracket hne
        fun p hp => part_opens (hspaced p hp) (hvalues p hp))
    | @array parts' hne' hspaced' hvalues' =>
      simp only [List.cons_append, List.append_assoc, List.nil_append] at heq
      obtain ⟨rfl, rfl, hall⟩ := joined_unique endsPart_bracket (by decide) hne hne'
        (fun p hp p' hp' c c' s s' hc hc' heq => Part.unique (hspaced p hp) (hvalues p hp) (ih p hp)
          (hspaced' p' hp') (hvalues' p' hp') hc hc' heq) (List.cons.inj heq).2
      exact ⟨rfl, rfl, rfl, .array hne (fun p hp => (hall p hp).1) fun p hp => (hall p hp).2⟩
  | @emptyObject gap hgap =>
    intro text' j' r r' h' hr hr' heq
    obtain ⟨members, rfl⟩ := (Encodes.emptyObject hgap).sameKind h' heq
    cases h' with
    | emptyObject hgap' =>
      simp only [List.cons_append, List.append_assoc, List.nil_append] at heq
      obtain ⟨rfl, hrest, hmeet⟩ := blanks_unique hgap hgap' ⟨'\x7d', _, rfl, by decide⟩
        ⟨'\x7d', _, rfl, by decide⟩ (List.cons.inj heq).2
      exact ⟨rfl, rfl, (List.cons.inj hrest).2, .emptyObject hmeet⟩
    | object hne hspaced hnames hvalues =>
      simp only [List.cons_append, List.append_assoc, List.nil_append] at heq
      exact absurd (List.cons.inj heq).2 (joined_ne_close hgap endsPart_brace hne
        fun m hm => member_opens (hspaced m hm))
  | @object members hne hspaced hnames hvalues ih =>
    intro text' j' r r' h' hr hr' heq
    obtain ⟨entries, rfl⟩ := (Encodes.object hne hspaced hnames hvalues).sameKind h' heq
    cases h' with
    | emptyObject hgap' =>
      simp only [List.cons_append, List.append_assoc, List.nil_append] at heq
      exact absurd (List.cons.inj heq).2.symm (joined_ne_close hgap' endsPart_brace hne
        fun m hm => member_opens (hspaced m hm))
    | @object members' hne' hspaced' hnames' hvalues' =>
      simp only [List.cons_append, List.append_assoc, List.nil_append] at heq
      obtain ⟨rfl, rfl, hall⟩ := joined_unique endsPart_brace (by decide) hne hne'
        (fun m hm m' hm' c c' s s' hc hc' heq => Member.unique (hspaced m hm) (hnames m hm)
          (hvalues m hm) (ih m hm) (hspaced' m' hm') (hnames' m' hm') (hvalues' m' hm') hc hc' heq)
        (List.cons.inj heq).2
      exact ⟨rfl, rfl, rfl, .object hne (fun m hm => (hall m hm).1)
        (fun m hm => (hall m hm).2.1) fun m hm => (hall m hm).2.2⟩

theorem Encodes.eq {text : List Char} {j j' : Datum} (h : Encodes g text j)
    (h' : Encodes g' text j') : j = j' :=
  (h.unique text j' [] [] h' delimited_nil delimited_nil rfl).2.1

/-- A whole text stands for at most one value, and two derivations of it are one derivation. -/
theorem Document.unique {text : List Char} {j j' : Datum} (h : Document g text j)
    (h' : Document g' text j') : j = j' ∧ Document (g.meet g') text j := by
  obtain ⟨p, rfl, rfl, hspaced, hvalue⟩ := h
  obtain ⟨p', heq, rfl, hspaced', hvalue'⟩ := h'
  have hsame : p.chars ++ ']' :: [] = p'.chars ++ ']' :: [] := congrArg (· ++ [']']) heq
  obtain ⟨rfl, -, -, hmeet, hboth⟩ := Part.unique hspaced hvalue hvalue.unique hspaced' hvalue'
    endsPart_bracket endsPart_bracket hsame
  exact ⟨rfl, p, rfl, rfl, hmeet, hboth⟩

/-! ### Control characters -/

/-- A text without control characters. -/
def Printable (w : List Char) : Prop := ∀ c ∈ w, 0x20 ≤ c.toNat

theorem printable_append {v w : List Char} (hv : Printable v) (hw : Printable w) :
    Printable (v ++ w) :=
  List.forall_mem_append.mpr ⟨hv, hw⟩

theorem printable_cons {c : Char} {w : List Char} (hc : 0x20 ≤ c.toNat) (hw : Printable w) :
    Printable (c :: w) :=
  List.forall_mem_cons.mpr ⟨hc, hw⟩

theorem printable_joined {α : Type*} {chars : α → List Char} {xs : List α}
    (h : ∀ x ∈ xs, Printable (chars x)) : Printable (joined (xs.map chars)) := by
  induction xs with
  | nil => exact fun c hc => absurd hc List.not_mem_nil
  | cons x xs ih =>
    have hhead := h x List.mem_cons_self
    have htail := ih fun y hy => h y (List.mem_cons_of_mem x hy)
    by_cases hnil : xs = []
    · subst hnil
      rw [List.map_singleton, joined_singleton]
      exact hhead
    · have hsplit := joined_append_cons chars x hnil []
      rw [List.append_nil, List.append_nil] at hsplit
      rw [hsplit]
      exact printable_append hhead (printable_cons (by decide) htail)

/-- A grammar without control characters. -/
structure Grammar.Printing (g : Grammar) : Prop where
  blank : ∀ c, g.blank c → 0x20 ≤ c.toNat
  plain : ∀ c, g.plain c → 0x20 ≤ c.toNat

theorem escapeUnit_printable {c : Char} {u : ℕ} (h : escapeUnit c = some u) : 0x20 ≤ c.toNat := by
  unfold escapeUnit at h
  split at h <;> first | decide | cases h

theorem hexValue_printable {c : Char} {n : ℕ} (h : hexValue c = some n) : 0x20 ≤ c.toNat := by
  unfold hexValue at h
  split at h
  · next hdigit => exact le_trans (by decide) (Char.isDigit_iff_toNat.mp hdigit).1
  · split at h
    · next hlower => exact le_trans (by decide) (UInt32.le_iff_toNat_le.mp hlower.1)
    · split at h
      · next hupper => exact le_trans (by decide) (UInt32.le_iff_toNat_le.mp hupper.1)
      · cases h

theorem StringBody.printable (hprinting : g.Printing) {body : List Char} {units : List ℕ}
    (h : StringBody g body units) : Printable body := by
  induction h with
  | nil => exact fun c hc => absurd hc List.not_mem_nil
  | plain hplain _ _ _ ih => exact printable_cons (hprinting.plain _ hplain) ih
  | escape hunit _ ih =>
    exact printable_cons (by decide) (printable_cons (escapeUnit_printable hunit) ih)
  | code ha hb hc hd _ ih =>
    exact printable_cons (by decide) (printable_cons (by decide)
      (printable_cons (hexValue_printable ha) (printable_cons (hexValue_printable hb)
        (printable_cons (hexValue_printable hc) (printable_cons (hexValue_printable hd) ih)))))

theorem number_printable {text : List Char} (htext : text ∈ number) : Printable text := by
  intro c hc
  have hchar := number_chars htext c hc
  simp only [isNumberChar, Bool.or_eq_true, decide_eq_true_eq] at hchar
  rcases hchar with hdigit | hmem
  · exact le_trans (by decide) (Char.isDigit_iff_toNat.mp hdigit).1
  · have hall : ∀ d ∈ ['-', '+', '.', 'e', 'E'], 0x20 ≤ d.toNat := by decide
    exact hall c hmem

theorem Encodes.printable (hprinting : g.Printing) {text : List Char} {j : Datum}
    (h : Encodes g text j) : Printable text := by
  have hblanks : ∀ {w : List Char}, Blanks g w → Printable w := fun hw c hc =>
    hprinting.blank c (hw c hc)
  have hpart : ∀ {p : Part}, p.Spaced g → Printable p.text → Printable p.chars := fun hp htext =>
    printable_append (hblanks hp.before) (printable_append htext (hblanks hp.after))
  have hlast : ∀ {c : Char}, 0x20 ≤ c.toNat → Printable [c] := fun hc =>
    printable_cons hc fun c hc => absurd hc List.not_mem_nil
  induction h with
  | null => unfold Printable; decide
  | true => unfold Printable; decide
  | false => unfold Printable; decide
  | number htext => exact number_printable htext
  | string hbody =>
    exact printable_cons (by decide) (printable_append (hbody.printable hprinting)
      (hlast (by decide)))
  | emptyArray hgap =>
    exact printable_cons (by decide) (printable_append (hblanks hgap) (hlast (by decide)))
  | array _ hspaced _ ih =>
    exact printable_cons (by decide) (printable_append
      (printable_joined fun p hp => hpart (hspaced p hp) (ih p hp)) (hlast (by decide)))
  | emptyObject hgap =>
    exact printable_cons (by decide) (printable_append (hblanks hgap) (hlast (by decide)))
  | object _ hspaced hnames _ ih =>
    refine printable_cons (by decide) (printable_append (printable_joined fun m hm => ?_)
      (hlast (by decide)))
    exact printable_append (hblanks (hspaced m hm).before) (printable_cons (by decide)
      (printable_append ((hnames m hm).printable hprinting) (printable_cons (by decide)
        (printable_append (hblanks (hspaced m hm).gap) (printable_cons (by decide)
          (hpart (hspaced m hm).part (ih m hm)))))))

end

end Zllm.Json
