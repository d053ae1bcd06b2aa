import Zllm.Lib.Texts

/-!
# Regular expressions as text

The syntax that anchored patterns are written in, read from left to right with a stack of open
groups, and the language of what is read. A text that reads as a sequence of items does so wherever
it is spliced in, so the language of a spliced pattern is put together from those of its parts.

An anchor or a word boundary looks at the characters beside it, so what an expression matches depends
on what stands before and after it, and a language is one for each pair of neighbours.

`\d`, `\w` and the other named classes are tables of the engine, taken as a parameter. Flags and named
groups are not read.
-/

namespace Zllm.Regex

open Zllm.Texts

/-! ### Texts between two characters -/

/-- The texts that match between a character and another, either of which is `none` at that end of
the whole text. -/
abbrev Placed := Option Char → Option Char → Language Char

namespace Placed

/-- The same texts wherever they stand. -/
def anywhere (l : Language Char) : Placed := fun _ _ => l

def seq (first second : Placed) : Placed := fun before after =>
  { w | ∃ u v, u ++ v = w ∧ u ∈ first before (v.head?.or after) ∧
    v ∈ second (u.getLast?.or before) after }

def pow (l : Placed) : ℕ → Placed
  | 0 => anywhere 1
  | n + 1 => seq l (pow l n)

theorem seq_anywhere (l m : Language Char) : seq (anywhere l) (anywhere m) = anywhere (l * m) := by
  funext before after
  ext w
  constructor
  · rintro ⟨u, v, rfl, hu, hv⟩
    exact Language.append_mem_mul hu hv
  · intro hw
    obtain ⟨u, hu, v, hv, rfl⟩ := Language.mem_mul.mp hw
    exact ⟨u, v, rfl, hu, hv⟩

theorem pow_anywhere (l : Language Char) (n : ℕ) : pow (anywhere l) n = anywhere (l ^ n) := by
  induction n with
  | zero => rw [pow, pow_zero]
  | succ n ih => rw [pow, ih, seq_anywhere, pow_succ']

theorem eps_seq (l : Placed) : seq (anywhere 1) l = l := by
  funext before after
  ext w
  constructor
  · rintro ⟨u, v, rfl, rfl, hv⟩
    exact hv
  · intro hw
    exact ⟨[], w, rfl, rfl, hw⟩

theorem seq_eps (l : Placed) : seq l (anywhere 1) = l := by
  funext before after
  ext w
  constructor
  · rintro ⟨u, v, rfl, hu, rfl⟩
    rw [List.append_nil]
    exact hu
  · intro hw
    exact ⟨w, [], List.append_nil w, hw, rfl⟩

theorem seq_assoc (l m k : Placed) : seq (seq l m) k = seq l (seq m k) := by
  funext before after
  ext w
  constructor
  · rintro ⟨_, x, rfl, ⟨u, v, rfl, hu, hv⟩, hx⟩
    refine ⟨u, v ++ x, (List.append_assoc u v x).symm, ?_, v, x, rfl, hv, ?_⟩
    · rwa [List.head?_append, Option.or_assoc]
    · rwa [List.getLast?_append, Option.or_assoc] at hx
  · rintro ⟨u, _, rfl, hu, v, x, rfl, hv, hx⟩
    refine ⟨u ++ v, x, List.append_assoc u v x, ⟨u, v, rfl, ?_, hv⟩, ?_⟩
    · rwa [List.head?_append, Option.or_assoc] at hu
    · rwa [List.getLast?_append, Option.or_assoc]

theorem seq_between (c d : Char) (l : Placed) :
    seq (seq (anywhere (exactly [c])) l) (anywhere (exactly [d])) =
      anywhere (exactly [c] * l (some c) (some d) * exactly [d]) := by
  funext before after
  ext w
  constructor
  · rintro ⟨_, _, rfl, ⟨_, v, rfl, rfl, hv⟩, rfl⟩
    exact Language.append_mem_mul (Language.append_mem_mul rfl hv) rfl
  · intro hw
    obtain ⟨_, hopen, _, rfl, rfl⟩ := Language.mem_mul.mp hw
    obtain ⟨_, rfl, v, hv, rfl⟩ := Language.mem_mul.mp hopen
    exact ⟨_, _, rfl, ⟨_, v, rfl, rfl, hv⟩, rfl⟩

end Placed

/-! ### Expressions -/

inductive Expr
  | zero
  | eps
  | one (p : Char → Bool)
  /-- An assertion about the characters before and after. -/
  | look (holds : Option Char → Option Char → Bool)
  | seq (first second : Expr)
  | alt (first second : Expr)
  | star (e : Expr)
  | opt (e : Expr)
  | times (e : Expr) (lo : Nat) (hi : Option Nat)

namespace Expr

def lit (c : Char) : Expr := one fun d => d == c

/-- `^`, and `\A`. -/
def atStart : Expr := look fun before _ => before.isNone

/-- `$`, and `\z`. -/
def atEnd : Expr := look fun _ after => after.isNone

/-- `\b`, or `\B` where negated: a character of a word on one side only. -/
def boundary (word : Char → Bool) (negated : Bool) : Expr :=
  look fun before after => negated ^^ (before.any word ^^ after.any word)

def seqs (items : List Expr) : Expr := items.foldr seq eps

def alts (branches : List Expr) : Expr := branches.foldr alt zero

def lang : Expr → Placed
  | zero => Placed.anywhere 0
  | eps => Placed.anywhere 1
  | one p => Placed.anywhere (oneOf p)
  | look holds => fun before after => { w | w = [] ∧ holds before after = true }
  | seq first second => first.lang.seq second.lang
  | alt first second => fun before after => first.lang before after + second.lang before after
  | star e => fun before after => { w | ∃ n, w ∈ e.lang.pow n before after }
  | opt e => fun before after => optional (e.lang before after)
  | times e lo hi => fun before after =>
    { w | ∃ n, lo ≤ n ∧ (∀ h ∈ hi, n ≤ h) ∧ w ∈ e.lang.pow n before after }

end Expr

open Placed

theorem lang_lit (c : Char) : (Expr.lit c).lang = anywhere (exactly [c]) :=
  congrArg anywhere (oneOf_singleton c)

theorem lang_seqs_singleton (item : Expr) : (Expr.seqs [item]).lang = item.lang :=
  seq_eps item.lang

theorem lang_seqs_append (items others : List Expr) :
    (Expr.seqs (items ++ others)).lang = (Expr.seqs items).lang.seq (Expr.seqs others).lang := by
  induction items with
  | nil => exact (eps_seq _).symm
  | cons item items ih =>
    show item.lang.seq (Expr.seqs (items ++ others)).lang = _
    rw [ih, ← seq_assoc]
    rfl

theorem lang_alts_singleton (branch : Expr) : (Expr.alts [branch]).lang = branch.lang := by
  funext before after
  exact add_zero _

section

variable {e : Expr} {l : Language Char}

theorem lang_star (he : e.lang = anywhere l) : e.star.lang = anywhere (KStar.kstar l) := by
  funext before after
  ext w
  rw [anywhere, Language.kstar_eq_iSup_pow, Language.mem_iSup]
  show (∃ n, w ∈ e.lang.pow n before after) ↔ _
  simp only [he, pow_anywhere]
  rfl

theorem lang_opt (he : e.lang = anywhere l) : e.opt.lang = anywhere (optional l) := by
  funext before after
  show optional (e.lang before after) = _
  rw [he]
  rfl

theorem lang_times (he : e.lang = anywhere l) (lo : ℕ) (hi : Option ℕ) :
    (e.times lo hi).lang = anywhere (repeated l lo hi) := by
  funext before after
  ext w
  show (∃ n, lo ≤ n ∧ (∀ h ∈ hi, n ≤ h) ∧ w ∈ e.lang.pow n before after) ↔ _
  simp only [he, pow_anywhere]
  rfl

end

/-! ### Reading a pattern -/

/-- What has been read of a group: its finished branches and the items of the current one, the
latest first. -/
structure Frame where
  alts : List Expr
  items : List Expr

/-- A character of a class, escaped or not, or a named class. -/
inductive ClassMember
  | char (c : Char) (escaped : Bool)
  | named (p : Char → Bool)

inductive Mode
  /-- Between items; a `?` after a repetition makes it lazy. -/
  | normal (repeated : Bool)
  | escape
  /-- After `(?`, before the `:` of a group that captures nothing. -/
  | unnamed
  | counting (lo : Option Nat) (comma : Bool) (hi : Option Nat)
  /-- In a class: what it lists so far, the latest first. -/
  | cls (started negated : Bool) (members : List ClassMember) (escaped : Bool)

structure State where
  stack : List Frame
  frame : Frame
  mode : Mode

/-- An ASCII character that may follow a backslash to stand for itself. -/
def escapable (c : Char) : Bool :=
  decide (c.val < 128) && !c.isAlphanum && c != '<' && c != '>'

/-- The characters that a class lists: a `-` between two characters makes a range. -/
def classOf : List ClassMember → Option (Char → Bool)
  | [] => some fun _ => false
  | .char a _ :: .char '-' false :: .char b _ :: rest =>
    if a ≤ b then (classOf rest).map fun p c => (decide (a ≤ c) && decide (c ≤ b)) || p c else none
  | .char a _ :: rest => (classOf rest).map fun p c => c == a || p c
  | .named q :: rest => (classOf rest).map fun p c => q c || p c

namespace State

def push (st : State) (item : Expr) (repeated : Bool) : State :=
  { st with
    frame := { st.frame with items := item :: st.frame.items }
    mode := .normal repeated }

/-- A repetition applies to the latest item. -/
def repeatLast (st : State) (f : Expr → Expr) : Option State :=
  match st.frame.items with
  | [] => none
  | item :: items =>
    some { st with frame := { st.frame with items := f item :: items }, mode := .normal true }

/-- The branches of a group that has been read to its end. -/
def branches (frame : Frame) : List Expr :=
  (Expr.seqs frame.items.reverse :: frame.alts).reverse

def stepNormal (st : State) (repeated : Bool) (c : Char) : Option State :=
  if c = '\\' then some { st with mode := .escape }
  else if c = '(' then
    some { stack := st.frame :: st.stack, frame := ⟨[], []⟩, mode := .normal false }
  else if c = ')' then
    match st.stack with
    | [] => none
    | outer :: stack =>
      some { stack
             frame := { outer with items := Expr.alts (branches st.frame) :: outer.items }
             mode := .normal false }
  else if c = '|' then
    some { st with
      frame := ⟨Expr.seqs st.frame.items.reverse :: st.frame.alts, []⟩
      mode := .normal false }
  else if c = '*' then st.repeatLast .star
  else if c = '+' then st.repeatLast fun e => .seq e (.star e)
  else if c = '?' then
    if repeated then some { st with mode := .normal false }
    else if st.frame.items.isEmpty && st.frame.alts.isEmpty && !st.stack.isEmpty then
      some { st with mode := .unnamed }
    else st.repeatLast .opt
  else if c = '{' then
    if st.frame.items.isEmpty then none else some { st with mode := .counting none false none }
  else if c = '[' then some { st with mode := .cls false false [] false }
  else if c = '.' then some (st.push (.one fun d => !(d == '\n')) false)
  else if c = '^' then some (st.push .atStart false)
  else if c = '$' then some (st.push .atEnd false)
  else some (st.push (.lit c) false)

def stepCounting (st : State) (lo : Option Nat) (comma : Bool) (hi : Option Nat) (c : Char) :
    Option State :=
  let digit (n : Option Nat) : Option Nat := some (10 * n.getD 0 + (c.toNat - '0'.toNat))
  if c.isDigit then
    if comma then some { st with mode := .counting lo comma (digit hi) }
    else some { st with mode := .counting (digit lo) comma hi }
  else if c = ',' then
    if comma || lo.isNone then none else some { st with mode := .counting lo true hi }
  else if c = '}' then
    match lo with
    | none => none
    | some n =>
      let most := if comma then hi else some n
      if most.all fun h => decide (n ≤ h) then st.repeatLast fun e => .times e n most else none
  else none

def stepClass (named : Char → Option (Char → Bool)) (st : State) (started negated : Bool)
    (members : List ClassMember) (escaped : Bool) (c : Char) : Option State :=
  let add (member : ClassMember) : State :=
    { st with mode := .cls true negated (member :: members) false }
  if escaped then
    if escapable c then some (add (.char c true)) else (named c).map fun p => add (.named p)
  else if c = '^' ∧ started = false then some { st with mode := .cls true true members false }
  else if c = '\\' then some { st with mode := .cls true negated members true }
  else if c = ']' then
    if members.isEmpty then none
    else (classOf members.reverse).map fun p => st.push (.one fun d => negated ^^ p d) false
  else if c = '[' ∨ c = '&' ∨ c = '~' ∨ (c = '-' ∧ members.head? matches some (.char '-' false)) then
    none
  else some (add (.char c false))

def stepEscape (named : Char → Option (Char → Bool)) (st : State) (c : Char) : Option State :=
  if escapable c then some (st.push (.lit c) false)
  else if c = 'A' then some (st.push .atStart false)
  else if c = 'z' then some (st.push .atEnd false)
  else if c = 'b' ∨ c = 'B' then
    (named 'w').map fun word => st.push (.boundary word (decide (c = 'B'))) false
  else (named c).map fun p => st.push (.one p) false

def step (named : Char → Option (Char → Bool)) (st : State) (c : Char) : Option State :=
  match st.mode with
  | .normal repeated => st.stepNormal repeated c
  | .escape => st.stepEscape named c
  | .unnamed => if c = ':' then some { st with mode := .normal false } else none
  | .counting lo comma hi => st.stepCounting lo comma hi c
  | .cls started negated members escaped => st.stepClass named started negated members escaped c

def run (named : Char → Option (Char → Bool)) (text : List Char) (st : State) : Option State :=
  text.foldlM (step named) st

def start : State where
  stack := []
  frame := ⟨[], []⟩
  mode := .normal false

end State

section

variable (named : Char → Option (Char → Bool))

/-- The expression that a pattern is read as. -/
def parse (pattern : List Char) : Option Expr :=
  match State.run named pattern State.start with
  | some { stack := [], frame, mode := .normal _ } => some (Expr.alts (State.branches frame))
  | _ => none

/-- The texts that a pattern matches between two characters. -/
def matchAt (pattern : List Char) (before after : Option Char) : Language Char :=
  { w | ∃ e, parse named pattern = some e ∧ w ∈ e.lang before after }

/-- The texts that a pattern fully matches. -/
def fullMatch (pattern : List Char) : Language Char := matchAt named pattern none none

/-! ### Splicing -/

open State

/-- A text that reads as these items wherever it is spliced in between items. -/
def Reads (text : List Char) (items : List Expr) : Prop :=
  ∀ stack frame repeated, ∃ repeated',
    run named text { stack, frame, mode := .normal repeated } =
      some { stack
             frame := { frame with items := items.reverse ++ frame.items }
             mode := .normal repeated' }

/-- A text that reads as these branches of a group. -/
def ReadsBranches (text : List Char) (found : List Expr) : Prop :=
  ∀ stack alts, ∃ frame repeated,
    run named text { stack, frame := ⟨alts, []⟩, mode := .normal false } =
      some { stack, frame, mode := .normal repeated } ∧ branches frame = alts.reverse ++ found

/-- A text that, spliced in anywhere, stands for a language. -/
def Denotes (text : List Char) (l : Language Char) : Prop :=
  ∃ items, Reads named text items ∧ (Expr.seqs items).lang = anywhere l

/-- A text that, spliced in anywhere, reads as one item which a repetition can follow. -/
def DenotesItem (text : List Char) (l : Language Char) : Prop :=
  ∃ e : Expr, e.lang = anywhere l ∧ ∀ stack frame repeated,
    run named text { stack, frame, mode := .normal repeated } =
      some { stack
             frame := { frame with items := e :: frame.items }
             mode := .normal false }

/-- A text that stands for a language between parentheses. -/
def DenotesBranches (text : List Char) (l : Language Char) : Prop :=
  ∃ found, ReadsBranches named text found ∧ (Expr.alts found).lang = anywhere l

variable {named : Char → Option (Char → Bool)}

theorem run_append (text more : List Char) (st : State) :
    run named (text ++ more) st = (run named text st).bind (run named more) :=
  List.foldlM_append

theorem run_cons (c : Char) (text : List Char) (st : State) :
    run named (c :: text) st = (st.step named c).bind (run named text) :=
  List.foldlM_cons

theorem reads_nil : Reads named [] [] := fun _ _ repeated => ⟨repeated, rfl⟩

theorem Reads.append {text more : List Char} {items others : List Expr} (hfirst : Reads named text items)
    (hsecond : Reads named more others) : Reads named (text ++ more) (items ++ others) := by
  intro stack frame repeated
  obtain ⟨between, hrun⟩ := hfirst stack frame repeated
  obtain ⟨after, hrun'⟩ :=
    hsecond stack { frame with items := items.reverse ++ frame.items } between
  refine ⟨after, ?_⟩
  rw [run_append, hrun, Option.bind_some, hrun', List.reverse_append, List.append_assoc]

theorem denotes_nil : Denotes named [] 1 := ⟨[], reads_nil, rfl⟩

theorem Denotes.append {text more : List Char} {l m : Language Char} (hfirst : Denotes named text l)
    (hsecond : Denotes named more m) : Denotes named (text ++ more) (l * m) := by
  obtain ⟨items, hreads, hl⟩ := hfirst
  obtain ⟨others, hreads', hm⟩ := hsecond
  refine ⟨items ++ others, hreads.append hreads', ?_⟩
  rw [lang_seqs_append, hl, hm, seq_anywhere]

/-- Characters that stand for themselves outside classes. -/
def plain (c : Char) : Bool := !(c ∈ ['\\', '(', ')', '|', '*', '+', '?', '{', '[', '.', '^', '$'])

theorem step_plain {c : Char} (hc : plain c = true) (st : State) {repeated : Bool}
    (hmode : st.mode = .normal repeated) : st.step named c = some (st.push (.lit c) false) := by
  simp only [plain, List.mem_cons, List.not_mem_nil, or_false, Bool.not_eq_true',
    decide_eq_false_iff_not, not_or] at hc
  obtain ⟨h1, h2, h3, h4, h5, h6, h7, h8, h9, h10, h11, h12⟩ := hc
  simp [State.step, hmode, stepNormal, h1, h2, h3, h4, h5, h6, h7, h8, h9, h10, h11, h12]

theorem item_plain {c : Char} (hc : plain c = true) : DenotesItem named [c] (exactly [c]) := by
  refine ⟨.lit c, lang_lit c, fun stack frame repeated => ?_⟩
  rw [run_cons, step_plain hc _ rfl]
  rfl

theorem item_escape {c : Char} (hc : escapable c = true) :
    DenotesItem named ['\\', c] (exactly [c]) := by
  refine ⟨.lit c, lang_lit c, fun stack frame repeated => ?_⟩
  rw [run_cons]
  show (stepEscape named { stack, frame, mode := .escape } c).bind (run named []) = _
  rw [stepEscape, if_pos hc]
  rfl

section

variable {text : List Char} {l : Language Char}

theorem DenotesItem.denotes (h : DenotesItem named text l) : Denotes named text l := by
  obtain ⟨e, he, hrun⟩ := h
  exact ⟨[e], fun stack frame repeated => ⟨false, hrun stack frame repeated⟩,
    (lang_seqs_singleton e).trans he⟩

theorem denotes_repeat {e repeatedItem : Expr} (hlang : repeatedItem.lang = anywhere l) (c : Char)
    (hitem : ∀ stack frame repeated,
      run named text { stack, frame, mode := .normal repeated } =
        some { stack, frame := { frame with items := e :: frame.items }, mode := .normal false })
    (hrepeat : ∀ (stack : List Frame) (frame : Frame),
      State.step named
          { stack, frame := { frame with items := e :: frame.items }, mode := .normal false } c =
        some { stack, frame := { frame with items := repeatedItem :: frame.items }
               mode := .normal true }) :
    Denotes named (text ++ [c]) l := by
  refine ⟨[repeatedItem], fun stack frame repeated => ⟨true, ?_⟩,
    (lang_seqs_singleton repeatedItem).trans hlang⟩
  rw [run_append, hitem, Option.bind_some, run_cons, hrepeat]
  rfl

theorem DenotesItem.star (h : DenotesItem named text l) :
    Denotes named (text ++ ['*']) (KStar.kstar l) := by
  obtain ⟨e, he, hrun⟩ := h
  exact denotes_repeat (lang_star he) '*' hrun fun stack frame => rfl

theorem DenotesItem.plus (h : DenotesItem named text l) :
    Denotes named (text ++ ['+']) (l * KStar.kstar l) := by
  obtain ⟨e, he, hrun⟩ := h
  have hplus : (Expr.seq e e.star).lang = anywhere (l * KStar.kstar l) := by
    rw [← seq_anywhere, ← lang_star he, ← he]
    rfl
  exact denotes_repeat hplus '+' hrun fun stack frame => rfl

theorem DenotesItem.opt (h : DenotesItem named text l) :
    Denotes named (text ++ ['?']) (optional l) := by
  obtain ⟨e, he, hrun⟩ := h
  exact denotes_repeat (lang_opt he) '?' hrun fun stack frame => rfl

end

theorem denotes_plain {c : Char} (hc : plain c = true) : Denotes named [c] (exactly [c]) :=
  (item_plain hc).denotes

theorem denotes_escape {c : Char} (hc : escapable c = true) :
    Denotes named ['\\', c] (exactly [c]) :=
  (item_escape hc).denotes

/-! ### Groups -/

theorem readsBranches_of_reads {text : List Char} {items : List Expr} (hreads : Reads named text items) :
    ReadsBranches named text [.seqs items] := by
  intro stack alts
  obtain ⟨repeated, hrun⟩ := hreads stack ⟨alts, []⟩ false
  refine ⟨_, repeated, hrun, ?_⟩
  simp [branches]

theorem readsBranches_cons {text more : List Char} {items found : List Expr}
    (hfirst : Reads named text items) (hsecond : ReadsBranches named more found) :
    ReadsBranches named (text ++ '|' :: more) (.seqs items :: found) := by
  intro stack alts
  obtain ⟨repeated, hrun⟩ := hfirst stack ⟨alts, []⟩ false
  obtain ⟨frame, after, hrun', hbranches⟩ := hsecond stack (.seqs items :: alts)
  refine ⟨frame, after, ?_, ?_⟩
  · rw [run_append, hrun, Option.bind_some, run_cons]
    show run named more { stack
                          frame := ⟨.seqs (items.reverse ++ []).reverse :: alts, []⟩
                          mode := .normal false } = _
    rw [List.append_nil, List.reverse_reverse, hrun']
  · rw [hbranches, List.reverse_cons, List.append_assoc, List.singleton_append]

theorem denotesBranches_of_denotes {text : List Char} {l : Language Char}
    (h : Denotes named text l) : DenotesBranches named text l := by
  obtain ⟨items, hreads, hl⟩ := h
  exact ⟨_, readsBranches_of_reads hreads, (lang_alts_singleton _).trans hl⟩

theorem DenotesBranches.cons {text more : List Char} {l m : Language Char} (hfirst : Denotes named text l)
    (hsecond : DenotesBranches named more m) : DenotesBranches named (text ++ '|' :: more) (l + m) := by
  obtain ⟨items, hreads, hl⟩ := hfirst
  obtain ⟨found, hbranches, hm⟩ := hsecond
  refine ⟨_, readsBranches_cons hreads hbranches, ?_⟩
  funext before after
  show (Expr.seqs items).lang before after + (Expr.alts found).lang before after = _
  rw [hl, hm]
  rfl

theorem denotesBranches_join {α : Type*} {xs : List α} {text : α → List Char}
    {l : α → Language Char} (hne : xs ≠ []) (htexts : ∀ x ∈ xs, Denotes named (text x) (l x)) :
    DenotesBranches named (List.intercalate ['|'] (xs.map text)) (xs.map l).sum := by
  induction xs with
  | nil => exact absurd rfl hne
  | cons x rest ih =>
    have hfirst := htexts x List.mem_cons_self
    cases rest with
    | nil =>
      have hsingle := denotesBranches_of_denotes hfirst
      simpa [List.intercalate] using hsingle
    | cons next rest =>
      have hrest := ih (List.cons_ne_nil next rest) fun other hmem =>
        htexts other (List.mem_cons_of_mem x hmem)
      have hcons := hrest.cons hfirst
      simpa [List.intercalate, List.intersperse] using hcons

theorem denotes_join {α : Type*} (xs : List α) {sep : List Char} {m : Language Char}
    {text : α → List Char} {l : α → Language Char} (hsep : Denotes named sep m)
    (htexts : ∀ x ∈ xs, Denotes named (text x) (l x)) :
    Denotes named (List.intercalate sep (xs.map text)) (separated m (xs.map l)) := by
  induction xs with
  | nil => exact denotes_nil
  | cons x rest ih =>
    have hfirst := htexts x List.mem_cons_self
    cases rest with
    | nil => simpa [List.intercalate, separated] using hfirst
    | cons next rest =>
      have hrest := ih fun other hmem => htexts other (List.mem_cons_of_mem x hmem)
      have hcons := (hfirst.append hsep).append hrest
      simpa [List.intercalate, List.intersperse, separated, mul_assoc] using hcons

theorem run_group {text : List Char} {found : List Expr} (hbranches : ReadsBranches named text found)
    (stack : List Frame) (frame : Frame) (repeated : Bool) :
    run named ('(' :: text ++ [')']) { stack, frame, mode := .normal repeated } =
      some { stack
             frame := { frame with items := .alts found :: frame.items }
             mode := .normal false } := by
  obtain ⟨inner, between, hrun, hfound⟩ := hbranches (frame :: stack) []
  rw [List.cons_append, run_cons]
  show run named (text ++ [')'])
    { stack := frame :: stack, frame := ⟨[], []⟩, mode := .normal false } = _
  rw [run_append, hrun, Option.bind_some, run_cons]
  show some (State.mk stack { frame with items := .alts (branches inner) :: frame.items }
    (.normal false)) = _
  rw [hfound]
  rfl

section

variable {text : List Char} {l : Language Char}

theorem DenotesBranches.item (h : DenotesBranches named text l) :
    DenotesItem named ('(' :: text ++ [')']) l := by
  obtain ⟨found, hbranches, hl⟩ := h
  exact ⟨.alts found, hl, run_group hbranches⟩

theorem DenotesBranches.group (h : DenotesBranches named text l) :
    Denotes named ('(' :: text ++ [')']) l :=
  h.item.denotes

theorem DenotesBranches.star (h : DenotesBranches named text l) :
    Denotes named ('(' :: text ++ [')', '*']) (KStar.kstar l) := by
  have hstar := h.item.star
  rwa [List.append_assoc] at hstar

theorem DenotesBranches.opt (h : DenotesBranches named text l) :
    Denotes named ('(' :: text ++ [')', '?']) (optional l) := by
  have hopt := h.item.opt
  rwa [List.append_assoc] at hopt

/-! ### Matching -/

theorem Reads.matchAt {items : List Expr} (h : Reads named text items)
    (before after : Option Char) :
    matchAt named text before after = (Expr.seqs items).lang before after := by
  obtain ⟨repeated, hrun⟩ := h [] ⟨[], []⟩ false
  have hparse : parse named text = some (.alts [.seqs items]) := by
    rw [parse, start, hrun]
    simp [branches]
  ext w
  constructor
  · rintro ⟨e, he, hw⟩
    rw [hparse] at he
    obtain rfl := Option.some.inj he
    rwa [lang_alts_singleton] at hw
  · intro hw
    refine ⟨_, hparse, ?_⟩
    rwa [lang_alts_singleton]

/-- A text that denotes a language is a pattern that matches it wherever it stands. -/
theorem Denotes.matchAt (h : Denotes named text l) (before after : Option Char) :
    matchAt named text before after = l := by
  obtain ⟨items, hreads, hl⟩ := h
  rw [hreads.matchAt, hl]
  rfl

theorem Denotes.fullMatch (h : Denotes named text l) : fullMatch named text = l :=
  h.matchAt none none

/-- A pattern between two characters that stand for themselves. -/
theorem denotes_between {items : List Expr} (h : Reads named text items) {c d : Char}
    (hc : plain c = true) (hd : plain d = true) :
    Denotes named (c :: text ++ [d])
      (exactly [c] * Regex.matchAt named text (some c) (some d) * exactly [d]) := by
  have hreads : ∀ {a : Char}, plain a = true → Reads named [a] [.lit a] := by
    intro a ha stack frame repeated
    exact ⟨false, by rw [run_cons, step_plain ha _ rfl]; rfl⟩
  have hall : Reads named (c :: text ++ [d]) ([.lit c] ++ items ++ [.lit d]) :=
    ((hreads hc).append h).append (hreads hd)
  refine ⟨_, hall, ?_⟩
  rw [lang_seqs_append, lang_seqs_append, lang_seqs_singleton, lang_seqs_singleton, lang_lit,
    lang_lit, seq_between, h.matchAt]

end

end

end Zllm.Regex
