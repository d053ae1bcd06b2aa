import Mathlib.Order.Nat

/-!
# Publishing a value through a temporary file

Writers change a value under its lock. Those whose change is to be published then take a snapshot of
the value, write it to a temporary file that they all share, and rename that over the published
file, each of these on its own. Versions count the changes for the statements; no writer reads them.
-/

namespace Zllm.Publication

variable {ω μ σ α β : Type}

/-- A snapshot, and the number of changes in it. -/
structure Taken (β : Type) where
  version : Nat
  content : β

/-- Where a writer stands: with nothing to publish, past its change, with a snapshot, or past
writing the temporary file. -/
inductive Phase (β : Type)
  | idle
  | changed
  | holding (taken : Taken β)
  | written

structure State (ω α β : Type) where
  value : α
  version : Nat
  tmp : Option (Taken β)
  file : Taken β
  writers : ω → Phase β

/-- A step of a writer: a call that changes the value, and, at a sight of it, the snapshot, the
write and the rename. -/
inductive Step (ω μ σ : Type)
  | change (w : ω) (call : μ)
  | snapshot (w : ω) (sight : σ)
  | write (w : ω)
  | rename (w : ω)

namespace State

section

variable [DecidableEq ω]

def setWriter (s : State ω α β) (w : ω) (phase : Phase β) : State ω α β :=
  { s with writers := Function.update s.writers w phase }

/-- A call answers whether its change is to be published. -/
def step (call : μ → α → Bool × α) (snapshot : σ → α → β) (s : State ω α β) :
    Step ω μ σ → Option (State ω α β)
  | .change w change =>
    match s.writers w, call change s.value with
    | .idle, (true, value) =>
      some ({ s with value := value, version := s.version + 1 }.setWriter w .changed)
    | .idle, (false, value) => some { s with value := value }
    | _, _ => none
  | .snapshot w sight =>
    match s.writers w with
    | .changed => some (s.setWriter w (.holding ⟨s.version, snapshot sight s.value⟩))
    | _ => none
  | .write w =>
    match s.writers w with
    | .holding taken => some ({ s with tmp := some taken }.setWriter w .written)
    | _ => none
  | .rename w =>
    match s.writers w, s.tmp with
    | .written, some taken => some ({ s with tmp := none, file := taken }.setWriter w .idle)
    -- the temporary file is gone: the rename fails and the writer is done
    | .written, none => some (s.setWriter w .idle)
    | _, _ => none

def run (call : μ → α → Bool × α) (snapshot : σ → α → β) (s : State ω α β)
    (steps : List (Step ω μ σ)) : Option (State ω α β) :=
  steps.foldlM (step call snapshot) s

/-- A step that writes over no newer snapshot and renames over no newer file. -/
def inOrder (s : State ω α β) : Step ω μ σ → Bool
  | .write w =>
    match s.writers w with
    | .holding taken => s.tmp.all fun other => decide (other.version ≤ taken.version)
    | _ => true
  | .rename _ => s.tmp.all fun taken => decide (s.file.version ≤ taken.version)
  | _ => true

def inOrderRun (call : μ → α → Bool × α) (snapshot : σ → α → β) (s : State ω α β) :
    List (Step ω μ σ) → Bool
  | [] => true
  | step :: steps => s.inOrder step &&
      match s.step call snapshot step with
      | some s' => s'.inOrderRun call snapshot steps
      | none => true

end

/-- No newer than the value, and showing it if as new. -/
def Faithful (shows : β → α → Prop) (s : State ω α β) (taken : Taken β) : Prop :=
  taken.version ≤ s.version ∧ (taken.version = s.version → shows taken.content s.value)

/-- The last change has reached the file, or a writer still has it to publish. -/
inductive Arriving (s : State ω α β) : Prop
  | published (hfile : s.file.version = s.version)
  | changed (w : ω) (hw : s.writers w = .changed)
  | holding (w : ω) (taken : Taken β) (hw : s.writers w = .holding taken)
      (htaken : taken.version = s.version)
  | written (w : ω) (taken : Taken β) (hw : s.writers w = .written) (htmp : s.tmp = some taken)
      (htaken : taken.version = s.version)

structure Publishing (good : α → Prop) (shows : β → α → Prop) (s : State ω α β) : Prop where
  good : good s.value
  holding : ∀ {w taken}, s.writers w = .holding taken → s.Faithful shows taken
  tmp : ∀ {taken}, s.tmp = some taken → s.Faithful shows taken
  file : s.Faithful shows s.file
  arriving : s.Arriving

section

variable [DecidableEq ω] {good : α → Prop} {shows : β → α → Prop} {call : μ → α → Bool × α}
  {snapshot : σ → α → β} {s s' : State ω α β} {w : ω}

theorem writers_setWriter (s : State ω α β) (w other : ω) (phase : Phase β) :
    (s.setWriter w phase).writers other = if other = w then phase else s.writers other :=
  Function.update_apply s.writers w phase other

theorem setWriter_same (s : State ω α β) (w : ω) (phase : Phase β) :
    (s.setWriter w phase).writers w = phase := by
  rw [writers_setWriter, if_pos rfl]

theorem setWriter_other {other : ω} {phase was phase' : Phase β}
    (hother : s.writers other = phase') (hw : s.writers w = was) (hne : was ≠ phase') :
    (s.setWriter w phase).writers other = phase' := by
  rw [writers_setWriter, if_neg, hother]
  rintro rfl
  exact hne (hw.symm.trans hother)

theorem holding_of_setWriter {other : ω} {phase : Phase β} {taken : Taken β}
    (hother : (s.setWriter w phase).writers other = .holding taken) :
    phase = .holding taken ∨ s.writers other = .holding taken := by
  rw [writers_setWriter] at hother
  split at hother
  · exact .inl hother
  · exact .inr hother

/-- Older snapshots say nothing of a changed value. -/
theorem Faithful.change {taken : Taken β} (htaken : s.Faithful shows taken) (value : α)
    (phase : Phase β) : ({ s with value := value, version := s.version + 1 }.setWriter w
      phase).Faithful shows taken := by
  refine ⟨htaken.1.trans (Nat.le_succ _), fun heq => ?_⟩
  exact absurd (heq ▸ htaken.1) (Nat.not_succ_le_self _)

theorem Publishing.change (hs : s.Publishing good shows) {value : α} (hgood : good value) :
    ({ s with value := value, version := s.version + 1 }.setWriter w .changed).Publishing good
      shows where
  good := hgood
  holding hholding := by
    rcases holding_of_setWriter hholding with habsurd | hbefore
    · cases habsurd
    · exact (hs.holding hbefore).change value _
  tmp htmp := (hs.tmp htmp).change value _
  file := hs.file.change value _
  arriving := .changed w (setWriter_same _ w _)

theorem Publishing.take (hs : s.Publishing good shows) {content : β}
    (hshows : shows content s.value) :
    (s.setWriter w (.holding ⟨s.version, content⟩)).Publishing good shows where
  good := hs.good
  holding hholding := by
    rcases holding_of_setWriter hholding with htaken | hbefore
    · cases htaken
      exact ⟨le_rfl, fun _ => hshows⟩
    · exact hs.holding hbefore
  tmp := hs.tmp
  file := hs.file
  arriving := .holding w _ (setWriter_same s w _) rfl

theorem Publishing.write (hs : s.Publishing good shows) {taken : Taken β}
    (hw : s.writers w = .holding taken)
    (horder : ∀ other, s.tmp = some other → other.version ≤ taken.version) :
    ({ s with tmp := some taken }.setWriter w .written).Publishing good shows where
  good := hs.good
  holding hholding := by
    rcases holding_of_setWriter hholding with habsurd | hbefore
    · cases habsurd
    · exact hs.holding hbefore
  tmp htmp := by
    cases htmp
    exact hs.holding hw
  file := hs.file
  arriving := by
    by_cases htaken : taken.version = s.version
    · exact .written w taken (setWriter_same _ w _) rfl htaken
    -- an older snapshot: the last change is with the file or with another writer
    cases hs.arriving with
    | published hfile => exact .published hfile
    | changed other hother =>
      exact .changed other (setWriter_other hother hw nofun)
    | holding other newest hother hnewest =>
      refine .holding other newest (setWriter_other hother hw ?_) hnewest
      rintro ⟨⟩
      exact htaken hnewest
    | written other newest hother htmp hnewest =>
      have hle := horder newest htmp
      rw [hnewest] at hle
      exact absurd (le_antisymm (hs.holding hw).1 hle) htaken

theorem Publishing.rename (hs : s.Publishing good shows) {taken : Taken β}
    (hw : s.writers w = .written) (htmp : s.tmp = some taken)
    (horder : s.file.version ≤ taken.version) :
    ({ s with tmp := none, file := taken }.setWriter w .idle).Publishing good shows where
  good := hs.good
  holding hholding := by
    rcases holding_of_setWriter hholding with habsurd | hbefore
    · cases habsurd
    · exact hs.holding hbefore
  tmp habsurd := by cases habsurd
  file := hs.tmp htmp
  arriving := by
    cases hs.arriving with
    | published hfile => exact .published (le_antisymm (hs.tmp htmp).1 (hfile ▸ horder))
    | changed other hother =>
      exact .changed other (setWriter_other hother hw nofun)
    | holding other newest hother hnewest =>
      exact .holding other newest (setWriter_other hother hw nofun) hnewest
    | written other newest hother hnewest hversion =>
      obtain rfl := Option.some.inj (htmp.symm.trans hnewest)
      exact .published hversion

theorem Publishing.renameFails (hs : s.Publishing good shows) (hw : s.writers w = .written)
    (htmp : s.tmp = none) : (s.setWriter w .idle).Publishing good shows where
  good := hs.good
  holding hholding := by
    rcases holding_of_setWriter hholding with habsurd | hbefore
    · cases habsurd
    · exact hs.holding hbefore
  tmp := hs.tmp
  file := hs.file
  arriving := by
    cases hs.arriving with
    | published hfile => exact .published hfile
    | changed other hother =>
      exact .changed other (setWriter_other hother hw nofun)
    | holding other newest hother hnewest =>
      exact .holding other newest (setWriter_other hother hw nofun) hnewest
    | written other newest hother hnewest hversion =>
      rw [htmp] at hnewest
      cases hnewest

section Run

variable (hgood : ∀ {c v}, good v → good (call c v).2)
  (hquiet : ∀ {c v}, good v → (call c v).1 = false → (call c v).2 = v)
  (hshows : ∀ {sight v}, good v → shows (snapshot sight v) v)

include hgood hquiet hshows

theorem Publishing.step (hs : s.Publishing good shows) {step : Step ω μ σ}
    (horder : s.inOrder step = true) (hstep : s.step call snapshot step = some s') :
    s'.Publishing good shows := by
  cases step with
  | change w change =>
    have hvalue := hgood (c := change) hs.good
    have hsame := hquiet (c := change) hs.good
    simp only [State.step] at hstep
    generalize call change s.value = outcome at hstep hvalue hsame
    obtain ⟨publishes, value⟩ := outcome
    split at hstep
    · next heq =>
      cases heq
      cases hstep
      exact hs.change hvalue
    · next heq =>
      cases heq
      cases hstep
      obtain rfl := hsame rfl
      exact hs
    · cases hstep
  | snapshot w sight =>
    simp only [State.step] at hstep
    split at hstep
    · cases hstep
      exact hs.take (hshows hs.good)
    · cases hstep
  | write w =>
    simp only [State.step] at hstep
    split at hstep
    · next taken hw =>
      cases hstep
      apply hs.write hw
      intro other htmp
      simpa [inOrder, hw, htmp] using horder
    · cases hstep
  | rename w =>
    simp only [State.step] at hstep
    split at hstep
    · next taken hw htmp =>
      cases hstep
      apply hs.rename hw htmp
      simpa [inOrder, htmp] using horder
    · next hw htmp =>
      cases hstep
      exact hs.renameFails hw htmp
    · cases hstep

theorem Publishing.run (hs : s.Publishing good shows) {steps : List (Step ω μ σ)}
    (horder : s.inOrderRun call snapshot steps = true)
    (hrun : s.run call snapshot steps = some s') : s'.Publishing good shows := by
  induction steps generalizing s with
  | nil =>
    cases hrun
    exact hs
  | cons step steps ih =>
    rw [State.run, List.foldlM_cons] at hrun
    obtain ⟨next, hstep, hrest⟩ := Option.bind_eq_some_iff.mp hrun
    rw [inOrderRun, hstep, Bool.and_eq_true] at horder
    exact ih (hs.step hgood hquiet hshows horder.1 hstep) horder.2 hrest

end Run

omit [DecidableEq ω] in
/-- A file that shows the value, with no writer and no temporary file about. -/
theorem publishing_of_idle (hgood : good s.value) (hidle : ∀ w, s.writers w = .idle)
    (htmp : s.tmp = none) (hversion : s.file.version = s.version)
    (hshows : shows s.file.content s.value) : s.Publishing good shows where
  good := hgood
  holding hholding := by
    rw [hidle] at hholding
    cases hholding
  tmp hsome := by
    rw [htmp] at hsome
    cases hsome
  file := ⟨hversion.le, fun _ => hshows⟩
  arriving := .published hversion

omit [DecidableEq ω] in
/-- Once every writer is done the file shows the value. -/
theorem Publishing.settled (hs : s.Publishing good shows) (hidle : ∀ w, s.writers w = .idle) :
    shows s.file.content s.value := by
  have hnot : ∀ {w phase}, s.writers w = phase → Phase.idle = phase :=
    fun hw => (hidle _).symm.trans hw
  cases hs.arriving with
  | published hfile => exact hs.file.2 hfile
  | changed w hw => cases hnot hw
  | holding w taken hw htaken => cases hnot hw
  | written w taken hw htmp htaken => cases hnot hw

end

end State

end Zllm.Publication
