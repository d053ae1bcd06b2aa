import Zllm.Rest.SelectModel

/-!
# Requests around a model swap

The candle lane's requests and the selections share the slots, a lock each, and the tokenizer, which
has a lock of its own. A request encodes its prompt, takes a slot, forwards and decodes while it
holds it, and when it is not streamed decodes its output again after it has let the slot go. A
selection takes every slot, reloads them, lets them go, and replaces the tokenizer.
-/

namespace Zllm.Rest

variable {T : Type}

inductive Holder
  | request (r : Nat)
  | select (k : Nat)
  deriving DecidableEq

/-- A tokenizer that encoded what was forwarded through the model of a file, or that decoded what
came out of it. -/
structure Use (T : Type) where
  tokenizer : T
  file : GgufPath

/-- Where a request stands: `encoded` by a tokenizer and waiting for a slot, holding slot `i`, or
past its slot, which held the model of `file`, with the output still to be decoded. -/
inductive RequestPhase (T : Type)
  | encoded (encoder : T)
  | holding (i : Nat) (encoder : T)
  | released (file : Option GgufPath)
  | done

def RequestPhase.inFlight : RequestPhase T → Bool
  | encoded _ | holding _ _ | released _ => true
  | done => false

/-- Where a selection stands: it has the first `taken` slots, has reloaded them all, has failed to,
or has let them go and has its tokenizer still to put in place. -/
inductive SelectPhase
  | locking (path : GgufPath) (attempts : Nat → LoadAttempt) (taken : Nat)
  | reloaded (path : GgufPath)
  | failed
  | publishing (path : GgufPath)
  | done

/-- The model in the slots whose tokenizer is not in place yet. -/
def SelectPhase.pending : SelectPhase → Option GgufPath
  | reloaded path | publishing path => some path
  | locking .. | failed | done => none

structure SwapSystem (T : Type) where
  pool : List BackendSlot
  holders : List (Option Holder)
  tokenizer : T
  requests : List (RequestPhase T)
  selects : List SelectPhase
  uses : List (Use T)

inductive SwapStep
  | encode
  | acquire (r i : Nat)
  | forward (r : Nat)
  | decode (r : Nat)
  | release (r : Nat)
  | decodeOutput (r : Nat)
  | finish (r : Nat)
  | select (path : GgufPath) (attempts : Nat → LoadAttempt)
  | lockSlot (k : Nat)
  | reload (k : Nat)
  | unlock (k : Nat)
  | publish (k : Nat)

namespace SwapSystem

/-- The file whose model slot `i` holds. -/
def fileAt (s : SwapSystem T) (i : Nat) : Option GgufPath :=
  s.pool[i]?.bind fun slot => slot.backend.model.map LoadedModel.file

/-- What selection `k` has still to put in place. -/
def pendingAt (s : SwapSystem T) (k : Nat) : Option GgufPath :=
  s.selects[k]?.bind SelectPhase.pending

def setRequest (s : SwapSystem T) (r : Nat) (phase : RequestPhase T) : SwapSystem T :=
  { s with requests := s.requests.set r phase }

def setSelect (s : SwapSystem T) (k : Nat) (phase : SelectPhase) : SwapSystem T :=
  { s with selects := s.selects.set k phase }

/-- Tokens pass between a tokenizer and a model, if there is one. -/
def record (s : SwapSystem T) (tokenizer : T) (file : Option GgufPath) : SwapSystem T :=
  { s with uses := s.uses ++ (file.map (Use.mk tokenizer)).toList }

/-- The end of a request that may hold a slot. -/
def finish (s : SwapSystem T) (r : Nat) : SwapSystem T :=
  { s.setRequest r .done with
    holders := s.holders.map fun holder => if holder = some (.request r) then none else holder }

/-- The reload of a selection that has every slot. -/
def reloadAll (s : SwapSystem T) (k : Nat) (path : GgufPath) (attempts : Nat → LoadAttempt) :
    SwapSystem T :=
  let reloaded := reloadSlots path attempts 0 s.pool
  { s with pool := reloaded.2 }.setSelect k (if reloaded.1.isOk then .reloaded path else .failed)

/-- One step, `none` where the thread is not at that point or the lock is taken. `tokenizerOf` is
the tokenizer that the loader finds for a file. -/
def step (tokenizerOf : GgufPath → T) (s : SwapSystem T) : SwapStep → Option (SwapSystem T)
  | .encode => some { s with requests := s.requests ++ [.encoded s.tokenizer] }
  | .acquire r i =>
    match s.requests[r]?, s.holders[i]? with
    | some (.encoded encoder), some none =>
      some { s.setRequest r (.holding i encoder) with
        holders := s.holders.set i (some (.request r)) }
    | _, _ => none
  | .forward r =>
    match s.requests[r]? with
    | some (.holding i encoder) => some (s.record encoder (s.fileAt i))
    | _ => none
  | .decode r =>
    match s.requests[r]? with
    | some (.holding i _) => some (s.record s.tokenizer (s.fileAt i))
    | _ => none
  | .release r =>
    match s.requests[r]? with
    | some (.holding i _) => some ((s.finish r).setRequest r (.released (s.fileAt i)))
    | _ => none
  | .decodeOutput r =>
    match s.requests[r]? with
    | some (.released file) => some ((s.record s.tokenizer file).setRequest r .done)
    | _ => none
  | .finish r =>
    match s.requests[r]? with
    | some (.encoded _) | some (.holding _ _) => some (s.finish r)
    | _ => none
  | .select path attempts =>
    some { s with selects := s.selects ++ [.locking path attempts 0] }
  | .lockSlot k =>
    match s.selects[k]? with
    | some (.locking path attempts taken) =>
      match s.holders[taken]? with
      | some none => some { s.setSelect k (.locking path attempts (taken + 1)) with
          holders := s.holders.set taken (some (.select k)) }
      | _ => none
    | _ => none
  | .reload k =>
    match s.selects[k]? with
    | some (.locking path attempts taken) =>
      if taken = s.pool.length then some (s.reloadAll k path attempts) else none
    | _ => none
  | .unlock k =>
    let freed := s.holders.map fun holder => if holder = some (.select k) then none else holder
    match s.selects[k]? with
    | some (.reloaded path) => some { s.setSelect k (.publishing path) with holders := freed }
    | some .failed => some { s.setSelect k .done with holders := freed }
    | _ => none
  | .publish k =>
    match s.selects[k]? with
    | some (.publishing path) => some ({ s with tokenizer := tokenizerOf path }.setSelect k .done)
    | _ => none

def run (tokenizerOf : GgufPath → T) (s : SwapSystem T) (steps : List SwapStep) :
    Option (SwapSystem T) :=
  steps.foldlM (step tokenizerOf) s

/-! ### One tokenizer a model -/

/-- Every prompt was encoded and every output decoded by the tokenizer of the model it went through
or came from. -/
def TokenizersAgree (tokenizerOf : GgufPath → T) (s : SwapSystem T) : Prop :=
  ∀ use ∈ s.uses, use.tokenizer = tokenizerOf use.file

/-- A server with the model of one file in every slot and nothing going on. -/
structure Started (tokenizerOf : GgufPath → T) (s : SwapSystem T) : Prop where
  requests_nil : s.requests = []
  selects_nil : s.selects = []
  uses_nil : s.uses = []
  served : ∀ slot ∈ s.pool, ∀ m, slot.backend.model = some m → tokenizerOf m.file = s.tokenizer

/-- A step that lets no request meet a swap: no prompt is encoded while a model with another
tokenizer is in the slots, and a selection reloads the slots only when no other has its tokenizer
still to put in place, and, unless the tokenizer stays the same, only when no request is between
its encoding and its last decoding, and with every load, or not even the first, going through. -/
def Calm (tokenizerOf : GgufPath → T) (s : SwapSystem T) : SwapStep → Prop
  | .encode => ∀ k path, s.pendingAt k = some path → tokenizerOf path = s.tokenizer
  | .reload k => ∀ path attempts taken, s.selects[k]? = some (.locking path attempts taken) →
      (∀ other, s.pendingAt other = none) ∧
        (tokenizerOf path = s.tokenizer ∨ (∀ phase ∈ s.requests, phase.inFlight = false) ∧
          ((attempts 0).succeeds = false ∨ ∀ i < s.pool.length, (attempts i).succeeds))
  | _ => True

/-- Every step of a run is calm. -/
def CalmRun (tokenizerOf : GgufPath → T) (s : SwapSystem T) : List SwapStep → Prop
  | [] => True
  | step :: steps => s.Calm tokenizerOf step ∧
      ∀ s', s.step tokenizerOf step = some s' → CalmRun tokenizerOf s' steps

/-! ### The invariant -/

/-- Every loaded slot has a model of that tokenizer. -/
def Loaded (tokenizerOf : GgufPath → T) (s : SwapSystem T) (tokenizer : T) : Prop :=
  ∀ slot ∈ s.pool, ∀ m, slot.backend.model = some m → tokenizerOf m.file = tokenizer

/-- What a request relies on: it was encoded by the tokenizer in place, and what it took from a
slot's model is for that tokenizer too. -/
def Relies (tokenizerOf : GgufPath → T) (tokenizer : T) : RequestPhase T → Prop
  | .encoded encoder | .holding _ encoder => encoder = tokenizer
  | .released file => ∀ path, file = some path → tokenizerOf path = tokenizer
  | .done => True

/-- At most one selection is between its reload and its tokenizer, and with requests in flight it
brings no other tokenizer. -/
structure Consistent (tokenizerOf : GgufPath → T) (s : SwapSystem T) : Prop where
  pending_unique : ∀ k k', (s.pendingAt k).isSome → (s.pendingAt k').isSome → k = k'
  pending_loaded : ∀ k path, s.pendingAt k = some path → s.Loaded tokenizerOf (tokenizerOf path)
  settled_loaded : (∀ k, s.pendingAt k = none) → s.Loaded tokenizerOf s.tokenizer
  relies : ∀ req ∈ s.requests, Relies tokenizerOf s.tokenizer req
  pending_eq : ∀ k path, s.pendingAt k = some path → (∃ req ∈ s.requests, req.inFlight) →
    tokenizerOf path = s.tokenizer
  agree : s.TokenizersAgree tokenizerOf

variable {tokenizerOf : GgufPath → T} {s s' : SwapSystem T}

/-- With a request in flight the slots are loaded for the tokenizer in place. -/
theorem Consistent.loaded (hs : s.Consistent tokenizerOf) {req : RequestPhase T}
    (hreq : req ∈ s.requests) (hflight : req.inFlight) : s.Loaded tokenizerOf s.tokenizer := by
  by_cases hsettled : ∀ k, s.pendingAt k = none
  · exact hs.settled_loaded hsettled
  · obtain ⟨k, hk⟩ := not_forall.mp hsettled
    obtain ⟨path, hpath⟩ := Option.ne_none_iff_exists'.mp hk
    have hloaded := hs.pending_loaded k path hpath
    rwa [hs.pending_eq k path hpath ⟨req, hreq, hflight⟩] at hloaded

theorem Loaded.fileAt {tokenizer : T} (hs : s.Loaded tokenizerOf tokenizer) {i : Nat}
    {path : GgufPath} (hfile : s.fileAt i = some path) : tokenizerOf path = tokenizer := by
  obtain ⟨slot, hslot, hmap⟩ := Option.bind_eq_some_iff.mp hfile
  obtain ⟨m, hm, rfl⟩ := Option.map_eq_some_iff.mp hmap
  exact hs slot (List.mem_of_getElem? hslot) m hm

/-- A request moves on with what it relies on; the slots, the tokenizer and the selections stay. -/
theorem Consistent.setRequest (hs : s.Consistent tokenizerOf) {r : Nat} {req : RequestPhase T}
    (hreq : s.requests[r]? = some req) (hflight : req.inFlight) (phase : RequestPhase T)
    (hrelies : Relies tokenizerOf s.tokenizer phase) :
    (s.setRequest r phase).Consistent tokenizerOf where
  pending_unique := hs.pending_unique
  pending_loaded := hs.pending_loaded
  settled_loaded := hs.settled_loaded
  relies := by
    intro req' hreq'
    rcases List.mem_or_eq_of_mem_set hreq' with hreq' | rfl
    · exact hs.relies req' hreq'
    · exact hrelies
  pending_eq := by
    intro k path hpath _
    exact hs.pending_eq k path hpath ⟨req, List.mem_of_getElem? hreq, hflight⟩
  agree := hs.agree

/-- The locks play no part in the invariant. -/
theorem Consistent.setHolders (hs : s.Consistent tokenizerOf) (holders : List (Option Holder)) :
    { s with holders := holders }.Consistent tokenizerOf :=
  ⟨hs.pending_unique, hs.pending_loaded, hs.settled_loaded, hs.relies, hs.pending_eq, hs.agree⟩

theorem Consistent.finish (hs : s.Consistent tokenizerOf) {r : Nat} {req : RequestPhase T}
    (hreq : s.requests[r]? = some req) (hflight : req.inFlight) :
    (s.finish r).Consistent tokenizerOf :=
  (hs.setRequest hreq hflight .done trivial).setHolders _

theorem Consistent.record (hs : s.Consistent tokenizerOf) {tokenizer : T} {file : Option GgufPath}
    (hfile : ∀ path, file = some path → tokenizerOf path = tokenizer) :
    (s.record tokenizer file).Consistent tokenizerOf where
  pending_unique := hs.pending_unique
  pending_loaded := hs.pending_loaded
  settled_loaded := hs.settled_loaded
  relies := hs.relies
  pending_eq := hs.pending_eq
  agree := by
    intro use huse
    rcases List.mem_append.mp huse with huse | huse
    · exact hs.agree use huse
    · obtain ⟨path, hpath, rfl⟩ := Option.map_eq_some_iff.mp (Option.mem_toList.mp huse)
      exact (hfile path hpath).symm

theorem pendingAt_setSelect {k : Nat} {select : SelectPhase}
    (hselect : s.selects[k]? = some select) (phase : SelectPhase) (j : Nat) :
    (s.setSelect k phase).pendingAt j = if j = k then phase.pending else s.pendingAt j := by
  unfold pendingAt SwapSystem.setSelect
  have hk := (List.getElem?_eq_some_iff.mp hselect).1
  by_cases hj : j = k
  · simp [hj, hk]
  · rw [if_neg hj, List.getElem?_set_ne (Ne.symm hj)]

/-- A selection moves on with what it has to put in place, and the slots and the tokenizer stay. -/
theorem Consistent.setSelect (hs : s.Consistent tokenizerOf) {k : Nat} {select : SelectPhase}
    (hselect : s.selects[k]? = some select) (phase : SelectPhase)
    (hpending : phase.pending = select.pending) : (s.setSelect k phase).Consistent tokenizerOf := by
  have hsame : (s.setSelect k phase).pendingAt = s.pendingAt := by
    funext j
    rw [pendingAt_setSelect hselect, hpending]
    split
    · rename_i hj
      rw [hj, pendingAt, hselect, Option.bind_some]
    · rfl
  refine ⟨?_, ?_, ?_, hs.relies, ?_, hs.agree⟩
  · rw [hsame]
    exact hs.pending_unique
  · rw [hsame]
    exact hs.pending_loaded
  · rw [hsame]
    exact hs.settled_loaded
  · rw [hsame]
    exact hs.pending_eq

theorem Consistent.encode (hs : s.Consistent tokenizerOf)
    (hcalm : ∀ k path, s.pendingAt k = some path → tokenizerOf path = s.tokenizer) :
    { s with requests := s.requests ++ [RequestPhase.encoded s.tokenizer] }.Consistent tokenizerOf where
  pending_unique := hs.pending_unique
  pending_loaded := hs.pending_loaded
  settled_loaded := hs.settled_loaded
  relies := by
    intro req hreq
    rcases List.mem_append.mp hreq with hreq | hreq
    · exact hs.relies req hreq
    · rw [List.mem_singleton.mp hreq]
      rfl
  pending_eq := fun k path hpath _ => hcalm k path hpath
  agree := hs.agree

theorem Consistent.select (hs : s.Consistent tokenizerOf) (path : GgufPath)
    (attempts : Nat → LoadAttempt) :
    { s with selects := s.selects ++ [SelectPhase.locking path attempts 0] }.Consistent tokenizerOf := by
  have hsame : ∀ k, ({ s with selects := s.selects ++ [.locking path attempts 0] } :
      SwapSystem T).pendingAt k = s.pendingAt k := by
    intro k
    unfold pendingAt
    rcases Nat.lt_trichotomy k s.selects.length with hlt | rfl | hgt
    · rw [List.getElem?_append_left hlt]
    · simp [SelectPhase.pending]
    · rw [List.getElem?_eq_none (by simpa using hgt), List.getElem?_eq_none (by omega)]
  refine ⟨?_, ?_, ?_, hs.relies, ?_, hs.agree⟩
  · intro k k'
    rw [hsame, hsame]
    exact hs.pending_unique k k'
  · intro k path' hpath'
    exact hs.pending_loaded k path' ((hsame k).symm.trans hpath')
  · intro hsettled
    exact hs.settled_loaded fun k => (hsame k).symm.trans (hsettled k)
  · intro k path' hpath'
    exact hs.pending_eq k path' ((hsame k).symm.trans hpath')

/-- The reload of a selection that no other is pending with. A failing loop leaves the slots loaded
for the tokenizer in place, and one that goes through loads them for the new model's. -/
theorem Consistent.reload (hs : s.Consistent tokenizerOf) {k : Nat} {path : GgufPath}
    {attempts : Nat → LoadAttempt} {taken : Nat}
    (hselect : s.selects[k]? = some (.locking path attempts taken))
    (hnone : ∀ other, s.pendingAt other = none)
    (hcalm : tokenizerOf path = s.tokenizer ∨ (∀ req ∈ s.requests, req.inFlight = false) ∧
      ((attempts 0).succeeds = false ∨ ∀ i < s.pool.length, (attempts i).succeeds)) :
    (s.reloadAll k path attempts).Consistent tokenizerOf := by
  have hpending : ∀ j, (s.reloadAll k path attempts).pendingAt j =
      if j = k ∧ (reloadSlots path attempts 0 s.pool).1.isOk then some path else none := by
    intro j
    have hother : ({ s with pool := (reloadSlots path attempts 0 s.pool).2 } :
        SwapSystem T).pendingAt j = none := hnone j
    rw [reloadAll, pendingAt_setSelect (by exact hselect), hother]
    by_cases hj : j = k
    · cases (reloadSlots path attempts 0 s.pool).1.isOk <;> simp [hj, SelectPhase.pending]
    · simp [hj]
  refine ⟨?_, ?_, ?_, hs.relies, ?_, hs.agree⟩
  · intro i j hi hj
    rw [hpending] at hi hj
    split at hi
    · rename_i hik
      split at hj
      · rename_i hjk
        rw [hik.1, hjk.1]
      · cases hj
    · cases hi
  · intro j path' hpath' slot hslot m hm
    rw [hpending] at hpath'
    split at hpath'
    · rename_i hok
      cases hpath'
      rcases mem_reloadSlots hslot with hunloaded | ⟨m', hm', hfile⟩ | ⟨-, hfails⟩
      · rw [hunloaded] at hm
        cases hm
      · rw [hm] at hm'
        cases hm'
        rw [hfile]
      · rw [hok.2] at hfails
        cases hfails
    · cases hpath'
  · intro hsettled slot hslot m hm
    have hfails : (reloadSlots path attempts 0 s.pool).1.isOk = false := by
      have hk := (hpending k).symm.trans (hsettled k)
      simpa using hk
    have hbefore := hs.settled_loaded hnone
    rcases hcalm with hsame | ⟨-, hfirst | hall⟩
    · rcases mem_reloadSlots hslot with hunloaded | ⟨m', hm', hfile⟩ | ⟨hold, -⟩
      · rw [hunloaded] at hm
        cases hm
      · rw [hm] at hm'
        cases hm'
        rw [hfile, hsame]
        rfl
      · exact hbefore slot hold m hm
    · rcases mem_reloadSlots_of_first hfirst hslot with hunloaded | hold
      · rw [hunloaded] at hm
        cases hm
      · exact hbefore slot hold m hm
    · have hok := (isOk_reloadSlots path attempts 0 s.pool).mpr (by simpa using hall)
      rw [hfails] at hok
      cases hok
  · rintro j path' hpath' ⟨req, hreq, hflight⟩
    rw [hpending] at hpath'
    split at hpath'
    · cases hpath'
      rcases hcalm with hsame | ⟨hidle, -⟩
      · exact hsame
      · rw [hidle req hreq] at hflight
        cases hflight
    · cases hpath'

/-- The tokenizer of the one pending model, which is the one that every request relies on. -/
theorem Consistent.publish (hs : s.Consistent tokenizerOf) {k : Nat} {path : GgufPath}
    (hselect : s.selects[k]? = some (.publishing path)) :
    ({ s with tokenizer := tokenizerOf path }.setSelect k .done).Consistent tokenizerOf := by
  have hpath : s.pendingAt k = some path := by
    rw [pendingAt, hselect]
    rfl
  have hnone : ∀ j, ({ s with tokenizer := tokenizerOf path }.setSelect k .done).pendingAt j =
      none := by
    intro j
    rw [pendingAt_setSelect (by exact hselect)]
    split
    · rfl
    · rename_i hj
      by_contra hsome
      have hj' := Option.isSome_iff_ne_none.mpr hsome
      exact hj (hs.pending_unique j k hj' (by rw [hpath]; rfl))
  refine ⟨?_, ?_, ?_, ?_, ?_, hs.agree⟩
  · intro i j hi _
    rw [hnone] at hi
    cases hi
  · intro j path' hpath'
    rw [hnone] at hpath'
    cases hpath'
  · intro _
    exact hs.pending_loaded k path hpath
  · intro req hreq
    have hrelies := hs.relies req hreq
    cases hflight : req.inFlight with
    | true =>
      show Relies tokenizerOf (tokenizerOf path) req
      rwa [hs.pending_eq k path hpath ⟨req, hreq, hflight⟩]
    | false =>
      cases req with
      | done => trivial
      | encoded _ | holding _ _ | released _ => cases hflight
  · intro j path' hpath' _
    rw [hnone] at hpath'
    cases hpath'

/-! ### Every calm step keeps the invariant -/

/-- A request that holds a slot, and the model there. -/
theorem Consistent.holding (hs : s.Consistent tokenizerOf) {r i : Nat} {encoder : T}
    (hreq : s.requests[r]? = some (.holding i encoder)) :
    encoder = s.tokenizer ∧ ∀ path, s.fileAt i = some path → tokenizerOf path = s.tokenizer := by
  have hmem := List.mem_of_getElem? hreq
  exact ⟨hs.relies _ hmem, fun path hpath => (hs.loaded hmem rfl).fileAt hpath⟩

theorem Consistent.step (hs : s.Consistent tokenizerOf) {step : SwapStep}
    (hcalm : s.Calm tokenizerOf step) (hstep : s.step tokenizerOf step = some s') :
    s'.Consistent tokenizerOf := by
  cases step with
  | encode =>
    cases hstep
    exact hs.encode hcalm
  | acquire r i =>
    simp only [SwapSystem.step] at hstep
    split at hstep
    · rename_i encoder hreq _
      cases hstep
      have hrelies := hs.relies _ (List.mem_of_getElem? hreq)
      exact (hs.setRequest hreq rfl (.holding i encoder) hrelies).setHolders _
    · cases hstep
  | forward r =>
    simp only [SwapSystem.step] at hstep
    split at hstep
    · rename_i i encoder hreq
      cases hstep
      obtain ⟨hencoder, hfile⟩ := hs.holding hreq
      rw [hencoder]
      exact hs.record hfile
    · cases hstep
  | decode r =>
    simp only [SwapSystem.step] at hstep
    split at hstep
    · rename_i i encoder hreq
      cases hstep
      exact hs.record (hs.holding hreq).2
    · cases hstep
  | release r =>
    simp only [SwapSystem.step] at hstep
    split at hstep
    · rename_i i encoder hreq
      cases hstep
      have hmoved := hs.setRequest hreq rfl (.released (s.fileAt i)) (hs.holding hreq).2
      have hset : (s.requests.set r RequestPhase.done).set r (.released (s.fileAt i)) =
          s.requests.set r (.released (s.fileAt i)) := List.set_set ..
      simp only [SwapSystem.finish, SwapSystem.setRequest, hset]
      exact hmoved.setHolders _
    · cases hstep
  | decodeOutput r =>
    simp only [SwapSystem.step] at hstep
    split at hstep
    · rename_i file hreq
      cases hstep
      have hfile := hs.relies _ (List.mem_of_getElem? hreq)
      exact (hs.record hfile).setRequest (r := r) hreq rfl .done trivial
    · cases hstep
  | finish r =>
    simp only [SwapSystem.step] at hstep
    split at hstep
    · rename_i hreq
      cases hstep
      exact hs.finish hreq rfl
    · rename_i hreq
      cases hstep
      exact hs.finish hreq rfl
    · cases hstep
  | select path attempts =>
    cases hstep
    exact hs.select path attempts
  | lockSlot k =>
    simp only [SwapSystem.step] at hstep
    split at hstep
    · rename_i path attempts taken hselect
      split at hstep
      · cases hstep
        have hmoved := hs.setSelect hselect (.locking path attempts (taken + 1)) rfl
        exact hmoved.setHolders _
      · cases hstep
    · cases hstep
  | reload k =>
    simp only [SwapSystem.step] at hstep
    split at hstep
    · rename_i path attempts taken hselect
      split at hstep
      · cases hstep
        obtain ⟨hnone, hswap⟩ := hcalm path attempts taken hselect
        exact hs.reload hselect hnone hswap
      · cases hstep
    · cases hstep
  | unlock k =>
    simp only [SwapSystem.step] at hstep
    split at hstep
    · rename_i path hselect
      cases hstep
      exact (hs.setSelect hselect (.publishing path) rfl).setHolders _
    · rename_i hselect
      cases hstep
      exact (hs.setSelect hselect .done rfl).setHolders _
    · cases hstep
  | publish k =>
    simp only [SwapSystem.step] at hstep
    split at hstep
    · rename_i path hselect
      cases hstep
      exact hs.publish hselect
    · cases hstep

theorem Consistent.run (hs : s.Consistent tokenizerOf) {steps : List SwapStep}
    (hcalm : s.CalmRun tokenizerOf steps) (hrun : s.run tokenizerOf steps = some s') :
    s'.Consistent tokenizerOf := by
  induction steps generalizing s with
  | nil =>
    cases hrun
    exact hs
  | cons step steps ih =>
    rw [SwapSystem.run, List.foldlM_cons] at hrun
    obtain ⟨next, hstep, hrest⟩ := Option.bind_eq_some_iff.mp hrun
    exact ih (hs.step hcalm.1 hstep) (hcalm.2 next hstep) hrest

theorem CalmRun.cons {step : SwapStep} {steps : List SwapStep} (hcalm : s.Calm tokenizerOf step)
    (hstep : s.step tokenizerOf step = some s') (hrest : s'.CalmRun tokenizerOf steps) :
    s.CalmRun tokenizerOf (step :: steps) := by
  refine ⟨hcalm, fun next hnext => ?_⟩
  cases hstep.symm.trans hnext
  exact hrest

theorem Started.consistent (hs : s.Started tokenizerOf) : s.Consistent tokenizerOf := by
  have hnone : ∀ k, s.pendingAt k = none := by
    intro k
    rw [pendingAt, hs.selects_nil]
    rfl
  refine ⟨?_, ?_, fun _ => hs.served, ?_, ?_, ?_⟩
  · intro k k' hk
    rw [hnone] at hk
    cases hk
  · intro k path hpath
    rw [hnone] at hpath
    cases hpath
  · simp [hs.requests_nil]
  · intro k path hpath
    rw [hnone] at hpath
    cases hpath
  · simp [TokenizersAgree, hs.uses_nil]

/-- In a calm run no prompt meets a model of another tokenizer, and no output a tokenizer of another
model. -/
theorem tokenizers_agree {steps : List SwapStep} (hstarted : s.Started tokenizerOf)
    (hcalm : s.CalmRun tokenizerOf steps) (hrun : s.run tokenizerOf steps = some s') :
    s'.TokenizersAgree tokenizerOf :=
  (hstarted.consistent.run hcalm hrun).agree

end SwapSystem

/-! ### A prompt that waits for its slot -/

/-- One slot, with the tokenizers named after their files. -/
def oneSlot : SwapSystem GgufPath where
  pool := [⟨⟨some ⟨"old.gguf", 2048⟩, 16, 2048, []⟩, []⟩]
  holders := [none]
  tokenizer := "old.gguf"
  requests := []
  selects := []
  uses := []

theorem oneSlot_started : oneSlot.Started fun path => path := by
  refine ⟨rfl, rfl, rfl, ?_⟩
  intro slot hslot m hm
  rw [List.mem_singleton.mp hslot] at hm
  cases hm
  rfl

def loads : Nat → LoadAttempt := fun _ => ⟨.ok (), .ok (), .ok (), .ok (16, 2048), .ok 2048⟩

/-- A request before the swap and one after it. -/
def orderlyRun : List SwapStep :=
  [.encode, .acquire 0 0, .forward 0, .release 0, .decodeOutput 0, .select "new.gguf" loads,
    .lockSlot 0, .reload 0, .unlock 0, .publish 0, .encode, .acquire 1 0, .forward 1, .decode 1,
    .finish 1]

theorem orderlyRun_calm : oneSlot.CalmRun (fun path => path) orderlyRun := by
  refine .cons ?_ rfl ?_
  · intro k path hpath
    cases k <;> cases hpath
  refine .cons trivial rfl (.cons trivial rfl (.cons trivial rfl (.cons trivial rfl ?_)))
  refine .cons trivial rfl (.cons trivial rfl (.cons ?_ rfl ?_))
  · rintro path attempts taken ⟨⟩
    refine ⟨?_, .inr ⟨?_, .inr fun _ _ => rfl⟩⟩
    · rintro (_ | _) <;> rfl
    · intro req hreq
      rw [List.mem_singleton.mp hreq]
      rfl
  refine .cons trivial rfl (.cons trivial rfl (.cons ?_ rfl ?_))
  · rintro (_ | _) path hpath <;> cases hpath
  exact .cons trivial rfl (.cons trivial rfl (.cons trivial rfl (.cons trivial rfl trivial)))

theorem tokenizers_agree_orderly :
    ∃ s', oneSlot.run (fun path => path) orderlyRun = some s' ∧
      s'.TokenizersAgree fun path => path :=
  ⟨_, rfl, SwapSystem.tokenizers_agree oneSlot_started orderlyRun_calm rfl⟩

/-- The prompt is encoded before the swap and forwarded after it. -/
def staleRun : List SwapStep :=
  [.encode, .select "new.gguf" loads, .lockSlot 0, .reload 0, .unlock 0, .acquire 0 0, .forward 0]

theorem stale_prompt_forwarded :
    ¬ ∀ (s : SwapSystem GgufPath) (steps : List SwapStep) (s' : SwapSystem GgufPath),
      s.Started (fun path => path) → s.run (fun path => path) steps = some s' →
      s'.TokenizersAgree fun path => path := by
  intro hclaim
  have hagree := hclaim oneSlot staleRun _ oneSlot_started rfl ⟨"old.gguf", "new.gguf"⟩
    List.mem_cons_self
  exact absurd hagree (by decide)

end Zllm.Rest
