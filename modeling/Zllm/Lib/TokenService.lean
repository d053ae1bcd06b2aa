import Mathlib.Algebra.BigOperators.Group.Multiset.Basic
import Mathlib.Data.Multiset.MapFold
import Mathlib.Data.Multiset.Filter
import Mathlib.Data.List.Basic

/-!
# A service that streams tokens

The protocol of a server that accepts requests, produces the tokens of each one at a time in
whatever interleaving it likes, and drops a request once a token completes it or its client cancels
it. The board holds the jobs still being served, the log is what the clients saw, and the session of
a request is its part of the log.
-/

namespace Zllm.TokenService

/-- What a client asks for: a key to address the request by, the tokens that stop it, and the
number of tokens at which it ends. -/
structure Protocol (Req Tok Key : Type) where
  key : Req → Key
  stop : Req → Tok → Bool
  limit : Req → Nat

structure Job (Req Tok : Type) where
  req : Req
  produced : List Tok

inductive Entry (Req Tok Key : Type) where
  | accepted (req : Req)
  | emitted (key : Key) (tok : Tok) (done : Bool)
  | cancelled (key : Key)
  deriving DecidableEq

/-- The jobs being served. -/
abbrev Board (Req Tok : Type) := Multiset (Job Req Tok)

variable {Req Tok Key : Type}

def Job.push (job : Job Req Tok) (tok : Tok) : Job Req Tok :=
  { job with produced := job.produced ++ [tok] }

/-- Whether `tok` is the last token of `job`. -/
def Protocol.completes (proto : Protocol Req Tok Key) (job : Job Req Tok) (tok : Tok) : Bool :=
  proto.stop job.req tok || proto.limit job.req ≤ job.produced.length + 1

def Protocol.jobKey (proto : Protocol Req Tok Key) (job : Job Req Tok) : Key := proto.key job.req

@[simp]
theorem Protocol.jobKey_push (proto : Protocol Req Tok Key) (job : Job Req Tok) (tok : Tok) :
    proto.jobKey (job.push tok) = proto.jobKey job := rfl

variable (proto : Protocol Req Tok Key) (Picks : Job Req Tok → Tok → Prop)

inductive Step (board : Board Req Tok) : Entry Req Tok Key → Board Req Tok → Prop where
  | accept (req : Req) (hfresh : ∀ job ∈ board, proto.jobKey job ≠ proto.key req) :
      Step board (.accepted req) (⟨req, []⟩ ::ₘ board)
  | finish (job : Job Req Tok) (rest : Board Req Tok) (tok : Tok) (hboard : board = job ::ₘ rest)
      (hpick : Picks job tok) (hdone : proto.completes job tok = true) :
      Step board (.emitted (proto.jobKey job) tok true) rest
  | advance (job : Job Req Tok) (rest : Board Req Tok) (tok : Tok) (hboard : board = job ::ₘ rest)
      (hpick : Picks job tok) (hmore : proto.completes job tok = false) :
      Step board (.emitted (proto.jobKey job) tok false) (job.push tok ::ₘ rest)
  | cancel (job : Job Req Tok) (rest : Board Req Tok) (hboard : board = job ::ₘ rest) :
      Step board (.cancelled (proto.jobKey job)) rest

inductive Run : Board Req Tok → List (Entry Req Tok Key) → Board Req Tok → Prop where
  | refl (board : Board Req Tok) : Run board [] board
  | cons {board board' board'' : Board Req Tok} {entry : Entry Req Tok Key}
      {log : List (Entry Req Tok Key)} (hstep : Step proto Picks board entry board')
      (hrun : Run board' log board'') : Run board (entry :: log) board''

/-- What a job can still see of the log, and the job it then is, if any. -/
inductive Session : Job Req Tok → List (Entry Req Tok Key) → Option (Job Req Tok) → Prop where
  | waiting (job : Job Req Tok) : Session job [] (some job)
  | cancelled (job : Job Req Tok) : Session job [.cancelled (proto.jobKey job)] none
  | finished (job : Job Req Tok) (tok : Tok) (hpick : Picks job tok)
      (hdone : proto.completes job tok = true) :
      Session job [.emitted (proto.jobKey job) tok true] none
  | advanced (job : Job Req Tok) (tok : Tok) (entries : List (Entry Req Tok Key))
      (rest : Option (Job Req Tok)) (hpick : Picks job tok)
      (hmore : proto.completes job tok = false) (hrest : Session (job.push tok) entries rest) :
      Session job (.emitted (proto.jobKey job) tok false :: entries) rest

namespace Entry

variable [DecidableEq Key]

/-- Whether `entry` concerns the request addressed by `key`. -/
def concerns (key : Key) : Entry Req Tok Key → Bool
  | accepted req => proto.key req = key
  | emitted k _ _ => k = key
  | cancelled k => k = key

def accepts (key : Key) : Entry Req Tok Key → Bool
  | accepted req => proto.key req = key
  | _ => false

/-- Whether nothing may follow `entry` in its session. -/
def final : Entry Req Tok Key → Bool
  | emitted _ _ done => done
  | cancelled _ => true
  | accepted _ => false

@[simp]
theorem accepts_emitted (key k : Key) (tok : Tok) (done : Bool) :
    (emitted k tok done : Entry Req Tok Key).accepts proto key = false := rfl

def token? : Entry Req Tok Key → Option Tok
  | emitted _ tok _ => some tok
  | _ => none

end Entry

section

variable [DecidableEq Key]

/-- The entries of `key` up to its next acceptance. -/
def sessionOf (key : Key) (log : List (Entry Req Tok Key)) : List (Entry Req Tok Key) :=
  (log.takeWhile fun entry => !entry.accepts proto key).filter (·.concerns proto key)

/-- The keys that are live after an entry. -/
def liveAfter (live : Multiset Key) : Entry Req Tok Key → Multiset Key
  | .accepted req => proto.key req ::ₘ live
  | .emitted key _ true => live.erase key
  | .emitted _ _ false => live
  | .cancelled key => live.erase key

/-- The keys accepted and not yet done or cancelled. -/
def liveKeys (log : List (Entry Req Tok Key)) : Multiset Key := log.foldl (liveAfter proto) 0

end

/-- Whether `entries` show a last token. -/
def Completed (entries : List (Entry Req Tok Key)) : Prop :=
  ∃ key tok, .emitted key tok true ∈ entries

/-- The tokens that `entries` emit. -/
def tokensOf (entries : List (Entry Req Tok Key)) : List Tok := entries.filterMap Entry.token?

@[simp]
theorem tokensOf_nil : tokensOf ([] : List (Entry Req Tok Key)) = [] := rfl

@[simp]
theorem tokensOf_emitted (key : Key) (tok : Tok) (done : Bool) (entries : List (Entry Req Tok Key)) :
    tokensOf (.emitted key tok done :: entries) = tok :: tokensOf entries := rfl

@[simp]
theorem tokensOf_cancelled (key : Key) (entries : List (Entry Req Tok Key)) :
    tokensOf (.cancelled key :: entries) = tokensOf entries := rfl

/-- One token at a time from `produced` on, up to a stop token or `n` tokens. -/
def decodeAlone (next : List Tok → Tok) (stop : Tok → Bool) : (n : Nat) → (produced : List Tok) →
    List Tok
  | 0, _ => []
  | n + 1, produced =>
      let tok := next produced
      if stop tok then [tok] else tok :: decodeAlone next stop n (produced ++ [tok])

/-! ### Runs -/

section

variable {proto Picks} {board board' board'' : Board Req Tok} {log log' : List (Entry Req Tok Key)}

theorem Run.single {entry : Entry Req Tok Key} (hstep : Step proto Picks board entry board') :
    Run proto Picks board [entry] board' :=
  .cons hstep (.refl board')

theorem Run.trans (hfirst : Run proto Picks board log board')
    (hsecond : Run proto Picks board' log' board'') :
    Run proto Picks board (log ++ log') board'' := by
  induction hfirst with
  | refl => exact hsecond
  | cons hstep _ ih => exact .cons hstep (ih hsecond)

theorem Run.split (hrun : Run proto Picks board (log ++ log') board'') :
    ∃ board', Run proto Picks board log board' ∧ Run proto Picks board' log' board'' := by
  induction log generalizing board with
  | nil => exact ⟨board, .refl board, hrun⟩
  | cons entry log ih =>
      cases hrun with
      | cons hstep hrun =>
          obtain ⟨mid, hfirst, hsecond⟩ := ih hrun
          exact ⟨mid, .cons hstep hfirst, hsecond⟩

theorem Run.board_eq (hrun : Run proto Picks board [] board') : board' = board := by
  cases hrun
  rfl

theorem Run.step_of_singleton {entry : Entry Req Tok Key}
    (hrun : Run proto Picks board [entry] board') : Step proto Picks board entry board' := by
  cases hrun with
  | cons hstep hrun =>
      rw [hrun.board_eq]
      exact hstep

theorem Step.mono {Picks' : Job Req Tok → Tok → Prop} {entry : Entry Req Tok Key}
    (hstep : Step proto Picks board entry board')
    (hmono : ∀ job tok, Picks job tok → Picks' job tok) : Step proto Picks' board entry board' := by
  cases hstep with
  | accept req hfresh => exact .accept req hfresh
  | finish job _ tok hboard hpick hdone => exact .finish job _ tok hboard (hmono _ _ hpick) hdone
  | advance job rest tok hboard hpick hmore =>
      exact .advance job rest tok hboard (hmono _ _ hpick) hmore
  | cancel job _ hboard => exact .cancel job _ hboard

theorem Run.mono {Picks' : Job Req Tok → Tok → Prop} (hrun : Run proto Picks board log board')
    (hmono : ∀ job tok, Picks job tok → Picks' job tok) : Run proto Picks' board log board' := by
  induction hrun with
  | refl => exact .refl _
  | cons hstep _ ih => exact .cons (hstep.mono hmono) ih

theorem Step.nodup {entry : Entry Req Tok Key} (hstep : Step proto Picks board entry board')
    (hnodup : (board.map proto.jobKey).Nodup) : (board'.map proto.jobKey).Nodup := by
  cases hstep with
  | accept req hfresh =>
      rw [Multiset.map_cons, Multiset.nodup_cons]
      refine ⟨fun hmem => ?_, hnodup⟩
      obtain ⟨job, hjob, heq⟩ := Multiset.mem_map.mp hmem
      exact hfresh job hjob heq
  | finish job rest tok hboard =>
      rw [hboard, Multiset.map_cons, Multiset.nodup_cons] at hnodup
      exact hnodup.2
  | advance job rest tok hboard =>
      rw [hboard] at hnodup
      simpa using hnodup
  | cancel job rest hboard =>
      rw [hboard, Multiset.map_cons, Multiset.nodup_cons] at hnodup
      exact hnodup.2

theorem Run.nodup (hrun : Run proto Picks board log board')
    (hnodup : (board.map proto.jobKey).Nodup) : (board'.map proto.jobKey).Nodup := by
  induction hrun with
  | refl => exact hnodup
  | cons hstep _ ih => exact ih (hstep.nodup hnodup)

/-- A property of jobs that acceptance establishes and progress keeps holds of all that is
served. -/
theorem Run.forall_board {P : Job Req Tok → Prop} (hrun : Run proto Picks board log board')
    (haccept : ∀ req, .accepted req ∈ log → P ⟨req, []⟩)
    (hadvance : ∀ job tok, P job → proto.completes job tok = false → P (job.push tok))
    (hboard : ∀ job ∈ board, P job) : ∀ job ∈ board', P job := by
  induction hrun with
  | refl => exact hboard
  | cons hstep _ ih =>
      refine ih (fun req hreq => haccept req (List.mem_cons_of_mem _ hreq)) ?_
      cases hstep with
      | accept req _ =>
          simp only [Multiset.mem_cons, forall_eq_or_imp]
          exact ⟨haccept req List.mem_cons_self, hboard⟩
      | finish job rest tok heq =>
          exact fun other hother => hboard other (heq ▸ Multiset.mem_cons_of_mem hother)
      | advance job rest tok heq _ hmore =>
          simp only [heq, Multiset.mem_cons, forall_eq_or_imp] at hboard ⊢
          exact ⟨hadvance job tok hboard.1 hmore, hboard.2⟩
      | cancel job rest heq =>
          exact fun other hother => hboard other (heq ▸ Multiset.mem_cons_of_mem hother)

/-- The tokens a job may still produce. -/
def Protocol.outstanding (proto : Protocol Req Tok Key) (job : Job Req Tok) : Nat :=
  max 1 (proto.limit job.req) - job.produced.length

theorem Protocol.outstanding_push {job : Job Req Tok} {tok : Tok}
    (hmore : proto.completes job tok = false) : 0 < proto.outstanding (job.push tok) ∧
      proto.outstanding (job.push tok) + 1 = proto.outstanding job := by
  simp only [completes, Bool.or_eq_false_iff, decide_eq_false_iff_not] at hmore
  have hlimit := hmore.2
  simp only [outstanding, Job.push, List.length_append, List.length_singleton]
  omega

/-- Without new requests, each token that is emitted is one token less outstanding. -/
theorem Run.outstanding_add_le (hrun : Run proto Picks board log board')
    (haccept : ∀ req, .accepted req ∉ log) (hboard : ∀ job ∈ board, 0 < proto.outstanding job) :
    (board'.map proto.outstanding).sum + (tokensOf log).length ≤
      (board.map proto.outstanding).sum := by
  induction hrun with
  | refl => simp
  | cons hstep _ ih =>
      have hlater := ih fun req hreq => haccept req (List.mem_cons_of_mem _ hreq)
      cases hstep with
      | accept req _ => exact absurd List.mem_cons_self (haccept req)
      | finish job rest tok heq =>
          subst heq
          simp only [Multiset.mem_cons, forall_eq_or_imp] at hboard
          have := hlater hboard.2
          simp only [Multiset.map_cons, Multiset.sum_cons, tokensOf_emitted, List.length_cons]
          omega
      | advance job rest tok heq _ hmore =>
          subst heq
          simp only [Multiset.mem_cons, forall_eq_or_imp] at hboard hlater
          obtain ⟨hleft, hpush⟩ := proto.outstanding_push hmore
          have := hlater ⟨hleft, hboard.2⟩
          simp only [Multiset.map_cons, Multiset.sum_cons, tokensOf_emitted, List.length_cons] at this ⊢
          omega
      | cancel job rest heq =>
          subst heq
          simp only [Multiset.mem_cons, forall_eq_or_imp] at hboard
          have := hlater hboard.2
          simp only [Multiset.map_cons, Multiset.sum_cons, tokensOf_cancelled]
          omega

variable [DecidableEq Key] {key : Key}

theorem Step.liveAfter {entry : Entry Req Tok Key} (hstep : Step proto Picks board entry board') :
    board'.map proto.jobKey = TokenService.liveAfter proto (board.map proto.jobKey) entry := by
  cases hstep with
  | accept req _ => simp [TokenService.liveAfter, Protocol.jobKey]
  | finish job rest tok hboard => simp [TokenService.liveAfter, hboard]
  | advance job rest tok hboard => simp [TokenService.liveAfter, hboard]
  | cancel job rest hboard => simp [TokenService.liveAfter, hboard]

/-- The board serves exactly the keys the log leaves live. -/
theorem Run.liveKeys (hrun : Run proto Picks 0 log board) :
    board.map proto.jobKey = TokenService.liveKeys proto log := by
  have hfold : ∀ {board board' : Board Req Tok} {log : List (Entry Req Tok Key)},
      Run proto Picks board log board' →
      board'.map proto.jobKey = log.foldl (TokenService.liveAfter proto) (board.map proto.jobKey) :=
    fun hrun => by
      induction hrun with
      | refl => rfl
      | cons hstep _ ih => rw [ih, hstep.liveAfter, List.foldl_cons]
  simpa [TokenService.liveKeys] using hfold hrun

/-! ### Sessions of a run -/

theorem accepts_of_not_concerns {entry : Entry Req Tok Key}
    (hne : entry.concerns proto key = false) : entry.accepts proto key = false := by
  cases entry with
  | accepted req => exact hne
  | emitted => rfl
  | cancelled => rfl

theorem sessionOf_cons_ne {entry : Entry Req Tok Key} (hne : entry.concerns proto key = false) :
    sessionOf proto key (entry :: log) = sessionOf proto key log := by
  simp [sessionOf, accepts_of_not_concerns hne, hne]

theorem sessionOf_cons_eq {entry : Entry Req Tok Key} (heq : entry.concerns proto key = true)
    (haccepts : entry.accepts proto key = false) :
    sessionOf proto key (entry :: log) = entry :: sessionOf proto key log := by
  simp [sessionOf, haccepts, heq]

/-- A key the board does not serve sees nothing until it is accepted. -/
theorem Run.sessionOf_absent (hrun : Run proto Picks board log board')
    (habsent : key ∉ board.map proto.jobKey) :
    sessionOf proto key log = [] ∧
      ((∀ entry ∈ log, entry.accepts proto key = false) → key ∉ board'.map proto.jobKey) := by
  induction hrun with
  | refl => exact ⟨rfl, fun _ => habsent⟩
  | @cons board board₁ board' entry log hstep hrun ih =>
      by_cases haccept : entry.accepts proto key = true
      · refine ⟨by simp [sessionOf, haccept], fun hnone => ?_⟩
        have := hnone entry List.mem_cons_self
        rw [haccept] at this
        cases this
      · have hne : entry.concerns proto key = false := by
          cases hstep with
          | accept req _ => simpa [Entry.accepts, Entry.concerns] using haccept
          | finish job rest tok hboard =>
              simp only [hboard, Multiset.map_cons, Multiset.mem_cons, not_or] at habsent
              simpa [Entry.concerns] using Ne.symm habsent.1
          | advance job rest tok hboard =>
              simp only [hboard, Multiset.map_cons, Multiset.mem_cons, not_or] at habsent
              simpa [Entry.concerns] using Ne.symm habsent.1
          | cancel job rest hboard =>
              simp only [hboard, Multiset.map_cons, Multiset.mem_cons, not_or] at habsent
              simpa [Entry.concerns] using Ne.symm habsent.1
        have habsent' : key ∉ board₁.map proto.jobKey := by
          rw [hstep.liveAfter]
          cases hstep with
          | accept req _ =>
              simp only [Entry.concerns, decide_eq_false_iff_not] at hne
              simpa [TokenService.liveAfter, Ne.symm hne] using habsent
          | finish => exact fun hmem => habsent (Multiset.mem_of_mem_erase hmem)
          | advance => exact habsent
          | cancel => exact fun hmem => habsent (Multiset.mem_of_mem_erase hmem)
        obtain ⟨hnil, hrest⟩ := ih habsent'
        rw [sessionOf_cons_ne hne]
        exact ⟨hnil, fun hnone => hrest fun entry hentry => hnone entry (List.mem_cons_of_mem _ hentry)⟩

/-- What a served job sees of the rest of the run is a session, which is still open at the end
exactly if the job's key is served and was not accepted anew. -/
theorem Run.session {job : Job Req Tok} {rest : Board Req Tok}
    (hrun : Run proto Picks (job ::ₘ rest) log board')
    (hnodup : (Multiset.map proto.jobKey (job ::ₘ rest)).Nodup) :
    ∃ last, Session proto Picks job (sessionOf proto (proto.jobKey job) log) last ∧
      (last.isSome ↔ (∀ entry ∈ log, entry.accepts proto (proto.jobKey job) = false) ∧
        proto.jobKey job ∈ board'.map proto.jobKey) := by
  induction log generalizing job rest with
  | nil =>
      cases hrun
      exact ⟨some job, .waiting job, by simp⟩
  | cons entry log ih =>
      cases hrun with
      | @cons _ board₁ _ _ _ hstep hrun =>
          have hkey := hnodup
          rw [Multiset.map_cons, Multiset.nodup_cons] at hkey
          have hskip : ∀ {rest₁}, board₁ = job ::ₘ rest₁ →
              entry.concerns proto (proto.jobKey job) = false →
              ∃ last, Session proto Picks job
                (sessionOf proto (proto.jobKey job) (entry :: log)) last ∧
                (last.isSome ↔
                  (∀ e ∈ entry :: log, e.accepts proto (proto.jobKey job) = false) ∧
                  proto.jobKey job ∈ board'.map proto.jobKey) := fun heq hne => by
            subst heq
            obtain ⟨last, hsession, hlast⟩ := ih hrun (hstep.nodup hnodup)
            refine ⟨last, by rwa [sessionOf_cons_ne hne], ?_⟩
            rw [hlast, List.forall_mem_cons]
            simp [accepts_of_not_concerns hne]
          -- a job other than `job` leaves `job` on the board
          have hother : ∀ {other : Job Req Tok} {cs : Board Req Tok}, rest = other ::ₘ cs →
              proto.jobKey other ≠ proto.jobKey job := fun hrest heq => by
            refine hkey.1 ?_
            rw [hrest, Multiset.map_cons, heq]
            exact Multiset.mem_cons_self _ _
          cases hstep with
          | accept req hfresh =>
              refine hskip (Multiset.cons_swap _ _ _) ?_
              simpa [Entry.concerns] using Ne.symm (hfresh job (Multiset.mem_cons_self _ _))
          | finish job₂ rest₂ tok hboard hpick hdone =>
              obtain ⟨rfl, rfl⟩ | ⟨-, cs, hrest, rfl⟩ := Multiset.cons_eq_cons.mp hboard
              · obtain ⟨hnil, habsent⟩ := hrun.sessionOf_absent hkey.1
                rw [sessionOf_cons_eq (by simp [Entry.concerns]) rfl, hnil]
                refine ⟨none, .finished job tok hpick hdone, ?_⟩
                simp only [Option.isSome_none, Bool.false_eq_true, false_iff, not_and]
                exact fun hnone => habsent fun e he => hnone e (List.mem_cons_of_mem _ he)
              · exact hskip rfl (by simpa [Entry.concerns] using hother hrest)
          | advance job₂ rest₂ tok hboard hpick hmore =>
              obtain ⟨rfl, rfl⟩ | ⟨-, cs, hrest, rfl⟩ := Multiset.cons_eq_cons.mp hboard
              · obtain ⟨last, hsession, hlast⟩ := ih hrun
                  (by simpa using hnodup)
                rw [sessionOf_cons_eq (by simp [Entry.concerns]) rfl]
                refine ⟨last, .advanced job tok _ last hpick hmore hsession, ?_⟩
                rw [hlast, List.forall_mem_cons]
                simp
              · exact hskip (Multiset.cons_swap _ _ _)
                  (by simpa [Entry.concerns] using hother hrest)
          | cancel job₂ rest₂ hboard =>
              obtain ⟨rfl, rfl⟩ | ⟨-, cs, hrest, rfl⟩ := Multiset.cons_eq_cons.mp hboard
              · obtain ⟨hnil, habsent⟩ := hrun.sessionOf_absent hkey.1
                rw [sessionOf_cons_eq (by simp [Entry.concerns]) rfl, hnil]
                refine ⟨none, .cancelled job, ?_⟩
                simp only [Option.isSome_none, Bool.false_eq_true, false_iff, not_and]
                exact fun hnone => habsent fun e he => hnone e (List.mem_cons_of_mem _ he)
              · exact hskip rfl (by simpa [Entry.concerns] using hother hrest)

theorem Run.session_of_accepted {req : Req}
    (hrun : Run proto Picks 0 (log ++ .accepted req :: log') board) :
    ∃ last, Session proto Picks ⟨req, []⟩ (sessionOf proto (proto.key req) log') last ∧
      (last.isSome ↔ (∀ entry ∈ log', entry.accepts proto (proto.key req) = false) ∧
        proto.key req ∈ board.map proto.jobKey) := by
  obtain ⟨before, hbefore, hrun⟩ := hrun.split
  cases hrun with
  | cons hstep hrun =>
      have hnodup := hstep.nodup (hbefore.nodup (by simp))
      cases hstep with
      | accept => exact hrun.session hnodup

end

/-! ### What a session looks like -/

section

variable {proto Picks} {job : Job Req Tok} {entries : List (Entry Req Tok Key)}
  {last : Option (Job Req Tok)}

/-- An entry that may end a session does end it. -/
theorem Session.final_last {before after : List (Entry Req Tok Key)} {entry : Entry Req Tok Key}
    (hsession : Session proto Picks job entries last) (heq : entries = before ++ entry :: after)
    (hfinal : entry.final = true) : after = [] := by
  induction hsession generalizing before with
  | waiting => simp at heq
  | cancelled =>
      cases before with
      | nil => exact (by simpa using heq.symm : _ ∧ after = []).2
      | cons => simp at heq
  | finished =>
      cases before with
      | nil => exact (by simpa using heq.symm : _ ∧ after = []).2
      | cons => simp at heq
  | advanced job tok entries rest _ _ _ ih =>
      cases before with
      | nil =>
          obtain ⟨rfl, -⟩ := by simpa using heq
          cases hfinal
      | cons _ before =>
          obtain ⟨-, heq⟩ := by simpa using heq
          exact ih heq

/-- A session has ended exactly if its last entry is a final one. -/
theorem Session.ended_iff (hsession : Session proto Picks job entries last) :
    last.isSome = false ↔ entries.getLast? = some (.cancelled (proto.jobKey job)) ∨
      ∃ tok, entries.getLast? = some (.emitted (proto.jobKey job) tok true) := by
  induction hsession with
  | waiting => simp
  | cancelled => simp
  | finished => simp
  | advanced job tok entries rest _ _ hrest ih =>
      rw [ih]
      cases entries with
      | nil => simp
      | cons entry entries => simp [List.getLast?_cons_cons]

theorem Session.length_tokensOf_le (hsession : Session proto Picks job entries last) :
    (tokensOf entries).length ≤ max 1 (proto.limit job.req - job.produced.length) := by
  induction hsession with
  | waiting => simp
  | cancelled => simp
  | finished => simp
  | advanced job tok entries rest _ hmore _ ih =>
      simp only [Protocol.completes, Bool.or_eq_false_iff, decide_eq_false_iff_not] at hmore
      simp only [tokensOf_emitted, List.length_cons, Job.push, List.length_append,
        List.length_nil] at ih ⊢
      omega

/-- Where each token is determined by the job so far, a session emits a prefix of what the job
decodes to alone, and all of it once it is done. -/
theorem Session.prefix_tokensOf {next : List Tok → Tok} {n : Nat}
    (hsession : Session proto Picks job entries last)
    (hpicks : ∀ produced tok, Picks ⟨job.req, produced⟩ tok → tok = next produced)
    (hn : n = max 1 (proto.limit job.req - job.produced.length)) :
    tokensOf entries <+: decodeAlone next (proto.stop job.req) n job.produced ∧
      (Completed entries →
        tokensOf entries = decodeAlone next (proto.stop job.req) n job.produced) := by
  induction hsession generalizing n with
  | waiting => simp [Completed]
  | cancelled => simp [Completed]
  | finished job tok hpick hdone =>
      have htok := hpicks job.produced tok hpick
      have halone : decodeAlone next (proto.stop job.req) n job.produced = [tok] := by
        obtain ⟨m, rfl⟩ : ∃ m, n = m + 1 := ⟨n - 1, by omega⟩
        simp only [decodeAlone, ← htok]
        split
        · rfl
        · next hstop =>
            simp only [Protocol.completes, hstop, Bool.false_or, decide_eq_true_eq] at hdone
            obtain rfl : m = 0 := by omega
            rfl
      simp [halone]
  | advanced job tok entries rest hpick hmore _ ih =>
      have htok := hpicks job.produced tok hpick
      simp only [Protocol.completes, Bool.or_eq_false_iff, decide_eq_false_iff_not] at hmore
      obtain ⟨m, rfl⟩ : ∃ m, n = m + 1 := ⟨n - 1, by omega⟩
      obtain ⟨hinitial, hdone⟩ := ih (n := m) hpicks (by simp [Job.push]; omega)
      have halone : decodeAlone next (proto.stop job.req) (m + 1) job.produced =
          tok :: decodeAlone next (proto.stop job.req) m (job.produced ++ [tok]) := by
        simp only [decodeAlone, ← htok, hmore.1]
        rfl
      rw [halone, tokensOf_emitted, List.prefix_cons_inj]
      refine ⟨hinitial, fun ⟨key, final, hmem⟩ => ?_⟩
      rw [hdone ⟨key, final, by simpa using hmem⟩]
      rfl

end

end Zllm.TokenService
