import Zllm.Lib.Ledger
import Zllm.Lib.TokenService
import Mathlib.Data.List.TakeWhile

/-!
# Delivery

A server of the token protocol sends each request's tokens on the channel its client came with. The
router keeps the channel of every live request under the request's key. When a request is over its
channel gets one last message and is dropped; where the client has hung up, it is only dropped.
-/

namespace Zllm.Delivery

open Function (update update_of_ne update_self)
open Ledger (Table)
open TokenService (Entry Protocol Board Run Step liveAfter tokensOf)

variable {Req Tok Key Client : Type} [DecidableEq Key]

/-- The channels of the live requests, and what has been sent on every channel: tokens, and `none`
for the end. -/
structure Router (Tok Key Client : Type) [DecidableEq Key] where
  chans : Table Key Client
  sent : Client → List (Option Tok)

namespace Router

def empty : Router Tok Key Client := ⟨∅, fun _ => []⟩

def route (key : Key) (client : Client) (router : Router Tok Key Client) : Router Tok Key Client :=
  { router with chans := router.chans.insert key client }

def forget (key : Key) (router : Router Tok Key Client) : Router Tok Key Client :=
  { router with chans := router.chans.erase key }

section

variable {router : Router Tok Key Client}

theorem lookup_forget (key : Key) : (router.forget key).chans.lookup key = none :=
  AList.lookup_erase _ _

theorem lookup_forget_ne {key other : Key} (hne : other ≠ key) :
    (router.forget key).chans.lookup other = router.chans.lookup other :=
  AList.lookup_erase_ne hne

end

variable [DecidableEq Client]

def send (client : Client) (message : Option Tok) (router : Router Tok Key Client) :
    Router Tok Key Client :=
  { router with sent := update router.sent client (router.sent client ++ [message]) }

/-- Send the end on the channel of `key` and drop it. -/
def finish (key : Key) (client : Client) (router : Router Tok Key Client) : Router Tok Key Client :=
  (router.forget key).send client none

/-- Send a token on the channel of `key`, and the end after its last. -/
def deliver (key : Key) (tok : Tok) (done : Bool) (router : Router Tok Key Client) :
    Router Tok Key Client :=
  match router.chans.lookup key with
  | some client =>
      let told := router.send client (some tok)
      if done then told.finish key client else told
  | none => router

def deliverAll (events : List (Key × Tok × Bool)) (router : Router Tok Key Client) :
    Router Tok Key Client :=
  events.foldl (fun router event => router.deliver event.1 event.2.1 event.2.2) router

/-- Send the end on every channel of `entries`. -/
def drain (entries : List (Sigma fun _ : Key => Client)) (router : Router Tok Key Client) :
    Router Tok Key Client :=
  entries.foldl (fun router entry => router.finish entry.1 entry.2) router

variable {router : Router Tok Key Client} {client : Client}

theorem sent_send (message : Option Tok) :
    (router.send client message).sent client = router.sent client ++ [message] :=
  update_self _ _ _

theorem sent_send_ne {other : Client} (message : Option Tok) (hne : other ≠ client) :
    (router.send client message).sent other = router.sent other :=
  update_of_ne hne _ _

end Router

/-! ### The tokens of a key -/

variable (proto : Protocol Req Tok Key)

/-- The tokens that the log emits for `key`. -/
def tokensFor (key : Key) (log : List (Entry Req Tok Key)) : List Tok :=
  tokensOf (log.filter (·.concerns proto key))

variable {proto} {key : Key} {log : List (Entry Req Tok Key)}

@[simp]
theorem tokensFor_nil : tokensFor proto key [] = [] := rfl

theorem tokensFor_append (log log' : List (Entry Req Tok Key)) :
    tokensFor proto key (log ++ log') = tokensFor proto key log ++ tokensFor proto key log' := by
  simp [tokensFor, tokensOf, List.filter_append, List.filterMap_append]

theorem tokensFor_concat_of_token?_eq_none {entry : Entry Req Tok Key}
    (hnone : entry.token? = none) : tokensFor proto key (log ++ [entry]) = tokensFor proto key log := by
  rw [tokensFor_append]
  by_cases hconcerns : entry.concerns proto key = true
  · simp [tokensFor, hconcerns, tokensOf, hnone]
  · simp [tokensFor, hconcerns]

theorem tokensFor_concat_emitted (tok : Tok) (done : Bool) :
    tokensFor proto key (log ++ [.emitted key tok done]) = tokensFor proto key log ++ [tok] := by
  rw [tokensFor_append]
  simp [tokensFor, Entry.concerns]

theorem tokensFor_concat_emitted_ne {other : Key} (tok : Tok) (done : Bool) (hne : other ≠ key) :
    tokensFor proto other (log ++ [.emitted key tok done]) = tokensFor proto other log := by
  rw [tokensFor_append]
  simp [tokensFor, Entry.concerns, Ne.symm hne]

variable (proto) in
/-- The keys that the log accepts, one after another. -/
def acceptedKeys (log : List (Entry Req Tok Key)) : List Key :=
  log.filterMap fun entry =>
    match entry with
    | .accepted req => some (proto.key req)
    | _ => none

omit [DecidableEq Key] in
theorem acceptedKeys_append (log log' : List (Entry Req Tok Key)) :
    acceptedKeys proto (log ++ log') = acceptedKeys proto log ++ acceptedKeys proto log' :=
  List.filterMap_append

omit [DecidableEq Key] in
theorem nodup_acceptedKeys_concat {req : Req} (hnodup : (acceptedKeys proto log).Nodup)
    (hkey : proto.key req ∉ acceptedKeys proto log) :
    (acceptedKeys proto (log ++ [.accepted req])).Nodup := by
  rw [acceptedKeys_append]
  change (acceptedKeys proto log ++ [proto.key req]).Nodup
  rw [List.nodup_append_comm]
  exact List.nodup_cons.mpr ⟨hkey, hnodup⟩

theorem sessionOf_of_notMem (hkey : key ∉ acceptedKeys proto log) :
    TokenService.sessionOf proto key log = log.filter (·.concerns proto key) := by
  have hnone : ∀ entry ∈ log, entry.accepts proto key = false := by
    intro entry hentry
    cases entry with
    | accepted req =>
      apply decide_eq_false
      rintro rfl
      exact hkey (List.mem_filterMap.mpr ⟨_, hentry, rfl⟩)
    | emitted => rfl
    | cancelled => rfl
  have hwhole : (log.takeWhile fun entry => !entry.accepts proto key) = log := by
    rw [List.takeWhile_eq_self_iff]
    intro entry hentry
    simp [hnone entry hentry]
  rw [TokenService.sessionOf, hwhole]

/-- Where no key is accepted twice, the tokens of a request are those of its session. -/
theorem session_of_accepted {Picks : TokenService.Job Req Tok → Tok → Prop} {board : Board Req Tok}
    {req : Req} (hrun : Run proto Picks 0 log board) (hnodup : (acceptedKeys proto log).Nodup)
    (hreq : .accepted req ∈ log) :
    ∃ entries last, TokenService.Session proto Picks ⟨req, []⟩ entries last ∧
      tokensFor proto (proto.key req) log = tokensOf entries := by
  obtain ⟨before, after, rfl⟩ := List.append_of_mem hreq
  obtain ⟨last, hsession, -⟩ := hrun.session_of_accepted
  refine ⟨_, last, hsession, ?_⟩
  have hkeys : acceptedKeys proto (before ++ .accepted req :: after) =
      acceptedKeys proto before ++ proto.key req :: acceptedKeys proto after :=
    acceptedKeys_append _ _
  rw [hkeys, List.nodup_middle, List.nodup_cons, List.mem_append, not_or] at hnodup
  obtain ⟨mid, hbefore, -⟩ := hrun.split
  have hquiet := (hbefore.sessionOf_absent
    (by simp : proto.key req ∉ Multiset.map proto.jobKey 0)).1
  rw [sessionOf_of_notMem hnodup.1.1] at hquiet
  rw [sessionOf_of_notMem hnodup.1.2, tokensFor, List.filter_append, hquiet, List.nil_append,
    List.filter_cons_of_pos (by simp [Entry.concerns])]
  rfl

/-- A key that was never accepted has no tokens. -/
theorem tokensFor_of_notMem {Picks : TokenService.Job Req Tok → Tok → Prop} {board : Board Req Tok}
    (hrun : Run proto Picks 0 log board) (hkey : key ∉ acceptedKeys proto log) :
    tokensFor proto key log = [] := by
  have hquiet := (hrun.sessionOf_absent (by simp : key ∉ Multiset.map proto.jobKey 0)).1
  rw [sessionOf_of_notMem hkey] at hquiet
  rw [tokensFor, hquiet]
  rfl

/-! ### What a channel carries -/

/-- A stream carries the tokens, and the end exactly where the request is over. Where the client has
hung up, the end may be missing. -/
def Carries (tokens : List Tok) (isLive : Prop) (HungUp : Prop) (messages : List (Option Tok)) : Prop :=
  (isLive ∧ messages = tokens.map some) ∨
    (¬isLive ∧ (messages = tokens.map some ++ [none] ∨ HungUp ∧ messages = tokens.map some))

variable (proto) in
/-- Every request that a client came with is streamed on that client's channel and no other. -/
structure Streams (owner : Key → Option Client) (HungUp : Client → Prop)
    (log : List (Entry Req Tok Key)) (live : Multiset Key) (router : Router Tok Key Client) :
    Prop where
  injective : ∀ {key key' client}, owner key = some client → owner key' = some client → key = key'
  routed : ∀ key client, router.chans.lookup key = some client ↔ key ∈ live ∧ owner key = some client
  owned : ∀ key ∈ live, owner key ≠ none
  carries : ∀ key client, owner key = some client →
    Carries (tokensFor proto key log) (key ∈ live) (HungUp client) (router.sent client)
  silent : ∀ key, owner key = none → tokensFor proto key log = []
  unsent : ∀ client, (∀ key, owner key ≠ some client) → router.sent client = []

section

variable {owner owner' : Key → Option Client} {HungUp HungUp' : Client → Prop}
  {log' : List (Entry Req Tok Key)} {live live' : Multiset Key}
  {router router' : Router Tok Key Client} {client : Client} {key : Key}

theorem streams_empty (HungUp : Client → Prop) :
    Streams proto (fun _ => none) HungUp ([] : List (Entry Req Tok Key)) 0
      (Router.empty : Router Tok Key Client) where
  injective := fun h => nomatch h
  routed := by simp [Router.empty]
  owned := by simp
  carries := fun _ _ h => nomatch h
  silent := fun _ _ => rfl
  unsent := fun _ _ => rfl

/-- `client` becomes, or stays, the client of `key` and of no other key. -/
structure Assigns (owner : Key → Option Client) (key : Key) (client : Client)
    (owner' : Key → Option Client) : Prop where
  assigned : owner' key = some client
  before : owner key = none ∨ owner key = some client
  others : ∀ other, other ≠ key → owner' other = owner other
  alone : ∀ other, other ≠ key → owner other ≠ some client

theorem assigns_update (hkey : owner key = none) (hclient : ∀ other, owner other ≠ some client) :
    Assigns owner key client (update owner key (some client)) where
  assigned := update_self _ _ _
  before := Or.inl hkey
  others := fun _ hne => update_of_ne hne _ _
  alone := fun other _ => hclient other

theorem Streams.assigns (h : Streams proto owner HungUp log live router)
    (howner : owner key = some client) : Assigns owner key client owner where
  assigned := howner
  before := Or.inr howner
  others := fun _ _ => rfl
  alone := fun _ hne hother => hne (h.injective hother howner)

/-- What an operation on the request of one key leaves alone. -/
structure Frame (proto : Protocol Req Tok Key) (key : Key) (client : Client)
    (log log' : List (Entry Req Tok Key)) (live live' : Multiset Key)
    (router router' : Router Tok Key Client) : Prop where
  tokens : ∀ other, other ≠ key → tokensFor proto other log' = tokensFor proto other log
  live : ∀ other, other ≠ key → (other ∈ live' ↔ other ∈ live)
  chans : ∀ other, other ≠ key → router'.chans.lookup other = router.chans.lookup other
  sent : ∀ other, other ≠ client → router'.sent other = router.sent other

/-- An operation on one request that leaves its stream as it should be. -/
theorem Streams.change (h : Streams proto owner HungUp log live router)
    (hassigns : Assigns owner key client owner')
    (hframe : Frame proto key client log log' live live' router router')
    (hlookup : router'.chans.lookup key = some client ↔ key ∈ live')
    (hnone : key ∉ live' → router'.chans.lookup key = none)
    (hcarries : Carries (tokensFor proto key log') (key ∈ live') (HungUp client)
      (router'.sent client)) :
    Streams proto owner' HungUp log' live' router' where
  injective := by
    intro key₁ key₂ other h₁ h₂
    by_cases hkey₁ : key₁ = key <;> by_cases hkey₂ : key₂ = key
    · rw [hkey₁, hkey₂]
    · subst hkey₁
      rw [hassigns.assigned] at h₁
      rw [hassigns.others key₂ hkey₂, ← h₁] at h₂
      exact absurd h₂ (hassigns.alone key₂ hkey₂)
    · subst hkey₂
      rw [hassigns.assigned] at h₂
      rw [hassigns.others key₁ hkey₁, ← h₂] at h₁
      exact absurd h₁ (hassigns.alone key₁ hkey₁)
    · rw [hassigns.others key₁ hkey₁] at h₁
      rw [hassigns.others key₂ hkey₂] at h₂
      exact h.injective h₁ h₂
  routed := by
    intro other reader
    by_cases hkey : other = key
    · subst hkey
      rw [hassigns.assigned]
      by_cases hlive : other ∈ live'
      · simp [hlookup.mpr hlive, hlive]
      · simp [hnone hlive, hlive]
    · rw [hframe.chans other hkey, h.routed, hframe.live other hkey, hassigns.others other hkey]
  owned := by
    intro other hother
    by_cases hkey : other = key
    · simp [hkey, hassigns.assigned]
    · rw [hassigns.others other hkey]
      exact h.owned other ((hframe.live other hkey).mp hother)
  carries := by
    intro other reader hreader
    by_cases hkey : other = key
    · subst hkey
      obtain rfl : client = reader := by simpa [hassigns.assigned] using hreader
      exact hcarries
    · rw [hassigns.others other hkey] at hreader
      have hne : reader ≠ client := by
        rintro rfl
        exact hassigns.alone other hkey hreader
      rw [hframe.tokens other hkey, hframe.sent reader hne, hframe.live other hkey]
      exact h.carries other reader hreader
  silent := by
    intro other hother
    have hkey : other ≠ key := by
      rintro rfl
      simp [hassigns.assigned] at hother
    rw [hframe.tokens other hkey]
    exact h.silent other (by rwa [← hassigns.others other hkey])
  unsent := by
    intro reader hreader
    have hne : reader ≠ client := by
      rintro rfl
      exact hreader key hassigns.assigned
    rw [hframe.sent reader hne]
    apply h.unsent
    intro other hother
    by_cases hkey : other = key
    · subst hkey
      rcases hassigns.before with hfree | howner
      · simp [hfree] at hother
      · rw [howner] at hother
        exact hne (Option.some.inj hother).symm
    · exact hreader other (by rwa [hassigns.others other hkey])

/-! ### Requests that come and go -/

/-- The log matters for the tokens it emits. -/
theorem Streams.relog (h : Streams proto owner HungUp log live router)
    (htokens : ∀ key, tokensFor proto key log' = tokensFor proto key log) :
    Streams proto owner HungUp log' live router where
  injective := h.injective
  routed := h.routed
  owned := h.owned
  carries := by
    intro key client howner
    rw [htokens]
    exact h.carries key client howner
  silent := by
    intro key howner
    rw [htokens]
    exact h.silent key howner
  unsent := h.unsent

/-- A client that hangs up is owed less. -/
theorem Streams.hangUp (h : Streams proto owner HungUp log live router)
    (hmono : ∀ client, HungUp client → HungUp' client) :
    Streams proto owner HungUp' log live router where
  injective := h.injective
  routed := h.routed
  owned := h.owned
  carries := by
    intro key client howner
    rcases h.carries key client howner with hlive | ⟨hover, hended | ⟨hhung, hsent⟩⟩
    · exact Or.inl hlive
    · exact Or.inr ⟨hover, Or.inl hended⟩
    · exact Or.inr ⟨hover, Or.inr ⟨hmono client hhung, hsent⟩⟩
  silent := h.silent
  unsent := h.unsent

/-- Drop a channel, after the end has been sent on it or once its client has hung up. -/
theorem Streams.close (h : Streams proto owner HungUp log live router)
    (hlookup : router.chans.lookup key = some client) (hnodup : live.Nodup)
    (hchans : router'.chans = (router.forget key).chans)
    (hothers : ∀ other, other ≠ client → router'.sent other = router.sent other)
    (hend : router'.sent client = router.sent client ++ [none] ∨
      HungUp client ∧ router'.sent client = router.sent client) :
    Streams proto owner HungUp log (live.erase key) router' := by
  obtain ⟨hlive, howner⟩ := (h.routed key client).mp hlookup
  have hgone : key ∉ live.erase key := hnodup.notMem_erase
  have hforgot : router'.chans.lookup key = none := hchans ▸ Router.lookup_forget key
  apply h.change (h.assigns howner)
  · refine ⟨fun _ _ => rfl, fun _ hne => Multiset.mem_erase_of_ne hne, ?_, hothers⟩
    intro other hne
    rw [hchans]
    exact Router.lookup_forget_ne hne
  · simp [hforgot, hgone]
  · exact fun _ => hforgot
  · rcases h.carries key client howner with ⟨-, hsent⟩ | ⟨hnot, -⟩
    · rw [hsent] at hend
      exact Or.inr ⟨hgone, hend⟩
    · exact absurd hlive hnot

theorem Streams.forget (h : Streams proto owner HungUp log live router)
    (hlookup : router.chans.lookup key = some client) (hnodup : live.Nodup) (hhung : HungUp client) :
    Streams proto owner HungUp log (live.erase key) (router.forget key) :=
  h.close hlookup hnodup rfl (fun _ _ => rfl) (Or.inr ⟨hhung, rfl⟩)

theorem Streams.notMem_live (h : Streams proto owner HungUp log live router)
    (hkey : owner key = none) : key ∉ live :=
  fun hlive => h.owned key hlive hkey

theorem Streams.accept (h : Streams proto owner HungUp log live router) (req : Req)
    (hkey : owner (proto.key req) = none) (hclient : ∀ other, owner other ≠ some client) :
    Streams proto (update owner (proto.key req) (some client)) HungUp (log ++ [.accepted req])
      (proto.key req ::ₘ live) (router.route (proto.key req) client) := by
  apply h.change (assigns_update hkey hclient)
  · refine ⟨fun _ _ => tokensFor_concat_of_token?_eq_none rfl, ?_, ?_, fun _ _ => rfl⟩
    · intro other hne
      simp [hne]
    · intro other hne
      exact AList.lookup_insert_ne hne
  · simp [Router.route]
  · simp
  · refine Or.inl ⟨Multiset.mem_cons_self _ _, ?_⟩
    rw [tokensFor_concat_of_token?_eq_none rfl, h.silent _ hkey]
    exact h.unsent client hclient

variable [DecidableEq Client]

theorem Streams.finish (h : Streams proto owner HungUp log live router)
    (hlookup : router.chans.lookup key = some client) (hnodup : live.Nodup) :
    Streams proto owner HungUp log (live.erase key) (router.finish key client) :=
  h.close hlookup hnodup rfl (fun _ hne => Router.sent_send_ne none hne)
    (Or.inl (Router.sent_send none))

theorem Streams.reject (h : Streams proto owner HungUp log live router)
    (hkey : owner key = none) (hclient : ∀ other, owner other ≠ some client) :
    Streams proto (update owner key (some client)) HungUp log live (router.send client none) := by
  have hlive := h.notMem_live hkey
  have hlookup : router.chans.lookup key = none := by
    rw [Option.eq_none_iff_forall_not_mem]
    intro other hother
    exact hlive ((h.routed key other).mp hother).1
  apply h.change (assigns_update hkey hclient)
  · exact ⟨fun _ _ => rfl, fun _ _ => Iff.rfl, fun _ _ => rfl,
      fun _ hne => Router.sent_send_ne none hne⟩
  · simp [Router.send, hlookup, hlive]
  · exact fun _ => hlookup
  · refine Or.inr ⟨hlive, Or.inl ?_⟩
    rw [Router.sent_send, h.unsent client hclient, h.silent key hkey]
    rfl

/-! ### Emitting and ending -/

/-- Send a token that is not the last. -/
theorem Streams.advance (h : Streams proto owner HungUp log live router)
    (hlookup : router.chans.lookup key = some client) (tok : Tok) :
    Streams proto owner HungUp (log ++ [.emitted key tok false]) live
      (router.send client (some tok)) := by
  obtain ⟨hlive, howner⟩ := (h.routed key client).mp hlookup
  apply h.change (h.assigns howner)
  · exact ⟨fun _ hne => tokensFor_concat_emitted_ne tok false hne, fun _ _ => Iff.rfl,
      fun _ _ => rfl, fun _ hne => Router.sent_send_ne _ hne⟩
  · simp [Router.send, hlookup, hlive]
  · exact fun hnot => absurd hlive hnot
  · refine Or.inl ⟨hlive, ?_⟩
    rcases h.carries key client howner with ⟨-, hsent⟩ | ⟨hnot, -⟩
    · rw [Router.sent_send, hsent, tokensFor_concat_emitted, List.map_append]
      rfl
    · exact absurd hlive hnot

variable {Picks : TokenService.Job Req Tok → Tok → Prop} {board board' : Board Req Tok}

theorem Streams.emit {tok : Tok} {done : Bool}
    (h : Streams proto owner HungUp log (board.map proto.jobKey) router)
    (hnodup : (board.map proto.jobKey).Nodup)
    (hstep : Step proto Picks board (.emitted key tok done) board') :
    Streams proto owner HungUp (log ++ [.emitted key tok done]) (board'.map proto.jobKey)
      (router.deliver key tok done) := by
  have hlive : key ∈ board.map proto.jobKey := by
    cases hstep with
    | finish job rest tok hboard => simp [hboard]
    | advance job rest tok hboard => simp [hboard]
  obtain ⟨client, howner⟩ := Option.ne_none_iff_exists'.mp (h.owned key hlive)
  have hlookup := (h.routed key client).mpr ⟨hlive, howner⟩
  have hadvance := h.advance hlookup tok
  rw [hstep.liveAfter]
  simp only [Router.deliver, hlookup]
  cases done with
  | false => exact hadvance
  | true =>
    have hfinish := hadvance.finish hlookup hnodup
    apply hfinish.relog
    intro other
    by_cases hother : other = key
    · rw [hother, tokensFor_concat_emitted, tokensFor_concat_emitted]
    · rw [tokensFor_concat_emitted_ne tok true hother, tokensFor_concat_emitted_ne tok false hother]

theorem Streams.deliverAll {events : List (Key × Tok × Bool)}
    (h : Streams proto owner HungUp log (board.map proto.jobKey) router)
    (hnodup : (board.map proto.jobKey).Nodup)
    (hrun : Run proto Picks board
      (events.map fun event => .emitted event.1 event.2.1 event.2.2) board') :
    Streams proto owner HungUp
      (log ++ events.map fun event => .emitted event.1 event.2.1 event.2.2)
      (board'.map proto.jobKey) (router.deliverAll events) := by
  induction events generalizing log board router with
  | nil =>
    cases hrun with
    | refl => simpa [Router.deliverAll] using h
  | cons event events ih =>
    cases hrun with
    | cons hstep hrun =>
      have hrest := ih (h.emit hnodup hstep) (hstep.nodup hnodup) hrun
      rw [List.append_assoc] at hrest
      exact hrest

omit [DecidableEq Key] in
theorem exists_cancel (hkey : key ∈ board.map proto.jobKey) :
    ∃ board', Step proto Picks board (.cancelled key) board' := by
  obtain ⟨job, hjob, rfl⟩ := Multiset.mem_map.mp hkey
  obtain ⟨rest, hboard⟩ := Multiset.exists_cons_of_mem hjob
  exact ⟨rest, .cancel job rest hboard⟩

variable (Picks) in
/-- Every request whose channel is drained is cancelled. -/
theorem Streams.drain {entries : List (Sigma fun _ : Key => Client)}
    (h : Streams proto owner HungUp log (board.map proto.jobKey) router)
    (hnodup : (board.map proto.jobKey).Nodup) (hkeys : (entries.map Sigma.fst).Nodup)
    (hentries : ∀ entry ∈ entries, router.chans.lookup entry.1 = some entry.2) :
    ∃ board', Run proto Picks board (entries.map fun entry => .cancelled entry.1) board' ∧
      Streams proto owner HungUp (log ++ entries.map fun entry => .cancelled entry.1)
        (board'.map proto.jobKey) (router.drain entries) ∧
      ∀ key ∈ board'.map proto.jobKey, key ∈ board.map proto.jobKey ∧ key ∉ entries.map Sigma.fst := by
  induction entries generalizing log board router with
  | nil => exact ⟨board, .refl board, by simpa [Router.drain] using h, by simp⟩
  | cons entry entries ih =>
    have hlookup := hentries entry List.mem_cons_self
    obtain ⟨hlive, -⟩ := (h.routed entry.1 entry.2).mp hlookup
    obtain ⟨next, hstep⟩ : ∃ next, Step proto Picks board (.cancelled entry.1) next :=
      exists_cancel hlive
    have hnext : next.map proto.jobKey = (board.map proto.jobKey).erase entry.1 := hstep.liveAfter
    obtain ⟨hhead, htail⟩ := List.nodup_cons.mp hkeys
    have hfinish : Streams proto owner HungUp (log ++ [.cancelled entry.1]) (next.map proto.jobKey)
        (router.finish entry.1 entry.2) := by
      rw [hnext]
      exact (h.finish hlookup hnodup).relog fun _ => tokensFor_concat_of_token?_eq_none rfl
    obtain ⟨board', hrun, hstreams, hgone⟩ := ih hfinish (hstep.nodup hnodup) htail (by
      intro other hother
      have hne : other.1 ≠ entry.1 := by
        intro heq
        exact hhead (heq ▸ List.mem_map_of_mem hother)
      exact (Router.lookup_forget_ne hne).trans (hentries other (List.mem_cons_of_mem _ hother)))
    refine ⟨board', .cons hstep hrun, ?_, ?_⟩
    · rw [List.append_assoc] at hstreams
      exact hstreams
    · intro key hkey
      obtain ⟨hmem, hnot⟩ := hgone key hkey
      rw [hnext] at hmem
      have hne : key ≠ entry.1 := by
        rintro rfl
        exact hnodup.notMem_erase hmem
      exact ⟨Multiset.mem_of_mem_erase hmem, by simp [hne, hnot]⟩

end

end Zllm.Delivery
