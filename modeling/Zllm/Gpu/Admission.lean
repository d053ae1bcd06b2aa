import Zllm.Gpu.PrefillPhase

/-!
# Admission and cancellation

The calls a client makes: a request is accepted and put on the board, at once decoded to its first
token by `admit_params`, or taken off it again by `cancel`.
-/

namespace Zllm.Gpu

open Function (update update_of_ne update_self)
open Outcome ContinuousBatcher
open TokenService (Job Run)

variable {M B L : Type} {dev : Device M B L} {mem : KvMemory dev} {cb cb' : ContinuousBatcher M B}
  {kv : Nat → SlotKv} {Allowed : RequestJob → Kernel → Prop}

theorem perm_cons_eraseP {α : Type} {p : α → Bool} {xs : List α} {x : α}
    (hfind : xs.find? p = some x) : xs.Perm (x :: xs.eraseP p) := by
  obtain ⟨hx, front, back, rfl, hfront⟩ := List.find?_eq_some_iff_append.mp hfind
  rw [List.eraseP_append_right _ (by simpa using hfront), List.eraseP_cons_of_pos hx]
  exact List.perm_middle

theorem cancel_spec {id : Nat} {found : Bool} (h : Serving mem 0 cb kv)
    (hok : cb.cancel id = (found, cb')) :
    Serves mem Allowed cb (if found then [.cancelled id] else []) cb' := by
  have hcancel : ∀ {job : RequestJob} {rest : TokenService.Board Request Token},
      cb.board = job ::ₘ rest → job.req.id = id →
      Run requestProtocol (Picks mem Allowed) cb.board [.cancelled id] rest := by
    rintro job rest hboard rfl
    exact .single (.cancel job rest hboard)
  unfold cancel at hok
  split at hok
  case h_1 s hfind =>
    obtain ⟨rfl, rfl⟩ := by simpa using hok
    have hperm := perm_cons_eraseP hfind
    have hid : s.id = id := by simpa using List.find?_some hfind
    exact ⟨(h.takeActive hperm).release, hcancel (board_active hperm) hid, rfl⟩
  case h_2 =>
    split at hok
    case h_1 pf hfind =>
      obtain ⟨rfl, rfl⟩ := by simpa using hok
      have hperm := perm_cons_eraseP hfind
      have hid : pf.id = id := by simpa using List.find?_some hfind
      exact ⟨(h.takePrefilling hperm).release, hcancel (board_prefilling hperm) hid, rfl⟩
    case h_2 =>
      split at hok
      case h_1 p hfind =>
        obtain ⟨rfl, rfl⟩ := by simpa using hok
        have hperm := perm_cons_eraseP hfind
        have hid : p.id = id := by simpa using List.find?_some hfind
        exact ⟨⟨kv, h.takePreempted List.eraseP_subset⟩, hcancel (board_preempted hperm) hid, rfl⟩
      case h_2 =>
        obtain ⟨rfl, rfl⟩ := by simpa using hok
        exact serves_refl h

/-- `req` as it starts prefilling. -/
def Request.prefilling (req : Request) (slot cachedLen cachedBlocks : Nat) : PrefillingSeq where
  id := req.id
  slot := slot
  prompt := req.prompt
  promptLen := req.prompt.length
  prefillPos := cachedLen
  cachedBlocks := cachedBlocks
  maxTokens := req.maxTokens
  eos := req.eos
  params := req.params
  baseSeed := req.seed

theorem Request.job_prefilling (req : Request) (slot cachedLen cachedBlocks : Nat) :
    (req.prefilling slot cachedLen cachedBlocks).job = ⟨req, []⟩ := by
  simp [Request.prefilling, PrefillingSeq.job]

theorem enqueueParams_spec {req : Request} {accepted : Bool} (h : Serving mem 0 cb kv)
    (hfresh : req.id ∉ cb.ids) (hok : cb.enqueueParams dev req = (accepted, cb')) :
    Serves mem Allowed cb (if accepted then [.accepted req] else []) cb' := by
  unfold enqueueParams at hok
  split at hok
  case isTrue =>
    obtain ⟨rfl, rfl⟩ := by simpa using hok
    exact serves_refl h
  case isFalse hprompt =>
    simp only [not_or, not_lt] at hprompt
    split at hok
    case h_1 =>
      obtain ⟨rfl, rfl⟩ := by simpa using hok
      exact serves_refl h
    case h_2 slot free hfree =>
      split at hok
      case isFalse =>
        obtain ⟨rfl, rfl⟩ := by simpa using hok
        exact serves_refl h
      case isTrue =>
        have htaken := h.takeFree hfree
        obtain ⟨hempty, -⟩ := h.idle slot (by simp [hfree])
        cases hreuse : cb.dec.prefillPrefixReuse dev req.prompt slot with
        | mk lens reused =>
            obtain ⟨cachedLen, cachedBlocks⟩ := lens
            obtain ⟨rfl, rfl⟩ := by simpa [hreuse] using hok
            obtain ⟨hrep, hframe, hlen, hlt⟩ := prefillPrefixReuse_spec h.represents
              htaken.slot_lt hempty hprompt.1 hprompt.2 hreuse
            have hput := (htaken.work hrep hframe).putPrefilling
              (req.prefilling slot cachedLen cachedBlocks)
              ⟨rfl, hlt, by simp [Request.prefilling, hlen, hframe.cfg_eq]⟩
              (List.perm_append_singleton _ _)
            have hrun : Run requestProtocol (Picks mem Allowed) cb.board [.accepted req]
              (⟨req, []⟩ ::ₘ cb.board) := .single (.accept req (ne_of_notMem_ids hfresh))
            rw [← req.job_prefilling slot cachedLen cachedBlocks, ← board_concat_prefilling] at hrun
            exact ⟨⟨_, hput⟩, hrun, hframe.cfg_eq⟩

/-- What `admit_params` shows its caller: the first token of a request it accepts. -/
def admitEntries (req : Request) : Option (Token × Bool) → List LogEntry
  | some (g, done) => [.accepted req, .emitted req.id g done]
  | none => []

theorem admitParams_spec {req : Request} {outcome : Option (Token × Bool)}
    (h : Serving mem 0 cb kv) (hfresh : req.id ∉ cb.ids)
    (hallowed : Allowed ⟨req, []⟩ (firstKernel req.params))
    (hok : cb.admitParams dev req = .ok (outcome, cb')) :
    Serves mem Allowed cb (admitEntries req outcome) cb' := by
  unfold admitParams at hok
  split at hok
  case isFalse =>
    obtain ⟨rfl, rfl⟩ := by simpa using hok
    exact serves_refl h
  case isTrue =>
    split at hok
    case h_1 =>
      obtain ⟨rfl, rfl⟩ := by simpa using hok
      exact serves_refl h
    case h_2 slot free hfree =>
      have htaken := h.takeFree hfree
      obtain ⟨hempty, -⟩ := h.idle slot (by simp [hfree])
      obtain ⟨⟨⟨g, cachedLen⟩, prefilled⟩, hprefill, hok⟩ := bind_eq_ok.mp hok
      obtain ⟨⟨sealed, hrep⟩, hframe, -, -, logits, hread, hg⟩ :=
        prefillSlotCached_spec h.represents htaken.slot_lt hempty hprefill
      have hworked := htaken.work hrep hframe
      have hpick : Picks mem Allowed ⟨req, []⟩ g := by
        refine ⟨firstKernel req.params, logits, hallowed, by simpa [history] using hread, ?_⟩
        exact hg.trans (selectFirst_eq dev ⟨req, []⟩ logits)
      have hdone : (req.maxTokens ≤ 1 || g == req.eos : Bool) =
          requestProtocol.completes ⟨req, []⟩ g := by
        rw [TokenService.Protocol.completes, Bool.or_comm]
        rfl
      have hrun : Run requestProtocol (Picks mem Allowed) cb.board _ _ :=
        .cons (.accept req (ne_of_notMem_ids hfresh)) (run_pick cb.board hpick hdone)
      dsimp only at hok
      cases hfinish : (req.maxTokens ≤ 1 || g == req.eos : Bool) with
      | true =>
          simp only [hfinish, if_true] at hrun hok
          obtain ⟨rfl, rfl⟩ := by simpa using hok
          exact ⟨hworked.release, hrun, hframe.cfg_eq⟩
      | false =>
          simp only [hfinish, Bool.false_eq_true, if_false] at hrun hok
          obtain ⟨rfl, rfl⟩ := by simpa using hok
          have hjob : ((req.prefilling slot 0 0).started g).job = Job.push ⟨req, []⟩ g := by
            simp [Request.prefilling, PrefillingSeq.started, CbSeq.job, Job.push]
          have hput := hworked.putActive ((req.prefilling slot 0 0).started g)
            ⟨by simp [Request.prefilling, PrefillingSeq.started], by
              simp [Request.prefilling, PrefillingSeq.started]⟩ (List.perm_append_singleton _ _)
          rw [← hjob, ← board_concat] at hrun
          exact ⟨⟨_, hput⟩, hrun, hframe.cfg_eq⟩

end Zllm.Gpu
