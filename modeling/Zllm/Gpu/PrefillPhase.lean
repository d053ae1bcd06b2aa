import Zllm.Gpu.DecodePhase

/-!
# The prefill and reschedule phases

A prefill that completes and a preempted sequence that is resumed each produce one token, selected
from logits of the request's history.
-/

namespace Zllm.Gpu

open Function (update update_of_ne update_self)
open Outcome ContinuousBatcher
open TokenService (Run Step)

variable {M B L : Type} {dev : Device M B L} {mem : KvMemory dev} {cb cb' cb'' : ContinuousBatcher M B}
  {kv kv' : Nat → SlotKv} {dec dec' : BatchedDecoder M} {Allowed : RequestJob → Kernel → Prop}
  {events : List Event} {slot : Nat}

/-- The selection of the token after a prefill. -/
def firstKernel (params : SamplingParams) : Kernel :=
  if 0 < params.temp then .gumbel else .argmax

/-- The selection a request's own parameters ask for. -/
def ownKernel (params : SamplingParams) : Kernel :=
  if params.needsTopk then .topk else if 0 < params.temp then .gumbel else .argmax

theorem selectFirst_eq (dev : Device M B L) (job : RequestJob) (logits : L) :
    BatchedDecoder.selectFirst dev
      (firstSampling job.req.params job.req.seed job.produced.length) logits =
      (firstKernel job.req.params).select dev job logits := by
  unfold firstSampling firstKernel
  split <;> rfl

/-- One token for a job that is off the lists: the request ends, or waits with the token pushed. -/
theorem run_pick {job : RequestJob} {tok : Token} (rest : TokenService.Board Request Token)
    (hpick : Picks mem Allowed job tok) {done : Bool}
    (hdone : done = requestProtocol.completes job tok) :
    Run requestProtocol (Picks mem Allowed) (job ::ₘ rest)
      [Event.entry { id := job.req.id, tok, done }]
      (if done then rest else job.push tok ::ₘ rest) := by
  cases done with
  | true => exact .single (.finish job rest tok rfl hpick hdone.symm)
  | false => exact .single (.advance job rest tok rfl hpick hdone.symm)

theorem PrefillingSeq.Held.history_eq {cfg : PoolConfig} {pf : PrefillingSeq}
    (hheld : pf.Held cfg kv) : pf.job.req.prompt = pf.prompt ∧ pf.job.produced = [] := by
  simp [PrefillingSeq.job, hheld.promptLen_eq]

/-- `pf` as it becomes active with its first token. -/
def PrefillingSeq.started (pf : PrefillingSeq) (tok : Token) : CbSeq where
  id := pf.id
  slot := pf.slot
  tokens := pf.prompt ++ [tok]
  promptLen := pf.promptLen
  maxTokens := pf.maxTokens
  eos := pf.eos
  params := pf.params
  baseSeed := pf.baseSeed

theorem PrefillingSeq.Held.job_started {cfg : PoolConfig} {pf : PrefillingSeq}
    (hheld : pf.Held cfg kv) (tok : Token) : (pf.started tok).job = pf.job.push tok := by
  simp [PrefillingSeq.started, CbSeq.job, PrefillingSeq.job, TokenService.Job.push,
    hheld.promptLen_eq]

theorem advancePrefill_spec (h : Serving mem 0 cb kv)
    (hallowed : ∀ pf ∈ cb.prefilling, Allowed pf.job (firstKernel pf.params))
    (hok : cb.advancePrefill dev = .ok (events, cb')) :
    Serves mem Allowed cb (events.map Event.entry) cb' := by
  unfold advancePrefill at hok
  cases hfront : cb.prefilling with
  | nil =>
      obtain ⟨rfl, rfl⟩ := by simpa [hfront] using hok
      exact serves_refl h
  | cons front tail =>
      simp only [hfront] at hok
      obtain ⟨⟨fits, roomy⟩, hroom, hok⟩ := bind_eq_ok.mp hok
      have hevicts := makeChunkRoom_spec h hroom
      obtain ⟨kv₁, h₁⟩ := hevicts.serving
      cases fits with
      | false =>
          obtain ⟨rfl, rfl⟩ := by simpa using hok
          exact hevicts.serves
      | true =>
          obtain ⟨rest, hrest⟩ : ∃ rest, roomy.prefilling = front :: rest := by
            have := hevicts.front
            rw [hfront] at this
            exact List.head?_eq_some_iff.mp this
          simp only [hrest, Bool.not_true, Bool.false_eq_true, if_false] at hok
          obtain ⟨⟨⟨next, first⟩, chunked⟩, hchunk, hok⟩ := bind_eq_ok.mp hok
          have hmem : front ∈ roomy.prefilling := by simp [hrest]
          have hheld := h₁.prefilling front hmem
          have hperm : roomy.prefilling.Perm (front :: rest) := by rw [hrest]
          have htaken := h₁.takePrefilling hperm
          have hboard := board_prefilling hperm
          obtain ⟨hrep, hframe, -, -, hnone, hsome⟩ :=
            prefillChunk_spec h₁.represents htaken.slot_lt hheld.fed hchunk
          have hworked := htaken.work hrep hframe
          cases first with
          | none =>
              obtain ⟨rfl, rfl⟩ := by simpa using hok
              have hput := hworked.putPrefilling { front with prefillPos := next }
                ⟨hheld.promptLen_eq, hnone rfl, by rw [update_self, hframe.cfg_eq]⟩
                (List.Perm.refl _)
              have hsame : roomy.board = { roomy with
                  dec := chunked
                  prefilling := { front with prefillPos := next } :: rest }.board := by
                unfold ContinuousBatcher.board
                rw [hrest]
                rfl
              exact hevicts.serves.trans ⟨⟨_, hput⟩, hsame ▸ Run.refl _, hframe.cfg_eq⟩
          | some g =>
              obtain ⟨rfl, logits, hread, rfl⟩ := hsome g rfl
              obtain ⟨registered, hregister, hok⟩ := bind_eq_ok.mp hok
              obtain ⟨hrep', hframe'⟩ := prefillRegister_spec hrep (by
                rw [update_self, List.take_length, hframe.cfg_eq]) hregister
              rw [Function.update_idem] at hrep'
              have hworked' := htaken.work hrep' (hframe.trans hframe')
              obtain ⟨hprompt, hproduced⟩ := hheld.history_eq
              have hcfg : registered.cfg = roomy.dec.cfg := (hframe.trans hframe').cfg_eq
              set tok := BatchedDecoder.selectFirst dev
                (firstSampling front.params front.baseSeed 0) logits with htok
              have hpick : Picks mem Allowed front.job tok := by
                refine ⟨firstKernel front.params, logits, ?_, ?_, ?_⟩
                · exact hallowed front (by simp [hfront])
                · rwa [PrefillingSeq.history_job]
                · have := selectFirst_eq dev front.job logits
                  rwa [hproduced] at this
              have hdone : (front.maxTokens ≤ 1 || tok == front.eos : Bool) =
                  requestProtocol.completes front.job tok := by
                rw [TokenService.Protocol.completes, hproduced, Bool.or_comm]
                rfl
              have hrun := run_pick { roomy with prefilling := rest }.board hpick hdone
              rw [← hboard] at hrun
              cases hfinish : (front.maxTokens ≤ 1 || tok == front.eos : Bool) with
              | true =>
                  simp only [hfinish, if_true] at hrun hok
                  obtain ⟨rfl, rfl⟩ := by simpa using hok
                  exact hevicts.serves.trans ⟨hworked'.release, hrun, hcfg⟩
              | false =>
                  simp only [hfinish, Bool.false_eq_true, if_false] at hrun hok
                  obtain ⟨rfl, rfl⟩ := by simpa using hok
                  have hput := hworked'.putActive (front.started tok)
                    ⟨by simp [PrefillingSeq.started, hheld.promptLen_eq], by
                      simp [PrefillingSeq.started]⟩ (List.perm_append_singleton _ _)
                  rw [← hheld.job_started, ← board_concat] at hrun
                  exact hevicts.serves.trans ⟨⟨_, hput⟩, hrun, hcfg⟩

/-! ### Rescheduling -/

/-- The selection of the token after a resumption. -/
def resumeKernel (p : PreemptedSeq B) : Kernel :=
  match p.kv with
  | some _ => ownKernel p.params
  | none => firstKernel p.params

/-- `p` as it becomes active again in `slot`. -/
def PreemptedSeq.resumed (p : PreemptedSeq B) (slot : Nat) : CbSeq where
  id := p.id
  slot := slot
  tokens := p.tokens
  promptLen := p.promptLen
  maxTokens := p.maxTokens
  eos := p.eos
  params := p.params
  baseSeed := p.baseSeed

theorem canFit_mono {n m : Nat} (hfits : dec.canFit n = true) (hle : m ≤ n) :
    dec.canFit m = true := by
  unfold BatchedDecoder.canFit BlockState.canFit at hfits ⊢
  simp only [decide_eq_true_eq] at hfits ⊢
  refine le_trans ?_ hfits
  rw [ceilDiv_le_iff_le_mul dec.cfg.blockSize_pos]
  exact hle.trans (le_smul_ceilDiv dec.cfg.blockSize_pos)

theorem decodeOne_spec {tok g : Token} (job : RequestJob)
    (hrep : Represents mem dec kv) (hslot : slot < dec.cfg.mMax)
    (hok : decodeOne dev { tok, pos := (kv slot).tokens.length, slot } job.req.params
      (stepSeed job.req.seed job.produced.length) dec = .ok (g, dec')) :
    Represents mem dec' (update kv slot ⟨(kv slot).tokens ++ [tok], (kv slot).sealed⟩) ∧
      Frames [slot] dec dec' ∧ ∃ logits, mem.Reads ((kv slot).tokens ++ [tok]) logits ∧
        g = (ownKernel job.req.params).select dev job logits := by
  have hforward : ∃ logits, dec.forwardLogits dev
      [{ tok, pos := (kv slot).tokens.length, slot }] = .ok (logits, dec') ∧
      logits.head?.map (fun l => (ownKernel job.req.params).select dev job l) = some g := by
    unfold decodeOne at hok
    unfold ownKernel
    split at hok
    case isTrue htopk =>
      obtain ⟨⟨nexts, stepped⟩, hstep, hok⟩ := bind_eq_ok.mp hok
      obtain ⟨u, -, hstep⟩ := bind_eq_ok.mp hstep
      obtain ⟨⟨logits, forwarded⟩, hforward, hstep⟩ := bind_eq_ok.mp hstep
      obtain ⟨rfl, rfl⟩ := by simpa using hstep
      cases logits with
      | nil => cases hok
      | cons l logits =>
          obtain ⟨rfl, rfl⟩ := by simpa using hok
          exact ⟨l :: logits, hforward, by simp [htopk, Kernel.select]⟩
    case isFalse htopk =>
      split at hok
      case isTrue htemp =>
        obtain ⟨⟨nexts, stepped⟩, hstep, hok⟩ := bind_eq_ok.mp hok
        obtain ⟨u, -, hstep⟩ := bind_eq_ok.mp hstep
        obtain ⟨⟨logits, forwarded⟩, hforward, hstep⟩ := bind_eq_ok.mp hstep
        obtain ⟨rfl, rfl⟩ := by simpa using hstep
        cases logits with
        | nil => cases hok
        | cons l logits =>
            obtain ⟨rfl, rfl⟩ := by simpa using hok
            exact ⟨l :: logits, hforward, by simp [htopk, htemp, Kernel.select]⟩
      case isFalse htemp =>
        obtain ⟨⟨nexts, stepped⟩, hstep, hok⟩ := bind_eq_ok.mp hok
        obtain ⟨u, -, hstep⟩ := bind_eq_ok.mp hstep
        obtain ⟨⟨logits, forwarded⟩, hforward, hstep⟩ := bind_eq_ok.mp hstep
        obtain ⟨rfl, rfl⟩ := by simpa using hstep
        cases logits with
        | nil => cases hok
        | cons l logits =>
            obtain ⟨rfl, rfl⟩ := by simpa using hok
            exact ⟨l :: logits, hforward, by simp [htopk, htemp, Kernel.select]⟩
  obtain ⟨logits, hforward, hg⟩ := hforward
  have hstep : InStep dec.cfg (slotRows slot (kv slot).tokens.length [tok]) kv :=
    inStep_slotRows hslot [tok] kv
  obtain ⟨hrep', hreads, hframe⟩ := forwardLogits_spec hrep hstep hforward
  rw [appendRows_slotRows] at hrep'
  rw [ownPrefixes_slotRows] at hreads
  obtain ⟨l, rfl⟩ : ∃ l, logits = [l] :=
    List.length_eq_one_iff.mp (by simpa using hreads.length_eq.symm)
  have hread : mem.Reads ((kv slot).tokens ++ [tok]) l := by simpa using hreads
  exact ⟨hrep', hframe, l, hread, by simpa using hg.symm⟩

theorem resumeSeq_spec {p : PreemptedSeq B} {g : Token} (hrep : Represents mem dec kv)
    (hslot : slot < dec.cfg.mMax) (hempty : dec.blocks.slotBlocks slot = [])
    (hkv : kv slot = SlotKv.empty) (hkept : p.Kept mem dec.cfg)
    (hfits : dec.canFit p.tokens.length = true)
    (hok : resumeSeq dev p slot dec = .ok (g, dec')) :
    (∃ sealed, Represents mem dec' (update kv slot ⟨p.tokens, sealed⟩)) ∧ Frames [slot] dec dec' ∧
      ∃ logits, mem.Reads p.tokens logits ∧ g = (resumeKernel p).select dev p.job logits := by
  have hcount : p.job.produced.length = p.tokens.length - p.promptLen := List.length_drop
  unfold resumeSeq at hok
  dsimp only at hok
  cases hsaved : p.kv with
  | some host =>
      simp only [hsaved] at hok
      obtain ⟨hlen, hmax, hpos, hnb, hhost⟩ := hkept.saved host hsaved
      obtain ⟨⟨restored, swapped⟩, hswap, hok⟩ := bind_eq_ok.mp hok
      have hfits' := canFit_mono hfits (p.tokens.length_dropLast.le.trans (Nat.sub_le _ _))
      obtain ⟨hrep', hframe⟩ := swapIn_spec hrep hslot hkv hhost
        (by rw [hpos, List.length_dropLast]) hnb (by rw [List.length_dropLast]; omega) hfits' hswap
      have hne : p.tokens ≠ [] := List.length_pos_iff.mp (by omega)
      have hlast : p.tokens.dropLast ++ [p.tokens.getLastD 0] = p.tokens := by
        rw [List.getLastD_eq_getLast?, List.getLast?_eq_some_getLast hne]
        exact List.dropLast_append_getLast hne
      have hrow : p.tokens.length - 1 =
          (update kv slot ⟨p.tokens.dropLast, 0⟩ slot).tokens.length := by
        rw [update_self, List.length_dropLast]
      rw [hrow, ← hcount] at hok
      obtain ⟨hrep'', hframe', logits, hread, hg⟩ :=
        decodeOne_spec p.job hrep' (by rwa [hframe.cfg_eq]) hok
      rw [update_self, hlast] at hread
      rw [update_self, Function.update_idem, hlast] at hrep''
      exact ⟨⟨_, hrep''⟩, hframe.trans hframe', logits, hread, by rwa [resumeKernel, hsaved]⟩
  | none =>
      simp only [hsaved] at hok
      obtain ⟨⟨⟨first, cachedLen⟩, prefilled⟩, hprefill, hok⟩ := bind_eq_ok.mp hok
      obtain ⟨rfl, rfl⟩ := by simpa using hok
      obtain ⟨hrep', hframe, -, -, logits, hread, hg⟩ :=
        prefillSlotCached_spec hrep hslot hempty hprefill
      refine ⟨hrep', hframe, logits, hread, ?_⟩
      rw [← hcount] at hg
      rw [hg, resumeKernel, hsaved]
      exact selectFirst_eq dev p.job logits

theorem PreemptedSeq.Kept.length_lt {cfg : PoolConfig} {p : PreemptedSeq B}
    (hkept : p.Kept mem cfg) (hkv : p.kv ≠ none) : p.promptLen < p.tokens.length := by
  obtain ⟨host, hhost⟩ := Option.ne_none_iff_exists'.mp hkv
  exact (hkept.saved host hhost).1

/-- The batcher after `p` has been resumed in `slot` with `tok`: it joins the batch, or is done and
leaves. -/
def rejoin (cb : ContinuousBatcher M B) (p : PreemptedSeq B) (slot : Nat) (tok : Token)
    (preempted : List (PreemptedSeq B)) (free : List Nat) (dec : BatchedDecoder M) :
    ContinuousBatcher M B :=
  if ((p.resumed slot).push tok).done then
    { cb with dec := dec.freeSlot slot, preempted, free := slot :: free }
  else
    { cb with dec, preempted, free, active := cb.active ++ [(p.resumed slot).push tok] }

theorem preempted_rejoin {p : PreemptedSeq B} {tok : Token} {preempted : List (PreemptedSeq B)}
    {free : List Nat} : (rejoin cb p slot tok preempted free dec).preempted = preempted := by
  unfold rejoin
  split <;> rfl

theorem rejoin_spec {p : PreemptedSeq B} {g : Token} {preempted : List (PreemptedSeq B)}
    {free : List Nat} (h : Serving mem 0 cb kv) (hpreempted : cb.preempted = p :: preempted)
    (hfree : cb.free = slot :: free)
    (hallowed : (p.kv ≠ none → p.promptLen < p.tokens.length) → Allowed p.job (resumeKernel p))
    (hfits : cb.dec.canFit p.tokens.length = true)
    (hresume : resumeSeq dev p slot cb.dec = .ok (g, dec)) :
    Serves mem Allowed cb [(eventOf ((p.resumed slot).push g)).entry]
      (rejoin cb p slot g preempted free dec) := by
  have hperm : cb.preempted.Perm (p :: preempted) := by rw [hpreempted]
  have hkept := h.preempted p (by simp [hpreempted])
  have htaken := h.takeFree hfree
  obtain ⟨hempty, hkv⟩ := h.idle slot (by simp [hfree])
  obtain ⟨⟨sealed, hrep⟩, hframe, logits, hread, hg⟩ :=
    resumeSeq_spec h.represents htaken.slot_lt hempty hkv hkept hfits hresume
  have hworked := (htaken.work hrep hframe).takePreempted
    (hpreempted ▸ List.subset_cons_self p preempted)
  have hpick : Picks mem Allowed p.job g :=
    ⟨resumeKernel p, logits, hallowed hkept.length_lt, by rwa [PreemptedSeq.history_job], hg⟩
  have hdone := CbSeq.done_push (s := p.resumed slot) hkept.promptLen_le g
  have hrun := run_pick { cb with preempted }.board hpick hdone
  have hentry : (eventOf ((p.resumed slot).push g)).entry = Event.entry
      { id := p.job.req.id, tok := g, done := ((p.resumed slot).push g).done } := by
    simp [eventOf, CbSeq.push, CbSeq.next, PreemptedSeq.resumed, PreemptedSeq.job]
  rw [← hentry, ← board_preempted hperm] at hrun
  cases hfinish : ((p.resumed slot).push g).done with
  | true =>
      simp only [rejoin, hfinish, if_true] at hrun ⊢
      exact ⟨hworked.release, hrun, hframe.cfg_eq⟩
  | false =>
      simp only [rejoin, hfinish, Bool.false_eq_true, if_false] at hrun ⊢
      have hlen := hkept.promptLen_le
      have hput := hworked.putActive ((p.resumed slot).push g)
        ⟨by simp [CbSeq.push, PreemptedSeq.resumed]; omega, by
          simp [CbSeq.push, PreemptedSeq.resumed]⟩ (List.perm_append_singleton _ _)
      have hjob : ((p.resumed slot).push g).job = p.job.push g := CbSeq.job_push hlen g
      rw [← hjob, ← board_concat] at hrun
      exact ⟨⟨_, hput⟩, hrun, hframe.cfg_eq⟩

theorem rescheduleLoop_succ {p : PreemptedSeq B} {preempted : List (PreemptedSeq B)}
    {free : List Nat} (fuel : Nat) (hpreempted : cb.preempted = p :: preempted)
    (hfree : cb.free = slot :: free) (hfits : cb.dec.canFit p.tokens.length = true) :
    rescheduleLoop dev (fuel + 1) cb = (do
      let (g, dec) ← resumeSeq dev p slot cb.dec
      let (events, cb) ← rescheduleLoop dev fuel (rejoin cb p slot g preempted free dec)
      return (eventOf ((p.resumed slot).push g) :: events, cb)) := by
  rw [rescheduleLoop]
  simp only [hpreempted, hfree, hfits, if_true]
  rfl

theorem rescheduleLoop_spec {fuel : Nat} (h : Serving mem 0 cb kv)
    (hallowed : ∀ p ∈ cb.preempted.take events.length,
      (p.kv ≠ none → p.promptLen < p.tokens.length) → Allowed p.job (resumeKernel p))
    (hok : rescheduleLoop dev fuel cb = .ok (events, cb')) :
    Serves mem Allowed cb (events.map Event.entry) cb' := by
  induction fuel generalizing cb kv events with
  | zero =>
      obtain ⟨rfl, rfl⟩ := by simpa [rescheduleLoop] using hok
      exact serves_refl h
  | succ fuel ih =>
      have hloop := hok
      rw [rescheduleLoop] at hok
      split at hok
      case h_2 =>
        obtain ⟨rfl, rfl⟩ := by simpa using hok
        exact serves_refl h
      case h_1 p preempted slot free hpreempted hfree =>
        split at hok
        case isFalse =>
          obtain ⟨rfl, rfl⟩ := by simpa using hok
          exact serves_refl h
        case isTrue hfits =>
          rw [rescheduleLoop_succ fuel hpreempted hfree hfits] at hloop
          obtain ⟨⟨g, resumed⟩, hresume, hloop⟩ := bind_eq_ok.mp hloop
          obtain ⟨⟨more, last⟩, hmore, hloop⟩ := bind_eq_ok.mp hloop
          obtain ⟨rfl, rfl⟩ := by simpa using hloop
          simp only [hpreempted, List.length_cons, List.take_succ_cons, List.mem_cons,
            forall_eq_or_imp] at hallowed
          have hserves := rejoin_spec h hpreempted hfree hallowed.1 hfits hresume
          obtain ⟨kv', h'⟩ := hserves.serving
          exact hserves.trans (ih h' (by rw [preempted_rejoin]; exact hallowed.2) hmore)

theorem reschedule_spec (h : Serving mem 0 cb kv)
    (hallowed : ∀ p ∈ cb.preempted.take events.length,
      (p.kv ≠ none → p.promptLen < p.tokens.length) → Allowed p.job (resumeKernel p))
    (hok : cb.reschedule dev = .ok (events, cb')) :
    Serves mem Allowed cb (events.map Event.entry) cb' :=
  rescheduleLoop_spec h hallowed hok

end Zllm.Gpu
