import Zllm.Gpu.Serving

/-!
# Preemption

Evicting a sequence changes where it waits and nothing its client can see: the board stays as it is,
and the front prefill keeps its turn.
-/

namespace Zllm.Gpu

open Function (update update_of_ne update_self)
open Outcome ContinuousBatcher

variable {M B L : Type} {dev : Device M B L} {mem : KvMemory dev} {cb cb' cb'' : ContinuousBatcher M B}
  {kv : Nat → SlotKv}

/-- `cb'` is `cb` with some sequences evicted. -/
structure Evicts (mem : KvMemory dev) (cb cb' : ContinuousBatcher M B) : Prop where
  serving : ∃ kv, Serving mem 0 cb' kv
  board_eq : cb'.board = cb.board
  cfg_eq : cb'.dec.cfg = cb.dec.cfg
  active_initial : cb'.active <+: cb.active
  prefilling_initial : cb'.prefilling <+: cb.prefilling
  front : cb'.prefilling.head? = cb.prefilling.head?

theorem evicts_refl (h : Serving mem 0 cb kv) : Evicts mem cb cb :=
  ⟨⟨kv, h⟩, rfl, rfl, List.prefix_rfl, List.prefix_rfl, rfl⟩

theorem Evicts.trans (hfirst : Evicts mem cb cb') (hsecond : Evicts mem cb' cb'') :
    Evicts mem cb cb'' where
  serving := hsecond.serving
  board_eq := hsecond.board_eq.trans hfirst.board_eq
  cfg_eq := hsecond.cfg_eq.trans hfirst.cfg_eq
  active_initial := hsecond.active_initial.trans hfirst.active_initial
  prefilling_initial := hsecond.prefilling_initial.trans hfirst.prefilling_initial
  front := hsecond.front.trans hfirst.front

theorem perm_dropLast {α : Type} {xs : List α} {x : α} (hlast : xs.getLast? = some x) :
    xs.Perm (x :: xs.dropLast) := by
  obtain ⟨front, rfl⟩ := List.getLast?_eq_some_iff.mp hlast
  rw [List.dropLast_concat]
  exact List.perm_append_singleton _ _

/-- `s` as it waits in `preempted`. -/
def CbSeq.evicted (s : CbSeq) (kv : Option (HostKv B)) : PreemptedSeq B where
  id := s.id
  tokens := s.tokens
  promptLen := s.promptLen
  maxTokens := s.maxTokens
  eos := s.eos
  params := s.params
  baseSeed := s.baseSeed
  kv := kv

/-- The victim's place in `preempted`, and its slot back on the free stack. -/
theorem Serving.evict {slot : Nat} {p : PreemptedSeq B} {preemptions : Nat}
    (h : Serving mem {slot} cb kv) (hkept : p.Kept mem cb.dec.cfg) :
    ∃ kv', Serving mem 0
      { cb with
        dec := cb.dec.freeSlot slot, free := slot :: cb.free, preemptions
        preempted := cb.preempted ++ [p] } kv' := by
  have hheld : Serving mem (slot ::ₘ 0) cb kv := h
  obtain ⟨kv', hreleased⟩ := hheld.release
  have hput := hreleased.putPreempted hkept (List.perm_append_singleton _ _)
  exact ⟨kv', hput.represents, hput.slots, hput.idle, hput.active, hput.prefilling,
    hput.preempted⟩

theorem preemptLastActive_spec {preempted : Bool} (h : Serving mem 0 cb kv)
    (hok : cb.preemptLastActive dev = .ok (preempted, cb')) : Evicts mem cb cb' := by
  unfold preemptLastActive at hok
  cases hlast : cb.active.getLast? with
  | none =>
      obtain ⟨rfl, rfl⟩ := by simpa [hlast] using hok
      exact evicts_refl h
  | some victim =>
      have hperm := perm_dropLast hlast
      have hheld := h.active victim (hperm.mem_iff.mpr List.mem_cons_self)
      have htaken := h.takeActive hperm
      -- however its KV is kept, the victim waits with its job and its slot is free
      have hevict : ∀ saved, (victim.evicted saved).Kept mem cb.dec.cfg →
          Evicts mem cb { cb with
            dec := cb.dec.freeSlot victim.slot, active := cb.active.dropLast
            preemptions := cb.preemptions + 1, free := victim.slot :: cb.free
            preempted := cb.preempted ++ [victim.evicted saved] } := fun saved hkept => by
        refine ⟨htaken.evict hkept, ?_, rfl, List.dropLast_prefix _, List.prefix_rfl, rfl⟩
        rw [board_active hperm, board_preempted (List.perm_append_singleton _ _)]
        rfl
      simp only [hlast] at hok
      split at hok
      case isTrue =>
        obtain ⟨⟨host, freed⟩, hswap, hok⟩ := bind_eq_ok.mp hok
        have hfed : (kv victim.slot).tokens.length = victim.tokens.length - 1 := by
          rw [hheld.fed, List.length_dropLast]
        obtain ⟨rfl, hpos, hnb, hsaved⟩ := swapOut_spec h.represents hfed.ge hswap
        have hmax := h.represents.resident.length_le victim.slot
        rw [← hfed, List.take_length, hheld.fed] at hsaved
        obtain ⟨rfl, rfl⟩ := by simpa using hok
        refine hevict (some host) ⟨hheld.produced.le, fun other hother => ?_⟩
        obtain rfl := by simpa [CbSeq.evicted] using hother
        exact ⟨hheld.produced, by simp only [CbSeq.evicted]; omega, hpos, by rw [hnb, hpos], hsaved⟩
      case isFalse =>
        obtain ⟨rfl, rfl⟩ := by simpa using hok
        exact hevict none ⟨hheld.produced.le, by simp [CbSeq.evicted]⟩

theorem preemptLastPrefill_spec {preempted : Bool} (h : Serving mem 0 cb kv)
    (hok : cb.preemptLastPrefill = (preempted, cb')) : Evicts mem cb cb' := by
  unfold preemptLastPrefill at hok
  split at hok
  case isTrue =>
    obtain ⟨rfl, rfl⟩ := by simpa using hok
    exact evicts_refl h
  case isFalse hlen =>
    cases hlast : cb.prefilling.getLast? with
    | none =>
        obtain ⟨rfl, rfl⟩ := by simpa [hlast] using hok
        exact evicts_refl h
    | some pf =>
        have hperm := perm_dropLast hlast
        have hheld := h.prefilling pf (hperm.mem_iff.mpr List.mem_cons_self)
        obtain ⟨rfl, rfl⟩ := by simpa [hlast] using hok
        refine ⟨(h.takePrefilling hperm).evict ⟨hheld.promptLen_eq.le, by simp⟩, ?_, rfl,
          List.prefix_rfl, List.dropLast_prefix _, ?_⟩
        · rw [board_prefilling hperm, board_preempted (List.perm_append_singleton _ _)]
          rfl
        · rw [List.head?_dropLast, if_pos (by omega)]

theorem makeRoomLoop_spec {fuel : Nat} (h : Serving mem 0 cb kv)
    (hok : makeRoomLoop dev fuel cb = .ok cb') : Evicts mem cb cb' := by
  induction fuel generalizing cb kv with
  | zero =>
      obtain rfl := by simpa [makeRoomLoop] using hok
      exact evicts_refl h
  | succ fuel ih =>
      rw [makeRoomLoop] at hok
      split at hok
      case isTrue =>
        obtain ⟨⟨preempted, evicted⟩, hpreempt, hok⟩ := bind_eq_ok.mp hok
        have hevicts := preemptLastActive_spec h hpreempt
        obtain ⟨kv', h'⟩ := hevicts.serving
        exact hevicts.trans (ih h' hok)
      case isFalse =>
        obtain rfl := by simpa using hok
        exact evicts_refl h

theorem makeRoom_spec (h : Serving mem 0 cb kv) (hok : cb.makeRoom dev = .ok cb') :
    Evicts mem cb cb' :=
  makeRoomLoop_spec h hok

theorem makeChunkRoom_spec {slot chunkEnd fuel : Nat} {fits : Bool} (h : Serving mem 0 cb kv)
    (hok : makeChunkRoom dev slot chunkEnd fuel cb = .ok (fits, cb')) : Evicts mem cb cb' := by
  induction fuel generalizing cb kv with
  | zero =>
      obtain ⟨rfl, rfl⟩ := by simpa [makeChunkRoom] using hok
      exact evicts_refl h
  | succ fuel ih =>
      rw [makeChunkRoom] at hok
      split at hok
      case isFalse =>
        obtain ⟨rfl, rfl⟩ := by simpa using hok
        exact evicts_refl h
      case isTrue =>
        obtain ⟨⟨preempted, evicted⟩, hpreempt, hok⟩ := bind_eq_ok.mp hok
        have hevicts := preemptLastActive_spec h hpreempt
        obtain ⟨kv', h'⟩ := hevicts.serving
        cases preempted with
        | true => exact hevicts.trans (ih h' hok)
        | false =>
            cases hprefill : evicted.preemptLastPrefill with
            | mk preempted evicted' =>
                have hevicts' := preemptLastPrefill_spec h' hprefill
                obtain ⟨kv'', h''⟩ := hevicts'.serving
                simp only [hprefill] at hok
                cases preempted with
                | true => exact (hevicts.trans hevicts').trans (ih h'' hok)
                | false =>
                    obtain ⟨rfl, rfl⟩ := by simpa using hok
                    exact hevicts.trans hevicts'

end Zllm.Gpu
