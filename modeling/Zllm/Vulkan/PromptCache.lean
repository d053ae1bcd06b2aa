import Zllm.Vulkan.VkModel
import Mathlib.Logic.Relation

/-!
# The record of the resident prompt

`prefill_cached` reuses the resident rows of the prefix that its prompt shares with `prompt_cache`.
The blocking lane keeps that record in step with the rows it writes; the streaming lane writes rows
and leaves the record alone.
-/

namespace Zllm.Vulkan

open Function (update update_of_ne update_self)
open Outcome

variable {V L : Type}

/-- `row` is the K/V of the last of `tokens` behind the others, as one of the two kernels computes
it over the K/V of those. -/
inductive VkKernels.KvOf (k : VkKernels V L) : List Token → V → Prop where
  | step (ctx : List Token) (token : Token) (below : List V) (hlen : below.length = ctx.length)
      (hbelow : ∀ i row, below[i]? = some row → k.KvOf (ctx.take (i + 1)) row) :
      k.KvOf (ctx ++ [token]) (k.step below token).1
  | tile (ctx : List Token) (token : Token) (below : List V) (hlen : below.length = ctx.length)
      (hbelow : ∀ i row, below[i]? = some row → k.KvOf (ctx.take (i + 1)) row) :
      k.KvOf (ctx ++ [token]) (k.tile below token).1

namespace VkModel

variable {k : VkKernels V L} {model model' model'' : VkModel V} {tokens ctx fed : List Token}

/-- The rows from position 0 hold the K/V of `tokens`. -/
def Resident (k : VkKernels V L) (tokens : List Token) (model : VkModel V) : Prop :=
  ∀ i < tokens.length, k.KvOf (tokens.take (i + 1)) (model.kv i)

/-- The record names only tokens whose K/V is resident at their positions. -/
def Honest (k : VkKernels V L) (model : VkModel V) : Prop := model.Resident k model.promptCache

theorem Resident.of_initial (hinitial : ctx <+: tokens) (hres : model.Resident k tokens) :
    model.Resident k ctx := by
  intro i hi
  have hle := hinitial.length_le
  have htake : ctx.take (i + 1) = tokens.take (i + 1) := by
    rw [List.prefix_iff_eq_take.mp hinitial, List.take_take]
    congr 1
    omega
  rw [htake]
  exact hres i (by omega)

/-- What a call that forwards `fed` behind `ctx` does to the cache: the fed tokens become resident
behind whatever was, padding rows follow them up to `reach`, and the rows from there on stay. -/
structure Writes (k : VkKernels V L) (ctx fed : List Token) (reach : Nat)
    (model model' : VkModel V) : Prop where
  promptCache_eq : model'.promptCache = model.promptCache
  resident : model.Resident k ctx → model'.Resident k (ctx ++ fed)
  reach_ge : ctx.length + fed.length ≤ reach
  padding : ∀ i, ctx.length + fed.length ≤ i → i < reach → ∃ below, model'.kv i = k.padRow below
  frame : ∀ i, reach ≤ i → model'.kv i = model.kv i

theorem Writes.trans {fed' : List Token} {reach reach' : Nat}
    (hfirst : Writes k ctx fed reach model model')
    (hsecond : Writes k (ctx ++ fed) fed' reach' model' model'') :
    Writes k ctx (fed ++ fed') (max reach reach') model model'' := by
  have hge := hsecond.reach_ge
  simp only [List.length_append] at hge
  refine ⟨hsecond.promptCache_eq.trans hfirst.promptCache_eq, ?_, ?_, ?_, ?_⟩
  · intro hres
    rw [← List.append_assoc]
    exact hsecond.resident (hfirst.resident hres)
  · rw [List.length_append]
    omega
  · intro i hlo hhi
    rw [List.length_append] at hlo
    by_cases hlt : i < reach'
    · exact hsecond.padding i (by rw [List.length_append]; omega) hlt
    · rw [hsecond.frame i (by omega)]
      exact hfirst.padding i (by omega) (by omega)
  · intro i hi
    rw [hsecond.frame i (by omega), hfirst.frame i (by omega)]

theorem writes_refl (ctx : List Token) (model : VkModel V) :
    Writes k ctx [] ctx.length model model where
  promptCache_eq := rfl
  resident := by simp
  reach_ge := by simp
  padding := by
    intro i hlo hhi
    simp only [List.length_nil, Nat.add_zero] at hlo
    omega
  frame := fun _ _ => rfl

theorem getElem?_rows {pos i : Nat} {row : V} (hrow : (model.rows pos)[i]? = some row) :
    i < pos ∧ row = model.kv i := by
  obtain ⟨hlt, hget⟩ := List.getElem?_eq_some_iff.mp hrow
  simp only [rows, List.length_map, List.length_range] at hlt
  simp only [rows, List.getElem_map, List.getElem_range] at hget
  exact ⟨hlt, hget.symm⟩

theorem length_rows (model : VkModel V) (pos : Nat) : (model.rows pos).length = pos := by
  simp [rows]

/-- Rows below `ctx.length`, read back, are the K/V of the prefixes of `ctx`. -/
theorem Resident.rows (hres : model.Resident k ctx) (i : Nat) (row : V)
    (hrow : (model.rows ctx.length)[i]? = some row) : k.KvOf (ctx.take (i + 1)) row := by
  obtain ⟨hlt, rfl⟩ := getElem?_rows hrow
  exact hres i hlt

theorem writes_writeRow {token : Token} {row : V}
    (hrow : model.Resident k ctx → k.KvOf (ctx ++ [token]) row) :
    Writes k ctx [token] (ctx.length + 1) model (model.writeRow ctx.length row) where
  promptCache_eq := rfl
  resident := by
    intro hres i hi
    rw [List.length_append, List.length_singleton] at hi
    by_cases heq : i = ctx.length
    · subst heq
      rw [List.take_of_length_le (by simp)]
      simpa [writeRow] using hrow hres
    · rw [List.take_append_of_le_length (by omega)]
      simpa [writeRow, heq] using hres i (by omega)
  reach_ge := le_rfl
  padding := by
    intro i hlo hhi
    simp only [List.length_singleton] at hlo
    omega
  frame := by
    intro i hi
    have hne : i ≠ ctx.length := by omega
    simp [writeRow, hne]

theorem Writes.cons {token : Token} (hfirst : Writes k ctx [token] (ctx.length + 1) model model')
    (hrest : Writes k (ctx ++ [token]) tokens ((ctx ++ [token]).length + tokens.length)
      model' model'') :
    Writes k ctx (token :: tokens) (ctx.length + (token :: tokens).length) model model'' := by
  have hreach : ctx.length + (token :: tokens).length =
      max (ctx.length + 1) ((ctx ++ [token]).length + tokens.length) := by
    simp
    omega
  rw [hreach]
  exact hfirst.trans hrest

theorem forward_writes {token : Token} {logits : L}
    (hok : forward k token ctx.length model = .ok (logits, model')) :
    Writes k ctx [token] (ctx.length + 1) model model' := by
  unfold forward at hok
  split at hok
  · simp only [Except.ok.injEq, Prod.mk.injEq] at hok
    rw [← hok.2]
    exact writes_writeRow fun hres => .step ctx token _ (length_rows _ _) hres.rows
  · cases hok

theorem prefillStep_writes {token : Token}
    (hok : prefillStep k token ctx.length model = .ok model') :
    Writes k ctx [token] (ctx.length + 1) model model' := by
  obtain ⟨⟨logits, stepped⟩, hforward, hpure⟩ := bind_eq_ok.mp hok
  obtain rfl := pure_eq_ok.mp hpure
  exact forward_writes hforward

theorem forwardArgmax_writes {token next : Token}
    (hok : forwardArgmax k token ctx.length model = .ok (next, model')) :
    Writes k ctx [token] (ctx.length + 1) model model' := by
  obtain ⟨⟨logits, stepped⟩, hforward, hpure⟩ := bind_eq_ok.mp hok
  obtain ⟨-, rfl⟩ := Prod.mk.inj (pure_eq_ok.mp hpure)
  exact forward_writes hforward

theorem prefillSteps_writes :
    ∀ (tokens ctx : List Token) (model : VkModel V),
      prefillSteps k tokens ctx.length model = .ok model' →
      Writes k ctx tokens (ctx.length + tokens.length) model model'
  | [], ctx, model, hok => by
      obtain rfl : model = model' := by simpa [prefillSteps] using hok
      exact writes_refl ctx model
  | token :: tokens, ctx, model, hok => by
      obtain ⟨stepped, hstep, hrest⟩ := bind_eq_ok.mp hok
      have hfirst := prefillStep_writes hstep
      have hlen : ctx.length + 1 = (ctx ++ [token]).length := by simp
      rw [hlen] at hrest
      exact hfirst.cons (prefillSteps_writes tokens (ctx ++ [token]) stepped hrest)

/-! ### The batched prefill -/

theorem tileRows_writes :
    ∀ (tokens ctx : List Token) (logits : L) (model : VkModel V),
      Writes k ctx tokens (ctx.length + tokens.length) model
        (tileRows k tokens ctx.length logits model).2
  | [], ctx, _, model => writes_refl ctx model
  | token :: tokens, ctx, logits, model => by
      simp only [tileRows]
      have hfirst : Writes k ctx [token] (ctx.length + 1) model
          (model.writeRow ctx.length (k.tile (model.rows ctx.length) token).1) :=
        writes_writeRow fun hres => .tile ctx token _ (length_rows _ _) hres.rows
      have hlen : ctx.length + 1 = (ctx ++ [token]).length := by simp
      rw [hlen]
      exact hfirst.cons (tileRows_writes tokens (ctx ++ [token]) _ _)

theorem padRows_spec :
    ∀ (count pos : Nat) (model : VkModel V),
      (padRows k count pos model).promptCache = model.promptCache ∧
      (∀ i < pos, (padRows k count pos model).kv i = model.kv i) ∧
      (∀ i, pos ≤ i → i < pos + count → ∃ below, (padRows k count pos model).kv i = k.padRow below) ∧
      ∀ i, pos + count ≤ i → (padRows k count pos model).kv i = model.kv i
  | 0, _, _ => ⟨rfl, fun _ _ => rfl, by omega, fun _ _ => rfl⟩
  | count + 1, pos, model => by
      simp only [padRows]
      obtain ⟨hcache, hbelow, hpads, habove⟩ :=
        padRows_spec count (pos + 1) (model.writeRow pos (k.padRow (model.rows pos)))
      refine ⟨hcache, fun i hi => ?_, fun i hlo hhi => ?_, fun i hi => ?_⟩
      · have hne : i ≠ pos := by omega
        rw [hbelow i (by omega)]
        simp [writeRow, hne]
      · by_cases heq : i = pos
        · refine ⟨model.rows pos, ?_⟩
          rw [hbelow i (by omega)]
          simp [writeRow, heq]
        · exact hpads i (by omega) (by omega)
      · have hne : i ≠ pos := by omega
        rw [habove i (by omega)]
        simp [writeRow, hne]

theorem Writes.pad (count : Nat)
    (hfed : Writes k ctx fed (ctx.length + fed.length) model model') :
    Writes k ctx fed (ctx.length + fed.length + count) model
      (padRows k count (ctx.length + fed.length) model') := by
  obtain ⟨hcache, hbelow, hpads, habove⟩ :=
    padRows_spec (k := k) count (ctx.length + fed.length) model'
  refine ⟨hcache.trans hfed.promptCache_eq, ?_, by omega, hpads, fun i hi => ?_⟩
  · intro hres i hi
    rw [hbelow i (by simpa using hi)]
    exact hfed.resident hres i hi
  · rw [habove i hi, hfed.frame i (by omega)]

theorem prefillInner_writes {tokens : List Token} {logits : L} (hlen : tokens.length ≤ prefillMaxM)
    (hok : prefillInner k tokens ctx.length model = .ok (logits, model')) :
    Writes k ctx tokens (ctx.length + paddedM tokens.length) model model' := by
  have hpad := le_paddedM tokens.length
  rw [Nat.min_eq_left hlen] at hpad
  unfold prefillInner at hok
  simp only [Nat.min_eq_left hlen, List.take_length] at hok
  split at hok
  · simp only [Except.ok.injEq, Prod.mk.injEq] at hok
    rw [← hok.2]
    have htile := (tileRows_writes (k := k) tokens ctx k.noLogits model).pad
      (paddedM tokens.length - tokens.length)
    rwa [Nat.add_assoc, Nat.add_sub_cancel' hpad] at htile
  · cases hok

/-- Rows that a batched prefill of `len` tokens writes: the last tile is padded. -/
def paddedRows (len : Nat) : Nat := (len ⌈/⌉ padUnit) * padUnit

theorem paddedM_eq_paddedRows {len : Nat} (hlen : len ≤ prefillMaxM) :
    paddedM len = paddedRows len := by
  have hle : len ⌈/⌉ padUnit ≤ 8 := (ceilDiv_le_iff_le_mul (by decide)).mpr hlen
  have hmul : (len ⌈/⌉ padUnit) * padUnit ≤ 8 * padUnit := Nat.mul_le_mul_right _ hle
  unfold paddedM paddedRows
  rw [Nat.min_eq_left hlen]
  exact Nat.min_eq_left hmul

theorem paddedRows_add (len : Nat) :
    paddedRows (prefillMaxM + len) = prefillMaxM + paddedRows len := by
  have hceil : (prefillMaxM + len) ⌈/⌉ padUnit = 8 + len ⌈/⌉ padUnit := by
    rw [Nat.ceilDiv_eq_add_pred_div, Nat.ceilDiv_eq_add_pred_div]
    unfold prefillMaxM padUnit
    omega
  unfold paddedRows
  rw [hceil, Nat.add_mul]
  rfl

theorem prefillFrom_writes {logits : L}
    (hok : prefillFrom k tokens ctx.length model = .ok (logits, model')) :
    Writes k ctx tokens (ctx.length + paddedRows tokens.length) model model' := by
  suffices hchunks : ∀ (ctx : List Token) (before : L) (model : VkModel V),
      prefillChunks k (tokens.length ⌈/⌉ prefillMaxM) tokens ctx.length before model =
        .ok (logits, model') →
      Writes k ctx tokens (ctx.length + paddedRows tokens.length) model model' from
    hchunks ctx _ model hok
  clear hok
  refine chunk_induction (P := fun chunks tokens => ∀ ctx before model,
    prefillChunks k chunks tokens ctx.length before model = .ok (logits, model') →
    Writes k ctx tokens (ctx.length + paddedRows tokens.length) model model') ?nil ?last ?more tokens
  case nil =>
    intro ctx before model hok
    obtain ⟨-, rfl⟩ : before = logits ∧ model = model' := by simpa [prefillChunks] using hok
    exact writes_refl ctx model
  case last =>
    intro tokens hshort ctx before model hok
    obtain ⟨⟨next, filled⟩, hinner, hrest⟩ := bind_eq_ok.mp hok
    have htile := prefillInner_writes (List.length_take_le _ _) hinner
    obtain ⟨-, rfl⟩ : next = logits ∧ filled = model' := by simpa [prefillChunks] using hrest
    rwa [List.take_of_length_le hshort, paddedM_eq_paddedRows hshort] at htile
  case more =>
    intro chunks tokens hlong ih ctx before model hok
    obtain ⟨⟨next, filled⟩, hinner, hrest⟩ := bind_eq_ok.mp hok
    have htile := prefillInner_writes (List.length_take_le _ _) hinner
    have hfull : (tokens.take prefillMaxM).length = prefillMaxM := by
      rw [List.length_take]
      omega
    have hctx : ctx.length + prefillMaxM = (ctx ++ tokens.take prefillMaxM).length := by
      rw [List.length_append, hfull]
    rw [hctx] at hrest
    have hall := htile.trans (ih _ next filled hrest)
    have hsplit : tokens.length = prefillMaxM + (tokens.drop prefillMaxM).length := by
      rw [List.length_drop]
      omega
    have hreach : ctx.length + paddedRows tokens.length =
        max (ctx.length + paddedM (tokens.take prefillMaxM).length)
          ((ctx ++ tokens.take prefillMaxM).length +
            paddedRows (tokens.drop prefillMaxM).length) := by
      rw [hsplit, paddedRows_add, ← hctx, hfull, paddedM_eq_paddedRows le_rfl,
        show paddedRows prefillMaxM = prefillMaxM by decide]
      omega
    rw [hreach]
    rwa [List.take_append_drop] at hall

/-! ### Generations -/

/-- The token after a decode step, and the row that the step writes. -/
theorem decodeStep_writes {env : DecodeEnv L} {generated : List Token} {token next : Token}
    (hok : decodeStep k env generated token ctx.length model = .ok (next, model')) :
    Writes k ctx [token] (ctx.length + 1) model model' := by
  unfold decodeStep at hok
  split at hok
  · exact forwardArgmax_writes hok
  · obtain ⟨⟨logits, stepped⟩, hforward, hpure⟩ := bind_eq_ok.mp hok
    obtain ⟨-, rfl⟩ := Prod.mk.inj (pure_eq_ok.mp hpure)
    exact forward_writes hforward

/-- The decode loop forwards what it generates, save the last token when it ends on a stop string,
a closed stream or the budget. -/
theorem decodeLoop_writes {env : DecodeEnv L} {closed : List Token → Bool} {pos : Nat}
    {generated' : List Token} :
    ∀ (left : Nat) (next : Token) (generated : List Token) (model : VkModel V),
      decodeLoop k env closed left next (ctx ++ generated).length generated model =
        .ok ((generated', pos), model') →
      ∃ fed, pos = (ctx ++ generated ++ fed).length ∧
        Writes k (ctx ++ generated) fed ((ctx ++ generated).length + fed.length) model model' ∧
        (generated' = generated ++ fed ∨ ∃ last, generated' = generated ++ fed ++ [last])
  | 0, next, generated, model, hok => by
      obtain ⟨⟨rfl, rfl⟩, rfl⟩ := by simpa [decodeLoop] using hok
      exact ⟨[], by simp, writes_refl _ model, Or.inl (by simp)⟩
  | left + 1, next, generated, model, hok => by
      rw [decodeLoop] at hok
      split at hok
      · obtain ⟨⟨rfl, rfl⟩, rfl⟩ := by simpa using hok
        exact ⟨[], by simp, writes_refl _ model, Or.inl (by simp)⟩
      · dsimp only at hok
        split at hok
        · obtain ⟨⟨rfl, rfl⟩, rfl⟩ := by simpa using hok
          exact ⟨[], by simp, writes_refl _ model, Or.inr ⟨next, by simp⟩⟩
        · obtain ⟨⟨next', stepped⟩, hstep, hrest⟩ := bind_eq_ok.mp hok
          have hfirst := decodeStep_writes hstep
          have hlen : (ctx ++ generated).length + 1 = (ctx ++ (generated ++ [next])).length := by
            simp
            omega
          rw [hlen] at hrest
          obtain ⟨fed, hpos, hwrites, hend⟩ :=
            decodeLoop_writes left next' (generated ++ [next]) stepped hrest
          refine ⟨next :: fed, ?_, ?_, ?_⟩
          · simpa using hpos
          · rw [← List.append_assoc] at hwrites
            exact hfirst.cons hwrites
          · simpa using hend

theorem lcp_prefix (prompt cached : List Token) :
    lcp prompt cached ≤ prompt.length ∧ prompt.take (lcp prompt cached) <+: cached := by
  induction prompt generalizing cached with
  | nil => simp [lcp]
  | cons token prompt ih =>
      cases cached with
      | nil => simp [lcp]
      | cons other cached =>
          by_cases heq : token = other
          · subst heq
            have hcons : lcp (token :: prompt) (token :: cached) = lcp prompt cached + 1 := by
              simp [lcp]
            rw [hcons, List.take_succ_cons]
            exact ⟨by simpa using (ih cached).1, List.cons_prefix_cons.mpr ⟨rfl, (ih cached).2⟩⟩
          · have hnone : lcp (token :: prompt) (other :: cached) = 0 := by
              simp [lcp, heq]
            simp [hnone]

theorem prefillSuffix_resident {prompt : List Token} {last : Token} {reuse : Nat} {logits : L}
    (hlast : prompt.getLast? = some last) (hreuse : reuse < prompt.length)
    (hresident : model.Resident k (prompt.take reuse))
    (hok : prefillSuffix k prompt last reuse model = .ok (logits, model')) :
    model'.Resident k prompt := by
  have hlen : (prompt.take reuse).length = reuse := List.length_take_of_le hreuse.le
  unfold prefillSuffix at hok
  dsimp only at hok
  split at hok
  · rw [← hlen] at hok
    have hwrites := (prefillFrom_writes hok).resident hresident
    rwa [hlen, List.take_append_drop] at hwrites
  · obtain ⟨stepped, hsteps, hforward⟩ := bind_eq_ok.mp hok
    have hinit : prompt.take reuse ++ (prompt.drop reuse).dropLast = prompt.dropLast := by
      rw [← List.dropLast_append_of_ne_nil (by simpa using hreuse), List.take_append_drop]
    have hbefore : stepped.Resident k prompt.dropLast := by
      rw [← hinit]
      refine (prefillSteps_writes _ _ model ?_).resident hresident
      rw [hlen]
      exact hsteps
    rw [← List.length_dropLast] at hforward
    have hafter := (forward_writes hforward).resident hbefore
    rwa [List.dropLast_append_getLast? last hlast] at hafter

/-- Whatever an honest record lets `prefill_cached` reuse, the prompt it was called with ends up
resident and recorded. -/
theorem prefillCached_resident {prompt : List Token} {logits : L} (hhonest : model.Honest k)
    (hok : prefillCached k prompt model = .ok (logits, model')) :
    model'.promptCache = prompt ∧ model'.Resident k prompt := by
  unfold prefillCached at hok
  split at hok
  · cases hok
  next last hlast =>
    split at hok
    case isFalse => cases hok
    case isTrue hcap =>
      obtain ⟨⟨logits', filled⟩, hfill, hpure⟩ := bind_eq_ok.mp hok
      obtain ⟨-, rfl⟩ := Prod.mk.inj (pure_eq_ok.mp hpure)
      refine ⟨rfl, ?_⟩
      have hne : prompt ≠ [] := by
        rintro rfl
        cases hlast
      have hpos := List.length_pos_iff.mpr hne
      obtain ⟨-, hshared⟩ := lcp_prefix prompt model.promptCache
      have hresident : model.Resident k
          (prompt.take (min (lcp prompt model.promptCache) (prompt.length - 1))) := by
        refine hhonest.of_initial (List.IsPrefix.trans ?_ hshared)
        exact List.take_prefix_take_left (Nat.min_le_left _ _)
      have hfilled : filled.Resident k prompt :=
        prefillSuffix_resident hlast (by omega) hresident hfill
      exact hfilled

theorem generateVk_honest {env : DecodeEnv L} {prompt generated : List Token}
    (hhonest : model.Honest k)
    (hok : generateVk k env prompt model = .ok (generated, model')) : model'.Honest k := by
  obtain ⟨⟨logits, filled⟩, hfill, hloop⟩ := bind_eq_ok.mp hok
  obtain ⟨⟨⟨generated', pos⟩, decoded⟩, hdecode, hnote⟩ := bind_eq_ok.mp hloop
  obtain ⟨hcache, hresident⟩ := prefillCached_resident hhonest hfill
  have hstart : prompt.length = (prompt ++ []).length := by simp
  rw [hstart] at hdecode
  obtain ⟨fed, -, hwrites, hend⟩ := decodeLoop_writes _ _ [] filled hdecode
  rw [List.append_nil] at hwrites
  have hdecoded : decoded.Resident k (prompt ++ fed) := hwrites.resident hresident
  have hrecord : decoded.promptCache = prompt := hwrites.promptCache_eq.trans hcache
  have hnoted : generated'.take (generated'.length - 1) <+: fed := by
    rw [← List.dropLast_eq_take]
    obtain heq | ⟨last, heq⟩ := hend
    · rw [heq, List.nil_append]
      exact List.dropLast_prefix fed
    · simp [heq]
  dsimp only at hnote
  split at hnote
  · obtain ⟨-, rfl⟩ := Prod.mk.inj (pure_eq_ok.mp hnote)
    unfold Honest
    rw [hrecord]
    exact hdecoded.of_initial (List.prefix_append _ _)
  · obtain ⟨-, rfl⟩ := Prod.mk.inj (pure_eq_ok.mp hnote)
    unfold Honest noteDecoded
    rw [hrecord]
    exact Resident.of_initial ((List.prefix_append_right_inj prompt).mpr hnoted) hdecoded

/-- Rows that the prefill of the streaming lane writes: a long prompt runs as padded tiles. -/
def streamReach (prompt : List Token) : Nat :=
  if 32 < prompt.length then paddedRows prompt.length else prompt.length

theorem streamPrefill_writes {env : DecodeEnv L} {prompt : List Token} {last next : Token}
    (hlast : prompt.getLast? = some last)
    (hok : streamPrefill k env prompt last model = .ok (next, model')) :
    Writes k [] prompt (streamReach prompt) model model' := by
  unfold streamPrefill at hok
  unfold streamReach
  split at hok
  case isTrue hlong =>
    rw [if_pos hlong]
    obtain ⟨⟨logits, filled⟩, hfill, hpure⟩ := bind_eq_ok.mp hok
    obtain ⟨-, rfl⟩ := Prod.mk.inj (pure_eq_ok.mp hpure)
    have hwrites : Writes k [] prompt ([].length + paddedRows prompt.length) model filled :=
      prefillFrom_writes hfill
    simpa using hwrites
  case isFalse hshort =>
    rw [if_neg hshort]
    obtain ⟨stepped, hsteps, hstep⟩ := bind_eq_ok.mp hok
    have hfirst : Writes k [] prompt.dropLast ([].length + prompt.dropLast.length) model stepped :=
      prefillSteps_writes _ [] model hsteps
    rw [← List.length_dropLast] at hstep
    have hall := hfirst.trans (decodeStep_writes hstep)
    have hsplit := List.dropLast_append_getLast? last hlast
    rw [hsplit] at hall
    have hlen := congrArg List.length hsplit
    rw [List.length_append, List.length_singleton] at hlen
    have hmax : max (([] : List Token).length + prompt.dropLast.length)
        (([] ++ prompt.dropLast).length + 1) = prompt.length := by
      rw [List.nil_append, List.length_nil]
      omega
    rwa [hmax] at hall

/-- The tokens that the streaming lane forwards behind its prompt. -/
def decoded (prompt generated : List Token) (pos : Nat) : List Token :=
  generated.take (pos - prompt.length)

theorem chatStream_writes {env : DecodeEnv L} {closed : List Token → Bool}
    {prompt generated : List Token} {pos : Nat}
    (hok : chatStream k env closed prompt model = .ok ((generated, pos), model')) :
    Writes k [] (prompt ++ decoded prompt generated pos)
      (max (streamReach prompt) (prompt ++ decoded prompt generated pos).length) model model' := by
  unfold chatStream at hok
  split at hok
  · cases hok
  next last hlast =>
    obtain ⟨⟨next, filled⟩, hfill, hdecode⟩ := bind_eq_ok.mp hok
    have hprefill := streamPrefill_writes hlast hfill
    have hstart : prompt.length = (prompt ++ []).length := by simp
    rw [hstart] at hdecode
    obtain ⟨fed, hpos, hwrites, hend⟩ := decodeLoop_writes _ _ [] filled hdecode
    have hfed : decoded prompt generated pos = fed := by
      unfold decoded
      rw [hpos]
      obtain heq | ⟨last, heq⟩ := hend <;> simp [heq]
    rw [List.append_nil] at hwrites
    rw [hfed, List.length_append]
    exact hprefill.trans hwrites

/-- The tokens that a streaming generation forwards agree with the record as far as both go, and
its padding rows stop short of the record. -/
def SparesRecord (model : VkModel V) (prompt forwarded : List Token) : Prop :=
  model.promptCache <+: prompt ++ forwarded ∨
    (prompt ++ forwarded <+: model.promptCache ∧
      streamReach prompt ≤ (prompt ++ forwarded).length)

theorem chatStream_honest {env : DecodeEnv L} {closed : List Token → Bool}
    {prompt generated : List Token} {pos : Nat} (hhonest : model.Honest k)
    (hok : chatStream k env closed prompt model = .ok ((generated, pos), model'))
    (hspares : model.SparesRecord prompt (decoded prompt generated pos)) : model'.Honest k := by
  have hwrites := chatStream_writes hok
  have hresident : model'.Resident k (prompt ++ decoded prompt generated pos) := by
    simpa using hwrites.resident (by simp [Resident])
  unfold Honest
  rw [hwrites.promptCache_eq]
  obtain hcovered | ⟨hinside, hreach⟩ := hspares
  · exact hresident.of_initial hcovered
  · intro i hi
    by_cases hlt : i < (prompt ++ decoded prompt generated pos).length
    · rw [List.prefix_iff_eq_take.mp hinside] at hresident
      have hrow := hresident i (by rw [List.length_take]; omega)
      rwa [List.take_take, Nat.min_eq_left (by omega)] at hrow
    · rw [hwrites.frame i (by omega)]
      exact hhonest i hi

/-- Rows tell which tokens they are the K/V of, and a padding row is the K/V of none. -/
structure Discriminates (k : VkKernels V L) : Prop where
  unique : ∀ tokens tokens' row, k.KvOf tokens row → k.KvOf tokens' row → tokens = tokens'
  padding : ∀ tokens below, ¬k.KvOf tokens (k.padRow below)

/-- **One streaming generation.** Where rows are told apart, a streaming generation leaves an honest
record honest if and only if it spares it. -/
theorem chatStream_honest_iff {env : DecodeEnv L} {closed : List Token → Bool}
    {prompt generated : List Token} {pos : Nat} (hdisc : Discriminates k)
    (hhonest : model.Honest k)
    (hok : chatStream k env closed prompt model = .ok ((generated, pos), model')) :
    model'.Honest k ↔ model.SparesRecord prompt (decoded prompt generated pos) := by
  refine ⟨fun hafter => ?_, chatStream_honest hhonest hok⟩
  have hwrites := chatStream_writes hok
  generalize hfed : prompt ++ decoded prompt generated pos = fed at hwrites
  have hresident : model'.Resident k fed := by
    simpa using hwrites.resident (by simp [Resident])
  unfold Honest at hafter
  rw [hwrites.promptCache_eq] at hafter
  have hagree : ∀ i, i < fed.length → i < model.promptCache.length →
      model.promptCache.take (i + 1) = fed.take (i + 1) := by
    intro i hfedLt hlt
    exact hdisc.unique _ _ _ (hafter i hlt) (hresident i hfedLt)
  have hpads : ∀ i, fed.length ≤ i → i < streamReach prompt → model.promptCache.length ≤ i := by
    intro i hlo hhi
    by_contra hlt
    obtain ⟨below, hrow⟩ := hwrites.padding i (by simpa using hlo) (by omega)
    have hkv := hafter i (by omega)
    rw [hrow] at hkv
    exact hdisc.padding _ _ hkv
  unfold SparesRecord
  rw [hfed]
  by_cases hshort : model.promptCache.length ≤ fed.length
  · left
    rw [List.prefix_iff_eq_take]
    by_cases hnil : model.promptCache.length = 0
    · simp [List.length_eq_zero_iff.mp hnil]
    · have hlast := hagree (model.promptCache.length - 1) (by omega) (by omega)
      rwa [Nat.sub_add_cancel (by omega), List.take_length] at hlast
  · right
    constructor
    · rw [List.prefix_iff_eq_take]
      by_cases hnil : fed.length = 0
      · simp [List.length_eq_zero_iff.mp hnil]
      · have hlast := hagree (fed.length - 1) (by omega) (by omega)
        rw [Nat.sub_add_cancel (by omega), List.take_length] at hlast
        exact hlast.symm
    · by_contra hlong
      have := hpads fed.length le_rfl (by omega)
      omega

end VkModel

/-! ### Runs of both lanes -/

/-- One generation on the model, in either lane; `allows model prompt forwarded` restricts the
streaming ones. The mutex around the model keeps generations apart. -/
inductive Generation (k : VkKernels V L) (allows : VkModel V → List Token → List Token → Prop)
    (model : VkModel V) : VkModel V → Prop where
  | blocking (env : DecodeEnv L) (prompt generated : List Token) (model' : VkModel V)
      (hok : model.generateVk k env prompt = .ok (generated, model')) :
      Generation k allows model model'
  | streaming (env : DecodeEnv L) (closed : List Token → Bool) (prompt generated : List Token)
      (pos : Nat) (model' : VkModel V)
      (hok : model.chatStream k env closed prompt = .ok ((generated, pos), model'))
      (hallows : allows model prompt (VkModel.decoded prompt generated pos)) :
      Generation k allows model model'

/-- **Prompt-cache honesty.** As long as streaming generations spare the record, every prefix that
`prefill_cached` reuses is resident. -/
theorem prompt_cache_honest {k : VkKernels V L} {kv : Nat → V} {model : VkModel V}
    (hreach : Relation.ReflTransGen (Generation k VkModel.SparesRecord) (VkModel.new kv) model) :
    model.Honest k := by
  induction hreach with
  | refl => simp [VkModel.Honest, VkModel.Resident, VkModel.new]
  | tail _ hgen ih =>
      cases hgen with
      | blocking env prompt generated model' hok => exact VkModel.generateVk_honest ih hok
      | streaming env closed prompt generated pos model' hok hspares =>
          exact VkModel.chatStream_honest ih hok hspares

/-- A row holds the tokens it was computed from. -/
def contextKernels : VkKernels (List Token) Nat where
  step := fun below token => (below.getLastD [] ++ [token], below.length)
  tile := fun below token => (below.getLastD [] ++ [token], below.length)
  padRow := fun _ => []
  argmax := id
  noLogits := 0

theorem kvOf_contextKernels {tokens row : List Token} (hkv : contextKernels.KvOf tokens row) :
    row = tokens := by
  have hlast : ∀ (ctx : List Token) (below : List (List Token)), below.length = ctx.length →
      (∀ i row, below[i]? = some row → row = ctx.take (i + 1)) → below.getLastD [] = ctx := by
    intro ctx below hlen hbelow
    rw [List.getLastD_eq_getLast?]
    cases hlastRow : below.getLast? with
    | none =>
        obtain rfl := List.getLast?_eq_none_iff.mp hlastRow
        exact (List.length_eq_zero_iff.mp hlen.symm).symm
    | some row =>
        have hrow := hlastRow
        rw [List.getLast?_eq_getElem?] at hrow
        have hne : below.length ≠ 0 := by
          rintro hzero
          rw [List.length_eq_zero_iff] at hzero
          simp [hzero] at hlastRow
        rw [Option.getD_some, hbelow _ row hrow, List.take_of_length_le (by omega)]
  induction hkv with
  | step ctx token below hlen _ ih =>
      simp only [contextKernels, hlast ctx below hlen ih]
  | tile ctx token below hlen _ ih =>
      simp only [contextKernels, hlast ctx below hlen ih]

/-- Greedy decoding of two tokens. -/
def greedyEnv : DecodeEnv Nat where
  stops := fun _ => false
  greedy := true
  sample := fun _ logits => logits
  stopHit := fun _ => false
  maxTokens := 2

theorem prompt_cache_honest_contextKernels : ∃ model : VkModel (List Token),
    model.promptCache = [7, 8, 1] ∧ model.kv 4 = [7, 8, 1, 5, 3] ∧ model.Honest contextKernels := by
  have hblocking : Generation contextKernels VkModel.SparesRecord (VkModel.new fun _ => []) _ :=
    .blocking greedyEnv [7, 8] _ _ rfl
  refine ⟨_, ?_, ?_, prompt_cache_honest ((Relation.ReflTransGen.single hblocking).tail
    (.streaming greedyEnv (fun _ => false) [7, 8, 1, 5] _ _ _ rfl (Or.inl ?_)))⟩
  · decide
  · decide
  · decide

/-- A blocking generation records its prompt, a streaming one overwrites the rows, and the record
still names them. -/
theorem stream_overwrites_record : ¬∀ model : VkModel (List Token),
    Relation.ReflTransGen (Generation contextKernels fun _ _ _ => True)
      (VkModel.new fun _ => []) model → model.Honest contextKernels := by
  intro hall
  have hhonest := hall _ ((Relation.ReflTransGen.single
    (.blocking greedyEnv [7, 8] _ _ rfl)).tail
    (.streaming greedyEnv (fun _ => false) [9, 8] _ _ _ rfl trivial))
  have hrow := kvOf_contextKernels (hhonest 0 (by decide))
  exact absurd hrow (by decide)

end Zllm.Vulkan
