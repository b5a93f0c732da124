/-
# The bounds of generation

Which tokens and positions the three loops run the model on.  A token of the prompt is below
the vocabulary size, but for the begin marker of an empty prompt when there is one token
only; a sampled token is below it always.  The browser and the node bound the positions by
the length of the context.  The device bounds them by `MAX_CTX` alone: with a shorter
context it runs past the end of its cache, unless a marker stops it before
(`generation_bounds`).
-/
import PySpell.Generation
import PySpell.Runnable
import PySpell.Sampler
import PySpell.TokenizerText

open Checked

namespace TinyLlm

variable {F : Type} {t : Tokenizer F} {promptTokens : List ℕ} {pick : ℕ → ℕ}

/-! ## The calls of a loop -/

/-- The loop ends behind the round at `i`. -/
def Stops (promptTokens : List ℕ) (pick : ℕ → ℕ) (i : ℕ) : Prop :=
  nextToken promptTokens pick i = BOS ∨ nextToken promptTokens pick i = EOS

theorem nextToken_lt {n : ℕ} (hprompt : ∀ x ∈ promptTokens, x < n) (hpick : ∀ i, pick i < n)
    (i : ℕ) : nextToken promptTokens pick i < n := by
  rw [nextToken]
  split_ifs with hi
  · rw [List.getD_eq_getElem?_getD, List.getElem?_eq_getElem hi, Option.getD_some]
    exact hprompt _ (List.getElem_mem hi)
  · exact hpick i

/-! ### One loop -/

namespace Loop

variable {maxSteps : ℕ}

/-- A round that ends the loop. -/
theorem run_stop (fuel : ℕ) {s : Loop} (hpos : s.pos < maxSteps)
    (h : Stops promptTokens pick s.pos) :
    (run t promptTokens pick maxSteps (fuel + 1) s).calls = s.calls ++ [(s.token, s.pos)] := by
  rw [Stops] at h
  rw [run, if_neg (not_le.mpr hpos)]
  dsimp only
  rw [if_pos h]

/-- A round that goes on. -/
theorem run_continue (fuel : ℕ) {s : Loop} (hpos : s.pos < maxSteps)
    (h : ¬ Stops promptTokens pick s.pos) : ∃ s' : Loop, s'.pos = s.pos + 1 ∧
      s'.token = nextToken promptTokens pick s.pos ∧ s'.calls = s.calls ++ [(s.token, s.pos)] ∧
      run t promptTokens pick maxSteps (fuel + 1) s =
        run t promptTokens pick maxSteps fuel s' := by
  rw [Stops] at h
  rw [run, if_neg (not_le.mpr hpos)]
  dsimp only
  rw [if_neg h]
  split_ifs
  · exact ⟨_, rfl, rfl, rfl, rfl⟩
  · exact ⟨_, rfl, rfl, rfl, rfl⟩

theorem mem_calls_run (fuel : ℕ) {s : Loop} {c : ℕ × ℕ} (hc : c ∈ s.calls) :
    c ∈ (run t promptTokens pick maxSteps fuel s).calls := by
  induction fuel generalizing s with
  | zero => exact hc
  | succ fuel ih =>
    by_cases hpos : s.pos < maxSteps
    · by_cases hstop : Stops promptTokens pick s.pos
      · rw [run_stop fuel hpos hstop]
        exact List.mem_append_left _ hc
      · obtain ⟨s', -, -, hcalls, hrun⟩ := run_continue (t := t) fuel hpos hstop
        rw [hrun]
        apply ih
        rw [hcalls]
        exact List.mem_append_left _ hc
    · rw [run, if_pos (not_lt.mp hpos)]
      exact hc

/-- **The tokens of all calls** are below a bound of all next tokens. -/
theorem calls_token_lt {n : ℕ} (hnext : ∀ i, nextToken promptTokens pick i < n) (fuel : ℕ)
    {s : Loop} (htoken : s.token < n) (hcalls : ∀ c ∈ s.calls, c.1 < n) :
    ∀ c ∈ (run t promptTokens pick maxSteps fuel s).calls, c.1 < n := by
  induction fuel generalizing s with
  | zero => exact hcalls
  | succ fuel ih =>
    have hround : ∀ c ∈ s.calls ++ [(s.token, s.pos)], c.1 < n := by
      intro c hc
      rcases List.mem_append.mp hc with hc | hc
      · exact hcalls c hc
      · obtain rfl := List.mem_singleton.mp hc
        exact htoken
    by_cases hpos : s.pos < maxSteps
    · by_cases hstop : Stops promptTokens pick s.pos
      · rw [run_stop fuel hpos hstop]
        exact hround
      · obtain ⟨s', -, htoken', hcalls', hrun⟩ := run_continue (t := t) fuel hpos hstop
        rw [hrun]
        refine ih ?_ ?_
        · rw [htoken']
          exact hnext _
        · rw [hcalls']
          exact hround
    · rw [run, if_pos (not_lt.mp hpos)]
      exact hcalls

/-- **The positions of all calls** are below `ctx` when the bound of the loop is not above
it, or when a round before ends the loop. -/
theorem calls_pos_lt_iff {ctx : ℕ} (fuel : ℕ) {s : Loop} (hfuel : maxSteps ≤ s.pos + fuel)
    (hpos : s.pos ≤ ctx) (hcalls : ∀ c ∈ s.calls, c.2 < ctx) :
    (∀ c ∈ (run t promptTokens pick maxSteps fuel s).calls, c.2 < ctx) ↔
      maxSteps ≤ ctx ∨ maxSteps ≤ s.pos ∨
        ∃ i, s.pos ≤ i ∧ i < ctx ∧ Stops promptTokens pick i := by
  induction fuel generalizing s with
  | zero => exact ⟨fun _ => Or.inr (Or.inl hfuel), fun _ => hcalls⟩
  | succ fuel ih =>
    by_cases hlt : s.pos < maxSteps
    · -- a stop ends the loop with this round
      by_cases hstop : Stops promptTokens pick s.pos
      · rw [run_stop fuel hlt hstop]
        constructor
        · intro h
          have hlast := h (s.token, s.pos) (List.mem_append_right _ (List.mem_singleton_self _))
          exact Or.inr (Or.inr ⟨s.pos, le_rfl, hlast, hstop⟩)
        · intro h c hc
          rcases List.mem_append.mp hc with hc | hc
          · exact hcalls c hc
          · obtain rfl := List.mem_singleton.mp hc
            change s.pos < ctx
            rcases h with h | h | ⟨i, hi, hictx, -⟩ <;> omega
      · obtain ⟨s', hpos', -, hcalls', hrun⟩ := run_continue (t := t) fuel hlt hstop
        rw [hrun]
        rcases hpos.eq_or_lt with heq | hctx
        · -- this round is the first at the end of the context
          constructor
          · intro h
            have hcall := h (s.token, s.pos) (mem_calls_run fuel (by
              rw [hcalls']
              exact List.mem_append_right _ (List.mem_singleton_self _)))
            exact absurd hcall (by rw [heq]; exact lt_irrefl ctx)
          · rintro (h | h | ⟨i, hi, hictx, -⟩) <;> omega
        · have hround : ∀ c ∈ s'.calls, c.2 < ctx := by
            intro c hc
            rw [hcalls'] at hc
            rcases List.mem_append.mp hc with hc | hc
            · exact hcalls c hc
            · obtain rfl := List.mem_singleton.mp hc
              exact hctx
          -- the round is within the context, and the rest is the induction
          rw [ih (by omega) (by omega) hround, hpos']
          constructor
          · rintro (h | h | ⟨i, hi, hictx, hi'⟩)
            · exact Or.inl h
            · exact Or.inl (by omega)
            · exact Or.inr (Or.inr ⟨i, by omega, hictx, hi'⟩)
          · rintro (h | h | ⟨i, hi, hictx, hi'⟩)
            · exact Or.inl h
            · omega
            · refine Or.inr (Or.inr ⟨i, ?_, hictx, hi'⟩)
              rcases hi.eq_or_lt with rfl | hi
              · exact absurd hi' hstop
              · exact hi
    · rw [run, if_pos (not_lt.mp hlt)]
      exact ⟨fun _ => Or.inr (Or.inl (not_lt.mp hlt)), fun _ => hcalls⟩

/-- The first call is on the first token of the prompt. -/
theorem first_call (hsteps : 0 < maxSteps) :
    (promptTokens.getD 0 0, 0) ∈
      (run t promptTokens pick maxSteps maxSteps (start promptTokens)).calls := by
  obtain ⟨fuel, rfl⟩ := Nat.exists_eq_succ_of_ne_zero hsteps.ne'
  by_cases hstop : Stops promptTokens pick 0
  · rw [run_stop fuel hsteps hstop]
    exact List.mem_append_right _ (List.mem_singleton_self _)
  · obtain ⟨s', -, -, hcalls, hrun⟩ := run_continue (t := t) (s := start promptTokens) fuel
      hsteps hstop
    rw [hrun]
    apply mem_calls_run
    rw [hcalls]
    exact List.mem_append_right _ (List.mem_singleton_self _)

end Loop

/-! ### A generator -/

namespace Generator

/-- What a call of `step` does to the calls of the model. -/
theorem step_calls (g : Generator F) (pick : ℕ → ℕ) :
    (g.step pick).2.promptTokens = g.promptTokens ∧ (g.step pick).2.maxSteps = g.maxSteps ∧
      ((g.done = true ∨ g.maxSteps ≤ g.pos) ∧ (g.step pick).2.calls = g.calls ∧
          (g.step pick).2.token = g.token ∨
        g.pos < g.maxSteps ∧ (g.step pick).2.calls = g.calls ++ [(g.token, g.pos)] ∧
          ((g.step pick).2.token = g.token ∨
            (g.step pick).2.token = nextToken g.promptTokens pick g.pos)) := by
  rw [step]
  dsimp only
  split_ifs with hdone hstop hprompt
  · exact ⟨rfl, rfl, Or.inl ⟨hdone, rfl, rfl⟩⟩
  · exact ⟨rfl, rfl, Or.inr ⟨by omega, rfl, Or.inl rfl⟩⟩
  · exact ⟨rfl, rfl, Or.inr ⟨by omega, rfl, Or.inr rfl⟩⟩
  · exact ⟨rfl, rfl, Or.inr ⟨by omega, rfl, Or.inr rfl⟩⟩

/-- The state of the stream behind a call. -/
theorem stream_succ (pick : ℕ → ℕ) (n : ℕ) (g : Generator F) :
    (g.stream pick (n + 1)).2 = (g.step pick).2 ∨
      (g.stream pick (n + 1)).2 = ((g.step pick).2.stream pick n).2 := by
  rw [stream]
  rcases g.step pick with ⟨_ | s, g'⟩
  · exact Or.inl rfl
  · exact Or.inr rfl

/-- All calls were on tokens below `n`, at positions below the bound. -/
structure Within (n : ℕ) (g : Generator F) : Prop where
  prompt : ∀ x ∈ g.promptTokens, x < n
  token : g.token < n
  calls : ∀ c ∈ g.calls, c.1 < n ∧ c.2 < g.maxSteps

theorem Within.step {n : ℕ} {g : Generator F} (h : g.Within n) (hpick : ∀ i, pick i < n) :
    (g.step pick).2.Within n := by
  obtain ⟨hprompt, hmax, ⟨-, hcalls, htoken⟩ | ⟨hpos, hcalls, htoken⟩⟩ := g.step_calls pick
  · exact ⟨hprompt ▸ h.prompt, htoken ▸ h.token, by rw [hcalls, hmax]; exact h.calls⟩
  · refine ⟨hprompt ▸ h.prompt, ?_, ?_⟩
    · rcases htoken with htoken | htoken
      · exact htoken ▸ h.token
      · rw [htoken]
        exact nextToken_lt h.prompt hpick _
    · rw [hcalls, hmax]
      intro c hc
      rcases List.mem_append.mp hc with hc | hc
      · exact h.calls c hc
      · obtain rfl := List.mem_singleton.mp hc
        exact ⟨h.token, hpos⟩

theorem Within.stream {n : ℕ} (hpick : ∀ i, pick i < n) (k : ℕ) {g : Generator F}
    (h : g.Within n) : (g.stream pick k).2.Within n ∧
      (g.stream pick k).2.maxSteps = g.maxSteps := by
  induction k generalizing g with
  | zero => exact ⟨h, rfl⟩
  | succ k ih =>
    have hmax := (g.step_calls pick).2.1
    rcases stream_succ pick k g with heq | heq
    · rw [heq]
      exact ⟨h.step hpick, hmax⟩
    · rw [heq]
      obtain ⟨hwithin, hmax'⟩ := ih (h.step hpick)
      exact ⟨hwithin, hmax'.trans hmax⟩

theorem mem_calls_stream (k : ℕ) {g : Generator F} {c : ℕ × ℕ} (hc : c ∈ g.calls) :
    c ∈ (g.stream pick k).2.calls := by
  induction k generalizing g with
  | zero => exact hc
  | succ k ih =>
    have hstep : c ∈ (g.step pick).2.calls := by
      obtain ⟨-, -, ⟨-, hcalls, -⟩ | ⟨-, hcalls, -⟩⟩ := g.step_calls pick
      · rwa [hcalls]
      · rw [hcalls]
        exact List.mem_append_left _ hc
    rcases stream_succ pick k g with heq | heq
    · rwa [heq]
    · rw [heq]
      exact ih hstep

/-- The first call is on the first token of the prompt. -/
theorem first_call {seqLen maxTokens : ℕ} (hseq : 0 < seqLen) (k : ℕ) :
    (promptTokens.getD 0 0, 0) ∈
      ((new t seqLen promptTokens maxTokens).stream pick (k + 1)).2.calls := by
  have hstep : (promptTokens.getD 0 0, 0) ∈
      ((new t seqLen promptTokens maxTokens).step pick).2.calls := by
    have hmax : 0 < (new t seqLen promptTokens maxTokens).maxSteps := by
      change 0 < if maxTokens = 0 then seqLen else min maxTokens seqLen
      split_ifs <;> omega
    obtain ⟨-, -, ⟨hdone | hdone, -, -⟩ | ⟨-, hcalls, -⟩⟩ :=
      (new t seqLen promptTokens maxTokens).step_calls pick
    · exact absurd hdone Bool.false_ne_true
    · exact absurd hmax (not_lt.mpr hdone)
    · rw [hcalls]
      exact List.mem_append_right _ (List.mem_singleton_self _)
  rcases stream_succ pick k (new t seqLen promptTokens maxTokens) with heq | heq
  · rwa [heq]
  · rw [heq]
    exact mem_calls_stream k hstep

end Generator

/-! ## Prompts -/

theorem Tokenizer.startTokens_bos (t : Tokenizer F) (text : String) :
    ∃ rest, t.startTokens text true = BOS :: rest := ⟨_, rfl⟩

/-- All tokens that an encoding starts from are in the vocabulary, when the begin marker
is. -/
theorem Tokenizer.known_startTokens (hvocab : 2 ≤ t.vocab.length) (text : String) :
    t.Known (t.startTokens text true) := by
  have hfind {s : List UInt8} {id : ℕ} (h : t.find s = some id) : id < t.vocab.length :=
    (List.getElem?_eq_some_iff.mp (find_eq_some h)).1
  have hbyte (b : UInt8) : t.byteFallback b < t.vocab.length := by
    rw [byteFallback]
    split_ifs <;> omega
  intro x hx
  rw [startTokens, List.mem_append, List.mem_append, List.mem_flatMap] at hx
  rcases hx with (hbos | hspace) | ⟨ch, -, hx⟩
  · obtain rfl := List.mem_singleton.mp hbos
    exact hvocab
  · split_ifs at hspace
    · exact hfind (Option.mem_toList.mp hspace)
    · exact absurd hspace List.not_mem_nil
  · rw [charTokens] at hx
    cases hch : t.find (String.utf8EncodeChar ch) with
    | some id =>
      rw [hch] at hx
      obtain rfl := List.mem_singleton.mp hx
      exact hfind hch
    | none =>
      rw [hch] at hx
      obtain ⟨b, -, rfl⟩ := List.mem_map.mp hx
      exact hbyte b

/-- **A prompt is in the vocabulary**, and there is one. -/
theorem Tokenizer.encode_known {ops : FloatOps F} (hvocab : 2 ≤ t.vocab.length) {text : String}
    {ids : List ℕ} (h : t.encode ops text true false = some ids) : t.Known ids ∧ ids ≠ [] := by
  obtain ⟨rest, hstart⟩ := t.startTokens_bos text
  have hinit : t.Known (t.startTokens text true) ∧ t.startTokens text true ≠ [] := by
    refine ⟨known_startTokens hvocab text, ?_⟩
    rw [hstart]
    exact List.cons_ne_nil _ _
  obtain ⟨merged, hmerged, hknown, hne⟩ := mergeLoop_induct
    (P := fun tokens => t.Known tokens ∧ tokens ≠ []) ops (fun _ h => h.1)
    (fun pre a b post id h hmerges => ⟨h.1.merge hmerges, by simp⟩)
    (t.startTokens text true).length hinit
  rw [encode, hmerged] at h
  obtain rfl : merged = ids := Option.some_inj.mp h
  exact ⟨hknown, hne⟩

/-- With a vocabulary of one token, only the empty prompt is encoded, as the begin marker. -/
theorem Tokenizer.encode_single {ops : FloatOps F} (hvocab : t.vocab.length = 1) {text : String}
    {ids : List ℕ} (h : t.encode ops text true false = some ids) : ids = [BOS] := by
  obtain ⟨rest, hstart⟩ := t.startTokens_bos text
  rw [encode, hstart] at h
  obtain ⟨merged, hmerged, h⟩ := Option.bind_eq_some_iff.mp h
  obtain rfl : merged = ids := Option.some_inj.mp h
  have hbos : t.vocab[BOS]? = none := List.getElem?_eq_none hvocab.le
  cases rest with
  | nil => exact (Option.some_inj.mp hmerged).symm
  | cons x rest =>
    -- the search looks for the piece of the begin marker
    have hround : t.tryPair ops (BOS :: x :: rest) 0 (negInfinity ops, none) = none := by
      rw [tryPair]
      simp [hbos]
    have hloop : ∀ n, upTo (t.tryPair ops (BOS :: x :: rest)) (n + 1) (negInfinity ops, none) =
        none := by
      intro n
      induction n with
      | zero => exact hround
      | succ n ih =>
        rw [upTo, ih]
        rfl
    have hbest : t.bestPair ops (BOS :: x :: rest) = none := by
      rw [bestPair, List.length_cons, List.length_cons, Nat.add_sub_cancel, hloop]
      rfl
    rw [List.length_cons, mergeLoop, hbest] at hmerged
    exact absurd hmerged (Option.some_ne_none merged).symm

/-! ## The three loops -/

section Loops

variable (ops : FloatOps F) (M : Machine)

/-- `RunState::new`. -/
def RunState.new (heap : ℕ → Bool) (c : Config) : Option (RunState F) :=
  RunState.tryWithCache ops M heap c c.seqLen false

/-- `RunState::try_new_int8`. -/
def RunState.tryNewInt8 (heap : ℕ → Bool) (c : Config) (maxCtx : ℕ) : Option (RunState F) :=
  RunState.tryWithCache ops M heap c (min maxCtx c.seqLen) true

/-! ### Contexts and picks -/

/-- A token that the sampler takes from the logits behind some pass of a run. -/
def Picked (sort : List (ℕ × F) → List (ℕ × F)) (m : Model) (i : ℕ) : Prop :=
  ∃ heap ctx s token pos s' sampler r, Reached ops M heap m ctx s ∧
    forward ops M.strict m s token pos = some s' ∧
    Sampler.sample ops sort sampler s'.logits = some r ∧ r.1 = i

variable {ops M}

theorem ctx_of_tryWithCache {heap : ℕ → Bool} {c : Config} {ctx : ℕ} {int8 : Bool}
    {s : RunState F} (h : RunState.tryWithCache ops M heap c ctx int8 = some s) : s.ctx = ctx := by
  obtain ⟨z, hctx, -, hsized⟩ := tryWithCache_sized h
  exact hsized.ctx.trans hctx

/-- **A sampled token is in the vocabulary.** -/
theorem Picked.lt {sort : List (ℕ × F) → List (ℕ × F)} (hsort : ∀ l, (sort l).Perm l) {m : Model}
    (hm : m.Loaded M) {i : ℕ} (h : Picked ops M sort m i) : i < m.config.vocabSize := by
  obtain ⟨heap, ctx, s, token, pos, s', sampler, r, hs, hforward, hsample, rfl⟩ := h
  obtain ⟨z, -, -, hsized⟩ := (hs.step hforward).sized hm
  rw [← hsized.logits]
  refine Sampler.sample_lt hsort ?_ hsample
  rw [hsized.logits]
  exact hm.vocab

theorem Tokenizer.length_of_fromBytes {buf : List UInt8} {n : ℕ}
    (h : Tokenizer.fromBytes M.strict ops buf n = .ok t) : t.vocab.length = n := by
  obtain ⟨_, -, h⟩ := Outcome.bind_eq_ok.mp h
  obtain ⟨_, -, h⟩ := Outcome.bind_eq_ok.mp h
  obtain ⟨_, -, h⟩ := Outcome.bind_eq_ok.mp h
  obtain ⟨records, -, h⟩ := Outcome.bind_eq_ok.mp h
  split_ifs at h with hlen
  cases h
  rw [List.length_map]
  exact not_not.mp hlen

/-! ### The call that is in bounds -/

/-- A call of the model is on a token and at a position that it has. -/
def InBounds (m : Model) (s : RunState F) (call : ℕ × ℕ) : Prop :=
  call.1 < m.config.vocabSize ∧ call.2 < s.ctx

section Bounds

variable {n : ℕ} {text : String}

/-- The first token of a prompt is in the vocabulary only when there are two tokens: with one
token it is the begin marker. -/
theorem Tokenizer.two_of_first (hvocab : t.vocab.length = n) (hpos : 0 < n)
    (hencode : t.encode ops text true false = some promptTokens)
    (hfirst : promptTokens.getD 0 0 < n) : 2 ≤ n := by
  by_contra hfew
  rw [Tokenizer.encode_single (by omega) hencode] at hfirst
  change 1 < n at hfirst
  omega

/-- With two tokens a prompt is in the vocabulary, and its first token with it. -/
theorem Tokenizer.prompt_lt (hvocab : t.vocab.length = n) (htwo : 2 ≤ n)
    (hencode : t.encode ops text true false = some promptTokens) :
    (∀ x ∈ promptTokens, x < n) ∧ promptTokens.getD 0 0 < n := by
  obtain ⟨hknown, hne⟩ := Tokenizer.encode_known (hvocab ▸ htwo) hencode
  rw [Tokenizer.Known, hvocab] at hknown
  obtain ⟨x, rest, rfl⟩ := List.exists_cons_of_ne_nil hne
  exact ⟨hknown, hknown x List.mem_cons_self⟩

variable {m : Model} {s : RunState F}

/-- The browser stops at the end of the context, whatever bound it is asked for. -/
theorem Generator.stream_inBounds (hctx : s.ctx = m.config.seqLen)
    (hprompt : ∀ x ∈ promptTokens, x < m.config.vocabSize)
    (hfirst : promptTokens.getD 0 0 < m.config.vocabSize)
    (hpick : ∀ i, pick i < m.config.vocabSize) (maxTokens n : ℕ) :
    ∀ c ∈ ((Generator.new t m.config.seqLen promptTokens maxTokens).stream pick n).2.calls,
      InBounds m s c := by
  have hinit : (Generator.new t m.config.seqLen promptTokens maxTokens).Within
      m.config.vocabSize := ⟨hprompt, hfirst, fun c hc => absurd hc List.not_mem_nil⟩
  obtain ⟨hwithin, hmax⟩ := hinit.stream hpick n
  intro c hc
  obtain ⟨htoken, hpos⟩ := hwithin.calls c hc
  refine ⟨htoken, hpos.trans_le ?_⟩
  rw [hmax, hctx]
  change (if maxTokens = 0 then m.config.seqLen else min maxTokens m.config.seqLen) ≤ _
  split_ifs
  · exact le_rfl
  · exact min_le_right _ _

/-- So does the node: its bound is a minimum with the length of the context. -/
theorem nodeGenerate_inBounds (hctx : s.ctx = m.config.seqLen)
    (hprompt : ∀ x ∈ promptTokens, x < m.config.vocabSize)
    (hfirst : promptTokens.getD 0 0 < m.config.vocabSize)
    (hpick : ∀ i, pick i < m.config.vocabSize) :
    ∀ c ∈ (nodeGenerate t m.config.seqLen promptTokens pick).calls, InBounds m s c := by
  intro c hc
  refine ⟨Loop.calls_token_lt (nextToken_lt hprompt hpick) _ hfirst
    (fun c hc => absurd hc List.not_mem_nil) c hc, ?_⟩
  rw [hctx]
  exact (Loop.calls_pos_lt_iff _ (Nat.zero_add _).ge (Nat.zero_le _)
    (fun c hc => absurd hc List.not_mem_nil)).mpr (Or.inl (min_le_right _ _)) c hc

/-- **The positions of the device** are within its cache when its own bound is not above the
context, or when a marker comes up within the context. -/
theorem runLoop_pos_iff {seqLen : ℕ} : (∀ c ∈ (runLoop t promptTokens pick).calls,
      c.2 < min MAX_CTX seqLen) ↔
    min (promptTokens.length + MAX_NEW) MAX_CTX ≤ seqLen ∨
      ∃ i < seqLen, Stops promptTokens pick i := by
  have hsteps : 0 < min (promptTokens.length + MAX_NEW) MAX_CTX := by
    rw [MAX_NEW, MAX_CTX]
    omega
  have hmax : min (promptTokens.length + MAX_NEW) MAX_CTX ≤ MAX_CTX := min_le_right _ _
  have hpos : (∀ c ∈ (runLoop t promptTokens pick).calls, c.2 < min MAX_CTX seqLen) ↔
      min (promptTokens.length + MAX_NEW) MAX_CTX ≤ min MAX_CTX seqLen ∨
        min (promptTokens.length + MAX_NEW) MAX_CTX ≤ 0 ∨
        ∃ i, 0 ≤ i ∧ i < min MAX_CTX seqLen ∧ Stops promptTokens pick i :=
    Loop.calls_pos_lt_iff _ (Nat.zero_add _).ge (Nat.zero_le _)
      fun c hc => absurd hc List.not_mem_nil
  rw [hpos]
  constructor
  · rintro (hle | hle | ⟨i, -, hi, hstops⟩)
    · exact Or.inl (hle.trans (min_le_right _ _))
    · exact absurd hsteps (not_lt.mpr hle)
    · exact Or.inr ⟨i, hi.trans_le (min_le_right _ _), hstops⟩
  · rintro (hle | ⟨i, hi, hstops⟩)
    · exact Or.inl (le_min hmax hle)
    · by_cases hshort : i < MAX_CTX
      · exact Or.inr (Or.inr ⟨i, Nat.zero_le i, lt_min hshort hi, hstops⟩)
      · exact Or.inl (le_min hmax (by omega))

/-- **The bounds of generation.**  In every run of the browser and of the node all calls are
within bounds exactly when there are two tokens.  On the device the bound of the loop must
not be above the context, or a marker must come up within it. -/
theorem generation_bounds {buf tokens : List UInt8} (hparse : Model.parse M buf = .ok m)
    (hbuf : buf.length < 2 ^ M.width)
    (hread : Tokenizer.fromBytes M.strict ops tokens m.config.vocabSize = .ok t)
    (hencode : t.encode ops text true false = some promptTokens)
    {sort : List (ℕ × F) → List (ℕ × F)} (hsort : ∀ l, (sort l).Perm l)
    (hpick : ∀ i, Picked ops M sort m (pick i)) (heap : ℕ → Bool) :
    (∀ s : RunState F, RunState.new ops M heap m.config = some s →
      (∀ maxTokens n, (∀ c ∈ ((Generator.new t m.config.seqLen promptTokens maxTokens).stream
        pick (n + 1)).2.calls, InBounds m s c) ↔ 2 ≤ m.config.vocabSize) ∧
      ((∀ c ∈ (nodeGenerate t m.config.seqLen promptTokens pick).calls, InBounds m s c) ↔
        2 ≤ m.config.vocabSize)) ∧
    ∀ s8 : RunState F, RunState.tryNewInt8 ops M heap m.config MAX_CTX = some s8 →
      ((∀ c ∈ (runLoop t promptTokens pick).calls, InBounds m s8 c) ↔
        2 ≤ m.config.vocabSize ∧
          (min (promptTokens.length + MAX_NEW) MAX_CTX ≤ m.config.seqLen ∨
            ∃ i < m.config.seqLen, Stops promptTokens pick i)) := by
  obtain ⟨kv, stop, off, haccepted⟩ := accepted_of_parse hparse
  have hm := haccepted.loaded hbuf
  have hseq : 0 < m.config.seqLen := haccepted.read.pos _ (by simp)
  have hvocab : t.vocab.length = m.config.vocabSize := Tokenizer.length_of_fromBytes hread
  have hlt (i : ℕ) : pick i < m.config.vocabSize := (hpick i).lt hsort hm
  -- the first call of each loop is the first token of the prompt
  have htwo {calls : List (ℕ × ℕ)} {s : RunState F}
      (hfirst : (promptTokens.getD 0 0, 0) ∈ calls) (h : ∀ c ∈ calls, InBounds m s c) :
      2 ≤ m.config.vocabSize :=
    Tokenizer.two_of_first hvocab hm.vocab hencode (h _ hfirst).1
  have hprompt (htwo : 2 ≤ m.config.vocabSize) := Tokenizer.prompt_lt hvocab htwo hencode
  refine ⟨fun s hs => ⟨fun maxTokens n => ?_, ?_⟩, fun s8 hs8 => ?_⟩
  · refine ⟨fun h => htwo (Generator.first_call hseq n) h, fun h => ?_⟩
    exact Generator.stream_inBounds (ctx_of_tryWithCache hs) (hprompt h).1 (hprompt h).2 hlt
      maxTokens (n + 1)
  · have hsteps : 0 < min (promptTokens.length + 24) m.config.seqLen := by omega
    refine ⟨fun h => htwo (Loop.first_call hsteps) h, fun h => ?_⟩
    exact nodeGenerate_inBounds (ctx_of_tryWithCache hs) (hprompt h).1 (hprompt h).2 hlt
  · have hctx8 : s8.ctx = min MAX_CTX m.config.seqLen := ctx_of_tryWithCache hs8
    have hsteps : 0 < min (promptTokens.length + MAX_NEW) MAX_CTX := by
      rw [MAX_NEW, MAX_CTX]
      omega
    constructor
    · intro h
      exact ⟨htwo (Loop.first_call hsteps) h, runLoop_pos_iff.mp fun c hc => hctx8 ▸ (h c hc).2⟩
    · rintro ⟨h, hstop⟩ c hc
      refine ⟨Loop.calls_token_lt (nextToken_lt (hprompt h).1 hlt) _ (hprompt h).2
        (fun c hc => absurd hc List.not_mem_nil) c hc, ?_⟩
      rw [hctx8]
      exact runLoop_pos_iff.mpr hstop c hc

end Bounds

end Loops

/-! ## A short context -/

/-- Four tokens and a context of eight. -/
def shortConfig : Config := ⟨2, 1, 1, 1, 1, 4, 8, 1, true⟩

theorem shortConfig_valid : shortConfig.Valid := ⟨by decide, by decide, by decide, by decide⟩

/-- Four pieces without scores. -/
def fourTokens : List UInt8 :=
  [5, 0, 0, 0] ++ [0, 0, 0, 0, 1, 0, 0, 0, 0x75] ++ [0, 0, 0, 0, 1, 0, 0, 0, 0x73] ++
    [0, 0, 0, 0, 1, 0, 0, 0, 0x74] ++ [0, 0, 0, 0, 1, 0, 0, 0, 0x61]

def fourVocab : Tokenizer UInt32 := ⟨[[0x75], [0x73], [0x74], [0x61]], [0, 0, 0, 0], rfl⟩

theorem argmax_zeroOps (v : List UInt32) : argmax zeroOps v = 0 := by
  have hfold : ∀ (l : List (UInt32 × ℕ)) (best : ℕ × UInt32),
      l.foldl (fun (best, bestV) (x, i) =>
        if zeroOps.lt bestV x then (i, x) else (best, bestV)) best = best := by
    intro l
    induction l with
    | nil => exact fun _ => rfl
    | cons a l ih => exact fun best => ih best
  rw [argmax, hfold]

/-- The model of zeros with this header. -/
def shortModel : Model := Model.laidOut shortConfig (blankFile shortConfig)

theorem parse_shortModel : Model.parse usize32 (blankFile shortConfig) = .ok shortModel :=
  parse_blankFile shortConfig_valid (by decide)

theorem length_shortFile : (blankFile shortConfig).length < 2 ^ usize32.width := by
  rw [length_blankFile]
  decide

/-- A greedy sampler takes the first token from it. -/
theorem picked_shortModel : Picked zeroOps usize32 (fun l => l) shortModel 0 := by
  obtain ⟨s, hs⟩ := Option.isSome_iff_exists.mp (show (RunState.tryWithCache zeroOps usize32
    (fun _ => true) shortConfig 8 true).isSome by decide)
  have hrun : Runnable usize32 shortModel 8 :=
    ⟨⟨by decide, by decide, by decide⟩, by decide, by decide, (length_blankFile _).ge, by decide,
      by decide⟩
  have hforward := (forward_isSome_iff zeroOps parse_shortModel length_shortFile (.fresh hs)).2
    (.inl (by decide)) (.inr hrun) 0 (by decide) 0 (by decide)
  obtain ⟨s', hs'⟩ := Option.isSome_iff_exists.mp hforward
  exact ⟨_, 8, s, 0, 0, s', Sampler.new 0 0 1, _, .fresh hs, hs', rfl, argmax_zeroOps _⟩

/-- A model with a short context and an empty prompt. -/
theorem generation_bounds_short :
    (∃ s : RunState UInt32,
      (∀ maxTokens n, (∀ c ∈ ((Generator.new fourVocab 8 [BOS] maxTokens).stream (fun _ => 0)
        (n + 1)).2.calls, InBounds shortModel s c) ↔ 2 ≤ 4) ∧
      ((∀ c ∈ (nodeGenerate fourVocab 8 [BOS] fun _ => 0).calls, InBounds shortModel s c) ↔
        2 ≤ 4)) ∧
    ∃ s8 : RunState UInt32,
      ((∀ c ∈ (runLoop fourVocab [BOS] fun _ => 0).calls, InBounds shortModel s8 c) ↔
        2 ≤ 4 ∧ (min (1 + MAX_NEW) MAX_CTX ≤ 8 ∨ ∃ i < 8, Stops [BOS] (fun _ => 0) i)) := by
  obtain ⟨s, hs⟩ := Option.isSome_iff_exists.mp (show (RunState.new zeroOps usize32
    (fun _ => true) shortConfig).isSome by decide)
  obtain ⟨s8, hs8⟩ := Option.isSome_iff_exists.mp (show (RunState.tryNewInt8 zeroOps usize32
    (fun _ => true) shortConfig MAX_CTX).isSome by decide)
  have hread : Tokenizer.fromBytes usize32.strict zeroOps fourTokens 4 = .ok fourVocab := rfl
  have hencode : fourVocab.encode zeroOps "" true false = some [BOS] := by decide
  obtain ⟨hfull, hdevice⟩ := generation_bounds parse_shortModel length_shortFile hread hencode
    (fun l => List.Perm.refl l) (fun _ => picked_shortModel) fun _ => true
  exact ⟨⟨s, hfull s hs⟩, s8, hdevice s8 hs8⟩

/-- **The device runs past its cache**: with a context of eight the loop still makes a call
at position eight. -/
theorem short_context_overrun :
    Model.parse usize32 (blankFile shortConfig) = .ok shortModel ∧
      Tokenizer.fromBytes usize32.strict zeroOps fourTokens shortModel.config.vocabSize =
        .ok fourVocab ∧
      fourVocab.encode zeroOps "" true false = some [BOS] ∧
      Picked zeroOps usize32 (fun l => l) shortModel 0 ∧
      ∃ s8, RunState.tryNewInt8 zeroOps usize32 (fun _ => true) shortModel.config MAX_CTX =
          some s8 ∧
        ∃ c ∈ (runLoop fourVocab [BOS] fun _ => 0).calls, ¬ InBounds shortModel s8 c := by
  refine ⟨parse_shortModel, rfl, by decide, picked_shortModel, ?_⟩
  obtain ⟨s8, hs8⟩ := Option.isSome_iff_exists.mp (show (RunState.tryNewInt8 zeroOps usize32
    (fun _ => true) shortConfig MAX_CTX).isSome by decide)
  refine ⟨s8, hs8, (0, 8), by decide, fun h => ?_⟩
  have hctx : s8.ctx = 8 := ctx_of_tryWithCache hs8
  exact absurd (hctx ▸ h.2) (lt_irrefl 8)

end TinyLlm
