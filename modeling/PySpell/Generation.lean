/-
# Generation

The loops that generate text: `run_loop` on the device, `Generator::step` in the browser,
called until it returns nothing, and `node_generate`.  A round runs the model on a token,
takes the next token from the prompt or from the sampler, and appends the text of its piece
once the prompt is over.  What the sampler picks at each position is an argument.

Every loop decodes one piece at a time.  That gives the text of all the pieces exactly when
no character is split between them (`generated_text_iff`); the training code decodes the
bytes of all tokens at once.
-/
import PySpell.Lib.Lossy
import PySpell.Tokenizer

open Text

namespace TinyLlm

variable {F : Type}

/-- The token after the one at `pos`: from the prompt, or the one that is picked. -/
def nextToken (promptTokens : List ℕ) (pick : ℕ → ℕ) (pos : ℕ) : ℕ :=
  if pos + 1 < promptTokens.length then promptTokens.getD (pos + 1) 0 else pick pos

/-! ## The loops of the device and of the node -/

/-- The variables of the loop, with what the model was run on and the tokens whose pieces
were appended, each with the one before it, which only the theorems look at. -/
structure Loop where
  pos : ℕ
  token : ℕ
  out : String
  calls : List (ℕ × ℕ)
  emitted : List (ℕ × ℕ)

/-- The loop before its first round. -/
def Loop.start (promptTokens : List ℕ) : Loop := ⟨0, promptTokens.getD 0 0, "", [], []⟩

/-- `while pos < max_steps`, with a bound on the number of rounds. -/
def Loop.run (t : Tokenizer F) (promptTokens : List ℕ) (pick : ℕ → ℕ) (maxSteps : ℕ) :
    ℕ → Loop → Loop
  | 0, s => s
  | fuel + 1, s =>
    if maxSteps ≤ s.pos then s
    else
      let next := nextToken promptTokens pick s.pos
      let s := { s with pos := s.pos + 1, calls := s.calls ++ [(s.token, s.pos)] }
      if next = BOS ∨ next = EOS then s
      else
        let s := if promptTokens.length ≤ s.pos then
            { s with
              out := s.out ++ fromUtf8Lossy (t.decode s.token next)
              emitted := s.emitted ++ [(s.token, next)] }
          else s
        run t promptTokens pick maxSteps fuel { s with token := next }

def MAX_CTX : ℕ := 32
def MAX_NEW : ℕ := 24

/-- `run_loop`, up to its report. -/
def runLoop (t : Tokenizer F) (promptTokens : List ℕ) (pick : ℕ → ℕ) : Loop :=
  let maxSteps := min (promptTokens.length + MAX_NEW) MAX_CTX
  Loop.run t promptTokens pick maxSteps maxSteps (Loop.start promptTokens)

/-- The loop of `node_generate`. -/
def nodeGenerate (t : Tokenizer F) (seqLen : ℕ) (promptTokens : List ℕ) (pick : ℕ → ℕ) : Loop :=
  let maxSteps := min (promptTokens.length + 24) seqLen
  Loop.run t promptTokens pick maxSteps maxSteps (Loop.start promptTokens)

/-! ## The generator of the browser -/

/-- `Generator`, without the model, the cache and the sampler. -/
structure Generator (F : Type) where
  tok : Tokenizer F
  promptTokens : List ℕ
  pos : ℕ
  token : ℕ
  maxSteps : ℕ
  done : Bool
  calls : List (ℕ × ℕ)
  emitted : List (ℕ × ℕ)

namespace Generator

/-- `new`, for a prompt that is encoded. -/
def new (tok : Tokenizer F) (seqLen : ℕ) (promptTokens : List ℕ) (maxTokens : ℕ) : Generator F :=
  { tok, promptTokens, pos := 0, token := promptTokens.getD 0 0
    maxSteps := if maxTokens = 0 then seqLen else min maxTokens seqLen
    done := false, calls := [], emitted := [] }

/-- `step`: the text of a piece, none of the prompt, and nothing at the end. -/
def step (g : Generator F) (pick : ℕ → ℕ) : Option String × Generator F :=
  if g.done ∨ g.maxSteps ≤ g.pos then (none, { g with done := true })
  else
    let next := nextToken g.promptTokens pick g.pos
    let g := { g with pos := g.pos + 1, calls := g.calls ++ [(g.token, g.pos)] }
    if next = BOS ∨ next = EOS then (none, { g with done := true })
    else
      let piece := g.tok.decode g.token next
      let inPrompt := g.pos < g.promptTokens.length
      if inPrompt then (some "", { g with token := next })
      else
        (some (fromUtf8Lossy piece),
          { g with token := next, emitted := g.emitted ++ [(g.token, next)] })

/-- What so many calls of `step` return, up to the first that returns nothing. -/
def stream (pick : ℕ → ℕ) : ℕ → Generator F → String × Generator F
  | 0, g => ("", g)
  | n + 1, g =>
    match g.step pick with
    | (none, g) => ("", g)
    | (some s, g) =>
      let (rest, g) := stream pick n g
      (s ++ rest, g)

end Generator

/-! ## Pieces and their text -/

/-- The pieces of tokens, each behind the one before it. -/
def pieces (t : Tokenizer F) (emitted : List (ℕ × ℕ)) : List (List UInt8) :=
  emitted.map fun p => t.decode p.1 p.2

/-- The text of pieces that are decoded one by one. -/
def pieceText (t : Tokenizer F) (emitted : List (ℕ × ℕ)) : String :=
  String.ofList ((pieces t emitted).flatMap lossy)

theorem pieceText_append (t : Tokenizer F) (emitted more : List (ℕ × ℕ)) :
    pieceText t (emitted ++ more) = pieceText t emitted ++ pieceText t more := by
  rw [pieceText, pieces, List.map_append, List.flatMap_append, String.ofList_append]
  rfl

theorem pieceText_singleton (t : Tokenizer F) (prev next : ℕ) :
    pieceText t [(prev, next)] = fromUtf8Lossy (t.decode prev next) := by
  rw [pieceText, pieces, List.map_singleton, List.flatMap_singleton, fromUtf8Lossy_eq]

/-- **The text of the pieces** is the text of all their bytes when no character is split. -/
theorem pieceText_eq_iff (t : Tokenizer F) (emitted : List (ℕ × ℕ)) :
    pieceText t emitted = fromUtf8Lossy (pieces t emitted).flatten ↔
      NoSplit (pieces t emitted) := by
  rw [pieceText, fromUtf8Lossy_eq, String.ofList_inj]
  exact lossy_flatten_iff _

/-! ## What the loops append -/

/-- A round appends the text of the piece that it emits. -/
theorem Loop.run_out {t : Tokenizer F} {promptTokens : List ℕ} {pick : ℕ → ℕ} {maxSteps : ℕ}
    (fuel : ℕ) {s : Loop} (h : s.out = pieceText t s.emitted) :
    (Loop.run t promptTokens pick maxSteps fuel s).out =
      pieceText t (Loop.run t promptTokens pick maxSteps fuel s).emitted := by
  induction fuel generalizing s with
  | zero => exact h
  | succ fuel ih =>
    rw [Loop.run]
    dsimp only
    split_ifs
    · exact h
    · exact h
    · apply ih
      rw [pieceText_append, ← h, pieceText_singleton]
    · exact ih h

namespace Generator

/-- A call returns the text of what it emits. -/
theorem step_emitted (g : Generator F) (pick : ℕ → ℕ) :
    (g.step pick).2.tok = g.tok ∧ ∃ more, (g.step pick).2.emitted = g.emitted ++ more ∧
      pieceText g.tok more = (g.step pick).1.getD "" := by
  rw [step]
  dsimp only
  split_ifs
  · exact ⟨rfl, [], (List.append_nil _).symm, rfl⟩
  · exact ⟨rfl, [], (List.append_nil _).symm, rfl⟩
  · exact ⟨rfl, [], (List.append_nil _).symm, rfl⟩
  · exact ⟨rfl, _, rfl, pieceText_singleton _ _ _⟩

/-- **The calls return the text of what they emit**, piece by piece. -/
theorem stream_emitted (pick : ℕ → ℕ) (n : ℕ) (g : Generator F) :
    ∃ more, (g.stream pick n).2.emitted = g.emitted ++ more ∧
      (g.stream pick n).1 = pieceText g.tok more := by
  induction n generalizing g with
  | zero => exact ⟨[], (List.append_nil _).symm, rfl⟩
  | succ n ih =>
    obtain ⟨htok, more, hmore, htext⟩ := g.step_emitted pick
    rw [stream]
    rcases hstep : g.step pick with ⟨_ | s, g'⟩
    · rw [hstep] at hmore htext
      exact ⟨more, hmore, htext.symm⟩
    · rw [hstep] at hmore htext htok
      obtain ⟨more', hmore', htext'⟩ := ih g'
      refine ⟨more ++ more', ?_, ?_⟩
      · change (g'.stream pick n).2.emitted = g.emitted ++ (more ++ more')
        rw [hmore', hmore, List.append_assoc]
      · change s ++ (g'.stream pick n).1 = pieceText g.tok (more ++ more')
        rw [pieceText_append, htext, htext', htok]
        rfl

end Generator

/-- Text that is what the bytes of all the pieces say. -/
def IsWhole (t : Tokenizer F) (text : String) (emitted : List (ℕ × ℕ)) : Prop :=
  text = fromUtf8Lossy (pieces t emitted).flatten

/-- **When streamed text is the whole text**: in every run of the three loops, whatever is
picked, the text that was appended is that of all the bytes exactly when no character is
split between the pieces. -/
theorem generated_text_iff (t : Tokenizer F) (promptTokens : List ℕ) (pick : ℕ → ℕ)
    (seqLen : ℕ) :
    (∀ maxTokens n,
      IsWhole t ((Generator.new t seqLen promptTokens maxTokens).stream pick n).1
          ((Generator.new t seqLen promptTokens maxTokens).stream pick n).2.emitted ↔
        NoSplit (pieces t
          ((Generator.new t seqLen promptTokens maxTokens).stream pick n).2.emitted)) ∧
    (IsWhole t (runLoop t promptTokens pick).out (runLoop t promptTokens pick).emitted ↔
      NoSplit (pieces t (runLoop t promptTokens pick).emitted)) ∧
    (IsWhole t (nodeGenerate t seqLen promptTokens pick).out
        (nodeGenerate t seqLen promptTokens pick).emitted ↔
      NoSplit (pieces t (nodeGenerate t seqLen promptTokens pick).emitted)) := by
  refine ⟨?_, ?_, ?_⟩
  · intro maxTokens n
    obtain ⟨more, hmore, htext⟩ :=
      (Generator.new t seqLen promptTokens maxTokens).stream_emitted pick n
    -- nothing was emitted before the first call
    have hemitted : ((Generator.new t seqLen promptTokens maxTokens).stream pick n).2.emitted =
        more := hmore
    have htext' : ((Generator.new t seqLen promptTokens maxTokens).stream pick n).1 =
        pieceText t more := htext
    rw [IsWhole, htext', hemitted]
    exact pieceText_eq_iff t more
  · rw [IsWhole, runLoop, Loop.run_out _ rfl]
    exact pieceText_eq_iff t _
  · rw [IsWhole, nodeGenerate, Loop.run_out _ rfl]
    exact pieceText_eq_iff t _

/-- The byte tokens of the letter `å`, which takes two bytes. -/
def twoByteVocab : Tokenizer UInt32 :=
  ⟨[[], [], [], [0x3c, 0x30, 0x78, 0x43, 0x33, 0x3e], [0x3c, 0x30, 0x78, 0x41, 0x35, 0x3e]],
    [0, 0, 0, 0, 0], rfl⟩

/-- **A letter of two bytes** becomes two replacement characters. -/
theorem streamed_letter_split :
    ((Generator.new twoByteVocab 8 [BOS] 0).stream (fun pos => [3, 4, EOS].getD pos 0) 3).1 =
        "\uFFFD\uFFFD" ∧
      ¬ IsWhole twoByteVocab
        ((Generator.new twoByteVocab 8 [BOS] 0).stream (fun pos => [3, 4, EOS].getD pos 0) 3).1
        ((Generator.new twoByteVocab 8 [BOS] 0).stream
          (fun pos => [3, 4, EOS].getD pos 0) 3).2.emitted := by
  have hout : ((Generator.new twoByteVocab 8 [BOS] 0).stream
      (fun pos => [3, 4, EOS].getD pos 0) 3).1 = "\uFFFD\uFFFD" := by decide
  refine ⟨hout, ?_⟩
  rw [IsWhole, hout]
  decide

end TinyLlm
