/-
# Edit directives

The model answers an edit with a directive in one line of text, and the page applies it to
the lines of the program: `@@` replaces a text in one line, `DEL` and `MOVE` take a line out
and put it elsewhere, and `RENAME` replaces a word in all of them.  `parseDirective` finds
the directive, `applyDirective` carries it out.

The pattern of `RENAME` is a regular expression made from the word.  `esc` escapes all that
has a meaning in one, so the pattern is the word between two word boundaries
(`regExp_word`).  The replacement is not escaped: `$$`, `$&` and two more stand for other
texts there, and this is the only way in which an edit changes more than it should
(`applyDirective_honest_iff`).
-/
import Mathlib.Data.List.InsertIdx
import Mathlib.Data.List.Perm.Basic
import PySpell.Lib.Split
import PySpell.Lib.Substitute

open Substitute

namespace Edit

/-! ## Replacement texts -/

/-- `GetSubstitution`, of a pattern without groups: what a replacement text stands for. -/
def expand : List Char → Match Char → List Char
  | '$' :: '$' :: b, m => '$' :: expand b m
  | '$' :: '&' :: b, m => m.text ++ expand b m
  | '$' :: '`' :: b, m => m.before ++ expand b m
  | '$' :: '\'' :: b, m => m.after ++ expand b m
  | c :: b, m => c :: expand b m
  | [], _ => []

/-- `s.replace(a, b)`, with a text for a pattern: what the first occurrence becomes. -/
def replaceText (a : List Char) (f : Match Char → List Char) (s : List Char) : List Char :=
  replaceFirst (fixed a) f s

/-! ## Regular expressions -/

/-- The characters with a meaning in a regular expression. -/
def syntaxChars : List Char :=
  ['.', '*', '+', '?', '^', '$', '{', '}', '(', ')', '|', '[', ']', '\\']

/-- `esc`: a backslash in front of each of them. -/
def esc (s : List Char) : List Char := replaceAll (single (· ∈ syntaxChars)) (expand ['\\', '$', '&']) s

/-- What the patterns of the page are made of. -/
inductive Atom where
  | char (c : Char)
  | boundary
  deriving DecidableEq

/-- `new RegExp`, for patterns of characters, escaped characters and `\b`. -/
def regExp : List Char → Option (List Atom)
  | [] => some []
  | '\\' :: 'b' :: rest => (regExp rest).map (.boundary :: ·)
  | '\\' :: c :: rest =>
    if c ∈ syntaxChars then (regExp rest).map (.char c :: ·) else none
  | c :: rest => if c ∈ syntaxChars then none else (regExp rest).map (.char c :: ·)

/-- `\w`. -/
def isWord (c : Char) : Bool := c.isAlphanum || c = '_'

/-- `\b`: a word character on one side and none on the other. -/
def atBoundary (before rest : List Char) : Bool :=
  (before.getLast?.any isWord) != (rest.head?.any isWord)

/-- How much the atoms match. -/
def matchAtoms : List Atom → List Char → List Char → Option ℕ
  | [], _, _ => some 0
  | .boundary :: as, before, rest => if atBoundary before rest then matchAtoms as before rest else none
  | .char _ :: _, _, [] => none
  | .char c :: as, before, x :: rest =>
    if x = c then (matchAtoms as (before ++ [x]) rest).map (· + 1) else none

theorem matchAtoms_le (as : List Atom) : ∀ (before rest : List Char) (n : ℕ),
    matchAtoms as before rest = some n → n ≤ rest.length := by
  induction as with
  | nil =>
    intro before rest n h
    rw [← Option.some_inj.mp h]
    exact Nat.zero_le _
  | cons a as ih =>
    intro before rest n h
    cases a with
    | boundary =>
      rw [matchAtoms] at h
      split_ifs at h with hb
      exact ih before rest n h
    | char c =>
      cases rest with
      | nil => cases h
      | cons x rest =>
        rw [matchAtoms] at h
        split_ifs at h with hc
        obtain ⟨k, hk, rfl⟩ := Option.map_eq_some_iff.mp h
        exact Nat.succ_le_succ (ih _ rest k hk)

/-- A regular expression as a pattern. -/
def ofAtoms (as : List Atom) : Pattern Char := ⟨matchAtoms as, matchAtoms_le as⟩

/-! ## Directives -/

/-- A directive; each has the text it looks for, and most a second one. -/
inductive Directive where
  | replace (a b : List Char)
  | del (a : List Char)
  | rename (a b : List Char)
  | move (a b : List Char)
  deriving DecidableEq

/-- What `.` does not match. -/
def isLineEnd (c : Char) : Bool :=
  c = '\n' || c = '\r' || c = Char.ofNat 0x2028 || c = Char.ofNat 0x2029

/-- `(.*?) ==> ` and a rest of which `ok` holds. -/
def cutArrow (ok : List Char → Bool) : List Char → Option (List Char × List Char)
  | [] => none
  | c :: s =>
    if " ==> ".toList <+: c :: s ∧ ok ((c :: s).drop 5) = true then some ([], (c :: s).drop 5)
    else if isLineEnd c then none
    else (cutArrow ok s).map fun (a, b) => (c :: a, b)

/-- The text behind a prefix. -/
def behind (pre : String) (l : List Char) : Option (List Char) :=
  if pre.toList <+: l then some (l.drop pre.length) else none

/-- `(.*)$`. -/
def sameLine (s : List Char) : Bool := s.all (!isLineEnd ·)

/-- The directive in a line. -/
def parseLine (l : List Char) : Option Directive :=
  let replace := (behind "@@ " l).bind fun s =>
    (cutArrow (fun _ => true) s).map fun (a, b) => Directive.replace a b
  let del := (behind "DEL " l).bind fun s => if s = [] then none else some (Directive.del s)
  let rename := (behind "RENAME " l).bind fun s =>
    (cutArrow sameLine s).map fun (a, b) => Directive.rename a b
  let move := (behind "MOVE " l).bind fun s =>
    (cutArrow sameLine s).map fun (a, b) => Directive.move a b
  replace <|> del <|> rename <|> move

/-- `parseDirective`: the first line with a directive. -/
def parseDirective (t : List Char) : Option Directive :=
  (Split.pieces (Split.str ['\n']) t).findSome? parseLine

/-- What an edit reports. -/
inductive Status where
  | replaced (line : ℕ)
  | deleted (line : ℕ)
  | renamed (a b : List Char) (count : ℕ)
  | moved (line : ℕ)
  deriving DecidableEq

/-- `JSON.stringify` of a text. -/
def stringify (s : List Char) : String :=
  let char (c : Char) : List Char :=
    if c = '"' ∨ c = '\\' then ['\\', c]
    else if c = Char.ofNat 8 then ['\\', 'b']
    else if c = Char.ofNat 12 then ['\\', 'f']
    else if c = '\n' then ['\\', 'n']
    else if c = '\r' then ['\\', 'r']
    else if c = '\t' then ['\\', 't']
    else if c.toNat < 16 then "\\u000".toList ++ Nat.toDigits 16 c.toNat
    else if c.toNat < 32 then "\\u00".toList ++ Nat.toDigits 16 c.toNat
    else [c]
  String.ofList ('"' :: s.flatMap char ++ ['"'])

/-- The text of a report. -/
def Status.text : Status → String
  | .replaced line => s!"replaced line {line}"
  | .deleted line => s!"deleted line {line}"
  | .renamed a b count => s!"renamed {stringify a}→{stringify b} in {count} line(s)"
  | .moved line => s!"moved after line {line}"

/-- `lines[j].includes(n)`. -/
def includes (line n : List Char) : Bool := decide (n <:+: line)

/-- `find`: the first line with the text, from `best` on and around. -/
def find (lines : List (List Char)) (best : ℕ) (n : List Char) : Option ℕ :=
  (List.range lines.length).findSome? fun o =>
    let j := (best + o) % lines.length
    if includes (lines.getD j []) n then some j else none

/-- `applyDirective`: the lines that it leaves and the status that it returns, or an error
of `new RegExp`. -/
def applyDirective (lines : List (List Char)) (d : Directive) (best : ℕ) :
    Option (List (List Char) × Option Status) :=
  match d with
  | .replace a b =>
    match find lines best a with
    | none => some (lines, none)
    | some j =>
      some (lines.set j (replaceText a (expand b) (lines.getD j [])), some (.replaced (j + 1)))
  | .del a =>
    match find lines best a with
    | none => some (lines, none)
    | some j => some (lines.eraseIdx j, some (.deleted (j + 1)))
  | .rename a b => do
    let re ← regExp (['\\', 'b'] ++ esc a ++ ['\\', 'b'])
    let out := lines.map (replaceAll (ofAtoms re) (expand b))
    let c := (lines.zip out).countP fun (before, after) => after ≠ before
    some (out, if c ≠ 0 then some (.renamed a b c) else none)
  | .move a b =>
    match find lines best a with
    | none => some (lines, none)
    | some s =>
      let ln := lines.getD s []
      let rest := lines.eraseIdx s
      match rest.findIdx? (includes · b) with
      | none => some (rest.insertIdx s ln, none)
      | some dj => some (rest.insertIdx (dj + 1) ln, some (.moved (dj + 1)))

/-! ## The pattern of a word -/

/-- A word between two word boundaries. -/
def word (a : List Char) : Pattern Char := ofAtoms (.boundary :: (a.map .char ++ [.boundary]))

theorem esc_eq (s : List Char) :
    esc s = s.flatMap fun c => if c ∈ syntaxChars then ['\\', c] else [c] := by
  have hsubst : ∀ (m : Match Char) (c : Char), m.text = [c] →
      expand ['\\', '$', '&'] m = ['\\', c] := by
    intro m c hm
    simp [expand, hm]
  rw [esc, replaceAll_single (g := fun c => ['\\', c]) hsubst]
  simp only [decide_eq_true_eq]

/-- An escaped text stands for its characters. -/
theorem regExp_esc (s rest : List Char) :
    regExp (esc s ++ rest) = (regExp rest).map (s.map .char ++ ·) := by
  rw [esc_eq]
  induction s with
  | nil =>
    show regExp rest = (regExp rest).map id
    rw [Option.map_id, id]
  | cons c s ih =>
    rw [List.flatMap_cons, List.append_assoc]
    have hmap : (regExp rest).map (List.map Atom.char (c :: s) ++ ·) =
        ((regExp rest).map (s.map Atom.char ++ ·)).map (.char c :: ·) := by
      rw [Option.map_map]
      rfl
    rw [hmap, ← ih]
    by_cases hc : c ∈ syntaxChars
    · have hb : c ≠ 'b' := fun h => absurd (h ▸ hc) (by decide)
      rw [if_pos hc]
      simp only [List.cons_append, List.nil_append]
      rw [regExp, if_pos hc]
      exact hb
    · have hslash : c ≠ '\\' := fun h => hc (h ▸ by decide)
      rw [if_neg hc]
      simp only [List.cons_append, List.nil_append]
      rw [regExp, if_neg hc]
      · intro _ h
        exact absurd h hslash
      · intro _ _ h
        exact absurd h hslash

/-- **The escaped word is a pattern for the word**, whatever characters it has. -/
theorem regExp_word (a : List Char) :
    regExp (['\\', 'b'] ++ esc a ++ ['\\', 'b']) = some (.boundary :: (a.map .char ++ [.boundary])) := by
  rw [List.append_assoc]
  show (regExp (esc a ++ ['\\', 'b'])).map (.boundary :: ·) = _
  rw [regExp_esc]
  rfl

/-- Where a word matches. -/
theorem length?_word {a before rest : List Char} {n : ℕ}
    (h : (word a).length? before rest = some n) :
    n = a.length ∧ a <+: rest ∧ atBoundary before rest = true ∧
      atBoundary (before ++ a) (rest.drop a.length) = true := by
  have hchars : ∀ (a before rest : List Char) (n : ℕ),
      matchAtoms (a.map .char ++ [.boundary]) before rest = some n →
        n = a.length ∧ a <+: rest ∧ atBoundary (before ++ a) (rest.drop a.length) = true := by
    intro a
    induction a with
    | nil =>
      intro before rest n h
      simp only [List.map_nil, List.nil_append, matchAtoms] at h
      split_ifs at h with hb
      rw [List.append_nil]
      exact ⟨(Option.some_inj.mp h).symm, List.nil_prefix, hb⟩
    | cons c a ih =>
      intro before rest n h
      cases rest with
      | nil => cases h
      | cons x rest =>
        simp only [List.map_cons, List.cons_append, matchAtoms] at h
        split_ifs at h with hc
        obtain ⟨k, hk, rfl⟩ := Option.map_eq_some_iff.mp h
        obtain ⟨rfl, hpre, hb⟩ := ih _ rest k hk
        rw [List.append_assoc] at hb
        exact ⟨rfl, List.cons_prefix_cons.mpr ⟨hc.symm, hpre⟩, hc ▸ hb⟩
  change (if atBoundary before rest then matchAtoms (a.map .char ++ [.boundary]) before rest
    else none) = some n at h
  split_ifs at h with hb
  obtain ⟨hn, hpre, hend⟩ := hchars a before rest n h
  exact ⟨hn, hpre, hb, hend⟩

/-- A match of a word: the word in the line, at two boundaries. -/
theorem of_mem_word {a line : List Char} {m : Match Char} (h : m ∈ matches? (word a) line) :
    m.text = a ∧ m.before ++ (a ++ m.after) = line ∧
      atBoundary m.before (a ++ m.after) = true ∧ atBoundary (m.before ++ a) m.after = true := by
  obtain ⟨hwhole, hat⟩ := of_mem_matches? h
  obtain ⟨hlen, hpre, hstart, hend⟩ := length?_word hat
  have htext : a = m.text := (List.prefix_of_prefix_length_le hpre
    (List.prefix_append m.text m.after) hlen.ge).eq_of_length hlen.symm
  subst htext
  rw [List.drop_left] at hend
  exact ⟨rfl, hwhole, hstart, hend⟩

/-! ## What a replacement text stands for -/

/-- How many word characters a text has. -/
def words (s : List Char) : ℕ := s.countP isWord

/-- A text without `$` stands for itself. -/
theorem expand_of_not_mem {b : List Char} (h : '$' ∉ b) (m : Match Char) : expand b m = b := by
  induction b with
  | nil => rfl
  | cons c b ih =>
    have hc : c ≠ '$' := fun hc => h (hc ▸ List.mem_cons_self)
    rw [expand, ih fun hb => h (List.mem_cons_of_mem _ hb)]
    all_goals
      intro _ hd
      exact absurd hd hc

theorem words_cons {c : Char} (h : isWord c = false) (s : List Char) : words (c :: s) = words s := by
  rw [words, List.countP_cons_of_neg (by rw [h]; decide), words]

theorem words_append (s t : List Char) : words (s ++ t) = words s + words t :=
  List.countP_append

/-- The two characters that stand for another text are no word characters. -/
theorem words_token {c : Char} (h : isWord c = false) (s : List Char) :
    words ('$' :: c :: s) = words s := by
  rw [words_cons (by decide), words_cons h]

/-- What the text stands for has the word characters of the text at least. -/
theorem words_le_expand (b : List Char) (m : Match Char) : words b ≤ words (expand b m) := by
  fun_induction expand b m with
  | case1 b m ih => rwa [words_token (by decide), words_cons (by decide)]
  | case2 b m ih =>
    rw [words_token (by decide), words_append]
    exact ih.trans (Nat.le_add_left _ _)
  | case3 b m ih =>
    rw [words_token (by decide), words_append]
    exact ih.trans (Nat.le_add_left _ _)
  | case4 b m ih =>
    rw [words_token (by decide), words_append]
    exact ih.trans (Nat.le_add_left _ _)
  | case5 c b m _ _ _ _ ih =>
    rw [words, words, List.countP_cons, List.countP_cons]
    exact Nat.add_le_add_right ih _
  | case6 m => exact le_rfl

/-- A text that gains no word before a match that follows a word, and none after one that a
word follows, has neither of the two: it stands for the same everywhere. -/
theorem expand_congr_of_words {b : List Char} {m m' : Match Char} (hm : words (expand b m) = words b)
    (hafter : 0 < words m.after) (hm' : words (expand b m') = words b)
    (hbefore : 0 < words m'.before) {x y : Match Char} (hxy : x.text = y.text) :
    expand b x = expand b y := by
  fun_induction expand b x with
  | case1 b x ih =>
    rw [expand, words_token (by decide), words_cons (by decide)] at hm hm'
    rw [expand, ih hm hm' hxy]
  | case2 b x ih =>
    have hrest := words_le_expand b m
    have hrest' := words_le_expand b m'
    rw [expand, words_token (by decide), words_append] at hm hm'
    rw [expand, hxy, ih (by omega) (by omega) hxy]
  | case3 b x ih =>
    -- the text before the match is put in, and it has a word
    have hrest' := words_le_expand b m'
    rw [expand, words_token (by decide), words_append] at hm'
    omega
  | case4 b x ih =>
    have hrest := words_le_expand b m
    rw [expand, words_token (by decide), words_append] at hm
    omega
  | case5 c b x h1 h2 h3 h4 ih =>
    have hcons : ∀ z, expand (c :: b) z = c :: expand b z := fun z => by
      rw [expand]
      · exact h1
      · exact h2
      · exact h3
      · exact h4
    rw [hcons, words, words, List.countP_cons, List.countP_cons] at hm hm'
    rw [hcons, ih (Nat.add_right_cancel hm) (Nat.add_right_cancel hm') hxy]
  | case6 x => rfl

/-! ## Words at a boundary -/

/-- A boundary is next to a word, so the text behind it and what is before a later place
have one. -/
theorem words_pos_of_boundary {s : List Char} {i : ℕ} (hi : i ≤ s.length)
    (h : atBoundary (s.take i) (s.drop i) = true) :
    (∀ j, i < j → 0 < words (s.take j)) ∧ ∀ j, j < i → 0 < words (s.drop j) := by
  -- the word character stands right before the place or right behind it
  obtain ⟨k, hk, hword, hki⟩ : ∃ k, ∃ hk : k < s.length, isWord s[k] = true ∧ (k = i ∨ k + 1 = i) := by
    have hword : (s.take i).getLast?.any isWord = true ∨ (s.drop i).head?.any isWord = true := by
      unfold atBoundary at h
      revert h
      cases (s.take i).getLast?.any isWord <;> cases (s.drop i).head?.any isWord <;> decide
    rcases hword with hlast | hhead
    · obtain ⟨c, hc, hword⟩ := (Option.any_eq_true _ _).mp hlast
      rw [List.getLast?_eq_getElem?, List.length_take, min_eq_left hi] at hc
      obtain ⟨hk, rfl⟩ := List.getElem?_eq_some_iff.mp hc
      rw [List.length_take] at hk
      rw [List.getElem_take] at hword
      exact ⟨i - 1, by omega, hword, .inr (by omega)⟩
    · obtain ⟨c, hc, hword⟩ := (Option.any_eq_true _ _).mp hhead
      rw [List.head?_drop] at hc
      obtain ⟨hk, rfl⟩ := List.getElem?_eq_some_iff.mp hc
      exact ⟨i, hk, hword, .inl rfl⟩
  constructor
  · intro j hj
    exact List.countP_pos_iff.mpr ⟨s[k], List.mem_take_iff_getElem.mpr ⟨k, by omega, rfl⟩, hword⟩
  · intro j hj
    refine List.countP_pos_iff.mpr ⟨s[k], ?_, hword⟩
    exact List.mem_drop_iff_getElem.mpr ⟨k - j, by omega, by congr 1; omega⟩

/-- Of two matches in a line, the later one follows a word, and a word follows the earlier one. -/
theorem words_between {a line : List Char} {m m' : Match Char} (hm : m ∈ matches? (word a) line)
    (hm' : m' ∈ matches? (word a) line) (hlt : m.before.length < m'.before.length) :
    0 < words m.after ∧ 0 < words m'.before := by
  obtain ⟨-, hline, hstart, -⟩ := of_mem_word hm
  obtain ⟨-, hline', -, hend'⟩ := of_mem_word hm'
  have hbefore : m'.before = line.take m'.before.length := by
    rw [← hline', List.take_left]
  have hafter : m.after = line.drop (m.before ++ a).length := by
    rw [← hline, ← List.append_assoc, List.drop_left]
  constructor
  · rw [hafter]
    have hcut : atBoundary (line.take (m'.before ++ a).length)
        (line.drop (m'.before ++ a).length) = true := by
      rw [← hline', ← List.append_assoc, List.take_left, List.drop_left]
      exact hend'
    refine (words_pos_of_boundary ?_ hcut).2 _ ?_
    · rw [← hline', ← List.append_assoc]
      exact (List.prefix_append _ _).length_le
    · rw [List.length_append, List.length_append]
      exact Nat.add_lt_add_right hlt _
  · rw [hbefore]
    have hcut : atBoundary (line.take m.before.length) (line.drop m.before.length) = true := by
      rw [← hline, List.take_left, List.drop_left]
      exact hstart
    refine (words_pos_of_boundary ?_ hcut).1 _ hlt
    rw [← hline, List.length_append]
    exact Nat.le_add_right _ _

/-- **A word is replaced literally** exactly if the text stands for itself at every match. -/
theorem replaceAll_word_iff (a b line : List Char) :
    replaceAll (word a) (expand b) line = replaceAll (word a) (fun _ => b) line ↔
      ∀ m ∈ matches? (word a) line, expand b m = b := by
  refine ⟨fun h => eq_of_replaceAll_const ?_ h, fun h => replaceAll_congr h⟩
  -- no match gains a word character
  have hwords : ∀ m ∈ matches? (word a) line, words (expand b m) = words b := fun m hm =>
    (countP_eq_of_replaceAll_eq isWord (fun m _ => words_le_expand b m) h m hm).symm
  have hlater : ∀ m ∈ matches? (word a) line, ∀ m' ∈ matches? (word a) line,
      m.before.length < m'.before.length → expand b m = expand b m' := by
    intro m hm m' hm' hlt
    obtain ⟨hafter, hbefore⟩ := words_between hm hm' hlt
    exact expand_congr_of_words (hwords m hm) hafter (hwords m' hm') hbefore
      ((of_mem_word hm).1.trans (of_mem_word hm').1.symm)
  intro m hm m' hm'
  rcases Nat.lt_trichotomy m.before.length m'.before.length with hlt | heq | hgt
  · exact hlater m hm m' hm' hlt
  · -- matches at one place are the same
    obtain ⟨htext, hline, -, -⟩ := of_mem_word hm
    obtain ⟨htext', hline', -, -⟩ := of_mem_word hm'
    obtain ⟨hbefore, hrest⟩ := List.append_inj (hline.trans hline'.symm) heq
    have hafter := List.append_cancel_left hrest
    have hsame : m = m' := by
      cases m
      cases m'
      simp_all only
    rw [hsame]
  · exact (hlater m' hm' m hm hgt).symm

/-! ## What an edit changes -/

/-- The line that `find` finds. -/
theorem find_eq_some {lines : List (List Char)} {best j : ℕ} {n : List Char}
    (h : find lines best n = some j) :
    j < lines.length ∧ n <:+: lines.getD j [] := by
  obtain ⟨o, ho, hj⟩ := List.exists_of_findSome?_eq_some h
  have hpos := Nat.zero_lt_of_lt (List.mem_range.mp ho)
  dsimp only at hj
  split_ifs at hj with hincludes
  obtain rfl := Option.some_inj.mp hj
  exact ⟨Nat.mod_lt _ hpos, of_decide_eq_true hincludes⟩

/-! ### Honest edits -/

/-- **What an edit should change**: nothing when it fails, one line out for `DEL`, the order
for `MOVE`, and what was found, by the replacement itself, for the other two. -/
structure Honest (lines : List (List Char)) (d : Directive) (best : ℕ)
    (out : List (List Char)) (status : Option Status) : Prop where
  failed : status = none → out = lines
  del : ∀ a, d = .del a → status ≠ none → ∃ j, j < lines.length ∧ a <:+: lines.getD j [] ∧
    out = lines.eraseIdx j
  move : ∀ a b, d = .move a b → out.Perm lines
  replace : ∀ a b, d = .replace a b → ∀ j, find lines best a = some j →
    ∃ m, (matches? (fixed a) (lines.getD j [])).head? = some m ∧
      lines.getD j [] = m.before ++ (a ++ m.after) ∧
      out = lines.set j (m.before ++ (b ++ m.after))
  rename : ∀ a b, d = .rename a b → out = lines.map (replaceAll (word a) fun _ => b)

/-- The replacement of a directive stands for itself wherever it is put in. -/
def Plain (lines : List (List Char)) (best : ℕ) : Directive → Prop
  | .replace a b => ∀ j, find lines best a = some j →
      ∀ m ∈ (matches? (fixed a) (lines.getD j [])).head?, expand b m = b
  | .rename a b => ∀ line ∈ lines, ∀ m ∈ matches? (word a) line, expand b m = b
  | .del _ => True
  | .move _ _ => True

/-- The replacement of a directive. -/
def Directive.text : Directive → List Char
  | .replace _ b => b
  | .rename _ b => b
  | .del _ => []
  | .move _ _ => []

/-- Replacements without `$` stand for themselves. -/
theorem plain_of_not_mem {d : Directive} (h : '$' ∉ d.text) (lines : List (List Char))
    (best : ℕ) : Plain lines best d := by
  cases d with
  | replace a b => exact fun _ _ m _ => expand_of_not_mem h m
  | rename a b => exact fun _ _ m _ => expand_of_not_mem h m
  | del a => trivial
  | move a b => trivial

/-- `@@`. -/
theorem replace_honest_iff (lines : List (List Char)) (a b : List Char) (best : ℕ) :
    ∃ out status, applyDirective lines (.replace a b) best = some (out, status) ∧
      (Honest lines (.replace a b) best out status ↔ Plain lines best (.replace a b)) := by
  unfold applyDirective
  dsimp only
  cases hfind : find lines best a with
  | none =>
    refine ⟨lines, none, rfl, iff_of_true ?_ fun j hj => by rw [hfind] at hj; cases hj⟩
    refine ⟨fun _ => rfl, fun _ h => ?_, fun _ _ h => ?_, fun a' b' h j hj => ?_, fun _ _ h => ?_⟩
    · cases h
    · cases h
    · cases h
      rw [hfind] at hj
      cases hj
    · cases h
  | some j =>
    obtain ⟨hj, hincludes⟩ := find_eq_some hfind
    -- the first occurrence in the line that was found
    obtain ⟨m, hm⟩ := exists_head?_fixed hincludes
    have hmem : m ∈ matches? (fixed a) (lines.getD j []) := List.mem_of_head? hm
    have htext := text_of_mem_fixed hmem
    have hline := (of_mem_matches? hmem).1
    rw [Match.whole, htext] at hline
    refine ⟨_, _, rfl, ?_⟩
    -- the text in its place is the new one just when nothing in it is expanded
    have hplain : Plain lines best (.replace a b) ↔ expand b m = b := by
      constructor
      · exact fun h => h j hfind m hm
      · intro h j' hj' m' hm'
        obtain rfl : j = j' := Option.some_inj.mp (hfind.symm.trans hj')
        obtain rfl : m = m' := Option.some_inj.mp (hm.symm.trans hm')
        exact h
    have hout : replaceText a (expand b) (lines.getD j []) =
        m.before ++ (expand b m ++ m.after) := by
      rw [replaceText, replaceFirst, hm]
    rw [hplain, hout]
    constructor
    · intro h
      obtain ⟨m', hm', -, hset⟩ := h.replace a b rfl j hfind
      obtain rfl : m = m' := Option.some_inj.mp (hm.symm.trans hm')
      have hsame := congrArg (fun l => l.getD j []) hset
      simp only [List.getD_eq_getElem?_getD, List.getElem?_set_self hj, Option.getD_some] at hsame
      exact List.append_cancel_right (List.append_cancel_left hsame)
    · intro h
      refine ⟨fun h => ?_, fun _ h => ?_, fun _ _ h => ?_, fun a' b' h' j' hj' => ?_, fun _ _ h => ?_⟩
      · cases h
      · cases h
      · cases h
      · cases h'
        obtain rfl : j = j' := Option.some_inj.mp (hfind.symm.trans hj')
        exact ⟨m, hm, hline.symm, by rw [h]⟩
      · cases h

/-! ### Deletions and moves -/

/-- `DEL` and `MOVE`. -/
theorem del_honest (lines : List (List Char)) (a : List Char) (best : ℕ) :
    ∃ out status, applyDirective lines (.del a) best = some (out, status) ∧
      Honest lines (.del a) best out status := by
  unfold applyDirective
  dsimp only
  cases hfind : find lines best a with
  | none =>
    refine ⟨lines, none, rfl, fun _ => rfl, fun _ _ h => absurd rfl h, fun _ _ h => ?_,
      fun _ _ h => ?_, fun _ _ h => ?_⟩
    · cases h
    · cases h
    · cases h
  | some j =>
    obtain ⟨hj, hincludes⟩ := find_eq_some hfind
    refine ⟨_, _, rfl, fun h => ?_, fun a' h _ => ?_, fun _ _ h => ?_, fun _ _ h => ?_,
      fun _ _ h => ?_⟩
    · cases h
    · cases h
      exact ⟨j, hj, hincludes, rfl⟩
    · cases h
    · cases h
    · cases h

/-- A line that is taken out and put in again. -/
theorem insertIdx_eraseIdx_perm {lines : List (List Char)} {s k : ℕ} (hs : s < lines.length)
    (hk : k ≤ (lines.eraseIdx s).length) :
    ((lines.eraseIdx s).insertIdx k (lines.getD s [])).Perm lines := by
  have hline : lines.getD s [] = lines[s] := by
    rw [List.getD_eq_getElem?_getD, List.getElem?_eq_getElem hs, Option.getD_some]
  rw [hline]
  exact (List.perm_insertIdx _ _ hk).trans (List.getElem_cons_eraseIdx_perm hs)

theorem move_honest (lines : List (List Char)) (a b : List Char) (best : ℕ) :
    ∃ out status, applyDirective lines (.move a b) best = some (out, status) ∧
      Honest lines (.move a b) best out status := by
  unfold applyDirective
  dsimp only
  cases hfind : find lines best a with
  | none =>
    refine ⟨lines, none, rfl, fun _ => rfl, fun _ h => ?_, fun _ _ _ => .refl lines,
      fun _ _ h => ?_, fun _ _ h => ?_⟩
    · cases h
    · cases h
    · cases h
  | some s =>
    obtain ⟨hs, -⟩ := find_eq_some hfind
    dsimp only
    cases hdest : (lines.eraseIdx s).findIdx? (includes · b) with
    | none =>
      have hback : (lines.eraseIdx s).insertIdx s (lines.getD s []) = lines := by
        rw [List.getD_eq_getElem?_getD, List.getElem?_eq_getElem hs, Option.getD_some]
        exact List.insertIdx_eraseIdx_getElem hs
      refine ⟨_, none, rfl, fun _ => hback, fun _ h => ?_, fun _ _ _ => by rw [hback],
        fun _ _ h => ?_, fun _ _ h => ?_⟩
      · cases h
      · cases h
      · cases h
    | some dj =>
      have hdj : dj < (lines.eraseIdx s).length := (List.findIdx?_eq_some_iff_getElem.mp hdest).1
      refine ⟨_, _, rfl, fun h => ?_, fun _ h => ?_,
        fun _ _ _ => insertIdx_eraseIdx_perm hs hdj, fun _ _ h => ?_, fun _ _ h => ?_⟩
      · cases h
      · cases h
      · cases h
      · cases h

/-- No line that changed: no change. -/
theorem map_eq_self_of_countP {f : List Char → List Char} {lines : List (List Char)}
    (h : (lines.zip (lines.map f)).countP (fun (before, after) => after ≠ before) = 0) :
    lines.map f = lines := by
  induction lines with
  | nil => rfl
  | cons line lines ih =>
    rw [List.map_cons, List.zip_cons_cons, List.countP_cons] at h
    have hsame : f line = line := by
      by_contra hne
      rw [if_pos (decide_eq_true hne)] at h
      cases h
    rw [List.map_cons, hsame, ih (Nat.eq_zero_of_add_eq_zero_right h)]

/-! ### Renamings -/

/-- `RENAME`. -/
theorem rename_honest_iff (lines : List (List Char)) (a b : List Char) (best : ℕ) :
    ∃ out status, applyDirective lines (.rename a b) best = some (out, status) ∧
      (Honest lines (.rename a b) best out status ↔ Plain lines best (.rename a b)) := by
  have hrename : applyDirective lines (.rename a b) best =
      some (lines.map (replaceAll (word a) (expand b)),
        if (lines.zip (lines.map (replaceAll (word a) (expand b)))).countP
            (fun (before, after) => after ≠ before) ≠ 0 then
          some (.renamed a b ((lines.zip (lines.map (replaceAll (word a) (expand b)))).countP
            fun (before, after) => after ≠ before))
        else none) := by
    rw [applyDirective, regExp_word]
    rfl
  refine ⟨_, _, hrename, ?_⟩
  have hplain : Plain lines best (.rename a b) ↔
      lines.map (replaceAll (word a) (expand b)) = lines.map (replaceAll (word a) fun _ => b) := by
    rw [List.map_inj_left]
    exact forall₂_congr fun line _ => (replaceAll_word_iff a b line).symm
  rw [hplain]
  constructor
  · exact fun h => h.rename a b rfl
  · intro h
    refine ⟨fun hnone => ?_, fun _ h => ?_, fun _ _ h => ?_, fun _ _ h => ?_, fun _ _ h' => ?_⟩
    · split_ifs at hnone with hcount
      exact map_eq_self_of_countP (not_not.mp hcount)
    · cases h
    · cases h
    · cases h
    · cases h'
      exact h

/-- **When an edit changes what it should, and that only.** -/
theorem applyDirective_honest_iff (lines : List (List Char)) (d : Directive) (best : ℕ) :
    ∃ out status, applyDirective lines d best = some (out, status) ∧
      (Honest lines d best out status ↔ Plain lines best d) := by
  cases d with
  | replace a b => exact replace_honest_iff lines a b best
  | del a =>
    obtain ⟨out, status, happly, hhonest⟩ := del_honest lines a best
    exact ⟨out, status, happly, iff_of_true hhonest trivial⟩
  | rename a b => exact rename_honest_iff lines a b best
  | move a b =>
    obtain ⟨out, status, happly, hhonest⟩ := move_honest lines a b best
    exact ⟨out, status, happly, iff_of_true hhonest trivial⟩

/-- **A replacement text that loses a character**: two dollar signs go in as one. -/
theorem applyDirective_expands :
    ∃ d out status, parseDirective "@@ x ==> $$".toList = some d ∧
      applyDirective ["x".toList] d 0 = some (out, status) ∧
      ¬ Honest ["x".toList] d 0 out status := by
  refine ⟨.replace ['x'] ['$', '$'], [['$']], some (.replaced 1), by decide, by decide, ?_⟩
  intro h
  obtain ⟨m, -, -, hout⟩ := h.replace ['x'] ['$', '$'] rfl 0 (by decide)
  have hline : ['$'] = m.before ++ (['$', '$'] ++ m.after) := (List.cons.inj hout).1
  have hlength := congrArg List.length hline
  simp only [List.length_append, List.length_cons, List.length_nil] at hlength
  omega

end Edit
