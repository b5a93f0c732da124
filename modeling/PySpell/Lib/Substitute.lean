/-
# Replacing the matches of a pattern

The loop behind `re.sub` and `String.prototype.replace`: a text is read from the left, and
where the pattern matches, the match is taken out and another text put in its place.  A
match is never looked at again, and after an empty match the next character is kept.

`pieces` is the text taken apart, and a replacement only says what each match becomes.  So
what a replacement keeps is the same for all of them (`flatMap_text_pieces`), and two
replacements agree where they agree on every match (`replaceAll_congr`).

A pattern that looks at nothing before the match is a `Lead`.  Its replacements go from match
to match (`Lead.replace_of_some`), and a text may be cut where the pattern does not see the
cut (`Lead.replace_append`).
-/
import Mathlib.Data.List.Basic
import Mathlib.Data.List.Infix
import Mathlib.Tactic.Common

namespace Substitute

variable {α : Type}

/-! ## Patterns and pieces -/

/-- How much matches at a place: from the text before it and the text from there on. -/
structure Pattern (α : Type) where
  length? : List α → List α → Option ℕ
  le_length : ∀ before rest n, length? before rest = some n → n ≤ rest.length

/-- A match in a text. -/
structure Match (α : Type) where
  before : List α
  text : List α
  after : List α

/-- The text that the match is in. -/
def Match.whole (m : Match α) : List α := m.before ++ (m.text ++ m.after)

/-- The match of so much at a place. -/
def Match.at (before rest : List α) (n : ℕ) : Match α := ⟨before, rest.take n, rest.drop n⟩

/-- What a text is taken apart into. -/
inductive Piece (α : Type) where
  | kept (a : α)
  | found (m : Match α)

/-- The pieces of a text, the text before it given, and how much of the last match is still
to come. -/
def piecesFrom (p : Pattern α) : List α → ℕ → List α → List (Piece α)
  | before, 0, [] =>
    match p.length? before [] with
    | some n => [.found (Match.at before [] n)]
    | none => []
  | _, _ + 1, [] => []
  | before, skip + 1, a :: rest => piecesFrom p (before ++ [a]) skip rest
  | before, 0, a :: rest =>
    match p.length? before (a :: rest) with
    | none => .kept a :: piecesFrom p (before ++ [a]) 0 rest
    | some 0 =>
      .found (Match.at before (a :: rest) 0) :: .kept a :: piecesFrom p (before ++ [a]) 0 rest
    | some (n + 1) =>
      .found (Match.at before (a :: rest) (n + 1)) :: piecesFrom p (before ++ [a]) n rest

/-- The pieces of a text. -/
def pieces (p : Pattern α) (s : List α) : List (Piece α) := piecesFrom p [] 0 s

/-- The piece itself, or what a match becomes. -/
def Piece.subst (f : Match α → List α) : Piece α → List α
  | .kept a => [a]
  | .found m => f m

/-- Every match is replaced. -/
def replaceAll (p : Pattern α) (f : Match α → List α) (s : List α) : List α :=
  (pieces p s).flatMap (Piece.subst f)

/-- The match of a piece. -/
def Piece.match? : Piece α → Option (Match α)
  | .kept _ => none
  | .found m => some m

/-- The matches in a text, from the left. -/
def matches? (p : Pattern α) (s : List α) : List (Match α) := (pieces p s).filterMap Piece.match?

/-- The first match is replaced. -/
def replaceFirst (p : Pattern α) (f : Match α → List α) (s : List α) : List α :=
  match (matches? p s).head? with
  | none => s
  | some m => m.before ++ (f m ++ m.after)

/-- A fixed text. -/
def fixed [DecidableEq α] (t : List α) : Pattern α where
  length? _ rest := if t <+: rest then some t.length else none
  le_length before rest n h := by
    split_ifs at h with hpre
    exact (Option.some_inj.mp h) ▸ hpre.length_le

/-- One element of a kind. -/
def single (q : α → Bool) : Pattern α where
  length? _ rest := if rest.head?.any q then some 1 else none
  le_length before rest n h := by
    cases rest with
    | nil => cases h
    | cons a rest =>
      split_ifs at h with hq
      rw [← Option.some_inj.mp h]
      exact Nat.le_add_left 1 rest.length

/-! ## What is kept -/

variable {p : Pattern α}

theorem Match.whole_at (before rest : List α) (n : ℕ) :
    (Match.at before rest n).whole = before ++ rest := by
  rw [whole, Match.at, List.take_append_drop]

/-- **The pieces make the text.** -/
theorem flatMap_text_piecesFrom (p : Pattern α) : ∀ (s before : List α) (skip : ℕ),
    (piecesFrom p before skip s).flatMap (Piece.subst Match.text) = s.drop skip := by
  intro s
  induction s with
  | nil =>
    intro before skip
    cases skip with
    | zero =>
      unfold piecesFrom
      split
      · simp only [List.flatMap_cons, Piece.subst, Match.at, List.take_nil, List.flatMap_nil,
          List.append_nil, List.drop_nil]
      · rfl
    | succ skip => rfl
  | cons a rest ih =>
    intro before skip
    cases skip with
    | zero =>
      unfold piecesFrom
      split
      · rw [List.flatMap_cons, ih]
        rfl
      · rw [List.flatMap_cons, List.flatMap_cons, ih]
        rfl
      · next n h =>
        rw [List.flatMap_cons, ih, Piece.subst, Match.at, List.take_succ_cons, List.cons_append,
          List.take_append_drop]
        rfl
    | succ skip =>
      unfold piecesFrom
      rw [ih, List.drop_succ_cons]

theorem flatMap_text_pieces (p : Pattern α) (s : List α) :
    (pieces p s).flatMap (Piece.subst Match.text) = s := flatMap_text_piecesFrom p s [] 0

/-- **A match is where the pattern matches.** -/
theorem of_found_mem_piecesFrom {m : Match α} : ∀ {s before : List α} {skip : ℕ},
    .found m ∈ piecesFrom p before skip s → m.whole = before ++ s ∧
      p.length? m.before (m.text ++ m.after) = some m.text.length := by
  have hat : ∀ {before rest : List α} {n : ℕ}, p.length? before rest = some n →
      m = Match.at before rest n → m.whole = before ++ rest ∧
        p.length? m.before (m.text ++ m.after) = some m.text.length := by
    rintro before rest n h rfl
    refine ⟨Match.whole_at before rest n, ?_⟩
    rw [Match.at, List.take_append_drop, h, List.length_take,
      min_eq_left (p.le_length before rest n h)]
  intro s
  induction s with
  | nil =>
    intro before skip hm
    cases skip with
    | zero =>
      unfold piecesFrom at hm
      split at hm
      · next n h =>
        obtain hm := Piece.found.inj (List.mem_singleton.mp hm)
        exact hat h hm
      · cases hm
    | succ skip => cases hm
  | cons a rest ih =>
    intro before skip hm
    -- a match in the rest of the text is one in the text
    have hnext : ∀ {skip : ℕ}, .found m ∈ piecesFrom p (before ++ [a]) skip rest →
        m.whole = before ++ a :: rest ∧
          p.length? m.before (m.text ++ m.after) = some m.text.length := by
      intro skip hm
      have h := ih hm
      rwa [List.append_assoc] at h
    cases skip with
    | zero =>
      unfold piecesFrom at hm
      split at hm
      · rcases List.mem_cons.mp hm with hm | hm
        · cases hm
        · exact hnext hm
      · -- an empty match, and the next character is kept
        next h =>
        rcases List.mem_cons.mp hm with hm | hm
        · exact hat h (Piece.found.inj hm)
        rcases List.mem_cons.mp hm with hm | hm
        · cases hm
        · exact hnext hm
      · next n h =>
        rcases List.mem_cons.mp hm with hm | hm
        · exact hat h (Piece.found.inj hm)
        · exact hnext hm
    | succ skip =>
      unfold piecesFrom at hm
      exact hnext hm

theorem mem_matches? {m : Match α} {s : List α} : m ∈ matches? p s ↔ .found m ∈ pieces p s := by
  rw [matches?, List.mem_filterMap]
  constructor
  · rintro ⟨piece, hmem, hpiece⟩
    cases piece with
    | kept a => cases hpiece
    | found m' =>
      obtain rfl := Option.some_inj.mp hpiece
      exact hmem
  · exact fun hmem => ⟨.found m, hmem, rfl⟩

/-- The text of a match, and that it matches. -/
theorem of_mem_matches? {m : Match α} {s : List α} (h : m ∈ matches? p s) :
    m.whole = s ∧ p.length? m.before (m.text ++ m.after) = some m.text.length :=
  of_found_mem_piecesFrom (mem_matches?.mp h)

/-- A text without a match matches nowhere. -/
theorem length?_eq_none_of_matches? {s : List α} (h : matches? p s = []) {x y : List α}
    (hs : x ++ y = s) : p.length? x y = none := by
  have hfrom : ∀ (s before : List α), (piecesFrom p before 0 s).filterMap Piece.match? = [] →
      ∀ x y, x ++ y = s → p.length? (before ++ x) y = none := by
    intro s
    induction s with
    | nil =>
      intro before hnone x y hxy
      obtain ⟨rfl, rfl⟩ := List.append_eq_nil_iff.mp hxy
      rw [List.append_nil]
      unfold piecesFrom at hnone
      split at hnone
      · cases hnone
      · assumption
    | cons a rest ih =>
      intro before hnone x y hxy
      unfold piecesFrom at hnone
      split at hnone
      · next hat =>
        rw [List.filterMap_cons] at hnone
        cases x with
        | nil =>
          obtain rfl : y = a :: rest := hxy
          rw [List.append_nil]
          exact hat
        | cons c x =>
          obtain ⟨rfl, htail⟩ := List.cons.inj hxy
          have hrest := ih (before ++ [c]) hnone x y htail
          rwa [List.append_assoc] at hrest
      · cases hnone
      · cases hnone
  have hat := hfrom s [] h x y hs
  rwa [List.nil_append] at hat

/-- A text that occurs has a match. -/
theorem exists_head?_fixed [DecidableEq α] {t s : List α} (h : t <:+: s) :
    ∃ m, (matches? (fixed t) s).head? = some m := by
  cases hmatches : matches? (fixed t) s with
  | cons m rest => exact ⟨m, rfl⟩
  | nil =>
    obtain ⟨x, y, hxy⟩ := h
    have hnone := length?_eq_none_of_matches? hmatches (x := x) (y := t ++ y)
      (by rw [← hxy, List.append_assoc])
    have hsome : (fixed t).length? x (t ++ y) = some t.length := if_pos (List.prefix_append t y)
    rw [hsome] at hnone
    cases hnone

/-- A match of a fixed text is that text. -/
theorem text_of_mem_fixed [DecidableEq α] {t s : List α} {m : Match α}
    (h : m ∈ matches? (fixed t) s) : m.text = t := by
  have hat := (of_mem_matches? h).2
  unfold fixed at hat
  dsimp only at hat
  split_ifs at hat with hpre
  have hlen := Option.some_inj.mp hat
  have hpre : t <+: m.text :=
    List.prefix_of_prefix_length_le hpre (List.prefix_append m.text m.after) hlen.le
  exact (hpre.eq_of_length hlen).symm

/-! ## Two replacements -/

/-- **Replacements that agree on the matches agree.** -/
theorem replaceAll_congr {f g : Match α → List α} {s : List α}
    (h : ∀ m ∈ matches? p s, f m = g m) : replaceAll p f s = replaceAll p g s := by
  unfold replaceAll
  apply List.flatMap_congr
  intro piece hmem
  cases piece with
  | kept a => rfl
  | found m => exact h m (mem_matches?.mpr hmem)

/-- What a replacement makes of one kind of elements. -/
theorem replaceAll_single {q : α → Bool} {f : Match α → List α} {g : α → List α}
    (hf : ∀ m a, m.text = [a] → f m = g a) (s : List α) :
    replaceAll (single q) f s = s.flatMap fun a => if q a then g a else [a] := by
  have hpieces : ∀ (s before : List α), (piecesFrom (single q) before 0 s).flatMap (Piece.subst f) =
      s.flatMap fun a => if q a then g a else [a] := by
    intro s
    induction s with
    | nil =>
      intro before
      rfl
    | cons a rest ih =>
      intro before
      rw [List.flatMap_cons]
      by_cases hq : q a = true
      · have hmatch : (single q).length? before (a :: rest) = some 1 := if_pos hq
        rw [piecesFrom, hmatch]
        dsimp only
        rw [List.flatMap_cons, ih, if_pos hq]
        exact congrArg (· ++ _) (hf _ a rfl)
      · have hmatch : (single q).length? before (a :: rest) = none := if_neg hq
        rw [piecesFrom, hmatch]
        dsimp only
        rw [List.flatMap_cons, ih, if_neg hq]
        rfl
  exact hpieces s []

/-- **A replacement that counts less at no match** counts less in all, and as much only if it
counts as much at every match. -/
theorem countP_replaceAll_le (q : α → Bool) {f g : Match α → List α} {s : List α}
    (hle : ∀ m ∈ matches? p s, (g m).countP q ≤ (f m).countP q) :
    (replaceAll p g s).countP q ≤ (replaceAll p f s).countP q ∧
      ((replaceAll p f s).countP q = (replaceAll p g s).countP q →
        ∀ m ∈ matches? p s, (g m).countP q = (f m).countP q) := by
  have hpieces : ∀ l : List (Piece α), (∀ m, .found m ∈ l → (g m).countP q ≤ (f m).countP q) →
      (l.flatMap (Piece.subst g)).countP q ≤ (l.flatMap (Piece.subst f)).countP q ∧
      ((l.flatMap (Piece.subst f)).countP q = (l.flatMap (Piece.subst g)).countP q →
        ∀ m, .found m ∈ l → (g m).countP q = (f m).countP q) := by
    intro l
    induction l with
    | nil =>
      intro _
      exact ⟨le_rfl, fun _ m hm => absurd hm List.not_mem_nil⟩
    | cons piece l ih =>
      intro hle
      obtain ⟨hrest, heq⟩ := ih fun m hm => hle m (List.mem_cons_of_mem _ hm)
      simp only [List.flatMap_cons, List.countP_append]
      cases piece with
      | kept a =>
        refine ⟨Nat.add_le_add_left hrest _, fun h m hm => ?_⟩
        rcases List.mem_cons.mp hm with hm | hm
        · cases hm
        · exact heq (Nat.add_left_cancel h) m hm
      | found m' =>
        have hfirst : (g m').countP q ≤ (f m').countP q := hle m' List.mem_cons_self
        change (g m').countP q + _ ≤ (f m').countP q + _ ∧
          ((f m').countP q + _ = (g m').countP q + _ → _)
        refine ⟨Nat.add_le_add hfirst hrest, fun h m hm => ?_⟩
        rcases List.mem_cons.mp hm with hm | hm
        · rw [Piece.found.inj hm]
          omega
        · exact heq (by omega) m hm
  obtain ⟨htotal, heq⟩ := hpieces (pieces p s) fun m hm => hle m (mem_matches?.mpr hm)
  exact ⟨htotal, fun h m hm => heq h m (mem_matches?.mp hm)⟩

/-- Equal texts have equal counts at every match, if no match counts less. -/
theorem countP_eq_of_replaceAll_eq (q : α → Bool) {f g : Match α → List α} {s : List α}
    (hle : ∀ m ∈ matches? p s, (g m).countP q ≤ (f m).countP q)
    (h : replaceAll p f s = replaceAll p g s) :
    ∀ m ∈ matches? p s, (g m).countP q = (f m).countP q :=
  (countP_replaceAll_le q hle).2 (congrArg (List.countP q) h)

/-- Replacements that count alike at every match count alike. -/
theorem countP_replaceAll_congr (q : α → Bool) {f g : Match α → List α} {s : List α}
    (h : ∀ m ∈ matches? p s, (f m).countP q = (g m).countP q) :
    (replaceAll p f s).countP q = (replaceAll p g s).countP q :=
  le_antisymm (countP_replaceAll_le q fun m hm => (h m hm).le).1
    (countP_replaceAll_le q fun m hm => (h m hm).ge).1

/-- A replacement that keeps the count at every match keeps it. -/
theorem countP_replaceAll_eq_self (q : α → Bool) {f : Match α → List α} {s : List α}
    (h : ∀ m ∈ matches? p s, (f m).countP q = m.text.countP q) :
    (replaceAll p f s).countP q = s.countP q :=
  (countP_replaceAll_congr q h).trans (congrArg (List.countP q) (flatMap_text_pieces p s))

/-! ## Two patterns -/

/-- Where the pattern matches, its match is a piece. -/
theorem found_mem_piecesFrom {before s : List α} {n : ℕ} (h : p.length? before s = some n) :
    .found (Match.at before s n) ∈ piecesFrom p before 0 s := by
  cases s with
  | nil =>
    unfold piecesFrom
    rw [h]
    exact List.mem_cons_self
  | cons a rest =>
    unfold piecesFrom
    rw [h]
    cases n with
    | zero => exact List.mem_cons_self
    | succ n => exact List.mem_cons_self

/-- **Patterns that match as far at each match of the other** take a text apart alike. -/
theorem piecesFrom_eq {p q : Pattern α} : ∀ (s before : List α) (skip : ℕ),
    (∀ m, .found m ∈ piecesFrom p before skip s →
      ∃ n, q.length? m.before (m.text ++ m.after) = some n ∧ m.text.length ≤ n) →
    (∀ m, .found m ∈ piecesFrom q before skip s →
      ∃ n, p.length? m.before (m.text ++ m.after) = some n ∧ m.text.length ≤ n) →
    piecesFrom p before skip s = piecesFrom q before skip s := by
  -- a match of one pattern is a piece, so the other matches there, and as far
  have hat : ∀ {p q : Pattern α} {before s : List α} {n : ℕ}, p.length? before s = some n →
      (∀ m, .found m ∈ piecesFrom p before 0 s →
        ∃ n, q.length? m.before (m.text ++ m.after) = some n ∧ m.text.length ≤ n) →
      ∃ k, q.length? before s = some k ∧ n ≤ k := by
    intro p q before s n hn h
    obtain ⟨k, hk, hle⟩ := h _ (found_mem_piecesFrom hn)
    rw [Match.at, List.take_append_drop] at hk
    rw [Match.at, List.length_take, min_eq_left (p.le_length before s n hn)] at hle
    exact ⟨k, hk, hle⟩
  have hlength : ∀ {before s : List α},
      (∀ m, .found m ∈ piecesFrom p before 0 s →
        ∃ n, q.length? m.before (m.text ++ m.after) = some n ∧ m.text.length ≤ n) →
      (∀ m, .found m ∈ piecesFrom q before 0 s →
        ∃ n, p.length? m.before (m.text ++ m.after) = some n ∧ m.text.length ≤ n) →
      p.length? before s = q.length? before s := by
    intro before s hp hq
    cases hlen : p.length? before s with
    | none =>
      cases hlen' : q.length? before s with
      | none => rfl
      | some n =>
        obtain ⟨k, hk, -⟩ := hat hlen' hq
        rw [hlen] at hk
        cases hk
    | some n =>
      obtain ⟨k, hk, hle⟩ := hat hlen hp
      obtain ⟨n', hn', hle'⟩ := hat hk hq
      rw [hlen] at hn'
      obtain rfl := Option.some_inj.mp hn'
      rw [hk, le_antisymm hle hle']
  intro s
  induction s with
  | nil =>
    intro before skip hp hq
    cases skip with
    | succ skip => rfl
    | zero => rw [piecesFrom, piecesFrom, hlength hp hq]
  | cons a rest ih =>
    intro before skip hp hq
    cases skip with
    | succ skip => exact ih (before ++ [a]) skip hp hq
    | zero =>
      have hsame := hlength hp hq
      unfold piecesFrom at hp hq ⊢
      rw [← hsame] at hq ⊢
      cases hlen : p.length? before (a :: rest) with
      | none =>
        rw [hlen] at hp hq
        dsimp only at hp hq ⊢
        rw [ih (before ++ [a]) 0 (fun m hm => hp m (List.mem_cons_of_mem _ hm))
          fun m hm => hq m (List.mem_cons_of_mem _ hm)]
      | some n =>
        rw [hlen] at hp hq
        cases n with
        | zero =>
          dsimp only at hp hq ⊢
          rw [ih (before ++ [a]) 0
            (fun m hm => hp m (List.mem_cons_of_mem _ (List.mem_cons_of_mem _ hm)))
            fun m hm => hq m (List.mem_cons_of_mem _ (List.mem_cons_of_mem _ hm))]
        | succ n =>
          dsimp only at hp hq ⊢
          rw [ih (before ++ [a]) n (fun m hm => hp m (List.mem_cons_of_mem _ hm))
            fun m hm => hq m (List.mem_cons_of_mem _ hm)]

theorem pieces_eq_of_matches {p q : Pattern α} {s : List α}
    (hp : ∀ m ∈ matches? p s,
      ∃ n, q.length? m.before (m.text ++ m.after) = some n ∧ m.text.length ≤ n)
    (hq : ∀ m ∈ matches? q s,
      ∃ n, p.length? m.before (m.text ++ m.after) = some n ∧ m.text.length ≤ n) :
    pieces p s = pieces q s :=
  piecesFrom_eq s [] 0 (fun m hm => hp m (mem_matches?.mpr hm)) fun m hm =>
    hq m (mem_matches?.mpr hm)

/-- **Equal texts have equal matches**, if they have equal lengths. -/
theorem eq_of_replaceAll_eq {f g : Match α → List α} {s : List α}
    (hlength : ∀ m ∈ matches? p s, (f m).length = (g m).length)
    (h : replaceAll p f s = replaceAll p g s) : ∀ m ∈ matches? p s, f m = g m := by
  have hpieces : ∀ l : List (Piece α), (∀ m, .found m ∈ l → (f m).length = (g m).length) →
      l.flatMap (Piece.subst f) = l.flatMap (Piece.subst g) → ∀ m, .found m ∈ l → f m = g m := by
    intro l
    induction l with
    | nil => exact fun _ _ m hm => absurd hm List.not_mem_nil
    | cons piece l ih =>
      intro hlength h m hm
      have hlength' : ∀ m, .found m ∈ l → (f m).length = (g m).length := fun m hm =>
        hlength m (List.mem_cons_of_mem _ hm)
      rw [List.flatMap_cons, List.flatMap_cons] at h
      cases piece with
      | kept a =>
        rcases List.mem_cons.mp hm with hm | hm
        · cases hm
        · exact ih hlength' (List.append_cancel_left h) m hm
      | found m' =>
        have hfirst := List.append_inj h (hlength m' List.mem_cons_self)
        rcases List.mem_cons.mp hm with hm | hm
        · rw [Piece.found.inj hm]
          exact hfirst.1
        · exact ih hlength' hfirst.2 m hm
  intro m hm
  exact hpieces (pieces p s) (fun m hm => hlength m (mem_matches?.mpr hm)) h m
    (mem_matches?.mp hm)

/-- Replacements by one text each are equal only if the texts are. -/
theorem eq_of_replaceAll_const {f : Match α → List α} {b : List α} {s : List α}
    (hconst : ∀ m ∈ matches? p s, ∀ m' ∈ matches? p s, f m = f m')
    (h : replaceAll p f s = replaceAll p (fun _ => b) s) : ∀ m ∈ matches? p s, f m = b := by
  apply eq_of_replaceAll_eq (g := fun _ => b) (fun m hm => ?_) h
  have hcount : ∀ l : List α, l.countP (fun _ => true) = l.length := fun l => congrFun List.countP_true l
  rcases Nat.le_total b.length (f m).length with hle | hle
  · have heq := countP_eq_of_replaceAll_eq (fun _ => true) (f := f) (g := fun _ => b)
      (fun m' hm' => by rw [hcount, hcount, hconst m' hm' m hm]; exact hle) h m hm
    rw [hcount, hcount] at heq
    exact heq.symm
  · have heq := countP_eq_of_replaceAll_eq (fun _ => true) (f := fun _ => b) (g := f)
      (fun m' hm' => by rw [hcount, hcount, hconst m' hm' m hm]; exact hle) h.symm m hm
    rw [hcount, hcount] at heq
    exact heq

/-! ## A replacement with a state -/

/-- Every piece is replaced, and every match may change a state. -/
def foldPieces {σ : Type} (f : σ → Match α → List α × σ) : σ → List (Piece α) → List α × σ
  | st, [] => ([], st)
  | st, .kept a :: l => (a :: (foldPieces f st l).1, (foldPieces f st l).2)
  | st, .found m :: l =>
    ((f st m).1 ++ (foldPieces f (f st m).2 l).1, (foldPieces f (f st m).2 l).2)

/-- Every match is replaced, with a state. -/
def replaceFold {σ : Type} (p : Pattern α) (f : σ → Match α → List α × σ) (st : σ) (s : List α) :
    List α × σ := foldPieces f st (pieces p s)

/-! ## Patterns that look ahead only -/

/-- How much matches in front of a text, whatever is before it; something, if at all. -/
structure Lead (α : Type) where
  length? : List α → Option ℕ
  pos : ∀ s n, length? s = some n → 0 < n
  le_length : ∀ s n, length? s = some n → n ≤ s.length

namespace Lead

/-- As a pattern. -/
def pattern (l : Lead α) : Pattern α := ⟨fun _ rest => l.length? rest, fun _ rest => l.le_length rest⟩

/-- Every match is replaced by what a function makes of its text. -/
def replace (l : Lead α) (g : List α → List α) (s : List α) : List α :=
  replaceAll l.pattern (fun m => g m.text) s

variable {l : Lead α} {g : List α → List α}

theorem length?_nil (l : Lead α) : l.length? [] = none := by
  cases h : l.length? [] with
  | none => rfl
  | some n =>
    have hpos := l.pos [] n h
    have hle := l.le_length [] n h
    rw [List.length_nil] at hle
    omega

/-! ### One pass -/

@[simp] theorem replace_nil : l.replace g [] = [] := by
  unfold replace replaceAll pieces piecesFrom
  split
  · next n h =>
    change l.length? [] = some n at h
    rw [length?_nil] at h
    cases h
  · rfl

/-- What is before does not matter, and what belongs to a match is left out. -/
theorem flatMap_piecesFrom (l : Lead α) (g : List α → List α) : ∀ (s before : List α) (skip : ℕ),
    (piecesFrom l.pattern before skip s).flatMap (Piece.subst fun m => g m.text) =
      l.replace g (s.drop skip) := by
  intro s
  induction s with
  | nil =>
    intro before skip
    rw [List.drop_nil, replace_nil]
    cases skip with
    | zero =>
      have hnone : l.pattern.length? before [] = none := l.length?_nil
      rw [piecesFrom, hnone]
      rfl
    | succ skip => rfl
  | cons a rest ih =>
    intro before skip
    cases skip with
    | zero =>
      have hat : l.pattern.length? before (a :: rest) = l.length? (a :: rest) := rfl
      have hfront : l.pattern.length? [] (a :: rest) = l.length? (a :: rest) := rfl
      rw [List.drop_zero, replace, replaceAll, pieces, piecesFrom, piecesFrom, hat, hfront]
      cases hlen : l.length? (a :: rest) with
      | none =>
        dsimp only
        rw [List.flatMap_cons, List.flatMap_cons, ih, ih]
      | some n =>
        cases n with
        | zero => exact absurd (l.pos _ _ hlen) (Nat.lt_irrefl 0)
        | succ n =>
          dsimp only
          rw [List.flatMap_cons, List.flatMap_cons, ih, ih]
          rfl
    | succ skip =>
      rw [piecesFrom, ih, List.drop_succ_cons]

theorem replace_of_none {a : α} {s : List α} (h : l.length? (a :: s) = none) :
    l.replace g (a :: s) = a :: l.replace g s := by
  have hat : l.pattern.length? [] (a :: s) = none := h
  rw [replace, replaceAll, pieces, piecesFrom, hat]
  dsimp only
  rw [List.flatMap_cons, flatMap_piecesFrom, List.drop_zero]
  rfl

theorem replace_of_some {s : List α} {n : ℕ} (h : l.length? s = some n) :
    l.replace g s = g (s.take n) ++ l.replace g (s.drop n) := by
  have hpos := l.pos s n h
  have hle := l.le_length s n h
  cases s with
  | nil =>
    rw [List.length_nil] at hle
    omega
  | cons a s =>
    obtain ⟨k, rfl⟩ : ∃ k, n = k + 1 := ⟨n - 1, by omega⟩
    have hat : l.pattern.length? [] (a :: s) = some (k + 1) := h
    rw [replace, replaceAll, pieces, piecesFrom, hat]
    dsimp only
    rw [List.flatMap_cons, flatMap_piecesFrom, List.drop_succ_cons]
    rfl

/-- Induction from match to match. -/
theorem induction {motive : List α → Prop} (l : Lead α) (nil : motive [])
    (none : ∀ a s, l.length? (a :: s) = none → motive s → motive (a :: s))
    (some : ∀ s n, l.length? s = some n → motive (s.drop n) → motive s) (s : List α) :
    motive s := by
  induction hn : s.length using Nat.strong_induction_on generalizing s with
  | _ n ih =>
    cases s with
    | nil => exact nil
    | cons a s =>
      rw [List.length_cons] at hn
      cases h : l.length? (a :: s) with
      | none => exact none a s h (ih s.length (by omega) s rfl)
      | some k =>
        have hpos := l.pos _ _ h
        refine some _ k h (ih _ ?_ _ rfl)
        rw [List.length_drop, List.length_cons]
        omega

/-- A text in which nothing matches stays. -/
theorem replace_eq_self {s : List α} (h : ∀ t, t <:+ s → l.length? t = none) :
    l.replace g s = s := by
  induction s with
  | nil => exact replace_nil
  | cons a s ih =>
    rw [replace_of_none (h _ List.suffix_rfl), ih fun t ht => h t (ht.trans (List.suffix_cons a s))]

/-- What is left when every match is taken out. -/
theorem replace_nil_sublist (s : List α) : (l.replace (fun _ => []) s).Sublist s := by
  induction s using l.induction with
  | nil => rw [replace_nil]
  | none a s h ih =>
    rw [replace_of_none h]
    exact ih.cons_cons a
  | some s n h ih =>
    rw [replace_of_some h, List.nil_append]
    exact ih.trans (List.drop_sublist n s)

/-! ### Counting -/

/-- An element of no match is never taken out. -/
theorem count_replace_nil [BEq α] {a : α} (h : ∀ s n, l.length? s = some n → (s.take n).count a = 0)
    (s : List α) : (l.replace (fun _ => []) s).count a = s.count a := by
  induction s using l.induction with
  | nil => rw [replace_nil]
  | none b s hnone ih => rw [replace_of_none hnone, List.count_cons, List.count_cons, ih]
  | some s n hsome ih =>
    rw [replace_of_some hsome, List.nil_append, ih, ← Nat.zero_add ((s.drop n).count a), ← h s n hsome,
      ← List.count_append, List.take_append_drop]

/-- Nothing is counted in what stays or in what is put in. -/
theorem countP_replace_eq_zero {q : α → Bool}
    (hkept : ∀ a s, l.length? (a :: s) = Option.none → q a = false)
    (hput : ∀ s n, l.length? s = Option.some n → (g (s.take n)).countP q = 0) (s : List α) :
    (l.replace g s).countP q = 0 := by
  induction s using l.induction with
  | nil => rw [replace_nil, List.countP_nil]
  | none a s hnone ih =>
    rw [replace_of_none hnone, List.countP_cons_of_neg (Bool.eq_false_iff.mp (hkept a s hnone)), ih]
  | some s n hsome ih => rw [replace_of_some hsome, List.countP_append, hput s n hsome, ih]

/-! ### Parts of a text -/

/-- The pattern sees no cut between two texts. -/
def NoSeam (l : Lead α) (x y : List α) : Prop :=
  ∀ u v, u ++ v = x → v ≠ [] → l.length? (v ++ y) = l.length? v

/-- **A text may be cut where the pattern does not see it.** -/
theorem replace_append {x y : List α} (h : l.NoSeam x y) :
    l.replace g (x ++ y) = l.replace g x ++ l.replace g y := by
  induction x using l.induction with
  | nil => rw [List.nil_append, replace_nil, List.nil_append]
  | none a s hnone ih =>
    have hat : l.length? (a :: (s ++ y)) = Option.none :=
      (h [] (a :: s) rfl (List.cons_ne_nil a s)).trans hnone
    have hrest : l.NoSeam s y := fun u v huv => h (a :: u) v (by rw [← huv, List.cons_append])
    rw [List.cons_append, replace_of_none hat, replace_of_none hnone, ih hrest, List.cons_append]
  | some s n hsome ih =>
    have hle := l.le_length s n hsome
    have hpos := l.pos s n hsome
    have hne : s ≠ [] := fun hnil => by
      rw [hnil, List.length_nil] at hle
      omega
    have hat : l.length? (s ++ y) = Option.some n := (h [] s rfl hne).trans hsome
    have hrest : l.NoSeam (s.drop n) y := fun u v huv =>
      h (s.take n ++ u) v (by rw [List.append_assoc, huv, List.take_append_drop])
    rw [replace_of_some hat, replace_of_some hsome, List.take_append_of_le_length hle,
      List.drop_append_of_le_length hle, ih hrest, List.append_assoc]

/-- The pattern sees no cut between the pieces. -/
def NoSeams (l : Lead α) : List (List α) → Prop
  | [] => True
  | x :: xs => l.NoSeam x xs.flatten ∧ l.NoSeams xs

/-- **A text may be replaced piece by piece**, if the pattern sees no cut. -/
theorem replace_flatten {xs : List (List α)} (h : l.NoSeams xs) :
    l.replace g xs.flatten = (xs.map (l.replace g)).flatten := by
  induction xs with
  | nil => exact replace_nil
  | cons x xs ih =>
    rw [List.flatten_cons, replace_append h.1, ih h.2, List.map_cons, List.flatten_cons]

end Lead

end Substitute
