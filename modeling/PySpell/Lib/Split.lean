/-
# Splitting a text at a pattern

The lazy splitting of a text that `str::split` does: a pattern says how many
characters it matches at the head of a text, `cut` takes a text apart at the first
match, and the pieces come out one at a time.
-/
import Mathlib.Data.List.Basic

namespace Split

/-! ## Patterns and pieces -/

/-- How many characters match at the head of a text, if any. -/
abbrev Pattern := List Char → Option ℕ

/-- A fixed text. -/
def str (sep : List Char) : Pattern := fun s =>
  if sep.isPrefixOf s then some sep.length else none

/-- Any one of the listed characters. -/
def oneOf (cs : List Char) : Pattern := fun s =>
  match s with
  | c :: _ => if c ∈ cs then some 1 else none
  | [] => none

/-- The text before the first match and the text behind it. -/
def cut (p : Pattern) : List Char → Option (List Char × List Char)
  | [] => none
  | c :: s =>
    match p (c :: s) with
    | some n => some ([], (c :: s).drop n)
    | none => (cut p s).map fun (before, after) => (c :: before, after)

/-- One call of the iterator: the next piece and the text still to split, which is
`none` once the last piece is out. -/
def next (p : Pattern) : Option (List Char) → Option (List Char) × Option (List Char)
  | none => (none, none)
  | some s =>
    match cut p s with
    | none => (some s, none)
    | some (before, after) => (some before, some after)

/-- The piece that comes out after `n` others. -/
def nth (p : Pattern) : ℕ → Option (List Char) → Option (List Char)
  | 0, st => (next p st).1
  | n + 1, st => nth p n (next p st).2

/-- All pieces, in at most so many steps. -/
def piecesLoop (p : Pattern) : ℕ → List Char → List (List Char)
  | 0, s => [s]
  | fuel + 1, s =>
    match cut p s with
    | none => [s]
    | some (before, after) => before :: piecesLoop p fuel after

/-- All pieces: every match takes a character at least. -/
def pieces (p : Pattern) (s : List Char) : List (List Char) := piecesLoop p s.length s

/-! ## The first piece -/

theorem next_fst (p : Pattern) (s : List Char) :
    (next p (some s)).1 = some ((cut p s).elim s Prod.fst) := by
  unfold next
  cases h : cut p s <;> simp [h]

/-- The first piece of a split at single characters ends before the first of them. -/
theorem nth_zero_oneOf (cs s : List Char) :
    nth (oneOf cs) 0 (some s) = some (s.takeWhile fun c => c ∉ cs) := by
  have hcut : (cut (oneOf cs) s).elim s Prod.fst = s.takeWhile fun c => c ∉ cs := by
    induction s with
    | nil => rfl
    | cons c s ih =>
      rw [List.takeWhile_cons]
      by_cases hc : c ∈ cs
      · simp [cut, oneOf, hc]
      · cases h : cut (oneOf cs) s with
        | none => simpa [cut, oneOf, hc, h] using ih
        | some ba => simpa [cut, oneOf, hc, h] using ih
  rw [← hcut]
  exact next_fst (oneOf cs) s

/-- Where a text is cut at a character is the first one of it. -/
theorem cut_oneOf_eq_some {x : Char} {s before after : List Char} :
    cut (oneOf [x]) s = some (before, after) ↔ x ∉ before ∧ s = before ++ x :: after := by
  induction s generalizing before with
  | nil => simp [cut]
  | cons c s ih =>
    rw [cut, oneOf]
    by_cases hc : c = x
    · subst hc
      rw [if_pos (List.mem_singleton.mpr rfl)]
      dsimp only
      rw [List.drop_one, List.tail_cons, Option.some_inj, Prod.mk.injEq]
      constructor
      · rintro ⟨rfl, rfl⟩
        exact ⟨List.not_mem_nil, rfl⟩
      · rintro ⟨hnot, heq⟩
        cases before with
        | nil =>
          rw [List.nil_append, List.cons.injEq] at heq
          exact ⟨rfl, heq.2⟩
        | cons d before =>
          rw [List.cons_append, List.cons.injEq] at heq
          exact absurd (List.mem_cons.mpr (.inl heq.1)) hnot
    · rw [if_neg (fun h => hc (List.mem_singleton.mp h))]
      dsimp only
      rw [Option.map_eq_some_iff]
      constructor
      · rintro ⟨⟨before', after'⟩, hcut, heq⟩
        obtain ⟨rfl, rfl⟩ := Prod.mk.inj heq
        obtain ⟨hnot, rfl⟩ := ih.mp hcut
        refine ⟨fun h => ?_, rfl⟩
        rcases List.mem_cons.mp h with h | h
        · exact hc h.symm
        · exact hnot h
      · rintro ⟨hnot, heq⟩
        cases before with
        | nil =>
          rw [List.nil_append, List.cons.injEq] at heq
          exact absurd heq.1 hc
        | cons d before =>
          rw [List.cons_append, List.cons.injEq] at heq
          obtain ⟨rfl, rfl⟩ := heq
          exact ⟨(before, after), ih.mpr ⟨fun h => hnot (List.mem_cons_of_mem _ h), rfl⟩, rfl⟩

/-! ## Splitting at a fixed text -/

/-- A separator is not found before its first character is. -/
theorem cut_str_append {x : Char} {sep before : List Char} (after : List Char)
    (hx : x ∉ before) :
    cut (str (x :: sep)) (before ++ (x :: sep) ++ after) = some (before, after) := by
  induction before with
  | nil =>
    simp [cut, str]
  | cons c before ih =>
    obtain ⟨hc, hx⟩ := (List.ne_and_not_mem_of_not_mem_cons hx)
    have hne : str (x :: sep) (c :: (before ++ (x :: sep) ++ after)) = none := by
      simp [str, hc]
    show cut _ (c :: (before ++ (x :: sep) ++ after)) = _
    rw [cut, hne, ih hx]
    rfl

/-- What is behind the first separator, split again, begins like the whole of it, as
far as a set of characters reaches that the separator starts outside of. -/
theorem takeWhile_cut_fst {x : Char} {sep : List Char} {p : Char → Bool} (hx : p x = false)
    (s : List Char) :
    ((cut (str (x :: sep)) s).elim s Prod.fst).takeWhile p = s.takeWhile p := by
  induction s with
  | nil => rfl
  | cons c s ih =>
    by_cases h : (x :: sep).isPrefixOf (c :: s) = true
    · -- the separator stands here, so `c` is its first character
      have hcx : c = x := by
        simp only [List.isPrefixOf_cons_cons, Bool.and_eq_true, beq_iff_eq] at h
        exact h.1.symm
      have hcut : cut (str (x :: sep)) (c :: s) =
          some ([], (c :: s).drop (x :: sep).length) := by
        simp only [cut, str, h, if_true]
      rw [hcut]
      simp [hcx, hx]
    · rw [List.takeWhile_cons]
      cases hc : cut (str (x :: sep)) s with
      | none =>
        rw [hc] at ih
        simp [cut, str, h, hc, List.takeWhile_cons]
      | some ba =>
        rw [hc] at ih
        have ih' : ba.1.takeWhile p = s.takeWhile p := ih
        simp [cut, str, h, hc, List.takeWhile_cons, ih']

/-- The second piece, as far as such a set of characters reaches. -/
theorem takeWhile_nth_one {x : Char} {sep s before after : List Char} {p : Char → Bool}
    (hx : p x = false) (h : cut (str (x :: sep)) s = some (before, after)) :
    ∃ piece, nth (str (x :: sep)) 1 (some s) = some piece ∧
      piece.takeWhile p = after.takeWhile p := by
  refine ⟨(cut (str (x :: sep)) after).elim after Prod.fst, ?_, takeWhile_cut_fst hx after⟩
  have hnext : (next (str (x :: sep)) (some s)).2 = some after := by simp [next, h]
  rw [nth, hnext]
  exact next_fst _ after

/-- There is no second piece of a text without the separator. -/
theorem nth_one_of_cut_eq_none {p : Pattern} {s : List Char} (h : cut p s = none) :
    nth p 1 (some s) = none := by
  simp [nth, next, h]

/-- Where a text is cut, the separator stands. -/
theorem cut_str_eq_some {sep s before after : List Char}
    (h : cut (str sep) s = some (before, after)) : s = before ++ (sep ++ after) := by
  induction s generalizing before with
  | nil => cases h
  | cons c s ih =>
    rw [cut, str] at h
    by_cases hp : sep.isPrefixOf (c :: s) = true
    · rw [if_pos hp] at h
      obtain ⟨rfl, rfl⟩ := Prod.mk.inj (Option.some.inj h)
      obtain ⟨t, ht⟩ := List.isPrefixOf_iff_prefix.mp hp
      rw [← ht, List.drop_left, List.nil_append]
    · rw [if_neg hp] at h
      obtain ⟨⟨before', after'⟩, hcut, heq⟩ := Option.map_eq_some_iff.mp h
      obtain ⟨rfl, rfl⟩ := Prod.mk.inj heq
      rw [List.cons_append, ← ih hcut]

/-- The first separator stays the first when more text follows. -/
theorem cut_str_append_left {sep s before after : List Char}
    (h : cut (str sep) s = some (before, after)) (t : List Char) :
    cut (str sep) (s ++ t) = some (before, after ++ t) := by
  induction s generalizing before with
  | nil => cases h
  | cons c s ih =>
    have hlen := congrArg List.length (cut_str_eq_some h)
    rw [List.length_append, List.length_append] at hlen
    rw [List.cons_append, cut, str]
    rw [cut, str] at h
    by_cases hp : sep.isPrefixOf (c :: s) = true
    · rw [if_pos hp] at h
      obtain ⟨rfl, rfl⟩ := Prod.mk.inj (Option.some.inj h)
      have hp' := List.isPrefixOf_iff_prefix.mp hp
      have hlong : sep.isPrefixOf (c :: (s ++ t)) = true :=
        List.isPrefixOf_iff_prefix.mpr (hp'.trans (List.prefix_append (c :: s) t))
      rw [if_pos hlong]
      dsimp only
      rw [← List.cons_append, List.drop_append_of_le_length hp'.length_le]
    · -- a match that went over the end of `s` would be longer than the one in it
      have hlong : ¬ sep.isPrefixOf (c :: (s ++ t)) = true := by
        intro hlong
        refine hp (List.isPrefixOf_iff_prefix.mpr ?_)
        exact List.prefix_of_prefix_length_le (List.isPrefixOf_iff_prefix.mp hlong)
          (List.prefix_append (c :: s) t) (by omega)
      rw [if_neg hp] at h
      rw [if_neg hlong]
      obtain ⟨⟨before', after'⟩, hcut, heq⟩ := Option.map_eq_some_iff.mp h
      obtain ⟨rfl, rfl⟩ := Prod.mk.inj heq
      dsimp only
      rw [ih hcut, Option.map_some]

/-- A separator of two different characters that follows a text without one is the
first one. -/
theorem cut_str_append_sep {x y : Char} (hxy : x ≠ y) {s : List Char}
    (h : cut (str [x, y]) s = none) (t : List Char) :
    cut (str [x, y]) (s ++ x :: y :: t) = some (s, t) := by
  induction s with
  | nil =>
    rw [List.nil_append, cut, str, if_pos (by simp)]
    rfl
  | cons c s ih =>
    rw [cut, str] at h
    by_cases hp : [x, y].isPrefixOf (c :: s) = true
    · rw [if_pos hp] at h
      cases h
    · rw [if_neg hp] at h
      have hp' : ¬ [x, y].isPrefixOf (c :: (s ++ x :: y :: t)) = true := by
        cases s with
        | nil =>
          rw [List.nil_append, List.isPrefixOf_cons_cons, List.isPrefixOf_cons_cons]
          simp [hxy.symm]
        | cons d s =>
          rw [List.isPrefixOf_cons_cons, List.isPrefixOf_cons_cons, List.isPrefixOf_nil_left] at hp
          rw [List.cons_append, List.isPrefixOf_cons_cons, List.isPrefixOf_cons_cons,
            List.isPrefixOf_nil_left]
          exact hp
      rw [List.cons_append, cut, str, if_neg hp']
      dsimp only
      rw [ih (Option.map_eq_none_iff.mp h), Option.map_some]

/-! ## All pieces -/

/-- The bound on the number of steps is not reached. -/
theorem piecesLoop_fuel {sep : List Char} (hsep : sep ≠ []) (fuel : ℕ) :
    ∀ {s : List Char} {fuel' : ℕ}, s.length ≤ fuel → s.length ≤ fuel' →
      piecesLoop (str sep) fuel s = piecesLoop (str sep) fuel' s := by
  have hpos := List.length_pos_of_ne_nil hsep
  induction fuel with
  | zero =>
    intro s fuel' hs _
    obtain rfl : s = [] := List.eq_nil_of_length_eq_zero (Nat.le_zero.mp hs)
    cases fuel' <;> rfl
  | succ fuel ih =>
    intro s fuel' hs hs'
    cases fuel' with
    | zero =>
      obtain rfl : s = [] := List.eq_nil_of_length_eq_zero (Nat.le_zero.mp hs')
      rfl
    | succ fuel' =>
      rw [piecesLoop, piecesLoop]
      cases hcut : cut (str sep) s with
      | none => rfl
      | some ba =>
        have hlen := congrArg List.length (cut_str_eq_some hcut)
        rw [List.length_append, List.length_append] at hlen
        dsimp only
        have hrest : piecesLoop (str sep) fuel ba.2 = piecesLoop (str sep) fuel' ba.2 :=
          ih (by omega) (by omega)
        rw [hrest]

theorem pieces_of_cut_eq_none {p : Pattern} {s : List Char} (h : cut p s = none) :
    pieces p s = [s] := by
  cases s with
  | nil => rfl
  | cons c s => rw [pieces, List.length_cons, piecesLoop, h]

/-- The pieces are the text before the first separator and the pieces of what is
behind it. -/
theorem pieces_of_cut_eq_some {sep s before after : List Char} (hsep : sep ≠ [])
    (h : cut (str sep) s = some (before, after)) :
    pieces (str sep) s = before :: pieces (str sep) after := by
  have hpos := List.length_pos_of_ne_nil hsep
  have hlen := congrArg List.length (cut_str_eq_some h)
  rw [List.length_append, List.length_append] at hlen
  cases s with
  | nil => cases h
  | cons c s =>
    rw [List.length_cons] at hlen
    rw [pieces, List.length_cons, piecesLoop, h]
    dsimp only
    rw [pieces, piecesLoop_fuel hsep s.length (s := after) (by omega) (Nat.le_refl _)]

/-- **A separator between two texts** separates their pieces. -/
theorem pieces_append_sep {x y : Char} (hxy : x ≠ y) (s t : List Char) :
    pieces (str [x, y]) (s ++ x :: y :: t) =
      pieces (str [x, y]) s ++ pieces (str [x, y]) t := by
  have hsep : [x, y] ≠ [] := List.cons_ne_nil _ _
  induction hn : s.length using Nat.strongRecOn generalizing s with
  | ind n ih =>
    cases hcut : cut (str [x, y]) s with
    | none =>
      rw [pieces_of_cut_eq_none hcut, pieces_of_cut_eq_some hsep (cut_str_append_sep hxy hcut t)]
      rfl
    | some ba =>
      obtain ⟨before, after⟩ := ba
      have hlen := congrArg List.length (cut_str_eq_some hcut)
      simp only [List.length_append, List.length_cons, List.length_nil] at hlen
      rw [pieces_of_cut_eq_some hsep hcut,
        pieces_of_cut_eq_some hsep (cut_str_append_left hcut (x :: y :: t)),
        ih after.length (by omega) after rfl, List.cons_append]

/-! ## Where a part ends -/

/-- Where a part ends is determined by what may stand in it and what may not follow. -/
theorem append_unique {α : Type} {p : α → Bool} {a b a' b' : List α}
    (ha : ∀ c ∈ a, p c = true) (hb : ∀ c ∈ b.head?, p c = false)
    (ha' : ∀ c ∈ a', p c = true) (hb' : ∀ c ∈ b'.head?, p c = false)
    (h : a ++ b = a' ++ b') : a = a' ∧ b = b' := by
  have htake : ∀ x y : List α, (∀ c ∈ x, p c = true) → (∀ c ∈ y.head?, p c = false) →
      (x ++ y).takeWhile p = x := by
    intro x y hx hy
    rw [List.takeWhile_append_of_pos hx]
    cases y with
    | nil => simp
    | cons c y => simp [hy c (by simp)]
  have haa : a = a' := by rw [← htake a b ha hb, h, htake a' b' ha' hb']
  subst haa
  exact ⟨rfl, List.append_cancel_left h⟩

end Split
