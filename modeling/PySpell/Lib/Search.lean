/-
# Searching a list that comes in blocks

The first position of a pattern in a list, and what one block of the list can see of it:
a match that lies in the block is the first match of the block, and a block that ends
before the match does has no match at all.
-/
import Mathlib.Data.List.Basic
import PySpell.Lib.Split

namespace Search

variable {α : Type} {pat u c v : List α} {p : ℕ}

/-! ## Blocks -/

theorem drop_block {j : ℕ} (h : j ≤ c.length) :
    (u ++ (c ++ v)).drop (u.length + j) = c.drop j ++ v := by
  rw [List.drop_append, List.drop_eq_nil_of_le (Nat.le_add_right _ _), Nat.add_sub_cancel_left,
    List.nil_append, List.drop_append_of_le_length h]

/-- A match that ends in the block is a match in the block. -/
theorem prefix_drop_block {j : ℕ} (h : j + pat.length ≤ c.length) :
    pat <+: (u ++ (c ++ v)).drop (u.length + j) ↔ pat <+: c.drop j := by
  rw [drop_block (by omega)]
  constructor
  · intro hp
    have hlen : pat.length ≤ (c.drop j).length := by
      rw [List.length_drop]
      omega
    exact List.prefix_of_prefix_length_le hp (List.prefix_append _ _) hlen
  · exact fun hp => hp.trans (List.prefix_append _ _)

/-- The length of a match. -/
theorem add_length_le_of_prefix (hpat : pat ≠ []) {j : ℕ} (h : pat <+: c.drop j) :
    j + pat.length ≤ c.length := by
  have hpos := List.length_pos_of_ne_nil hpat
  have hlen := h.length_le
  rw [List.length_drop] at hlen
  omega

/-- A longest part with a property goes over the end of a block exactly if the block does
not end it. -/
theorem length_takeWhile_append_le_iff {q : α → Bool} {d v : List α} :
    ((d ++ v).takeWhile q).length ≤ d.length ↔ (d ++ v).takeWhile q = d.takeWhile q := by
  rw [List.takeWhile_append]
  split
  · next h =>
    rw [List.length_append]
    have hd : d.takeWhile q = d := (List.takeWhile_prefix q).eq_of_length h
    rw [hd]
    constructor
    · intro hle
      rw [List.eq_nil_of_length_eq_zero (l := v.takeWhile q) (by omega), List.append_nil]
    · intro heq
      have hlen := congrArg List.length heq
      rw [List.length_append] at hlen
      omega
  · exact iff_of_true (List.takeWhile_prefix q).length_le rfl

/-! ## The first match -/

variable [DecidableEq α]

/-- The first position at which a nonempty pattern stands in the list. -/
def position (pat : List α) : List α → Option ℕ
  | [] => none
  | a :: l => if pat.isPrefixOf (a :: l) then some 0 else (position pat l).map (· + 1)

/-- **The first match**: a match with none before it. -/
theorem position_eq_some (hpat : pat ≠ []) {l : List α} {k : ℕ} :
    position pat l = some k ↔ pat <+: l.drop k ∧ ∀ j < k, ¬ pat <+: l.drop j := by
  induction l generalizing k with
  | nil => simp [position, hpat]
  | cons a l ih =>
    rw [position]
    split
    · next h =>
      rw [List.isPrefixOf_iff_prefix] at h
      constructor
      · rintro ⟨⟩
        exact ⟨h, fun j hj => by omega⟩
      · rintro ⟨-, hfirst⟩
        rcases Nat.eq_zero_or_pos k with rfl | hk
        · rfl
        · exact absurd h (hfirst 0 hk)
    · next h =>
      rw [List.isPrefixOf_iff_prefix] at h
      cases k with
      | zero => simp [h]
      | succ k =>
        rw [Option.map_eq_some_iff]
        simp only [Nat.add_right_cancel_iff, exists_eq_right, List.drop_succ_cons]
        rw [ih]
        refine and_congr_right fun _ => ⟨fun hfirst j hj => ?_, fun hfirst j hj => ?_⟩
        · cases j with
          | zero => exact h
          | succ j => exact hfirst j (by omega)
        · exact hfirst (j + 1) (by omega)

theorem position_eq_none (hpat : pat ≠ []) {l : List α} :
    position pat l = none ↔ ∀ j, ¬ pat <+: l.drop j := by
  induction l with
  | nil => simp [position, hpat]
  | cons a l ih =>
    rw [position]
    split
    · next h =>
      rw [List.isPrefixOf_iff_prefix] at h
      simp only [reduceCtorEq, false_iff, not_forall, not_not]
      exact ⟨0, h⟩
    · next h =>
      rw [List.isPrefixOf_iff_prefix] at h
      rw [Option.map_eq_none_iff, ih]
      constructor
      · intro hno j
        cases j with
        | zero => exact h
        | succ j => exact hno j
      · exact fun hno j => hno (j + 1)

/-- There is a first match exactly if the pattern stands in the list. -/
theorem position_isSome_iff (hpat : pat ≠ []) {l : List α} :
    (position pat l).isSome = true ↔ pat <:+: l := by
  rw [← Option.ne_none_iff_isSome, ne_eq, position_eq_none hpat, not_forall]
  simp only [not_not]
  constructor
  · rintro ⟨j, hj⟩
    exact hj.isInfix.trans (List.drop_suffix j l).isInfix
  · rintro ⟨u, v, rfl⟩
    refine ⟨u.length, v, ?_⟩
    rw [List.append_assoc, List.drop_left]

/-- **A block that ends before the first match does has no match.** -/
theorem position_block_eq_none (hpat : pat ≠ [])
    (h : ∀ p, position pat (u ++ (c ++ v)) = some p → u.length + c.length < p + pat.length) :
    position pat c = none := by
  rw [position_eq_none hpat]
  intro j hj
  have hlen := add_length_le_of_prefix hpat hj
  have hall := (prefix_drop_block (u := u) (v := v) hlen).mpr hj
  cases hpos : position pat (u ++ (c ++ v)) with
  | none => exact (position_eq_none hpat).mp hpos _ hall
  | some p =>
    have hend := h p hpos
    exact ((position_eq_some hpat).mp hpos).2 (u.length + j) (by omega) hall

/-- The first match stays the first when more follows. -/
theorem position_append_left (hpat : pat ≠ []) (h : position pat c = some p) (v : List α) :
    position pat (c ++ v) = some p := by
  obtain ⟨hp, hfirst⟩ := (position_eq_some hpat).mp h
  have hblock : ∀ {j}, j + pat.length ≤ c.length →
      (pat <+: (c ++ v).drop j ↔ pat <+: c.drop j) := by
    intro j hj
    have hiff := prefix_drop_block (u := []) (v := v) hj
    rwa [List.length_nil, Nat.zero_add, List.nil_append] at hiff
  have hend := add_length_le_of_prefix hpat hp
  rw [position_eq_some hpat]
  refine ⟨(hblock hend).mpr hp, fun j hj hmatch => hfirst j hj ?_⟩
  exact (hblock (by omega)).mp hmatch

/-- **A block that holds the first match** finds it first. -/
theorem position_block_eq_some (hpat : pat ≠ []) (h : position pat (u ++ (c ++ v)) = some p)
    (hstart : u.length ≤ p) (hend : p + pat.length ≤ u.length + c.length) :
    position pat c = some (p - u.length) := by
  obtain ⟨hp, hfirst⟩ := (position_eq_some hpat).mp h
  rw [position_eq_some hpat]
  constructor
  · rw [← prefix_drop_block (u := u) (v := v) (by omega), Nat.add_sub_cancel' hstart]
    exact hp
  · intro j hj hmatch
    have hlen := add_length_le_of_prefix hpat hmatch
    exact hfirst (u.length + j) (by omega) ((prefix_drop_block hlen).mpr hmatch)

/-- A part in which no match starts only shifts the first match. -/
theorem position_append {l : List α} : ∀ {u : List α},
    (∀ j < u.length, ¬ pat <+: (u ++ l).drop j) →
      position pat (u ++ l) = (position pat l).map (· + u.length) := by
  intro u
  induction u with
  | nil =>
    intro _
    rw [List.nil_append]
    cases position pat l <;> rfl
  | cons a u ih =>
    intro hno
    have hhead : ¬ pat.isPrefixOf (a :: (u ++ l)) = true := by
      rw [List.isPrefixOf_iff_prefix]
      exact hno 0 (Nat.succ_pos _)
    have htail : ∀ j < u.length, ¬ pat <+: (u ++ l).drop j := fun j hj =>
      hno (j + 1) (Nat.succ_lt_succ hj)
    rw [List.cons_append, position, if_neg hhead, ih htail, Option.map_map, List.length_cons]
    rfl

/-- **A text is cut at the first match.** -/
theorem cut_str_eq_position {sep : List Char} (s : List Char) :
    Split.cut (Split.str sep) s =
      (position sep s).map fun k => (s.take k, s.drop (k + sep.length)) := by
  induction s with
  | nil => rfl
  | cons c s ih =>
    rw [Split.cut, Split.str, position]
    by_cases h : sep.isPrefixOf (c :: s) = true
    · rw [if_pos h, if_pos h, Option.map_some, List.take_zero, Nat.zero_add]
    · rw [if_neg h, if_neg h]
      dsimp only
      rw [ih, Option.map_map, Option.map_map]
      congr 1
      funext k
      rw [Function.comp_apply, Function.comp_apply, List.take_succ_cons, Nat.succ_add,
        List.drop_succ_cons]

/-! ## The first element of two kinds -/

omit [DecidableEq α] in
/-- **Two kinds of elements come first at the same place** exactly if the first element
of either kind is of both. -/
theorem findIdx?_eq_iff {p q : α → Bool} {l : List α} :
    l.findIdx? p = l.findIdx? q ↔
      ∀ e, l.find? (fun a => p a || q a) = some e → p e = true ∧ q e = true := by
  have hzero : ∀ o : Option ℕ, some 0 ≠ o.map (· + 1) := by
    intro o
    cases o with
    | none => simp
    | some n => simp
  have hsucc : ∀ o o' : Option ℕ, o.map (· + 1) = o'.map (· + 1) ↔ o = o' := by
    intro o o'
    cases o with
    | none => cases o' <;> simp
    | some n => cases o' <;> simp
  induction l with
  | nil => simp
  | cons a l ih =>
    rw [List.findIdx?_cons, List.findIdx?_cons, List.find?_cons]
    cases hp : p a with
    | true =>
      cases hq : q a with
      | true => simp [hp, hq]
      | false => simp [hp, hq, hzero]
    | false =>
      cases hq : q a with
      | true => simp [hp, hq, (hzero _).symm]
      | false =>
        simp only [Bool.or_false, Bool.false_eq_true, if_false]
        exact (hsucc _ _).trans ih

end Search
