/-
# Two computations in lockstep

Two computations that may panic are compared where both of them end: `Agree R x y` says that
the values are related by `R` whenever there are two.  The rules go through the two texts
together, and an index may be computed from different numbers on the two sides as long as
what is read there is the same.

An array that a loop fills from its start to its end does not depend on what was in it
(`agree_fill`), and an array of rows is read and written by row (`row`, `row_splice`).
-/
import PySpell.Lib.Checked

namespace Checked

variable {α β γ δ σ τ : Type}

/-- Two values are related, if there are two. -/
def Agree (R : α → β → Prop) (x : Option α) (y : Option β) : Prop :=
  ∀ a b, x = some a → y = some b → R a b

namespace Agree

variable {R : α → β → Prop} {x : Option α} {y : Option β}

theorem mono {R' : α → β → Prop} (h : Agree R x y) (hR : ∀ a b, R a b → R' a b) : Agree R' x y :=
  fun a b ha hb => hR a b (h a b ha hb)

theorem pure {a : α} {b : β} (h : R a b) : Agree R (some a) (some b) := by
  intro a' b' ha hb
  rw [← Option.some_inj.mp ha, ← Option.some_inj.mp hb]
  exact h

/-- The same computation twice. -/
theorem of_eq {x y : Option α} (h : x = y) : Agree Eq x y := by
  intro a b ha hb
  rw [h, hb] at ha
  exact (Option.some_inj.mp ha).symm

theorem refl (x : Option α) : Agree Eq x x := of_eq rfl

/-- **Sequencing.** -/
theorem bind {S : γ → δ → Prop} {f : α → Option γ} {g : β → Option δ} (h : Agree R x y)
    (hfg : ∀ a b, R a b → Agree S (f a) (g b)) : Agree S (x >>= f) (y >>= g) := by
  intro c d hc hd
  obtain ⟨a, ha, hfa⟩ := Option.bind_eq_some_iff.mp hc
  obtain ⟨b, hb, hgb⟩ := Option.bind_eq_some_iff.mp hd
  exact hfg a b (h a b ha hb) c d hfa hgb

/-- Sequencing after a first part that is the same. -/
theorem bind_eq {S : γ → δ → Prop} {x y : Option α} {f : α → Option γ} {g : α → Option δ}
    (h : Agree Eq x y) (hfg : ∀ a, Agree S (f a) (g a)) : Agree S (x >>= f) (y >>= g) :=
  h.bind fun a _ hab => hab ▸ hfg a

/-- What each side ensures by itself. -/
theorem and_holds {P : α → Prop} {Q : β → Prop} {suff nec suff' nec' : Prop} (h : Agree R x y)
    (hx : Reaches P suff nec x) (hy : Reaches Q suff' nec' y) :
    Agree (fun a b => P a ∧ Q b ∧ R a b) x y :=
  fun a b ha hb => ⟨hx.holds a ha, hy.holds b hb, h a b ha hb⟩

/-- **Two loops over one range.** -/
theorem upTo {R : ℕ → σ → τ → Prop} {body : ℕ → σ → Option σ} {body' : ℕ → τ → Option τ} {n : ℕ}
    (hbody : ∀ i < n, ∀ s t, R i s t → Agree (R (i + 1)) (body i s) (body' i t)) {s : σ} {t : τ}
    (h : R 0 s t) : Agree (R n) (Checked.upTo body n s) (Checked.upTo body' n t) := by
  induction n with
  | zero => exact pure h
  | succ n ih =>
    exact (ih fun i hi => hbody i (hi.trans (Nat.lt_succ_self n))).bind
      (hbody n (Nat.lt_succ_self n))

/-- Two loops that count up by one step. -/
theorem whileBelow {M : Machine} {n step : ℕ} {R : σ → τ → Prop} {body : ℕ → σ → Option σ}
    {body' : ℕ → τ → Option τ} (hbody : ∀ j s t, R s t → Agree R (body j s) (body' j t))
    (fuel : ℕ) : ∀ (j : ℕ) {s : σ} {t : τ}, R s t → Agree R
      (Checked.whileBelow M n step body fuel j s) (Checked.whileBelow M n step body' fuel j t) := by
  induction fuel with
  | zero =>
    intro j s t _ a b ha
    cases ha
  | succ fuel ih =>
    intro j s t h
    rw [Checked.whileBelow, Checked.whileBelow]
    split_ifs with hj
    · exact (hbody j s t h).bind fun s t hst => (refl _).bind_eq fun j => ih j hst
    · exact pure h

end Agree

/-- What the rounds of a loop keep. -/
theorem upTo_inv {inv : σ → Prop} {body : ℕ → σ → Option σ} {n : ℕ}
    (hbody : ∀ i s, inv s → ∀ s', body i s = some s' → inv s') {s : σ} (hs : inv s) (s' : σ)
    (h : upTo body n s = some s') : inv s' := by
  have hrounds : Agree (fun s _ => inv s) (Checked.upTo body n s) (Checked.upTo body n s) :=
    Agree.upTo (R := fun _ s _ => inv s) (fun i _ s _ hs s' _ hs' _ => hbody i s hs s' hs') hs
  exact hrounds s' s' h h

/-! ## Words -/

section Words

variable {M : Machine}

theorem agree_add (a b c d : ℕ) :
    Agree (fun i j => i = a + b ∧ j = c + d) (M.strict.add a b) (M.strict.add c d) :=
  fun _ _ hi hj => ⟨(reaches_add a b).holds _ hi, (reaches_add c d).holds _ hj⟩

theorem agree_mul (a b c d : ℕ) :
    Agree (fun i j => i = a * b ∧ j = c * d) (M.strict.mul a b) (M.strict.mul c d) :=
  fun _ _ hi hj => ⟨(reaches_mul a b).holds _ hi, (reaches_mul c d).holds _ hj⟩

end Words

/-! ## Arrays that are filled -/

/-- Arrays of one length that agree up to a place. -/
structure SameTo (n i : ℕ) (xs ys : List α) : Prop where
  left : xs.length = n
  right : ys.length = n
  take : xs.take i = ys.take i

theorem sameTo_zero {n : ℕ} {xs ys : List α} (hx : xs.length = n) (hy : ys.length = n) :
    SameTo n 0 xs ys := ⟨hx, hy, rfl⟩

theorem SameTo.eq {n : ℕ} {xs ys : List α} (h : SameTo n n xs ys) : xs = ys := by
  have htake := h.take
  rwa [List.take_of_length_le h.left.le, List.take_of_length_le h.right.le] at htake

theorem take_set {i : ℕ} {xs : List α} (h : i < xs.length) (a : α) :
    (xs.set i a).take (i + 1) = xs.take i ++ [a] := by
  rw [List.take_set, List.take_succ_eq_append_getElem h,
    List.set_append_right _ _ (List.length_take_le i xs)]
  rw [List.length_take, Nat.min_eq_left h.le, Nat.sub_self, List.set_cons_zero]

/-- The next place is set. -/
theorem SameTo.setAt {n i : ℕ} {xs ys : List α} (h : SameTo n i xs ys) (a : α) :
    Agree (SameTo n (i + 1)) (setAt xs i a) (setAt ys i a) := by
  intro xs' ys' hx hy
  unfold Checked.setAt at hx hy
  split_ifs at hx hy with hi hi'
  rw [← Option.some_inj.mp hx, ← Option.some_inj.mp hy]
  refine ⟨by rw [List.length_set, h.left], by rw [List.length_set, h.right], ?_⟩
  rw [take_set hi, take_set hi', h.take]

/-- The same array on the two sides, of a length that is known. -/
def OneArray (n : ℕ) (xs ys : List α) : Prop := xs.length = n ∧ xs = ys

/-- **An array that is filled** does not depend on what was in it. -/
theorem agree_fill {n : ℕ} {xs ys : List α} {f : ℕ → List α → Option (List α)}
    (hf : ∀ i < n, ∀ xs ys, SameTo n i xs ys → Agree (SameTo n (i + 1)) (f i xs) (f i ys))
    (hx : xs.length = n) (hy : ys.length = n) : Agree (OneArray n) (upTo f n xs) (upTo f n ys) :=
  (Agree.upTo (R := SameTo n) hf (sameTo_zero hx hy)).mono fun _ _ h => ⟨h.left, h.eq⟩

/-- Sequencing after an array that is the same. -/
theorem Agree.bind_array {n : ℕ} {S : γ → δ → Prop} {x y : Option (List α)}
    {f : List α → Option γ} {g : List α → Option δ} (h : Agree (OneArray n) x y)
    (hfg : ∀ xs, xs.length = n → Agree S (f xs) (g xs)) : Agree S (x >>= f) (y >>= g) :=
  h.bind fun xs _ hxs => hxs.2 ▸ hfg xs hxs.1

/-! ## Arrays of rows -/

/-- The `i`-th row of `w` places. -/
def row (xs : List α) (w i : ℕ) : List α := (xs.drop (i * w)).take w

theorem getElem?_row {xs : List α} {w i j : ℕ} (h : j < w) : (row xs w i)[j]? = xs[i * w + j]? := by
  rw [row, List.getElem?_take, if_pos h, List.getElem?_drop]

/-- What is read within a row. -/
theorem getElem?_of_row {xs ys : List α} {w i i' : ℕ} (h : row xs w i = row ys w i') {j : ℕ}
    (hj : j < w) : xs[i * w + j]? = ys[i' * w + j]? := by
  rw [← getElem?_row hj, h, getElem?_row hj]

theorem getElem?_splice {xs ys : List α} {a : ℕ} (h : a + ys.length ≤ xs.length) (k : ℕ) :
    (splice xs a ys)[k]? = if k < a then xs[k]? else if k < a + ys.length then ys[k - a]?
      else xs[k]? := by
  rw [splice, List.append_assoc]
  have htake : (xs.take a).length = a := by
    rw [List.length_take]
    omega
  split_ifs with hlow hmid
  · rw [List.getElem?_append_left (by omega), List.getElem?_take, if_pos hlow]
  · rw [List.getElem?_append_right (by omega), htake, List.getElem?_append_left (by omega)]
  · rw [List.getElem?_append_right (by omega), htake, List.getElem?_append_right (by omega),
      List.getElem?_drop]
    congr 1
    omega

/-- **The rows of an array in which one row was written.** -/
theorem row_splice {xs r : List α} {w i : ℕ} (hr : r.length = w) (h : i * w + w ≤ xs.length)
    (k : ℕ) : row (splice xs (i * w) r) w k = if k = i then r else row xs w k := by
  apply List.ext_getElem?
  intro j
  by_cases hj : j < w
  · rw [getElem?_row hj, getElem?_splice (by omega)]
    rcases lt_trichotomy k i with hki | rfl | hki
    · have hmul := Nat.mul_le_mul_right w hki
      rw [Nat.succ_mul] at hmul
      rw [if_pos (by omega), if_neg (by omega), getElem?_row hj]
    · rw [if_neg (by omega), if_pos (by omega), if_pos rfl, Nat.add_sub_cancel_left]
    · have hmul := Nat.mul_le_mul_right w hki
      rw [Nat.succ_mul] at hmul
      rw [if_neg (by omega), if_neg (by omega), if_neg (by omega), getElem?_row hj]
  · have hlong : ∀ l : List α, l.length ≤ w → l[j]? = none :=
      fun l hl => List.getElem?_eq_none (by omega)
    have hrow : ∀ l : List α, (row l w k).length ≤ w := fun l => List.length_take_le w _
    rw [hlong _ (hrow _)]
    split_ifs with hki
    · rw [hlong _ hr.le]
    · rw [hlong _ (hrow _)]

end Checked
