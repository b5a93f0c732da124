/-
# Loops that move a position on

A loop whose body says, for the state that it is in, that the loop goes on with another state
or that it ends with a result; the body itself may panic.  `loop` runs it for at most so many
rounds, and has no value when a round panics or the rounds run out.

`Advances` says that no round panics, that a round which goes on has moved the position, and
that the loop ends once the position is at the bound or past it.  Such a loop ends
(`exists_loop`), also when its position jumps over the bound.
-/
import Mathlib.Data.Nat.Notation
import PySpell.Lib.Checked

namespace Checked

variable {σ α : Type}

/-- How a round of a loop ends. -/
inductive Round (σ α : Type) where
  | again (s : σ)
  | done (a : α)

/-- `loop { body }`, with a bound on the number of rounds. -/
def loop (body : σ → Option (Round σ α)) : ℕ → σ → Option α
  | 0, _ => none
  | fuel + 1, s =>
    match body s with
    | none => none
    | some (.again s') => loop body fuel s'
    | some (.done a) => some a

/-- What follows a first part that ends with a value. -/
theorem exists_bind_of_some {β : Type} {x : Option σ} {f : σ → Option β} {P : β → Prop} {s : σ}
    (hx : x = some s) (h : ∃ r, f s = some r ∧ P r) : ∃ r, (x >>= f) = some r ∧ P r := by
  rw [hx]
  exact h

/-- Every round returns and moves the position on, up to the bound. -/
structure Advances (pos : σ → ℕ) (bound : ℕ) (body : σ → Option (Round σ α)) : Prop where
  returns : ∀ s, ∃ r, body s = some r
  advance : ∀ s s', body s = some (.again s') → pos s < pos s'
  stops : ∀ s s', body s = some (.again s') → pos s < bound

variable {pos : σ → ℕ} {bound fuel : ℕ} {body : σ → Option (Round σ α)} {s : σ}

/-- What one round says about the loop. -/
theorem loop_succ_of_again {s' : σ} (h : body s = some (.again s')) (fuel : ℕ) :
    loop body (fuel + 1) s = loop body fuel s' := by
  rw [loop, h]

theorem loop_succ_of_done {a : α} (h : body s = some (.done a)) (fuel : ℕ) :
    loop body (fuel + 1) s = some a := by
  rw [loop, h]

theorem Advances.of_rounds (h : ∀ s, ∃ r, body s = some r ∧
    ∀ s', r = .again s' → pos s < pos s' ∧ pos s < bound) : Advances pos bound body where
  returns s := by
    obtain ⟨r, hr, -⟩ := h s
    exact ⟨r, hr⟩
  advance s s' hs := by
    obtain ⟨r, hr, hmove⟩ := h s
    rw [hr, Option.some_inj] at hs
    exact (hmove s' hs).1
  stops s s' hs := by
    obtain ⟨r, hr, hmove⟩ := h s
    rw [hr, Option.some_inj] at hs
    exact (hmove s' hs).2

/-- **A loop that advances ends**, with what a function says that its rounds keep, for the
states that an invariant holds of. -/
theorem Advances.loop_eq (h : Advances pos bound body) {f : σ → α} (Inv : σ → Prop)
    (hround : ∀ s, Inv s → (∃ s', body s = some (.again s') ∧ Inv s' ∧ f s = f s') ∨
      body s = some (.done (f s))) (hs : Inv s) : loop body (bound + 1) s = some (f s) := by
  have hends : ∀ fuel s, 0 < fuel → bound < fuel + pos s → Inv s →
      loop body fuel s = some (f s) := by
    intro fuel
    induction fuel with
    | zero => intro s hpos _ _; omega
    | succ fuel ih =>
      intro s _ hfuel hs
      obtain ⟨s', hr, hinv, heq⟩ | hr := hround s hs
      · have hmove := h.advance s s' hr
        have hbound := h.stops s s' hr
        rw [loop_succ_of_again hr, heq]
        exact ih s' (by omega) (by omega) hinv
      · exact loop_succ_of_done hr fuel
  exact hends (bound + 1) s (Nat.succ_pos bound) (by omega) hs

/-- **A loop that advances ends**, wherever it starts. -/
theorem Advances.exists_loop (h : Advances pos bound body) (s : σ) :
    ∃ a, loop body (bound + 1) s = some a := by
  have hends : ∀ fuel s, 0 < fuel → bound < fuel + pos s → ∃ a, loop body fuel s = some a := by
    intro fuel
    induction fuel with
    | zero => intro s hpos _; omega
    | succ fuel ih =>
      intro s _ hfuel
      obtain ⟨r, hr⟩ := h.returns s
      cases r with
      | again s' =>
        have hmove := h.advance s s' hr
        have hbound := h.stops s s' hr
        rw [loop_succ_of_again hr]
        exact ih s' (by omega) (by omega)
      | done a => exact ⟨a, loop_succ_of_done hr fuel⟩
  exact hends (bound + 1) s (Nat.succ_pos bound) (by omega)

/-- What the rounds keep and the last one gives is true of the result. -/
theorem loop_post (Inv : σ → Prop) (Post : α → Prop)
    (hagain : ∀ s s', Inv s → body s = some (.again s') → Inv s')
    (hdone : ∀ s a, Inv s → body s = some (.done a) → Post a) {a : α} (hs : Inv s)
    (h : loop body fuel s = some a) : Post a := by
  induction fuel generalizing s with
  | zero => cases h
  | succ fuel ih =>
    rcases hr : body s with _ | r
    · rw [loop, hr] at h
      cases h
    · cases r with
      | again s' =>
        rw [loop_succ_of_again hr] at h
        exact ih (hagain s s' hs hr) h
      | done b =>
        rw [loop_succ_of_done hr, Option.some_inj] at h
        exact h ▸ hdone s b hs hr

end Checked
