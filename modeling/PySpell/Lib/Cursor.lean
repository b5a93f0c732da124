/-
# Reading a list at a position

What stands at a position of a list is stated as an equation about the rest of the list
from there, `b.drop p = u ++ r`: the cursor may then be moved behind `u`.
-/
import Mathlib.Data.List.Basic

namespace Cursor

variable {α : Type*} {b r u : List α} {p : ℕ} {x : α}

theorem lt_length (h : b.drop p = x :: r) : p < b.length := by
  by_contra hlt
  rw [List.drop_eq_nil_of_le (Nat.not_lt.mp hlt)] at h
  cases h

theorem getElem?_eq (h : b.drop p = x :: r) : b[p]? = some x := by
  rw [← Nat.add_zero p, ← List.getElem?_drop, h]
  rfl

theorem getElem_eq (h : b.drop p = x :: r) (hlt : p < b.length) : b[p] = x := by
  have hget := getElem?_eq h
  rw [List.getElem?_eq_getElem hlt] at hget
  exact Option.some.inj hget

/-- The cursor moves behind what it reads. -/
theorem drop_add (h : b.drop p = u ++ r) : b.drop (p + u.length) = r := by
  rw [← List.drop_drop, h, List.drop_left]

theorem drop_succ (h : b.drop p = x :: r) : b.drop (p + 1) = r := drop_add (u := [x]) h

/-- A function of the position that goes on over each element of `u` goes on over `u`. -/
theorem goes_on {β : Type*} {f : ℕ → β} {P : α → Prop}
    (hstep : ∀ {p x r}, b.drop p = x :: r → P x → f p = f (p + 1)) (hu : ∀ x ∈ u, P x)
    (h : b.drop p = u ++ r) : f p = f (p + u.length) := by
  induction u generalizing p with
  | nil => rfl
  | cons x u ih =>
    have hone := hstep h (hu x List.mem_cons_self)
    have hrest := ih (fun y hy => hu y (List.mem_cons_of_mem x hy)) (drop_succ h)
    rw [hone, hrest, List.length_cons, Nat.add_assoc, Nat.add_comm 1]

end Cursor
