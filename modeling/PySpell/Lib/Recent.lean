/-
# Queues of recent items

A queue to which items come at the back and from which they leave at the front: because the
queue is full, or because they are out of date.  `Keeps n dead history q` says that, of the
last `n` items of the history, the queue misses dead ones only; each operation on such a
queue keeps it.  What is counted in the queue is then counted in the last `n` items of the
history (`Keeps.countP_eq`), and without dead items the queue is these (`Keeps.eq_rtake`).
-/
import Mathlib.Data.List.DropRight

namespace Recent

variable {α : Type} {n : ℕ} {dead dead' : α → Prop} {history q : List α}

/-- The queue misses dead items only of the last `n` in the history. -/
def Keeps (n : ℕ) (dead : α → Prop) (history q : List α) : Prop :=
  ∃ old, history = old ++ q ∧ ∀ x ∈ old.drop (history.length - n), dead x

namespace Keeps

theorem nil : Keeps n dead [] [] := ⟨[], rfl, by simp⟩

theorem mono (h : Keeps n dead history q) (hdead : ∀ x, dead x → dead' x) :
    Keeps n dead' history q := by
  obtain ⟨old, hold, hmiss⟩ := h
  exact ⟨old, hold, fun x hx => hdead x (hmiss x hx)⟩

/-- An item comes. -/
theorem push (h : Keeps n dead history q) (x : α) : Keeps n dead (history ++ [x]) (q ++ [x]) := by
  obtain ⟨old, rfl, hmiss⟩ := h
  refine ⟨old, List.append_assoc .., fun y hy => hmiss y ?_⟩
  rw [List.length_append, List.length_singleton] at hy
  exact (List.drop_subset_drop_left old (by omega)) hy

/-- Dead items leave. -/
theorem dropWhile (h : Keeps n dead history q) {p : α → Bool} (hp : ∀ x, p x = true → dead x) :
    Keeps n dead history (q.dropWhile p) := by
  obtain ⟨old, hold, hmiss⟩ := h
  refine ⟨old ++ q.takeWhile p, ?_, fun x hx => ?_⟩
  · rw [List.append_assoc, List.takeWhile_append_dropWhile, hold]
  · rw [List.drop_append] at hx
    rcases List.mem_append.mp hx with hx | hx
    · exact hmiss x hx
    · exact hp x (List.mem_takeWhile_imp (List.mem_of_mem_drop hx))

/-- The queue is cut to its capacity. -/
theorem rtake (h : Keeps n dead history q) : Keeps n dead history (q.rtake n) := by
  obtain ⟨old, hold, hmiss⟩ := h
  refine ⟨old ++ q.take (q.length - n), ?_, fun x hx => ?_⟩
  · rw [List.append_assoc, List.rtake, List.take_append_drop, hold]
  · rw [List.drop_append] at hx
    rcases List.mem_append.mp hx with hx | hx
    · exact hmiss x hx
    · have hlen : history.length = old.length + q.length := by
        rw [hold, List.length_append]
      have hnone : (q.take (q.length - n)).drop (history.length - n - old.length) = [] := by
        apply List.drop_eq_nil_of_le
        rw [List.length_take]
        omega
      rw [hnone] at hx
      cases hx

/-- The last items of the history, of which some are missing in the queue. -/
theorem exists_rtake_eq (h : Keeps n dead history q) (hlen : q.length ≤ n) :
    ∃ gone, history.rtake n = gone ++ q ∧ ∀ x ∈ gone, dead x := by
  obtain ⟨old, hold, hmiss⟩ := h
  refine ⟨old.drop (history.length - n), ?_, hmiss⟩
  have hzero : history.length - n - old.length = 0 := by
    rw [hold, List.length_append]
    omega
  rw [List.rtake]
  nth_rewrite 2 [hold]
  rw [List.drop_append, hzero, List.drop_zero]

/-- **A count of live items**, in the queue and in the history. -/
theorem countP_eq (h : Keeps n dead history q) (hlen : q.length ≤ n) {p : α → Bool}
    (hp : ∀ x, p x = true → ¬ dead x) : q.countP p = (history.rtake n).countP p := by
  obtain ⟨gone, hgone, hdead⟩ := h.exists_rtake_eq hlen
  have hzero : gone.countP p = 0 :=
    List.countP_eq_zero.mpr fun x hx hpx => hp x hpx (hdead x hx)
  rw [hgone, List.countP_append, hzero, Nat.zero_add]

/-- **A queue of which nothing dies** holds the last items. -/
theorem eq_rtake (h : Keeps n (fun _ => False) history q) (hlen : q.length ≤ n) :
    q = history.rtake n := by
  obtain ⟨gone, hgone, hdead⟩ := h.exists_rtake_eq hlen
  rw [hgone, List.eq_nil_iff_forall_not_mem.mpr hdead, List.nil_append]

end Keeps

theorem length_rtake_le (n : ℕ) (q : List α) : (q.rtake n).length ≤ n := by
  rw [List.rtake, List.length_drop]
  omega

/-- An item comes to a queue that makes room when it is full. -/
theorem room_append_eq (hn : 0 < n) (hlen : q.length ≤ n) (x : α) :
    (if n ≤ q.length then q.tail else q) ++ [x] = (q ++ [x]).rtake n := by
  obtain ⟨m, rfl⟩ : ∃ m, n = m + 1 := ⟨n - 1, by omega⟩
  rw [List.rtake_concat_succ, List.rtake]
  split_ifs with hfull
  · rw [show q.length - m = 1 by omega, List.drop_one]
  · rw [show q.length - m = 0 by omega, List.drop_zero]

/-- **Over a whole history**: a queue into which one item goes after the other. -/
theorem keeps_foldl {record : List α → α → List α} {ok : α → Prop}
    (hrecord : ∀ {history q : List α} {x : α}, Keeps n dead history q → q.length ≤ n → ok x →
      Keeps n dead (history ++ [x]) (record q x) ∧ (record q x).length ≤ n) (items : List α)
    (hitems : ∀ x ∈ items, ok x) :
    Keeps n dead items (items.foldl record []) ∧ (items.foldl record []).length ≤ n := by
  induction items using List.reverseRecOn with
  | nil => exact ⟨.nil, Nat.zero_le n⟩
  | append_singleton items x ih =>
    obtain ⟨hkeeps, hlen⟩ := ih fun y hy => hitems y (List.mem_append_left _ hy)
    rw [List.foldl_append]
    exact hrecord hkeeps hlen (hitems x (List.mem_append_right _ List.mem_cons_self))

end Recent
