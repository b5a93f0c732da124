/-
# Two threads that share a state

A thread is a local state, from which it takes one section after the other; a section reads
and changes the shared state and may send something.  The operations that a thread still has
to do are those that `waiting` tells from its local state.  When every section does nothing,
or does at once what one of these operations does, the threads do together what the
operations do one after the other, in some order (`linearizable`).
-/
import PySpell.Lib.Runs
import Mathlib.Data.List.Perm.Basic

namespace Threads

open Runs

variable {σ τ ω ε : Type}

/-- Operations one after the other, with all that they send. -/
def sequential (atomic : σ → ω → σ × List ε) : σ → List ω → σ × List ε
  | s, [] => (s, [])
  | s, op :: ops =>
    let (s, out) := atomic s op
    let (s, out') := sequential atomic s ops
    (s, out ++ out')

theorem sequential_singleton (atomic : σ → ω → σ × List ε) (s : σ) (op : ω) :
    sequential atomic s [op] = atomic s op := by
  show (_, (atomic s op).2 ++ []) = _
  rw [List.append_nil]

theorem sequential_concat (atomic : σ → ω → σ × List ε) (op : ω) (ops : List ω) : ∀ s : σ,
    sequential atomic s (ops ++ [op]) =
      ((atomic (sequential atomic s ops).1 op).1,
        (sequential atomic s ops).2 ++ (atomic (sequential atomic s ops).1 op).2) := by
  induction ops with
  | nil => exact fun s => sequential_singleton atomic s op
  | cons op' ops ih =>
    intro s
    show ((sequential atomic (atomic s op').1 (ops ++ [op])).1,
      (atomic s op').2 ++ (sequential atomic (atomic s op').1 (ops ++ [op])).2) = _
    rw [ih, ← List.append_assoc]
    rfl

inductive Side where
  | left
  | right

/-- The shared state, the two threads, and what was sent. -/
structure System (σ τ ε : Type) where
  shared : σ
  left : τ
  right : τ
  out : List ε

namespace System

/-- The thread of a side. -/
def thread (x : System σ τ ε) : Side → τ
  | .left => x.left
  | .right => x.right

/-- A section of one thread. -/
def step (sec : σ → τ → Option (σ × τ × List ε)) (x : System σ τ ε) :
    Side → Option (System σ τ ε)
  | .left => (sec x.shared x.left).map fun r => ⟨r.1, r.2.1, x.right, x.out ++ r.2.2⟩
  | .right => (sec x.shared x.right).map fun r => ⟨r.1, x.left, r.2.1, x.out ++ r.2.2⟩

end System

section

variable (sec : σ → τ → Option (σ × τ × List ε)) (atomic : σ → ω → σ × List ε)
  (waiting : τ → List ω) (ok : τ → Prop) (clean : σ → τ → Prop)

/-- A section that is clean does nothing, or does one of the operations that wait. -/
def Linear : Prop :=
  ∀ {s : σ} {t : τ} {s' : σ} {t' : τ} {out : List ε}, ok t → clean s t →
    sec s t = some (s', t', out) → ok t' ∧
      ((waiting t').Perm (waiting t) ∧ s' = s ∧ out = [] ∨
        ∃ op, (waiting t).Perm (op :: waiting t') ∧ atomic s op = (s', out))

/-- What the threads have done is what the operations that no longer wait do one after the
other. -/
structure Inv (s : σ) (l : List ω) (x : System σ τ ε) : Prop where
  left : ok x.left
  right : ok x.right
  done : ∃ ops, (ops ++ (waiting x.left ++ waiting x.right)).Perm l ∧
    sequential atomic s ops = (x.shared, x.out)

variable {sec atomic waiting ok clean}

theorem inv_step (h : Linear sec atomic waiting ok clean) {s : σ} {l : List ω}
    (x : System σ τ ε) (side : Side) (x' : System σ τ ε) (hx : Inv atomic waiting ok s l x)
    (hclean : clean x.shared (x.thread side)) (hstep : x.step sec side = some x') :
    Inv atomic waiting ok s l x' := by
  obtain ⟨ops, hperm, hseq⟩ := hx.done
  cases side with
  | left =>
    obtain ⟨⟨s', t', out⟩, hsec, rfl⟩ := Option.map_eq_some_iff.mp hstep
    obtain ⟨hok, ⟨hwait, rfl, rfl⟩ | ⟨op, hwait, hop⟩⟩ := h hx.left hclean hsec
    · refine ⟨hok, hx.right, ops, ?_, ?_⟩
      · exact ((hwait.append_right _).append_left ops).trans hperm
      · rw [hseq, List.append_nil]
    · refine ⟨hok, hx.right, ops ++ [op], ?_, ?_⟩
      · rw [List.append_assoc]
        exact ((hwait.symm.append_right _).append_left ops).trans hperm
      · rw [sequential_concat, hseq, hop]
  | right =>
    obtain ⟨⟨s', t', out⟩, hsec, rfl⟩ := Option.map_eq_some_iff.mp hstep
    obtain ⟨hok, ⟨hwait, rfl, rfl⟩ | ⟨op, hwait, hop⟩⟩ := h hx.right hclean hsec
    · refine ⟨hx.left, hok, ops, ?_, ?_⟩
      · exact ((hwait.append_left _).append_left ops).trans hperm
      · rw [hseq, List.append_nil]
    · refine ⟨hx.left, hok, ops ++ [op], ?_, ?_⟩
      · have hmove :
            (op :: (waiting x.left ++ waiting t')).Perm (waiting x.left ++ waiting x.right) :=
          List.perm_middle.symm.trans (hwait.symm.append_left _)
        rw [List.append_assoc]
        exact (hmove.append_left ops).trans hperm
      · rw [sequential_concat, hseq, hop]

/-- **Two threads do what their operations do one after the other**, when all sections that
they take are clean. -/
theorem linearizable (h : Linear sec atomic waiting ok clean) {s : σ} {t u : τ} (ht : ok t)
    (hu : ok u) {sched : List Side} {x : System σ τ ε}
    (hclean : Along (System.step sec) (fun x side => clean x.shared (x.thread side)) ⟨s, t, u, []⟩
      sched) (hrun : run (System.step sec) ⟨s, t, u, []⟩ sched = some x) :
    ∃ ops, (ops ++ (waiting x.left ++ waiting x.right)).Perm (waiting t ++ waiting u) ∧
      sequential atomic s ops = (x.shared, x.out) := by
  have hstart : Inv atomic waiting ok s (waiting t ++ waiting u)
      (⟨s, t, u, []⟩ : System σ τ ε) := ⟨ht, hu, [], .refl _, rfl⟩
  exact (run_inv_along (inv_step h) hstart hclean hrun).done

end

end Threads
