/-
# Runs of an event-driven system

A system is a function `step` from a state and an event to the next state, or to
`none` when the event cannot happen.  `run` follows a list of events.  A property
that every step preserves holds at the end of every run (`run_inv`); when the steps
preserve it under a condition, it holds at the end of the runs whose steps meet the
condition (`run_inv_along`), and a rank that steps pay from bounds how many of them there are
(`run_rank_along`).  When a step keeps a property exactly under the condition,
the property holds throughout a run exactly if the run meets the condition
(`throughout_iff_along`, and `throughout_iff_along_of` along some runs).
`exists_run_of_progress` turns a step that can always be taken and that descends into a
run that ends.
-/
import Mathlib.Data.List.Basic
import Mathlib.Order.WellFounded

namespace Runs

variable {σ ε : Type} {step : σ → ε → Option σ}

/-- The state after a list of events. -/
def run (step : σ → ε → Option σ) : σ → List ε → Option σ
  | s, [] => some s
  | s, e :: es => (step s e).bind fun s' => run step s' es

/-- Every step that is taken meets the condition, in the state where it is taken. -/
def Along (step : σ → ε → Option σ) (ok : σ → ε → Prop) : σ → List ε → Prop
  | _, [] => True
  | s, e :: es => ok s e ∧ ∀ s', step s e = some s' → Along step ok s' es

/-- The property holds in every state of the run, the first one included. -/
def Throughout (step : σ → ε → Option σ) (P : σ → Prop) (s : σ) (es : List ε) : Prop :=
  ∀ pre t, pre <+: es → run step s pre = some t → P t

@[simp] theorem run_nil (s : σ) : run step s [] = some s := rfl

theorem run_cons (s : σ) (e : ε) (es : List ε) :
    run step s (e :: es) = (step s e).bind fun s' => run step s' es := rfl

theorem run_cons_of_step {s s' : σ} {e : ε} (h : step s e = some s') (es : List ε) :
    run step s (e :: es) = run step s' es := by
  rw [run_cons, h]
  rfl

theorem run_cons_eq_some {s t : σ} {e : ε} {es : List ε} :
    run step s (e :: es) = some t ↔ ∃ s', step s e = some s' ∧ run step s' es = some t := by
  rw [run_cons, Option.bind_eq_some_iff]

theorem along_cons_of_step {ok : σ → ε → Prop} {s s' : σ} {e : ε} {es : List ε} (hok : ok s e)
    (h : step s e = some s') (hrest : Along step ok s' es) : Along step ok s (e :: es) := by
  refine ⟨hok, fun t ht => ?_⟩
  rw [h, Option.some_inj] at ht
  exact ht ▸ hrest

/-- Conditions that agree in every state hold along the same runs. -/
theorem along_congr {ok ok' : σ → ε → Prop} (h : ∀ s e, ok s e ↔ ok' s e) (s : σ) (es : List ε) :
    Along step ok s es ↔ Along step ok' s es := by
  have heq : ok = ok' := by
    funext s e
    exact propext (h s e)
  rw [heq]

/-! ### Runs in two parts -/

theorem run_append (s : σ) (es es' : List ε) :
    run step s (es ++ es') = (run step s es).bind fun s' => run step s' es' := by
  induction es generalizing s with
  | nil => rfl
  | cons e es ih =>
    rw [List.cons_append, run_cons, run_cons]
    cases step s e with
    | none => rfl
    | some s' => exact ih s'

/-- The last step of a run meets the condition. -/
theorem along_concat {ok : σ → ε → Prop} {e : ε} {es : List ε} :
    ∀ {s t : σ}, Along step ok s (es ++ [e]) → run step s es = some t → ok t e := by
  induction es with
  | nil =>
    intro s t h hrun
    rw [run_nil, Option.some_inj] at hrun
    exact hrun ▸ h.1
  | cons e' es ih =>
    intro s t h hrun
    obtain ⟨s', hs', hrun'⟩ := run_cons_eq_some.mp hrun
    exact ih (h.2 s' hs') hrun'

/-- **What steps preserve under a condition holds along the runs that meet it.** -/
theorem run_inv_along {Inv : σ → Prop} {ok : σ → ε → Prop}
    (hstep : ∀ s e s', Inv s → ok s e → step s e = some s' → Inv s') {es : List ε} :
    ∀ {s t : σ}, Inv s → Along step ok s es → run step s es = some t → Inv t := by
  induction es with
  | nil =>
    intro s t hs _ hrun
    rw [run_nil, Option.some_inj] at hrun
    exact hrun ▸ hs
  | cons e es ih =>
    intro s t hs hok hrun
    obtain ⟨s', hs', hrun'⟩ := run_cons_eq_some.mp hrun
    exact ih (hstep s e s' hs hok.1 hs') (hok.2 s' hs') hrun'

/-- **A rank that some of the steps pay from**, along the runs that meet a condition. -/
theorem run_rank_along {Inv : ℕ → σ → Prop} {ok : σ → ε → Prop} {counts : ε → Bool}
    (hstep : ∀ n s e s', Inv n s → ok s e → step s e = some s' →
      ∃ n', Inv n' s' ∧ n' + (if counts e then 1 else 0) ≤ n) {es : List ε} :
    ∀ {n : ℕ} {s t : σ}, Inv n s → Along step ok s es → run step s es = some t →
      ∃ n', Inv n' t ∧ n' + es.countP counts ≤ n := by
  induction es with
  | nil =>
    intro n s t hs _ hrun
    rw [run_nil, Option.some_inj] at hrun
    exact ⟨n, hrun ▸ hs, Nat.le_refl n⟩
  | cons e es ih =>
    intro n s t hs hok hrun
    obtain ⟨s', hs', hrun'⟩ := run_cons_eq_some.mp hrun
    obtain ⟨m, hm, hle⟩ := hstep n s e s' hs hok.1 hs'
    obtain ⟨n', hn', hle'⟩ := ih hm (hok.2 s' hs') hrun'
    refine ⟨n', hn', ?_⟩
    rw [List.countP_cons]
    omega

/-! ### Conditions along a run -/

theorem along_true (s : σ) (es : List ε) : Along step (fun _ _ => True) s es := by
  induction es generalizing s with
  | nil => trivial
  | cons e es ih => exact ⟨trivial, fun s' _ => ih s'⟩

/-- A condition that the events themselves meet. -/
theorem along_of_forall_mem {ok : ε → Prop} {es : List ε} :
    ∀ s : σ, (∀ e ∈ es, ok e) → Along step (fun _ e => ok e) s es := by
  induction es with
  | nil => exact fun _ _ => trivial
  | cons e es ih =>
    intro s h
    exact ⟨h e List.mem_cons_self, fun s' _ => ih s' fun e' he' => h e' (List.mem_cons_of_mem e he')⟩

/-- What holds of a step under an invariant holds of the steps of a run. -/
theorem along_of_inv {Inv : σ → Prop} {pre ok : σ → ε → Prop}
    (hstep : ∀ s e s', Inv s → pre s e → step s e = some s' → Inv s')
    (hok : ∀ s e, Inv s → pre s e → ok s e) {es : List ε} :
    ∀ {s : σ}, Inv s → Along step pre s es → Along step ok s es := by
  induction es with
  | nil => exact fun _ _ => trivial
  | cons e es ih =>
    intro s hs hpre
    exact ⟨hok s e hs hpre.1, fun s' hs' => ih (hstep s e s' hs hpre.1 hs') (hpre.2 s' hs')⟩

/-- The steps of a first part of a run. -/
theorem along_take {ok : σ → ε → Prop} {pre es : List ε} (h : pre <+: es) :
    ∀ {s : σ}, Along step ok s es → Along step ok s pre := by
  induction pre generalizing es with
  | nil => exact fun _ => trivial
  | cons e pre ih =>
    intro s hok
    cases es with
    | nil => exact absurd (List.prefix_nil.mp h) (List.cons_ne_nil e pre)
    | cons e' es =>
      obtain ⟨rfl, hpre⟩ := List.cons_prefix_cons.mp h
      exact ⟨hok.1, fun s' hs' => ih hpre (hok.2 s' hs')⟩

/-- The same in every state of the run. -/
theorem throughout_of_along {Inv P : σ → Prop} {ok : σ → ε → Prop}
    (hstep : ∀ s e s', Inv s → ok s e → step s e = some s' → Inv s') (hP : ∀ s, Inv s → P s)
    {es : List ε} {s : σ} (hs : Inv s) (h : Along step ok s es) : Throughout step P s es :=
  fun _ t hpre hrun => hP t (run_inv_along hstep hs (along_take hpre h) hrun)

/-- **What every step preserves holds along every run.** -/
theorem run_inv {Inv : σ → Prop} (hstep : ∀ s e s', Inv s → step s e = some s' → Inv s')
    {es : List ε} {s t : σ} (hs : Inv s) (hrun : run step s es = some t) : Inv t := by
  have hstep' : ∀ s e s', Inv s → True → step s e = some s' → Inv s' :=
    fun s e s' h _ => hstep s e s' h
  exact run_inv_along hstep' hs (along_true s es) hrun

/-! ### Properties of every state -/

theorem throughout_nil {P : σ → Prop} {s : σ} : Throughout step P s [] ↔ P s := by
  constructor
  · exact fun h => h [] s (List.prefix_refl []) rfl
  · intro hs pre t hpre hrun
    rw [List.prefix_nil.mp hpre, run_nil, Option.some_inj] at hrun
    exact hrun ▸ hs

theorem throughout_cons_of_step {P : σ → Prop} {s s' : σ} {e : ε} (h : step s e = some s')
    {es : List ε} : Throughout step P s (e :: es) ↔ P s ∧ Throughout step P s' es := by
  constructor
  · intro hall
    refine ⟨hall [] s List.nil_prefix rfl, fun pre t hpre hrun => ?_⟩
    exact hall (e :: pre) t (List.cons_prefix_cons.mpr ⟨rfl, hpre⟩)
      ((run_cons_of_step h pre).trans hrun)
  · rintro ⟨hs, hall⟩ pre t hpre hrun
    rcases List.prefix_cons_iff.mp hpre with rfl | ⟨pre', rfl, hpre'⟩
    · rw [run_nil, Option.some_inj] at hrun
      exact hrun ▸ hs
    · rw [run_cons_of_step h] at hrun
      exact hall pre' t hpre' hrun

/-- **Steps that keep a property exactly under a condition**: along the runs on which they do,
the property holds throughout if and only if the steps of the run meet the condition. -/
theorem throughout_iff_along_of {P : σ → Prop} {pre ok : σ → ε → Prop}
    (hstep : ∀ s e, P s → pre s e → ∃ s', step s e = some s' ∧ (P s' ↔ ok s e)) {es : List ε} :
    ∀ {s : σ}, P s → Along step pre s es → (Throughout step P s es ↔ Along step ok s es) := by
  induction es with
  | nil => exact fun hs _ => iff_of_true (throughout_nil.mpr hs) trivial
  | cons e es ih =>
    intro s hs hpre
    obtain ⟨s', hs', hiff⟩ := hstep s e hs hpre.1
    rw [throughout_cons_of_step hs']
    constructor
    · rintro ⟨-, hall⟩
      have hP : P s' := hall [] s' List.nil_prefix rfl
      exact along_cons_of_step (hiff.mp hP) hs' ((ih hP (hpre.2 s' hs')).mp hall)
    · rintro ⟨hok, hrest⟩
      exact ⟨hs, (ih (hiff.mpr hok) (hpre.2 s' hs')).mpr (hrest s' hs')⟩

/-- The same for steps that do so along every run. -/
theorem throughout_iff_along {P : σ → Prop} {ok : σ → ε → Prop}
    (hstep : ∀ s e, P s → ∃ s', step s e = some s' ∧ (P s' ↔ ok s e)) {es : List ε} {s : σ}
    (hs : P s) : Throughout step P s es ↔ Along step ok s es :=
  throughout_iff_along_of (fun s e h _ => hstep s e h) hs (along_true s es)

/-- **A step that can always be taken and that descends leads to an end.** -/
theorem exists_run_of_progress {ι : Type} {r : ι → ι → Prop} (hr : WellFounded r)
    (measure : σ → ι) {Inv done : σ → Prop} {good : ε → Prop}
    (hstep : ∀ s e s', Inv s → step s e = some s' → Inv s')
    (hprog : ∀ s, Inv s → done s ∨
      ∃ e s', good e ∧ step s e = some s' ∧ r (measure s') (measure s)) {s : σ} (hs : Inv s) :
    ∃ es t, (∀ e ∈ es, good e) ∧ run step s es = some t ∧ done t := by
  generalize hm : measure s = m
  induction m using hr.induction generalizing s with
  | _ m ih =>
    subst hm
    rcases hprog s hs with hdone | ⟨e, s', hgood, hs', hlt⟩
    · exact ⟨[], s, by simp, rfl, hdone⟩
    · obtain ⟨es, t, hall, hrun, hdone⟩ := ih _ hlt (hstep s e s' hs hs') rfl
      refine ⟨e :: es, t, ?_, ?_, hdone⟩
      · intro e' he'
        rcases List.mem_cons.mp he' with rfl | he'
        · exact hgood
        · exact hall e' he'
      · rw [run_cons_of_step hs', hrun]

end Runs
