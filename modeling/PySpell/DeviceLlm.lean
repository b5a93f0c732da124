/-
# Generation on the device, one job at a time

`start` and `poll` of `device_llm.rs` and the worker thread.  `start` takes the lock
twice: it checks that nothing is running, and later marks that something is; the worker
takes it once, to leave its result.  Every section is one event, by any of the threads
that serve requests.  A job is accepted when it is marked, and numbered then; the numbers
and what was finished are kept beside the state, the code has neither.

While no start marks a job when one is running already, at most one place holds a job
(`Single`), and the flag, the queue and the result are those of that job
(`single_job`).  The lock does not see to it: two starts that both check first are both
accepted (`two_jobs_queued`).
-/
import Mathlib.Logic.Function.Basic
import PySpell.Lib.Runs

open Runs

namespace DeviceLlm

/-! ## The code -/

/-- A prompt, with the number under which it was accepted. -/
structure Job where
  number : ℕ
  prompt : String

/-- How far a thread that serves requests has come in `start`. -/
inductive Phase where
  | outside
  /-- Nothing was running, and there is room on the heap. -/
  | checked (prompt : String)
  | marked (job : Job)
  /-- The worker was made, or there was one. -/
  | sending (job : Job)
  /-- Nothing receives the job. -/
  | refused (job : Job)
  | returned (answer : String)

/-- `GenState`; a result carries the number of its job. -/
structure GenState where
  running : Bool
  result : Option (ℕ × String)

/-- The worker thread: not made yet, could not be made, or what it does. -/
inductive Worker where
  | absent
  | gone
  | waiting
  | busy (job : Job)

structure State where
  gen : GenState
  worker : Worker
  /-- The channel to the worker. -/
  queue : List Job
  callers : ℕ → Phase
  accepted : ℕ
  finished : List ℕ

def State.init : State := ⟨⟨false, none⟩, .absent, [], fun _ => .outside, 0, []⟩

/-- `MIN_FREE_HEAP`. -/
def minFreeHeap : ℕ := 50 * 1024

/-- `poll`: the answer, and the result is taken. -/
def GenState.poll (g : GenState) : String × GenState :=
  if g.running then ("generating on-device…", g)
  else match g.result with
    | some (_, r) => (r, { g with result := none })
    | none => ("idle — POST a prompt to /generate to run the model on the chip", g)

/-- What a thread gets out of the first section of `start`. -/
def GenState.check (g : GenState) (prompt : String) (free largest : UInt32) : Phase :=
  if g.running then .returned "busy: a generation is already running — GET /generate"
  else if free.toNat < minFreeHeap ∨ largest.toNat < 18 * 1024 then
    .returned s!"low memory: free {free} B, largest block {largest} B (need ~{minFreeHeap} + ≥18 kB block) — try again when idle (Tailscale/a fetch is using the heap)"
  else .checked prompt

/-- The thread is not in the middle of a call. -/
def Phase.free : Phase → Bool
  | outside => true
  | returned _ => true
  | _ => false

inductive Event where
  /-- The first section of `start`, with the free heap that was read before it. -/
  | check (i : ℕ) (prompt : String) (free largest : UInt32)
  /-- `STATE.lock().unwrap().running = true`. -/
  | mark (i : ℕ)
  /-- `worker()`, and whether a thread can be made. -/
  | worker (i : ℕ) (spawned : Bool)
  /-- `send(prompt)`. -/
  | send (i : ℕ)
  /-- `STATE.lock().unwrap().running = false`, when nothing receives. -/
  | withdraw (i : ℕ)
  /-- The worker receives a job. -/
  | recv
  /-- The worker leaves its result. -/
  | finish (out : String)
  | poll (i : ℕ)

/-- The thread `i` goes on. -/
def State.goto (s : State) (i : ℕ) (phase : Phase) : State :=
  { s with callers := Function.update s.callers i phase }

def step (s : State) : Event → Option State
  | .check i prompt free largest =>
    if (s.callers i).free then some (s.goto i (s.gen.check prompt free largest)) else none
  | .mark i =>
    match s.callers i with
    | .checked prompt =>
      some { s.goto i (.marked ⟨s.accepted, prompt⟩) with
        gen := { s.gen with running := true }
        accepted := s.accepted + 1 }
    | _ => none
  | .worker i spawned =>
    match s.callers i with
    | .marked job =>
      match s.worker with
      | .absent => some { s.goto i (.sending job) with
          worker := if spawned then .waiting else .gone }
      | _ => some (s.goto i (.sending job))
    | _ => none
  | .send i =>
    match s.callers i with
    | .sending job =>
      match s.worker with
      | .absent => none
      | .gone => some (s.goto i (.refused job))
      | _ => some { s.goto i
          (.returned "started — GET /generate for the result (on-device, ~seconds)") with
          queue := s.queue ++ [job] }
    | _ => none
  | .withdraw i =>
    match s.callers i with
    | .refused job =>
      some { s.goto i (.returned "error: generation worker is gone") with
        gen := { s.gen with running := false }
        finished := job.number :: s.finished }
    | _ => none
  | .recv =>
    match s.worker, s.queue with
    | .waiting, job :: rest => some { s with worker := .busy job, queue := rest }
    | _, _ => none
  | .finish out =>
    match s.worker with
    | .busy job =>
      some { s with
        gen := ⟨false, some (job.number, out)⟩
        worker := .waiting
        finished := job.number :: s.finished }
    | _ => none
  | .poll i =>
    if (s.callers i).free then
      some { s.goto i (.returned s.gen.poll.1) with gen := s.gen.poll.2 }
    else none

/-! ## One job -/

/-- The job that a thread has marked and not handed over. -/
def Phase.jobs : Phase → List Job
  | marked job => [job]
  | sending job => [job]
  | refused job => [job]
  | _ => []

def Worker.jobs : Worker → List Job
  | busy job => [job]
  | _ => []

/-- What holds at every moment: at most one job is queued or running, the flag says whether
an accepted job has not finished, and a result that a poll would return is that of the job
accepted last. -/
structure SingleJob (s : State) : Prop where
  one : s.queue.length + s.worker.jobs.length ≤ 1
  running_iff : s.gen.running = true ↔ ∃ n < s.accepted, n ∉ s.finished
  latest : ∀ n text, s.gen.running = false → s.gen.result = some (n, text) → n + 1 = s.accepted

/-- A start marks its job only when none is running: what it checked still holds. -/
def Fresh (s : State) : Event → Prop
  | .mark _ => s.gen.running = false
  | _ => True

/-! ## Where a job is -/

inductive Place where
  | caller (i : ℕ)
  | queue
  | worker
  deriving DecidableEq

/-- The jobs at a place. -/
def State.jobs (s : State) : Place → List Job
  | .caller i => (s.callers i).jobs
  | .queue => s.queue
  | .worker => s.worker.jobs

/-- One place has the job, and the others have none. -/
def Single (f : Place → List Job) (job : Job) : Prop :=
  ∃ p, f p = [job] ∧ ∀ q, q ≠ p → f q = []

/-- The jobs of one place go to another. -/
structure Moves (f g : Place → List Job) (p q : Place) : Prop where
  ne : q ≠ p
  from_nil : g p = []
  to_eq : g q = f q ++ f p
  frame : ∀ r, r ≠ p → r ≠ q → g r = f r

/-- Where there is a job, there is the only one. -/
theorem Single.eq_of_ne_nil {f : Place → List Job} {job : Job} (h : Single f job) {p : Place}
    (hp : f p ≠ []) : f p = [job] ∧ ∀ q, q ≠ p → f q = [] := by
  obtain ⟨p', hjob, hnil⟩ := h
  have hpp : p = p' := by
    by_contra hne
    exact hp (hnil p hne)
  exact hpp ▸ ⟨hjob, hnil⟩

/-- The only job stays the only one when it moves. -/
theorem Single.move {f g : Place → List Job} {job : Job} (h : Single f job) {p q : Place}
    (hp : f p ≠ []) (hm : Moves f g p q) : Single g job := by
  obtain ⟨hjob, hnil⟩ := h.eq_of_ne_nil hp
  refine ⟨q, ?_, fun r hr => ?_⟩
  · rw [hm.to_eq, hnil q hm.ne, hjob, List.nil_append]
  · by_cases hrp : r = p
    · rw [hrp, hm.from_nil]
    · rw [hm.frame r hrp hr, hnil r hrp]

@[simp] theorem jobs_goto_self (s : State) (i : ℕ) (phase : Phase) :
    (s.goto i phase).jobs (.caller i) = phase.jobs := by
  simp [State.jobs, State.goto]

theorem jobs_goto_ne (s : State) {i : ℕ} (phase : Phase) {p : Place} (h : p ≠ .caller i) :
    (s.goto i phase).jobs p = s.jobs p := by
  cases p with
  | caller j =>
    have hj : j ≠ i := fun hij => h (by rw [hij])
    simp [State.jobs, State.goto, hj]
  | queue => rfl
  | worker => rfl

/-- A thread that goes on with the jobs that it had. -/
theorem jobs_goto (s : State) {i : ℕ} {phase : Phase} (h : phase.jobs = (s.callers i).jobs) :
    (s.goto i phase).jobs = s.jobs := by
  funext p
  by_cases hp : p = .caller i
  · rw [hp, jobs_goto_self, h]
    rfl
  · exact jobs_goto_ne s phase hp

/-! ## What every step keeps -/

/-- Nothing receives jobs, or nothing has yet. -/
def Worker.Silent (w : Worker) : Prop := w = .absent ∨ w = .gone

/-- The job accepted last is the only one, and it has not finished. -/
structure Current (s : State) (job : Job) : Prop where
  last : job.number + 1 = s.accepted
  before : ∀ n < job.number, n ∈ s.finished
  unfinished : job.number ∉ s.finished

/-- **What every step keeps.**  While the flag is clear no place holds a job, all that were
accepted have finished, and a result is that of the last of them.  While it is set one place
holds the job accepted last, which has not finished. -/
structure Inv (s : State) : Prop where
  idle : s.gen.running = false → (∀ p, s.jobs p = []) ∧ (∀ n < s.accepted, n ∈ s.finished) ∧
    ∀ r, s.gen.result = some r → r.1 + 1 = s.accepted
  busy : s.gen.running = true → ∃ job, Current s job ∧ Single s.jobs job
  /-- Nothing finishes that was not accepted. -/
  old : ∀ n ∈ s.finished, n < s.accepted
  /-- No worker, no result. -/
  silent : s.worker.Silent → s.gen.result = none
  /-- A job is refused only because the worker is gone for good. -/
  refused : ∀ i job, s.callers i = .refused job → s.worker = .gone

theorem inv_init : Inv State.init where
  idle _ := ⟨fun p => by cases p <;> rfl, fun n hn => absurd hn n.not_lt_zero,
    fun r hr => by cases hr⟩
  busy h := by cases h
  old n hn := by cases hn
  silent _ := rfl
  refused i job h := by cases h

/-- **What the invariant says.** -/
theorem Inv.singleJob {s : State} (h : Inv s) : SingleJob s := by
  cases hrun : s.gen.running with
  | false =>
    obtain ⟨hnone, hall, hresult⟩ := h.idle hrun
    refine ⟨?_, ?_, fun n text _ hr => hresult _ hr⟩
    · have hqueue : s.queue = [] := hnone .queue
      have hworker : s.worker.jobs = [] := hnone .worker
      rw [hqueue, hworker]
      exact Nat.zero_le 1
    · rw [hrun]
      constructor
      · intro hf
        cases hf
      · rintro ⟨n, hn, hopen⟩
        exact absurd (hall n hn) hopen
  | true =>
    obtain ⟨job, hcur, p, hp, hnil⟩ := h.busy hrun
    refine ⟨?_, ?_, fun n text hf => by rw [hrun] at hf; cases hf⟩
    · -- the queue and the worker are different places
      have hlen : (s.jobs .queue).length + (s.jobs .worker).length ≤ 1 := by
        by_cases hq : p = .queue
        · subst hq
          rw [hp, hnil .worker (by simp)]
          exact le_rfl
        · rw [hnil .queue (Ne.symm hq)]
          by_cases hw : p = .worker
          · rw [← hw, hp]
            exact le_rfl
          · rw [hnil .worker (Ne.symm hw)]
            exact Nat.zero_le 1
      exact hlen
    · refine iff_of_true hrun ⟨job.number, ?_, hcur.unfinished⟩
      have hlast := hcur.last
      omega

/-! ### Moving within a section -/

/-- A place that has a job has the only one. -/
theorem Inv.at_place {s : State} (h : Inv s) {p : Place} {job : Job} {rest : List Job}
    (hp : s.jobs p = job :: rest) :
    s.gen.running = true ∧ rest = [] ∧ Current s job ∧ Single s.jobs job ∧
      ∀ q, q ≠ p → s.jobs q = [] := by
  have hne : s.jobs p ≠ [] := by
    rw [hp]
    exact List.cons_ne_nil _ _
  cases hrun : s.gen.running with
  | false => exact absurd ((h.idle hrun).1 p) hne
  | true =>
    obtain ⟨job', hcur, hsingle⟩ := h.busy hrun
    obtain ⟨hjob, hnil⟩ := hsingle.eq_of_ne_nil hne
    rw [hp] at hjob
    obtain ⟨rfl, rfl⟩ := List.cons_eq_cons.mp hjob
    exact ⟨rfl, rfl, hcur, hsingle, hnil⟩

/-- A thread goes on, and no job moves. -/
theorem Inv.goto {s : State} (h : Inv s) {i : ℕ} {phase : Phase}
    (hjobs : phase.jobs = (s.callers i).jobs)
    (hrefused : ∀ job, phase = .refused job → s.worker = .gone) : Inv (s.goto i phase) where
  idle hrun := by
    rw [jobs_goto s hjobs]
    exact h.idle hrun
  busy hrun := by
    rw [jobs_goto s hjobs]
    obtain ⟨job, hcur, hsingle⟩ := h.busy hrun
    exact ⟨job, ⟨hcur.last, hcur.before, hcur.unfinished⟩, hsingle⟩
  old := h.old
  silent := h.silent
  refused j job hj := by
    by_cases hij : j = i
    · rw [hij] at hj
      have hphase : phase = .refused job := by simpa [State.goto] using hj
      exact hrefused job hphase
    · have hold : s.callers j = .refused job := by simpa [State.goto, hij] using hj
      exact h.refused j job hold

/-! ### Polls -/

/-- A poll takes the result, and leaves the flag. -/
theorem GenState.running_poll (g : GenState) : g.poll.2.running = g.running := by
  unfold GenState.poll
  split_ifs
  · rfl
  · split
    · rfl
    · rfl

theorem GenState.result_poll {g : GenState} {r : ℕ × String} (h : g.poll.2.result = some r) :
    g.result = some r := by
  unfold GenState.poll at h
  split_ifs at h with hrun
  · exact h
  · split at h
    · cases h
    · exact h

/-- A poll keeps the invariant: it adds no job and no result. -/
theorem Inv.poll {s : State} (h : Inv s) : Inv { s with gen := s.gen.poll.2 } where
  idle hrun := by
    obtain ⟨hnone, hall, hresult⟩ := h.idle (s.gen.running_poll ▸ hrun)
    exact ⟨hnone, hall, fun r hr => hresult r (GenState.result_poll hr)⟩
  busy hrun := by
    obtain ⟨job, hcur, hsingle⟩ := h.busy (s.gen.running_poll ▸ hrun)
    exact ⟨job, ⟨hcur.last, hcur.before, hcur.unfinished⟩, hsingle⟩
  old := h.old
  silent hw := by
    have hnone := h.silent hw
    rw [Option.eq_none_iff_forall_ne_some] at hnone ⊢
    exact fun r hr => hnone r (GenState.result_poll hr)
  refused := h.refused

/-- A thread outside of `start` has no job. -/
theorem jobs_of_free {phase : Phase} (h : phase.free = true) : phase.jobs = [] := by
  cases phase with
  | outside => rfl
  | returned => rfl
  | _ => cases h

/-- The first section ends a call or leaves the thread without a job. -/
theorem GenState.check_spec (g : GenState) (prompt : String) (free largest : UInt32) :
    (g.check prompt free largest).jobs = [] ∧
      ∀ job, g.check prompt free largest ≠ .refused job := by
  unfold GenState.check
  split_ifs
  · exact ⟨rfl, fun _ h => by cases h⟩
  · exact ⟨rfl, fun _ h => by cases h⟩
  · exact ⟨rfl, fun _ h => by cases h⟩

/-- A thread that goes on to another phase than `refused`. -/
theorem refused_of_goto {s : State} {i : ℕ} {phase : Phase}
    (hphase : ∀ job, phase ≠ .refused job) {j : ℕ} {job : Job}
    (hj : (s.goto i phase).callers j = .refused job) : s.callers j = .refused job := by
  by_cases hij : j = i
  · subst hij
    have heq : phase = .refused job := by simpa [State.goto] using hj
    exact absurd heq (hphase job)
  · simpa [State.goto, hij] using hj

/-! ### Starting and ending a job -/

/-- **A job is marked** when none is running: it is the only one. -/
theorem Inv.mark {s : State} (h : Inv s) (i : ℕ) (prompt : String)
    (hfresh : s.gen.running = false) :
    Inv { s.goto i (.marked ⟨s.accepted, prompt⟩) with
      gen := { s.gen with running := true }
      accepted := s.accepted + 1 } := by
  obtain ⟨hnone, hall, -⟩ := h.idle hfresh
  refine ⟨fun hrun => (by cases hrun), fun _ => ⟨⟨s.accepted, prompt⟩, ⟨rfl, hall, ?_⟩,
    .caller i, ?_, ?_⟩, ?_, h.silent, ?_⟩
  · intro hmem
    exact absurd (h.old _ hmem) (lt_irrefl _)
  · exact jobs_goto_self s i (.marked ⟨s.accepted, prompt⟩)
  · intro q hq
    exact (jobs_goto_ne s (.marked ⟨s.accepted, prompt⟩) hq).trans (hnone q)
  · intro n hn
    exact (h.old n hn).trans (Nat.lt_succ_self _)
  · intro j job hj
    exact h.refused j job (refused_of_goto (fun _ hf => by cases hf) hj)

/-- The worker is made, or it cannot be. -/
theorem Inv.spawn {s : State} (h : Inv s) (habsent : s.worker = .absent) (spawned : Bool) :
    Inv { s with worker := if spawned then .waiting else .gone } := by
  have hnone := h.silent (.inl habsent)
  have hjobs : ({ s with worker := if spawned then .waiting else .gone } : State).jobs =
      s.jobs := by
    funext p
    cases p with
    | caller j => rfl
    | queue => rfl
    | worker =>
      show (if spawned then Worker.waiting else .gone).jobs = s.worker.jobs
      rw [habsent]
      cases spawned <;> rfl
  refine ⟨fun hrun => ?_, fun hrun => ?_, h.old, fun _ => hnone, fun j job hj => ?_⟩
  · rw [hjobs]
    exact h.idle hrun
  · rw [hjobs]
    obtain ⟨job, hcur, hsingle⟩ := h.busy hrun
    exact ⟨job, ⟨hcur.last, hcur.before, hcur.unfinished⟩, hsingle⟩
  · have hgone := h.refused j job hj
    rw [habsent] at hgone
    cases hgone

/-- The only job moves. -/
theorem Inv.move {s s' : State} (h : Inv s) {p : Place} (q : Place) {job : Job}
    {rest : List Job} (hp : s.jobs p = job :: rest) (hmove : Moves s.jobs s'.jobs p q)
    (hgen : s'.gen = s.gen) (haccepted : s'.accepted = s.accepted)
    (hfinished : s'.finished = s.finished) (hsilent : s'.worker.Silent → s.worker.Silent)
    (hrefused : ∀ i job, s'.callers i = .refused job → s'.worker = .gone) : Inv s' := by
  obtain ⟨hrun, -, hcur, hsingle, -⟩ := h.at_place hp
  have hne : s.jobs p ≠ [] := by
    rw [hp]
    exact List.cons_ne_nil _ _
  refine ⟨fun hf => ?_, fun _ => ⟨job, ⟨?_, ?_, ?_⟩, hsingle.move hne hmove⟩, ?_, ?_, hrefused⟩
  · rw [hgen, hrun] at hf
    cases hf
  · rw [haccepted]
    exact hcur.last
  · rw [hfinished]
    exact hcur.before
  · rw [hfinished]
    exact hcur.unfinished
  · rw [hfinished, haccepted]
    exact h.old
  · intro hw
    rw [hgen]
    exact h.silent (hsilent hw)

/-- **The only job ends**, with a result or because nothing receives it. -/
theorem Inv.done {s s' : State} (h : Inv s) {p : Place} {job : Job} {rest : List Job}
    (hp : s.jobs p = job :: rest) (hnil : s'.jobs p = [])
    (hframe : ∀ q, q ≠ p → s'.jobs q = s.jobs q) (hrunning : s'.gen.running = false)
    (haccepted : s'.accepted = s.accepted) (hfinished : s'.finished = job.number :: s.finished)
    (hresult : ∀ r, s'.gen.result = some r → r.1 = job.number)
    (hsilent : s'.worker.Silent → s'.gen.result = none)
    (hrefused : ∀ i job, s'.callers i = .refused job → s'.worker = .gone) : Inv s' := by
  obtain ⟨-, -, hcur, -, hothers⟩ := h.at_place hp
  have hlast := hcur.last
  refine ⟨fun _ => ⟨?_, ?_, ?_⟩, fun hrun => ?_, ?_, hsilent, hrefused⟩
  · intro q
    by_cases hq : q = p
    · rw [hq, hnil]
    · rw [hframe q hq, hothers q hq]
  · intro n hn
    rw [hfinished]
    rcases Nat.lt_or_ge n job.number with hlt | hge
    · exact List.mem_cons_of_mem _ (hcur.before n hlt)
    · have hn' : n = job.number := by omega
      rw [hn']
      exact List.mem_cons_self
  · intro r hr
    rw [hresult r hr, haccepted, hlast]
  · rw [hrunning] at hrun
    cases hrun
  · rw [hfinished, haccepted]
    intro n hn
    rcases List.mem_cons.mp hn with rfl | hn
    · omega
    · exact h.old n hn

/-- The thread `i` holds a job. -/
theorem jobs_caller {s : State} {i : ℕ} {phase : Phase} {job : Job} (hi : s.callers i = phase)
    (hjobs : phase.jobs = [job]) : s.jobs (.caller i) = [job] := by
  rw [State.jobs, hi, hjobs]

/-! ### The sections -/

/-- `worker()` makes the thread on its first call; the job stays where it is. -/
theorem Inv.step_worker {s s' : State} (h : Inv s) {i : ℕ} {spawned : Bool}
    (hstep : step s (.worker i spawned) = some s') : Inv s' := by
  simp only [step] at hstep
  split at hstep
  · next job hi =>
    have hjobs : (Phase.sending job).jobs = (s.callers i).jobs := by rw [hi]; rfl
    split at hstep
    · next habsent =>
      obtain rfl := Option.some_inj.mp hstep
      exact (h.spawn habsent spawned).goto hjobs (fun _ hf => by cases hf)
    · obtain rfl := Option.some_inj.mp hstep
      exact h.goto hjobs (fun _ hf => by cases hf)
  · cases hstep

/-- `send` moves the job from the caller into the queue, unless nothing receives it. -/
theorem Inv.step_send {s s' : State} (h : Inv s) {i : ℕ} (hstep : step s (.send i) = some s') :
    Inv s' := by
  simp only [step] at hstep
  split at hstep
  · next job hi =>
    split at hstep
    · cases hstep
    · next hgone =>
      obtain rfl := Option.some_inj.mp hstep
      exact h.goto (by rw [hi]; rfl) (fun _ _ => hgone)
    · next hnabsent hngone =>
      obtain rfl := Option.some_inj.mp hstep
      have hat : s.jobs (.caller i) = [job] := jobs_caller hi rfl
      refine h.move .queue hat ⟨?_, ?_, ?_, ?_⟩ rfl rfl rfl id ?_
      · exact fun hf => by cases hf
      · exact jobs_goto_self s i (.returned _)
      · show s.queue ++ [job] = s.jobs .queue ++ s.jobs (.caller i)
        rw [hat]
        rfl
      · intro r hr hq
        cases r with
        | caller j => exact jobs_goto_ne s (.returned _) hr
        | queue => exact absurd rfl hq
        | worker => rfl
      · intro j job' hj
        exact h.refused j job' (refused_of_goto (fun _ hf => by cases hf) hj)
  · cases hstep

/-- A job that nothing receives ends without a result: there was none before, since no worker
ever left one. -/
theorem Inv.step_withdraw {s s' : State} (h : Inv s) {i : ℕ}
    (hstep : step s (.withdraw i) = some s') : Inv s' := by
  simp only [step] at hstep
  split at hstep
  · next job hi =>
    obtain rfl := Option.some_inj.mp hstep
    have hgone := h.refused i job hi
    have hnone := h.silent (.inr hgone)
    refine h.done (jobs_caller hi rfl) ?_ ?_ rfl rfl rfl ?_ (fun _ => hnone) ?_
    · exact jobs_goto_self s i (.returned _)
    · intro q hq
      exact jobs_goto_ne s (.returned _) hq
    · intro r hr
      rw [show s.gen.result = some r from hr] at hnone
      cases hnone
    · exact fun _ _ _ => hgone
  · cases hstep

/-- The worker takes the job out of the queue, which had no other. -/
theorem Inv.step_recv {s s' : State} (h : Inv s) (hstep : step s .recv = some s') : Inv s' := by
  simp only [step] at hstep
  split at hstep
  · next job rest hwaiting hqueue =>
    obtain rfl := Option.some_inj.mp hstep
    have hat : s.jobs .queue = job :: rest := hqueue
    obtain ⟨-, rfl, -⟩ := h.at_place hat
    refine h.move .worker hat ⟨?_, rfl, ?_, ?_⟩ rfl rfl rfl ?_ ?_
    · exact fun hf => by cases hf
    · show [job] = s.worker.jobs ++ s.queue
      rw [hwaiting, hqueue]
      rfl
    · intro r hq hw
      cases r with
      | caller j => rfl
      | queue => exact absurd rfl hq
      | worker => exact absurd rfl hw
    · rintro (hf | hf) <;> cases hf
    · intro j job' hj
      have hgone := h.refused j job' hj
      rw [hwaiting] at hgone
      cases hgone
  · cases hstep

/-- The job of the worker ends with its result, under its number. -/
theorem Inv.step_finish {s s' : State} (h : Inv s) {out : String}
    (hstep : step s (.finish out) = some s') : Inv s' := by
  simp only [step] at hstep
  split at hstep
  · next job hbusy =>
    obtain rfl := Option.some_inj.mp hstep
    have hat : s.jobs .worker = [job] := by
      show s.worker.jobs = [job]
      rw [hbusy]
      rfl
    refine h.done hat rfl ?_ rfl rfl rfl ?_ ?_ ?_
    · intro q hq
      cases q with
      | caller j => rfl
      | queue => rfl
      | worker => exact absurd rfl hq
    · intro r hr
      rw [← Option.some_inj.mp hr]
    · rintro (hf | hf) <;> cases hf
    · intro j job' hj
      have hgone := h.refused j job' hj
      rw [hbusy] at hgone
      cases hgone
  · cases hstep

/-- **One step** keeps the invariant, when no start marks a second job.  The other sections
keep it without a condition: they move the only job, or end it, or touch none. -/
theorem inv_step (s : State) (e : Event) (s' : State) (h : Inv s) (hfresh : Fresh s e)
    (hstep : step s e = some s') : Inv s' := by
  cases e with
  | check i prompt free largest =>
    simp only [step] at hstep
    split_ifs at hstep with hfree
    obtain rfl := Option.some_inj.mp hstep
    obtain ⟨hjobs, hnot⟩ := s.gen.check_spec prompt free largest
    exact h.goto (by rw [hjobs, jobs_of_free hfree]) (fun job hf => absurd hf (hnot job))
  | mark i =>
    simp only [step] at hstep
    split at hstep
    · next prompt _ =>
      obtain rfl := Option.some_inj.mp hstep
      exact h.mark i prompt hfresh
    · cases hstep
  | worker i spawned => exact h.step_worker hstep
  | send i => exact h.step_send hstep
  | withdraw i => exact h.step_withdraw hstep
  | recv => exact h.step_recv hstep
  | finish out => exact h.step_finish hstep
  | poll i =>
    simp only [step] at hstep
    split_ifs at hstep with hfree
    obtain rfl := Option.some_inj.mp hstep
    exact h.poll.goto (jobs_of_free hfree).symm (fun _ hf => by cases hf)

/-! ## Runs -/

/-- **One job at a time.**  In every run in which no start marks its job while one is
running, whatever the threads and the worker do, every state has at most one job queued or
running, the flag is set exactly while an accepted job has not finished, and the result that
a poll returns is that of the job accepted last. -/
theorem single_job {es : List Event} (h : Along step Fresh State.init es) :
    Throughout step SingleJob State.init es := by
  have hjob : ∀ s, Inv s → SingleJob s := fun s hs => hs.singleJob
  exact throughout_of_along inv_step hjob inv_init h

/-- A job that is marked while one is running is a second one that has not finished, and the
flag is cleared when the first of them does. -/
theorem two_unfinished {s s' : State} (h : Inv s) {i : ℕ} (hstep : step s (.mark i) = some s')
    (hrun : s.gen.running = true) :
    ∃ m n, m < n ∧ n < s'.accepted ∧ m ∉ s'.finished ∧ n ∉ s'.finished := by
  obtain ⟨job, hcur, -⟩ := h.busy hrun
  have hlast := hcur.last
  simp only [step] at hstep
  split at hstep
  · obtain rfl := Option.some_inj.mp hstep
    refine ⟨job.number, s.accepted, by omega, Nat.lt_succ_self _, hcur.unfinished, ?_⟩
    intro hmem
    exact absurd (h.old _ hmem) (lt_irrefl _)
  · cases hstep

/-- Two generations, each from its start to the poll that returns its result.  A start is
refused while the first one runs, and another for want of memory. -/
def generations : List Event :=
  [.check 0 "en" 60000 20000, .mark 0, .worker 0 true, .send 0, .recv, .check 1 "de" 60000 20000,
    .poll 2, .finish "out", .poll 2, .check 3 "fr" 60000 1000, .check 1 "de" 60000 20000, .mark 1,
    .worker 1 true, .send 1, .recv, .finish "aus", .poll 2]

theorem single_job_generations :
    Throughout step SingleJob State.init generations ∧
      (run step State.init generations).map (fun s => (s.accepted, s.finished, s.callers 2)) =
        some (2, [1, 0], .returned "aus") := by
  refine ⟨single_job ?_, rfl⟩
  -- only the marks have a condition
  iterate 17 refine along_cons_of_step (by first | exact trivial | rfl) rfl ?_
  exact trivial

/-- Two starts that both check before either of them marks. -/
def overlap : List Event :=
  [.check 0 "en" 60000 20000, .check 1 "en" 60000 20000, .mark 0, .mark 1, .worker 0 true,
    .send 0, .worker 1 true, .send 1]

/-- **Two starts that overlap are both accepted**, and two jobs are queued. -/
theorem two_jobs_queued : ¬ ∀ es, Throughout step SingleJob State.init es := by
  intro h
  have hqueue : ((run step State.init overlap).map fun s => s.queue.length) = some 2 := by decide
  obtain ⟨s, hrun, hlen⟩ := Option.map_eq_some_iff.mp hqueue
  have hone := (h overlap overlap s (List.prefix_refl _) hrun).one
  omega

end DeviceLlm
