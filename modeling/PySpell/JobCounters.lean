/-
# The job counters of the displays

`jobcount.rs` of the tunnel device and `screen.rs` of the fetch device.  Each keeps the times
of the latest jobs in a queue of 1024, drops those that are over an hour old, and counts the
jobs of the last seconds and minutes.  The times need not come in order: the clock is read
before the lock is taken.

`JobCount.counts_eq` and `Screen.job_counts_eq` say that the counts are those of all jobs, as far
as the last 1024 go: what was dropped early, and by whichever thread, is never missed by a
count that is taken when all the jobs are over.
-/
import PySpell.Lib.Recent

open Recent

/-! ## `jobcount.rs`, in microseconds -/

namespace JobCount

def cap : ℕ := 1024
def win60min : ℤ := 3600000000

/-- `record`, at a time. -/
def record (q : List ℤ) (now : ℤ) : List ℤ :=
  let q := (q ++ [now]).dropWhile fun t => t < now - win60min
  -- from the front, while there are more than `cap`
  q.drop (q.length - cap)

/-- The jobs in a window of time. -/
def within (now window : ℤ) (q : List ℤ) : ℕ := q.countP fun t => now - t ≤ window

/-- `counts`: the jobs of 10 s, 60 s, 10 min and 60 min. -/
def counts (now : ℤ) (q : List ℤ) : ℕ × ℕ × ℕ × ℕ :=
  (within now 10000000 q, within now 60000000 q, within now 600000000 q, within now win60min q)

/-- A job that is over an hour old at the time of a count. -/
def Old (now t : ℤ) : Prop := win60min < now - t

theorem record_keeps {now : ℤ} {history q : List ℤ} {t : ℤ}
    (h : Keeps cap (Old now) history q) (ht : t ≤ now) :
    Keeps cap (Old now) (history ++ [t]) (record q t) ∧ (record q t).length ≤ cap := by
  refine ⟨((h.push t).dropWhile fun t' hold => ?_).rtake, length_rtake_le ..⟩
  have hearly : t' < t - win60min := of_decide_eq_true hold
  show win60min < now - t'
  omega

theorem within_eq {times : List ℤ} {now : ℤ} (hnow : ∀ t ∈ times, t ≤ now) {window : ℤ}
    (hwindow : window ≤ win60min) :
    within now window (times.foldl record []) = within now window (times.rtake cap) := by
  obtain ⟨hkeeps, hlen⟩ := keeps_foldl (fun h _ ht => record_keeps h ht) times hnow
  refine hkeeps.countP_eq hlen fun t ht hold => ?_
  have hrecent : now - t ≤ window := of_decide_eq_true ht
  have hearly : win60min < now - t := hold
  omega

/-- **The counters of the tunnel device** are those of the last 1024 jobs. -/
theorem counts_eq {times : List ℤ} {now : ℤ} (hnow : ∀ t ∈ times, t ≤ now) :
    counts now (times.foldl record []) = counts now (times.rtake cap) := by
  unfold counts
  rw [within_eq hnow (by decide), within_eq hnow (by decide), within_eq hnow (by decide),
    within_eq hnow (Int.le_refl _)]

/-- Three jobs that come out of order. -/
theorem counts_eq_late : counts 3600000005 ([7, 3600000005, 2].foldl record []) =
    counts 3600000005 ([7, 3600000005, 2].rtake cap) :=
  counts_eq (by decide)

end JobCount

/-! ## `screen.rs`, in milliseconds -/

namespace Screen

def ring : ℕ := 1024
def win60min : ℕ := 3600000

/-- `record_job`, at a time; the subtraction saturates. -/
def recordJob (log : List ℕ) (now : ℕ) : List ℕ :=
  let log := log.dropWhile fun front => win60min < now - front
  (if ring ≤ log.length then log.tail else log) ++ [now]

/-- The jobs in a window of time. -/
def within (now window : ℕ) (log : List ℕ) : ℕ := log.countP fun t => now - t ≤ window

/-- `counts`: the jobs of 10 s, 60 s, 5 min and 60 min. -/
def counts (now : ℕ) (log : List ℕ) : ℕ × ℕ × ℕ × ℕ :=
  (within now 10000 log, within now 60000 log, within now 300000 log, within now win60min log)

/-- A job that is over an hour old at the time of a count. -/
def Old (now t : ℕ) : Prop := win60min < now - t

theorem recordJob_keeps {now : ℕ} {history log : List ℕ} {t : ℕ}
    (h : Keeps ring (Old now) history log) (hlen : log.length ≤ ring) (ht : t ≤ now) :
    Keeps ring (Old now) (history ++ [t]) (recordJob log t) ∧
      (recordJob log t).length ≤ ring := by
  have hfits : (log.dropWhile fun front => decide (win60min < t - front)).length ≤ ring :=
    (List.dropWhile_sublist _).length_le.trans hlen
  rw [recordJob, room_append_eq (by decide) hfits]
  refine ⟨((h.dropWhile fun t' hold => ?_).push t).rtake, length_rtake_le ..⟩
  have hearly : win60min < t - t' := of_decide_eq_true hold
  show win60min < now - t'
  omega

theorem within_eq {times : List ℕ} {now : ℕ} (hnow : ∀ t ∈ times, t ≤ now) {window : ℕ}
    (hwindow : window ≤ win60min) :
    within now window (times.foldl recordJob []) = within now window (times.rtake ring) := by
  obtain ⟨hkeeps, hlen⟩ := keeps_foldl recordJob_keeps times hnow
  refine hkeeps.countP_eq hlen fun t ht hold => ?_
  have hrecent : now - t ≤ window := of_decide_eq_true ht
  have hearly : win60min < now - t := hold
  omega

/-- **The counters of the fetch device** are those of the last 1024 jobs. -/
theorem job_counts_eq {times : List ℕ} {now : ℕ} (hnow : ∀ t ∈ times, t ≤ now) :
    counts now (times.foldl recordJob []) = counts now (times.rtake ring) := by
  unfold counts
  rw [within_eq hnow (by decide), within_eq hnow (by decide), within_eq hnow (by decide),
    within_eq hnow le_rfl]

/-- Three jobs that come out of order. -/
theorem job_counts_late : counts 3600005 ([7, 3600005, 2].foldl recordJob []) =
    counts 3600005 ([7, 3600005, 2].rtake ring) :=
  job_counts_eq (by decide)

end Screen
