/-
# The sweep over the ports

`birthday_ports` of `dataplane.rs`: round 0 takes a window of 1024 ports around the base port,
and every round one more beside those before, in turn below and above.  In exact arithmetic
the windows are the tiles of a line, visited outwards (`sweepWindow_of_fits`).

The arithmetic is that of `i32`, and the round counts up with the probes, without end: the
centre of a window leaves the range of the type when it is some two million windows away from
the base (`Fits`).  A build with overflow checks panics there, and one without them wraps.
-/
import Mathlib.Data.List.Basic
import PySpell.Lib.Bytes
import PySpell.Lib.Checked
import PySpell.Lib.Zigzag

open Checked

namespace PortSweep

/-! ## The program -/

/-- `i32`, with or without overflow checks. -/
def i32 (checks : Bool) : Machine := ⟨32, checks, Machine.le_width_32⟩

/-- `SWEEP_WIN`. -/
def sweepWin : ℤ := 1024

/-- The centre of the window. -/
def center (M : Machine) (base : UInt16) (tick : UInt32) : Option ℤ := do
  let round := (tick / 2).toInt32.toInt
  let step := (← M.addInt round 1).tdiv 2
  let dir : ℤ := if round.tmod 2 = 0 then 1 else -1
  M.addInt base.toNat (← M.mulInt (← M.mulInt dir step) sweepWin)

/-- The body of the loop over the window. -/
def windowStep (M : Machine) (center : ℤ) (d : ℕ) (ports : List UInt16) :
    Option (List UInt16) := do
  let p ← M.addInt (← M.subInt center (sweepWin.tdiv 2)) d
  pure (if 1024 ≤ p ∧ p ≤ 65535 then ports ++ [UInt16.ofNat p.toNat] else ports)

/-- The sequential window. -/
def sweepWindow (M : Machine) (base : UInt16) (tick : UInt32) : Option (List UInt16) := do
  let center ← center M base tick
  upTo (windowStep M center) sweepWin.toNat []

/-- The random tail, from 512 random bytes. -/
def randomTail (rnd : Bytes 512) : List UInt16 :=
  (List.range 256).filterMap fun i =>
    let p := UInt16.ofNat (Bytes.toNat (Bytes.slice rnd.val (2 * i) 2))
    if 1024 ≤ p then some p else none

/-- `birthday_ports`. -/
def birthdayPorts (M : Machine) (base : UInt16) (tick : UInt32) (rnd : Bytes 512) :
    Option (List UInt16) := do
  let ports ← sweepWindow M base tick
  pure (ports ++ randomTail rnd)

/-- `probe_round` at the `n`-th probe. -/
def probeRound : ℕ → UInt32
  | 0 => 0
  | n + 1 => probeRound n + 1

/-! ## Bounds -/

/-- The window is in the range of `i32`, and so is the way to its centre. -/
def Fits (base : UInt16) (tick : UInt32) : Prop :=
  let round := tick.toNat / 2
  let step := (round + 1) / 2
  if round % 2 = 0 then base.toNat + 1024 * step + 511 < 2 ^ 31
  else step ≤ 2 ^ 21 ∧ 1024 * step + 512 ≤ 2 ^ 31 + base.toNat

instance (base : UInt16) (tick : UInt32) : Decidable (Fits base tick) := by
  unfold Fits
  infer_instance

/-- The bounds, for the tile that the window is. -/
theorem fits_iff {base : UInt16} {tick : UInt32} :
    Fits base tick ↔ -2 ^ 31 ≤ 1024 * Zigzag.nth (tick.toNat / 2) ∧
      -2 ^ 31 ≤ base.toNat + 1024 * Zigzag.nth (tick.toNat / 2) - 512 ∧
      base.toNat + 1024 * Zigzag.nth (tick.toNat / 2) + 511 < 2 ^ 31 := by
  have hbase := base.toNat_lt
  unfold Fits Zigzag.nth
  dsimp only
  split_ifs <;> omega

theorem i32_fit {checks : Bool} {n : ℤ} (h : -2 ^ 31 ≤ n ∧ n < 2 ^ 31) :
    (i32 checks).fitInt n = some n := Machine.fitInt_of_le h

theorem le_of_i32_fit {n k : ℤ} (h : (i32 true).fitInt n = some k) :
    (-2 ^ 31 ≤ n ∧ n < 2 ^ 31) ∧ k = n := Machine.fitInt_eq_some rfl h

/-- The round is the half of the counter, and fits. -/
theorem round_eq (tick : UInt32) : (tick / 2).toInt32.toInt = (tick.toNat / 2 : ℕ) := by
  have hlt := tick.toNat_lt
  have htwo : (2 : UInt32).toNat = 2 := rfl
  have hnat : (tick / 2).toBitVec.toNat = tick.toNat / 2 := by
    rw [UInt32.toNat_toBitVec, UInt32.toNat_div, htwo]
  show (tick / 2).toBitVec.toInt = _
  rw [BitVec.toInt_eq_toNat_of_lt (by omega), hnat]

/-- The direction and the distance of a round make up its tile. -/
theorem dir_mul_step (r : ℕ) :
    (if (r : ℤ).tmod 2 = 0 then 1 else -1) * ((r : ℤ) + 1).tdiv 2 = Zigzag.nth r := by
  have hmod : (r : ℤ).tmod 2 = ((r % 2 : ℕ) : ℤ) := rfl
  have hdiv : ((r : ℤ) + 1).tdiv 2 = (((r + 1) / 2 : ℕ) : ℤ) := rfl
  rw [hmod, hdiv, Zigzag.nth]
  split_ifs <;> omega

theorem center_of_fits {checks : Bool} {base : UInt16} {tick : UInt32} (h : Fits base tick) :
    center (i32 checks) base tick = some (base.toNat + 1024 * Zigzag.nth (tick.toNat / 2)) := by
  have hbase := base.toNat_lt
  obtain ⟨hproduct, hlow, hhigh⟩ := fits_iff.mp h
  have hround : ((tick.toNat / 2 : ℕ) : ℤ) ≤ 2 * Zigzag.nth (tick.toNat / 2) + 1 ∨
      ((tick.toNat / 2 : ℕ) : ℤ) ≤ -2 * Zigzag.nth (tick.toNat / 2) := by
    unfold Zigzag.nth
    split_ifs <;> omega
  unfold center
  rw [round_eq]
  dsimp only
  refine bind_eq_of_some (i32_fit ⟨by omega, by omega⟩) ?_
  refine bind_eq_of_some (i32_fit ?_) ?_
  · rw [dir_mul_step]
    omega
  refine bind_eq_of_some (i32_fit ?_) ?_
  · rw [dir_mul_step, sweepWin]
    omega
  rw [dir_mul_step, sweepWin, Machine.addInt, Int.mul_comm, i32_fit]
  omega

/-! ## The window -/

/-- A round of the loop, at a place that is in range. -/
theorem windowStep_eq {checks : Bool} {c : ℤ} {d : ℕ} (hlow : -2 ^ 31 ≤ c - 512)
    (hhigh : c + 511 < 2 ^ 31) (hd : d < 1024) (ports : List UInt16) :
    windowStep (i32 checks) c d ports =
      some (if 1024 ≤ c - 512 + d ∧ c - 512 + d ≤ 65535 then
        ports ++ [UInt16.ofNat (c - 512 + d).toNat] else ports) := by
  have hhalf : sweepWin.tdiv 2 = 512 := rfl
  unfold windowStep
  rw [hhalf]
  refine bind_eq_of_some (i32_fit (by omega)) ?_
  exact bind_eq_of_some (i32_fit (by omega)) rfl

/-- The loop over the window, at a centre that is in range. -/
theorem exists_window (checks : Bool) {c : ℤ} (hlow : -2 ^ 31 ≤ c - 512)
    (hhigh : c + 511 < 2 ^ 31) :
    ∃ ports, upTo (windowStep (i32 checks) c) 1024 [] = some ports ∧
      ∀ p : UInt16, p ∈ ports ↔
        1024 ≤ p.toNat ∧ c - 512 ≤ p.toNat ∧ (p.toNat : ℤ) < c - 512 + (1024 : ℕ) := by
  -- after `d` rounds, the first `d` places of the window have been looked at
  refine exists_upTo (fun (d : ℕ) (ports : List UInt16) => ∀ p : UInt16, p ∈ ports ↔
    1024 ≤ p.toNat ∧ c - 512 ≤ p.toNat ∧ (p.toNat : ℤ) < c - 512 + d)
    (fun d hd ports hinv => ⟨_, windowStep_eq hlow hhigh hd ports, fun p => ?_⟩) fun p => ?_
  · have hp := p.toNat_lt
    split_ifs with hin
    · have hport : p = UInt16.ofNat (c - 512 + d).toNat ↔ (p.toNat : ℤ) = c - 512 + d := by
        rw [← UInt16.toNat_inj, UInt16.toNat_ofNat', Nat.mod_eq_of_lt (by omega)]
        omega
      rw [List.mem_append, List.mem_singleton, hport, hinv p]
      omega
    · rw [hinv p]
      omega
  · simp only [List.not_mem_nil, false_iff]
    omega

/-- **The window** of a round that fits: the ports of its tile, from 1024 on. -/
theorem sweepWindow_of_fits (checks : Bool) {base : UInt16} {tick : UInt32}
    (h : Fits base tick) : ∃ ports, sweepWindow (i32 checks) base tick = some ports ∧
      ∀ p : UInt16, p ∈ ports ↔ 1024 ≤ p.toNat ∧
        Zigzag.tile 1024 (base.toNat - 512) p.toNat = Zigzag.nth (tick.toNat / 2) := by
  obtain ⟨-, hlow, hhigh⟩ := fits_iff.mp h
  obtain ⟨ports, hports, hmem⟩ := exists_window checks hlow hhigh
  refine ⟨ports, bind_eq_of_some (center_of_fits h) hports, fun p => ?_⟩
  rw [hmem p, Zigzag.tile_eq_iff (by decide)]
  omega

/-- **A window without overflow fits**: the way to the centre and the last place say so. -/
theorem fits_of_sweepWindow {base : UInt16} {tick : UInt32} {ports : List UInt16}
    (h : sweepWindow (i32 true) base tick = some ports) : Fits base tick := by
  obtain ⟨c, hcenter, hloop⟩ := Option.bind_eq_some_iff.mp h
  unfold center at hcenter
  rw [round_eq] at hcenter
  obtain ⟨next, hnext, hcenter⟩ := Option.bind_eq_some_iff.mp hcenter
  obtain ⟨-, rfl⟩ := le_of_i32_fit hnext
  obtain ⟨distance, hdistance, hcenter⟩ := Option.bind_eq_some_iff.mp hcenter
  obtain ⟨-, rfl⟩ := le_of_i32_fit hdistance
  obtain ⟨shift, hshift, hcenter⟩ := Option.bind_eq_some_iff.mp hcenter
  obtain ⟨hproduct, rfl⟩ := le_of_i32_fit hshift
  obtain ⟨-, rfl⟩ := le_of_i32_fit hcenter
  rw [dir_mul_step, sweepWin] at hproduct hloop
  -- the last round of the loop
  obtain ⟨most, -, hlast⟩ := Option.bind_eq_some_iff.mp
    (show (upTo _ 1023 [] >>= windowStep (i32 true) _ 1023) = some ports from hloop)
  have hhalf : sweepWin.tdiv 2 = 512 := rfl
  rw [windowStep, hhalf] at hlast
  obtain ⟨first, hfirst, hlast⟩ := Option.bind_eq_some_iff.mp hlast
  obtain ⟨hlow, rfl⟩ := le_of_i32_fit hfirst
  obtain ⟨p, hp, -⟩ := Option.bind_eq_some_iff.mp hlast
  obtain ⟨hhigh, -⟩ := le_of_i32_fit hp
  push_cast at hhigh
  exact fits_iff.mpr ⟨by omega, by omega, by omega⟩

/-- No operation overflows, whatever the random bytes are. -/
def NoOverflow (base : UInt16) (tick : UInt32) : Prop :=
  ∀ rnd, (birthdayPorts (i32 true) base tick rnd).isSome

theorem noOverflow_iff (base : UInt16) (tick : UInt32) : NoOverflow base tick ↔ Fits base tick := by
  constructor
  · intro h
    obtain ⟨all, hall⟩ := Option.isSome_iff_exists.mp (h (Bytes.zeros 512))
    obtain ⟨ports, hports, -⟩ := Option.bind_eq_some_iff.mp hall
    exact fits_of_sweepWindow hports
  · intro h rnd
    obtain ⟨ports, hports, -⟩ := sweepWindow_of_fits true h
    rw [birthdayPorts, hports]
    rfl

/-! ## The rounds -/

/-- The window of a round. -/
def window (checks : Bool) (base : UInt16) (r : ℕ) : List UInt16 :=
  (sweepWindow (i32 checks) base (UInt32.ofNat (2 * r))).getD []

/-- The sweep up to round `2 k`: every probe sprays the window of its round, the windows have
no port in common, and together they have the ports within so many windows of the base. -/
structure Sweeps (checks : Bool) (base : UInt16) (k : ℕ) : Prop where
  sprays : ∀ tick : UInt32, tick.toNat / 2 ≤ 2 * k → ∀ rnd,
    birthdayPorts (i32 checks) base tick rnd =
      some (window checks base (tick.toNat / 2) ++ randomTail rnd)
  disjoint : ∀ r ≤ 2 * k, ∀ r' ≤ 2 * k, r ≠ r' →
    List.Disjoint (window checks base r) (window checks base r')
  covers : ∀ p : UInt16, (∃ r ≤ 2 * k, p ∈ window checks base r) ↔
    1024 ≤ p.toNat ∧ (base.toNat : ℤ) - 512 - 1024 * k ≤ p.toNat ∧
      (p.toNat : ℤ) ≤ base.toNat + 511 + 1024 * k

/-- Where the last round fits, those before do. -/
theorem fits_of_le {base : UInt16} {k : ℕ} (h : base.toNat + 1024 * k + 511 < 2 ^ 31)
    {tick : UInt32} (htick : tick.toNat / 2 ≤ 2 * k) : Fits base tick := by
  unfold Fits
  dsimp only
  split_ifs <;> omega

/-- The window depends on the round only. -/
theorem sweepWindow_eq (checks : Bool) {base : UInt16} {k : ℕ}
    (h : base.toNat + 1024 * k + 511 < 2 ^ 31) {tick : UInt32} (htick : tick.toNat / 2 ≤ 2 * k) :
    sweepWindow (i32 checks) base tick = some (window checks base (tick.toNat / 2)) := by
  have htwo : (2 : UInt32).toNat = 2 := rfl
  have hlt := tick.toNat_lt
  have heven : UInt32.ofNat (2 * (tick.toNat / 2)) / 2 = tick / 2 := by
    rw [← UInt32.toNat_inj, UInt32.toNat_div, UInt32.toNat_div, htwo, UInt32.toNat_ofNat',
      Nat.mod_eq_of_lt (by omega)]
    omega
  have hround : sweepWindow (i32 checks) base (UInt32.ofNat (2 * (tick.toNat / 2))) =
      sweepWindow (i32 checks) base tick := by
    simp only [sweepWindow, center, heven]
  obtain ⟨ports, hports, -⟩ := sweepWindow_of_fits checks (fits_of_le h htick)
  rw [window, hround, hports]
  rfl

/-- **The ports of a round** are those of its tile. -/
theorem mem_window_iff {checks : Bool} {base : UInt16} {k r : ℕ}
    (h : base.toNat + 1024 * k + 511 < 2 ^ 31) (hr : r ≤ 2 * k) (p : UInt16) :
    p ∈ window checks base r ↔ 1024 ≤ p.toNat ∧
      Zigzag.tile 1024 (base.toNat - 512) p.toNat = Zigzag.nth r := by
  have htick : (UInt32.ofNat (2 * r)).toNat / 2 = r := by
    rw [UInt32.toNat_ofNat', Nat.mod_eq_of_lt (by omega)]
    omega
  obtain ⟨ports, hports, hmem⟩ := sweepWindow_of_fits checks
    (fits_of_le h (htick.le.trans hr))
  have hwindow := sweepWindow_eq checks h (htick.le.trans hr)
  rw [hports, htick, Option.some_inj] at hwindow
  rw [← hwindow, hmem, htick]

/-- **In range, the sweep has no gap and no overlap.** -/
theorem sweeps_of_lt {checks : Bool} {base : UInt16} {k : ℕ}
    (h : base.toNat + 1024 * k + 511 < 2 ^ 31) : Sweeps checks base k where
  sprays := by
    intro tick htick rnd
    rw [birthdayPorts, sweepWindow_eq checks h htick]
    rfl
  disjoint := by
    intro r hr r' hr' hne p hp hp'
    rw [mem_window_iff h hr] at hp
    rw [mem_window_iff h hr'] at hp'
    exact hne (Zigzag.nth_injective (hp.2.symm.trans hp'.2))
  covers := by
    intro p
    have htile := Zigzag.exists_tile_iff (w := 1024) (by decide) (k := k)
      (o := (base.toNat : ℤ) - 512) (x := p.toNat)
    constructor
    · rintro ⟨r, hr, hp⟩
      rw [mem_window_iff h hr] at hp
      have hin := htile.mp ⟨r, hr, hp.2⟩
      omega
    · rintro ⟨hp, hlow, hhigh⟩
      obtain ⟨r, hr, heq⟩ := htile.mpr (by omega)
      exact ⟨r, hr, (mem_window_iff h hr p).mpr ⟨hp, heq⟩⟩

/-- Past the bound, the even round of the last step overflows. -/
theorem exists_overflow {base : UInt16} {k : ℕ} (h : ¬ base.toNat + 1024 * k + 511 < 2 ^ 31) :
    ∃ tick : UInt32, tick.toNat / 2 ≤ 2 * k ∧ ¬ NoOverflow base tick := by
  have htick : (UInt32.ofNat (4 * min k (2 ^ 21))).toNat = 4 * min k (2 ^ 21) := by
    rw [UInt32.toNat_ofNat', Nat.mod_eq_of_lt (by omega)]
  refine ⟨UInt32.ofNat (4 * min k (2 ^ 21)), by omega, ?_⟩
  rw [noOverflow_iff, Fits, htick]
  split_ifs <;> omega

theorem probeRound_eq (n : ℕ) : probeRound n = UInt32.ofNat n := by
  induction n with
  | zero => rfl
  | succ n ih =>
    rw [probeRound, ih]
    exact (UInt32.ofNat_add n 1).symm

/-- The probes go through all values of the counter. -/
theorem exists_probeRound (tick : UInt32) : ∃ n, 0 < n ∧ probeRound n = tick := by
  refine ⟨tick.toNat + 2 ^ 32, by omega, ?_⟩
  rw [probeRound_eq, ← UInt32.toNat_inj, UInt32.toNat_ofNat']
  have hlt := tick.toNat_lt
  omega

/-- **The sweep**: it has no gap, no overlap and no overflow up to round `2 k` exactly when the
last window above the base ends in the range of `i32`.  Every value of the counter comes, and
of the probes those that fit go without overflow.  Any port from 1024 on comes within 128
rounds. -/
theorem sweep_iff (checks : Bool) (base : UInt16) :
    (∀ k, (Sweeps checks base k ∧
      ∀ tick : UInt32, tick.toNat / 2 ≤ 2 * k → NoOverflow base tick) ↔
        base.toNat + 1024 * k + 511 < 2 ^ 31) ∧
    (∀ tick, ∃ n, 0 < n ∧ probeRound n = tick) ∧
    (∀ n, NoOverflow base (probeRound n) ↔ Fits base (probeRound n)) ∧
    ∀ p : UInt16, 1024 ≤ p.toNat → ∃ r ≤ 128, p ∈ window checks base r := by
  refine ⟨fun k => ⟨fun h => ?_, fun h => ?_⟩, exists_probeRound,
    fun n => noOverflow_iff base _, fun p hp => ?_⟩
  · by_contra hbound
    obtain ⟨tick, htick, hover⟩ := exists_overflow hbound
    exact hover (h.2 tick htick)
  · exact ⟨sweeps_of_lt h, fun tick htick => (noOverflow_iff base tick).mpr (fits_of_le h htick)⟩
  · have hbase := base.toNat_lt
    have hlt := p.toNat_lt
    have hsweeps : Sweeps checks base 64 := sweeps_of_lt (by omega)
    exact (hsweeps.covers p).mpr ⟨hp, by omega, by omega⟩

/-- Around the port of WireGuard, the lowest port comes. -/
theorem sweep_iff_wireguard : ∃ r ≤ 128, (1024 : UInt16) ∈ window true 51820 r :=
  (sweep_iff true 51820).2.2.2 1024 (by decide)

/-- Half a year of probes, one in two seconds, and the product overflows. -/
theorem birthdayPorts_overflows :
    ¬ ∀ (base : UInt16) (n : ℕ), 0 < n → NoOverflow base (probeRound n) := by
  intro h
  have hover := h 51820 (2 ^ 23) (by decide)
  rw [noOverflow_iff, probeRound_eq] at hover
  exact absurd hover (by decide)

end PortSweep
