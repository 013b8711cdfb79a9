import Scope.ForStd.PulseTrain
import Scope.Spec.StepLedger

/-!
# One motor pulse for one enable window

`driver` looks at the enables at the rising edges of `clk0` only, whose period is the
length of an enable window.  Whatever the phase between the two, each window is met by
one edge.

## Key results

- `rises_iff`: when `clk0` rises
- `toggled_line`: a step line is a pulse train of its enable
- `one_pulse_per_window`: windows and pulses, and edges in a row, on either axis
-/

namespace Scope.Native.Driver

open Sync StepPulse PulseTrain

/-- The driver in front of edge `n` of `clk50`; `en a m` is the enable of the axis `a`
    behind edge `m`. -/
def drive (d : Driver) (en : Axis → ℕ → Bool) (n : ℕ) : Driver :=
  run (fun (e : Axis → Bool) (d : Driver) => d.step (e .yaw) (e .pitch)) d (fun n a => en a n) n

/-- `clk0` rises at edge `n` of `clk50`. -/
def Rises (d : Driver) (en : Axis → ℕ → Bool) (n : ℕ) : Prop :=
  (d.drive en n).c0.clkout = false ∧ (d.drive en (n + 1)).c0.clkout = true

section Drive

variable {d : Driver} {en : Axis → ℕ → Bool} {n : ℕ}

private theorem drive_succ (d : Driver) (en : Axis → ℕ → Bool) (n : ℕ) :
    d.drive en (n + 1) = (d.drive en n).step (en .yaw n) (en .pitch n) := rfl

/-- The count up to the next edge, modulo the period. -/
private theorem untilRise_drive (h : d.InPhase) (en : Axis → ℕ → Bool) (n : ℕ) :
    (d.drive en n).InPhase ∧
    (d.drive en n).untilRise = 50_000 - (n + (50_000 - d.untilRise)) % 50_000 := by
  have hb := h.bounds
  induction n with
  | zero =>
    refine ⟨h, ?_⟩
    show d.untilRise = _
    omega
  | succ n ih =>
    obtain ⟨hphase, huntil⟩ := ih
    obtain ⟨hphase', huntil', -⟩ := step_spec hphase (en .yaw n) (en .pitch n)
    refine ⟨hphase', ?_⟩
    rw [drive_succ, huntil', huntil, untilNext]
    split_ifs <;> omega

/-- `clk0` rises once in a period. -/
private theorem untilRise_eq_one_iff (h : d.InPhase) (en : Axis → ℕ → Bool) (n : ℕ) :
    (d.drive en n).untilRise = 1 ↔ n % 50_000 = d.untilRise - 1 := by
  have hb := h.bounds
  rw [(untilRise_drive h en n).2]
  omega

/-- The rising edges of `clk0` come 50,000 cycles apart. -/
theorem rises_iff (h : d.InPhase) (en : Axis → ℕ → Bool) (n : ℕ) :
    d.Rises en n ↔ n % 50_000 = d.untilRise - 1 := by
  rw [← untilRise_eq_one_iff h en n, ← rise_iff, Rises, drive_succ, step_c0, Bool.and_eq_true,
    Bool.not_eq_true']

/-- A step line is a pulse train of its enable. -/
theorem toggled_line (h : d.InPhase) (en : Axis → ℕ → Bool) {a : Axis} (hline : a.line d = true) :
    Toggled 50_000 (d.untilRise - 1) (en a) (fun n => a.line (d.drive en n)) where
  phase := by
    have := h.bounds
    omega
  start := hline
  step n := by
    obtain ⟨hphase, -⟩ := untilRise_drive h en n
    obtain ⟨-, -, hyaw, hpitch⟩ := step_spec hphase (en .yaw n) (en .pitch n)
    have hnext : a.line (d.drive en (n + 1)) =
        nextLine (d.drive en n).untilRise (en a n) (a.line (d.drive en n)) := by
      cases a
      · exact hyaw
      · exact hpitch
    rw [hnext, nextLine]
    simp only [untilRise_eq_one_iff h]

end Drive

/-- **One enable window, one motor pulse.**  From every phase of `clk0` and with the step
    line high, on either axis: when the enable comes in windows of 50,000 cycles that are
    at least 50,000 cycles apart, each window has exactly one rising edge of `clk0` and one
    falling edge of the step line, which are the same; the line falls nowhere else, and
    every pulse ends one period of `clk0` later.  In general, of `k` enabled edges in a row,
    with a disabled one behind them and none or a disabled one in front, every second one
    starts a pulse of one period, which makes ⌈k / 2⌉. -/
theorem one_pulse_per_window (d : Driver) (hd : d.InPhase) (en : Axis → ℕ → Bool) (a : Axis)
    (hline : a.line d = true) :
    let line := fun n => a.line (d.drive en n)
    (∀ starts, Windows 50_000 (en a) starts →
      (∀ w ∈ starts, ∃ e, (w ≤ e ∧ e < w + 50_000) ∧ d.Rises en e ∧ Fall line e ∧
        ∀ e', w ≤ e' → e' < w + 50_000 → d.Rises en e' ∨ Fall line e' → e' = e) ∧
      ∀ e, Fall line e → (∃ w ∈ starts, w ≤ e ∧ e < w + 50_000) ∧
        (∀ n, e < n → n ≤ e + 50_000 → line n = false) ∧ line (e + 50_000 + 1) = true) ∧
    ∀ e k, d.Rises en e → (∀ j < k, en a (e + j * 50_000) = true) →
      en a (e + k * 50_000) = false → (∀ e', e' + 50_000 = e → en a e' = false) →
      Nat.count (fun m => Fall line (e + m)) (k * 50_000 + 1) = (k + 1) / 2 ∧
      (∀ j < k, ∀ n, e + j * 50_000 < n → n ≤ e + (j + 1) * 50_000 →
        line n = decide (j % 2 = 1)) ∧
      line (e + k * 50_000 + 1) = true := by
  intro line
  have ht : Toggled 50_000 (d.untilRise - 1) (en a) line := toggled_line hd en hline
  refine ⟨fun starts hw => ⟨fun w hmem => ?_, fun e hf => ⟨?_, ht.pulse hw hf⟩⟩,
    fun e k he hen hend hfirst => ?_⟩
  · obtain ⟨e, hwe, hew, her⟩ := exists_edge ht.phase w
    refine ⟨e, ⟨hwe, hew⟩, (rises_iff hd en e).mpr her,
      (ht.fall_iff hw e).mpr ⟨her, w, hmem, hwe, hew⟩, fun e' hwe' hew' hor => ?_⟩
    have her' : e' % 50_000 = d.untilRise - 1 := by
      rcases hor with hrise | hfall
      · exact (rises_iff hd en e').mp hrise
      · exact (ht.fall_edge hfall).1
    exact edge_unique ⟨hwe', hew', her'⟩ ⟨hwe, hew, her⟩
  · exact ((ht.fall_iff hw e).mp hf).2
  · have her := (rises_iff hd en e).mp he
    have hhigh := ht.group_start her hfirst
    refine ⟨ht.group_falls her hhigh hen hend, fun j hj n hn hn' =>
      ht.group_behind her hhigh hen hj hn hn', ?_⟩
    rw [ht.step, if_pos (edge_add k her), hend]
    rfl

/-- A step line of each axis and the divider about to rise. -/
def freshDriver : Driver where
  c0 := { count := 0, clkout := false }
  yawStep := true
  pitchStep := true

/-- One yaw window from cycle 10 on. -/
def yawWindow (a : Axis) (n : ℕ) : Bool := a = .yaw ∧ 10 ≤ n ∧ n < 50_010

/-- One window on the yaw axis, none on the pitch axis. -/
private theorem yawWindow_windows : Windows 50_000 (yawWindow .yaw) {10} where
  enabled n := by simp [yawWindow]
  apart a ha b hb hab := by
    rw [Set.mem_singleton_iff] at ha hb
    omega

/-- The window has its pulse, at the second rising edge of `clk0`. -/
theorem freshDriver_pulse : ∃ e, (10 ≤ e ∧ e < 50_010) ∧
    Fall (fun n => Axis.yaw.line (freshDriver.drive yawWindow n)) e := by
  have hphase : freshDriver.InPhase := show 0 < 25_000 by omega
  obtain ⟨e, he, -, hf, -⟩ := ((one_pulse_per_window freshDriver hphase yawWindow .yaw rfl).1
    {10} yawWindow_windows).1 10 rfl
  exact ⟨e, he, hf⟩

end Scope.Native.Driver
