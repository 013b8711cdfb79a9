import Scope.ForStd.EnableWindow
import Scope.Spec.EnableOutputs
import Scope.Spec.Homing

/-!
# The pulses of a homing run

Homing derives the enable of an axis from `pulse_timer` and from "not at the goal",
with the position that the tick has already moved.  The pulse for the last step of an
axis therefore never comes: an axis that is `d` steps away gets `d - 1` pulses.

## Key results

- `HomingRun.window_iff`: which ticks open an enable window
- `homing_windows`: how many windows an axis gets, and in which direction
- `homing_emits_iff`: homing emits every pulse it counts only when there is none
-/

namespace Scope.Native.SearchController

open Sync EnableWindow

/-- Step ticks are more than `PULSE_WIDTH + 2` cycles apart. -/
def Spaced (i : ℕ → Input) : Prop :=
  ∀ t u, t < u → (i t).stepTick = true → (i u).stepTick = true → t + (pulseWidth.toNat + 2) < u

section Spaced

variable {i : ℕ → Input} {t u n : ℕ}

/-- Behind a tick there is none for a pulse. -/
theorem Spaced.quiet (h : Spaced i) (ht : (i t).stepTick = true) (hu : t < u)
    (hu' : u ≤ t + (pulseWidth.toNat + 2)) : (i u).stepTick = false := by
  by_contra htick
  have := h t u hu ht (by simpa using htick)
  omega

/-- So the count stays for that long. -/
private theorem Spaced.ticks_eq (h : Spaced i) (ht : (i t).stepTick = true) (hn : t < n)
    (hn' : n ≤ t + (pulseWidth.toNat + 3)) : ticks i n = ticks i t + 1 := by
  rw [ticks_quiet i (m := t + 1) hn fun u hu hun => h.quiet ht (by omega) (by omega),
    ticks_succ, if_pos ht]

end Spaced

/-- A homing run that is entered at rest and goes undisturbed to `IDLE_WAIT`; cycle `T`
    is its last one. -/
structure HomingRun (m : Homing) (s : SearchController) (i : ℕ → Input) (T : ℕ) : Prop where
  timer : s.pulseTimer.toNat = 0
  low : ∀ a : Axis, a.en s = false
  undisturbed : ∀ k ≤ T, m.Undisturbed (i k)
  state : ∀ k ≤ T, (run step s i k).state = m.state
  arrives : (run step s i (T + 1)).state = .idleWait
  spaced : Spaced i

section HomingRun

variable {m : Homing} {a : Axis} {s : SearchController} {i : ℕ → Input} {T k b : ℕ}

/-- The mode lasts until the last tick has been counted. -/
private theorem HomingRun.ticks_lt (h : HomingRun m s i T) :
    (∀ k < T, ticks i k < m.distance s) ∧ ticks i T = m.distance s := by
  have hhomes : Homes m s i := homes_of_state (h.state 0 (Nat.zero_le T))
  have hidle : m.state ≠ .idleWait := by cases m <;> exact nofun
  have hlt : ∀ n ≤ T, ∀ k < n, ticks i k < m.distance s := by
    intro n
    induction n with
    | zero => exact fun _ k hk => absurd hk (Nat.not_lt_zero k)
    | succ n ih =>
      intro hn k hk
      by_cases hkn : k < n
      · exact ih (by omega) k hkn
      -- at the goal the next cycle would be one of `IDLE_WAIT`
      · obtain rfl : k = n := by omega
        have hle := ticks_le_of_lt (ih (by omega))
        have hcycle := hhomes k (fun l hl => h.undisturbed l (by omega)) (ih (by omega))
        by_contra hge
        have hdone := hcycle.2.2.2.2 (by omega)
        exact hidle ((h.state (k + 1) hn).symm.trans hdone.1)
  refine ⟨hlt T le_rfl, ?_⟩
  have hle := ticks_le_of_lt (hlt T le_rfl)
  have hcycle := hhomes T h.undisturbed (hlt T le_rfl)
  by_contra hne
  have hgo := hcycle.2.2.2.1 (by omega)
  exact hidle (hgo.symm.trans h.arrives)

/-- Every tick takes an axis a step closer to its goal. -/
theorem HomingRun.pos (h : HomingRun m s i T) (hk : k ≤ T) (a : Axis) :
    (a.pos (run step s i k)).toInt = approach (m.goal a).toInt (a.pos s).toInt (ticks i k) :=
  (homing_run (h.state 0 (Nat.zero_le T)) (fun l hl => h.undisturbed l (by omega))
    fun l hl => h.ticks_lt.1 l (by omega)).2 a

/-- Every tick takes one off the steps that are left. -/
theorem HomingRun.away (h : HomingRun m s i T) (hk : k ≤ T) (a : Axis) :
    m.away a (run step s i k) = m.away a s - ticks i k :=
  (distance_approach (h.pos hk)).1 a

/-- In front of its last cycle the run is not at the goal. -/
theorem HomingRun.edge (h : HomingRun m s i T) (hk : k < T) :
    m.Edge (i k) (run step s i k) (run step s i (k + 1)) := by
  have hd := (distance_approach (h.pos (k := k) (by omega))).2
  have hlt := h.ticks_lt.1 k hk
  exact homing_edge (h.state k (by omega)) (h.undisturbed k (by omega)) (by omega)

/-- In a homing run the enable of an axis is gated by "not at the goal". -/
theorem HomingRun.clocked (h : HomingRun m s i T) (a : Axis) (hk : k < T) :
    Clocked pulseWidth.toNat (fun n => (i n).stepTick)
      (fun n => decide (a.pos (run step s i n) ≠ m.goal a))
      (fun n => (run step s i n).pulseTimer.toNat) (enable a s i) k := by
  have he := h.edge hk
  exact ⟨loaded_toNat he.timer, he.en a⟩

/-- The axis is on its way for as many ticks as it has steps to go. -/
private theorem gate_iff (h : HomingRun m s i T) (hk : k ≤ T) :
    decide (a.pos (run step s i k) ≠ m.goal a) = true ↔ ticks i k < m.away a s := by
  rw [decide_eq_true_iff, Ne, ← away_eq_zero, h.away hk]
  omega

/-- An axis has no further to go than both. -/
private theorem away_le_distance (m : Homing) (a : Axis) (s : SearchController) :
    m.away a s ≤ m.distance s := by
  rw [Homing.distance]
  cases a <;> omega

/-- A run with a step to go behind a tick does not end before the next one. -/
theorem HomingRun.long {t : ℕ} (h : HomingRun m s i T) (ht : (i t).stepTick = true) (htT : t < T)
    (haway : ticks i t + 1 < m.away a s) : t + 2 + pulseWidth.toNat ≤ T := by
  by_contra hshort
  have hsame := h.spaced.ticks_eq ht htT (by omega)
  have hend := h.ticks_lt.2
  have hle := away_le_distance m a s
  omega

/-- Exactly the ticks that leave a step to go open a window on an axis. -/
theorem HomingRun.window_iff (h : HomingRun m s i T) (hb : b ≤ T) :
    Window (enable a s i) pulseWidth.toNat b ↔
      2 ≤ b ∧ (i (b - 2)).stepTick = true ∧ ticks i (b - 2) + 1 < m.away a s := by
  have hpulse := pulseWidth_toNat
  constructor
  · intro hw
    have hon : enable a s i b = true := hw.high 0 (by omega)
    -- without a tick the position stays
    have hstay : ∀ k, k + 1 < b → (i k).stepTick = false →
        decide (a.pos (run step s i (k + 1)) ≠ m.goal a) =
          decide (a.pos (run step s i k) ≠ m.goal a) := by
      intro k hk hq
      have hpos := (h.edge (show k < T by omega)).pos a
      rw [hq, if_neg Bool.false_ne_true] at hpos
      rw [hpos]
    obtain ⟨h2, ht, hg⟩ := load_of_rise (n := b) h.timer (h.low a)
      (fun k hk => h.clocked a (by omega)) hstay hon hw.low_before
    refine ⟨h2, ht, ?_⟩
    rw [gate_iff h (by omega), show b - 1 = b - 2 + 1 by omega, ticks_succ, if_pos ht] at hg
    exact hg
  · rintro ⟨h2, ht, haway⟩
    obtain ⟨t, rfl⟩ : ∃ t, b = t + 2 := ⟨b - 2, by omega⟩
    rw [Nat.add_sub_cancel] at ht haway
    have hlong := h.long ht (by omega) haway
    have hidle : (run step s i t).pulseTimer.toNat = 0 :=
      timer_idle (n := t) h.timer (fun k hk => h.clocked a (by omega)) fun u hu htick => by
        have := h.spaced u t hu htick ht
        omega
    refine window_of_load (t := t) ht hidle
      ⟨by omega, fun u hu hu' => h.spaced.quiet ht hu (by omega)⟩
      (fun k _ hk => h.clocked a (by omega)) fun k hk hk' => ?_
    rw [gate_iff h (by omega), h.spaced.ticks_eq ht hk (by omega)]
    exact haway

/-- The windows of exactly `PULSE_WIDTH` cycles that open on an axis up to cycle `T`. -/
def windows (a : Axis) (s : SearchController) (i : ℕ → Input) (T : ℕ) : ℕ :=
  Nat.count (Window (enable a s i) pulseWidth.toNat) (T + 1)

/-- An axis gets a window for every step but the last one. -/
theorem homing_windows (h : HomingRun m s i T) (a : Axis) :
    windows a s i T = m.away a s - 1 := by
  have hle := away_le_distance m a s
  have hend := h.ticks_lt.2
  rcases T with _ | T
  · rw [ticks_zero] at hend
    have hnone : ¬ Window (enable a s i) pulseWidth.toNat 0 := by
      rw [h.window_iff le_rfl]
      omega
    rw [windows, Nat.count_succ, if_neg hnone, Nat.count_zero]
    omega
  -- the last tick comes right in front of the end
  · have hlast := h.ticks_lt.1 T (by omega)
    rw [ticks_succ] at hend
    have hcount : windows a s i (T + 1) = min (ticks i T) (m.away a s - 1) :=
      (count_shift _ _ T fun b hb => h.window_iff (by omega)).trans
        (count_before (fun t => (i t).stepTick = true) (m.away a s) T)
    rw [hcount]
    split_ifs at hend <;> omega

/-- All the time a window is open the direction is that of the goal. -/
private theorem HomingRun.directed (h : HomingRun m s i T) (hb : b ≤ T)
    (hw : Window (enable a s i) pulseWidth.toNat b) (hk : k < pulseWidth.toNat) :
    a.dir (run step s i (b + k)) = m.toward a s := by
  obtain ⟨h2, ht, haway⟩ := (h.window_iff hb).mp hw
  have hlong := h.long ht (by omega) haway
  obtain ⟨n, hn⟩ : ∃ n, b + k = n + 1 := ⟨b + k - 1, by omega⟩
  have he := h.edge (show n < T by omega)
  -- an open window shows that the goal has not been reached
  have hon : a.en (run step s i (n + 1)) = true := by
    rw [← hn]
    exact hw.high k hk
  rw [he.en a, Bool.and_eq_true, decide_eq_true_iff] at hon
  have hpos := h.pos (show n ≤ T by omega) a
  have hne : approach (m.goal a).toInt (a.pos s).toInt (ticks i n) ≠ (m.goal a).toInt := by
    rw [← hpos]
    exact fun heq => hon.2 (BitVec.toInt_inj.mp heq)
  rw [hn, he.dir a hon.2]
  apply decide_eq_decide.mpr
  rw [hpos, approach_side hne]

/-- Every step that homing counts is one window of exactly `PULSE_WIDTH` cycles on its
    axis, all of it in the direction of the goal. -/
structure EmitsAll (m : Homing) (s : SearchController) (i : ℕ → Input) (T : ℕ) : Prop where
  count : ∀ a : Axis, windows a s i T = m.away a s
  directed : ∀ (a : Axis) (b : ℕ), b ≤ T → Window (enable a s i) pulseWidth.toNat b →
    ∀ k < pulseWidth.toNat, a.dir (run step s i (b + k)) = m.toward a s

end HomingRun

/-- Homing emits every pulse it counts exactly when it starts at its goal. -/
theorem homing_emits_iff (m : Homing) (s : SearchController) (i : ℕ → Input) (T : ℕ)
    (h : HomingRun m s i T) :
    EmitsAll m s i T ↔ ∀ a : Axis, a.pos s = m.goal a := by
  constructor
  · intro he a
    have hcount := he.count a
    rw [homing_windows h a] at hcount
    rw [← away_eq_zero]
    omega
  · intro hgoal
    refine ⟨fun a => ?_, fun a b hb hw k hk => h.directed hb hw hk⟩
    rw [homing_windows h a, away_eq_zero.mpr (hgoal a)]

/-! ## The last step -/

/-- The button, the target, one yaw command, the target lost, the button again; then one
    tick. -/
def oneStepOut (n : ℕ) : Input :=
  { noInput n with
    returnHome := n = 0 ∨ n = 5
    onTarget := n = 2 ∨ n = 3
    rxDone := n = 3
    irYawEn := n = 3
    irYawDir := n = 3
    stepTick := n = 6 }

/-- A press at the homing position leaves nothing to send. -/
theorem pressAtHome_emits :
    EmitsAll .forcedReturn (run step powerUp.resetRegs oneStepOut 1)
      (fun n => oneStepOut (1 + n)) 0 := by
  refine (homing_emits_iff _ _ _ _ ⟨by decide, ?_, ?_, ?_, by decide, ?_⟩).mpr ?_
  · rintro ⟨_⟩ <;> decide
  · intro k hk
    rw [Nat.le_zero.mp hk]
    exact ⟨⟨rfl, by decide⟩, fun h => by cases h⟩
  · intro k hk
    rw [Nat.le_zero.mp hk]
    decide
  · intro t u htu ht hu
    have ht : 1 + t = 6 := of_decide_eq_true ht
    have hu : 1 + u = 6 := of_decide_eq_true hu
    omega
  · rintro ⟨_⟩ <;> decide

/-- `FORCED_RETURN` at (1, -266) with the timer at zero. -/
def oneStepAway : SearchController := run step powerUp.resetRegs oneStepOut 6

/-- The button is released and the tick comes. -/
def tickHome (n : ℕ) : Input := oneStepOut (6 + n)

/-- The single tick is a homing run. -/
private theorem oneStepAway_homingRun : HomingRun .forcedReturn oneStepAway tickHome 1 where
  timer := by decide
  low := by rintro ⟨_⟩ <;> decide
  undisturbed k hk := by
    refine ⟨⟨rfl, ?_⟩, fun h => by cases h⟩
    exact decide_eq_false (by omega)
  state k hk := by
    obtain rfl | rfl : k = 0 ∨ k = 1 := by omega
    · decide
    · decide
  arrives := by decide
  spaced t u htu ht hu := by
    have ht : 6 + t = 6 := of_decide_eq_true ht
    have hu : 6 + u = 6 := of_decide_eq_true hu
    omega

/-- One yaw step is counted and no window opens. -/
theorem homing_swallows_last_step :
    HomingRun .forcedReturn oneStepAway tickHome 1 ∧
    oneStepAway.posX.toInt = 1 ∧ windows .yaw oneStepAway tickHome 1 = 0 ∧
    ¬ EmitsAll .forcedReturn oneStepAway tickHome 1 := by
  have hwindows := homing_windows oneStepAway_homingRun .yaw
  rw [show Homing.forcedReturn.away .yaw oneStepAway = 1 by decide] at hwindows
  refine ⟨oneStepAway_homingRun, by decide, hwindows, fun he => ?_⟩
  have hcount := he.count .yaw
  rw [hwindows] at hcount
  revert hcount
  decide

end Scope.Native.SearchController
