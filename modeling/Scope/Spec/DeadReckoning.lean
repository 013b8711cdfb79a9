import Scope.Spec.StepLedger

/-!
# Dead reckoning

The position registers count steps, the motors get pulses.  In a run from reset the
two agree whenever no step is in flight, unless a clock edge has lost a step or
invented one: a mode change has interrupted it, the last step of a leg or of a
homing run has been driven as if it were already over, or a command has asked for a
step beyond a limit.

## Key results

- `ledger_run`: the ledger over a whole run
- `dead_reckoning`: at rest the position is the number of pulses
- `command_beyond_limit`: a command below the lower limit moves the motor alone
-/

namespace Scope.Native.Gimbal

open Sync StepPulse SearchController

/-! ## Whole runs -/

/-- The motor half in front of clock edge `n`. -/
def trace (g : Gimbal) (i : ℕ → Input) (n : ℕ) : Gimbal := run step g i n

/-- The low-going pulses on the step line of an axis before cycle `n` while its
    direction was `b`. -/
def sent (g : Gimbal) (i : ℕ → Input) (a : Axis) (b : Bool) (n : ℕ) : ℕ :=
  emitted (fun m => a.line (g.trace i m).simpledriver)
    (fun m => a.dir (g.trace i m).controller0) b n

/-- A reset with both enables low, the step lines high and `clk0` in any phase. -/
structure FromReset (g : Gimbal) : Prop where
  reset : ∃ s : SearchController, g.controller0 = s.resetRegs
  yawEn : g.controller0.outYawEn = false
  pitchEn : g.controller0.outPitchEn = false
  yawStep : g.simpledriver.yawStep = true
  pitchStep : g.simpledriver.pitchStep = true
  phase : g.simpledriver.InPhase

section Runs

variable {g : Gimbal} {i : ℕ → Input} {m n : ℕ} {d : Axis → ℤ}

theorem trace_succ (n : ℕ) : g.trace i (n + 1) = (g.trace i n).step (i n) := rfl

/-- From cycle `m` on, what is owed changes by the steps that are counted and the
    pulses that are sent. -/
theorem ledger_run (h : Ledger i m (g.trace i m) d) (hi : FromReceiver i) (hmn : m ≤ n)
    (hkeep : ∀ k, m ≤ k → k < n → KeepsStep (i k) (g.trace i k)) :
    Ledger i n (g.trace i n) fun a =>
      d a + ((a.pos (g.trace i n).controller0).toInt - (a.pos (g.trace i m).controller0).toInt) -
        (((g.sent i a true n : ℤ) - g.sent i a false n) -
          ((g.sent i a true m : ℤ) - g.sent i a false m)) := by
  induction n, hmn using Nat.le_induction with
  | base => simpa using h
  | succ n hmn ih =>
    have hstep := ledger_step (ih fun k hk hkn => hkeep k hk (by omega)) hi
      (hkeep n hmn (by omega))
    rw [← trace_succ] at hstep
    -- the pulses of the cycle are what `balance` has taken off
    convert hstep using 2 with a
    have hsent : (g.sent i a true (n + 1) : ℤ) - g.sent i a false (n + 1) = _ :=
      emitted_succ _ _ n
    rw [hsent, balance]
    simp only [sent]
    omega

/-- Behind a reset nothing is under way. -/
theorem FromReset.atRest (h : FromReset g) : g.AtRest := by
  obtain ⟨s, hs⟩ := h.reset
  exact ⟨by rw [hs]; rfl, h.yawEn, h.pitchEn, h.yawStep, h.pitchStep⟩

/-- Behind a reset nothing is owed. -/
theorem FromReset.ledger (h : FromReset g) : Ledger i 0 g fun _ => 0 := by
  have hrest := h.atRest
  obtain ⟨s, hs⟩ := h.reset
  refine ⟨h.phase, by rw [hrest.timer]; omega, fun a => ?_,
    .bootUp (by rw [hs]; rfl) h.yawEn (hrest.aged _)⟩
  rw [hrest.timer, (hrest.axis a).1, (hrest.axis a).2]
  exact .of_rest

/-- **Dead reckoning.**  In a run from reset whose clock edges all keep their steps,
    whenever no step is in flight `pos_x` and `pos_y` are the pulses that the motors
    have got, counted from the position at reset. -/
theorem dead_reckoning (g : Gimbal) (i : ℕ → Input) (hg : FromReset g) (hi : FromReceiver i)
    (n : ℕ) (hkeep : ∀ k < n, KeepsStep (i k) (g.trace i k)) (hrest : (g.trace i n).AtRest) :
    (g.sent i .yaw true n : ℤ) - g.sent i .yaw false n = (g.trace i n).controller0.posX.toInt ∧
    (g.sent i .pitch true n : ℤ) - g.sent i .pitch false n =
      (g.trace i n).controller0.posY.toInt + bootLimit.toInt := by
  have hrun := ledger_run (m := 0) hg.ledger hi (Nat.zero_le n) fun k _ hk => hkeep k hk
  -- at rest nothing is owed on either axis
  have hyaw := hrun.rest hrest .yaw
  have hpitch := hrun.rest hrest .pitch
  obtain ⟨s, hs⟩ := hg.reset
  have hx : (g.trace i 0).controller0.posX.toInt = 0 := by
    rw [show g.trace i 0 = g from rfl, hs]
    rfl
  have hy : (g.trace i 0).controller0.posY.toInt = -266 := by
    rw [show g.trace i 0 = g from rfl, hs]
    rfl
  have h0 : ∀ a b, g.sent i a b 0 = 0 := fun _ _ => by simp [sent, emitted]
  simp only [h0, Axis.pos, hx, hy] at hyaw hpitch
  rw [bootLimit_toInt]
  omega

end Runs

/-- Away from the spiral and from homing, a step is kept without a command. -/
theorem keepsStep_of_quiet {g : Gimbal} {i : Input} (hh : i.returnHome = false)
    (hsearch : g.controller0.state ≠ .searching) (hforced : g.controller0.state ≠ .forcedReturn)
    (hrx : g.controller0.state = .tracking → i.rxDone = false) : KeepsStep i g where
  home h := by rw [hh] at h; cases h
  found _ hs := absurd hs hsearch
  spiral h := absurd h.state hsearch
  homing _ hs := absurd hs hforced
  limit _ hs _ h := by rw [hrx hs] at h; cases h

/-! ## One boot step -/

/-- Reset with a tick pending. -/
def afterReset (tick : Bool) : Gimbal where
  ticker := { clkCount := 0, stepTick := tick, settled := fun _ => rfl }
  controller0 :=
    { state := .bootUp, posX := 0, posY := -bootLimit, sideLimit := densityStep, stepCount := 0,
      spiralDir := 0, pulseTimer := 0, hasSeenTarget := false, outYawEn := false,
      outYawDir := false, outPitchEn := false, outPitchDir := false }
  simpledriver := { c0 := { count := 0, clkout := false }, yawStep := true, pitchStep := true }

/-- Behind a reset for real, at any phase of the tick. -/
theorem afterReset_fromReset (tick : Bool) : FromReset (afterReset tick) :=
  ⟨⟨(afterReset tick).controller0, rfl⟩, rfl, rfl, rfl, rfl, show 0 < 25_000 by omega⟩

/-- Nothing received, nothing pressed. -/
def noCommand (_ : ℕ) : Input where
  reset := false
  returnHome := false
  onTarget := false
  rxDone := false
  irYawEn := false
  irYawDir := false
  irPitchEn := false
  irPitchDir := false

/-- Nothing is what a silent receiver sends. -/
private theorem noCommand_fromReceiver : FromReceiver noCommand where
  reset _ := rfl
  change _ _ := ⟨rfl, rfl, rfl, rfl, rfl⟩
  spaced _ _ _ h := by cases h

/-- Up to the second tick the controller takes one boot step. -/
private theorem oneStep_trace {n : ℕ} (h1 : 1 ≤ n) (hn : n ≤ 500_000) :
    ((afterReset true).trace noCommand n).controller0.state = .bootUp ∧
    ((afterReset true).trace noCommand n).controller0.posY = -265 ∧
    ((afterReset true).trace noCommand n).ticker.clkCount.toNat = n ∧
    ((afterReset true).trace noCommand n).ticker.stepTick = false := by
  induction n, h1 using Nat.le_induction with
  | base => decide
  | succ n _ ih =>
    obtain ⟨hs, hy, hcount, ht⟩ := ih (by omega)
    rw [trace_succ, step_eq]
    set g := (afterReset true).trace noCommand n
    have hb : Branch (g.controllerInput (noCommand n)) g.controller0 _ :=
      .bootWait ⟨rfl, rfl⟩ hs ht
    have hup : (g.ticker.clkCount + 1).toNat = g.ticker.clkCount.toNat + 1 :=
      BitVec.toNat_add_one (by omega)
    have htick : g.ticker.step.clkCount = g.ticker.clkCount + 1 ∧
        g.ticker.step.stepTick = false := by
      unfold StepTick.step
      rw [if_neg (by omega)]
      exact ⟨rfl, rfl⟩
    rw [hb.eq]
    refine ⟨hs, hy, ?_, htick.2⟩
    show g.ticker.step.clkCount.toNat = _
    rw [htick.1, hup, hcount]

/-- The first boot step is one pulse. -/
theorem oneStep_reckoning :
    ((afterReset true).sent noCommand .pitch true 200_000 : ℤ) -
      (afterReset true).sent noCommand .pitch false 200_000 = 1 := by
  have hkeep : ∀ k < 200_000, KeepsStep (noCommand k) ((afterReset true).trace noCommand k) := by
    intro k hk
    have hs : ((afterReset true).trace noCommand k).controller0.state = .bootUp := by
      rcases Nat.eq_zero_or_pos k with rfl | hpos
      · rfl
      · exact (oneStep_trace hpos (by omega)).1
    exact keepsStep_of_quiet rfl (by simp [hs]) (by simp [hs]) (by simp [hs])
  obtain ⟨hs, hy, hcount, ht⟩ := oneStep_trace (n := 200_000) (by omega) (by omega)
  have hrest : ((afterReset true).trace noCommand 200_000).AtRest := by
    have hrun := ledger_run (g := afterReset true) (i := noCommand) (m := 0)
      (afterReset_fromReset true).ledger noCommand_fromReceiver (Nat.zero_le 200_000)
      fun k _ hk => hkeep k hk
    refine (hrun.mode.of_bootUp hs).2.settled hrun.phase ?_
    rw [StepTick.since, ht, if_neg (by simp), hcount]
    omega
  rw [(dead_reckoning (afterReset true) noCommand (afterReset_fromReset true)
    noCommand_fromReceiver 200_000 hkeep hrest).2, hy]
  rfl

/-! ## A command beyond a limit -/

/-- Press the return button in the cycle after reset; a packet then commands one
    pitch step down. -/
def pitchDown (n : ℕ) : Input where
  reset := false
  returnHome := n = 0
  onTarget := true
  rxDone := n = 3
  irYawEn := false
  irYawDir := false
  irPitchEn := true
  irPitchDir := false

/-- A single packet is something that `ir_rx` can send. -/
private theorem pitchDown_fromReceiver : FromReceiver pitchDown where
  reset _ := rfl
  change _ _ := ⟨rfl, rfl, rfl, rfl, rfl⟩
  spaced m n hmn hm hn := by
    have hm : m = 3 := of_decide_eq_true hm
    have hn : n = 3 := of_decide_eq_true hn
    omega

/-- The command finds `pos_y` at `-BOOT_LIMIT`, below `-PITCH_LIMIT`, and does not move it. -/
private theorem pitchDown_trace {n : ℕ} (h4 : 4 ≤ n) :
    ((afterReset false).trace pitchDown n).controller0.state = .tracking ∧
    ((afterReset false).trace pitchDown n).controller0.posY = -266 := by
  induction n, h4 using Nat.le_induction with
  | base => decide
  | succ n hn ih =>
    obtain ⟨hs, hy⟩ := ih
    rw [trace_succ, step_eq]
    have hb : Branch (((afterReset false).trace pitchDown n).controllerInput (pitchDown n))
        ((afterReset false).trace pitchDown n).controller0 _ :=
      .trackHold ⟨rfl, decide_eq_false (by omega)⟩ hs rfl (decide_eq_false (by omega))
    rw [hb.eq]
    exact ⟨hs, hy⟩

/-- The motor owes a step down that has not been counted. -/
private theorem pitchDown_ledger : Ledger pitchDown 4 ((afterReset false).trace pitchDown 4)
    fun a => if a = .pitch then -1 else 0 := by
  have hrx : (pitchDown 3).rxDone = true := rfl
  have hphase : ((afterReset false).trace pitchDown 4).simpledriver.InPhase := by
    unfold Driver.InPhase
    decide
  have htimer : ((afterReset false).trace pitchDown 4).controller0.pulseTimer.toNat = 50_000 := by
    decide
  refine ⟨hphase, htimer.le, fun a => ?_, .tracking (pitchDown_trace le_rfl).1
    (.inr ⟨rfl, 3, by omega, hrx, fun a => .fresh htimer.le hphase.bounds.2⟩)⟩
  cases a with
  | yaw => exact .idle (by decide) (by decide) (.inl (by decide))
  | pitch =>
    refine Owes.pending false (by decide) ?_ (by decide)
    rw [htimer]
    exact hphase.bounds.2

/-- Two periods later the motor is at rest and has got the step. -/
private theorem pitchDown_sent {n : ℕ} (hn : 100_004 < n) :
    ((afterReset false).trace pitchDown n).AtRest ∧
    ((afterReset false).sent pitchDown .pitch true n : ℤ) -
      (afterReset false).sent pitchDown .pitch false n = -1 := by
  obtain ⟨hs, hy⟩ := pitchDown_trace (n := n) (by omega)
  -- behind the command every clock edge keeps its steps
  have hkeep : ∀ k, 4 ≤ k → k < n →
      KeepsStep (pitchDown k) ((afterReset false).trace pitchDown k) := by
    intro k hk _
    have hk' := (pitchDown_trace hk).1
    exact keepsStep_of_quiet (decide_eq_false (by omega)) (by simp [hk']) (by simp [hk'])
      fun _ => decide_eq_false (by omega)
  have hrun := ledger_run pitchDown_ledger pitchDown_fromReceiver (by omega) hkeep
  have hrest : ((afterReset false).trace pitchDown n).AtRest := by
    rcases hrun.mode.of_tracking hs with hrest | ⟨-, m, -, hm, haged⟩
    · exact hrest
    · have hm3 : m = 3 := of_decide_eq_true hm
      exact haged.settled hrun.phase (by omega)
  have hpitch := hrun.rest hrest .pitch
  have h4 : (afterReset false).sent pitchDown .pitch true 4 = 0 ∧
      (afterReset false).sent pitchDown .pitch false 4 = 0 := by decide
  simp only [Axis.pos, hy, (pitchDown_trace le_rfl).2, h4, if_true] at hpitch
  exact ⟨hrest, by omega⟩

/-- The pulse for a command beyond the limit is sent, but the position does not move. -/
theorem command_beyond_limit :
    FromReset (afterReset false) ∧ FromReceiver pitchDown ∧
    ((afterReset false).trace pitchDown 200_000).AtRest ∧
    ((afterReset false).sent pitchDown .pitch true 200_000 : ℤ) -
        (afterReset false).sent pitchDown .pitch false 200_000 ≠
      ((afterReset false).trace pitchDown 200_000).controller0.posY.toInt + bootLimit.toInt := by
  obtain ⟨hrest, hsent⟩ := pitchDown_sent (n := 200_000) (by omega)
  refine ⟨afterReset_fromReset false, pitchDown_fromReceiver, hrest, ?_⟩
  rw [hsent, (pitchDown_trace (n := 200_000) (by omega)).2]
  decide

end Scope.Native.Gimbal
