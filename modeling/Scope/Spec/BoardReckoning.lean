import Scope.Spec.ControlLoop
import Scope.Spec.DeadReckoning

/-!
# Dead reckoning on the board

Behind any line, `ir_rx` gives the motor half what the ledger of steps and pulses
relies on: data that changes with `rx_done` only, and never twice in 155,000 cycles.
So noise cannot part the position from the pulses.  Booting needs no condition at
all: it takes the gimbal up from its lower stop with exactly the pulses it counts.

## Key results

- `gimbal_fromReceiver`: the inputs of the motor half on the board
- `board_reckoning`: at rest the position is the number of pulses
- `boot_reaches_horizon`: what booting sends to the motors
-/

namespace Scope.Native

open Sync StepPulse SearchController

section Board

variable {y : LaserTop} {home l : ℕ → Bool} {k m n : ℕ}

/-- The inputs of the motor half. -/
def gimbalPorts (y : LaserTop) (home l : ℕ → Bool) (n : ℕ) : Gimbal.Input :=
  (laser y home l n).gimbalInput { key0 := true, key1 := !home n, gpio1 := l n }

/-- The motor half runs on the board as it does alone. -/
theorem laser_gimbal (y : LaserTop) (home l : ℕ → Bool) (n : ℕ) :
    (laser y home l n).gimbal = y.gimbal.trace (gimbalPorts y home l) n := by
  have hstep : ∀ (j : LaserTop.Input) (r : LaserTop),
      (r.step j).gimbal = r.gimbal.step (r.gimbalInput j) := fun _ _ => rfl
  exact run_component LaserTop.gimbal hstep y _ n

/-- Whatever comes in on the line, the receiver keeps to its side. -/
theorem gimbal_fromReceiver (h0 : y.r0.fsm.done = false) :
    Gimbal.FromReceiver (gimbalPorts y home l) where
  reset _ := rfl
  change n hn := by
    have hdata : (laser y home l (n + 1)).irData = (laser y home l n).irData :=
      irData_quiet (Nat.le_succ n) fun k hk hkn => by
        obtain rfl : k = n + 1 := by omega
        exact hn
    have hbit : ∀ j, (laser y home l n).irData.getLsbD j =
        (laser y home l (n + 1)).irData.getLsbD j := fun j => by rw [hdata]
    exact ⟨hbit 4, hbit 0, congrArg (fun b => !b) (hbit 1), hbit 2,
      congrArg (fun b => !b) (hbit 3)⟩
  spaced _ _ hmn hm hn := rxDone_spacing h0 hmn hm hn

/-- From a reset, at rest nothing is owed on either axis. -/
private theorem sent_of_rest {g : Gimbal} {i : ℕ → Gimbal.Input} (hg : Gimbal.FromReset g)
    (hi : Gimbal.FromReceiver i) (hkeep : ∀ k < n, Gimbal.KeepsStep (i k) (g.trace i k))
    (hrest : (g.trace i n).AtRest) (a : Axis) :
    (g.sent i a true n : ℤ) - g.sent i a false n =
      (a.pos (g.trace i n).controller0).toInt - (a.pos g.controller0).toInt := by
  have hrun := Gimbal.ledger_run (m := 0) hg.ledger hi (Nat.zero_le n) fun k _ hk => hkeep k hk
  have howed := hrun.rest hrest a
  have h0 : ∀ b, g.sent i a b 0 = 0 := fun _ => by simp [Gimbal.sent, emitted]
  rw [h0, h0, show g.trace i 0 = g from rfl] at howed
  omega

/-! ## Booting -/

/-- Booting, after `k` ticks. -/
structure Booting (k : ℕ) (c : SearchController) : Prop where
  state : c.state = .bootUp
  posX : c.posX = 0
  posY : c.posY.toInt = k - 266
  le : k ≤ 266
  yawEn : c.outYawEn = false

/-- Behind a clock edge of `BOOT_UP` the pitch motor is set to go up and the yaw motor is
    off. -/
structure Upward (c : SearchController) : Prop where
  pitchDir : c.outPitchDir = true
  yawEn : c.outYawEn = false

/-- A clock edge of booting counts a tick, or ends with the last one. -/
theorem Booting.step {c : SearchController} {j : SearchController.Input} (h : Booting k c)
    (hl : Live j) : Upward (c.step j) ∧
      if j.stepTick = true ∧ k = 266 then
        (c.step j).state = .idleWait ∧ (c.step j).posX = 0 ∧ (c.step j).posY = 0
      else Booting (if j.stepTick then k + 1 else k) (c.step j) := by
  have hy := h.posY
  have hk := h.le
  cases ht : j.stepTick
  · rw [(Branch.bootWait hl h.state ht).eq]
    exact ⟨⟨rfl, h.yawEn⟩, by simpa using ⟨h.state, h.posX, h.posY, h.le, h.yawEn⟩⟩
  · by_cases hk' : k = 266
    · rw [(Branch.bootDone hl h.state ht (by omega)).eq]
      have hzero : c.posY = 0 := BitVec.toInt_inj.mp (by
        rw [show (0 : BitVec 16).toInt = 0 from rfl]; omega)
      exact ⟨⟨rfl, h.yawEn⟩, by simp [hk', h.posX, hzero]⟩
    · have hy' := BitVec.toInt_add_one (x := c.posY) (by omega)
      rw [(Branch.bootStep hl h.state ht (by omega)).eq]
      refine ⟨⟨rfl, h.yawEn⟩, ?_⟩
      rw [if_neg (by simp [hk']), if_pos rfl]
      exact ⟨h.state, h.posX, by rw [hy', hy]; push_cast; omega, by omega, h.yawEn⟩

/-- Up to the end of booting. -/
private theorem boot_run (hg : Gimbal.FromReset y.gimbal) (hhome : ∀ k < n, home k = false) :
    (∀ k ≤ n, Booting (ticks (ports y home l) k) (controller y home l k)) ∨
    ∃ m ≤ n, (∀ k < m, Booting (ticks (ports y home l) k) (controller y home l k)) ∧
      (controller y home l m).state = .idleWait ∧
      (controller y home l m).posX = 0 ∧ (controller y home l m).posY = 0 := by
  induction n with
  | zero =>
    obtain ⟨s, hs⟩ := hg.reset
    refine .inl fun k hk => ?_
    obtain rfl : k = 0 := by omega
    have hc : controller y home l 0 = s.resetRegs := hs
    have hyaw : (controller y home l 0).outYawEn = false := hg.yawEn
    rw [hc] at hyaw ⊢
    exact ⟨rfl, rfl, rfl, Nat.zero_le _, hyaw⟩
  | succ n ih =>
    obtain hboot | ⟨m, hm, hend⟩ := ih fun k hk => hhome k (by omega)
    · have hstep := ((hboot n le_rfl).step (ports_live (y := y) (l := l) (hhome n (by omega)))).2
      rw [← controller_succ] at hstep
      split_ifs at hstep with hlast htick
      · exact .inr ⟨n + 1, le_rfl, fun k hk => hboot k (by omega), hstep⟩
      all_goals
        refine .inl fun k hk => ?_
        obtain hk | rfl := Nat.le_or_eq_of_le_succ hk
        · exact hboot k hk
        · rw [ticks_succ]
          simpa [htick] using hstep
    · exact .inr ⟨m, by omega, hend⟩

variable (home l) in
/-- Up to the end of booting every clock edge keeps its steps, and it ends at rest. -/
private theorem boot_keeps (hg : Gimbal.FromReset y.gimbal) (h0 : y.r0.fsm.done = false)
    (hhome : ∀ k < 267 * 500_002, home k = false) :
    ∃ n ≤ 267 * 500_002,
      (∀ k < n, Booting (ticks (ports y home l) k) (controller y home l k)) ∧
      (controller y home l n).state = .idleWait ∧ (laser y home l n).gimbal.AtRest ∧
      (controller y home l n).posX = 0 ∧ (controller y home l n).posY = 0 ∧
      ∀ k < n, Gimbal.KeepsStep (gimbalPorts y home l k) (laser y home l k).gimbal := by
  obtain hboot | ⟨n, hn, hboot, hidle, hx, hy⟩ := boot_run (l := l) hg hhome
  -- the ticks do not let it go on for longer
  · have hticks := ticks_recur y home l 0 267
    have hlast := (hboot _ le_rfl).le
    rw [ticks_zero, Nat.zero_add, Nat.zero_add] at hticks
    omega
  have hkeep : ∀ k < n, Gimbal.KeepsStep (gimbalPorts y home l k) (laser y home l k).gimbal := by
    intro k hk
    have hs : (laser y home l k).gimbal.controller0.state = .bootUp := (hboot k hk).state
    have hh : (gimbalPorts y home l k).returnHome = false := by
      simp [gimbalPorts, LaserTop.gimbalInput, hhome k (by omega)]
    exact Gimbal.keepsStep_of_quiet hh (by rw [hs]; simp) (by rw [hs]; simp)
      fun htrack => by rw [hs] at htrack; cases htrack
  refine ⟨n, hn, hboot, hidle, ?_, hx, hy, hkeep⟩
  -- in `IDLE_WAIT` no step is in flight
  have hrun := Gimbal.ledger_run (m := 0) hg.ledger (gimbal_fromReceiver h0) (Nat.zero_le n)
    fun k _ hk => laser_gimbal y home l k ▸ hkeep k hk
  rw [laser_gimbal]
  exact hrun.mode.of_idleWait (by rw [← laser_gimbal]; exact hidle)

/-! ## The position and the pulses -/

/-- **Dead reckoning on the board.**  From a reset, whatever comes in on the line: as long as
    every clock edge keeps its steps, `pos_x` and `pos_y` are the pulses that the motors have
    got, whenever no step is in flight. -/
theorem board_reckoning (y : LaserTop) (home l : ℕ → Bool) (hg : Gimbal.FromReset y.gimbal)
    (h0 : y.r0.fsm.done = false) (n : ℕ)
    (hkeep : ∀ k < n, Gimbal.KeepsStep (gimbalPorts y home l k) (laser y home l k).gimbal)
    (hrest : (laser y home l n).gimbal.AtRest) :
    let i := gimbalPorts y home l
    (y.gimbal.sent i .yaw true n : ℤ) - y.gimbal.sent i .yaw false n =
      (controller y home l n).posX.toInt ∧
    (y.gimbal.sent i .pitch true n : ℤ) - y.gimbal.sent i .pitch false n =
      (controller y home l n).posY.toInt + bootLimit.toInt := by
  intro i
  have hi : Gimbal.FromReceiver i := gimbal_fromReceiver h0
  have hsent := sent_of_rest hg hi (fun k hk => laser_gimbal y home l k ▸ hkeep k hk)
    (laser_gimbal y home l n ▸ hrest)
  obtain ⟨s, hs⟩ := hg.reset
  have hyaw := hsent .yaw
  have hpitch := hsent .pitch
  rw [← laser_gimbal, hs] at hyaw hpitch
  refine ⟨hyaw.trans ?_, hpitch.trans ?_⟩ <;> simp [Axis.pos, resetRegs, controller]

/-- The transmitter board behind a reset. -/
def resetLaser : LaserTop where
  r0 := IrLink.restingRx
  gimbal := Gimbal.afterReset false

/-- Noise in every third cycle: where booting ends, the pitch motor has got the 266 pulses
    that the position has been counted up by. -/
theorem resetLaser_reckoning : ∃ n ≤ 267 * 500_002,
    (controller resetLaser (fun _ => false) (fun n => n % 3 = 0) n).state = .idleWait ∧
    (resetLaser.gimbal.sent (gimbalPorts resetLaser (fun _ => false) fun n => n % 3 = 0)
        .pitch true n : ℤ) -
      resetLaser.gimbal.sent (gimbalPorts resetLaser (fun _ => false) fun n => n % 3 = 0)
        .pitch false n = 266 := by
  have hreset : Gimbal.FromReset resetLaser.gimbal := Gimbal.afterReset_fromReset false
  obtain ⟨n, hn, -, hidle, hrest, -, hy, hkeep⟩ := boot_keeps (fun _ => false)
    (fun n => n % 3 = 0) hreset rfl fun _ _ => rfl
  have hpitch := (board_reckoning resetLaser (fun _ => false) (fun n => n % 3 = 0) hreset rfl n
    hkeep hrest).2
  rw [hy] at hpitch
  exact ⟨n, hn, hidle, hpitch⟩

/-- **Booting.**  From a reset, as long as nobody presses the return button and whatever
    comes in on the line, booting is over within 267 tick periods.  It then has sent 266
    pulses to the pitch motor, all of them upwards, and none to the yaw motor, and the
    gimbal stands on the horizon at rest. -/
theorem boot_reaches_horizon (y : LaserTop) (home l : ℕ → Bool)
    (hg : Gimbal.FromReset y.gimbal) (h0 : y.r0.fsm.done = false)
    (hhome : ∀ k < 267 * 500_002, home k = false) :
    let i := gimbalPorts y home l
    ∃ n ≤ 267 * 500_002, (∀ k < n, (controller y home l k).state = .bootUp) ∧
      (controller y home l n).state = .idleWait ∧ (laser y home l n).gimbal.AtRest ∧
      (controller y home l n).posX = 0 ∧ (controller y home l n).posY = 0 ∧
      y.gimbal.sent i .pitch true n = 266 ∧ y.gimbal.sent i .pitch false n = 0 ∧
      y.gimbal.sent i .yaw true n = 0 ∧ y.gimbal.sent i .yaw false n = 0 := by
  intro i
  have hi : Gimbal.FromReceiver i := gimbal_fromReceiver h0
  obtain ⟨n, hn, hboot, hidle, hrest, hx, hy, hkeep⟩ := boot_keeps home l hg h0 hhome
  have htrace := laser_gimbal y home l
  have hkeep' : ∀ k < n, Gimbal.KeepsStep (i k) (y.gimbal.trace i k) := fun k hk =>
    htrace k ▸ hkeep k hk
  have hledger := fun m (hm : m ≤ n) => Gimbal.ledger_run (m := 0) hg.ledger hi (Nat.zero_le m)
    fun k _ hk => hkeep' k (by omega)
  -- all the way the pitch motor goes up and the yaw motor is off
  have hup : ∀ k < n, Upward (y.gimbal.trace i (k + 1)).controller0 := by
    intro k hk
    rw [← htrace]
    exact ((hboot k hk).step (ports_live (hhome k (by omega)))).1
  have hdown : y.gimbal.sent i .pitch false n = 0 := by
    apply Nat.count_iff_forall_not.mpr
    intro k hk hevent
    exact absurd ((hup k hk).pitchDir.symm.trans hevent.2.2) (by decide)
  have hyaw : ∀ b, y.gimbal.sent i .yaw b n = 0 := by
    intro b
    apply Nat.count_iff_forall_not.mpr
    intro k hk hevent
    have hline := Gimbal.line_next (c := (y.gimbal.trace i (k + 1)).controller0)
      (hledger k hk.le).phase .yaw
    rw [show Axis.yaw.line (y.gimbal.trace i k).simpledriver = true from hevent.1,
      show Axis.yaw.en (y.gimbal.trace i (k + 1)).controller0 = false from (hup k hk).yawEn,
      nextLine_disabled] at hline
    exact absurd (hline.symm.trans hevent.2.1) (by decide)
  refine ⟨n, hn, fun k hk => (hboot k hk).state, hidle, hrest, hx, hy, ?_, hdown, hyaw _, hyaw _⟩
  -- at rest the pulses sent are the distance from the start, all upwards
  have hpitch := sent_of_rest hg hi hkeep' (htrace n ▸ hrest) .pitch
  obtain ⟨s, hs⟩ := hg.reset
  have hend : (Axis.pitch.pos (y.gimbal.trace i n).controller0).toInt = 0 := by
    rw [← htrace]
    exact congrArg BitVec.toInt hy
  have hstart : (Axis.pitch.pos y.gimbal.controller0).toInt = -266 := by
    rw [hs]
    rfl
  rw [hdown, hend, hstart] at hpitch
  omega

end Board

/-- Noise in every third cycle does not disturb booting. -/
theorem resetLaser_boots : ∃ n ≤ 267 * 500_002,
    resetLaser.gimbal.sent (gimbalPorts resetLaser (fun _ => false) fun n => n % 3 = 0)
      .pitch true n = 266 := by
  obtain ⟨n, hn, -, -, -, -, -, hup, -⟩ := boot_reaches_horizon resetLaser (fun _ => false)
    (fun n => n % 3 = 0) (Gimbal.afterReset_fromReset false) rfl fun _ _ => rfl
  exact ⟨n, hn, hup⟩

end Scope.Native
