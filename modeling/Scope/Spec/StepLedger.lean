import Scope.ForStd.StepPulse
import Scope.Native.LaserTop
import Scope.Spec.ControllerStep

/-!
# The step ledger

The controller moves `pos_x` and `pos_y` in the cycle that loads `pulse_timer`; the
driver sends the step pulse within the next `PULSE_WIDTH` cycles, on the axis and in
the direction that the controller shows by then.  The position is that of the
motors as long as nothing changes in between.

## Key results

- `Driver.step_spec` / `StepTick.since_of_tick` / `StepTick.since_of_quiet`: the two clocks
  of the motor half
- `Continues.owes` / `Rests.owes` / `Loads.owes` / `Owes.hold`: the four things a
  clock edge can do to steps that are under way
- `ledger_step`: the steps counted and the pulses sent differ by what is owed
-/

namespace Scope.Native

open Sync StepPulse

/-! ## The two clocks -/

namespace Driver

/-- `clk0` is in one of its phases: the divider counts down from 24,999. -/
def InPhase (d : Driver) : Prop := d.c0.count.toNat < 25_000

/-- Cycles up to the next rising edge of `clk0`. -/
def untilRise (d : Driver) : ℕ := d.c0.count.toNat + 1 + if d.c0.clkout then 25_000 else 0

/-- The next rising edge comes within a period. -/
theorem InPhase.bounds {d : Driver} (h : d.InPhase) : 1 ≤ d.untilRise ∧ d.untilRise ≤ 50_000 := by
  unfold InPhase at h
  unfold untilRise
  split_ifs <;> omega

/-- One cycle of the divider. -/
private theorem clk0_step (c : ClkDiv 16) :
    (c.step (divider 50_000_000 1_000)).count.toNat =
        (if c.count.toNat = 0 then 24_999 else c.count.toNat - 1) ∧
      (c.step (divider 50_000_000 1_000)).clkout =
        (if c.count.toNat = 0 then !c.clkout else c.clkout) := by
  have hdiv : divider 50_000_000 1_000 = 24_999 := by simp [divider]
  have hz : c.count = 0 ↔ c.count.toNat = 0 := by
    rw [← BitVec.toNat_inj]
    rfl
  -- the divider is reloaded in the cycle in which `clkout` toggles
  simp only [ClkDiv.step, hdiv, hz, and_true]
  split_ifs with h0
  · simp
  · exact BitVec.toNat_sub_one (by omega)

/-- `clk0` rises when the count up to its edge is over. -/
theorem rise_iff (d : Driver) :
    (!d.c0.clkout && (d.c0.step (divider 50_000_000 1_000)).clkout) = true ↔ d.untilRise = 1 := by
  rw [(clk0_step d.c0).2, untilRise]
  cases d.c0.clkout
  · rw [if_neg Bool.false_ne_true]
    split_ifs <;> simp_all
  · rw [if_pos rfl]
    simp only [Bool.not_true, Bool.false_and, Bool.false_eq_true, false_iff]
    omega

/-- The divider does not see the enables. -/
theorem step_c0 (d : Driver) (yawEn pitchEn : Bool) :
    (d.step yawEn pitchEn).c0 = d.c0.step (divider 50_000_000 1_000) := by
  unfold step
  dsimp only
  split_ifs <;> rfl

/-- `clk0` has a period of 50,000 cycles, and its rising edge moves the step lines. -/
theorem step_spec {d : Driver} (h : d.InPhase) (yawEn pitchEn : Bool) :
    (d.step yawEn pitchEn).InPhase ∧
    (d.step yawEn pitchEn).untilRise = untilNext 50_000 d.untilRise ∧
    (d.step yawEn pitchEn).yawStep = nextLine d.untilRise yawEn d.yawStep ∧
    (d.step yawEn pitchEn).pitchStep = nextLine d.untilRise pitchEn d.pitchStep := by
  have hc0 := d.step_c0 yawEn pitchEn
  obtain ⟨hcount, hout⟩ := clk0_step d.c0
  unfold InPhase at h
  refine ⟨?_, ?_, ?_, ?_⟩
  · rw [InPhase, hc0, hcount]
    split_ifs <;> omega
  -- four cases: the level of `clk0`, and whether its count is over
  · rw [untilRise, hc0, hcount, hout, untilNext, untilRise]
    cases hc : d.c0.clkout <;> by_cases h0 : d.c0.count.toNat = 0 <;>
      simp only [h0, if_true, if_false, Bool.not_false, Bool.not_true, Bool.false_eq_true]
    all_goals split_ifs <;> omega
  all_goals
    have hrise := d.rise_iff
    unfold step nextLine
    by_cases hφ : d.untilRise = 1
    · rw [if_pos (hrise.mpr hφ), if_pos hφ]
      rfl
    · rw [if_neg (mt hrise.mp hφ), if_neg hφ]

end Driver

namespace StepTick

/-- Cycles since the previous tick. -/
def since (s : StepTick) : ℕ := if s.stepTick then 500_001 else s.clkCount.toNat

/-- Behind a tick the count starts over. -/
theorem since_of_tick {s : StepTick} (h : s.stepTick = true) :
    s.since = 500_001 ∧ s.step.since = 1 := by
  have hc : s.clkCount.toNat = 0 := s.settled h
  refine ⟨if_pos h, ?_⟩
  unfold step
  rw [if_neg (by omega)]
  have hcount : (s.clkCount + 1).toNat = s.clkCount.toNat + 1 := BitVec.toNat_add_one (by omega)
  simp only [since, Bool.false_eq_true, if_false, hcount, hc]

/-- Without one it counts. -/
theorem since_of_quiet {s : StepTick} (h : s.stepTick = false) : s.step.since ≤ s.since + 1 := by
  unfold step
  split_ifs with hlast
  · simp [since, h]
    omega
  · have hcount : (s.clkCount + 1).toNat = s.clkCount.toNat + 1 := BitVec.toNat_add_one (by omega)
    simp only [since, h, hcount]
    simp

end StepTick

/-! ## Axes -/

/-- The two motors. -/
inductive Axis | yaw | pitch
  deriving DecidableEq, Repr

namespace Axis

def en (a : Axis) (s : SearchController) : Bool :=
  match a with
  | yaw => s.outYawEn
  | pitch => s.outPitchEn

def dir (a : Axis) (s : SearchController) : Bool :=
  match a with
  | yaw => s.outYawDir
  | pitch => s.outPitchDir

def pos (a : Axis) (s : SearchController) : BitVec 16 :=
  match a with
  | yaw => s.posX
  | pitch => s.posY

def line (a : Axis) (d : Driver) : Bool :=
  match a with
  | yaw => d.yawStep
  | pitch => d.pitchStep

/-- The direction of a homing step. -/
def homing (goal pos : BitVec 16) : Option Bool :=
  if pos ≠ goal then some (decide (pos.toInt < goal.toInt)) else none

/-- The direction in which the mode drives the motor while the timer runs; in
    `TRACKING` the enables are gated by the bits of the last command. -/
def plan (a : Axis) (last : Gimbal.Input) (s : SearchController) : Option Bool :=
  match a, s.state with
  | yaw, .tracking => if last.irYawEn then some s.outYawDir else none
  | pitch, .tracking => if last.irPitchEn then some s.outPitchDir else none
  | yaw, .searching => some true
  | pitch, .bootUp => some true
  | yaw, .forcedReturn => homing 0 s.posX
  | pitch, .forcedReturn => homing (-SearchController.bootLimit) s.posY
  | _, _ => none

end Axis

/-- The enable of an axis over a run. -/
def SearchController.enable (a : Axis) (s : SearchController)
    (i : ℕ → SearchController.Input) (n : ℕ) : Bool := a.en (run SearchController.step s i n)

namespace Gimbal

open SearchController

/-- No step is in flight. -/
structure AtRest (g : Gimbal) : Prop where
  timer : g.controller0.pulseTimer.toNat = 0
  yawEn : g.controller0.outYawEn = false
  pitchEn : g.controller0.outPitchEn = false
  yawStep : g.simpledriver.yawStep = true
  pitchStep : g.simpledriver.pitchStep = true

/-- The timer runs and no step line has gone low yet. -/
structure Unsent (g : Gimbal) : Prop where
  timer : 0 < g.controller0.pulseTimer.toNat
  yawStep : g.simpledriver.yawStep = true
  pitchStep : g.simpledriver.pitchStep = true

/-- Everything that is under way has been loaded `A` cycles ago. -/
def Aged (g : Gimbal) (A : ℕ) : Prop :=
  ∀ a : Axis, StepPulse.Aged 50_000 50_000 A g.controller0.pulseTimer.toNat
    g.simpledriver.untilRise (a.en g.controller0) (a.line g.simpledriver)

/-- The registers behind a clock edge that leaves `c` in the controller. -/
def next (g : Gimbal) (c : SearchController) : Gimbal where
  ticker := g.ticker.step
  controller0 := c
  simpledriver := g.simpledriver.step c.outYawEn c.outPitchEn

@[simp] theorem next_controller0 (g : Gimbal) (c : SearchController) :
    (g.next c).controller0 = c := rfl

/-- A clock edge of the gimbal is one of its controller. -/
theorem step_eq (i : Input) (g : Gimbal) :
    g.step i = g.next (g.controller0.step (g.controllerInput i)) := rfl

section Next

variable {g : Gimbal} {c : SearchController} {A : ℕ} {i last : Input} {d : Axis → ℤ}
  {loose : Prop}

/-- A step line behind a clock edge. -/
theorem line_next (h : g.simpledriver.InPhase) (a : Axis) :
    a.line (g.next c).simpledriver =
      nextLine g.simpledriver.untilRise (a.en c) (a.line g.simpledriver) := by
  obtain ⟨-, -, hyaw, hpitch⟩ := Driver.step_spec h c.outYawEn c.outPitchEn
  cases a
  · exact hyaw
  · exact hpitch

/-- The next rising edge comes nearer. -/
theorem untilRise_next (h : g.simpledriver.InPhase) :
    (g.next c).simpledriver.untilRise = untilNext 50_000 g.simpledriver.untilRise :=
  (Driver.step_spec h _ _).2.1

/-- At rest neither axis is driven. -/
theorem AtRest.axis (h : g.AtRest) (a : Axis) :
    a.en g.controller0 = false ∧ a.line g.simpledriver = true := by
  cases a
  · exact ⟨h.yawEn, h.yawStep⟩
  · exact ⟨h.pitchEn, h.pitchStep⟩

/-- Without a timer and a driven axis the gimbal rests. -/
private theorem atRest_of_axis (hp : g.controller0.pulseTimer.toNat = 0)
    (h : ∀ a : Axis, a.en g.controller0 = false ∧ a.line g.simpledriver = true) : g.AtRest :=
  ⟨hp, (h .yaw).1, (h .pitch).1, (h .yaw).2, (h .pitch).2⟩

/-- What is at rest has any age. -/
theorem AtRest.aged (h : g.AtRest) (A : ℕ) : g.Aged A := by
  intro a
  rw [h.timer, (h.axis a).1, (h.axis a).2]
  exact .of_rest

/-- What is old enough for one bound is so for a smaller one. -/
theorem Aged.mono {A' : ℕ} (h : g.Aged A) (hA : A' ≤ A) : g.Aged A' := fun a => (h a).mono hA

/-- Two periods after the load the motors are at rest. -/
theorem Aged.settled (h : g.Aged A) (hφ : g.simpledriver.InPhase) (hA : 100_001 < A) :
    g.AtRest := by
  have hset := fun a => (h a).settled hφ.bounds.1 hA
  exact atRest_of_axis (hset .yaw).1 fun a => ⟨(hset a).2.1, (hset a).2.2⟩

end Next

/-! ## Runs that keep their steps -/

/-- A homing step reaches its goal. -/
def Arrives (goal pos : BitVec 16) : Prop := pos ≠ goal ∧ stepToward goal pos = goal

/-- The clock edge loses no step and invents none. -/
structure KeepsStep (i : Input) (g : Gimbal) : Prop where
  /-- The return button finds no step in flight. -/
  home : i.returnHome = true → g.AtRest
  /-- The target is not found before the pulse of a search step has been sent. -/
  found : i.returnHome = false → g.controller0.state = .searching → i.onTarget = true → ¬ g.Unsent
  /-- A search step is not the last one of its leg, and `pos_x` does not overflow. -/
  spiral : SearchTick (g.controllerInput i) g.controller0 →
    g.controller0.lastOfLeg = false ∧ g.controller0.posX.toInt < 32767
  /-- A homing step is not the last one of its axis. -/
  homing : i.returnHome = false → g.controller0.state = .forcedReturn →
    g.ticker.stepTick = true →
    ¬ Arrives 0 g.controller0.posX ∧ ¬ Arrives (-bootLimit) g.controller0.posY
  /-- A command does not ask for a step beyond a limit. -/
  limit : i.returnHome = false → g.controller0.state = .tracking → i.onTarget = true →
    i.rxDone = true →
    (i.irYawEn = true → if i.irYawDir then g.controller0.posX.toInt < yawLimit.toInt
      else -yawLimit.toInt < g.controller0.posX.toInt) ∧
    (i.irPitchEn = true → if i.irPitchDir then g.controller0.posY.toInt < pitchLimit.toInt
      else -pitchLimit.toInt < g.controller0.posY.toInt)

/-- The data bits of `ir_rx` are the same. -/
structure SameData (i j : Input) : Prop where
  onTarget : i.onTarget = j.onTarget
  irYawEn : i.irYawEn = j.irYawEn
  irYawDir : i.irYawDir = j.irYawDir
  irPitchEn : i.irPitchEn = j.irPitchEn
  irPitchDir : i.irPitchDir = j.irPitchDir

/-- The inputs after reset: data changes only with `rx_done`, which comes at most
    every 155,000 cycles. -/
structure FromReceiver (i : ℕ → Input) : Prop where
  reset : ∀ n, (i n).reset = false
  change : ∀ n, (i (n + 1)).rxDone = false → SameData (i n) (i (n + 1))
  spaced : ∀ m n, m < n → (i m).rxDone = true → (i n).rxDone = true → m + 155_000 ≤ n

/-- What holds in the modes of the controller in cycle `n`.  The modes that step with
    the tick count from the last one, `TRACKING` from the last packet. -/
inductive Mode (i : ℕ → Input) (n : ℕ) (g : Gimbal) : Prop
  | bootUp : g.controller0.state = .bootUp → g.controller0.outYawEn = false →
      g.Aged g.ticker.since → Mode i n g
  | idleWait : g.controller0.state = .idleWait → g.AtRest → Mode i n g
  | tracking : g.controller0.state = .tracking →
      (g.AtRest ∨ (i (n - 1)).onTarget = true ∧
        ∃ m < n, (i m).rxDone = true ∧ g.Aged (n - m)) → Mode i n g
  | searching : g.controller0.state = .searching → g.controller0.spiralDir = 0 →
      g.controller0.sideLimit.toNat ≤ searchMaxSide.toNat → (i (n - 1)).onTarget = false →
      g.Aged g.ticker.since → Mode i n g
  | forcedReturn : g.controller0.state = .forcedReturn →
      (g.controller0.posX = 0 → g.controller0.posY = -bootLimit → g.AtRest) →
      g.Aged g.ticker.since → Mode i n g

/-- The motors owe `d a` steps on the axis `a`. -/
structure Ledger (i : ℕ → Input) (n : ℕ) (g : Gimbal) (d : Axis → ℤ) : Prop where
  phase : g.simpledriver.InPhase
  timer : g.controller0.pulseTimer.toNat ≤ 50_000
  owes : ∀ a : Axis, Owes (g.controller0.state = .tracking) g.controller0.pulseTimer.toNat
    g.simpledriver.untilRise (a.en g.controller0) (a.line g.simpledriver)
    (a.plan (i (n - 1)) g.controller0) (d a)
  mode : Mode i n g

/-- What is owed one cycle on: the steps that are counted are added, the pulses that
    are sent are taken off. -/
def balance (g g' : Gimbal) (d : Axis → ℤ) (a : Axis) : ℤ :=
  d a + ((a.pos g'.controller0).toInt - (a.pos g.controller0).toInt) -
    fell (a.line g.simpledriver) (a.line g'.simpledriver) (a.dir g'.controller0)

section Step

variable {g : Gimbal} {c : SearchController} {A n : ℕ} {i : ℕ → Input} {d : Axis → ℤ}

/-- At rest nothing is owed on either axis. -/
theorem Ledger.rest (h : Ledger i n g d) (hrest : g.AtRest) (a : Axis) : d a = 0 := by
  have ho := h.owes a
  rw [hrest.timer, (hrest.axis a).2] at ho
  exact ho.rest h.phase.bounds.1

/-- The controller goes on with the steps that are under way and counts none. -/
structure Continues (last now : Input) (s c : SearchController) : Prop where
  timer : c.pulseTimer = s.timerDown
  state : c.state = .tracking ↔ s.state = .tracking
  pos : ∀ a : Axis, a.pos c = a.pos s
  en : ∀ a : Axis, a.en c = (s.pulsing && (a.plan last s).isSome)
  dir : ∀ (a : Axis) (b : Bool), a.plan last s = some b → a.dir c = b
  plan : ∀ a : Axis, a.plan now c = a.plan last s

/-- What goes on goes on to owe the same. -/
theorem Continues.owes (hc : Continues (i (n - 1)) (i n) g.controller0 c)
    (h : Ledger i n g d) (a : Axis) :
    Owes (c.state = .tracking) c.pulseTimer.toNat (g.next c).simpledriver.untilRise (a.en c)
      (a.line (g.next c).simpledriver) (a.plan (i n) c) (balance g (g.next c) d a) := by
  have hbal : balance g (g.next c) d a = d a - fell (a.line g.simpledriver)
      (a.line (g.next c).simpledriver) (a.dir c) := by
    simp only [balance, next_controller0, hc.pos a]
    omega
  rw [hbal, hc.plan a, hc.timer, timerDown_toNat, untilRise_next h.phase, line_next h.phase]
  simp only [hc.state]
  exact (h.owes a).run h.phase.bounds.1 h.timer (hc.en a) (hc.dir a)

/-- What goes on gets older. -/
theorem Continues.aged (hc : Continues (i (n - 1)) (i n) g.controller0 c)
    (hφ : g.simpledriver.InPhase) (h : g.Aged A) : (g.next c).Aged (A + 1) := by
  intro a
  rw [untilRise_next hφ, line_next hφ, next_controller0, hc.timer, timerDown_toNat]
  refine (h a).run hφ.bounds.1 fun hen => ?_
  rw [hc.en a, Bool.and_eq_true] at hen
  exact of_decide_eq_true hen.1

/-- Motors at rest stay at rest while the controller leaves timer and enables low. -/
structure Rests (s c : SearchController) : Prop where
  timer : c.pulseTimer.toNat = 0
  pos : ∀ a : Axis, a.pos c = a.pos s
  en : ∀ a : Axis, a.en c = false

/-- What rests stays at rest. -/
theorem Rests.atRest (hc : Rests g.controller0 c) (hφ : g.simpledriver.InPhase)
    (h : g.AtRest) : (g.next c).AtRest := by
  refine atRest_of_axis hc.timer fun a => ⟨hc.en a, ?_⟩
  rw [line_next hφ, (h.axis a).2, hc.en a, nextLine_disabled]

/-- What rests owes nothing, whatever the mode plans. -/
theorem Rests.owes (hc : Rests g.controller0 c) (h : Ledger i n g d) (hrest : g.AtRest)
    (loose : Prop) (w : Option Bool) (a : Axis) :
    Owes loose c.pulseTimer.toNat (g.next c).simpledriver.untilRise (a.en c)
      (a.line (g.next c).simpledriver) w (balance g (g.next c) d a) := by
  have hline := ((hc.atRest h.phase hrest).axis a).2
  have hbal : balance g (g.next c) d a = 0 := by
    simp only [balance, hline, fell_high, h.rest hrest a, next_controller0, hc.pos a]
    omega
  rw [hbal, hline, hc.en a, hc.timer]
  exact .of_rest

/-- The controller counts steps and loads the timer for them. -/
structure Loads (now : Input) (s c : SearchController) : Prop where
  timer : c.pulseTimer = pulseWidth
  en : ∀ a : Axis, a.en c = false
  pos : ∀ a : Axis, (a.pos c).toInt - (a.pos s).toInt = asked (a.plan now c)

/-- A step that is counted is owed. -/
theorem Loads.owes (hc : Loads (i n) g.controller0 c) (h : Ledger i n g d) (hrest : g.AtRest)
    (loose : Prop) (a : Axis) :
    Owes loose c.pulseTimer.toNat (g.next c).simpledriver.untilRise (a.en c)
      (a.line (g.next c).simpledriver) (a.plan (i n) c) (balance g (g.next c) d a) := by
  have hline : a.line (g.next c).simpledriver = true := by
    rw [line_next h.phase, (hrest.axis a).2, hc.en a, nextLine_disabled]
  have hbal : balance g (g.next c) d a = asked (a.plan (i n) c) := by
    simp only [balance, hline, fell_high, h.rest hrest a, next_controller0, ← hc.pos a]
    omega
  rw [hbal, hline, hc.en a, hc.timer, pulseWidth_toNat]
  exact .load (Driver.step_spec h.phase _ _).1.bounds.2

/-- Behind any clock edge the steps under way are a cycle old. -/
private theorem aged_one (hφ : g.simpledriver.InPhase) (hc : c.pulseTimer.toNat ≤ 50_000) :
    (g.next c).Aged 1 := fun _ =>
  .fresh hc (Driver.step_spec hφ _ _).1.bounds.2

/-- The timer stays below its pulse width. -/
private theorem timerDown_le (h : Ledger i n g d) : g.controller0.timerDown.toNat ≤ 50_000 := by
  have := h.timer
  rw [timerDown_toNat]
  omega

/-- A clock edge that goes on keeps the ledger. -/
theorem Continues.ledger (hc : Continues (i (n - 1)) (i n) g.controller0 c) (h : Ledger i n g d)
    (hm : Mode i (n + 1) (g.next c)) : Ledger i (n + 1) (g.next c) (balance g (g.next c) d) :=
  ⟨(Driver.step_spec h.phase _ _).1, by rw [next_controller0, hc.timer]; exact timerDown_le h,
    hc.owes h, hm⟩

/-- A clock edge that rests keeps the ledger. -/
theorem Rests.ledger (hc : Rests g.controller0 c) (h : Ledger i n g d) (hrest : g.AtRest)
    (hm : Mode i (n + 1) (g.next c)) : Ledger i (n + 1) (g.next c) (balance g (g.next c) d) :=
  ⟨(Driver.step_spec h.phase _ _).1, by rw [next_controller0, hc.timer]; omega,
    fun a => hc.owes h hrest _ _ a, hm⟩

/-- A clock edge that counts a step keeps the ledger. -/
theorem Loads.ledger (hc : Loads (i n) g.controller0 c) (h : Ledger i n g d) (hrest : g.AtRest)
    (hm : Mode i (n + 1) (g.next c)) : Ledger i (n + 1) (g.next c) (balance g (g.next c) d) :=
  ⟨(Driver.step_spec h.phase _ _).1,
    by rw [next_controller0, hc.timer, pulseWidth_toNat], fun a => hc.owes h hrest _ a, hm⟩

/-! ### The modes -/

/-- While it boots, the yaw motor is not driven. -/
theorem Mode.of_bootUp (h : Mode i n g) (hs : g.controller0.state = .bootUp) :
    g.controller0.outYawEn = false ∧ g.Aged g.ticker.since := by
  cases h <;> simp_all

/-- While it waits, the gimbal rests. -/
theorem Mode.of_idleWait (h : Mode i n g) (hs : g.controller0.state = .idleWait) : g.AtRest := by
  cases h <;> simp_all

/-- While it tracks, the gimbal rests or obeys a packet. -/
theorem Mode.of_tracking (h : Mode i n g) (hs : g.controller0.state = .tracking) :
    g.AtRest ∨ (i (n - 1)).onTarget = true ∧
      ∃ m < n, (i m).rxDone = true ∧ g.Aged (n - m) := by
  cases h <;> simp_all

/-- While it searches with a step unsent, it is on the first leg. -/
private theorem Mode.of_searching (h : Mode i n g) (hs : g.controller0.state = .searching) :
    g.controller0.spiralDir = 0 ∧ g.controller0.sideLimit.toNat ≤ searchMaxSide.toNat ∧
      (i (n - 1)).onTarget = false ∧ g.Aged g.ticker.since := by
  cases h <;> simp_all

/-- Where the forced return ends, the gimbal rests. -/
private theorem Mode.of_forcedReturn (h : Mode i n g) (hs : g.controller0.state = .forcedReturn) :
    (g.controller0.posX = 0 → g.controller0.posY = -bootLimit → g.AtRest) ∧
      g.Aged g.ticker.since := by
  cases h <;> simp_all

/-- `RETURNING` lies behind the last leg of a spiral, and the unused encodings behind
    nothing. -/
private theorem Mode.reachable (h : Mode i n g) : g.controller0.state ≠ .returning ∧
    ∀ low, g.controller0.state ≠ .unused low := by
  cases h <;> simp_all

/-- The target is found or lost with a packet. -/
private theorem rxDone_of_change (hi : FromReceiver i)
    (h : (i (n - 1)).onTarget ≠ (i n).onTarget) : (i n).rxDone = true := by
  cases n with
  | zero => exact absurd rfl h
  | succ n =>
    by_contra hrx
    exact h (hi.change n (by simpa using hrx)).onTarget

/-- With a packet that is handled in `TRACKING` the previous step is over. -/
private theorem Mode.atRest_of_packet (h : Mode i n g) (hi : FromReceiver i)
    (hφ : g.simpledriver.InPhase) (hs : g.controller0.state = .tracking)
    (hrx : (i n).rxDone = true) : g.AtRest := by
  rcases h.of_tracking hs with hrest | ⟨-, m, hm, hrxm, haged⟩
  · exact hrest
  · have := hi.spaced m n hm hrxm hrx
    exact haged.settled hφ (by omega)

/-- A target is lost with the gimbal at rest. -/
private theorem Mode.atRest_of_lost (h : Mode i n g) (hi : FromReceiver i)
    (hφ : g.simpledriver.InPhase) (hs : g.controller0.state = .tracking)
    (ho : (i n).onTarget = false) : g.AtRest := by
  rcases h.of_tracking hs with hrest | ⟨hon, -⟩
  · exact hrest
  · exact h.atRest_of_packet hi hφ hs (rxDone_of_change hi (by rw [hon, ho]; simp))

/-- With the tick the previous step is over. -/
private theorem atRest_of_tick (hφ : g.simpledriver.InPhase) (h : g.Aged g.ticker.since)
    (ht : g.ticker.stepTick = true) : g.AtRest := by
  refine h.settled hφ ?_
  rw [(StepTick.since_of_tick ht).1]
  omega

/-- What goes on is older than the last tick. -/
private theorem Continues.aged_since (hc : Continues (i (n - 1)) (i n) g.controller0 c)
    (hφ : g.simpledriver.InPhase) (h : g.Aged g.ticker.since)
    (ht : g.ticker.stepTick = false) : (g.next c).Aged (g.next c).ticker.since :=
  (hc.aged hφ h).mono (StepTick.since_of_quiet ht)

/-- What is loaded with a tick is as old as the tick. -/
private theorem Loads.aged_since (hc : Loads (i n) g.controller0 c) (hφ : g.simpledriver.InPhase)
    (ht : g.ticker.stepTick = true) : (g.next c).Aged (g.next c).ticker.since := by
  rw [show (g.next c).ticker.since = 1 from (StepTick.since_of_tick ht).2]
  exact aged_one hφ (by rw [hc.timer, pulseWidth_toNat])

/-- At rest no pulse is on. -/
private theorem pulsing_of_rest (h : g.AtRest) : g.controller0.pulsing = false :=
  decide_eq_false (by rw [h.timer]; omega)

/-- At rest the timer stays at zero. -/
private theorem timerDown_of_rest (h : g.AtRest) : g.controller0.timerDown.toNat = 0 := by
  rw [timerDown_toNat, h.timer]

/-- A clock edge of booting keeps the ledger. -/
private theorem ledger_bootUp (h : Ledger i n g d) (hs : g.controller0.state = .bootUp)
    (hl : Live (g.controllerInput (i n)))
    (hb : Branch (g.controllerInput (i n)) g.controller0 c) :
    Ledger i (n + 1) (g.next c) (balance g (g.next c) d) := by
  obtain ⟨hyaw, haged⟩ := h.mode.of_bootUp hs
  cases hb with
  -- `BOOT_UP` waits for the tick: the pitch pulse goes on
  | bootWait _ _ ht =>
    suffices hc : Continues (i (n - 1)) (i n) g.controller0 _ from
      hc.ledger h (.bootUp hs hyaw (hc.aged_since h.phase haged ht))
    refine ⟨rfl, Iff.rfl, fun a => ?_, fun a => ?_, fun a b => ?_, fun a => ?_⟩ <;>
      cases a <;> simp [Axis.pos, Axis.en, Axis.dir, Axis.plan, hs, hyaw]
  -- a step up towards the horizon
  | bootStep _ _ ht hy =>
    have hrest := atRest_of_tick h.phase haged ht
    suffices hc : Loads (i n) g.controller0 _ from
      hc.ledger h hrest (.bootUp hs hyaw (hc.aged_since h.phase ht))
    refine ⟨rfl, fun a => ?_, fun a => ?_⟩
    · cases a <;> simp [Axis.en, hyaw, pulsing_of_rest hrest]
    · have hy' := BitVec.toInt_add_one (x := g.controller0.posY) (by omega)
      cases a <;> simp only [Axis.pos, Axis.plan, hs, asked, hy', sign] <;> simp
  | bootDone _ _ ht _ =>
    have hrest := atRest_of_tick h.phase haged ht
    suffices hc : Rests g.controller0 _ from
      hc.ledger h hrest (.idleWait rfl (hc.atRest h.phase hrest))
    refine ⟨timerDown_of_rest hrest, fun a => ?_, fun a => ?_⟩ <;> cases a <;>
      simp [Axis.pos, Axis.en, hyaw, pulsing_of_rest hrest]
  | reset hr => exact absurd hr (by simp [hl.reset])
  | home _ hh => exact absurd hh (by simp [hl.returnHome])
  | searchStep ht => exact absurd ht.state (by simp [hs])
  | _ => simp_all

/-- A command that finds room moves its coordinate by the step it asks for. -/
private theorem commandStep_asked {limit pos : BitVec 16} {en dir : Bool} (h : en = true →
      if dir then pos.toInt < limit.toInt else -limit.toInt < pos.toInt) :
    (commandStep limit en dir pos).toInt - pos.toInt =
      asked (if en then some dir else none) := by
  rw [commandStep_toInt]
  cases en <;> cases dir <;> simp [asked, sign] at h ⊢ <;> simp [h]

/-- A command that finds room moves the axes it names. -/
private theorem command_pos {now : Input} (hyaw : now.irYawEn = true →
      if now.irYawDir then g.controller0.posX.toInt < yawLimit.toInt
      else -yawLimit.toInt < g.controller0.posX.toInt)
    (hpitch : now.irPitchEn = true →
      if now.irPitchDir then g.controller0.posY.toInt < pitchLimit.toInt
      else -pitchLimit.toInt < g.controller0.posY.toInt) :
    (g.controller0.yawAfter (g.controllerInput now)).toInt - g.controller0.posX.toInt =
        asked (if now.irYawEn then some now.irYawDir else none) ∧
      (g.controller0.pitchAfter (g.controllerInput now)).toInt - g.controller0.posY.toInt =
        asked (if now.irPitchEn then some now.irPitchDir else none) := by
  rw [yawAfter_eq, pitchAfter_eq]
  exact ⟨commandStep_asked hyaw, commandStep_asked hpitch⟩

/-- A clock edge of `TRACKING` that keeps its steps keeps the ledger. -/
private theorem ledger_tracking (h : Ledger i n g d) (hi : FromReceiver i)
    (hkeep : KeepsStep (i n) g)
    (hs : g.controller0.state = .tracking) (hl : Live (g.controllerInput (i n)))
    (hb : Branch (g.controllerInput (i n)) g.controller0 c) :
    Ledger i (n + 1) (g.next c) (balance g (g.next c) d) := by
  cases hb with
  | trackHold _ _ ho hrx =>
    rcases h.mode.of_tracking hs with hrest | ⟨-, m, hm, hrxm, haged⟩
    · suffices hc : Rests g.controller0 _ from
        hc.ledger h hrest (.tracking hs (.inl (hc.atRest h.phase hrest)))
      refine ⟨timerDown_of_rest hrest, fun a => ?_, fun a => ?_⟩ <;> cases a <;>
        simp [Axis.pos, Axis.en, pulsing_of_rest hrest]
    · -- the bits that gate the enables are those of the last packet
      have hsame : SameData (i (n - 1)) (i n) := by
        obtain ⟨k, rfl⟩ : ∃ k, n = k + 1 := ⟨n - 1, by omega⟩
        exact hi.change k hrx
      suffices hc : Continues (i (n - 1)) (i n) g.controller0 _ from
        hc.ledger h (.tracking hs (.inr ⟨ho, m, by omega, hrxm,
          (hc.aged h.phase haged).mono (by omega)⟩))
      refine ⟨rfl, Iff.rfl, fun a => ?_, fun a => ?_, fun a b => ?_, fun a => ?_⟩ <;> cases a <;>
        simp [Axis.pos, Axis.en, Axis.dir, Axis.plan, hs, controllerInput, hsame.irYawEn,
          hsame.irPitchEn] <;> split_ifs <;> simp_all
  -- a packet finds the motors at rest: the one before is 155,000 cycles old
  | trackCommand _ _ ho hrx =>
    have hrest := h.mode.atRest_of_packet hi h.phase hs hrx
    obtain ⟨hyaw, hpitch⟩ := hkeep.limit hl.returnHome hs ho hrx
    obtain ⟨hx, hy⟩ := command_pos hyaw hpitch
    suffices hc : Loads (i n) g.controller0 _ from
      hc.ledger h hrest (.tracking hs (.inr ⟨ho, n, by omega, hrx,
        (aged_one h.phase (by rw [hc.timer, pulseWidth_toNat])).mono (by omega)⟩))
    refine ⟨rfl, fun a => ?_, fun a => ?_⟩ <;> cases a
    · simp [Axis.en, pulsing_of_rest hrest]
    · simp [Axis.en, pulsing_of_rest hrest]
    · simp only [Axis.pos, Axis.plan, hs]
      exact hx
    · simp only [Axis.pos, Axis.plan, hs]
      exact hy
  -- the target is lost with the packet that says so, again with the motors at rest
  | trackLost _ _ ho _ =>
    have hrest := h.mode.atRest_of_lost hi h.phase hs ho
    suffices hc : Rests g.controller0 _ from
      hc.ledger h hrest (.searching rfl rfl (show densityStep.toNat ≤ searchMaxSide.toNat by decide)
        ho ((hc.atRest h.phase hrest).aged _))
    exact ⟨rfl, fun a => by cases a <;> rfl, fun a => (hrest.axis a).1 ▸ by cases a <;> rfl⟩
  | trackStay _ _ ho _ =>
    have hrest := h.mode.atRest_of_lost hi h.phase hs ho
    suffices hc : Rests g.controller0 _ from
      hc.ledger h hrest (.tracking hs (.inl (hc.atRest h.phase hrest)))
    exact ⟨timerDown_of_rest hrest, fun a => by cases a <;> rfl,
      fun a => (hrest.axis a).1 ▸ by cases a <;> rfl⟩
  | reset hr => exact absurd hr (by simp [hl.reset])
  | home _ hh => exact absurd hh (by simp [hl.returnHome])
  | searchStep ht => exact absurd ht.state (by simp [hs])
  | _ => simp_all

/-- When the target is found, no edge of `clk0` comes before the timer runs out. -/
private theorem lt_of_found (h : Ledger i n g d) (hun : ¬ g.Unsent) :
    g.controller0.pulseTimer.toNat < g.simpledriver.untilRise := by
  have hφ := h.phase.bounds.1
  have hlow : ∀ a : Axis, a.line g.simpledriver = false →
      g.controller0.pulseTimer.toNat < g.simpledriver.untilRise := by
    intro a ha
    have ho := h.owes a
    rw [ha] at ho
    exact ho.lt_of_low
  by_contra hge
  refine hun ⟨by omega, ?_, ?_⟩ <;> by_contra hline
  · exact hge (hlow .yaw (Bool.eq_false_of_not_eq_true hline))
  · exact hge (hlow .pitch (Bool.eq_false_of_not_eq_true hline))

/-- A search that finds the target with every step sent keeps the ledger. -/
private theorem ledger_found (h : Ledger i n g d) (hi : FromReceiver i) (hun : ¬ g.Unsent)
    (hs : g.controller0.state = .searching) (ho : (i n).onTarget = true) :
    let c := { g.controller0 with state := .tracking, pulseTimer := g.controller0.timerDown }
    Ledger i (n + 1) (g.next c) (balance g (g.next c) d) := by
  intro c
  obtain ⟨-, -, hlost, -⟩ := h.mode.of_searching hs
  have hrx := rxDone_of_change hi (n := n) (by rw [hlost, ho]; simp)
  have htimer : c.pulseTimer.toNat ≤ 50_000 := timerDown_le h
  -- the enables stay as they are and the timer runs on under the new state
  refine ⟨(Driver.step_spec h.phase _ _).1, htimer, fun a => ?_,
    .tracking rfl (.inr ⟨ho, n, by omega, hrx, (aged_one h.phase htimer).mono (by omega)⟩)⟩
  have hen : a.en c = a.en g.controller0 := by cases a <;> rfl
  have hpos : a.pos c = a.pos g.controller0 := by cases a <;> rfl
  obtain ⟨hd, hfell, howes⟩ := (h.owes a).hold (P := 50_000) (a.dir c) (a.plan (i n) c)
    (show ¬ g.controller0.state = .tracking by simp [hs]) (show c.state = .tracking from rfl)
    h.phase.bounds.1 (lt_of_found h hun) (by omega)
  have hbal : balance g (g.next c) d a = 0 := by
    simp only [balance, next_controller0, line_next h.phase, hen, hpos, hd, hfell]
    omega
  rw [hbal, untilRise_next h.phase, line_next h.phase, next_controller0, hen,
    show c.pulseTimer = g.controller0.timerDown from rfl, timerDown_toNat]
  exact howes

/-- A clock edge of `SEARCHING` that keeps its steps keeps the ledger. -/
private theorem ledger_searching (h : Ledger i n g d) (hi : FromReceiver i)
    (hkeep : KeepsStep (i n) g)
    (hs : g.controller0.state = .searching) (hl : Live (g.controllerInput (i n)))
    (hb : Branch (g.controllerInput (i n)) g.controller0 c) :
    Ledger i (n + 1) (g.next c) (balance g (g.next c) d) := by
  obtain ⟨hdir, hside, -, haged⟩ := h.mode.of_searching hs
  cases hb with
  | searchFound _ _ ho => exact ledger_found h hi (hkeep.found hl.returnHome hs ho) hs ho
  -- the side limit only grows with the last step of a leg
  | searchOver _ _ _ hover => omega
  | searchWait _ _ ho _ ht =>
    suffices hc : Continues (i (n - 1)) (i n) g.controller0 _ from
      hc.ledger h (.searching hs hdir hside ho (hc.aged_since h.phase haged ht))
    refine ⟨rfl, Iff.rfl, fun a => ?_, fun a => ?_, fun a b => ?_, fun a => ?_⟩ <;>
      cases a <;> simp [Axis.pos, Axis.en, Axis.dir, Axis.plan, hs, spiralDrive, hdir]
  | searchStep hstep =>
    have ht := hstep.tick
    have hrest := atRest_of_tick h.phase haged ht
    obtain ⟨hleg, hroom⟩ := hkeep.spiral hstep
    have hx := BitVec.toInt_add_one (x := g.controller0.posX) (by omega)
    -- no leg ends, so the spiral keeps its direction and its size
    have hcount : (g.controller0.spiralCount g.controller0).spiralDir = 0 ∧
        (g.controller0.spiralCount g.controller0).sideLimit = g.controller0.sideLimit := by
      simp [spiralCount, hleg, hdir]
    suffices hc : Loads (i n) g.controller0 _ from
      hc.ledger h hrest (.searching hs hcount.1 (hcount.2 ▸ hside) hstep.lost
        (hc.aged_since h.phase ht))
    refine ⟨rfl, fun a => ?_, fun a => ?_⟩
    · cases a <;> simp [Axis.en, spiralDrive, hdir, pulsing_of_rest hrest]
    · cases a <;>
        simp only [Axis.pos, Axis.plan, hs, spiralMove, hdir, if_true, hx, asked, sign] <;>
        simp
  | reset hr => exact absurd hr (by simp [hl.reset])
  | home _ hh => exact absurd hh (by simp [hl.returnHome])
  | _ => simp_all

/-- A homing step that does not reach its goal leaves the direction as it is. -/
private theorem homing_asked {goal pos : BitVec 16} (h : ¬ Arrives goal pos) :
    (stepToward goal pos).toInt - pos.toInt =
      asked (Axis.homing goal (stepToward goal pos)) := by
  have hstep := stepToward_toInt goal pos
  have hne : ∀ x : BitVec 16, x = goal ↔ x.toInt = goal.toInt := fun x => BitVec.toInt_inj.symm
  unfold Arrives at h
  unfold Axis.homing
  simp only [Ne, hne] at h ⊢
  rw [hstep] at h ⊢
  split_ifs at h ⊢ <;> simp [asked, sign] <;> omega

/-- An axis is homing until it has arrived. -/
private theorem homing_isSome (goal pos : BitVec 16) :
    (Axis.homing goal pos).isSome = decide (pos ≠ goal) := by
  unfold Axis.homing
  split_ifs with h <;> simp [h]

/-- An axis homes in the direction of its goal. -/
private theorem homing_eq_some {goal pos : BitVec 16} {b : Bool}
    (h : Axis.homing goal pos = some b) : pos ≠ goal ∧ b = decide (pos.toInt < goal.toInt) := by
  unfold Axis.homing at h
  split_ifs at h with hne
  exact ⟨hne, (Option.some.inj h).symm⟩

/-- A clock edge of the forced return that keeps its steps keeps the ledger. -/
private theorem ledger_forcedReturn (h : Ledger i n g d) (hkeep : KeepsStep (i n) g)
    (hs : g.controller0.state = .forcedReturn) (hl : Live (g.controllerInput (i n)))
    (hb : Branch (g.controllerInput (i n)) g.controller0 c) :
    Ledger i (n + 1) (g.next c) (balance g (g.next c) d) := by
  obtain ⟨hhome, haged⟩ := h.mode.of_forcedReturn hs
  cases hb with
  -- both goals reached: this happens only when the button was pressed there
  | forcedDone _ _ hx hy =>
    have hrest := hhome hx hy
    suffices hc : Rests g.controller0 _ from
      hc.ledger h hrest (.idleWait rfl (hc.atRest h.phase hrest))
    exact ⟨timerDown_of_rest hrest, fun a => by cases a <;> rfl,
      fun a => (hrest.axis a).1 ▸ by cases a <;> rfl⟩
  | forcedRun _ _ haway =>
    cases ht : g.ticker.stepTick with
    -- between two ticks the positions stand still, and the enables with them
    | false =>
      have ht' : (g.controllerInput (i n)).stepTick = false := ht
      simp only [ht', Bool.false_eq_true, if_false]
      suffices hc : Continues (i (n - 1)) (i n) g.controller0 _ from
        hc.ledger h (.forcedReturn hs (fun hx hy => absurd ⟨hx, hy⟩ haway)
          (hc.aged_since h.phase haged ht))
      refine ⟨rfl, Iff.rfl, fun a => ?_, fun a => ?_, fun a b hb => ?_, fun a => ?_⟩ <;> cases a
      any_goals rfl
      · simp [Axis.en, Axis.plan, hs, homing_isSome]
      · simp [Axis.en, Axis.plan, hs, homing_isSome]
      · simp only [Axis.plan, hs] at hb
        exact (homing_eq_some hb).2.symm
      · simp only [Axis.plan, hs] at hb
        obtain ⟨hne, rfl⟩ := homing_eq_some hb
        have hne' := BitVec.toInt_inj.not.mpr hne
        exact decide_eq_decide.mpr (by omega)
      · simp [Axis.plan, hs]
      · simp [Axis.plan, hs]
    -- the step falls short of both goals, so both axes keep their plan
    | true =>
      have ht' : (g.controllerInput (i n)).stepTick = true := ht
      have hrest := atRest_of_tick h.phase haged ht
      obtain ⟨hx, hy⟩ := hkeep.homing hl.returnHome hs ht
      simp only [ht', if_true]
      suffices hc : Loads (i n) g.controller0 _ from
        hc.ledger h hrest (.forcedReturn hs (fun hx0 hy0 => absurd
          ⟨not_not.mp fun hne => hx ⟨hne, hx0⟩, not_not.mp fun hne => hy ⟨hne, hy0⟩⟩ haway)
          (hc.aged_since h.phase ht))
      refine ⟨rfl, fun a => ?_, fun a => ?_⟩ <;> cases a
      · simp [Axis.en, pulsing_of_rest hrest]
      · simp [Axis.en, pulsing_of_rest hrest]
      · simp only [Axis.pos, Axis.plan, hs]
        exact homing_asked hx
      · simp only [Axis.pos, Axis.plan, hs]
        exact homing_asked hy
  | reset hr => exact absurd hr (by simp [hl.reset])
  | home _ hh => exact absurd hh (by simp [hl.returnHome])
  | searchStep ht => exact absurd ht.state (by simp [hs])
  | _ => simp_all

/-- Every clock edge keeps the ledger. -/
theorem ledger_step (h : Ledger i n g d) (hi : FromReceiver i) (hkeep : KeepsStep (i n) g) :
    Ledger i (n + 1) (g.step (i n)) (balance g (g.step (i n)) d) := by
  rw [step_eq]
  have hb := step_branch (g.controllerInput (i n)) g.controller0
  generalize g.controller0.step (g.controllerInput (i n)) = c at hb ⊢
  cases hhome : (i n).returnHome with
  -- the button leaves timer and enables as they are, so it has to find them low
  | true =>
    have hrest := hkeep.home hhome
    obtain rfl : c = { g.controller0 with state := .forcedReturn } :=
      hb.eq.symm.trans (Branch.home (hi.reset n) hhome).eq
    suffices hc : Rests g.controller0 _ from
      hc.ledger h hrest (.forcedReturn rfl (fun _ _ => hc.atRest h.phase hrest)
        ((hc.atRest h.phase hrest).aged _))
    exact ⟨hrest.timer, fun a => by cases a <;> rfl,
      fun a => (hrest.axis a).1 ▸ by cases a <;> rfl⟩
  | false =>
    have hl : Live (g.controllerInput (i n)) := ⟨hi.reset n, hhome⟩
    cases hs : g.controller0.state with
    | bootUp => exact ledger_bootUp h hs hl hb
    -- `IDLE_WAIT` clears both enables; no step is under way
    | idleWait =>
      have hrest := h.mode.of_idleWait hs
      have heq := hb.eq.symm.trans (Branch.idle hl hs).eq
      have hc : Rests g.controller0 c := by
        rw [heq]
        exact ⟨timerDown_of_rest hrest, fun a => by cases a <;> rfl, fun a => by cases a <;> rfl⟩
      have hnext : c.state = if (i n).onTarget then .tracking else .idleWait := by
        rw [heq]
        rfl
      have hrest' := hc.atRest h.phase hrest
      refine hc.ledger h hrest ?_
      split_ifs at hnext
      · exact .tracking hnext (.inl hrest')
      · exact .idleWait hnext hrest'
    | tracking => exact ledger_tracking h hi hkeep hs hl hb
    | searching => exact ledger_searching h hi hkeep hs hl hb
    | returning => exact absurd hs h.mode.reachable.1
    | forcedReturn => exact ledger_forcedReturn h hkeep hs hl hb
    | unused low => exact absurd hs (h.mode.reachable.2 low)

end Step

end Gimbal

end Scope.Native
