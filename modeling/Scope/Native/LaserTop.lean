import Scope.Native.ClkDiv
import Scope.Native.IrRx
import Scope.Native.SearchController

/-!
# Transmitter board

Models of `driver` (the step pulses for the two motors) and of `laser_top`, which
ties the transmitter together and makes the controller's `step_tick`.
-/

namespace Scope.Native

/-- The registers of `driver`, with those of its divider `c0`. -/
structure Driver where
  c0 : ClkDiv 16
  yawStep : Bool
  pitchStep : Bool
  deriving DecidableEq, Repr

namespace Driver

/-- A step line: low and high in turn while enabled, high otherwise. -/
def stepLine (en line : Bool) : Bool := if en then !line else true

/-- One edge of `clk50`, given the enables behind that edge.  `clk0` is a register
    of the same clock, so the block clocked by its rising edge runs once the
    registers of the `clk50` edge have their new values. -/
def step (yawStepEn pitchStepEn : Bool) (s : Driver) : Driver :=
  let c0 := s.c0.step (divider 50_000_000 1_000)
  if !s.c0.clkout && c0.clkout then
    { c0
      yawStep := stepLine yawStepEn s.yawStep
      pitchStep := stepLine pitchStepEn s.pitchStep }
  else { s with c0 := c0 }

end Driver

/-- The `clk_count` / `step_tick` generator of `laser_top`, which has no reset. -/
structure StepTick where
  clkCount : BitVec 20
  stepTick : Bool
  /-- The tick is high only while the counter is at zero: both are zero at power-up,
      and every clock edge sets them so. -/
  settled : stepTick = true → clkCount.toNat = 0
  deriving DecidableEq

/-- One clock edge. -/
def StepTick.step (s : StepTick) : StepTick :=
  if s.clkCount.toNat ≥ 500_000 then
    { clkCount := 0, stepTick := true, settled := fun _ => rfl }
  else
    { clkCount := s.clkCount + 1, stepTick := false, settled := fun h => absurd h (by simp) }

/-- The motor half of `laser_top`: tick generator, controller and driver. -/
structure Gimbal where
  ticker : StepTick
  controller0 : SearchController
  simpledriver : Driver
  deriving DecidableEq

namespace Gimbal

/-- What the motor half gets from the buttons and from `ir_rx`. -/
structure Input where
  reset : Bool
  returnHome : Bool
  onTarget : Bool
  rxDone : Bool
  irYawEn : Bool
  irYawDir : Bool
  irPitchEn : Bool
  irPitchDir : Bool
  deriving DecidableEq, Repr

/-- The ports of `controller0`. -/
def controllerInput (i : Input) (s : Gimbal) : SearchController.Input where
  reset := i.reset
  returnHome := i.returnHome
  onTarget := i.onTarget
  stepTick := s.ticker.stepTick
  rxDone := i.rxDone
  irYawEn := i.irYawEn
  irYawDir := i.irYawDir
  irPitchEn := i.irPitchEn
  irPitchDir := i.irPitchDir

/-- One clock edge. -/
def step (i : Input) (s : Gimbal) : Gimbal :=
  let controller0 := s.controller0.step (s.controllerInput i)
  { ticker := s.ticker.step
    controller0
    simpledriver := s.simpledriver.step controller0.outYawEn controller0.outPitchEn }

end Gimbal

/-- All registers of `laser_top`. -/
structure LaserTop where
  r0 : IrRx
  gimbal : Gimbal
  deriving DecidableEq

namespace LaserTop

/-- The buttons are active low; `gpio1` is the wire from the infrared demodulator. -/
structure Input where
  key0 : Bool
  key1 : Bool
  gpio1 : Bool
  deriving DecidableEq, Repr

/-- `ir_data`. -/
def irData (s : LaserTop) : BitVec 8 := s.r0.fsm.data

/-- `rx_done`. -/
def rxDone (s : LaserTop) : Bool := s.r0.fsm.done

/-- `on_target = ir_data[4]`. -/
def onTarget (s : LaserTop) : Bool := s.irData.getLsbD 4

/-- The wiring of `controller0`; the direction bits are inverted. -/
def gimbalInput (i : Input) (s : LaserTop) : Gimbal.Input where
  reset := !i.key0
  returnHome := !i.key1
  onTarget := s.onTarget
  rxDone := s.rxDone
  irYawEn := s.irData.getLsbD 0
  irYawDir := !s.irData.getLsbD 1
  irPitchEn := s.irData.getLsbD 2
  irPitchDir := !s.irData.getLsbD 3

/-- One clock edge. -/
def step (i : Input) (s : LaserTop) : LaserTop where
  r0 := s.r0.step { irInput := i.gpio1, reset := !i.key0 }
  gimbal := s.gimbal.step (s.gimbalInput i)

end LaserTop

end Scope.Native
