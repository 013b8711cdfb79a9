import Mathlib.Data.BitVec

/-!
# Search controller

Model of `search_controller`: the modes of the transmitter and the register that
holds the gimbal position.  Assignments are non-blocking: they read `s`, and `n`
is the set of values scheduled so far.
-/

namespace Scope.Native

namespace SearchController

/-! ## Constraints and search configuration -/

def bootLimit : BitVec 16 := 266
def pitchLimit : BitVec 16 := 89
def yawLimit : BitVec 16 := 177
def searchMaxSide : BitVec 16 := 200
def pulseWidth : BitVec 32 := 50_000
def densityStep : BitVec 16 := 3

/-- `state_t`, three bits wide: six named encodings and two unused ones. -/
inductive State
  | bootUp | idleWait | tracking | searching | returning | forcedReturn
  | unused (low : Bool)
  deriving DecidableEq, Repr

/-- The inputs in front of a clock edge. -/
structure Input where
  reset : Bool
  returnHome : Bool
  onTarget : Bool
  stepTick : Bool
  rxDone : Bool
  irYawEn : Bool
  irYawDir : Bool
  irPitchEn : Bool
  irPitchDir : Bool
  deriving DecidableEq, Repr

end SearchController

/-- The registers of `search_controller`; `pos_x` and `pos_y` are signed. -/
structure SearchController where
  state : SearchController.State
  posX : BitVec 16
  posY : BitVec 16
  sideLimit : BitVec 16
  stepCount : BitVec 16
  spiralDir : BitVec 2
  pulseTimer : BitVec 32
  hasSeenTarget : Bool
  outYawEn : Bool
  outYawDir : Bool
  outPitchEn : Bool
  outPitchDir : Bool
  deriving DecidableEq, Repr

namespace SearchController

/-- `assign is_searching`. -/
def isSearching (s : SearchController) : Bool :=
  s.state = .searching ∨ s.state = .returning ∨ s.state = .forcedReturn

/-- `pulse_timer > 0`. -/
def pulsing (s : SearchController) : Bool := decide (s.pulseTimer.toNat > 0)

/-- The reset branch.  It leaves the four motor outputs as they are. -/
def resetRegs (s : SearchController) : SearchController :=
  { s with
    state := .bootUp
    posX := 0
    posY := -bootLimit
    hasSeenTarget := false
    sideLimit := densityStep
    stepCount := 0
    spiralDir := 0
    pulseTimer := 0 }

def bootUp (i : Input) (s n : SearchController) : SearchController :=
  let n := { n with outPitchDir := true, outPitchEn := s.pulsing }
  if i.stepTick then
    if s.posY.toInt < 0 then { n with posY := s.posY + 1, pulseTimer := pulseWidth }
    else { n with state := .idleWait }
  else n

def idleWait (i : Input) (n : SearchController) : SearchController :=
  let n := { n with outYawEn := false, outPitchEn := false }
  if i.onTarget then { n with state := .tracking } else n

/-- Yaw part of a received command. -/
def trackYaw (i : Input) (s n : SearchController) : SearchController :=
  if i.irYawEn then
    if i.irYawDir ∧ s.posX.toInt < yawLimit.toInt then { n with posX := s.posX + 1 }
    else if ¬ i.irYawDir ∧ s.posX.toInt > -yawLimit.toInt then { n with posX := s.posX - 1 }
    else n
  else n

/-- Pitch part of a received command. -/
def trackPitch (i : Input) (s n : SearchController) : SearchController :=
  if i.irPitchEn then
    if i.irPitchDir ∧ s.posY.toInt < pitchLimit.toInt then { n with posY := s.posY + 1 }
    else if ¬ i.irPitchDir ∧ s.posY.toInt > -pitchLimit.toInt then { n with posY := s.posY - 1 }
    else n
  else n

def tracking (i : Input) (s n : SearchController) : SearchController :=
  if i.onTarget then
    let n := { n with hasSeenTarget := true }
    let n :=
      if i.rxDone then
        s.trackPitch i (s.trackYaw i { n with
          pulseTimer := pulseWidth
          outYawDir := i.irYawDir
          outPitchDir := i.irPitchDir })
      else n
    { n with
      outYawEn := s.pulsing && i.irYawEn
      outPitchEn := s.pulsing && i.irPitchEn }
  else if s.hasSeenTarget then
    -- the pulse timer is cleared for a clean start
    { n with
      state := .searching
      stepCount := 0
      spiralDir := 0
      sideLimit := densityStep
      pulseTimer := 0 }
  else n

/-- `case (spiral_dir)` that drives the motors. -/
def spiralDrive (s n : SearchController) : SearchController :=
  if s.spiralDir = 0 then { n with outYawDir := true, outYawEn := s.pulsing, outPitchEn := false }
  else if s.spiralDir = 1 then
    { n with outPitchDir := true, outPitchEn := s.pulsing, outYawEn := false }
  else if s.spiralDir = 2 then
    { n with outYawDir := false, outYawEn := s.pulsing, outPitchEn := false }
  else { n with outPitchDir := false, outPitchEn := s.pulsing, outYawEn := false }

/-- `case (spiral_dir)` that moves the position. -/
def spiralMove (s n : SearchController) : SearchController :=
  if s.spiralDir = 0 then { n with posX := s.posX + 1 }
  else if s.spiralDir = 1 then { n with posY := s.posY + 1 }
  else if s.spiralDir = 2 then { n with posX := s.posX - 1 }
  else { n with posY := s.posY - 1 }

/-- `step_count >= side_limit - 1`, evaluated in 32 bits like the literal. -/
def lastOfLeg (s : SearchController) : Bool :=
  decide ((s.stepCount.setWidth 32).toNat ≥ (s.sideLimit.setWidth 32 - 1).toNat)

/-- Length and direction of the leg after a step. -/
def spiralCount (s n : SearchController) : SearchController :=
  if s.lastOfLeg then
    let n := { n with stepCount := 0, spiralDir := s.spiralDir + 1 }
    if s.spiralDir = 1 ∨ s.spiralDir = 3 then { n with sideLimit := s.sideLimit + densityStep }
    else n
  else { n with stepCount := s.stepCount + 1 }

def searching (i : Input) (s n : SearchController) : SearchController :=
  if i.onTarget then { n with state := .tracking }
  else if s.sideLimit.toNat > searchMaxSide.toNat then { n with state := .returning }
  else
    let n := s.spiralDrive n
    if i.stepTick then
      s.spiralCount (s.spiralMove { n with pulseTimer := pulseWidth })
    else n

/-- One step of a coordinate towards `goal`. -/
def stepToward (goal pos : BitVec 16) : BitVec 16 :=
  if pos.toInt > goal.toInt then pos - 1
  else if pos.toInt < goal.toInt then pos + 1
  else pos

def returning (i : Input) (s n : SearchController) : SearchController :=
  if i.onTarget then { n with state := .tracking }
  else if s.posX = 0 ∧ s.posY = 0 then { n with hasSeenTarget := false, state := .idleWait }
  else
    let n := { n with
      outYawDir := decide (s.posX.toInt < 0)
      outPitchDir := decide (s.posY.toInt < 0)
      outYawEn := s.pulsing && decide (s.posX ≠ 0)
      outPitchEn := s.pulsing && decide (s.posY ≠ 0) }
    if i.stepTick then
      { n with
        pulseTimer := pulseWidth
        posX := stepToward 0 s.posX
        posY := stepToward 0 s.posY }
    else n

def forcedReturn (i : Input) (s n : SearchController) : SearchController :=
  if s.posX = 0 ∧ s.posY = -bootLimit then { n with hasSeenTarget := false, state := .idleWait }
  else
    let n := { n with
      outYawDir := decide (s.posX.toInt < 0)
      outPitchDir := if s.posY.toInt > (-bootLimit).toInt then false else true
      outYawEn := s.pulsing && decide (s.posX ≠ 0)
      outPitchEn := s.pulsing && decide (s.posY ≠ -bootLimit) }
    if i.stepTick then
      { n with
        pulseTimer := pulseWidth
        posX := stepToward 0 s.posX
        posY := stepToward (-bootLimit) s.posY }
    else n

/-- One clock edge.  The reset is asynchronous and runs the reset branch. -/
def step (i : Input) (s : SearchController) : SearchController :=
  if i.reset then s.resetRegs
  else if i.returnHome then { s with state := .forcedReturn }
  else
    let n := if s.pulseTimer.toNat > 0 then { s with pulseTimer := s.pulseTimer - 1 } else s
    match s.state with
    | .bootUp => s.bootUp i n
    | .idleWait => idleWait i n
    | .tracking => s.tracking i n
    | .searching => s.searching i n
    | .returning => s.returning i n
    | .forcedReturn => s.forcedReturn i n
    | .unused _ => n

end SearchController

end Scope.Native
