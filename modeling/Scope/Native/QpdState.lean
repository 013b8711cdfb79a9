import Mathlib.Data.BitVec

/-!
# Quadrant photodiode classifier

Model of `qpd_state`: it turns the four quadrant samples into the five command
bits for the transmitter.
-/

namespace Scope.Native

namespace QpdState

def targetConfidenceMax : ℕ := 500_000
def moveThresh : ℤ := 350
def microThresh : ℤ := 150

/-- The four 12-bit quadrant samples. -/
structure Samples where
  q0 : BitVec 12
  q1 : BitVec 12
  q2 : BitVec 12
  q3 : BitVec 12
  deriving DecidableEq, Repr

/-! The operands of `sum`, `dx_num` and `dy_num` are extended to the 16 bits of
the left-hand side before the arithmetic. -/

def Samples.sum (q : Samples) : BitVec 16 :=
  q.q0.setWidth 16 + q.q1.setWidth 16 + q.q2.setWidth 16 + q.q3.setWidth 16

def Samples.dxNum (q : Samples) : BitVec 16 :=
  (q.q0.setWidth 16 + q.q1.setWidth 16) - (q.q2.setWidth 16 + q.q3.setWidth 16)

def Samples.dyNum (q : Samples) : BitVec 16 :=
  (q.q0.setWidth 16 + q.q3.setWidth 16) - (q.q1.setWidth 16 + q.q2.setWidth 16)

/-- `abs16`: the most negative value is its own absolute value. -/
def abs16 (val : BitVec 16) : BitVec 16 := if val.getLsbD 15 then -val else val

/-- The debug word `dxdy`: a sign bit and nine magnitude bits for each axis. -/
def Samples.dxdy (q : Samples) : BitVec 24 :=
  0#2 ++ q.dxNum.extractLsb' 15 1 ++ q.dxNum.extractLsb' 0 9 ++
    (0#2 ++ q.dyNum.extractLsb' 15 1 ++ q.dyNum.extractLsb' 0 9)

end QpdState

/-- The registers of `qpd_state`. -/
structure QpdState where
  confidenceCounter : BitVec 24
  onTarget : Bool
  moveX : Bool
  moveY : Bool
  dirX : Bool
  dirY : Bool
  micro : Bool
  deriving DecidableEq, Repr

namespace QpdState

/-- All registers zero, as at power-up. -/
def powerUp : QpdState where
  confidenceCounter := 0
  onTarget := false
  moveX := false
  moveY := false
  dirX := false
  dirY := false
  micro := false

/-- Confidence logic.  The reset is asynchronous, so a cycle with `reset` high
    runs this branch too. -/
def confidence (reset : Bool) (q : Samples) (s n : QpdState) : QpdState :=
  if reset then { n with confidenceCounter := 0, onTarget := false }
  else if q.sum.toInt > 300 then
    let n := if s.confidenceCounter.toNat < targetConfidenceMax then
      { n with confidenceCounter := s.confidenceCounter + 1 } else n
    if s.confidenceCounter.toNat > 50_000 then { n with onTarget := true } else n
  else if s.confidenceCounter.toNat > 0 then
    { n with confidenceCounter := s.confidenceCounter - 1 }
  else { n with onTarget := false }

/-- Horizontal movement.  Inside the threshold `dir_x` keeps its value. -/
def moveHorizontal (q : Samples) (n : QpdState) : QpdState :=
  if q.dxNum.toInt > moveThresh then { n with moveX := true, dirX := true }
  else if q.dxNum.toInt < -moveThresh then { n with moveX := true, dirX := false }
  else { n with moveX := false }

/-- Vertical movement. -/
def moveVertical (q : Samples) (n : QpdState) : QpdState :=
  if q.dyNum.toInt > moveThresh then { n with moveY := true, dirY := true }
  else if q.dyNum.toInt < -moveThresh then { n with moveY := true, dirY := false }
  else { n with moveY := false }

/-- One clock edge. -/
def step (reset : Bool) (q : Samples) (s : QpdState) : QpdState :=
  let n := s.confidence reset q s
  let n := moveVertical q (moveHorizontal q n)
  { n with micro := decide ((abs16 q.dxNum).toInt < microThresh ∧
      (abs16 q.dyNum).toInt < microThresh) }

/-- `move_com = { on_target, dir_y, move_y, dir_x, move_x }`. -/
def moveCom (s : QpdState) : BitVec 5 :=
  BitVec.ofBool s.onTarget ++ BitVec.ofBool s.dirY ++ BitVec.ofBool s.moveY ++
    BitVec.ofBool s.dirX ++ BitVec.ofBool s.moveX

end QpdState

end Scope.Native
