import Scope.Native.AdcQpdScanner
import Scope.Native.RxState

/-!
# Receiver board

Model of `laser_rx`, which ties the receiver together: the scanner feeds the
classifier, and `ccom_rx`, the processor system, sees both through its ports.
-/

namespace Scope.Native

/-- `status = { on_target, micro }`. -/
def RxState.status (s : RxState) : BitVec 2 :=
  BitVec.ofBool s.qpd0.onTarget ++ BitVec.ofBool s.qpd0.micro

/-- All registers of `laser_rx` outside of the processor system. -/
structure LaserRx where
  qpdrd : AdcQpdScanner
  r0 : RxState
  deriving DecidableEq

namespace LaserRx

/-- The button is active low. -/
structure Input where
  key0 : Bool
  adcSdo : Bool
  deriving DecidableEq, Repr

/-- The wires `q0` to `q3`. -/
def samples (s : LaserRx) : QpdState.Samples where
  q0 := s.qpdrd.q0
  q1 := s.qpdrd.q1
  q2 := s.qpdrd.q2
  q3 := s.qpdrd.q3

/-- One clock edge. -/
def step (i : Input) (s : LaserRx) : LaserRx where
  qpdrd := s.qpdrd.step { reset := !i.key0, sdo := i.adcSdo }
  r0 := s.r0.step { reset := !i.key0, q := s.samples }

/-! ## The ports of `ccom_rx` -/

def dxdyExport (s : LaserRx) : BitVec 24 := s.samples.dxdy

/-- `{ q3, q2 }`. -/
def qpdp1Export (s : LaserRx) : BitVec 24 := s.samples.q3 ++ s.samples.q2

/-- `{ q1, q0 }`. -/
def qpdp2Export (s : LaserRx) : BitVec 24 := s.samples.q1 ++ s.samples.q0

/-- `{ 6'b111111, rx_state_status }`. -/
def statusExport (s : LaserRx) : BitVec 8 := 0b111111#6 ++ s.r0.status

end LaserRx

end Scope.Native
