import Scope.Native.QpdState
import Scope.Native.IrTx

/-!
# Command side of the receiver board

Model of `rx_state`: a free-running 50 Hz pulse starts `ir_tx` on the byte that
`qpd_state` has ready.
-/

namespace Scope.Native

/-- The `tx_timer` / `tx_pulse` generator of `rx_state`, which has no reset. -/
structure TxPulse where
  txTimer : BitVec 20
  txPulse : Bool
  /-- The pulse is high only while the timer is at zero: both are zero at power-up,
      and every clock edge sets them so. -/
  settled : txPulse = true → txTimer = 0
  deriving DecidableEq

/-- The registers in a cycle with a pulse. -/
def TxPulse.pulsed : TxPulse := { txTimer := 0, txPulse := true, settled := fun _ => rfl }

/-- One clock edge: 50 MHz / 1M = 50 Hz. -/
def TxPulse.step (s : TxPulse) : TxPulse :=
  if s.txTimer.toNat ≥ 1_000_000 then pulsed
  else
    { txTimer := s.txTimer + 1, txPulse := false, settled := fun h => absurd h (by simp) }

/-- `ir_tx` started by the pulse generator. -/
structure PulsedTx where
  gen : TxPulse
  ir0 : IrTx
  deriving DecidableEq

namespace PulsedTx

/-- Reset and the byte on the `data` port. -/
structure Input where
  reset : Bool
  data : BitVec 8
  deriving DecidableEq, Repr

def step (i : Input) (s : PulsedTx) : PulsedTx where
  gen := s.gen.step
  ir0 := s.ir0.step { reset := i.reset, start := s.gen.txPulse, data := i.data }

end PulsedTx

/-- All registers of `rx_state`. -/
structure RxState where
  qpd0 : QpdState
  tx : PulsedTx
  deriving DecidableEq

namespace RxState

structure Input where
  reset : Bool
  q : QpdState.Samples
  deriving DecidableEq, Repr

/-- The byte on the `data` port of `ir0`: `{ 3'b0, move_com }`. -/
def data (s : RxState) : BitVec 8 := 0#3 ++ s.qpd0.moveCom

/-- `.ir_out(ir_out)`. -/
def irOut (s : RxState) : Bool := s.tx.ir0.irOut

/-- One clock edge. -/
def step (i : Input) (s : RxState) : RxState where
  qpd0 := s.qpd0.step i.reset i.q
  tx := s.tx.step { reset := i.reset, data := s.data }

end RxState

end Scope.Native
