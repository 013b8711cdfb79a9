import Scope.ForStd.BitVec

/-!
# Infrared receiver

Model of `ir_rx`: two synchroniser registers in front of a protocol state
machine that measures the time between two level changes of its (active low)
input.  All assignments are non-blocking: they read the registers `s` in front
of the clock edge, and a later assignment to a register replaces an earlier one.
`n` is the set of values scheduled so far.
-/

namespace Scope.Native

namespace IrRx

/-! ## Timing constants (ticks of 20 ns) -/

def burstMin : ℕ := 80_000
def burstMax : ℕ := 120_000
def spaceMin : ℕ := 35_000
def spaceMax : ℕ := 65_000
def dataBurstMin : ℕ := 5_000
def dataBurstMax : ℕ := 22_000
/-- A data space above this is a one. -/
def bitThreshold : ℕ := 25_000
def timeout : ℕ := 500_000

/-- `state_t`, three bits wide: six named encodings and two unused ones. -/
inductive State
  | idle | headerBurst | headerSpace | dataBurst | dataSpace | validate
  | unused (low : Bool)
  deriving DecidableEq, Repr

/-- The registers of the protocol state machine. -/
structure Fsm where
  state : State
  tickCount : BitVec 20
  prevLevel : Bool
  bitCount : BitVec 4
  shiftReg : BitVec 8
  recv : Bool
  done : Bool
  data : BitVec 8
  deriving DecidableEq, Repr

namespace Fsm

/-- The reset branch. -/
def resetRegs : Fsm where
  state := .idle
  tickCount := 0
  prevLevel := true
  bitCount := 0
  shiftReg := 0
  recv := false
  done := false
  data := 0

/-- No edge: keep counting, and saturate to avoid overflow. -/
def count (s n : Fsm) : Fsm :=
  if s.tickCount.toNat < 0xFFFFF then { n with tickCount := s.tickCount + 1 } else n

/-- Fall back to `IDLE` because a run has a wrong length. -/
def reject (n : Fsm) : Fsm := { n with recv := false, state := .idle }

/-- Edge detected: `case (state)`.  The unused encodings have no branch. -/
def edge (s n : Fsm) : Fsm :=
  match s.state with
  | .idle =>
    -- only a falling edge starts a header burst
    let n := if s.prevLevel = true then { n with recv := true, state := .headerBurst } else n
    { n with tickCount := 0 }
  | .headerBurst =>
    let n :=
      if burstMin ≤ s.tickCount.toNat ∧ s.tickCount.toNat ≤ burstMax then
        { n with state := .headerSpace }
      else n.reject
    { n with tickCount := 0 }
  | .headerSpace =>
    let n :=
      if spaceMin ≤ s.tickCount.toNat ∧ s.tickCount.toNat ≤ spaceMax then
        { n with bitCount := 0, shiftReg := 0, state := .dataBurst }
      else n.reject
    { n with tickCount := 0 }
  | .dataBurst =>
    let n :=
      if dataBurstMin ≤ s.tickCount.toNat ∧ s.tickCount.toNat ≤ dataBurstMax then
        { n with state := .dataSpace }
      else n.reject
    { n with tickCount := 0 }
  | .dataSpace =>
    let n := { n with
      shiftReg := BitVec.shiftIn s.shiftReg (decide (s.tickCount.toNat > bitThreshold))
      tickCount := 0 }
    if s.bitCount = 7 then { n with state := .validate }
    else { n with bitCount := s.bitCount + 1, state := .dataBurst }
  | .validate => { n with state := .idle, recv := false }
  | .unused _ => n

/-- The block that is active in `VALIDATE`. -/
def validate (s n : Fsm) : Fsm :=
  if s.state = .validate then
    { n with data := s.shiftReg, done := true, state := .idle, recv := false }
  else n

/-- The block that leaves a state the machine is stuck in.  It comes last and so
    overrides an edge in the same cycle. -/
def timeOut (s n : Fsm) : Fsm :=
  if timeout ≤ s.tickCount.toNat ∧ s.state ≠ .idle then
    { n with state := .idle, recv := false, bitCount := 0, shiftReg := 0, tickCount := 0 }
  else n

/-- One clock edge without reset, with level `irSync` at the end of the synchroniser. -/
def advance (irSync : Bool) (s : Fsm) : Fsm :=
  let n := { s with done := false }
  let n := if irSync = s.prevLevel then s.count n
    else { s.edge n with prevLevel := irSync }
  s.timeOut (s.validate n)

/-- One clock edge. -/
def step (reset irSync : Bool) (s : Fsm) : Fsm :=
  if reset then resetRegs else s.advance irSync

end Fsm

/-- The inputs of `ir_rx` in front of a clock edge. -/
structure Input where
  irInput : Bool
  reset : Bool
  deriving DecidableEq, Repr

end IrRx

/-- All registers of `ir_rx`. -/
structure IrRx where
  irSync0 : Bool
  irSync : Bool
  fsm : IrRx.Fsm
  deriving DecidableEq, Repr

/-- One clock edge of `ir_rx`; the synchroniser is not reset. -/
def IrRx.step (i : IrRx.Input) (s : IrRx) : IrRx where
  irSync0 := i.irInput
  irSync := s.irSync0
  fsm := s.fsm.step i.reset s.irSync

end Scope.Native
