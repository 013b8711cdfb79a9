import Scope.Native.ClkDiv

/-!
# Infrared transmitter

Model of `ir_tx`: a modified NEC encoder.  `message` is the envelope that the
38 kHz carrier modulates.  Assignments are non-blocking, as in `IrRx`: they read
`s`, and `n` is the set of values scheduled so far.
-/

namespace Scope.Native

namespace IrTx

/-! ## Timing constants (ticks of 20 ns) -/

def bitCountResetVal : BitVec 3 := 0b111
def tickHeaderBurst : ℕ := 100_000
def tickHeaderSpace : ℕ := 50_000
/-- Data burst, data zero and end-of-frame burst. -/
def tickDataBurst : ℕ := 15_000
/-- Data one. -/
def tickDataSpace : ℕ := 35_000
def burstLimit : ℕ := 5
def tickWaitGap : ℕ := 100_000
def tickLongWait : ℕ := 600_000

/-- `state_t`, four bits wide: eight named encodings and eight unused ones. -/
inductive State
  | idle | headerBurst | headerSpace | dataBurst | dataSpace | eof | wait | longWait
  | unused (low : Fin 8)
  deriving DecidableEq, Repr

/-- The inputs of `ir_tx` in front of a clock edge. -/
structure Input where
  reset : Bool
  start : Bool
  data : BitVec 8
  deriving DecidableEq, Repr

end IrTx

/-- The registers of `ir_tx`, with those of its carrier divider `c0`. -/
structure IrTx where
  state : IrTx.State
  tickCount : BitVec 20
  done : Bool
  dataOut : BitVec 8
  message : Bool
  bitCount : BitVec 3
  burstCounter : BitVec 3
  c0 : ClkDiv 11
  deriving DecidableEq, Repr

namespace IrTx

/-- All registers zero, as at power-up. -/
def powerUp : IrTx where
  state := .idle
  tickCount := 0
  done := false
  dataOut := 0
  message := false
  bitCount := 0
  burstCounter := 0
  c0 := { count := 0, clkout := false }

/-- `task next_bit_logic`. -/
def nextBitLogic (s n : IrTx) : IrTx :=
  let n := { n with tickCount := 0 }
  if s.bitCount = 0 then { n with state := .eof }
  else { n with bitCount := s.bitCount - 1, state := .dataBurst }

/-- `tick_count <= tick_count + 1`. -/
def countUp (s n : IrTx) : IrTx := { n with tickCount := s.tickCount + 1 }

/-- `case (state)` of the clocked block. -/
def advance (i : Input) (s n : IrTx) : IrTx :=
  match s.state with
  | .unused _ => { n with state := .idle }
  | .idle =>
    let n := { n with message := false, bitCount := bitCountResetVal }
    if i.start then
      { n with dataOut := i.data, done := false, tickCount := 0, state := .headerBurst }
    else n
  | .headerBurst =>
    let n := { n with message := true }
    if s.tickCount.toNat ≥ tickHeaderBurst then
      { n with tickCount := 0, state := .headerSpace }
    else s.countUp n
  | .headerSpace =>
    let n := { n with message := false }
    if s.tickCount.toNat ≥ tickHeaderSpace then
      { n with tickCount := 0, state := .dataBurst }
    else s.countUp n
  | .dataBurst =>
    let n := { n with message := true }
    if s.tickCount.toNat ≥ tickDataBurst then
      { n with tickCount := 0, state := .dataSpace }
    else s.countUp n
  | .dataSpace =>
    let n := { n with message := false }
    if s.dataOut.getLsbD s.bitCount.toNat = true then
      if s.tickCount.toNat ≥ tickDataSpace then
        s.nextBitLogic { n with tickCount := 0 }
      else s.countUp n
    else
      -- the current bit is a 0
      if s.tickCount.toNat ≥ tickDataBurst then
        s.nextBitLogic { n with tickCount := 0 }
      else s.countUp n
  | .eof =>
    let n := { n with message := true }
    if s.tickCount.toNat ≥ tickDataBurst then
      { n with tickCount := 0, done := true, burstCounter := s.burstCounter + 1, state := .wait }
    else s.countUp n
  | .wait =>
    let n := { n with message := false, done := false }
    if s.tickCount.toNat ≥ tickWaitGap then
      let n := { n with tickCount := 0 }
      if s.burstCounter.toNat ≥ burstLimit then { n with state := .longWait }
      else { n with state := .idle }
    else s.countUp n
  | .longWait =>
    let n := { n with message := false }
    if s.tickCount.toNat ≥ tickLongWait then
      { n with tickCount := 0, burstCounter := 0, state := .idle }
    else s.countUp n

/-- One clock edge.  The reset branch leaves `message`, `data_out`, `bit_count`
    and `burst_counter` as they are; the carrier has no reset. -/
def step (i : Input) (s : IrTx) : IrTx :=
  let n := { s with c0 := s.c0.step (divider 50_000_000 38_000) }
  if i.reset then { n with state := .idle, tickCount := 0, done := false }
  else s.advance i n

/-- `assign ir_out = carrier & message`. -/
def irOut (s : IrTx) : Bool := s.c0.clkout && s.message

end IrTx

end Scope.Native
