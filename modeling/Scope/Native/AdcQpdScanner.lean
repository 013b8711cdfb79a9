import Mathlib.Data.BitVec

/-!
# ADC scanner

Model of `adc_qpd_scanner`: it cycles through four channels of an LTC2308 and
keeps the latest sample of each in a register of its own.
-/

namespace Scope.Native

namespace AdcQpdScanner

/-- `state_t` has the base type `int`: four named encodings, the rest unused. -/
inductive State
  | start | convert | transfer | acquire
  | unused (code : Fin (2 ^ 32 - 4))
  deriving DecidableEq, Repr

def firstch : BitVec 3 := 0
def lastch : BitVec 3 := 3

/-- The inputs in front of a clock edge. -/
structure Input where
  reset : Bool
  sdo : Bool
  deriving DecidableEq, Repr

end AdcQpdScanner

/-- The registers of `adc_qpd_scanner`. -/
structure AdcQpdScanner where
  state : AdcQpdScanner.State
  count : BitVec 7
  convst : Bool
  sck : Bool
  sdi : Bool
  ch : BitVec 3
  prevch : BitVec 3
  sample : BitVec 12
  q0 : BitVec 12
  q1 : BitVec 12
  q2 : BitVec 12
  q3 : BitVec 12
  deriving DecidableEq, Repr

namespace AdcQpdScanner

/-- `set_next(s, c)`. -/
def setNext (s : State) (c : BitVec 7) : State × BitVec 7 := (s, c - 1)

/-- `state_next` and `count_next`. -/
def next (reset : Bool) (s : AdcQpdScanner) : State × BitVec 7 :=
  if reset then setNext .start 2
  else if s.count ≠ 0 then setNext s.state s.count
  else
    match s.state with
    | .start => setNext .convert 126
    | .convert => setNext .transfer 24
    | .transfer => setNext .acquire 8
    | .acquire => setNext .start 2
    | .unused _ => setNext .start 2

/-- `adccfg = { 1'b1, ch[0], ch[2:1], 2'b10, 6'b0 }`. -/
def adccfg (ch : BitVec 3) : BitVec 12 :=
  1#1 ++ ch.extractLsb' 0 1 ++ ch.extractLsb' 1 2 ++ 0b10#2 ++ 0#6

/-- Save the sample to the register of quadrant `prevch`. -/
def store (s n : AdcQpdScanner) : AdcQpdScanner :=
  if s.prevch = 0 then { n with q0 := s.sample }
  else if s.prevch = 1 then { n with q1 := s.sample }
  else if s.prevch = 2 then { n with q2 := s.sample }
  else if s.prevch = 3 then { n with q3 := s.sample }
  else n

/-- The channel registers. -/
def channels (reset : Bool) (countNext : BitVec 7) (s n : AdcQpdScanner) : AdcQpdScanner :=
  if reset then { n with ch := firstch, prevch := firstch }
  else if s.state = .convert ∧ countNext = 0 then
    { n with ch := if s.ch = lastch then firstch else s.ch + 1, prevch := s.ch }
  else n

/-- The quadrant registers. -/
def quadrants (reset : Bool) (stateNext : State) (s n : AdcQpdScanner) : AdcQpdScanner :=
  if reset then { n with q0 := 0, q1 := 0, q2 := 0, q3 := 0 }
  else if s.state = .transfer ∧ stateNext = .acquire then s.store n
  else n

/-- One clock edge.  The serial outputs and the sample register have no reset. -/
def step (i : Input) (s : AdcQpdScanner) : AdcQpdScanner :=
  let (stateNext, countNext) := s.next i.reset
  let n := { s with
    state := stateNext
    count := countNext
    convst := decide (stateNext = .start)
    sck := decide (stateNext = .transfer) && !countNext.getLsbD 0
    sdi := decide (stateNext = .transfer) && (adccfg s.ch).getLsbD (countNext >>> 1).toNat
    sample :=
      if s.state = .transfer ∧ s.sck = false then (s.sample.setWidth 11).concat i.sdo
      else s.sample }
  s.quadrants i.reset stateNext (s.channels i.reset countNext n)

end AdcQpdScanner

end Scope.Native
