import Scope.ForStd.Text

/-!
# Monitor program

Model of `main.c`, the program of the processor system on the receiver board: it
reads four ports and prints a line for each pass of its loop.  `int` has 32 bits,
and `>>` of an `int` keeps the sign.
-/

namespace Scope.Native

namespace Monitor

/-- What the four reads of one pass return. -/
structure Readings where
  qpdp1 : BitVec 32
  qpdp2 : BitVec 32
  dxdy : BitVec 32
  status : BitVec 32
  deriving DecidableEq, Repr

namespace Readings

/-! ## QPD ADC values -/

def topLeft (r : Readings) : BitVec 32 := r.qpdp1.sshiftRight 12 &&& 0xFFF
def topRight (r : Readings) : BitVec 32 := r.qpdp2 &&& 0xFFF
def bottomLeft (r : Readings) : BitVec 32 := r.qpdp1 &&& 0xFFF
def bottomRight (r : Readings) : BitVec 32 := r.qpdp2.sshiftRight 12 &&& 0xFFF

/-! ## Offset -/

/-- `(x << 20) >> 20`: the sign is bit 11. -/
def signed12 (x : BitVec 32) : BitVec 32 := (x <<< 20).sshiftRight 20

def dx (r : Readings) : BitVec 32 := signed12 (r.dxdy.sshiftRight 12)
def dy (r : Readings) : BitVec 32 := signed12 (r.dxdy &&& 0xFFF)

/-! ## Status -/

def targetEn (r : Readings) : Bool := r.status &&& 0x02 ≠ 0
def mstepEn (r : Readings) : Bool := r.status &&& 0x01 ≠ 0

end Readings

open Text

/-- The conversion `%<width>d`. -/
def padded (width : ℕ) (x : BitVec 32) : List Char := (decimal x.toInt).leftpad width ' '

def onOff (b : Bool) : List Char := if b then ['O', 'N'] else ['O', 'F', 'F']

/-- Printed once, in front of the loop, up to the end of the line. -/
def heading : List Char := "TL\tTR\tBL\tBR\tDX\tDY\tTarget\tM-Step".toList

/-- What is printed in one pass, up to the end of the line:
    `"%4d\t%4d\t%4d\t%4d\t%5d\t%5d\t%s\t%s"`. -/
def row (r : Readings) : List Char :=
  ['\t'].intercalate [padded 4 r.topLeft, padded 4 r.topRight, padded 4 r.bottomLeft,
    padded 4 r.bottomRight, padded 5 r.dx, padded 5 r.dy, onOff r.targetEn, onOff r.mstepEn]

end Monitor

end Scope.Native
