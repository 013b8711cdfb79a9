import Mathlib.Data.BitVec

/-!
# Clock divider

`clkdiv #(fin, fout)`: a down-counter that reloads `divider = fin/fout/2 - 1`
and flips its output whenever it passes zero.
-/

namespace Scope.Native

/-- `localparam divider = fin / fout / 2 - 1`. -/
def divider (fin fout : ℕ) : ℕ := fin / fout / 2 - 1

/-- The registers of `clkdiv`; the counter has `w = $clog2(divider) + 1` bits. -/
structure ClkDiv (w : ℕ) where
  count : BitVec w
  clkout : Bool
  deriving DecidableEq, Repr

/-- One edge of `clkin`. -/
def ClkDiv.step {w : ℕ} (divider : ℕ) (s : ClkDiv w) : ClkDiv w where
  count := if s.count = 0 then BitVec.ofNat w divider else s.count - 1
  clkout := if s.count = 0 then !s.clkout else s.clkout

end Scope.Native
