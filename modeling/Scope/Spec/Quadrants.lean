import Scope.Native.RxState

/-!
# The command bits of the quadrant photodiode

The classifier compares sums of 12-bit samples in 16-bit signed arithmetic.  No
sum leaves the 16 bits, so the bits of the command are comparisons of integers.

## Key results

- `dxNum_toInt` / `dyNum_toInt` / `sum_toInt` / `abs16_toInt`: no overflow
- `step_horizontal` / `step_vertical`: the command bits one clock later
- `data_bits`: where they are in the byte for the transmitter
-/

namespace Scope.Native.QpdState

/-- `(q0 + q1) - (q2 + q3)` as an integer. -/
def Samples.dx (q : Samples) : ℤ := (q.q0.toNat + q.q1.toNat) - (q.q2.toNat + q.q3.toNat)

/-- `(q0 + q3) - (q1 + q2)` as an integer. -/
def Samples.dy (q : Samples) : ℤ := (q.q0.toNat + q.q3.toNat) - (q.q1.toNat + q.q2.toNat)

/-- A sample is not negative. -/
private theorem setWidth_toInt (x : BitVec 12) : (x.setWidth 16).toInt = x.toNat := by
  have h := x.isLt
  rw [BitVec.toInt_eq_toNat_of_lt (by rw [BitVec.toNat_setWidth]; omega), BitVec.toNat_setWidth,
    Nat.mod_eq_of_lt (by omega)]

/-- Two samples add up without overflow. -/
private theorem add_toInt (x y : BitVec 12) :
    (x.setWidth 16 + y.setWidth 16).toInt = x.toNat + y.toNat := by
  have hx := x.isLt
  have hy := y.isLt
  rw [BitVec.toInt_add, setWidth_toInt, setWidth_toInt, Int.bmod_def]
  omega

/-- The difference of two sums fits as well. -/
private theorem sub_toInt (a b c d : BitVec 12) :
    ((a.setWidth 16 + b.setWidth 16) - (c.setWidth 16 + d.setWidth 16)).toInt =
      (a.toNat + b.toNat) - (c.toNat + d.toNat) := by
  have ha := a.isLt
  have hb := b.isLt
  have hc := c.isLt
  have hd := d.isLt
  rw [BitVec.toInt_sub, add_toInt, add_toInt, Int.bmod_def]
  omega

/-- `dx_num` is the horizontal difference. -/
theorem dxNum_toInt (q : Samples) : q.dxNum.toInt = q.dx := sub_toInt q.q0 q.q1 q.q2 q.q3

theorem dyNum_toInt (q : Samples) : q.dyNum.toInt = q.dy := sub_toInt q.q0 q.q3 q.q1 q.q2

/-- `sum` is the light of all quadrants. -/
theorem sum_toInt (q : Samples) :
    q.sum.toInt = q.q0.toNat + q.q1.toNat + q.q2.toNat + q.q3.toNat := by
  have h0 := q.q0.isLt
  have h1 := q.q1.isLt
  have h2 := q.q2.isLt
  have h3 := q.q3.isLt
  have h012 : (q.q0.setWidth 16 + q.q1.setWidth 16 + q.q2.setWidth 16).toInt =
      q.q0.toNat + q.q1.toNat + q.q2.toNat := by
    rw [BitVec.toInt_add, add_toInt, setWidth_toInt, Int.bmod_def]
    omega
  rw [Samples.sum, BitVec.toInt_add, h012, setWidth_toInt, Int.bmod_def]
  omega

/-- The differences are far from the one value that has no absolute value. -/
theorem abs16_toInt {x : BitVec 16} (h : -32_768 < x.toInt) : (abs16 x).toInt = |x.toInt| := by
  have hlt := x.toInt_lt
  have hmsb : x.getLsbD 15 = decide (x.toInt < 0) := by
    rw [← BitVec.msb_eq_toInt, BitVec.msb_eq_getLsbD_last]
  unfold abs16
  rw [hmsb]
  by_cases hneg : x.toInt < 0
  · rw [decide_eq_true hneg, if_pos rfl, BitVec.toInt_neg, abs_of_neg hneg, Int.bmod_def]
    omega
  · rw [decide_eq_false hneg, if_neg (by simp), abs_of_nonneg (by omega)]

/-- Two samples less two others fit in 14 bits. -/
private theorem sub_bounds (a b c d : BitVec 12) :
    -8_190 ≤ (a.toNat + b.toNat : ℤ) - (c.toNat + d.toNat) ∧
      (a.toNat + b.toNat : ℤ) - (c.toNat + d.toNat) ≤ 8_190 := by
  have ha := a.isLt
  have hb := b.isLt
  have hc := c.isLt
  have hd := d.isLt
  omega

/-- The horizontal difference does. -/
theorem dx_bounds (q : Samples) : -8_190 ≤ q.dx ∧ q.dx ≤ 8_190 := sub_bounds q.q0 q.q1 q.q2 q.q3

theorem dy_bounds (q : Samples) : -8_190 ≤ q.dy ∧ q.dy ≤ 8_190 := sub_bounds q.q0 q.q3 q.q1 q.q2

/-! ## The command one clock later -/

/-- The confidence logic leaves the directions alone. -/
private theorem confidence_moves (reset : Bool) (q : Samples) (s n : QpdState) :
    (s.confidence reset q n).dirX = n.dirX ∧ (s.confidence reset q n).dirY = n.dirY := by
  unfold confidence
  split_ifs <;> exact ⟨rfl, rfl⟩

/-- The horizontal bits: outside the threshold the direction follows the sign,
    inside it keeps its value. -/
theorem step_horizontal (reset : Bool) (q : Samples) (s : QpdState) :
    (s.step reset q).moveX = decide (q.dx > 350 ∨ q.dx < -350) ∧
      (s.step reset q).dirX =
        if q.dx > 350 then true else if q.dx < -350 then false else s.dirX := by
  have hkeep := (confidence_moves reset q s s).1
  simp only [step, moveVertical, moveHorizontal, dxNum_toInt, dyNum_toInt, moveThresh]
  split_ifs <;> simp_all

/-- The vertical bits of a step. -/
theorem step_vertical (reset : Bool) (q : Samples) (s : QpdState) :
    (s.step reset q).moveY = decide (q.dy > 350 ∨ q.dy < -350) ∧
      (s.step reset q).dirY =
        if q.dy > 350 then true else if q.dy < -350 then false else s.dirY := by
  have hkeep := (confidence_moves reset q s s).2
  simp only [step, moveVertical, moveHorizontal, dxNum_toInt, dyNum_toInt, moveThresh]
  split_ifs <;> simp_all

/-- The five bits in the byte for the transmitter. -/
theorem data_bits (x : RxState) :
    x.data.getLsbD 0 = x.qpd0.moveX ∧ x.data.getLsbD 1 = x.qpd0.dirX ∧
      x.data.getLsbD 2 = x.qpd0.moveY ∧ x.data.getLsbD 3 = x.qpd0.dirY ∧
      x.data.getLsbD 4 = x.qpd0.onTarget := by
  unfold RxState.data moveCom
  generalize x.qpd0.onTarget = e, x.qpd0.dirY = d, x.qpd0.moveY = c, x.qpd0.dirX = b,
    x.qpd0.moveX = a
  revert a b c d e
  decide

end Scope.Native.QpdState
