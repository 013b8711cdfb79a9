import Scope.ForStd.BitVec
import Scope.Native.LaserRx
import Scope.Native.Monitor
import Scope.Spec.Quadrants

/-!
# What the monitor program reads

The quadrant values come through the two packed ports unchanged, in the places
that the program's names suggest.  The offset does not: `dxdy` has its sign bits
at 21 and 9, with two zeros above each, and the program takes bits 23 and 11 for
the sign.

## Key results

- `PioReads.topLeft_toInt` and its siblings: which quadrant is where
- `PioReads.dx_toInt` / `PioReads.dy_toInt`: what is read for an offset
- `offset_decoded_iff`: when that is the offset
-/

namespace Scope.Native

open QpdState (Samples)

/-! ## The ports -/

/-- A PIO core returns its port in the low bits of the word that is read; nothing
    is said about the bits above the port. -/
structure PioReads (s : LaserRx) (r : Monitor.Readings) : Prop where
  qpdp1 : r.qpdp1.setWidth 24 = s.qpdp1Export
  qpdp2 : r.qpdp2.setWidth 24 = s.qpdp2Export
  dxdy : r.dxdy.setWidth 24 = s.dxdyExport
  status : r.status.setWidth 8 = s.statusExport

/-- What is read from a core that fills up with zeros. -/
def LaserRx.reads (s : LaserRx) : Monitor.Readings where
  qpdp1 := s.qpdp1Export.setWidth 32
  qpdp2 := s.qpdp2Export.setWidth 32
  dxdy := s.dxdyExport.setWidth 32
  status := s.statusExport.setWidth 32

/-- A core that fills up with zeros is one of them. -/
theorem LaserRx.pioReads_reads (s : LaserRx) : PioReads s s.reads where
  qpdp1 := by simp [reads]
  qpdp2 := by simp [reads]
  dxdy := by simp [reads]
  status := by simp [reads]

/-- The registers at power-up, all zero, but for the samples. -/
def LaserRx.holding (q : Samples) : LaserRx where
  qpdrd :=
    { state := .start, count := 0, convst := false, sck := false, sdi := false, ch := 0,
      prevch := 0, sample := 0, q0 := q.q0, q1 := q.q1, q2 := q.q2, q3 := q.q3 }
  r0 :=
    { qpd0 := .powerUp
      tx := { gen := { txTimer := 0, txPulse := false, settled := fun _ => rfl }
              ir0 := .powerUp } }

namespace Monitor.Readings

/-! ## Fields of a word -/

/-- The mask keeps the low twelve bits. -/
private theorem mask_eq (x : BitVec 32) : x &&& 0xFFF = (x.setWidth 12).setWidth 32 :=
  BitVec.and_mask (m := 12) (by decide) x

/-- What they hold is read as a natural number. -/
private theorem mask_toInt {x : BitVec 32} {a : BitVec 12} (h : x.setWidth 12 = a) :
    (x &&& 0xFFF).toInt = a.toNat := by
  have hlt := a.isLt
  rw [mask_eq, h, BitVec.toInt_eq_toNat_of_lt (by rw [BitVec.toNat_setWidth]; omega),
    BitVec.toNat_setWidth, Nat.mod_eq_of_lt (by omega)]

/-- The two shifts extend the sign of the low twelve bits. -/
private theorem signed12_toInt {x : BitVec 32} {a : BitVec 12} (h : x.setWidth 12 = a) :
    (signed12 x).toInt = a.toInt := by
  rw [signed12, BitVec.shiftLeft_sshiftRight (n := 12) (by decide) (by decide), h,
    BitVec.toInt_signExtend_of_le (by decide)]

/-- One half of `dxdy`. -/
def offsetField (x : BitVec 16) : BitVec 12 :=
  0#2 ++ x.extractLsb' 15 1 ++ x.extractLsb' 0 9

/-- `dxdy` is made of two such halves. -/
private theorem dxdy_fields (q : Samples) :
    q.dxdy = offsetField q.dxNum ++ offsetField q.dyNum := rfl

/-- The sign of a field is the upper one of its two zeros, so it is read as a natural
    number: the sign bit counts 512 up, not down. -/
private theorem offsetField_toInt (x : BitVec 16) :
    (offsetField x).toInt = (if x.toInt < 0 then 512 else 0) + x.toInt % 512 := by
  have hlt := x.isLt
  have hnat : (offsetField x).toNat = x.toNat / 32_768 * 512 + x.toNat % 512 := by
    simp only [offsetField, BitVec.toNat_append, BitVec.extractLsb'_toNat, BitVec.toNat_ofNat,
      Nat.shiftRight_eq_div_pow]
    rw [← Nat.shiftLeft_add_eq_or_of_lt (by omega), ← Nat.shiftLeft_add_eq_or_of_lt (by omega)]
    omega
  rw [BitVec.toInt_eq_toNat_of_lt (by omega), hnat, BitVec.toInt_eq_toNat_cond]
  split_ifs <;> omega

end Monitor.Readings

namespace PioReads

open Monitor.Readings

variable {s : LaserRx} {r : Monitor.Readings}

/-! ## Quadrants -/

/-- Top left is quadrant 3. -/
theorem topLeft_toInt (h : PioReads s r) : r.topLeft.toInt = s.samples.q3.toNat :=
  mask_toInt (BitVec.sshiftRight_of_packed (by decide) h.qpdp1)

theorem topRight_toInt (h : PioReads s r) : r.topRight.toInt = s.samples.q0.toNat :=
  mask_toInt (BitVec.setWidth_of_packed h.qpdp2)

theorem bottomLeft_toInt (h : PioReads s r) : r.bottomLeft.toInt = s.samples.q2.toNat :=
  mask_toInt (BitVec.setWidth_of_packed h.qpdp1)

theorem bottomRight_toInt (h : PioReads s r) : r.bottomRight.toInt = s.samples.q1.toNat :=
  mask_toInt (BitVec.sshiftRight_of_packed (by decide) h.qpdp2)

/-! ## Offset -/

/-- What is read for the horizontal offset. -/
theorem dx_toInt (h : PioReads s r) :
    r.dx.toInt = (if s.samples.dx < 0 then 512 else 0) + s.samples.dx % 512 := by
  have hport := h.dxdy.trans (dxdy_fields s.samples)
  have hfield : (r.dxdy.sshiftRight 12).setWidth 12 = offsetField s.samples.dxNum :=
    BitVec.sshiftRight_of_packed (by decide) hport
  rw [dx, signed12_toInt hfield, offsetField_toInt, QpdState.dxNum_toInt]

theorem dy_toInt (h : PioReads s r) :
    r.dy.toInt = (if s.samples.dy < 0 then 512 else 0) + s.samples.dy % 512 := by
  have hport := h.dxdy.trans (dxdy_fields s.samples)
  have hmask : (r.dxdy &&& 0xFFF).setWidth 12 = r.dxdy.setWidth 12 := by
    rw [mask_eq, BitVec.setWidth_setWidth_of_le _ (by decide), BitVec.setWidth_eq]
  have hfield : (r.dxdy &&& 0xFFF).setWidth 12 = offsetField s.samples.dyNum :=
    hmask.trans (BitVec.setWidth_of_packed hport)
  rw [dy, signed12_toInt hfield, offsetField_toInt, QpdState.dyNum_toInt]

/-- Nothing that is read for an offset is negative. -/
private theorem dx_nonneg (h : PioReads s r) : 0 ≤ r.dx.toInt := by
  rw [h.dx_toInt]
  omega

private theorem dy_nonneg (h : PioReads s r) : 0 ≤ r.dy.toInt := by
  rw [h.dy_toInt]
  omega

/-- Within the range of the field the offset comes through exactly if it is not negative:
    no less light on the right than on the left, and no less above than below. -/
theorem offset_decoded_iff (h : PioReads s r)
    (hx : -512 ≤ s.samples.dxNum.toInt ∧ s.samples.dxNum.toInt ≤ 511)
    (hy : -512 ≤ s.samples.dyNum.toInt ∧ s.samples.dyNum.toInt ≤ 511) :
    (r.dx.toInt = s.samples.dxNum.toInt ∧ r.dy.toInt = s.samples.dyNum.toInt) ↔
      s.samples.q2.toNat + s.samples.q3.toNat ≤ s.samples.q0.toNat + s.samples.q1.toNat ∧
      s.samples.q1.toNat + s.samples.q2.toNat ≤ s.samples.q0.toNat + s.samples.q3.toNat := by
  have hdx0 := h.dx_nonneg
  have hdy0 := h.dy_nonneg
  rw [QpdState.dxNum_toInt] at hx ⊢
  rw [QpdState.dyNum_toInt] at hy ⊢
  have hdx : s.samples.dx = (s.samples.q0.toNat + s.samples.q1.toNat) -
    (s.samples.q2.toNat + s.samples.q3.toNat) := rfl
  have hdy : s.samples.dy = (s.samples.q0.toNat + s.samples.q3.toNat) -
    (s.samples.q1.toNat + s.samples.q2.toNat) := rfl
  constructor
  · rintro ⟨hx', hy'⟩
    constructor
    · omega
    · omega
  · rintro ⟨hright, habove⟩
    rw [h.dx_toInt, h.dy_toInt, if_neg (by omega), if_neg (by omega)]
    omega

/-- More light in the upper right quadrant than in the others. -/
def upperRight : LaserRx := .holding ⟨120, 30, 20, 10⟩

/-- Its offset is read as it is. -/
theorem offset_of_upperRight :
    upperRight.reads.dx.toInt = upperRight.samples.dxNum.toInt ∧
      upperRight.reads.dy.toInt = upperRight.samples.dyNum.toInt :=
  (offset_decoded_iff upperRight.pioReads_reads (by decide) (by decide)).mpr (by decide)

/-- A little light in the lower left quadrant. -/
def lowerLeft : LaserRx := .holding ⟨0, 0, 1, 0⟩

/-- Its offset -1 is read as 1023. -/
theorem offset_of_lowerLeft :
    PioReads lowerLeft lowerLeft.reads ∧
      lowerLeft.samples.dxNum.toInt = -1 ∧ lowerLeft.samples.dyNum.toInt = -1 ∧
      lowerLeft.reads.dx.toInt = 1_023 ∧ lowerLeft.reads.dy.toInt = 1_023 :=
  ⟨lowerLeft.pioReads_reads, by decide, by decide, by decide, by decide⟩

end PioReads

end Scope.Native
