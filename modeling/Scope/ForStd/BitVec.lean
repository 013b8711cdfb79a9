import Mathlib.Data.BitVec

/-!
# Counters, shift registers and packed words of fixed width

When a counter register does not wrap, adding or subtracting one is what it is
on numbers.  A shift register that takes in the bits of a word, most significant
first, holds the top bits of the word until it holds all of it.  A packed word is
taken apart by shifts and masks.
-/

namespace BitVec

theorem toNat_add_one {w : ℕ} {x : BitVec w} (h : x.toNat + 1 < 2 ^ w) :
    (x + 1).toNat = x.toNat + 1 := by
  have h1 : (1 : BitVec w).toNat = 1 := by
    show 1 % 2 ^ w = 1
    exact Nat.mod_eq_of_lt (by omega)
  rw [BitVec.toNat_add, h1, Nat.mod_eq_of_lt h]

theorem toNat_sub_one {w : ℕ} {x : BitVec w} (h : 0 < x.toNat) :
    (x - 1).toNat = x.toNat - 1 := by
  have hlt := x.isLt
  have h1 : (1 : BitVec w).toNat = 1 := by
    show 1 % 2 ^ w = 1
    exact Nat.mod_eq_of_lt (by omega)
  rw [BitVec.toNat_sub_of_le (by rw [BitVec.le_def]; omega), h1]

/-- A 16-bit signed register below its largest value counts up. -/
theorem toInt_add_one {x : BitVec 16} (h : x.toInt < 32767) : (x + 1).toInt = x.toInt + 1 := by
  have hle := x.le_toInt
  have h1 : (1 : BitVec 16).toInt = 1 := rfl
  rw [BitVec.toInt_add, h1, Int.bmod_def]
  omega

/-- A 16-bit signed register above its smallest value counts down. -/
theorem toInt_sub_one {x : BitVec 16} (h : -32768 < x.toInt) : (x - 1).toInt = x.toInt - 1 := by
  have hlt := x.toInt_lt
  have h1 : (1 : BitVec 16).toInt = 1 := rfl
  rw [BitVec.toInt_sub, h1, Int.bmod_def]
  omega

/-! ## Shift registers -/

/-- Shift left by one and put `b` into the lowest bit. -/
def shiftIn {w : ℕ} (x : BitVec (w + 1)) (b : Bool) : BitVec (w + 1) := (x.setWidth w).concat b

/-- The new bit comes in at the bottom, the others move up. -/
theorem getLsbD_shiftIn {w : ℕ} (x : BitVec (w + 1)) (b : Bool) (i : ℕ) :
    (shiftIn x b).getLsbD i = if i = 0 then b else decide (i < w + 1) && x.getLsbD (i - 1) := by
  rw [shiftIn, BitVec.getLsbD_concat]
  split
  · rfl
  · rw [BitVec.getLsbD_setWidth]
    congr 1
    exact decide_eq_decide.mpr (by omega)

/-- The low `j` bits of `x` are the top `j` bits of `v`. -/
def TopBits {w n : ℕ} (x : BitVec w) (v : BitVec n) (j : ℕ) : Prop :=
  ∀ b < j, x.getLsbD b = v.getLsbD (n - j + b)

/-- Nothing has been taken in yet. -/
theorem TopBits.zero {w n : ℕ} (x : BitVec w) (v : BitVec n) : TopBits x v 0 :=
  fun _ h => absurd h (Nat.not_lt_zero _)

/-- Taking in the next bit of `v`. -/
theorem TopBits.shiftIn {w n j : ℕ} {x : BitVec (w + 1)} {v : BitVec n} {b : Bool}
    (h : TopBits x v j) (hj : j < n) (hw : j < w + 1) (hb : b = v.getLsbD (n - 1 - j)) :
    TopBits (BitVec.shiftIn x b) v (j + 1) := by
  intro i hi
  rw [getLsbD_shiftIn]
  rcases Nat.eq_zero_or_pos i with rfl | hpos
  · rw [if_pos rfl, hb]
    congr 1
    omega
  · rw [if_neg (by omega), h (i - 1) (by omega), decide_eq_true (by omega), Bool.true_and]
    congr 1
    omega

/-- When all bits are in, the register holds the word. -/
theorem TopBits.eq {n : ℕ} {x v : BitVec n} (h : TopBits x v n) : x = v := by
  apply BitVec.eq_of_getLsbD_eq
  intro i hi
  rw [h i hi]
  congr 1
  omega

/-! ## Packed words -/

section Packed

variable {n m w : ℕ} {x : BitVec w} {a : BitVec n} {b : BitVec m}

/-- A mask of `m` ones keeps the low `m` bits. -/
theorem and_mask (hw : m ≤ w) (x : BitVec w) :
    x &&& BitVec.ofNat w (2 ^ m - 1) = (x.setWidth m).setWidth w := by
  have hle : 2 ^ m ≤ 2 ^ w := Nat.pow_le_pow_right (by decide) hw
  have hpos : 0 < 2 ^ m := Nat.two_pow_pos m
  have hlt : x.toNat % 2 ^ m < 2 ^ m := Nat.mod_lt _ hpos
  apply BitVec.eq_of_toNat_eq
  rw [BitVec.toNat_and, BitVec.toNat_ofNat, Nat.mod_eq_of_lt (by omega),
    Nat.and_two_pow_sub_one_eq_mod, BitVec.toNat_setWidth, BitVec.toNat_setWidth,
    Nat.mod_eq_of_lt (by omega : x.toNat % 2 ^ m < 2 ^ w)]

/-- The low half of a word that packs `a` above `b`. -/
theorem setWidth_of_packed (h : x.setWidth (n + m) = a ++ b) : x.setWidth m = b := by
  rw [← BitVec.setWidth_setWidth_of_le x (Nat.le_add_left m n), h]
  apply BitVec.eq_of_getLsbD_eq
  intro i hi
  simp [BitVec.getLsbD_append, hi]

/-- The high half of a word that packs `a` above `b`. -/
theorem sshiftRight_of_packed (hw : n + m ≤ w) (h : x.setWidth (n + m) = a ++ b) :
    (x.sshiftRight m).setWidth n = a := by
  apply BitVec.eq_of_getLsbD_eq
  intro i hi
  have hbit : (x.setWidth (n + m)).getLsbD (m + i) = (a ++ b).getLsbD (m + i) := by rw [h]
  rw [BitVec.getLsbD_setWidth, BitVec.getLsbD_append] at hbit
  rw [BitVec.getLsbD_setWidth, BitVec.getLsbD_sshiftRight]
  simpa [hi, show m + i < n + m by omega, show m + i < w by omega, show ¬ w ≤ i by omega,
    show ¬ m + i < m by omega] using hbit

/-- Shifting up and back down keeps the low bits and repeats the highest of them. -/
theorem shiftLeft_sshiftRight (hw : n + m = w) (hn : 0 < n) (x : BitVec w) :
    (x <<< m).sshiftRight m = (x.setWidth n).signExtend w := by
  apply BitVec.eq_of_getLsbD_eq
  intro i hi
  rw [BitVec.getLsbD_sshiftRight, BitVec.getLsbD_signExtend]
  by_cases h : i < n
  · simp [h, hi, show m + i < w by omega, show ¬ w ≤ i by omega]
  · have htop : (x <<< m).msb = (x.setWidth n).msb := by
      rw [BitVec.msb_shiftLeft, BitVec.msb_setWidth, BitVec.getMsbD]
      simp [show m < w by omega, show w - 1 - m = n - 1 by omega, hn]
    simp [h, hi, htop, show ¬ w ≤ i by omega, show ¬ m + i < w by omega]

end Packed

end BitVec
