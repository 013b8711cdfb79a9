import Mathlib.Algebra.Order.Ring.Int
import Mathlib.Tactic.Linarith
import Mathlib.Tactic.Ring

/-!
# The square spiral

A path in the plane that winds outwards around its start in straight legs: right,
up, left, down and again, every second leg longer than the one before by the
distance `d` between two windings.  Legs and steps are counted from 0.

## Key results

- `Spot.cell_next`: a step moves one unit in the direction of the leg
- `Spot.cell_injective`: the path never returns to a point
- `point_bounds`: how far out a leg is
- `exists_near`: behind a winding, every cell of the square is near the path
-/

namespace SquareSpiral

variable {d : ℕ}

/-! ## Legs -/

/-- The number of steps of leg `l`. -/
def legLength (d l : ℕ) : ℕ := d * (l / 2 + 1)

/-- The number of steps in front of leg `l`. -/
def legStart (d : ℕ) : ℕ → ℕ
  | 0 => 0
  | l + 1 => legStart d l + legLength d l

/-- One step in direction `n`. -/
def heading : ℕ → ℤ × ℤ
  | 0 => (1, 0)
  | 1 => (0, 1)
  | 2 => (-1, 0)
  | _ => (0, -1)

/-- How far out the winding of leg `l` starts. -/
def radius (d l : ℕ) : ℕ := d * (l / 4)

/-- The point `o` steps into leg `l`. -/
def point (d l o : ℕ) : ℤ × ℤ :=
  match l % 4 with
  | 0 => (o - radius d l, -radius d l)
  | 1 => (radius d l + d, o - radius d l)
  | 2 => (radius d l + d - o, radius d l + d)
  | _ => (-radius d l - d, radius d l + d - o)

/-- Later legs start later. -/
theorem legStart_mono {l m : ℕ} (h : l ≤ m) : legStart d l ≤ legStart d m := by
  induction m, h using Nat.le_induction with
  | base => exact le_rfl
  | succ m _ ih => exact ih.trans (Nat.le_add_right _ _)

/-- There are two legs of each length. -/
theorem legStart_even (d k : ℕ) : legStart d (2 * k) = d * (k * (k + 1)) := by
  induction k with
  | zero => rfl
  | succ k ih =>
    rw [show 2 * (k + 1) = 2 * k + 1 + 1 by omega, legStart, legStart, ih, legLength, legLength,
      show 2 * k / 2 = k by omega, show (2 * k + 1) / 2 = k by omega]
    ring

/-! The four legs of winding `q`. -/

/-- A leg goes right, up, left or down. -/
private theorem leg_cases (l : ℕ) :
    ∃ q, l = 4 * q ∨ l = 4 * q + 1 ∨ l = 4 * q + 2 ∨ l = 4 * q + 3 :=
  ⟨l / 4, by omega⟩

private theorem point_right (d q o : ℕ) : point d (4 * q) o = ((o : ℤ) - d * q, -(d * q : ℤ)) := by
  rw [point, radius, show 4 * q / 4 = q by omega, show 4 * q % 4 = 0 by omega]
  push_cast
  rfl

private theorem point_up (d q o : ℕ) : point d (4 * q + 1) o =
    ((d : ℤ) * q + d, (o : ℤ) - d * q) := by
  rw [point, radius, show (4 * q + 1) / 4 = q by omega, show (4 * q + 1) % 4 = 1 by omega]
  push_cast
  rfl

private theorem point_left (d q o : ℕ) : point d (4 * q + 2) o =
    ((d : ℤ) * q + d - o, (d : ℤ) * q + d) := by
  rw [point, radius, show (4 * q + 2) / 4 = q by omega, show (4 * q + 2) % 4 = 2 by omega]
  push_cast
  rfl

private theorem point_down (d q o : ℕ) : point d (4 * q + 3) o =
    (-(d * q : ℤ) - d, (d : ℤ) * q + d - o) := by
  rw [point, radius, show (4 * q + 3) / 4 = q by omega, show (4 * q + 3) % 4 = 3 by omega]
  push_cast
  rfl

/-- The length depends on the number of pairs of legs in front of it. -/
private theorem legLength_of_half {l h : ℕ} (hl : l / 2 = h) : legLength d l = d * h + d := by
  rw [legLength, hl, Nat.mul_succ]

private theorem legLength_right (d q : ℕ) : legLength d (4 * q) = 2 * (d * q) + d := by
  rw [legLength_of_half (show 4 * q / 2 = 2 * q by omega), Nat.mul_left_comm]

private theorem legLength_up (d q : ℕ) : legLength d (4 * q + 1) = 2 * (d * q) + d := by
  rw [legLength_of_half (show (4 * q + 1) / 2 = 2 * q by omega), Nat.mul_left_comm]

private theorem legLength_left (d q : ℕ) : legLength d (4 * q + 2) = 2 * (d * q) + d + d := by
  rw [legLength_of_half (show (4 * q + 2) / 2 = 2 * q + 1 by omega), Nat.mul_succ,
    Nat.mul_left_comm]

private theorem legLength_down (d q : ℕ) : legLength d (4 * q + 3) = 2 * (d * q) + d + d := by
  rw [legLength_of_half (show (4 * q + 3) / 2 = 2 * q + 1 by omega), Nat.mul_succ,
    Nat.mul_left_comm]

/-- Later windings are further out. -/
private theorem radius_lt {q q' : ℕ} (h : q < q') : d * q + d ≤ d * q' := by
  have := Nat.mul_le_mul_left d (Nat.succ_le_of_lt h)
  rwa [Nat.mul_succ] at this

/-- A leg ends where the next one starts. -/
private theorem point_legLength (d l : ℕ) : point d l (legLength d l) = point d (l + 1) 0 := by
  obtain ⟨q, rfl | rfl | rfl | rfl⟩ := leg_cases l
  · rw [legLength_right, point_right, point_up, Prod.mk.injEq]
    omega
  · rw [legLength_up, point_up, point_left, Prod.mk.injEq]
    omega
  · rw [legLength_left, point_left, point_down, Prod.mk.injEq]
    omega
  · rw [legLength_down, point_down, show 4 * q + 3 + 1 = 4 * (q + 1) by omega, point_right,
      Prod.mk.injEq, show (d : ℤ) * ((q + 1 : ℕ) : ℤ) = d * q + d by push_cast; ring]
    omega

/-- Each step of a leg goes in its direction. -/
private theorem point_succ (d l o : ℕ) : point d l (o + 1) = point d l o + heading (l % 4) := by
  obtain ⟨q, rfl | rfl | rfl | rfl⟩ := leg_cases l
  · rw [point_right, point_right, show 4 * q % 4 = 0 by omega, heading, Prod.mk_add_mk,
      Prod.mk.injEq]
    omega
  · rw [point_up, point_up, show (4 * q + 1) % 4 = 1 by omega, heading, Prod.mk_add_mk,
      Prod.mk.injEq]
    omega
  · rw [point_left, point_left, show (4 * q + 2) % 4 = 2 by omega, heading, Prod.mk_add_mk,
      Prod.mk.injEq]
    omega
  · rw [point_down, point_down, show (4 * q + 3) % 4 = 3 by omega, heading, Prod.mk_add_mk,
      Prod.mk.injEq]
    · omega
    all_goals decide

/-- A leg stays within the square that its winding closes. -/
theorem point_bounds {l o : ℕ} (h : o ≤ legLength d l) :
    |(point d l o).1| ≤ radius d l + d ∧ |(point d l o).2| ≤ radius d l + d := by
  obtain ⟨q, rfl | rfl | rfl | rfl⟩ := leg_cases l
  · rw [legLength_right] at h
    rw [point_right, radius, show 4 * q / 4 = q by omega, abs_le, abs_le]
    push_cast
    omega
  · rw [legLength_up] at h
    rw [point_up, radius, show (4 * q + 1) / 4 = q by omega, abs_le, abs_le]
    push_cast
    omega
  · rw [legLength_left] at h
    rw [point_left, radius, show (4 * q + 2) / 4 = q by omega, abs_le, abs_le]
    push_cast
    omega
  · rw [legLength_down] at h
    rw [point_down, radius, show (4 * q + 3) / 4 = q by omega, abs_le, abs_le]
    push_cast
    omega

/-! ## Spots on the spiral -/

/-- A place on the spiral: `offset` steps into a leg, and not yet at its end. -/
structure Spot (d : ℕ) where
  leg : ℕ
  offset : ℕ
  inside : offset < legLength d leg

namespace Spot

/-- The number of steps taken. -/
def index (s : Spot d) : ℕ := legStart d s.leg + s.offset

/-- The cell of the plane. -/
def cell (s : Spot d) : ℤ × ℤ := point d s.leg s.offset

theorem pos (s : Spot d) : 0 < d := by
  have := s.inside
  rw [legLength] at this
  exact Nat.pos_of_mul_pos_right (Nat.zero_lt_of_lt this)

/-- One step on. -/
def next (s : Spot d) : Spot d :=
  if h : s.offset + 1 < legLength d s.leg then ⟨s.leg, s.offset + 1, h⟩
  else ⟨s.leg + 1, 0, Nat.mul_pos s.pos (Nat.succ_pos _)⟩

/-- A step counts one. -/
theorem index_next (s : Spot d) : s.next.index = s.index + 1 := by
  have := s.inside
  unfold next index
  split_ifs with h
  · rfl
  · show legStart d s.leg + legLength d s.leg + 0 = legStart d s.leg + s.offset + 1
    omega

/-- A step goes one cell on in the direction of the leg. -/
theorem cell_next (s : Spot d) : s.next.cell = s.cell + heading (s.leg % 4) := by
  have hin := s.inside
  rw [cell, cell, ← point_succ]
  unfold next
  split_ifs with h
  · rfl
  · rw [show s.offset + 1 = legLength d s.leg by omega, point_legLength]

/-- A spot is determined by the steps taken so far. -/
theorem ext_index {s t : Spot d} (h : s.index = t.index) : s = t := by
  have hs := s.inside
  have ht := t.inside
  have hleg : ∀ {a b : Spot d}, a.leg < b.leg → a.index < b.index := by
    intro a b hab
    have hmono := legStart_mono (d := d) (Nat.succ_le_of_lt hab)
    have ha := a.inside
    rw [Nat.succ_eq_add_one, legStart] at hmono
    unfold index
    omega
  obtain ⟨l, o, _⟩ := s
  obtain ⟨m, p, _⟩ := t
  rcases Nat.lt_trichotomy l m with hlt | rfl | hgt
  · exact absurd h (hleg hlt).ne
  · obtain rfl : o = p := Nat.add_left_cancel h
    rfl
  · exact absurd h (hleg hgt).ne'

/-- The path never returns to a cell. -/
theorem cell_injective {s t : Spot d} (h : s.cell = t.cell) : s = t := by
  obtain ⟨l, o, ho⟩ := s
  obtain ⟨m, p, hp⟩ := t
  have hd : 0 < d := pos ⟨l, o, ho⟩
  simp only [cell] at h
  suffices l = m ∧ o = p by
    obtain ⟨rfl, rfl⟩ := this
    rfl
  obtain ⟨q, hl⟩ := leg_cases l
  obtain ⟨r, hm⟩ := leg_cases m
  -- spots in different windings are told apart by the radius
  have hlt : q < r → (d : ℤ) * q + d ≤ d * r := fun hqr => by exact_mod_cast radius_lt (d := d) hqr
  have hgt : r < q → (d : ℤ) * r + d ≤ d * q := fun hqr => by exact_mod_cast radius_lt (d := d) hqr
  rcases Nat.lt_trichotomy q r with hqr | rfl | hqr
  all_goals
    rcases hl with rfl | rfl | rfl | rfl <;> rcases hm with rfl | rfl | rfl | rfl <;>
      simp only [legLength_right, legLength_up, legLength_left, legLength_down, point_right,
        point_up, point_left, point_down, Prod.mk.injEq] at h ho hp <;>
      omega

end Spot

/-! ## Coverage -/

/-- The end of a leg is a spot too: the first one of the next leg. -/
private theorem exists_spot (hd : 0 < d) {l o : ℕ} (h : o ≤ legLength d l) :
    ∃ s : Spot d, s.cell = point d l o ∧ s.index ≤ legStart d (l + 1) := by
  by_cases hlt : o < legLength d l
  · exact ⟨⟨l, o, hlt⟩, rfl, Nat.add_le_add_left h _⟩
  · obtain rfl : o = legLength d l := by omega
    exact ⟨⟨l + 1, 0, Nat.mul_pos hd (Nat.succ_pos _)⟩, (point_legLength d l).symm, le_rfl⟩

/-- Behind winding `n` every `d`-th cell of the square is on the path, apart from
    those of the bottom row. -/
private theorem exists_spot_lattice (hd : 0 < d) {n : ℕ} {a b : ℤ} (ha : -n ≤ a) (ha' : a ≤ n)
    (hb : 1 - n ≤ b) (hb' : b ≤ n) :
    ∃ s : Spot d, s.cell = (d * a, d * b) ∧ s.index ≤ legStart d (4 * n) := by
  -- it is enough to find the leg
  suffices h : ∃ l k, l < 4 * n ∧ d * k ≤ legLength d l ∧ point d l (d * k) = (d * a, d * b) by
    obtain ⟨l, k, hl, hk, hp⟩ := h
    obtain ⟨s, hs, hi⟩ := exists_spot hd hk
    exact ⟨s, hs.trans hp, hi.trans (legStart_mono hl)⟩
  have hle : ∀ {k m : ℕ}, k ≤ m → d * k ≤ d * m := fun h => Nat.mul_le_mul_left d h
  -- column `a = q + 1`: the leg upwards of winding `q`
  by_cases hright : 1 ≤ a ∧ 1 - a ≤ b ∧ b ≤ a
  · obtain ⟨q, hq⟩ : ∃ q : ℕ, a = q + 1 := ⟨(a - 1).toNat, by omega⟩
    obtain ⟨k, hk⟩ : ∃ k : ℕ, b = k - q := ⟨(b + q).toNat, by omega⟩
    refine ⟨4 * q + 1, k, by omega, ?_, ?_⟩
    · have := hle (show k ≤ 2 * q + 1 by omega)
      rw [legLength_up]
      linarith [Nat.mul_left_comm d 2 q, Nat.mul_succ d (2 * q)]
    · rw [point_up, hq, hk, Prod.mk.injEq]
      push_cast
      constructor <;> ring
  -- row `b = q + 1`: the leg to the left
  by_cases hup : 1 ≤ b ∧ -b ≤ a ∧ a ≤ b
  · obtain ⟨q, hq⟩ : ∃ q : ℕ, b = q + 1 := ⟨(b - 1).toNat, by omega⟩
    obtain ⟨k, hk⟩ : ∃ k : ℕ, a = q + 1 - k := ⟨(b - a).toNat, by omega⟩
    refine ⟨4 * q + 2, k, by omega, ?_, ?_⟩
    · have := hle (show k ≤ 2 * q + 2 by omega)
      rw [legLength_left]
      linarith [Nat.mul_left_comm d 2 q, Nat.mul_add d (2 * q) 2]
    · rw [point_left, hq, hk, Prod.mk.injEq]
      push_cast
      constructor <;> ring
  -- column `a = -(q + 1)`: the leg downwards
  by_cases hleft : a ≤ -1 ∧ a ≤ b ∧ b ≤ -a
  · obtain ⟨q, hq⟩ : ∃ q : ℕ, a = -q - 1 := ⟨(-a - 1).toNat, by omega⟩
    obtain ⟨k, hk⟩ : ∃ k : ℕ, b = q + 1 - k := ⟨(-a - b).toNat, by omega⟩
    refine ⟨4 * q + 3, k, by omega, ?_, ?_⟩
    · have := hle (show k ≤ 2 * q + 2 by omega)
      rw [legLength_down]
      linarith [Nat.mul_left_comm d 2 q, Nat.mul_add d (2 * q) 2]
    · rw [point_down, hq, hk, Prod.mk.injEq]
      push_cast
      constructor <;> ring
  -- row `b = -q`: the leg to the right
  · obtain ⟨q, hq⟩ : ∃ q : ℕ, b = -q := ⟨(-b).toNat, by omega⟩
    obtain ⟨k, hk⟩ : ∃ k : ℕ, a = k - q := ⟨(a - b).toNat, by omega⟩
    refine ⟨4 * q, k, by omega, ?_, ?_⟩
    · have := hle (show k ≤ 2 * q + 1 by omega)
      rw [legLength_right]
      linarith [Nat.mul_left_comm d 2 q, Nat.mul_succ d (2 * q)]
    · rw [point_right, hq, hk, Prod.mk.injEq]
      push_cast
      constructor <;> ring

/-- The multiple of `d` next to a number. -/
private theorem exists_multiple (hd : 0 < d) {lo hi i : ℤ} (hlo : d * lo ≤ i) (hhi : i ≤ d * hi) :
    ∃ a : ℤ, lo ≤ a ∧ a ≤ hi ∧ |i - d * a| ≤ d / 2 := by
  have hd' : (0 : ℤ) < d := by exact_mod_cast hd
  have hle := Int.mul_ediv_self_le (x := i + d / 2) hd'.ne'
  have hlt := Int.lt_mul_ediv_self_add (x := i + d / 2) hd'
  refine ⟨(i + d / 2) / d, ?_, ?_, ?_⟩
  · rw [Int.le_ediv_iff_mul_le hd', mul_comm]
    omega
  · rw [← Int.lt_add_one_iff, Int.ediv_lt_iff_lt_mul hd', add_mul, mul_comm, one_mul]
    omega
  · rw [abs_le]
    omega

/-- Behind winding `n` every cell of the square is within half the distance of two
    windings of the path, as far down as the last winding starts. -/
theorem exists_near (hd : 0 < d) {n : ℕ} {i j : ℤ} (hi : |i| ≤ d * n) (hj : -(d * (n - 1)) ≤ j)
    (hj' : j ≤ d * n) : ∃ s : Spot d, s.index ≤ legStart d (4 * n) ∧
      |i - s.cell.1| ≤ d / 2 ∧ |j - s.cell.2| ≤ d / 2 := by
  obtain ⟨hi', hi''⟩ := abs_le.mp hi
  have hleft : (d : ℤ) * -n ≤ i := by rwa [mul_neg]
  have hlow : (d : ℤ) * (1 - n) ≤ j := by linarith
  obtain ⟨a, ha, ha', hia⟩ := exists_multiple hd hleft hi''
  obtain ⟨b, hb, hb', hjb⟩ := exists_multiple hd hlow hj'
  obtain ⟨s, hs, hindex⟩ := exists_spot_lattice hd ha ha' hb hb'
  exact ⟨s, hindex, by rwa [hs], by rwa [hs]⟩

end SquareSpiral
