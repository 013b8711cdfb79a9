import Mathlib.Data.Nat.Count

/-!
# Counters with hysteresis

A counter `c` that goes up to a maximum `M` while its input is high and down to zero
while it is low, and an output `o` that is set by a high input above the threshold `T`
and cleared by a low one at zero.  To get from one end to the other the counter needs
as many cycles of the one kind as it has to move, whatever comes in between.

## Key results

- `counter_le` / `le_counter`: the counter against the numbers of high and low cycles
- `rise_dwell` / `fall_dwell`: the high cycles in front of a rise, the low ones in front
  of a fall
- `toggle_dwell`: the output does not change twice in `T` cycles
- `clears` / `sets`: an input that keeps its level gets through to the output
-/

namespace Hysteresis

/-- One cycle of the counter and its output. -/
structure Counts (M T : ℕ) (high : ℕ → Bool) (c : ℕ → ℕ) (o : ℕ → Bool) (n : ℕ) : Prop where
  up : high n = true → c (n + 1) = (if c n < M then c n + 1 else c n) ∧
    o (n + 1) = (decide (T < c n) || o n)
  down : high n = false → c (n + 1) = c n - 1 ∧ o (n + 1) = (decide (0 < c n) && o n)

/-- The output is set, or cleared, by the clock edge `n`. -/
def Rise (o : ℕ → Bool) (n : ℕ) : Prop := o n = false ∧ o (n + 1) = true

def Fall (o : ℕ → Bool) (n : ℕ) : Prop := o n = true ∧ o (n + 1) = false

/-- The number of cycles with the level `b` among the `n` from `a` on. -/
def cycles (high : ℕ → Bool) (b : Bool) (a n : ℕ) : ℕ := Nat.count (fun k => high (a + k) = b) n

section Counts

variable {M T a b n : ℕ} {high : ℕ → Bool} {c : ℕ → ℕ} {o : ℕ → Bool}

theorem cycles_succ (high : ℕ → Bool) (b : Bool) (a n : ℕ) :
    cycles high b a (n + 1) = cycles high b a n + if high (a + n) = b then 1 else 0 :=
  Nat.count_succ _ n

/-- There are no more such cycles than cycles. -/
theorem cycles_le (high : ℕ → Bool) (b : Bool) (a n : ℕ) : cycles high b a n ≤ n :=
  Nat.count_le _

/-- The counter moves by one at most, and stays within its bounds. -/
theorem Counts.step (h : Counts M T high c o n) :
    c (n + 1) ≤ c n + (if high n = true then 1 else 0) ∧
    c n ≤ c (n + 1) + (if high n = false then 1 else 0) ∧ (c n ≤ M → c (n + 1) ≤ M) := by
  cases hn : high n
  · have := (h.down hn).1
    simp
    omega
  · have := (h.up hn).1
    split_ifs at this <;> simp <;> omega

/-- Only a high input above the threshold sets the output. -/
theorem Counts.of_rise (h : Counts M T high c o n) (hr : Rise o n) : high n = true ∧ T < c n := by
  obtain ⟨hlow, hset⟩ := hr
  cases hn : high n
  · rw [(h.down hn).2, hlow, Bool.and_false] at hset
    cases hset
  · rw [(h.up hn).2, hlow, Bool.or_false, decide_eq_true_iff] at hset
    exact ⟨rfl, hset⟩

/-- Only a low input at zero clears it. -/
theorem Counts.of_fall (h : Counts M T high c o n) (hf : Fall o n) : high n = false ∧ c n = 0 := by
  obtain ⟨hhigh, hclear⟩ := hf
  cases hn : high n
  · rw [(h.down hn).2, hhigh, Bool.and_true, decide_eq_false_iff_not] at hclear
    exact ⟨rfl, by omega⟩
  · rw [(h.up hn).2, hhigh, Bool.or_true] at hclear
    cases hclear

variable (h : ∀ n, Counts M T high c o n)

include h

/-- The counter gains one in a high cycle at most. -/
theorem counter_le (a n : ℕ) : c (a + n) ≤ c a + cycles high true a n := by
  induction n with
  | zero => exact Nat.le_add_right _ _
  | succ n ih =>
    have hstep := (h (a + n)).step.1
    rw [← Nat.add_assoc, cycles_succ]
    omega

/-- The counter loses one in a low cycle at most. -/
theorem le_counter (a n : ℕ) : c a ≤ c (a + n) + cycles high false a n := by
  induction n with
  | zero => exact Nat.le_add_right _ _
  | succ n ih =>
    have hstep := (h (a + n)).step.2.1
    rw [← Nat.add_assoc, cycles_succ]
    omega

/-- From zero to a rise, the cycle of the rise included. -/
theorem rise_dwell (ha : c a = 0) (hab : a ≤ b) (hr : Rise o b) :
    T + 2 ≤ cycles high true a (b + 1 - a) := by
  obtain ⟨hhigh, hc⟩ := (h b).of_rise hr
  obtain ⟨n, rfl⟩ : ∃ n, b = a + n := ⟨b - a, by omega⟩
  have hle := counter_le h a n
  rw [show a + n + 1 - a = n + 1 by omega, cycles_succ, if_pos hhigh]
  omega

/-- Behind a fall the counter is at zero. -/
theorem counter_fall (hf : Fall o a) : c (a + 1) = 0 := by
  obtain ⟨hlow, hc⟩ := (h a).of_fall hf
  rw [((h a).down hlow).1, hc]

/-- Behind a rise it is two above the threshold. -/
theorem counter_rise (hM : T + 2 ≤ M) (hr : Rise o a) : T + 2 ≤ c (a + 1) := by
  obtain ⟨hhigh, hc⟩ := (h a).of_rise hr
  rw [((h a).up hhigh).1]
  split_ifs <;> omega

/-- From a rise to a fall, the cycle of the fall included. -/
theorem fall_dwell (hM : T + 2 ≤ M) (hr : Rise o a) (hab : a < b) (hf : Fall o b) :
    T + 3 ≤ cycles high false (a + 1) (b - a) := by
  obtain ⟨hlow, hc⟩ := (h b).of_fall hf
  obtain ⟨n, rfl⟩ : ∃ n, b = a + 1 + n := ⟨b - (a + 1), by omega⟩
  have hstart := counter_rise h hM hr
  have hle := le_counter h (a + 1) n
  rw [show a + 1 + n - a = n + 1 by omega, cycles_succ, if_pos hlow]
  omega

/-- Two changes of the output are more than `T` cycles apart. -/
theorem toggle_dwell (hM : T + 2 ≤ M) (ha : o (a + 1) ≠ o a) (hab : a < b)
    (hb : o (b + 1) ≠ o b) : a + T + 2 ≤ b := by
  by_contra hshort
  -- too early, the output still has the level it changed to
  have hstay : ∀ k ≤ b - a, o (a + 1 + k) = o (a + 1) := by
    intro k hk
    induction k with
    | zero => rfl
    | succ k ih =>
      have hk' := ih (by omega)
      rw [← Nat.add_assoc, ← hk']
      by_contra hne
      cases hlevel : o (a + 1 + k)
      · have hrise : Rise o (a + 1 + k) := ⟨hlevel, by simpa [hlevel] using hne⟩
        rw [hlevel] at hk'
        have hfall : Fall o a := ⟨by simpa [← hk'] using ha.symm, hk'.symm⟩
        have hzero := counter_fall h hfall
        have hc := ((h _).of_rise hrise).2
        have hle := counter_le h (a + 1) k
        have hcount := cycles_le high true (a + 1) k
        omega
      · have hfall : Fall o (a + 1 + k) := ⟨hlevel, by simpa [hlevel] using hne⟩
        rw [hlevel] at hk'
        have hrise : Rise o a := ⟨by simpa [← hk'] using ha.symm, hk'.symm⟩
        have hstart := counter_rise h hM hrise
        have hc := ((h _).of_fall hfall).2
        have hle := le_counter h (a + 1) k
        have hcount := cycles_le high false (a + 1) k
        omega
  obtain ⟨k, rfl⟩ : ∃ k, b = a + 1 + k := ⟨b - (a + 1), by omega⟩
  have hlast := hstay (k + 1) (by omega)
  rw [← Nat.add_assoc] at hlast
  exact hb (hlast.trans (hstay k (by omega)).symm)

/-- An input that stays low clears the output when the counter has run down. -/
theorem clears (hlow : ∀ k, a ≤ k → k < b → high k = false) (hab : a + c a < b) :
    o b = false := by
  have hdown : ∀ j, a + j < b → c (a + j) = c a - j := by
    intro j
    induction j with
    | zero => exact fun _ => rfl
    | succ j ih =>
      intro hj
      have hstep := ((h (a + j)).down (hlow _ (by omega) (by omega))).1
      rw [← Nat.add_assoc, hstep, ih (by omega)]
      omega
  obtain ⟨j, rfl⟩ : ∃ j, b = a + j + 1 := ⟨b - a - 1, by omega⟩
  rw [((h (a + j)).down (hlow _ (by omega) (by omega))).2, hdown j (by omega)]
  simp
  omega

/-- An input that stays high sets it when the counter is above the threshold. -/
theorem sets (hM : T < M) (hhigh : ∀ k, a ≤ k → k < b → high k = true) (hab : a + T + 2 ≤ b) :
    o b = true := by
  have hup : ∀ j, a + j < b → j ≤ c (a + j) ∨ M ≤ c (a + j) := by
    intro j
    induction j with
    | zero => exact fun _ => .inl (Nat.zero_le _)
    | succ j ih =>
      intro hj
      have hstep := ((h (a + j)).up (hhigh _ (by omega) (by omega))).1
      have hj' := ih (by omega)
      rw [← Nat.add_assoc]
      split_ifs at hstep <;> omega
  obtain ⟨j, rfl⟩ : ∃ j, b = a + j + 1 := ⟨b - a - 1, by omega⟩
  have hc := hup j (by omega)
  rw [((h (a + j)).up (hhigh _ (by omega) (by omega))).2, decide_eq_true (by omega),
    Bool.true_or]

end Counts

end Hysteresis
