import Mathlib.Data.Nat.Count
import Mathlib.Algebra.Order.Ring.Int

/-!
# One pulse for one step

A line that a slow clock toggles while it is enabled and sets high otherwise, as
step pulses are made.  The enable comes from a timer of the fast clock: whoever
wants a step loads the timer with `width` cycles.  When `width` is the period of
the slow clock, exactly one of its edges finds the line enabled, and the line has
exactly one low pulse for the step.

Here `p` is what is left on the timer, `φ` the number of cycles up to the next
edge of the slow clock, and `w` the direction the timer stands for at the
moment, if any.

## Key results

- `Owes.run`: while its direction is kept, a step that is owed is paid once
- `Owes.load`: a loaded timer owes a step
- `Aged.settled`: a period and a width later nothing is under way
-/

namespace StepPulse

/-! ## Pulses of a line -/

/-- The number of times before cycle `n` that the line has gone low with direction `d`. -/
def emitted (line dir : ℕ → Bool) (d : Bool) (n : ℕ) : ℕ :=
  Nat.count (fun m => line m = true ∧ line (m + 1) = false ∧ dir (m + 1) = d) n

/-- A step in direction `d`. -/
def sign (d : Bool) : ℤ := if d then 1 else -1

/-- What a cycle adds to the pulses with direction 1 less those with direction 0. -/
def fell (line line' dir' : Bool) : ℤ := if line = true ∧ line' = false then sign dir' else 0

/-- The pulses up less those down, a cycle later. -/
theorem emitted_succ (line dir : ℕ → Bool) (n : ℕ) :
    (emitted line dir true (n + 1) : ℤ) - emitted line dir false (n + 1) =
      emitted line dir true n - emitted line dir false n +
        fell (line n) (line (n + 1)) (dir (n + 1)) := by
  simp only [emitted, Nat.count_succ, fell, sign]
  cases line n <;> cases line (n + 1) <;> cases dir (n + 1) <;> simp <;> omega

@[simp] theorem fell_high (line dir' : Bool) : fell line true dir' = 0 := by simp [fell]

@[simp] theorem fell_low (line' dir' : Bool) : fell false line' dir' = 0 := by simp [fell]

@[simp] theorem fell_falling (dir' : Bool) : fell true false dir' = sign dir' := by simp [fell]

/-! ## The slow clock -/

/-- Cycles up to the next edge of a clock of period `P`, one cycle on. -/
def untilNext (P φ : ℕ) : ℕ := if φ = 1 then P else φ - 1

/-- The line one cycle on, with the enable of that cycle. -/
def nextLine (φ : ℕ) (en' line : Bool) : Bool :=
  if φ = 1 then (if en' then !line else true) else line

/-- Without enable the line goes back to rest. -/
theorem nextLine_disabled {φ : ℕ} : nextLine φ false true = true := by
  unfold nextLine
  simp

/-- A line that stays disabled is high within a period. -/
theorem nextLine_settles {P φ A : ℕ} {line : Bool} (h : line = true ∨ φ + A ≤ P) (hφ : 1 ≤ φ) :
    nextLine φ false line = true ∨ untilNext P φ + (A + 1) ≤ P := by
  obtain rfl | h := h
  · exact .inl nextLine_disabled
  · obtain rfl | hne := eq_or_ne φ 1
    · exact .inl rfl
    · rw [untilNext, if_neg hne]
      exact .inr (by omega)

/-! ## Steps that are owed -/

/-- What is still to be sent on a line.  In a `loose` mode the rest of a step may
    enable a line that owes nothing. -/
inductive Owes (loose : Prop) (p φ : ℕ) (en line : Bool) (w : Option Bool) : ℤ → Prop
  | idle : line = true → en = false → w = none ∨ p = 0 → Owes loose p φ en line w 0
  | loose : loose → line = true → p < φ → Owes loose p φ en line w 0
  | sent : line = false → p < φ → Owes loose p φ en line w 0
  | pending (d : Bool) : line = true → φ ≤ p → w = some d → Owes loose p φ en line w (sign d)

/-- The steps that a load in the direction `w` asks for. -/
def asked : Option Bool → ℤ
  | none => 0
  | some d => sign d

section Owes

variable {loose : Prop} {P p φ A W : ℕ} {en en' line dir' : Bool} {w w' : Option Bool} {δ : ℤ}

/-- At rest nothing is owed. -/
theorem Owes.rest (h : Owes loose 0 φ en true w δ) (hφ : 1 ≤ φ) : δ = 0 := by
  cases h with
  | pending d _ hle _ => omega
  | _ => rfl

/-- At rest nothing is owed. -/
theorem Owes.of_rest : Owes loose 0 φ false true w 0 := .idle rfl rfl (.inr rfl)

/-- One cycle: the line is enabled while the timer runs in some direction. -/
theorem Owes.run (h : Owes loose p φ en line w δ) (hφ : 1 ≤ φ) (hp : p ≤ P)
    (hen : en' = (decide (0 < p) && w.isSome)) (hdir : ∀ d, w = some d → dir' = d) :
    Owes loose (p - 1) (untilNext P φ) en' (nextLine φ en' line) w
      (δ - fell line (nextLine φ en' line) dir') := by
  cases h with
  -- nothing to send: the line stays high whether or not the clock has an edge
  | idle hline _ hw =>
    have hoff : en' = false := by rw [hen]; rcases hw with rfl | rfl <;> simp
    rw [hline, hoff, nextLine_disabled, fell_high]
    exact .idle rfl rfl (hw.imp_right fun h => by omega)
  | loose hl hline hlt =>
    rcases eq_or_ne φ 1 with rfl | hne
    · obtain rfl : p = 0 := by omega
      have hoff : en' = false := by simp [hen]
      rw [hline, hoff, nextLine_disabled, fell_high]
      exact .idle rfl rfl (.inr rfl)
    · rw [nextLine, if_neg hne, untilNext, if_neg hne, hline, fell_high]
      exact .loose hl rfl (by omega)
  -- the step has been sent; the next edge finds the enable low and ends the pulse
  | sent hline hlt =>
    rcases eq_or_ne φ 1 with rfl | hne
    · obtain rfl : p = 0 := by omega
      have hoff : en' = false := by simp [hen]
      rw [hline, hoff, fell_low]
      exact .idle rfl rfl (.inr rfl)
    · rw [nextLine, if_neg hne, untilNext, if_neg hne, hline, fell_low]
      exact .sent rfl (by omega)
  | pending d hline hle hw =>
    have hon : en' = true := by simp [hen, hw]; omega
    rcases eq_or_ne φ 1 with rfl | hne
    · -- the edge that sends the step
      rw [hdir d hw, hline, hon]
      simp only [nextLine, untilNext, if_true, Bool.not_true, fell_falling, Int.sub_self]
      exact .sent rfl (by omega)
    · rw [nextLine, if_neg hne, untilNext, if_neg hne, hline, fell_high, Int.sub_zero]
      exact .pending d rfl (by omega) hw

/-- One cycle in which nobody writes the enable, when no edge can come before the
    timer runs out. -/
theorem Owes.hold {loose' : Prop} (h : Owes loose p φ en line w δ) (dir' : Bool)
    (w' : Option Bool) (hl : ¬ loose) (hl' : loose') (hφ : 1 ≤ φ) (hp : p < φ)
    (hP : 1 ≤ P) : δ = 0 ∧ fell line (nextLine φ en line) dir' = 0 ∧
      Owes loose' (p - 1) (untilNext P φ) en (nextLine φ en line) w' 0 := by
  have hlt : p - 1 < untilNext P φ := by
    unfold untilNext
    split_ifs <;> omega
  cases h with
  | idle hline hoff _ =>
    subst hline hoff
    rw [nextLine_disabled, fell_high]
    exact ⟨rfl, rfl, .loose hl' rfl hlt⟩
  | sent hline _ =>
    subst hline
    rw [fell_low]
    refine ⟨rfl, rfl, ?_⟩
    rcases Bool.eq_false_or_eq_true (nextLine φ en false) with h | h <;> rw [h]
    · exact .loose hl' rfl hlt
    · exact .sent rfl hlt
  | pending d _ hle _ => omega
  | loose h => exact absurd h hl

/-- Behind the low pulse the timer runs out before the next edge. -/
theorem Owes.lt_of_low (h : Owes loose p φ en false w δ) : p < φ := by
  cases h with
  | sent _ hlt => exact hlt
  | idle hline _ _ => cases hline
  | loose _ hline _ => cases hline
  | pending _ hline _ _ => cases hline

/-- Loading the timer of a line at rest. -/
theorem Owes.load (hφ : φ ≤ W) : Owes loose W φ false true w (asked w) := by
  cases w with
  | none => exact .idle rfl rfl (.inl rfl)
  | some d => exact .pending d rfl hφ rfl

/-! ## How long a step is under way -/

/-- `A` cycles after the load that has started it, a step is under way only for as
    long as the timer and the low pulse take. -/
structure Aged (W P A p φ : ℕ) (en line : Bool) : Prop where
  timer : 0 < p ∨ en = true → p + A ≤ W + 1
  line : line = false → φ + A ≤ W + P + 1

/-- What is old enough for one bound is so for a smaller one. -/
theorem Aged.mono {A' : ℕ} (h : Aged W P A p φ en line) (hA : A' ≤ A) :
    Aged W P A' p φ en line where
  timer hp := by have := h.timer hp; omega
  line hl := by have := h.line hl; omega

/-- What is at rest has any age. -/
theorem Aged.of_rest : Aged W P A 0 φ false true where
  timer h := by simp at h
  line h := by cases h

/-- Just behind the load everything fits. -/
theorem Aged.fresh (hp : p ≤ W) (hφ : φ ≤ P) : Aged W P 1 p φ en line where
  timer _ := by omega
  line _ := by omega

/-- A cycle without a new step makes the steps under way a cycle older. -/
theorem Aged.run (h : Aged W P A p φ en line) (hφ : 1 ≤ φ) (hen : en' = true → 0 < p) :
    Aged W P (A + 1) (p - 1) (untilNext P φ) en' (nextLine φ en' line) where
  timer hp := by
    have hpos : 0 < p := hp.elim (by omega) hen
    have := h.timer (.inl hpos)
    omega
  line hl := by
    unfold nextLine at hl
    unfold untilNext
    -- the line goes low at an edge only, within the time that the timer still has
    split_ifs at hl ⊢ with hφ1 hon
    · have := h.timer (.inl (hen hon))
      have := hen hon
      omega
    · have := h.line hl
      omega

/-- Steps that are old enough are over. -/
theorem Aged.settled (h : Aged W P A p φ en line) (hφ : 1 ≤ φ) (hA : W + P + 1 < A) :
    p = 0 ∧ en = false ∧ line = true := by
  refine ⟨?_, ?_, ?_⟩
  · by_contra hp
    have := h.timer (.inl (by omega))
    omega
  · by_contra hen
    have := h.timer (.inr (by simpa using hen))
    omega
  · by_contra hline
    have := h.line (by simpa using hline)
    omega

end Owes

end StepPulse
