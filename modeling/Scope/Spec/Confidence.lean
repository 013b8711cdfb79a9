import Scope.ForStd.BitVec
import Scope.ForStd.Hysteresis
import Scope.ForStd.Run
import Scope.Spec.Quadrants

/-!
# The confidence counter

`qpd_state` counts the cycles in which the photodiode sees light up to a maximum and
those in which it does not down again, and moves `on_target` at the ends only.

## Key results

- `confidence_step`: one clock edge of the counter
- `counts_run`: over a run from reset the counter is one with hysteresis
- `on_target_dwell`: how long `on_target` keeps its level
-/

namespace Scope.Native.QpdState

open Sync Hysteresis

/-- The samples show light: `sum > 300`. -/
def Samples.lit (q : Samples) : Bool := decide (q.sum.toInt > 300)

/-- Movement and `micro` leave the confidence logic alone. -/
private theorem step_confidence (reset : Bool) (q : Samples) (s : QpdState) :
    (s.step reset q).confidenceCounter = (s.confidence reset q s).confidenceCounter ∧
      (s.step reset q).onTarget = (s.confidence reset q s).onTarget := by
  simp only [step, moveVertical, moveHorizontal]
  split_ifs <;> exact ⟨rfl, rfl⟩

/-- One clock edge of the confidence logic. -/
theorem confidence_step (q : Samples) (s : QpdState)
    (hmax : s.confidenceCounter.toNat ≤ targetConfidenceMax) :
    (q.lit = true →
      (s.step false q).confidenceCounter.toNat =
        (if s.confidenceCounter.toNat < targetConfidenceMax then s.confidenceCounter.toNat + 1
          else s.confidenceCounter.toNat) ∧
      (s.step false q).onTarget = (decide (50_000 < s.confidenceCounter.toNat) || s.onTarget)) ∧
    (q.lit = false →
      (s.step false q).confidenceCounter.toNat = s.confidenceCounter.toNat - 1 ∧
      (s.step false q).onTarget = (decide (0 < s.confidenceCounter.toNat) && s.onTarget)) := by
  obtain ⟨hcounter, htarget⟩ := step_confidence false q s
  rw [hcounter, htarget]
  have hbound : targetConfidenceMax = 500_000 := rfl
  have hup : (s.confidenceCounter + 1).toNat = s.confidenceCounter.toNat + 1 :=
    BitVec.toNat_add_one (by omega)
  unfold confidence
  refine ⟨fun hlit => ?_, fun hdark => ?_⟩
  · have hsum : q.sum.toInt > 300 := of_decide_eq_true hlit
    rw [if_neg (by simp), if_pos hsum]
    split_ifs with h1 h2 h2
    · exact ⟨hup, by simp [h2]⟩
    · exact ⟨hup, by simp [h2]⟩
    · exact ⟨rfl, by simp [h2]⟩
    · exact ⟨rfl, by simp [h2]⟩
  · have hsum : ¬ q.sum.toInt > 300 := of_decide_eq_false hdark
    rw [if_neg (by simp), if_neg hsum]
    split_ifs with hpos
    · exact ⟨BitVec.toNat_sub_one hpos, by simp [hpos]⟩
    · have hzero : s.confidenceCounter.toNat = 0 := by omega
      exact ⟨by simp [hzero], by simp [hpos]⟩

section Run

variable (s : QpdState) (q₀ : Samples) (q : ℕ → Samples)

/-- The classifier `n` cycles after a reset. -/
def fromReset (n : ℕ) : QpdState := run (step false) (s.step true q₀) q n

/-- Its counter and its output. -/
def counter (n : ℕ) : ℕ := (fromReset s q₀ q n).confidenceCounter.toNat

def target (n : ℕ) : Bool := (fromReset s q₀ q n).onTarget

/-- Behind a reset the counter is zero and the target lost. -/
private theorem reset_confidence : counter s q₀ q 0 = 0 ∧ target s q₀ q 0 = false := by
  obtain ⟨hcounter, htarget⟩ := step_confidence true q₀ s
  unfold counter target fromReset
  rw [run_zero, hcounter, htarget]
  exact ⟨rfl, rfl⟩

/-- The counter is never above its maximum, so every clock edge counts. -/
theorem counts_run (n : ℕ) : counter s q₀ q n ≤ targetConfidenceMax ∧
    Counts targetConfidenceMax 50_000 (fun k => (q k).lit) (counter s q₀ q) (target s q₀ q) n := by
  induction n with
  | zero =>
    have hmax : counter s q₀ q 0 ≤ targetConfidenceMax := by
      rw [(reset_confidence s q₀ q).1]
      exact Nat.zero_le _
    obtain ⟨hup, hdown⟩ := confidence_step (q 0) (fromReset s q₀ q 0) hmax
    exact ⟨hmax, hup, hdown⟩
  | succ n ih =>
    have hmax := ih.2.step.2.2 ih.1
    obtain ⟨hup, hdown⟩ := confidence_step (q (n + 1)) (fromReset s q₀ q (n + 1)) hmax
    exact ⟨hmax, hup, hdown⟩

/-- **Dwell time.**  From reset on, for every sequence of samples: the counter stays at or
    below its maximum and never moves by more than one, so it does not wrap; between reset
    or a fall of `on_target` and a rise behind it there are at least 50,002 cycles with
    `sum > 300`, between a rise and a fall behind it at least 50,003 without, the cycle of
    the transition included; and two changes are more than 50,000 cycles apart. -/
theorem on_target_dwell :
    (∀ n, counter s q₀ q n ≤ targetConfidenceMax ∧
      counter s q₀ q (n + 1) ≤ counter s q₀ q n + 1 ∧
      counter s q₀ q n ≤ counter s q₀ q (n + 1) + 1) ∧
    (∀ b, Rise (target s q₀ q) b → 50_002 ≤ cycles (fun k => (q k).lit) true 0 (b + 1) ∧
      ∀ a < b, Fall (target s q₀ q) a →
        50_002 ≤ cycles (fun k => (q k).lit) true (a + 1) (b - a)) ∧
    (∀ a b, a < b → Rise (target s q₀ q) a → Fall (target s q₀ q) b →
      50_003 ≤ cycles (fun k => (q k).lit) false (a + 1) (b - a)) ∧
    ∀ a b, a < b → target s q₀ q (a + 1) ≠ target s q₀ q a →
      target s q₀ q (b + 1) ≠ target s q₀ q b → a + 50_000 < b := by
  have h := fun n => (counts_run s q₀ q n).2
  have hmax : 50_000 + 2 ≤ targetConfidenceMax := by decide
  refine ⟨fun n => ⟨(counts_run s q₀ q n).1, ?_, ?_⟩, fun b hr => ⟨?_, fun a hab hf => ?_⟩,
    fun a b hab hr hf => fall_dwell h hmax hr hab hf, fun a b hab ha hb => ?_⟩
  · have hstep := (h n).step.1
    split_ifs at hstep <;> omega
  · have hstep := (h n).step.2.1
    split_ifs at hstep <;> omega
  · exact rise_dwell h (reset_confidence s q₀ q).1 (Nat.zero_le b) hr
  · have hdwell := rise_dwell h (counter_fall h hf) (Nat.succ_le_of_lt hab) hr
    rwa [Nat.add_sub_add_right] at hdwell
  · have := toggle_dwell h hmax ha hab hb
    omega

end Run

end Scope.Native.QpdState
