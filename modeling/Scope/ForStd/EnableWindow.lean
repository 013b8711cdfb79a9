import Mathlib.Data.Nat.Count
import Scope.ForStd.Run

/-!
# Enable windows

A timer that counts down from the width it is loaded with, and an enable that is
registered from "the timer runs" and a gate.  Two cycles behind a load the enable
opens for as long as the timer runs and the gate lets it.

## Key results

- `en_of_load`: the enable behind a load, up to the next one
- `window_of_load`: an open gate gives a window of exactly the width
- `load_of_rise`: every window comes from a load
- `count_before`: how many of the events are not the last `X` ones
-/

namespace EnableWindow

open Sync

/-- The enable is high in the `W` cycles from `a` on and low around them. -/
structure Window (en : ℕ → Bool) (W a : ℕ) : Prop where
  low_before : ∀ b, b + 1 = a → en b = false
  high : ∀ k < W, en (a + k) = true
  low_behind : en (a + W) = false

instance (en : ℕ → Bool) (W a : ℕ) : Decidable (Window en W a) :=
  decidable_of_iff
    ((∀ b < a, b + 1 = a → en b = false) ∧ (∀ k < W, en (a + k) = true) ∧ en (a + W) = false)
    ⟨fun h => ⟨fun b hb => h.1 b (by omega) hb, h.2.1, h.2.2⟩,
      fun h => ⟨fun b _ hb => h.low_before b hb, h.high, h.low_behind⟩⟩

/-- The clock edge `n` of the timer `p` and the enable. -/
structure Clocked (W : ℕ) (load gate : ℕ → Bool) (p : ℕ → ℕ) (en : ℕ → Bool) (n : ℕ) : Prop where
  timer : p (n + 1) = if load n then W else p n - 1
  en : en (n + 1) = (decide (0 < p n) && gate n)

/-- In cycle `n` the enable still belongs to the load of cycle `t`. -/
def Shows (load : ℕ → Bool) (t n : ℕ) : Prop :=
  t < n ∧ ∀ u, t < u → u + 1 < n → load u = false

section Loads

variable {W t n a : ℕ} {load gate : ℕ → Bool} {p : ℕ → ℕ} {en : ℕ → Bool}

/-- The timer counts down from the last load. -/
theorem timer_of_load (ht : load t = true) (htn : t < n)
    (hc : ∀ k, t ≤ k → k < n → Clocked W load gate p en k)
    (hq : ∀ u, t < u → u < n → load u = false) : p n = W - (n - (t + 1)) := by
  induction n, htn using Nat.le_induction with
  | base =>
    have h := (hc t le_rfl (by omega)).timer
    rw [if_pos ht] at h
    rw [h]
    omega
  | succ n hn ih =>
    have h := (hc n (by omega) (by omega)).timer
    rw [hq n hn (by omega), if_neg Bool.false_ne_true] at h
    have hp := ih (fun k hk hkn => hc k hk (by omega)) fun u hu hun => hq u hu (by omega)
    rw [h]
    omega

/-- Without a load for as long as the timer can run, it is at zero. -/
theorem timer_idle (h0 : p 0 = 0) (hc : ∀ k < n, Clocked W load gate p en k)
    (hq : ∀ u < n, load u = true → u + W < n) : p n = 0 := by
  rcases last_event load n with hnone | ⟨t, htn, ht, hlast⟩
  · -- never loaded, so it has not moved
    clear hq
    induction n with
    | zero => exact h0
    | succ n ih =>
      rw [(hc n (by omega)).timer, hnone n (by omega), if_neg Bool.false_ne_true,
        ih (fun k hk => hc k (by omega)) fun k hk => hnone k (by omega)]
  · have hp := timer_of_load ht htn (fun k _ hk => hc k hk) hlast
    have := hq t htn ht
    omega

/-- Behind a load that finds the timer at zero, the enable is the gate for `W` cycles. -/
theorem en_of_load (ht : load t = true) (h0 : p t = 0) (hs : Shows load t n)
    (hc : ∀ k, t ≤ k → k < n → Clocked W load gate p en k) :
    en n = (decide (t + 2 ≤ n ∧ n < t + 2 + W) && gate (n - 1)) := by
  obtain ⟨htn, hq⟩ := hs
  obtain ⟨m, rfl⟩ : ∃ m, n = m + 1 := ⟨n - 1, by omega⟩
  rw [(hc m (by omega) (by omega)).en, Nat.add_sub_cancel]
  congr 1
  apply decide_eq_decide.mpr
  by_cases htm : t < m
  · have hp := timer_of_load ht htm (fun k hk hkm => hc k hk (by omega))
      fun u hu hum => hq u hu (by omega)
    omega
  · obtain rfl : m = t := by omega
    omega

/-- With the gate open, a load gives one window. -/
theorem window_of_load (ht : load t = true) (h0 : p t = 0) (hs : Shows load t (t + 2 + W))
    (hc : ∀ k, t ≤ k → k < t + 2 + W → Clocked W load gate p en k)
    (hg : ∀ k, t < k → k ≤ t + W → gate k = true) : Window en W (t + 2) := by
  have hen : ∀ n, t < n → n ≤ t + 2 + W →
      en n = (decide (t + 2 ≤ n ∧ n < t + 2 + W) && gate (n - 1)) := fun n hn hnW =>
    en_of_load ht h0 ⟨hn, fun u hu hun => hs.2 u hu (by omega)⟩ fun k hk hkn => hc k hk (by omega)
  refine ⟨fun b hb => ?_, fun k hk => ?_, ?_⟩
  · rw [hen b (by omega) (by omega), decide_eq_false (by omega), Bool.false_and]
  · rw [hen (t + 2 + k) (by omega) (by omega), decide_eq_true (by omega), Bool.true_and]
    exact hg _ (by omega) (by omega)
  · rw [hen _ (by omega) le_rfl, decide_eq_false (by omega), Bool.false_and]

/-- Where the gate changes only with a load, the enable rises only two cycles behind one. -/
theorem load_of_rise (h0 : p 0 = 0) (hen0 : en 0 = false)
    (hc : ∀ k < n, Clocked W load gate p en k)
    (hg : ∀ k, k + 1 < n → load k = false → gate (k + 1) = gate k)
    (hon : en n = true) (hoff : ∀ b, b + 1 = n → en b = false) :
    2 ≤ n ∧ load (n - 2) = true ∧ gate (n - 1) = true := by
  rcases n with _ | m
  · rw [hen0] at hon
    cases hon
  rw [(hc m (by omega)).en, Bool.and_eq_true, decide_eq_true_iff] at hon
  obtain ⟨hp, hgate⟩ := hon
  rcases last_event load m with hnone | ⟨t, htm, ht, hlast⟩
  · have hidle := timer_idle (n := m) h0 (fun k hk => hc k (by omega)) fun u hu hl => by
      rw [hnone u hu] at hl
      cases hl
    omega
  · rcases Nat.eq_or_lt_of_le (Nat.succ_le_of_lt htm) with rfl | hlt
    · exact ⟨by omega, ht, hgate⟩
    -- later than that the enable was high one cycle before as well
    · obtain ⟨l, rfl⟩ : ∃ l, m = l + 1 := ⟨m - 1, by omega⟩
      have hl := hc l (by omega)
      have hquiet := hlast l (by omega) (by omega)
      have htimer := hl.timer
      rw [hquiet, if_neg Bool.false_ne_true] at htimer
      have hhigh := hl.en
      rw [hoff (l + 1) rfl, decide_eq_true (by omega), ← hg l (by omega) hquiet, hgate] at hhigh
      cases hhigh

end Loads

/-! ## Counting -/

section Count

variable (q : ℕ → Prop) [DecidablePred q]

/-- Events that are seen two cycles later. -/
theorem count_shift (r : ℕ → Prop) [DecidablePred r] (n : ℕ)
    (h : ∀ a < n + 2, r a ↔ 2 ≤ a ∧ q (a - 2)) : Nat.count r (n + 2) = Nat.count q n := by
  induction n with
  | zero =>
    have h0 : ¬ r 0 := by rw [h 0 (by omega)]; omega
    have h1 : ¬ r 1 := by rw [h 1 (by omega)]; omega
    simp [Nat.count_succ, h0, h1]
  | succ n ih =>
    have hn : r (n + 2) ↔ q n := by
      rw [h (n + 2) (by omega), Nat.add_sub_cancel]
      exact and_iff_right (by omega)
    rw [Nat.count_succ r (n + 2), Nat.count_succ q n, ih fun a ha => h a (by omega)]
    simp only [hn]

/-- Of the events, those with less than `X` up to and including them: all but the last one
    when `X` is their number. -/
theorem count_before (X n : ℕ) :
    Nat.count (fun t => q t ∧ Nat.count q t + 1 < X) n = min (Nat.count q n) (X - 1) := by
  induction n with
  | zero => simp
  | succ n ih =>
    rw [Nat.count_succ, Nat.count_succ, ih]
    by_cases hq : q n <;> simp only [hq, true_and, false_and, if_true, if_false]
    · split_ifs <;> omega
    · omega

end Count

end EnableWindow
