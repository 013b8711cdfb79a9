import Mathlib.Data.Nat.Count
import Mathlib.Data.Nat.ModEq
import Mathlib.Data.Set.Defs
import Mathlib.Tactic.Ring

/-!
# Pulse trains

A line that the rising edges of a slow clock toggle while it is enabled and set high
otherwise.  The slow clock has a period of `P` cycles and rises in the cycles `r`
modulo `P`.  An enable window of the length of the period is met by exactly one edge,
so the line has one low pulse for each window, as long as windows are a period apart.

## Key results

- `exists_edge`: a stretch of a period has exactly one edge
- `Toggled.low_iff`: with windows a period apart, when the line is low
- `Toggled.fall_iff`: every window has one falling edge
- `Toggled.group_falls`: `k` enabled edges in a row make ⌈k / 2⌉ pulses
-/

namespace PulseTrain

/-- The line goes low behind cycle `n`. -/
def Fall (line : ℕ → Bool) (n : ℕ) : Prop := line n = true ∧ line (n + 1) = false

instance (line : ℕ → Bool) (n : ℕ) : Decidable (Fall line n) :=
  inferInstanceAs (Decidable (_ ∧ _))

/-- A line that starts high and is moved by the edges in the cycles `r` modulo `P`. -/
structure Toggled (P r : ℕ) (en line : ℕ → Bool) : Prop where
  phase : r < P
  start : line 0 = true
  step : ∀ n, line (n + 1) = if n % P = r then (if en n then !line n else true) else line n

/-- The enable is high in the windows of length `P` that start at `starts`, and the
    windows are at least `P` apart. -/
structure Windows (P : ℕ) (en : ℕ → Bool) (starts : Set ℕ) : Prop where
  enabled : ∀ n, en n = true ↔ ∃ a ∈ starts, a ≤ n ∧ n < a + P
  apart : ∀ a ∈ starts, ∀ b ∈ starts, a < b → a + P + P ≤ b

/-! ## Edges -/

section Edges

variable {P r e n a : ℕ}

/-- Edges are a period apart. -/
theorem edge_gap (he : e % P = r) (hn : n % P = r) (h : e < n) : e + P ≤ n :=
  Nat.ModEq.add_le_of_lt (he.trans hn.symm) h

/-- The clock edges come a period apart. -/
theorem edge_add (j : ℕ) (he : e % P = r) : (e + j * P) % P = r := by
  rw [Nat.add_mul_mod_self_right, he]

/-- In every stretch of a period there is an edge. -/
theorem exists_edge (hr : r < P) (a : ℕ) : ∃ e, a ≤ e ∧ e < a + P ∧ e % P = r := by
  have hdiv := Nat.div_add_mod a P
  have hmod := Nat.mod_lt a (show 0 < P by omega)
  by_cases hlt : r < a % P
  · refine ⟨P * (a / P + 1) + r, ?_, ?_, ?_⟩
    · rw [Nat.mul_add, Nat.mul_one]
      omega
    · rw [Nat.mul_add, Nat.mul_one]
      omega
    · rw [Nat.mul_add_mod, Nat.mod_eq_of_lt hr]
  · refine ⟨P * (a / P) + r, by omega, by omega, ?_⟩
    rw [Nat.mul_add_mod, Nat.mod_eq_of_lt hr]

/-- There is one in each period. -/
theorem edge_unique {e' : ℕ} (h : a ≤ e ∧ e < a + P ∧ e % P = r)
    (h' : a ≤ e' ∧ e' < a + P ∧ e' % P = r) : e = e' := by
  rcases Nat.lt_trichotomy e e' with hlt | heq | hgt
  · have := edge_gap h.2.2 h'.2.2 hlt
    omega
  · exact heq
  · have := edge_gap h'.2.2 h.2.2 hgt
    omega

end Edges

/-! ## Lines -/

section Lines

variable {P r e n k : ℕ} {en line : ℕ → Bool} {starts : Set ℕ}

/-- A period behind the edge of one window there is no window. -/
theorem Windows.pulse_over {a b : ℕ} (hw : Windows P en starts) (ha : a ∈ starts)
    (hb : b ∈ starts) (hn : a ≤ n ∧ n < a + P) (he : b ≤ e ∧ e < b + P) : n ≠ e + P := by
  rcases Nat.lt_trichotomy a b with hab | rfl | hba
  · have := hw.apart a ha b hb hab
    omega
  · omega
  · have := hw.apart b hb a ha hba
    omega

/-- Between two edges the line stays. -/
theorem Toggled.hold (h : Toggled P r en line) (he : e % P = r) (hen : e < n)
    (hn : n ≤ e + P) : line n = line (e + 1) := by
  induction n, hen using Nat.le_induction with
  | base => rfl
  | succ n hn' ih =>
    have hne : n % P ≠ r := fun heq => by
      have := edge_gap he heq hn'
      omega
    rw [h.step n, if_neg hne, ih (by omega)]

/-- A pulse starts at an enabled edge that finds the line high. -/
theorem Toggled.fall_edge (h : Toggled P r en line) (hf : Fall line n) :
    n % P = r ∧ en n = true := by
  obtain ⟨hhigh, hlow⟩ := hf
  rw [h.step n] at hlow
  split_ifs at hlow with hr hen
  · exact ⟨hr, hen⟩
  · rw [hhigh] at hlow
    cases hlow

/-- The line is low for a period behind the edge in each window, and at no other time. -/
theorem Toggled.low_iff (h : Toggled P r en line) (hw : Windows P en starts) (n : ℕ) :
    line n = false ↔
      ∃ a ∈ starts, ∃ e, (a ≤ e ∧ e < a + P ∧ e % P = r) ∧ e < n ∧ n ≤ e + P := by
  induction n with
  | zero => simp [h.start]
  | succ n ih =>
    rw [h.step n]
    split_ifs with hr hen
    · -- an enabled edge: the pulse of the window before is over
      obtain ⟨a, ha, han, hna⟩ := (hw.enabled n).mp hen
      have hhigh : line n = true := by
        by_contra hlow
        obtain ⟨b, hb, e, ⟨hbe, heb, her⟩, hen', hne⟩ := ih.mp (by simpa using hlow)
        have hgap := edge_gap her hr hen'
        exact hw.pulse_over ha hb ⟨han, hna⟩ ⟨hbe, heb⟩ (by omega)
      rw [hhigh]
      exact ⟨fun _ => ⟨a, ha, n, ⟨han, hna, hr⟩, by omega, by omega⟩, fun _ => rfl⟩
    · apply iff_of_false nofun
      rintro ⟨a, ha, e, ⟨hae, hea, her⟩, hlt, hle⟩
      rcases Nat.eq_or_lt_of_le (Nat.le_of_lt_succ hlt) with rfl | hen'
      · exact hen ((hw.enabled e).mpr ⟨a, ha, hae, hea⟩)
      · have := edge_gap her hr hen'
        omega
    · rw [ih]
      -- no edge, so no pulse starts or ends here
      refine exists_congr fun a => and_congr_right fun _ => exists_congr fun e =>
        and_congr_right fun ⟨_, _, her⟩ => ?_
      have hne : n ≠ e := fun heq => hr (heq ▸ her)
      have hne' : n ≠ e + P := fun heq => hr (by rw [heq, Nat.add_mod_right, her])
      omega

/-- One falling edge in each window, and none outside. -/
theorem Toggled.fall_iff (h : Toggled P r en line) (hw : Windows P en starts) (n : ℕ) :
    Fall line n ↔ n % P = r ∧ ∃ a ∈ starts, a ≤ n ∧ n < a + P := by
  constructor
  · intro hf
    obtain ⟨hr, hen⟩ := h.fall_edge hf
    exact ⟨hr, (hw.enabled n).mp hen⟩
  · rintro ⟨hr, a, ha, han, hna⟩
    have hphase := h.phase
    refine ⟨?_, (h.low_iff hw (n + 1)).mpr ⟨a, ha, n, ⟨han, hna, hr⟩, by omega, by omega⟩⟩
    by_contra hlow
    obtain ⟨b, hb, e, ⟨hbe, heb, her⟩, hen, hne⟩ := (h.low_iff hw n).mp (by simpa using hlow)
    have hgap := edge_gap her hr hen
    exact hw.pulse_over ha hb ⟨han, hna⟩ ⟨hbe, heb⟩ (by omega)

/-- The pulse is a period long. -/
theorem Toggled.pulse (h : Toggled P r en line) (hw : Windows P en starts) (hf : Fall line e) :
    (∀ n, e < n → n ≤ e + P → line n = false) ∧ line (e + P + 1) = true := by
  obtain ⟨hr, a, ha, hae, hea⟩ := (h.fall_iff hw e).mp hf
  refine ⟨fun n hn hne => (h.low_iff hw n).mpr ⟨a, ha, e, ⟨hae, hea, hr⟩, hn, hne⟩, ?_⟩
  have hend : (e + P) % P = r := by rw [Nat.add_mod_right, hr]
  rw [h.step, if_pos hend]
  split_ifs with hen
  · rw [(h.low_iff hw (e + P)).mpr ⟨a, ha, e, ⟨hae, hea, hr⟩, by have := h.phase; omega, le_rfl⟩]
    rfl
  · rfl

/-! ## Edges in a row -/

/-- In front of the first of enabled edges in a row the line is high. -/
theorem Toggled.group_start (h : Toggled P r en line) (he : e % P = r)
    (hfirst : ∀ e', e' + P = e → en e' = false) : line e = true := by
  by_cases hlt : e < P
  -- no edge before: the line is as it was at the start
  · have hstay : ∀ n ≤ e, line n = true := by
      intro n hn
      induction n with
      | zero => exact h.start
      | succ n ih =>
        have hne : n % P ≠ r := by
          rw [← he, Nat.mod_eq_of_lt hlt, Nat.mod_eq_of_lt (by omega)]
          omega
        rw [h.step n, if_neg hne, ih (by omega)]
    exact hstay e le_rfl
  · obtain ⟨e', rfl⟩ : ∃ e', e = e' + P := ⟨e - P, by omega⟩
    rw [Nat.add_mod_right] at he
    have hphase := h.phase
    rw [h.hold he (by omega) le_rfl, h.step, if_pos he, if_neg (by simp [hfirst e' rfl])]

/-- The level in front of the `j`-th of enabled edges in a row, and behind it. -/
theorem Toggled.group (h : Toggled P r en line) (he : e % P = r) (hhigh : line e = true)
    (hen : ∀ j < k, en (e + j * P) = true) {j : ℕ} (hj : j ≤ k) :
    line (e + j * P) = decide (j % 2 = 0) := by
  induction j with
  | zero => simpa using hhigh
  | succ j ih =>
    have hphase := h.phase
    have hedge := edge_add j he
    rw [show e + (j + 1) * P = e + j * P + P by ring,
      h.hold hedge (by omega) le_rfl, h.step, if_pos hedge, if_pos (hen j (by omega)),
      ih (by omega)]
    rcases Nat.mod_two_eq_zero_or_one j with h2 | h2 <;> simp [h2, Nat.succ_mod_two_eq_zero_iff]

/-- Between two clock edges of a group the line shows whether their number is even. -/
theorem Toggled.group_behind (h : Toggled P r en line) (he : e % P = r) (hhigh : line e = true)
    (hen : ∀ j < k, en (e + j * P) = true) {j : ℕ} (hj : j < k) (hn : e + j * P < n)
    (hn' : n ≤ e + (j + 1) * P) : line n = decide (j % 2 = 1) := by
  have hedge := edge_add j he
  rw [h.hold hedge hn (by rw [Nat.add_mul, Nat.one_mul] at hn'; omega), h.step, if_pos hedge,
    if_pos (hen j hj), h.group he hhigh hen hj.le]
  rcases Nat.mod_two_eq_zero_or_one j with h2 | h2 <;> simp [h2]

/-- `k` enabled edges in a row, up to a disabled one, make ⌈k / 2⌉ pulses. -/
theorem Toggled.group_falls (h : Toggled P r en line) (he : e % P = r) (hhigh : line e = true)
    (hen : ∀ j < k, en (e + j * P) = true) (hend : en (e + k * P) = false) :
    Nat.count (fun m => Fall line (e + m)) (k * P + 1) = (k + 1) / 2 := by
  have hphase := h.phase
  have hrow : ∀ l ≤ k, Nat.count (fun m => Fall line (e + m)) (l * P) = (l + 1) / 2 := by
    intro l hl
    induction l with
    | zero => simp
    | succ l ih =>
      have hedge := edge_add l he
      have hfall : Fall line (e + l * P) ↔ l % 2 = 0 := by
        have hbefore := h.group he hhigh hen (j := l) (by omega)
        have hbehind := h.group_behind he hhigh hen (n := e + l * P + 1) (j := l) (by omega)
          (by omega) (by rw [Nat.add_mul, Nat.one_mul]; omega)
        rw [Fall, hbefore, hbehind]
        rcases Nat.mod_two_eq_zero_or_one l with h2 | h2 <;> simp [h2]
      -- behind its first cycle a period has no edge
      have hquiet : Nat.count (fun m => Fall line (e + (l * P + 1 + m))) (P - 1) = 0 := by
        rw [Nat.count_iff_forall_not]
        intro m hm hf
        obtain ⟨hr, -⟩ := h.fall_edge hf
        have := edge_gap hedge hr (by omega)
        omega
      rw [show (l + 1) * P = l * P + 1 + (P - 1) by rw [Nat.add_mul, Nat.one_mul]; omega,
        Nat.count_add, Nat.count_succ, ih (by omega), hquiet]
      simp only [hfall]
      split_ifs <;> omega
  have hnone : ¬ Fall line (e + k * P) := fun hf => by
    have hon := (h.fall_edge hf).2
    rw [hend] at hon
    cases hon
  rw [Nat.count_succ, hrow k le_rfl, if_neg hnone, Nat.add_zero]

end Lines

end PulseTrain
