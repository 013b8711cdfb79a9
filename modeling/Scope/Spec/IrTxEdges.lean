import Scope.ForStd.Wave
import Scope.Spec.IrTxTiming

/-!
# The envelope of the infrared transmitter

Without reset the envelope has twenty edges for each packet, each one cycle
behind the start of a stage, and no others.

## Key results

- `sending_at`: where the transmitter is in each cycle of a packet
- `nextEdge_envelope` / `edge_cases`: the edges of the envelope
- `edges_spaced`: two edges are never closer than a data burst
-/

namespace Scope.Native.IrTx

open Sync Wave

/-- The transmitter in front of clock edge `n`, without reset. -/
def transmit (s : IrTx) (start : ℕ → Bool) (data : ℕ → BitVec 8) (n : ℕ) : IrTx :=
  run step s (fun n => { reset := false, start := start n, data := data n }) n

/-- The envelope as a waveform. -/
def envelope (s : IrTx) (start : ℕ → Bool) (data : ℕ → BitVec 8) (n : ℕ) : Bool :=
  (transmit s start data n).message

/-- The byte on the `data` port is sampled in cycle `n`. -/
def accepts (s : IrTx) (start : ℕ → Bool) (data : ℕ → BitVec 8) (n : ℕ) : Bool :=
  decide ((transmit s start data n).state = .idle) && start n

section Packet

variable {s : IrTx} {start : ℕ → Bool} {data : ℕ → BitVec 8} {a n : ℕ}

theorem transmit_succ (n : ℕ) : transmit s start data (n + 1) =
    (transmit s start data n).step { reset := false, start := start n, data := data n } := rfl

/-- A start pulse is accepted in `IDLE`. -/
theorem accepts_iff : accepts s start data a = true ↔
    (transmit s start data a).state = .idle ∧ start a = true := by
  simp [accepts]

/-- From stage to stage, in front of the long wait. -/
theorem sending_at (ha : accepts s start data a = true) (hn : n ≤ 19) :
    ∀ k < dwell (data a) n, Sending (data a) (transmit s start data a).burstCounter n k
      (transmit s start data (a + 1 + offset (data a) n + k)) := by
  obtain ⟨hidle, hstart⟩ := accepts_iff.mp ha
  -- inside a stage the count goes up
  have hstage : ∀ m, Sending (data a) (transmit s start data a).burstCounter m 0
      (transmit s start data (a + 1 + offset (data a) m)) →
      ∀ k < dwell (data a) m, Sending (data a) (transmit s start data a).burstCounter m k
        (transmit s start data (a + 1 + offset (data a) m + k)) := by
    intro m h0 k hk
    exact run_span (n := dwell (data a) m - 1) h0
      (fun j hj hs => step_count hs rfl (by omega)) k (by omega)
  -- the induction is on the stage: its last clock hands on to the next one
  induction n with
  | zero =>
    exact hstage 0 (step_accept (i := ⟨false, start a, data a⟩) hidle rfl hstart)
  | succ n ih =>
    have hpos := dwell_pos (v := data a) (n := n) (by omega)
    have hlast := ih (by omega) (dwell (data a) n - 1) (by omega)
    refine hstage (n + 1) ?_
    rw [offset_succ, show a + 1 + (offset (data a) n + dwell (data a) n) =
      a + 1 + offset (data a) n + (dwell (data a) n - 1) + 1 by omega, transmit_succ]
    exact step_next hlast rfl (by omega) (by omega)

/-- How the wait behind a packet ends. -/
theorem wait_ends (ha : accepts s start data a = true) :
    if burstLimit ≤ ((transmit s start data a).burstCounter + 1).toNat then
      Sending (data a) (transmit s start data a).burstCounter 20 0
        (transmit s start data (a + 1 + offset (data a) 20))
    else Resting ((transmit s start data a).burstCounter + 1)
      (transmit s start data (a + 1 + offset (data a) 20)) := by
  have hpos := dwell_pos (v := data a) (n := 19) (by omega)
  have hs := sending_at ha (n := 19) le_rfl (dwell (data a) 19 - 1) (by omega)
  have hend := step_wait (i := ⟨false, start (a + 1 + offset (data a) 19 + (dwell (data a) 19 - 1)),
    data (a + 1 + offset (data a) 19 + (dwell (data a) 19 - 1))⟩) hs rfl (by omega)
  rw [show a + 1 + offset (data a) 20 =
    a + 1 + offset (data a) 19 + (dwell (data a) 19 - 1) + 1 by rw [offset_succ _ 19]; omega,
    transmit_succ]
  exact hend

/-- A transmitter at rest stays so until the next start pulse. -/
theorem rest_hold {c : BitVec 3} {m : ℕ} (h : Resting c (transmit s start data m)) (hmn : m ≤ n)
    (hq : ∀ k, m ≤ k → k < n → start k = false) : Resting c (transmit s start data n) := by
  induction n, hmn using Nat.le_induction with
  | base => exact h
  | succ n hmn ih =>
    have hrest := ih fun k hk hkn => hq k hk (by omega)
    rw [transmit_succ]
    exact hrest.burstCounter ▸ step_idle hrest.state rfl (hq n hmn (by omega))

/-- The envelope in cycle `k` of stage `n`. -/
theorem envelope_at (ha : accepts s start data a = true) (hn : n ≤ 19) {k : ℕ}
    (hk : k < dwell (data a) n) :
    envelope s start data (a + 1 + offset (data a) n + k) = level n k :=
  (sending_at ha hn k hk).message

/-- The cycle in which the envelope goes on to stage `n`. -/
def mark (v : BitVec 8) (a n : ℕ) : ℕ := a + 2 + offset v n

/-- A stage goes on for its dwell. -/
theorem mark_succ (v : BitVec 8) (a n : ℕ) : mark v a (n + 1) = mark v a n + dwell v n := by
  simp only [mark, offset_succ]
  omega

/-- Every stage begins with an edge. -/
theorem edge_envelope (ha : accepts s start data a = true) (hn : n ≤ 19) :
    Edge false (envelope s start data) (mark (data a) a n) := by
  have hd := (dwell_bounds (v := data a) (n := n) (by omega)).1
  -- `message` changes between cycles 0 and 1 of a stage
  have h0 := envelope_at ha hn (k := 0) (by omega)
  have h1 := envelope_at ha hn (k := 1) (by omega)
  rw [show mark (data a) a n = a + 1 + offset (data a) n + 1 by rw [mark]; omega, edge_succ_iff,
    h1, show a + 1 + offset (data a) n = a + 1 + offset (data a) n + 0 from rfl, h0, level, level,
    if_neg (by omega), if_pos rfl, burst, Ne, decide_eq_decide]
  omega

/-- Consecutive stages give consecutive edges. -/
theorem nextEdge_envelope (ha : accepts s start data a = true) (hn : n < 19) :
    NextEdge false (envelope s start data) (mark (data a) a n) (mark (data a) a (n + 1)) := by
  have hd := (dwell_bounds (v := data a) (n := n) (by omega)).1
  have hd' := (dwell_bounds (v := data a) (n := n + 1) (by omega)).1
  refine ⟨by rw [mark_succ]; omega, edge_envelope ha (by omega), fun u hu hu' => ?_⟩
  rw [mark_succ] at hu'
  rw [mark] at hu hu'
  obtain ⟨k, rfl⟩ : ∃ k, u = a + 1 + offset (data a) n + (k + 1) + 1 :=
    ⟨u - (a + 1 + offset (data a) n + 2), by omega⟩
  rw [edge_succ_iff, not_not, envelope_at ha (by omega) (k := k + 1) (by omega)]
  -- between the two edges there are the rest of stage `n` and cycle 0 of the next
  rcases Nat.lt_or_ge (k + 2) (dwell (data a) n) with h | h
  · rw [show a + 1 + offset (data a) n + (k + 1) + 1 = a + 1 + offset (data a) n + (k + 2) by omega,
      envelope_at ha (by omega) h]
    rfl
  · rw [show a + 1 + offset (data a) n + (k + 1) + 1 = a + 1 + offset (data a) (n + 1) + 0 by
      rw [offset_succ]; omega, envelope_at ha (by omega) (by omega), level, level, if_pos rfl,
      if_neg (by omega), burst, decide_eq_decide]
    omega

variable (start data) in
/-- In every cycle the transmitter is idle or inside the packet of an accepted start. -/
theorem position (hs : s.state = .idle) (hm : s.message = false) (t : ℕ) :
    Resting (transmit s start data t).burstCounter (transmit s start data t) ∨
      ∃ a c n k, accepts s start data a = true ∧
        Sending (data a) c n k (transmit s start data t) ∧
        t = a + 1 + offset (data a) n + k := by
  induction t with
  | zero => exact .inl ⟨hs, hm, rfl⟩
  | succ t ih =>
    rw [transmit_succ]
    rcases ih with h | ⟨a, c, n, k, ha, h, rfl⟩
    · by_cases hstart : start t = true
      · exact .inr ⟨t, _, 0, 0, accepts_iff.mpr ⟨h.state, hstart⟩,
          step_accept (i := ⟨false, start t, data t⟩) h.state rfl hstart, rfl⟩
      · have hidle := step_idle (i := ⟨false, start t, data t⟩) h.state rfl
          (Bool.eq_false_of_not_eq_true hstart)
        exact .inl ⟨hidle.state, hidle.message, rfl⟩
    -- a start pulse inside a packet is not looked at
    · rcases Nat.lt_or_ge (k + 1) (dwell (data a) n) with hk | hk
      · exact .inr ⟨a, c, n, k + 1, ha, step_count h rfl hk, rfl⟩
      have hk' : k + 1 = dwell (data a) n := by have := h.lt; omega
      rcases Nat.lt_trichotomy n 19 with hn | rfl | hn
      · exact .inr ⟨a, c, n + 1, 0, ha, step_next h rfl hk' hn, by rw [offset_succ]; omega⟩
      · have hwait := step_wait (i := ⟨false, start (a + 1 + offset (data a) 19 + k),
          data (a + 1 + offset (data a) 19 + k)⟩) h rfl hk'
        split_ifs at hwait
        · exact .inr ⟨a, c, 20, 0, ha, hwait, by rw [offset_succ _ 19]; omega⟩
        · exact .inl ⟨hwait.state, hwait.message, rfl⟩
      · obtain rfl : n = 20 := by have := h.last; omega
        have hrest := step_longWait (i := ⟨false, start (a + 1 + offset (data a) 20 + k),
          data (a + 1 + offset (data a) 20 + k)⟩) h rfl hk'
        exact .inl ⟨hrest.state, hrest.message, rfl⟩

/-- Every edge of the envelope belongs to a packet. -/
theorem edge_cases (hs : s.state = .idle) (hm : s.message = false) {e : ℕ}
    (he : Edge false (envelope s start data) e) :
    ∃ a n, accepts s start data a = true ∧ n ≤ 19 ∧ e = mark (data a) a n := by
  rcases e with _ | t
  · exact absurd hm he
  rw [edge_succ_iff] at he
  have hstep : envelope s start data (t + 1) =
    ((transmit s start data t).step ⟨false, start t, data t⟩).message := rfl
  rcases position start data hs hm t with h | ⟨a, c, n, k, ha, h, ht⟩
  · -- an idle transmitter keeps the envelope low
    have hlow : envelope s start data (t + 1) = false := by
      rw [hstep]
      by_cases hstart : start t = true
      · exact (step_accept (i := ⟨false, start t, data t⟩) h.state rfl hstart).message
      · exact (step_idle (i := ⟨false, start t, data t⟩) h.state rfl
          (Bool.eq_false_of_not_eq_true hstart)).message
    exact absurd (hlow.trans h.message.symm) he
  · have hnow : envelope s start data t = level n k := h.message
    rw [hstep, hnow] at he
    have hlast := h.last
    rcases Nat.lt_or_ge (k + 1) (dwell (data a) n) with hk | hk
    · rw [(step_count (i := ⟨false, start t, data t⟩) h rfl hk).message, level, level,
        if_neg (by omega)] at he
      -- inside a stage the level moves in its first cycle only
      rcases Nat.eq_zero_or_pos k with rfl | hpos
      · rw [if_pos rfl, burst, Ne, decide_eq_decide] at he
        exact ⟨a, n, ha, by omega, by rw [mark]; omega⟩
      · rw [if_neg (by omega)] at he
        exact absurd rfl he
    have hd := (dwell_bounds (v := data a) (n := n) hlast).1
    have hk' : k + 1 = dwell (data a) n := by have := h.lt; omega
    rw [level, if_neg (by omega), burst] at he
    -- at the end of a stage the register still holds its level, whatever comes next
    rcases Nat.lt_trichotomy n 19 with hn | rfl | hn
    · rw [(step_next (i := ⟨false, start t, data t⟩) h rfl hk' hn).message, level, if_pos rfl,
        Ne, decide_eq_decide] at he
      omega
    · have hwait := step_wait (i := ⟨false, start t, data t⟩) h rfl hk'
      split_ifs at hwait
      · rw [hwait.message] at he
        exact absurd rfl he
      · rw [hwait.message] at he
        exact absurd rfl he
    · obtain rfl : n = 20 := by omega
      rw [(step_longWait (i := ⟨false, start t, data t⟩) h rfl hk').message] at he
      exact absurd rfl he

/-- A packet with its wait is over before the next one is accepted. -/
theorem accepts_spaced {b : ℕ} (ha : accepts s start data a = true)
    (hb : accepts s start data b = true) (hab : a < b) : a + 1 + offset (data a) 20 ≤ b := by
  by_contra hlt
  -- stage by stage the transmitter is busy, so `b` lies behind each of them
  have hbusy : ∀ n ≤ 20, a + 1 + offset (data a) n ≤ b := by
    intro n hn
    induction n with
    | zero => exact hab
    | succ n ih =>
      have hle := ih (by omega)
      by_contra hnext
      rw [offset_succ] at hnext
      have hs := sending_at ha (n := n) (by omega) (b - (a + 1 + offset (data a) n)) (by omega)
      rw [show a + 1 + offset (data a) n + (b - (a + 1 + offset (data a) n)) = b by omega] at hs
      exact (stage_ne_idle hs.last).1 (hs.state ▸ (accepts_iff.mp hb).1)
  exact hlt (hbusy 20 le_rfl)

/-- Two stages are a burst apart at least. -/
theorem offset_strictMono {v : BitVec 8} {m : ℕ} (h : m < n) (hn : n ≤ 20) :
    offset v m + 15_001 ≤ offset v n := by
  have hd := (dwell_bounds (v := v) (n := m) (by omega)).1
  have hmono := offset_mono (v := v) (show m + 1 ≤ n by omega)
  rw [offset_succ] at hmono
  omega

/-- Two edges of the envelope are never closer than a data burst. -/
theorem edges_spaced (hs : s.state = .idle) (hm : s.message = false) {e e' : ℕ}
    (he : Edge false (envelope s start data) e) (he' : Edge false (envelope s start data) e')
    (hlt : e < e') : e + 15_001 ≤ e' := by
  obtain ⟨a, n, ha, hn, rfl⟩ := edge_cases hs hm he
  obtain ⟨b, m, hb, hm, rfl⟩ := edge_cases hs hm he'
  simp only [mark] at hlt ⊢
  -- edges of different packets have the long tail of the first packet between them
  rcases Nat.lt_trichotomy a b with hab | rfl | hab
  · have hspace := accepts_spaced ha hb hab
    have := offset_strictMono (v := data a) (show n < 20 by omega) le_rfl
    omega
  · have hnm : n < m := by
      by_contra hge
      have := offset_mono (v := data a) (show m ≤ n by omega)
      omega
    have := offset_strictMono (v := data a) hnm (by omega)
    omega
  · have hspace := accepts_spaced hb ha hab
    have := offset_mono (v := data b) (show m ≤ 20 by omega)
    omega

end Packet

end Scope.Native.IrTx
