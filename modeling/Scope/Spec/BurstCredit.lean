import Scope.Spec.IrTxRuns

/-!
# What a reset of the transmitter remembers

The reset branch of `ir_tx` leaves `burst_counter` as it is.  The counter decides
which packet is followed by the long wait, and so which later starts are dropped.

## Key results

- `InStep.step`: two transmitters with the same number of packets up to the long
  wait stay in step
- `accepts_every`: with `start` held high, that number can be counted
- `reset_erases_credit_iff`: which histories a reset erases
-/

namespace Scope.Native.IrTx

open Sync

/-- The number of packets up to the next long wait, when `c` bursts have been counted.  The
    counter has three bits, so behind 7 a whole group follows. -/
def credit (c : BitVec 3) : ℕ := if c = 7 then 6 else max 1 (5 - c.toNat)

/-- The limit is reached with the last packet of the credit. -/
private theorem burstLimit_le_iff (c : BitVec 3) : burstLimit ≤ (c + 1).toNat ↔ credit c = 1 := by
  revert c
  decide

/-- Any other packet takes one from the credit. -/
private theorem credit_succ (c : BitVec 3) (h : ¬ burstLimit ≤ (c + 1).toNat) :
    credit (c + 1) + 1 = credit c := by
  revert c
  decide

private theorem credit_pos (c : BitVec 3) : 0 < credit c := by
  unfold credit
  split_ifs <;> omega

/-- Equal credit: the same count, or the next packet is the last one for both. -/
private theorem credit_eq_iff (c d : BitVec 3) : credit c = credit d ↔
    c = d ∨ (4 ≤ c.toNat ∧ c.toNat ≤ 6) ∧ (4 ≤ d.toNat ∧ d.toNat ≤ 6) := by
  revert c d
  decide

/-! ## Two runs in step -/

/-- Two transmitters that differ in nothing that can still be seen. -/
inductive InStep (x y : IrTx) : Prop
  | rest {c d : BitVec 3} : Resting c x → Resting d y → credit c = credit d → InStep x y
  | sending {v : BitVec 8} {c d : BitVec 3} {n k : ℕ} : Sending v c n k x → Sending v d n k y →
      (n ≤ 19 → credit c = credit d) → InStep x y

section InStep

variable {x y : IrTx} {i : Input}

/-- From `IDLE` on, whatever the envelopes were. -/
private theorem inStep_of_idle (hx : x.state = .idle) (hy : y.state = .idle)
    (hc : credit x.burstCounter = credit y.burstCounter) (hr : i.reset = false) :
    InStep (x.step i) (y.step i) := by
  by_cases hstart : i.start = true
  · exact .sending (step_accept hx hr hstart) (step_accept hy hr hstart) fun _ => hc
  · rw [Bool.not_eq_true] at hstart
    exact .rest (step_idle hx hr hstart) (step_idle hy hr hstart) hc

/-- A clock edge keeps two transmitters in step. -/
theorem InStep.step (h : InStep x y) (hr : i.reset = false) : InStep (x.step i) (y.step i) := by
  cases h with
  | rest hx hy hc =>
    apply inStep_of_idle hx.state hy.state _ hr
    rw [hx.burstCounter, hy.burstCounter, hc]
  | @sending v c d n k hx hy hc =>
    have hlt := hx.lt
    by_cases hk : k + 1 < dwell v n
    · exact .sending (step_count hx hr hk) (step_count hy hr hk) hc
    have hk' : k + 1 = dwell v n := by omega
    rcases Nat.lt_trichotomy n 19 with hn | rfl | hn
    · exact .sending (step_next hx hr hk' hn) (step_next hy hr hk' hn) fun _ => hc (by omega)
    -- equal credit: the long wait follows in both runs or in neither
    · have hcd := hc le_rfl
      have hxwait := step_wait hx hr hk'
      have hywait := step_wait hy hr hk'
      by_cases hlong : burstLimit ≤ (c + 1).toNat
      · have hlong' : burstLimit ≤ (d + 1).toNat := by
          rw [burstLimit_le_iff, ← hcd, ← burstLimit_le_iff]
          exact hlong
        rw [if_pos hlong] at hxwait
        rw [if_pos hlong'] at hywait
        exact .sending hxwait hywait (by omega)
      · have hlong' : ¬ burstLimit ≤ (d + 1).toNat := by
          rw [burstLimit_le_iff, ← hcd, ← burstLimit_le_iff]
          exact hlong
        rw [if_neg hlong] at hxwait
        rw [if_neg hlong'] at hywait
        have hc1 := credit_succ c hlong
        have hd1 := credit_succ d hlong'
        exact .rest hxwait hywait (by omega)
    · obtain rfl : n = 20 := by have := hx.last; omega
      exact .rest (step_longWait hx hr hk') (step_longWait hy hr hk') rfl

/-- In step they have one envelope. -/
theorem InStep.message (h : InStep x y) : x.message = y.message := by
  cases h with
  | rest hx hy _ => rw [hx.message, hy.message]
  | sending hx hy _ => rw [hx.message, hy.message]

/-- In step they are in one state. -/
theorem InStep.state (h : InStep x y) : x.state = y.state := by
  cases h with
  | rest hx hy _ => rw [hx.state, hy.state]
  | sending hx hy _ => rw [hx.state, hy.state]

variable {start : ℕ → Bool} {data : ℕ → BitVec 8}

/-- From `IDLE` with the same credit they are in step in all cycles to come. -/
private theorem inStep_transmit (hx : x.state = .idle) (hy : y.state = .idle)
    (hc : credit x.burstCounter = credit y.burstCounter) (n : ℕ) :
    InStep (transmit x start data (n + 1)) (transmit y start data (n + 1)) := by
  induction n with
  | zero => exact inStep_of_idle (i := ⟨false, start 0, data 0⟩) hx hy hc rfl
  | succ n ih => exact ih.step (i := ⟨false, start (n + 1), data (n + 1)⟩) rfl

end InStep

/-! ## Counting the credit -/

section Always

variable {s : IrTx} {start : ℕ → Bool} {data : ℕ → BitVec 8} {a : ℕ}

/-- A start pulse in every cycle, always with the byte zero. -/
def always (_ : ℕ) : Bool := true

def zeros (_ : ℕ) : BitVec 8 := 0

private theorem offset_zeros : offset 0 20 = 505_020 := by
  decide +kernel

private theorem accepts_always (n : ℕ) : accepts s always zeros n = true ↔
    (transmit s always zeros n).state = .idle := by
  rw [accepts_iff, always, and_iff_left rfl]

/-- Where a packet and its wait lead to, with `start` held high. -/
private theorem always_next (j : ℕ) (ha : accepts s always zeros (505_021 * j) = true) :
    if credit (transmit s always zeros (505_021 * j)).burstCounter = 1 then
      accepts s always zeros (505_021 * (j + 1)) = false
    else accepts s always zeros (505_021 * (j + 1)) = true ∧
      credit (transmit s always zeros (505_021 * (j + 1))).burstCounter + 1 =
        credit (transmit s always zeros (505_021 * j)).burstCounter := by
  have hend := wait_ends ha
  rw [show 505_021 * j + 1 + offset (zeros (505_021 * j)) 20 = 505_021 * (j + 1) by
    rw [zeros, offset_zeros]; omega] at hend
  split_ifs with hone
  · rw [if_pos ((burstLimit_le_iff _).mpr hone)] at hend
    -- the transmitter is in the long wait
    apply Bool.eq_false_of_not_eq_true
    rw [accepts_always, hend.state]
    exact (stage_ne_idle le_rfl).1
  · have hshort := mt (burstLimit_le_iff _).mp hone
    rw [if_neg hshort] at hend
    rw [accepts_always, hend.burstCounter]
    exact ⟨hend.state, credit_succ _ hshort⟩

/-- With `start` held high the credit is sent, one packet every 505,021 cycles. -/
theorem accepts_every (hs : s.state = .idle) {j : ℕ} (hj : j < credit s.burstCounter) :
    accepts s always zeros (505_021 * j) = true ∧
      credit (transmit s always zeros (505_021 * j)).burstCounter + j =
        credit s.burstCounter := by
  induction j with
  | zero => exact ⟨(accepts_always 0).mpr hs, rfl⟩
  | succ j ih =>
    obtain ⟨ha, hc⟩ := ih (by omega)
    have hnext := always_next j ha
    rw [if_neg (by omega)] at hnext
    exact ⟨hnext.1, by omega⟩

/-- The start behind it falls into the long wait. -/
private theorem drops_last (hs : s.state = .idle) :
    accepts s always zeros (505_021 * credit s.burstCounter) = false := by
  have hpos := credit_pos s.burstCounter
  obtain ⟨j, hj⟩ : ∃ j, credit s.burstCounter = j + 1 := ⟨credit s.burstCounter - 1, by omega⟩
  obtain ⟨ha, hc⟩ := accepts_every hs (show j < credit s.burstCounter by omega)
  have hnext := always_next j ha
  rw [if_pos (by omega)] at hnext
  rw [hj]
  exact hnext

end Always

/-! ## What a reset erases -/

/-- Behind a reset in both runs, equal inputs give equal envelopes from the first clock
    without reset on, and the same starts are accepted. -/
def ResetErases (s s' : IrTx) : Prop :=
  ∀ i i' : Input, i.reset = true → i'.reset = true → ∀ (start : ℕ → Bool) (data : ℕ → BitVec 8) n,
    envelope (s.step i) start data (n + 1) = envelope (s'.step i') start data (n + 1) ∧
    accepts (s.step i) start data n = accepts (s'.step i') start data n

section Reset

variable {s s' : IrTx} {i : Input}

/-- A reset goes to `IDLE` and leaves the burst counter. -/
private theorem step_reset (hr : i.reset = true) :
    (s.step i).state = .idle ∧ (s.step i).burstCounter = s.burstCounter := by
  rw [step, if_pos hr]
  exact ⟨rfl, rfl⟩

/-- With the same credit a reset leaves no difference. -/
private theorem resetErases_of_credit (h : credit s.burstCounter = credit s'.burstCounter) :
    ResetErases s s' := by
  intro i i' hr hr' start data n
  obtain ⟨hs, hb⟩ := step_reset (s := s) hr
  obtain ⟨hs', hb'⟩ := step_reset (s := s') hr'
  have hstep : ∀ k, InStep (transmit (s.step i) start data (k + 1))
      (transmit (s'.step i') start data (k + 1)) := inStep_transmit hs hs' (by rw [hb, hb', h])
  have hstate : (transmit (s.step i) start data n).state =
      (transmit (s'.step i') start data n).state := by
    cases n with
    | zero => exact hs.trans hs'.symm
    | succ n => exact (hstep n).state
  refine ⟨(hstep n).message, ?_⟩
  rw [accepts, accepts, hstate]

/-- A run with less credit drops a start that one with more credit accepts. -/
private theorem accepts_ne_of_credit_lt (h : credit s.burstCounter < credit s'.burstCounter)
    (hr : i.reset = true) :
    accepts (s.step i) always zeros (505_021 * credit s.burstCounter) = false ∧
      accepts (s'.step i) always zeros (505_021 * credit s.burstCounter) = true := by
  obtain ⟨hs, hb⟩ := step_reset (s := s) hr
  obtain ⟨hs', hb'⟩ := step_reset (s := s') hr
  have hdrop := drops_last hs
  rw [hb] at hdrop
  exact ⟨hdrop, (accepts_every hs' (by rwa [hb'])).1⟩

/-- With another credit it does. -/
private theorem credit_of_resetErases (h : ResetErases s s') :
    credit s.burstCounter = credit s'.burstCounter := by
  have hagree := fun n => (h ⟨true, false, 0⟩ ⟨true, false, 0⟩ rfl rfl always zeros n).2
  rcases Nat.lt_trichotomy (credit s.burstCounter) (credit s'.burstCounter) with hlt | heq | hgt
  · obtain ⟨hdrop, hacc⟩ := accepts_ne_of_credit_lt hlt (i := ⟨true, false, 0⟩) rfl
    rw [hagree, hacc] at hdrop
    cases hdrop
  · exact heq
  · obtain ⟨hdrop, hacc⟩ := accepts_ne_of_credit_lt hgt (i := ⟨true, false, 0⟩) rfl
    rw [← hagree, hacc] at hdrop
    cases hdrop

end Reset

/-- A reset erases the history exactly when it finds the same burst counter in both runs, or
    one behind which the next packet is the last one of its group in both. -/
theorem reset_erases_credit_iff (s s' : IrTx) : ResetErases s s' ↔
    s.burstCounter = s'.burstCounter ∨
      (4 ≤ s.burstCounter.toNat ∧ s.burstCounter.toNat ≤ 6) ∧
        (4 ≤ s'.burstCounter.toNat ∧ s'.burstCounter.toNat ≤ 6) := by
  rw [← credit_eq_iff]
  exact ⟨credit_of_resetErases, resetErases_of_credit⟩

/-- Some inputs lead from power-up to `s`. -/
def Reachable (s : IrTx) : Prop := ∃ (i : ℕ → Input) (n : ℕ), run step powerUp i n = s

/-- The registers behind one packet and its wait. -/
def oneSent : IrTx := transmit powerUp always zeros 505_021

/-- The packet has been counted. -/
private theorem oneSent_burstCounter : oneSent.burstCounter = 1 := by
  have ha : accepts powerUp always zeros 0 = true := by decide
  have hend := wait_ends ha
  rw [if_neg (by decide), zeros, offset_zeros] at hend
  exact hend.burstCounter

/-- One packet before the reset, and the fifth start pulse behind it is dropped. -/
theorem reset_keeps_burstCounter :
    Reachable powerUp ∧ Reachable oneSent ∧
    accepts (powerUp.step ⟨true, false, 0⟩) always zeros 2_020_084 = true ∧
    accepts (oneSent.step ⟨true, false, 0⟩) always zeros 2_020_084 = false ∧
    ¬ ResetErases powerUp oneSent := by
  have hfour : credit oneSent.burstCounter = 4 := by
    rw [oneSent_burstCounter]
    rfl
  have hfive : credit powerUp.burstCounter = 5 := rfl
  have hlt : credit oneSent.burstCounter < credit powerUp.burstCounter := by omega
  obtain ⟨hdrop, hacc⟩ := accepts_ne_of_credit_lt hlt (i := ⟨true, false, 0⟩) rfl
  rw [hfour] at hdrop hacc
  refine ⟨⟨fun _ => ⟨false, false, 0⟩, 0, rfl⟩, ⟨_, _, rfl⟩, hacc, hdrop, fun h => ?_⟩
  have hcredit := credit_of_resetErases h
  omega

end Scope.Native.IrTx
