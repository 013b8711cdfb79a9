import Scope.Spec.IrRxRecovery
import Scope.Spec.LinkReset

/-!
# The receiver cannot be wedged

Whatever the line does, the receiver is back in `IDLE` after the time that eighteen
runs can take at most: each of them ends with an edge or with the timeout.

## Key results

- `Flagged.advance`: `recv` and `bit_count` through the three blocks of a clock edge
- `Busy.advance`: a cycle outside `IDLE` is one of those that are left
- `never_wedged`: both for every run behind a reset
-/

namespace Scope.Native.IrRx

open Sync LinkReset

/-! ## The flags -/

/-- `recv` is high outside `IDLE`, and `bit_count` does not pass the last bit. -/
structure Flagged (n : Fsm) : Prop where
  recv : n.recv = decide (n.state ≠ .idle)
  bitCount : n.bitCount.toNat ≤ 7

section Flags

variable {s n : Fsm} {b : Bool}

/-- Giving up clears `recv`. -/
theorem Flagged.reject (h : Flagged n) : Flagged n.reject := ⟨rfl, h.bitCount⟩

theorem Flagged.count (h : Flagged n) : Flagged (s.count n) := by
  unfold Fsm.count
  split_ifs
  · exact ⟨h.recv, h.bitCount⟩
  · exact h

/-- Putting out a byte clears `recv`. -/
theorem Flagged.validate (h : Flagged n) : Flagged (s.validate n) := by
  unfold Fsm.validate
  split_ifs
  · exact ⟨rfl, h.bitCount⟩
  · exact h

/-- The timeout clears `recv`. -/
theorem Flagged.timeOut (h : Flagged n) : Flagged (s.timeOut n) := by
  unfold Fsm.timeOut
  split_ifs
  · exact ⟨rfl, Nat.zero_le _⟩
  · exact h

/-- The edge branch, whose values are those in front of the clock edge. -/
theorem Flagged.edge (h : Flagged s) : Flagged (s.edge { s with done := false }) := by
  have hrecv := h.recv
  have hbits := h.bitCount
  unfold Fsm.edge
  -- `recv` follows the state; `bit_count` is written in `HEADER_SPACE` and `DATA_SPACE` only
  cases hs : s.state with
  | idle =>
    rw [hs] at hrecv
    simp only
    split_ifs
    · exact ⟨rfl, hbits⟩
    · exact ⟨by simpa [hs] using hrecv, hbits⟩
  | headerBurst =>
    simp only
    split_ifs
    · exact ⟨by simpa [hs] using hrecv, hbits⟩
    · exact ⟨rfl, hbits⟩
  | headerSpace =>
    simp only
    split_ifs
    · exact ⟨by simpa [hs] using hrecv, Nat.zero_le _⟩
    · exact ⟨rfl, hbits⟩
  | dataBurst =>
    simp only
    split_ifs
    · exact ⟨by simpa [hs] using hrecv, hbits⟩
    · exact ⟨rfl, hbits⟩
  | dataSpace =>
    simp only
    split_ifs with h7
    · exact ⟨by simpa [hs] using hrecv, hbits⟩
    -- below 7 there is room for one more
    · have hlt : s.bitCount.toNat < 7 := by
        rcases Nat.lt_or_ge s.bitCount.toNat 7 with hlt | hge
        · exact hlt
        · exact absurd (BitVec.eq_of_toNat_eq (show s.bitCount.toNat = 7 by omega)) h7
      refine ⟨by simpa [hs] using hrecv, ?_⟩
      show (s.bitCount + 1).toNat ≤ 7
      rw [BitVec.toNat_add_one (by omega)]
      omega
  | validate => exact ⟨rfl, hbits⟩
  | unused low => exact ⟨by simpa [hs] using hrecv, hbits⟩

/-- A clock edge keeps `recv` in line with the state. -/
theorem Flagged.advance (h : Flagged s) : Flagged (s.advance b) := by
  unfold Fsm.advance
  apply Flagged.timeOut
  apply Flagged.validate
  split_ifs
  · exact Flagged.count ⟨h.recv, h.bitCount⟩
  · exact ⟨h.edge.recv, h.edge.bitCount⟩

end Flags

/-! ## The cycles that are left -/

/-- The time that eighteen runs and `VALIDATE` can take. -/
def longest : ℕ := 18 * (timeout + 1) + 1

/-- What is left of it when `p` runs have been closed and `k` cycles of the next one counted. -/
def left (p k : ℕ) : ℕ := (18 - p) * (timeout + 1) + 1 - k

/-- The receiver is idle, or has enough time left to have been outside `IDLE` for `j` cycles. -/
inductive Busy (j : ℕ) (s : Fsm) : Prop
  | idle : s.state = .idle → Busy j s
  | reception {d : BitVec 8} {ds : List ℕ} {k : ℕ} : Reception d ds k s →
      (ds.length = 18 → k = 0) → left ds.length k + j ≤ longest → Busy j s

section Progress

variable {s : Fsm} {b : Bool} {j : ℕ}

/-- A reception counts as busy from its begin. -/
theorem Busy.start (h : Busy j s) : Busy 0 s := by
  cases h with
  | idle hi => exact .idle hi
  | reception hr hfull hleft => exact .reception hr hfull (by omega)

/-- No reception is busy for longer than the longest one. -/
theorem Busy.lt (h : Busy j s) (hi : s.state ≠ .idle) : j < longest := by
  cases h with
  | idle hi' => exact absurd hi' hi
  | @reception d ds k hr hfull hleft =>
    have hk := hr.count
    have hpos : 0 < left ds.length k := by
      unfold left
      rcases Nat.lt_or_ge ds.length 18 with hlt | hge
      · have := Nat.mul_le_mul_right (timeout + 1) (show 1 ≤ 18 - ds.length by omega)
        omega
      · have := hfull (by have := hr.short; omega)
        omega
    omega

/-- Behind a cycle in `IDLE` all of the time is left. -/
private theorem busy_of_idle (hi : s.state = .idle) : Busy 0 (s.advance b) := by
  rcases (idle_step (b := b) hi).2 with hidle | ⟨-, hr⟩
  · exact .idle hidle
  · exact .reception hr (by simp) (by simp [left, longest])

/-- A cycle outside `IDLE` is one of those that are left. -/
theorem Busy.advance (h : Busy j s) (hi : s.state ≠ .idle) : Busy (j + 1) (s.advance b) := by
  cases h with
  | idle hi' => exact absurd hi' hi
  | @reception d ds k hr hfull hleft =>
    have hk := hr.count
    rcases Nat.lt_or_ge ds.length 18 with hlt | hge
    · cases hr.step (b := b) hlt with
      | idle hidle _ => exact .idle hidle
      -- one more cycle of the run
      | quiet _ hkt hr' =>
        refine .reception hr' (by omega) ?_
        have := Nat.mul_le_mul_right (timeout + 1) (show 1 ≤ 18 - ds.length by omega)
        unfold left at hleft ⊢
        omega
      -- the next run has the whole timeout again
      | edge _ _ hr' =>
        refine .reception hr' (fun _ => rfl) ?_
        have hmul : (18 - ds.length) * (timeout + 1) =
            (18 - (ds.length + 1)) * (timeout + 1) + (timeout + 1) := by
          rw [show 18 - ds.length = 18 - (ds.length + 1) + 1 by omega, Nat.succ_mul]
        rw [List.length_append, List.length_singleton]
        unfold left at hleft ⊢
        omega
    · have h18 : ds.length = 18 := by have := hr.short; omega
      obtain rfl := hfull h18
      exact .idle (hr.toReceiving.finish h18).1

/-- Behind a clock edge the receiver is idle or in a reception, which sets its level. -/
theorem Busy.level (h : Busy j s) : (∀ low, s.state ≠ .unused low) ∧
    (s.state = .headerBurst ∨ s.state = .dataBurst ∨ s.state = .validate →
      s.prevLevel = false) ∧
    (s.state = .headerSpace ∨ s.state = .dataSpace → s.prevLevel = true) := by
  cases h with
  | idle hi => simp [hi]
  | @reception d ds k hr _ _ =>
    have hlevel := hr.level
    rw [hr.state, hlevel]
    -- the states alternate with the levels
    match ds.length with
    | 0 => simp [stage]
    | 1 => simp [stage]
    | n + 2 =>
      simp only [stage]
      split_ifs <;> simp <;> omega

end Progress

/-! ## Runs -/

section Runs

variable {x : IrRx} {i : ℕ → Input} {r n : ℕ}

/-- What holds behind a reset. -/
structure Sane (s : Fsm) : Prop where
  flags : Flagged s
  busy : Busy 0 s

private theorem sane_resetRegs : Sane Fsm.resetRegs := ⟨⟨rfl, Nat.zero_le _⟩, .idle rfl⟩

/-- A clock edge leaves sane registers. -/
theorem Sane.step {s : Fsm} (h : Sane s) (reset b : Bool) : Sane (s.step reset b) := by
  cases reset with
  | true => exact sane_resetRegs
  | false =>
    refine ⟨h.flags.advance, ?_⟩
    by_cases hi : s.state = .idle
    · exact busy_of_idle hi
    · exact (h.busy.advance hi).start

/-- Behind a reset the registers are sane. -/
private theorem sane_run (hr : (i r).reset = true) (hn : r < n) :
    Sane (run IrRx.step x i n).fsm := by
  induction n, hn using Nat.le_induction with
  | base =>
    have hfsm : (run IrRx.step x i (r + 1)).fsm = Fsm.resetRegs := by
      rw [run_succ]
      exact if_pos hr
    rw [hfsm]
    exact sane_resetRegs
  | succ n _ ih => exact ih.step _ _

/-- Cycle by cycle the time outside `IDLE` is used up. -/
private theorem busy_run (h : Sane (run IrRx.step x i n).fsm) {K : ℕ}
    (hK : ∀ k < K, (run IrRx.step x i (n + k)).fsm.state ≠ .idle) :
    Busy K (run IrRx.step x i (n + K)).fsm := by
  induction K with
  | zero => exact h.busy
  | succ K ih =>
    have hbusy := ih fun k hk => hK k (by omega)
    have hstep : (run IrRx.step x i (n + (K + 1))).fsm =
        (run IrRx.step x i (n + K)).fsm.step (i (n + K)).reset
          (run IrRx.step x i (n + K)).irSync := rfl
    rw [hstep]
    cases (i (n + K)).reset with
    | true => exact .idle rfl
    | false => exact hbusy.advance (hK K (by omega))

end Runs

/-- **The receiver cannot be wedged.**  In every cycle behind a reset `recv` says whether it
    is outside `IDLE`, `bit_count` is at most 7 and `prev_level` is the level that the state
    implies; and it is not outside `IDLE` for longer than eighteen timeouts. -/
theorem never_wedged (x : IrRx) (i : ℕ → Input) (r n : ℕ) (hr : (i r).reset = true)
    (hn : r < n) :
    ((run IrRx.step x i n).fsm.recv = true ↔ (run IrRx.step x i n).fsm.state ≠ .idle) ∧
    (run IrRx.step x i n).fsm.bitCount.toNat ≤ 7 ∧
    ((run IrRx.step x i n).fsm.state = .headerBurst ∨
        (run IrRx.step x i n).fsm.state = .dataBurst ∨
        (run IrRx.step x i n).fsm.state = .validate →
      (run IrRx.step x i n).fsm.prevLevel = false) ∧
    ((run IrRx.step x i n).fsm.state = .headerSpace ∨
        (run IrRx.step x i n).fsm.state = .dataSpace →
      (run IrRx.step x i n).fsm.prevLevel = true) ∧
    ∀ K, (∀ k < K, (run IrRx.step x i (n + k)).fsm.state ≠ .idle) →
      K ≤ 18 * (timeout + 1) + 1 := by
  have h := sane_run (x := x) hr hn
  obtain ⟨-, hlow, hhigh⟩ := h.busy.level
  refine ⟨?_, h.flags.bitCount, hlow, hhigh, fun K hK => ?_⟩
  · rw [h.flags.recv, decide_eq_true_iff]
  · rcases K with _ | K
    · exact Nat.zero_le _
    · have hbusy := busy_run h (K := K) fun k hk => hK k (by omega)
      exact hbusy.lt (hK K (by omega))

/-- Arbitrary registers, reset in cycle 0, and a line that stays low. -/
def stuckLow (n : ℕ) : Input where
  irInput := false
  reset := n = 0

/-- A line that is stuck low does not keep the receiver busy. -/
theorem stuckLow_not_wedged : ¬ ∀ k < 9_000_020,
    (run IrRx.step corrupted stuckLow (1 + k)).fsm.state ≠ .idle := by
  intro h
  have hle := (never_wedged corrupted stuckLow 0 1 rfl (by decide)).2.2.2.2 9_000_020 h
  exact absurd hle (by decide)

end Scope.Native.IrRx
