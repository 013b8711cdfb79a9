import Mathlib.Data.Nat.Count
import Scope.Spec.IrTxTiming
import Scope.Native.RxState

/-!
# Pacing of the packets

The pulse generator of `rx_state` starts a packet with every pulse that finds
`ir_tx` idle.  Five packets fit their pulse periods whatever their bytes are; the
long wait behind the fifth outlasts one more pulse and ends before the next.

## Key results

- `position_pulse` / `position_quiet`: how pulses, packets and the envelope line
  up, step by step
- `packet_pacing`: every sixth pulse is dropped, and the envelope then stays low
-/

namespace Scope.Native

open Sync IrTx

namespace TxPulse

/-- The number of cycles since the previous pulse. -/
def since (g : TxPulse) : ℕ := if g.txPulse then 1_000_001 else g.txTimer.toNat

/-- Behind a pulse the timer starts over. -/
private theorem step_of_pulse {g : TxPulse} (h : g.txPulse = true) :
    g.step.since = 1 ∧ g.step.txTimer.toNat ≤ 1_000_000 := by
  have ht : g.txTimer = 0 := g.settled h
  have hstep : g.step.txPulse = false ∧ g.step.txTimer = 1 := by
    rw [step, if_neg (by rw [ht]; decide)]
    refine ⟨rfl, ?_⟩
    show g.txTimer + 1 = 1
    rw [ht]
    rfl
  rw [since, hstep.1, hstep.2]
  decide

/-- Without one it counts. -/
private theorem step_of_quiet {g : TxPulse} (h : g.txPulse = false)
    (ht : g.txTimer.toNat ≤ 1_000_000) :
    g.step.since = g.since + 1 ∧ g.step.txTimer.toNat ≤ 1_000_000 := by
  unfold step
  split_ifs with hlast
  · simp [since, h, pulsed]
    omega
  · have hcount : (g.txTimer + 1).toNat = g.txTimer.toNat + 1 := BitVec.toNat_add_one (by omega)
    simp only [since, h, hcount]
    simp
    omega

end TxPulse

namespace PulsedTx

/-- The pulse generator and the transmitter in front of clock edge `n`, without reset. -/
def trace (s : PulsedTx) (data : ℕ → BitVec 8) (n : ℕ) : PulsedTx :=
  run step s (fun n => { reset := false, data := data n }) n

variable (s : PulsedTx) (data : ℕ → BitVec 8)

/-- A pulse comes in cycle `n`. -/
def pulse (n : ℕ) : Bool := (s.trace data n).gen.txPulse

/-- A packet starts in cycle `n`: the transmitter leaves `IDLE`. -/
def starts (n : ℕ) : Bool :=
  decide ((s.trace data n).ir0.state = .idle ∧ (s.trace data (n + 1)).ir0.state = .headerBurst)

/-- The number of pulses before cycle `n`. -/
def pulses (n : ℕ) : ℕ := Nat.count (fun m => s.pulse data m = true) n

/-- The number of packets that have started before cycle `n`. -/
def packets (n : ℕ) : ℕ := Nat.count (fun m => s.starts data m = true) n

/-- For how long the envelope has been low. -/
def lowFor (n : ℕ) : ℕ := streak (fun m => !(s.trace data m).ir0.message) n

/-- Where pulse generator and transmitter are after `P` pulses, when the envelope
    has been low for `low` cycles. -/
inductive Position (P low : ℕ) (x : PulsedTx) : Prop
  | rest : x.ir0.state = .idle → x.ir0.burstCounter.toNat = P % 6 → P % 6 ≤ 4 →
      (0 < P → x.gen.txTimer.toNat ≤ 1_000_000) →
      (0 < P → P % 6 = 0 → 700_001 ≤ low) → Position P low x
  | sending {v : BitVec 8} {c : BitVec 3} {n k : ℕ} : Sending v c n k x.ir0 →
      x.gen.txTimer.toNat ≤ 1_000_000 → x.gen.since = 1 + offset v n + k →
      P % 6 = c.toNat + 1 → (n = 20 → c = 4) → (n = 19 → k ≤ low) →
      (n = 20 → 100_001 + k ≤ low) → Position P low x
  | dropped {v : BitVec 8} {k : ℕ} : Sending v 4 20 k x.ir0 →
      x.gen.txTimer.toNat ≤ 1_000_000 → x.gen.since + 1_000_001 = 1 + offset v 20 + k →
      P % 6 = 0 → 100_001 + k ≤ low → Position P low x

section Step

variable {P low low' : ℕ} {x : PulsedTx} {i : Input}

/-- The long wait starts and ends between two pulses that are counted from the
    fifth packet of a group. -/
private theorem offset_longWait (v : BitVec 8) : 505_020 ≤ offset v 20 ∧ offset v 20 ≤ 665_020 := by
  have h := offset_wait v
  have hwait : dwell v 19 = 100_001 := by simp [dwell, tickWaitGap]
  rw [offset_succ v 19, hwait]
  omega

private theorem dwell_longWait (v : BitVec 8) : dwell v 20 = 600_001 := by
  simp [dwell, tickLongWait]

/-- Only the long wait is still going on after a pulse period. -/
private theorem longWait_of_period {v : BitVec 8} {c : BitVec 3} {n k : ℕ} {tx : IrTx}
    (h : Sending v c n k tx) (hage : 1_000_001 = 1 + offset v n + k) : n = 20 := by
  by_contra hne
  have hle := h.last
  have hoff := offset_longWait v
  have hmono := offset_mono (v := v) (show n + 1 ≤ 20 by omega)
  have hlt := h.lt
  rw [offset_succ] at hmono
  omega

/-- The position when a pulse comes. -/
theorem position_pulse (h : Position P low x) (hr : i.reset = false)
    (hp : x.gen.txPulse = true) (hlow : (x.step i).ir0.message = false → low' = low + 1) :
    Position (P + 1) low' (x.step i) := by
  obtain ⟨hsince, htimer⟩ := TxPulse.step_of_pulse hp
  have hnow : x.gen.since = 1_000_001 := if_pos hp
  have hin : (⟨i.reset, x.gen.txPulse, i.data⟩ : IrTx.Input).start = true := hp
  cases h with
  | rest hidle hburst hP _ _ =>
    have hs := step_accept (i := ⟨i.reset, x.gen.txPulse, i.data⟩) hidle hr hin
    exact .sending hs htimer hsince (by omega) (by omega) (by omega) (by omega)
  -- the pulse before is a whole period old, so only the long wait can still be running
  | @sending v c n k hs _ hage hP hlast _ hlow20 =>
    have hoff := offset_longWait v
    obtain rfl : n = 20 := longWait_of_period hs (by omega)
    have hd := dwell_longWait v
    obtain rfl : c = 4 := hlast rfl
    have hs' := step_count (i := ⟨i.reset, x.gen.txPulse, i.data⟩) hs hr (by omega)
    have hlow' := hlow hs'.message
    have := hlow20 rfl
    have h4 : (4 : BitVec 3).toNat = 4 := rfl
    exact .dropped hs' htimer (show x.gen.step.since + _ = _ by omega) (by omega) (by omega)
  -- the long wait is over well before the second pulse behind its start
  | @dropped v k hs _ hage _ _ =>
    have hoff := offset_longWait v
    have hd := dwell_longWait v
    have hlt := hs.lt
    omega

/-- The position when no pulse comes. -/
theorem position_quiet (h : Position P low x) (hr : i.reset = false)
    (hp : x.gen.txPulse = false) (hlow : (x.step i).ir0.message = false → low' = low + 1) :
    Position P low' (x.step i) := by
  have hin : (⟨i.reset, x.gen.txPulse, i.data⟩ : IrTx.Input).start = false := hp
  have hnow : x.gen.since = x.gen.txTimer.toNat := by simp [TxPulse.since, hp]
  cases h with
  | rest hidle hburst hP htimer hquiet =>
    have hs := step_idle (i := ⟨i.reset, x.gen.txPulse, i.data⟩) hidle hr hin
    have hlow' := hlow hs.message
    refine .rest hs.state (by rw [← hburst]; exact congrArg _ hs.burstCounter) hP
      (fun h0 => (TxPulse.step_of_quiet hp (htimer h0)).2) (fun h0 h6 => ?_)
    have := hquiet h0 h6
    omega
  | @sending v c n k hs htimer hage hP hlast hlow19 hlow20 =>
    obtain ⟨hsince, htimer'⟩ := TxPulse.step_of_quiet hp htimer
    have hoff := offset_longWait v
    have hlt := hs.lt
    -- inside a stage only the count moves, and in a wait the envelope is low
    by_cases hk : k + 1 < dwell v n
    · have hs' := step_count (i := ⟨i.reset, x.gen.txPulse, i.data⟩) hs hr hk
      refine .sending hs' htimer' (show x.gen.step.since = _ by omega) hP hlast
        (fun hn => ?_) (fun hn => ?_)
      · subst hn
        have hlow' := hlow hs'.message
        have := hlow19 rfl
        omega
      · subst hn
        have hlow' := hlow hs'.message
        have := hlow20 rfl
        omega
    have hk' : k + 1 = dwell v n := by omega
    rcases Nat.lt_trichotomy n 19 with hn | rfl | hn
    · have hs' := step_next (i := ⟨i.reset, x.gen.txPulse, i.data⟩) hs hr hk' hn
      refine .sending hs' htimer' (show x.gen.step.since = _ by rw [offset_succ]; omega) hP
        (by omega) (by omega) (by omega)
    · have hwait := step_wait (i := ⟨i.reset, x.gen.txPulse, i.data⟩) hs hr hk'
      -- the packet is counted at the end of its wait: the fifth one goes on to the long wait
      have hc : (c + 1).toNat = c.toNat + 1 := BitVec.toNat_add_one (by omega)
      have hd : dwell v 19 = 100_001 := by simp [dwell, tickWaitGap]
      have := hlow19 rfl
      split_ifs at hwait with hlim
      · have hlow' := hlow hwait.message
        have hc4 : c = 4 := by
          apply BitVec.eq_of_toNat_eq
          show _ = 4
          simp only [burstLimit] at hlim
          omega
        refine .sending hwait htimer' (show x.gen.step.since = _ by rw [offset_succ]; omega) hP
          (fun _ => hc4) (by omega) (fun _ => by omega)
      · have hlow' := hlow hwait.message
        simp only [burstLimit] at hlim
        refine .rest hwait.state ?_ (by omega) (fun _ => htimer') (by omega)
        have : (x.step i).ir0.burstCounter.toNat = (c + 1).toNat := congrArg _ hwait.burstCounter
        omega
    · -- a pulse comes before the long wait is over
      obtain rfl : n = 20 := by have := hs.last; omega
      have hd := dwell_longWait v
      omega
  -- behind the dropped pulse the long wait runs out and clears the burst counter
  | @dropped v k hs htimer hage hP hlow20 =>
    obtain ⟨hsince, htimer'⟩ := TxPulse.step_of_quiet hp htimer
    have hlt := hs.lt
    by_cases hk : k + 1 < dwell v 20
    · have hs' := step_count (i := ⟨i.reset, x.gen.txPulse, i.data⟩) hs hr hk
      have hlow' := hlow hs'.message
      exact .dropped hs' htimer' (show x.gen.step.since + _ = _ by omega) hP (by omega)
    · have hs' := step_longWait (i := ⟨i.reset, x.gen.txPulse, i.data⟩) hs hr (by omega)
      have hlow' := hlow hs'.message
      have hd := dwell_longWait v
      refine .rest hs'.state ?_ (by omega) (fun _ => htimer') (fun _ _ => by omega)
      have : (x.step i).ir0.burstCounter = 0 := hs'.burstCounter
      rw [this, hP]
      rfl

end Step

section Trace

variable {s : PulsedTx} {data : ℕ → BitVec 8}

theorem trace_succ (n : ℕ) : s.trace data (n + 1) =
    (s.trace data n).step { reset := false, data := data n } := rfl

private theorem lowFor_succ {n : ℕ} (h : (s.trace data (n + 1)).ir0.message = false) :
    s.lowFor data (n + 1) = s.lowFor data n + 1 :=
  streak_succ_of (by rw [h]; rfl)

variable (data) in
/-- In every cycle the boards are in one of the positions. -/
theorem position_run (hidle : s.ir0.state = .idle) (hburst : s.ir0.burstCounter = 0) (n : ℕ) :
    Position (s.pulses data n) (s.lowFor data n) (s.trace data n) := by
  induction n with
  | zero =>
    have h0 : s.pulses data 0 = 0 := Nat.count_zero _
    rw [h0]
    refine .rest hidle ?_ (by omega) (by omega) (by omega)
    show s.ir0.burstCounter.toNat = _
    rw [hburst]
    rfl
  | succ n ih =>
    have hcount : s.pulses data (n + 1) =
        s.pulses data n + if s.pulse data n = true then 1 else 0 := Nat.count_succ _ n
    rw [hcount, trace_succ]
    cases hp : s.pulse data n
    · exact position_quiet ih rfl hp lowFor_succ
    · exact position_pulse ih rfl hp lowFor_succ

/-- A packet starts exactly when a pulse finds the transmitter idle. -/
private theorem starts_iff (n : ℕ) : s.starts data n = true ↔
    (s.trace data n).ir0.state = .idle ∧ s.pulse data n = true := by
  unfold starts
  rw [decide_eq_true_iff, trace_succ]
  refine and_congr_right fun hidle => ?_
  cases hp : s.pulse data n
  · have hs := step_idle (i := ⟨false, (s.trace data n).gen.txPulse, data n⟩) hidle rfl hp
    have : ((s.trace data n).step { reset := false, data := data n }).ir0.state = .idle := hs.state
    simp [this]
  · have hs := step_accept (i := ⟨false, (s.trace data n).gen.txPulse, data n⟩) hidle rfl hp
    have : ((s.trace data n).step { reset := false, data := data n }).ir0.state = .headerBurst :=
      hs.state
    simp [this]

/-- A pulse finds the transmitter idle unless it is the sixth of its group. -/
theorem idle_of_pulse {P low : ℕ} {x : PulsedTx} (h : Position P low x)
    (hp : x.gen.txPulse = true) : x.ir0.state = .idle ↔ P % 6 ≠ 5 := by
  have hnow : x.gen.since = 1_000_001 := if_pos hp
  cases h with
  | rest hidle hburst hP _ _ => simp only [hidle, true_iff]; omega
  -- still in the long wait: this is the pulse that is dropped
  | @sending v c n k hs _ hage hP hlast _ _ =>
    have hne := (stage_ne_idle hs.last).1
    rw [← hs.state] at hne
    obtain rfl : c = 4 := hlast (longWait_of_period hs (by omega))
    have h4 : (4 : BitVec 3).toNat = 4 := rfl
    simp only [hne, false_iff]
    omega
  | @dropped v k hs _ hage _ _ =>
    have hoff := offset_longWait v
    have hd := dwell_longWait v
    have hlt := hs.lt
    omega

variable (data) in
/-- Five packets start with every six pulses. -/
private theorem packets_eq (hidle : s.ir0.state = .idle) (hburst : s.ir0.burstCounter = 0) (n : ℕ) :
    s.packets data n = 5 * (s.pulses data n / 6) + s.pulses data n % 6 := by
  induction n with
  | zero => simp [packets, pulses]
  | succ n ih =>
    have hpos := position_run data hidle hburst n
    have hpulses : s.pulses data (n + 1) =
        s.pulses data n + if s.pulse data n = true then 1 else 0 := Nat.count_succ _ n
    have hpackets : s.packets data (n + 1) =
        s.packets data n + if s.starts data n = true then 1 else 0 := Nat.count_succ _ n
    simp only [hpulses, hpackets, ih, starts_iff]
    cases hp : s.pulse data n
    · simp
    · have hiff := idle_of_pulse hpos hp
      -- the sixth pulse of a group starts nothing
      by_cases h5 : s.pulses data n % 6 = 5
      · rw [if_neg fun h => hiff.mp h.1 h5, if_pos rfl]
        omega
      · rw [if_pos ⟨hiff.mpr h5, rfl⟩, if_pos rfl]
        omega

/-- **Packet pacing.**  A packet starts with the `k`-th pulse exactly when `k` is
    not a multiple of 6, and with nothing else; the burst counter never passes
    its limit and is at most 4 in `IDLE`; and in front of a packet whose number of
    predecessors is a multiple of five the envelope has been low for the two waits. -/
theorem packet_pacing (s : PulsedTx) (data : ℕ → BitVec 8) (hidle : s.ir0.state = .idle)
    (hburst : s.ir0.burstCounter = 0) (n : ℕ) :
    (s.pulse data n = true → (s.starts data n = true ↔ ¬ 6 ∣ s.pulses data (n + 1))) ∧
    (s.starts data n = true → s.pulse data n = true) ∧
    (s.trace data n).ir0.burstCounter.toNat ≤ burstLimit ∧
    ((s.trace data n).ir0.state = .idle → (s.trace data n).ir0.burstCounter.toNat ≤ 4) ∧
    (s.starts data n = true → 0 < s.packets data n → 5 ∣ s.packets data n →
      ∀ t ≤ n + 1, n + 1 < t + (tickWaitGap + tickLongWait) →
        (s.trace data t).ir0.message = false) := by
  have hpos := position_run data hidle hburst n
  refine ⟨fun hp => ?_, fun h => ((starts_iff n).mp h).2, ?_, fun h => ?_, fun h h0 h5 => ?_⟩
  · have hcount : s.pulses data (n + 1) =
        s.pulses data n + if s.pulse data n = true then 1 else 0 := Nat.count_succ _ n
    rw [starts_iff, hcount, if_pos hp, idle_of_pulse hpos hp]
    simp only [hp, and_true]
    omega
  · cases hpos with
    | rest _ hb hP _ _ => simp only [burstLimit]; omega
    | @sending v c m k hs _ _ hP _ _ _ =>
      rw [hs.burstCounter]
      have hc : (c + 1).toNat = c.toNat + 1 := BitVec.toNat_add_one (by omega)
      simp only [burstLimit]
      split_ifs <;> omega
    | @dropped v k hs _ _ _ _ => rw [hs.burstCounter]; decide
  · cases hpos with
    | rest _ hb hP _ _ => omega
    | sending hs _ _ _ _ _ _ =>
      exact absurd (hs.state.symm.trans h) (stage_ne_idle hs.last).1
    | dropped hs _ _ _ _ => exact absurd (hs.state.symm.trans h) (stage_ne_idle hs.last).1
  · obtain ⟨hi, hp⟩ := (starts_iff n).mp h
    have hK := packets_eq data hidle hburst n
    -- a multiple of five packets is a multiple of six pulses, and the transmitter rests
    have hlow : 700_001 ≤ s.lowFor data n := by
      cases hpos with
      | rest _ hb hP _ hquiet => exact hquiet (by omega) (by omega)
      | sending hs _ _ _ _ _ _ =>
        exact absurd (hs.state.symm.trans hi) (stage_ne_idle hs.last).1
      | dropped hs _ _ _ _ => exact absurd (hs.state.symm.trans hi) (stage_ne_idle hs.last).1
    -- in the cycle behind the start the envelope is still low
    have hnext : (s.trace data (n + 1)).ir0.message = false :=
      (step_accept (i := ⟨false, (s.trace data n).gen.txPulse, data n⟩) hi rfl hp).message
    have hlow' := lowFor_succ hnext
    intro t ht hlate
    have := of_streak (p := fun m => !(s.trace data m).ir0.message) ht
      (show n + 1 < t + s.lowFor data (n + 1) by
        simp only [tickWaitGap, tickLongWait] at hlate
        omega)
    simpa using this

end Trace

/-- Both FSMs at rest, in a cycle with a pulse. -/
def firstPulse : PulsedTx where
  gen := .pulsed
  ir0 := .powerUp

/-- From there on a pulse comes every 1,000,001 cycles. -/
private theorem firstPulse_gen (data : ℕ → BitVec 8) (n : ℕ) :
    (firstPulse.trace data n).gen.txTimer.toNat = n % 1_000_001 ∧
      firstPulse.pulse data n = decide (n % 1_000_001 = 0) := by
  induction n with
  | zero => exact ⟨rfl, rfl⟩
  | succ n ih =>
    have hstep : (firstPulse.trace data (n + 1)).gen = (firstPulse.trace data n).gen.step := rfl
    rw [pulse, hstep, TxPulse.step]
    rcases Nat.lt_or_ge (firstPulse.trace data n).gen.txTimer.toNat 1_000_000 with h | h
    · rw [if_neg (by omega)]
      refine ⟨(BitVec.toNat_add_one (by omega)).trans (by omega), ?_⟩
      exact (decide_eq_false (by omega)).symm
    · rw [if_pos h]
      exact ⟨(show 0 = _ by omega), (decide_eq_true (by omega)).symm⟩

/-- So the pulses can be counted. -/
private theorem firstPulse_pulses (data : ℕ → BitVec 8) (n : ℕ) :
    firstPulse.pulses data n = (n + 1_000_000) / 1_000_001 := by
  induction n with
  | zero => exact Nat.count_zero _
  | succ n ih =>
    have hcount : firstPulse.pulses data (n + 1) = firstPulse.pulses data n +
        if firstPulse.pulse data n = true then 1 else 0 := Nat.count_succ _ n
    rw [hcount, ih, (firstPulse_gen data n).2]
    simp only [decide_eq_true_iff]
    split_ifs <;> omega

/-- The sixth pulse comes and starts nothing. -/
theorem firstPulse_packet_pacing : ∃ n, firstPulse.pulse (fun _ => 0x15) n = true ∧
    firstPulse.pulses (fun _ => 0x15) (n + 1) = 6 ∧
    firstPulse.starts (fun _ => 0x15) n = false := by
  obtain ⟨n, hn⟩ : ∃ n, n = 5 * 1_000_001 := ⟨_, rfl⟩
  have hp : firstPulse.pulse (fun _ => 0x15) n = true := by
    rw [(firstPulse_gen _ n).2]
    exact decide_eq_true (by omega)
  have h6 : firstPulse.pulses (fun _ => 0x15) (n + 1) = 6 := by
    rw [firstPulse_pulses]
    omega
  obtain ⟨hpulse, -⟩ := packet_pacing firstPulse (fun _ => 0x15) rfl rfl n
  refine ⟨n, hp, h6, ?_⟩
  by_contra hstart
  exact (hpulse hp).mp (by simpa using hstart) (h6 ▸ dvd_rfl)

end PulsedTx

end Scope.Native
