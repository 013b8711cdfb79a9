import Scope.ForStd.Envelope
import Scope.Spec.ClockDomains

/-!
# The carrier

What leaves `ir_tx` is `ir_out`, the carrier of 38 kHz while `message` is high.
A detector that holds a high for longer than the low half of a carrier period
gets the envelope back, up to a delay of each edge.

## Key results

- `carrier_recurs`: the carrier is never low for more than half a period
- `carries_pin`: what is detected of `ir_out` carries the envelope
- `Channel`: detector, delays and the clock of the receiver
- `round_trip_pin`: the round trip from `ir_out`, between two clocks
-/

namespace Scope.Native.IrLink

open Sync Wave IrTx IrRx

/-- The pin `ir_out`. -/
def pin (s : IrTx) (start : ℕ → Bool) (data : ℕ → BitVec 8) (n : ℕ) : Bool :=
  (transmit s start data n).irOut

section Carrier

variable {s : IrTx} {start : ℕ → Bool} {data : ℕ → BitVec 8} {H n : ℕ}

/-- Nothing but the clock moves the carrier divider. -/
theorem step_c0 (i : IrTx.Input) (s : IrTx) :
    (s.step i).c0 = s.c0.step (divider 50_000_000 38_000) := by
  simp only [IrTx.step, advance, nextBitLogic]
  repeat' split
  all_goals rfl

/-- The divider counts down from 656 and never gets above it. -/
private theorem carrier_count (start : ℕ → Bool) (data : ℕ → BitVec 8) (h : s.c0.count.toNat ≤ 656)
    (n : ℕ) :
    (transmit s start data n).c0.count.toNat ≤ 656 := by
  induction n with
  | zero => exact h
  | succ n ih =>
    rw [transmit_succ, step_c0, ClkDiv.step]
    split
    · exact (show (BitVec.ofNat 11 (divider 50_000_000 38_000)).toNat ≤ 656 by decide)
    · next hne =>
      have hpos : 0 < (transmit s start data n).c0.count.toNat :=
        Nat.pos_of_ne_zero fun h0 => hne (BitVec.eq_of_toNat_eq h0)
      rw [BitVec.toNat_sub_one hpos]
      omega

/-- From every cycle on, the carrier is high within 658 cycles. -/
theorem carrier_recurs (h : s.c0.count.toNat ≤ 656) (start : ℕ → Bool) (data : ℕ → BitVec 8) :
    Recurs 658 fun n => (transmit s start data n).c0.clkout := by
  refine recurs_of_countdown (fun n => if (transmit s start data n).c0.clkout then 0
    else (transmit s start data n).c0.count.toNat + 1) (fun n => ?_) fun n hn => ?_
  · have := carrier_count start data h n
    split_ifs <;> omega
  · -- the divider counts down to 0 and flips there
    rw [transmit_succ, step_c0, ClkDiv.step, hn, if_neg (show ¬ false = true by simp)]
    by_cases h0 : (transmit s start data n).c0.count = 0
    · simp [h0]
    · have hpos : 0 < (transmit s start data n).c0.count.toNat :=
        Nat.pos_of_ne_zero fun h' => h0 (BitVec.eq_of_toNat_eq h')
      rw [if_neg h0, if_neg h0, if_neg (show ¬ false = true by simp), BitVec.toNat_sub_one hpos]
      omega

/-- How long the detector takes to show the edge of the envelope in cycle `e`. -/
def pinDelay (H : ℕ) (s : IrTx) (start : ℕ → Bool) (data : ℕ → BitVec 8) (e : ℕ) : ℕ :=
  delay H (envelope s start data) (detected H (pin s start data)) e

/-- What is detected carries the envelope. -/
theorem carries_pin (start : ℕ → Bool) (data : ℕ → BitVec 8) (hidle : s.state = .idle)
    (hlow : s.message = false) (hcount : s.c0.count.toNat ≤ 656) (hH : 658 ≤ H)
    (hH' : H ≤ 15_000) :
    Carries false (envelope s start data) false (detected H (pin s start data))
      (fun e => e + pinDelay H s start data e) := by
  have hrec : Recurs H fun n => (transmit s start data n).c0.clkout := fun n => by
    obtain ⟨k, hnk, hk, hc⟩ := carrier_recurs hcount start data n
    exact ⟨k, hnk, by omega, hc⟩
  exact carries_detected hrec fun e e' he he' hlt => by
    have := edges_spaced hidle hlow he he' hlt
    omega

end Carrier

/-- The way from `ir_out` on one board to `ir_rx` on the other: a detector that holds a high
    for longer than the low half of the carrier, a delay of its own for every edge, and the
    clock of the receiver. -/
structure Channel where
  clock : Clock
  lo : ℕ
  hi : ℕ
  q : ℕ
  paced : clock.Paced lo hi q
  start : clock.cycle 0 = 0
  hold : ℕ
  covers : 658 ≤ hold
  delay : ℕ → ℕ
  fixed : ℕ
  jitter : ℕ
  bounded : ∀ e, fixed ≤ delay e ∧ delay e ≤ fixed + jitter
  tolerance : Tolerance lo hi q (jitter + hold)

namespace Channel

variable (ch : Channel) {tx : IrTx} {start : ℕ → Bool} {data : ℕ → BitVec 8}

/-- The line into `ir_rx`, in the cycles of its clock. -/
def wire (x : ℕ → Bool) : ℕ → Bool := ch.clock.sampled (line ch.delay (detected ch.hold x))

/-- From the start pulse to the byte. -/
def latency : ℕ := ch.fixed + (ch.jitter + ch.hold) + 550_019

/-- The delay of the edge of the envelope in cycle `e`, detector and channel together. -/
def edgeDelay (tx : IrTx) (start : ℕ → Bool) (data : ℕ → BitVec 8) (e : ℕ) : ℕ :=
  pinDelay ch.hold tx start data e + ch.delay (e + pinDelay ch.hold tx start data e)

/-- What the receiver hears of `ir_out`. -/
theorem heard_pin (start : ℕ → Bool) (data : ℕ → BitVec 8) (htx : tx.state = .idle)
    (hlow : tx.message = false) (hcount : tx.c0.count.toNat ≤ 656) :
    Heard ch.clock ch.lo ch.hi ch.q (ch.jitter + ch.hold) ch.fixed
      (ch.edgeDelay tx start data) (envelope tx start data)
      (delayed 2 true (ch.wire (pin tx start data))) := by
  have hj := ch.tolerance.jitter_le
  have hhold : ∀ e, pinDelay ch.hold tx start data e ≤ ch.hold := delay_le _ _ _
  have hcarries := carries_pin start data htx hlow hcount ch.covers (by omega)
  have ho : Ordered false ch.delay (detected ch.hold (pin tx start data)) := by
    refine ordered_of_spaced ch.bounded fun x x' hx hx' hlt => ?_
    obtain ⟨e, he, rfl⟩ := (hcarries.edge_iff x).mp hx
    obtain ⟨e', he', rfl⟩ := (hcarries.edge_iff x').mp hx'
    have := edges_spaced htx hlow he he' ((hcarries.lt_iff he he').mp hlt)
    have := hhold e
    omega
  -- both delays together
  have hline : Carries false (envelope tx start data) true
      (line ch.delay (detected ch.hold (pin tx start data)))
      (fun e => e + ch.edgeDelay tx start data e) := by
    have h := (hcarries.trans (carries_jitter ho)).trans (carries_not false _)
    simp only [id, Nat.add_assoc] at h
    exact h
  refine heard_of_carries htx hlow hline ch.paced ch.start (fun e => ?_) ch.tolerance
  have := hhold e
  have := ch.bounded (e + pinDelay ch.hold tx start data e)
  simp only [edgeDelay]
  omega

/-- **Round trip from the pin.**  The transmitter puts its carrier on `ir_out`, and the
    receiver has a clock of its own.  Every byte that was accepted is presented once, in its
    order and in time, and nothing else is.  The latency counts up to the begin of cycle `K` of
    the receiving clock; the byte is then among those presented before cycle `K + 5`. -/
theorem round_trip_pin (tx : IrTx) (rx : IrRx) (start : ℕ → Bool) (data : ℕ → BitVec 8)
    (htx : tx.state = .idle) (hlow : tx.message = false)
    (hcount : tx.c0.count.toNat ≤ divider 50_000_000 38_000)
    (hsync : rx.irSync0 = true ∧ rx.irSync = true) (hrx : rx.fsm.state = .idle)
    (hprev : rx.fsm.prevLevel = true) (hdone : rx.fsm.done = false) (T K : ℕ) :
    let l := ch.wire (pin tx start data)
    presented rx l K <+: sent tx start data (ch.clock.cycle K) ∧
      (T + ch.latency ≤ ch.clock.cycle K →
        sent tx start data T <+: presented rx l (K + 5)) := by
  intro l
  have h := ch.heard_pin start data htx hlow hcount
  rw [presented_eq_received hsync.1 hsync.2, presented_eq_received hsync.1 hsync.2]
  exact ⟨h.received_le htx hlow hprev hrx hdone K,
    fun hK => h.le_received htx hlow hprev hrx hdone hK⟩

end Channel

/-- A clock that is a tenth slower. -/
def slowClock : Clock where
  cycle k := k * 11 / 10
  mono := fun _ _ h => Nat.div_le_div_right (Nat.mul_le_mul_right 11 h)
  unbounded t := ⟨t, by omega⟩

/-- A hold time of 20 microseconds, up to 74 more for the edges in odd cycles, and a slow
    receiver. -/
def slowChannel : Channel where
  clock := slowClock
  lo := 9
  hi := 11
  q := 10
  paced := ⟨fun k n => by simp only [slowClock]; omega, fun k n => by simp only [slowClock]; omega⟩
  start := rfl
  hold := 1_000
  covers := by decide
  delay e := 3_700 * (e % 2)
  fixed := 0
  jitter := 3_700
  bounded e := by omega
  tolerance := tolerance_tenth

/-- One byte over the slow channel. -/
theorem slowChannel_round_trip :
    [0x15] <+: presented restingRx (slowChannel.wire
      (pin IrTx.powerUp (fun n => n = 0) (fun _ => 0x15))) (504_300 + 5) := by
  have h := (slowChannel.round_trip_pin IrTx.powerUp restingRx (fun n => n = 0) (fun _ => 0x15)
    rfl rfl (by decide) ⟨rfl, rfl⟩ rfl rfl rfl 1 504_300).2
    (by simp only [Channel.latency, slowChannel, slowClock]; omega)
  have hsent : sent IrTx.powerUp (fun n => n = 0) (fun _ => 0x15) 1 = [0x15] := by decide
  rwa [hsent] at h

end Scope.Native.IrLink
