import Scope.Spec.Confidence
import Scope.Spec.ControllerModes
import Scope.Spec.IrCarrier
import Scope.Spec.NoiseBound
import Scope.Spec.PacketPacing

/-!
# The control loop

Both boards, each with its own clock, from the light on the photodiode to the mode
of the gimbal.  The receiver board starts a packet often enough that the byte on
the transmitter board is never old, so what the photodiode sees for long enough
decides what the gimbal does in the end.

## Key results

- `pulse_recurs` / `accepts_recurs`: packets keep coming
- `command_fresh`: how old the byte on the transmitter board can be
- `onTarget_clears` / `onTarget_sets`: how long light has to be gone, or there
- `dark_target_rests` / `lit_target_tracked`: where the gimbal ends up
-/

namespace Scope.Native

open Sync IrTx IrRx IrLink QpdState

/-! ## The free-running generators -/

/-- The cycles up to the next pulse. -/
def TxPulse.left (g : TxPulse) : ℕ :=
  if g.txPulse then 0 else 1_000_000 - g.txTimer.toNat + 1

/-- Without a pulse the next one comes nearer. -/
private theorem TxPulse.left_step {g : TxPulse} (h : g.txPulse = false) : g.step.left < g.left := by
  have hleft : g.left = 1_000_000 - g.txTimer.toNat + 1 := by simp [left, h]
  rw [hleft, step]
  split_ifs with hlast
  · exact Nat.succ_pos _
  · have hcount : (g.txTimer + 1).toNat = g.txTimer.toNat + 1 := BitVec.toNat_add_one (by omega)
    simp only [left, hcount]
    simp
    omega

/-- The next pulse is never further away than a period. -/
private theorem TxPulse.left_lt (g : TxPulse) : g.left < 1_000_002 := by
  unfold left
  split_ifs <;> omega

/-- The cycles up to the next step tick. -/
def StepTick.left (s : StepTick) : ℕ := if s.stepTick then 0 else 500_000 - s.clkCount.toNat + 1

private theorem StepTick.left_step {s : StepTick} (h : s.stepTick = false) :
    s.step.left < s.left := by
  have hleft : s.left = 500_000 - s.clkCount.toNat + 1 := by simp [left, h]
  rw [hleft, step]
  split_ifs with hlast
  · exact Nat.succ_pos _
  · have hcount : (s.clkCount + 1).toNat = s.clkCount.toNat + 1 := BitVec.toNat_add_one (by omega)
    simp only [left, hcount]
    simp
    omega

private theorem StepTick.left_lt (s : StepTick) : s.left < 500_002 := by
  unfold left
  split_ifs <;> omega

/-! ## Packets -/

/-- Both boards at rest, with the counters of the receiver board in their ranges. -/
structure Rested (x : RxState) (y : LaserTop) : Prop extends Quiet x y where
  burst : x.tx.ir0.burstCounter = 0
  carrier : x.tx.ir0.c0.count.toNat ≤ divider 50_000_000 38_000
  confidence : x.qpd0.confidenceCounter.toNat ≤ targetConfidenceMax

/-- The pin of the receiver board. -/
def boardPin (x : RxState) (q : ℕ → Samples) (n : ℕ) : Bool := (board x q n).irOut

/-- The pin of the board is the pin of its transmitter. -/
theorem boardPin_eq (x : RxState) (q : ℕ → Samples) :
    boardPin x q = pin x.tx.ir0 (boardStart x q) (boardData x q) := by
  funext n
  rw [boardPin, RxState.irOut, board_transmit, pin]

/-- How old a command can be. -/
def commandAge (ch : Channel) : ℕ := 2_000_004 + ch.latency

section Packets

variable {ch : Channel} {x : RxState} {q : ℕ → Samples} {y : LaserTop} {home : ℕ → Bool}
  {K m n : ℕ}

/-- The pulse generator and `ir_tx` run on the board as they do alone. -/
private theorem board_tx (x : RxState) (q : ℕ → Samples) (n : ℕ) :
    (board x q n).tx = x.tx.trace (boardData x q) n := by
  have hstep : ∀ (j : RxState.Input) (r : RxState),
      (r.step j).tx = r.tx.step { reset := j.reset, data := r.data } := fun _ _ => rfl
  exact run_component RxState.tx hstep x _ n

variable (x q) in
/-- Pulses come at least once in a period. -/
theorem pulse_recurs : Recurs 1_000_002 (boardStart x q) :=
  recurs_of_countdown (fun n => (board x q n).tx.gen.left) (fun _ => TxPulse.left_lt _)
    fun _ hp => TxPulse.left_step hp

/-- No two pulses in a row find the transmitter busy. -/
theorem accepts_recurs (hidle : x.tx.ir0.state = .idle) (hburst : x.tx.ir0.burstCounter = 0) :
    Recurs 2_000_004 (accepts x.tx.ir0 (boardStart x q) (boardData x q)) := by
  intro n
  obtain ⟨k, hnk, hk, hpk, -⟩ := (pulse_recurs x q).next n
  obtain ⟨l, hkl, hl, hpl, hquiet⟩ := (pulse_recurs x q).next (k + 1)
  have hpulse : ∀ m, x.tx.pulse (boardData x q) m = boardStart x q m := fun m => by
    rw [PulsedTx.pulse, ← board_tx, boardStart]
  have hidle_of : ∀ m, boardStart x q m = true → x.tx.pulses (boardData x q) m % 6 ≠ 5 →
      accepts x.tx.ir0 (boardStart x q) (boardData x q) m = true := by
    intro m hm hne
    have hpos := PulsedTx.position_run (boardData x q) hidle hburst m
    rw [accepts_iff, ← board_transmit, board_tx]
    refine ⟨(PulsedTx.idle_of_pulse hpos ?_).mpr hne, hm⟩
    rwa [← board_tx]
  -- from pulse `k` to pulse `l` the count goes up by one
  have hcount : x.tx.pulses (boardData x q) l = x.tx.pulses (boardData x q) k + 1 := by
    have hsucc : x.tx.pulses (boardData x q) (k + 1) = x.tx.pulses (boardData x q) k +
        if x.tx.pulse (boardData x q) k = true then 1 else 0 := Nat.count_succ _ k
    rw [hpulse, if_pos hpk] at hsucc
    rw [← hsucc]
    exact count_quiet hkl fun j hj hjl => (hpulse j).trans (hquiet j hj hjl)
  by_cases h5 : x.tx.pulses (boardData x q) k % 6 = 5
  · exact ⟨l, by omega, by omega, hidle_of l hpl (by omega)⟩
  · exact ⟨k, by omega, by omega, hidle_of k hpk h5⟩

variable (home) in
/-- The byte on the transmitter board is one that was offered to an accepted start no longer
    ago than two pulse periods and the way of a packet. -/
private theorem irData_fresh (h : Rested x y) (hK : commandAge ch ≤ ch.clock.cycle K) :
    ∃ a, ch.clock.cycle K ≤ a + commandAge ch ∧ a < ch.clock.cycle (K + 5) ∧
      accepts x.tx.ir0 (boardStart x q) (boardData x q) a = true ∧
      (laser y home (ch.wire (boardPin x q)) (K + 4)).irData = boardData x q a := by
  have hheard := ch.heard_pin (boardStart x q) (boardData x q) h.tx h.low
    h.carrier
  rw [← boardPin_eq] at hheard
  have hfsm : ∀ n, (laser y home (ch.wire (boardPin x q)) n).r0.fsm =
      receive y.r0.fsm (Wave.delayed 2 true (ch.wire (boardPin x q))) n := by
    intro n
    rw [board_receiver, receiver_eq h.sync0 h.sync]
  -- a start that was accepted early enough has been received
  obtain ⟨b, hNb, hb, hacc⟩ := accepts_recurs h.tx h.burst (q := q)
    (ch.clock.cycle K - commandAge ch)
  rw [commandAge] at hK hNb hb ⊢
  have hin := hheard.le_received h.tx h.low h.prevLevel h.rx h.done
    (show b + 1 + ch.latency ≤ ch.clock.cycle K by omega)
  -- the last byte received is still there
  obtain ⟨t, htn, -, hquiet, a, han, hba, ha, hdata⟩ := last_of_prefix hacc
    (hheard.received_le h.tx h.low h.prevLevel h.rx h.done (K + 5)) hin
  refine ⟨a, by omega, han, ha, ?_⟩
  rw [LaserTop.irData, hfsm, hdata]
  exact data_quiet (by omega) fun k hk hkn => hquiet k hk (by omega)

/-- **Fresh commands.**  From a rest of both boards, over every channel: once packets have had
    the time to arrive, the command that the transmitter board works with in a cycle is the
    one that the classifier had ready when the receiver board started a packet, and that was
    no longer ago than two pulse periods, the delay of the channel and the way of a packet. -/
theorem command_fresh (ch : Channel) (x : RxState) (q : ℕ → Samples) (y : LaserTop)
    (home : ℕ → Bool) (h : Rested x y) (K : ℕ) (hK : commandAge ch ≤ ch.clock.cycle K) :
    ∃ a, ch.clock.cycle K ≤ a + commandAge ch ∧ a < ch.clock.cycle (K + 5) ∧
      (board x q a).tx.ir0.state = .idle ∧ (board x q a).tx.gen.txPulse = true ∧
      let i := ports y home (ch.wire (boardPin x q)) (K + 4)
      i.onTarget = (board x q a).qpd0.onTarget ∧
      i.irYawEn = (board x q a).qpd0.moveX ∧ i.irYawDir = !(board x q a).qpd0.dirX ∧
      i.irPitchEn = (board x q a).qpd0.moveY ∧ i.irPitchDir = !(board x q a).qpd0.dirY := by
  obtain ⟨a, hage, haK, hacc, hdata⟩ := irData_fresh home h hK
  obtain ⟨hidle, hpulse⟩ := accepts_iff.mp hacc
  rw [← board_transmit] at hidle
  obtain ⟨h0, h1, h2, h3, h4⟩ := data_bits (board x q a)
  have hbit : ∀ k, (laser y home (ch.wire (boardPin x q)) (K + 4)).irData.getLsbD k =
      (board x q a).data.getLsbD k := fun k => congrArg (fun b => b.getLsbD k) hdata
  exact ⟨a, hage, haK, hidle, hpulse, (hbit 4).trans h4, (hbit 0).trans h0,
    congrArg (fun b => !b) ((hbit 1).trans h1), (hbit 2).trans h2,
    congrArg (fun b => !b) ((hbit 3).trans h3)⟩

end Packets

/-! ## Light on the photodiode -/

section Light

variable {ch : Channel} {x : RxState} {q : ℕ → Samples} {y : LaserTop} {home : ℕ → Bool}
  {A N K n : ℕ}

/-- The confidence counter on the board. -/
private theorem board_counts (hconf : x.qpd0.confidenceCounter.toNat ≤ targetConfidenceMax)
    (n : ℕ) : (board x q n).qpd0.confidenceCounter.toNat ≤ targetConfidenceMax ∧
      Hysteresis.Counts targetConfidenceMax 50_000 (fun k => (q k).lit)
        (fun n => (board x q n).qpd0.confidenceCounter.toNat)
        (fun n => (board x q n).qpd0.onTarget) n := by
  have hstep : ∀ n, (board x q (n + 1)).qpd0 = (board x q n).qpd0.step false (q n) := fun _ => rfl
  have hcounts : ∀ n, (board x q n).qpd0.confidenceCounter.toNat ≤ targetConfidenceMax →
      Hysteresis.Counts targetConfidenceMax 50_000 (fun k => (q k).lit)
        (fun n => (board x q n).qpd0.confidenceCounter.toNat)
        (fun n => (board x q n).qpd0.onTarget) n := by
    intro n hmax
    obtain ⟨hup, hdown⟩ := confidence_step (q n) (board x q n).qpd0 hmax
    rw [← hstep] at hup hdown
    exact ⟨hup, hdown⟩
  induction n with
  | zero => exact ⟨hconf, hcounts 0 hconf⟩
  | succ n ih => exact ⟨ih.2.step.2.2 ih.1, hcounts (n + 1) (ih.2.step.2.2 ih.1)⟩

/-- A board in the dark loses the target. -/
theorem onTarget_clears (hconf : x.qpd0.confidenceCounter.toNat ≤ targetConfidenceMax)
    (hdark : ∀ k, A ≤ k → k < N → (q k).lit = false) (hn : A + 500_001 ≤ n) (hnN : n ≤ N) :
    (board x q n).qpd0.onTarget = false := by
  have hmax : _ ≤ 500_000 := (board_counts (q := q) hconf A).1
  exact Hysteresis.clears (fun n => (board_counts hconf n).2)
    (fun k hk hkn => hdark k hk (by omega)) (by omega)

theorem onTarget_sets (hconf : x.qpd0.confidenceCounter.toNat ≤ targetConfidenceMax)
    (hlit : ∀ k, A ≤ k → k < N → (q k).lit = true) (hn : A + 50_002 ≤ n) (hnN : n ≤ N) :
    (board x q n).qpd0.onTarget = true :=
  Hysteresis.sets (fun n => (board_counts hconf n).2) (by decide)
    (fun k hk hkn => hlit k hk (by omega)) hn

/-- The step ticks on the transmitter board. -/
theorem ticks_recur (y : LaserTop) (home l : ℕ → Bool) (n m : ℕ) :
    SearchController.ticks (ports y home l) n + m ≤
      SearchController.ticks (ports y home l) (n + m * 500_002) :=
  Recurs.le_count (p := fun n => (laser y home l n).gimbal.ticker.stepTick)
    (recurs_of_countdown (fun n => (laser y home l n).gimbal.ticker.left)
      (fun _ => StepTick.left_lt _) fun _ hp => StepTick.left_step hp) n m

/-- What the receiver board says for long enough reaches the controller. -/
private theorem onTarget_follows (h : Rested x y) {v : Bool}
    (hv : ∀ k, A ≤ k → k ≤ N → (board x q k).qpd0.onTarget = v)
    (hA : ch.clock.first (A + commandAge ch) + 4 ≤ n) (hN : ch.clock.cycle (n + 1) ≤ N) :
    (ports y home (ch.wire (boardPin x q)) n).onTarget = v := by
  obtain ⟨K, rfl⟩ : ∃ K, n = K + 4 := ⟨n - 4, by omega⟩
  have hK := ch.clock.first_le_iff.mp (show ch.clock.first (A + commandAge ch) ≤ K by omega)
  obtain ⟨a, hage, haK, -, hdata⟩ := irData_fresh home h (q := q)
    (show commandAge ch ≤ ch.clock.cycle K by omega)
  rw [show K + 4 + 1 = K + 5 from rfl] at hN
  rw [← hv a (by omega) (by omega), ← (data_bits (board x q a)).2.2.2.2]
  exact congrArg (fun b => b.getLsbD 4) hdata

/-- **Light gone.**  `x` is the receiver board and `y` the transmitter board, both at rest, `y`
    with the registers of a mode.  When the photodiode is dark from cycle `A` on, the
    controller learns of it within 500,001 cycles and the age of a command.  When nobody
    presses the return button from then on, the gimbal stands at its resting place with both
    enables low 46,037 tick periods later, for as long as it stays dark. -/
theorem dark_target_rests (ch : Channel) (x : RxState) (q : ℕ → Samples) (y : LaserTop)
    (home : ℕ → Bool) (h : Rested x y) (hsound : SearchController.Sound y.gimbal.controller0)
    (A N : ℕ) (hdark : ∀ k, A ≤ k → k < N → (q k).lit = false) :
    let l := ch.wire (boardPin x q)
    let B := ch.clock.first (A + 500_001 + commandAge ch) + 4
    (∀ n, B ≤ n → ch.clock.cycle (n + 1) ≤ N → (ports y home l n).onTarget = false) ∧
    ∀ n, B + 46_037 * 500_002 < n → ch.clock.cycle n ≤ N →
      (∀ k, B ≤ k → k < n → home k = false) →
      SearchController.Resting (controller y home l B).parking (controller y home l n) ∧
      (controller y home l n).outYawEn = false ∧ (controller y home l n).outPitchEn = false := by
  intro l B
  have hlost : ∀ n, B ≤ n → ch.clock.cycle (n + 1) ≤ N → (ports y home l n).onTarget = false :=
    fun n hn hnN => onTarget_follows h (fun k hk hkN => onTarget_clears h.confidence hdark hk hkN)
      hn hnN
  refine ⟨hlost, fun n hn hnN hhome => ?_⟩
  have hticks := ticks_recur y home l B 46_037
  have hrank := SearchController.toRest_le (controller y home l B)
  rw [controller_run] at hrank
  rw [controller_run, controller_run]
  refine SearchController.rests_of_lost (i := ports y home l) (m := B + 46_037 * 500_002)
    (SearchController.sound_from hsound _ _) (fun k hk hkn => ⟨ports_live (hhome k hk hkn), ?_⟩)
    (Nat.le_add_right B _) (by omega) hn le_rfl
  exact hlost k hk ((ch.clock.mono (Nat.succ_le_of_lt hkn)).trans hnN)

/-- **Light there.**  When the photodiode is lit from cycle `A` on, the controller learns of it
    within 50,002 cycles and the age of a command.  When nobody presses the return button from
    then on, it tracks the target 33,035 tick periods later at most, for as long as there is
    light. -/
theorem lit_target_tracked (ch : Channel) (x : RxState) (q : ℕ → Samples) (y : LaserTop)
    (home : ℕ → Bool) (h : Rested x y) (hsound : SearchController.Sound y.gimbal.controller0)
    (A N : ℕ) (hlit : ∀ k, A ≤ k → k < N → (q k).lit = true) :
    let l := ch.wire (boardPin x q)
    let B := ch.clock.first (A + 50_002 + commandAge ch) + 4
    (∀ n, B ≤ n → ch.clock.cycle (n + 1) ≤ N → (ports y home l n).onTarget = true) ∧
    ∀ n, B + 33_035 * 500_002 < n → ch.clock.cycle n ≤ N →
      (∀ k, B ≤ k → k < n → home k = false) →
      (controller y home l n).state = .tracking ∧
      (B + 33_035 * 500_002 + 1 < n → (controller y home l n).hasSeenTarget = true) := by
  intro l B
  have hseen : ∀ n, B ≤ n → ch.clock.cycle (n + 1) ≤ N → (ports y home l n).onTarget = true :=
    fun n hn hnN => onTarget_follows h (fun k hk hkN => onTarget_sets h.confidence hlit hk hkN)
      hn hnN
  refine ⟨hseen, fun n hn hnN hhome => ?_⟩
  have hticks := ticks_recur y home l B 33_035
  have hrank := SearchController.toTarget_le (controller y home l B)
  rw [controller_run] at hrank
  rw [controller_run]
  refine SearchController.tracked_of_seen (i := ports y home l) (m := B + 33_035 * 500_002)
    (SearchController.sound_from hsound _ _) (fun k hk hkn => ⟨ports_live (hhome k hk hkn), ?_⟩)
    (Nat.le_add_right B _) (by omega) hn le_rfl
  exact hseen k hk ((ch.clock.mono (Nat.succ_le_of_lt hkn)).trans hnN)

end Light

end Scope.Native
