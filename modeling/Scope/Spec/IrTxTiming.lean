import Scope.ForStd.Run
import Scope.ForStd.BitVec
import Scope.Native.IrTx

/-!
# Timing of the infrared transmitter

A packet is a sequence of stages: header burst and space, eight data bursts and
spaces, the end-of-frame burst, and one or two waits.  Each stage lasts a fixed
number of cycles, or one of two in a data space, so the position in a packet is
a stage `n` and a count `k`.  The envelope `message` is a register and follows
the stage by one cycle.

## Key results

- `step_count` / `step_next`: one clock edge goes on to the next position
- `step_wait` / `step_longWait`: how a packet ends
- `offset_mark`: how long the stages in front of a data burst take
-/

namespace Scope.Native.IrTx

/-- The state of stage `n` of a packet. -/
def stage : ℕ → State
  | 0 => .headerBurst
  | 1 => .headerSpace
  | n + 2 =>
    if n < 16 then (if n % 2 = 0 then .dataBurst else .dataSpace)
    else if n = 16 then .eof
    else if n = 17 then .wait
    else .longWait

/-- The data space of bit `i` of the byte `v`, first bit first. -/
def spaceTicks (v : BitVec 8) (i : ℕ) : ℕ :=
  if v.getLsbD (7 - i) = true then tickDataSpace else tickDataBurst

/-- How many cycles stage `n` takes when the byte `v` is sent. -/
def dwell (v : BitVec 8) : ℕ → ℕ
  | 0 => tickHeaderBurst + 1
  | 1 => tickHeaderSpace + 1
  | n + 2 =>
    if n < 16 then (if n % 2 = 0 then tickDataBurst + 1 else spaceTicks v (n / 2) + 1)
    else if n = 16 then tickDataBurst + 1
    else if n = 17 then tickWaitGap + 1
    else tickLongWait + 1

/-- How many cycles the stages in front of stage `n` take. -/
def offset (v : BitVec 8) : ℕ → ℕ
  | 0 => 0
  | n + 1 => offset v n + dwell v n

/-- The envelope belongs to a burst in stage `n`. -/
def burst (n : ℕ) : Bool := decide (n % 2 = 0 ∧ n ≤ 18)

/-- The envelope in cycle `k` of stage `n`; it follows the stage by one cycle. -/
def level (n k : ℕ) : Bool := if k = 0 then decide (n % 2 = 1 ∧ n ≤ 19) else burst n

/-- The transmitter is in cycle `k` of stage `n` of a packet with the byte `v`, and
    `c` bursts have been counted before it. -/
structure Sending (v : BitVec 8) (c : BitVec 3) (n k : ℕ) (s : IrTx) : Prop where
  state : s.state = stage n
  last : n ≤ 20
  tickCount : s.tickCount.toNat = k
  lt : k < dwell v n
  dataOut : s.dataOut = v
  message : s.message = level n k
  bitCount : n < 18 → s.bitCount.toNat = 7 - (n - 2) / 2
  burstCounter : s.burstCounter = if n ≤ 18 then c else c + 1

/-- The transmitter is idle with the envelope low. -/
structure Resting (c : BitVec 3) (s : IrTx) : Prop where
  state : s.state = .idle
  message : s.message = false
  burstCounter : s.burstCounter = c

/-! ## Stages -/

theorem stage_mark {i : ℕ} (hi : i < 8) : stage (2 + 2 * i) = .dataBurst := by
  rw [Nat.add_comm, stage, if_pos (by omega), if_pos (by omega)]

/-- The odd stages are data spaces. -/
theorem stage_space {i : ℕ} (hi : i < 8) : stage (3 + 2 * i) = .dataSpace := by
  rw [show 3 + 2 * i = 2 * i + 1 + 2 by omega, stage, if_pos (by omega), if_neg (by omega)]

variable {v : BitVec 8} {c : BitVec 3} {n k : ℕ} {s : IrTx} {i : Input}

theorem dwell_mark {i : ℕ} (hi : i < 8) : dwell v (2 + 2 * i) = tickDataBurst + 1 := by
  rw [Nat.add_comm, dwell, if_pos (by omega), if_pos (by omega)]

/-- A data space depends on its bit. -/
theorem dwell_space {i : ℕ} (hi : i < 8) : dwell v (3 + 2 * i) = spaceTicks v i + 1 := by
  rw [show 3 + 2 * i = 2 * i + 1 + 2 by omega, dwell, if_pos (by omega), if_neg (by omega),
    show (2 * i + 1) / 2 = i by omega]

/-- A data space has 15,000 or 35,000 ticks. -/
theorem spaceTicks_bounds (v : BitVec 8) (i : ℕ) :
    15_000 ≤ spaceTicks v i ∧ spaceTicks v i ≤ 35_000 := by
  unfold spaceTicks
  split_ifs <;> decide

/-- The kinds of stage. -/
theorem stage_cases (hn : n ≤ 20) : n = 0 ∨ n = 1 ∨ (∃ i < 8, n = 2 + 2 * i) ∨
    (∃ i < 8, n = 3 + 2 * i) ∨ n = 18 ∨ n = 19 ∨ n = 20 := by
  rcases Nat.lt_or_ge n 18 with h | h
  -- below stage 18 the bursts are the even stages
  · rcases Nat.even_or_odd' n with ⟨i, rfl | rfl⟩
    · rcases Nat.eq_zero_or_pos i with h0 | h0
      · exact .inl (by omega)
      · exact .inr (.inr (.inl ⟨i - 1, by omega, by omega⟩))
    · rcases Nat.eq_zero_or_pos i with h0 | h0
      · exact .inr (.inl (by omega))
      · exact .inr (.inr (.inr (.inl ⟨i - 1, by omega, by omega⟩)))
  · omega

/-- No stage is shorter than a data burst or longer than the long wait. -/
theorem dwell_bounds (hn : n ≤ 20) : 15_001 ≤ dwell v n ∧ dwell v n ≤ 600_001 := by
  rcases stage_cases hn with rfl | rfl | ⟨i, hi, rfl⟩ | ⟨i, hi, rfl⟩ | rfl | rfl | rfl
  case inr.inr.inl => rw [dwell_mark hi]; decide
  case inr.inr.inr.inl =>
    rw [dwell_space hi]
    have := spaceTicks_bounds v i
    omega
  all_goals simp [dwell, tickHeaderBurst, tickHeaderSpace, tickDataBurst, tickWaitGap,
    tickLongWait]

/-- No stage is empty. -/
theorem dwell_pos (hn : n ≤ 20) : 0 < dwell v n :=
  (Nat.succ_pos _).trans_le (dwell_bounds hn).1

/-! ## One clock edge -/

/-- `tick_count` is compared with this. -/
def limit (s : IrTx) : ℕ :=
  match s.state with
  | .idle | .unused _ => 0
  | .headerBurst => tickHeaderBurst
  | .headerSpace => tickHeaderSpace
  | .dataBurst | .eof => tickDataBurst
  | .dataSpace =>
    if s.dataOut.getLsbD s.bitCount.toNat = true then tickDataSpace else tickDataBurst
  | .wait => tickWaitGap
  | .longWait => tickLongWait

/-- The counter ends with the stage. -/
theorem Sending.limit (h : Sending v c n k s) : s.limit + 1 = dwell v n := by
  have hstate := h.state
  rcases stage_cases h.last with rfl | rfl | ⟨i, hi, rfl⟩ | ⟨i, hi, rfl⟩ | rfl | rfl | rfl
  case inr.inr.inr.inl =>
    rw [stage_space hi] at hstate
    -- `bit_count` counts down from 7, one bit for two stages
    have hbit : s.bitCount.toNat = 7 - i := by rw [h.bitCount (by omega)]; omega
    rw [dwell_space hi, spaceTicks, IrTx.limit, hstate, h.dataOut, hbit]
  case inr.inr.inl =>
    rw [stage_mark hi] at hstate
    rw [dwell_mark hi, IrTx.limit, hstate]
  all_goals simp [IrTx.limit, hstate, stage, dwell]

/-- The envelope that the current state drives. -/
def State.drives : State → Bool
  | .headerBurst | .dataBurst | .eof => true
  | _ => false

/-- The envelope is high in the bursts. -/
private theorem drives_stage (hn : n ≤ 20) : (stage n).drives = burst n := by
  rcases stage_cases hn with rfl | rfl | ⟨i, hi, rfl⟩ | ⟨i, hi, rfl⟩ | rfl | rfl | rfl
  case inr.inr.inl => rw [stage_mark hi]; simp [State.drives, burst]; omega
  case inr.inr.inr.inl => rw [stage_space hi]; simp [State.drives, burst]
  all_goals rfl

/-- Below its limit every state of a packet counts. -/
theorem advance_count (hi : s.state ≠ .idle) (hu : ∀ low, s.state ≠ .unused low)
    (ht : s.tickCount.toNat < s.limit) (m : IrTx) :
    s.advance i m =
      { m with
        message := s.state.drives
        done := if s.state = .wait then false else m.done
        tickCount := s.tickCount + 1 } := by
  unfold limit at ht
  unfold advance countUp
  cases hs : s.state <;> simp only [hs] at ht ⊢
  case idle => exact absurd hs hi
  case unused low => exact absurd hs (hu low)
  -- a space asks for its limit twice, once for each value of the bit
  case dataSpace =>
    split_ifs at ht ⊢ <;> first | contradiction | omega | rfl
  all_goals
    rw [if_neg (by omega)]
    rfl

/-- A packet is sent outside `IDLE`, in a named state. -/
theorem stage_ne_idle (hn : n ≤ 20) : stage n ≠ .idle ∧ ∀ low, stage n ≠ .unused low := by
  rcases stage_cases hn with rfl | rfl | ⟨i, hi, rfl⟩ | ⟨i, hi, rfl⟩ | rfl | rfl | rfl
  case inr.inr.inl => rw [stage_mark hi]; simp
  case inr.inr.inr.inl => rw [stage_space hi]; simp
  all_goals simp [stage]

/-- Inside a stage the count goes up. -/
theorem step_count (h : Sending v c n k s) (hr : i.reset = false) (hk : k + 1 < dwell v n) :
    Sending v c n (k + 1) (s.step i) := by
  have hlimit := h.limit
  have htick := h.tickCount
  obtain ⟨hne, hnu⟩ := stage_ne_idle h.last
  have hcount : (s.tickCount + 1).toNat = k + 1 := by
    have := (dwell_bounds (v := v) h.last).2
    rw [BitVec.toNat_add_one (by omega), htick]
  rw [step, if_neg (by simp [hr]), advance_count (by rw [h.state]; exact hne)
    (by rw [h.state]; exact hnu) (by omega)]
  refine ⟨h.state, h.last, hcount, hk, h.dataOut, ?_, h.bitCount, h.burstCounter⟩
  show s.state.drives = level n (k + 1)
  rw [h.state, drives_stage h.last, level, if_neg (by omega)]

/-- What a state does at its limit, apart from `message` and `tick_count`. -/
def leave (s m : IrTx) : IrTx :=
  match s.state with
  | .idle | .unused _ => m
  | .headerBurst => { m with state := .headerSpace }
  | .headerSpace => { m with state := .dataBurst }
  | .dataBurst => { m with state := .dataSpace }
  | .dataSpace => s.nextBitLogic m
  | .eof => { m with done := true, burstCounter := s.burstCounter + 1, state := .wait }
  | .wait =>
    if s.burstCounter.toNat ≥ burstLimit then { m with done := false, state := .longWait }
    else { m with done := false, state := .idle }
  | .longWait => { m with burstCounter := 0, state := .idle }

/-- At the limit of the counter the state is left. -/
theorem advance_limit (hi : s.state ≠ .idle) (hu : ∀ low, s.state ≠ .unused low)
    (ht : s.limit ≤ s.tickCount.toNat) (m : IrTx) :
    s.advance i m = { s.leave m with message := s.state.drives, tickCount := 0 } := by
  unfold limit at ht
  unfold advance leave nextBitLogic
  cases hs : s.state <;> simp only [hs] at ht ⊢
  case idle => exact absurd hs hi
  case unused low => exact absurd hs (hu low)
  case dataSpace =>
    split_ifs at ht ⊢ <;> first | contradiction | omega | rfl
  case wait =>
    rw [if_pos ht]
    split_ifs <;> rfl
  all_goals
    rw [if_pos ht]
    rfl

/-- The last clock edge of a stage. -/
private theorem Sending.step_limit (h : Sending v c n k s) (hr : i.reset = false)
    (hk : k + 1 = dwell v n) : ∃ d : ClkDiv 11, s.step i =
      { s.leave { s with c0 := d } with message := burst n, tickCount := 0 } := by
  have hlimit := h.limit
  have htick := h.tickCount
  obtain ⟨hne, hnu⟩ := stage_ne_idle h.last
  refine ⟨s.c0.step (divider 50_000_000 38_000), ?_⟩
  rw [step, if_neg (by simp [hr]), advance_limit (by rw [h.state]; exact hne)
    (by rw [h.state]; exact hnu) (by omega), h.state, drives_stage h.last]

/-- A stage in front of the waits hands on to the next one. -/
theorem step_next (h : Sending v c n k s) (hr : i.reset = false) (hk : k + 1 = dwell v n)
    (hn : n < 19) : Sending v c (n + 1) 0 (s.step i) := by
  have hpos := (dwell_bounds (v := v) (n := n + 1) (by omega)).1
  -- `message` follows the state by a cycle: the new stage still shows the old level
  have hlevel : burst n = level (n + 1) 0 := by
    simp only [burst, level, if_true]
    exact decide_eq_decide.mpr (by omega)
  obtain ⟨d, hstep⟩ := h.step_limit hr hk
  have hstate := h.state
  have hbit := h.bitCount
  have hburst := h.burstCounter
  rw [hstep, hlevel]
  -- one case for each state; only the data spaces touch `bit_count`
  rcases stage_cases h.last with rfl | rfl | ⟨j, hj, rfl⟩ | ⟨j, hj, rfl⟩ | rfl | rfl | rfl
  · have hleave : s.leave { s with c0 := d } = { s with c0 := d, state := .headerSpace } := by
      simp only [leave, hstate, stage]
    rw [hleave]
    exact ⟨rfl, by omega, rfl, by omega, h.dataOut, rfl, fun _ => hbit (by omega), hburst⟩
  · have hleave : s.leave { s with c0 := d } = { s with c0 := d, state := .dataBurst } := by
      simp only [leave, hstate, stage]
    rw [hleave]
    exact ⟨rfl, by omega, rfl, by omega, h.dataOut, rfl, fun _ => hbit (by omega), hburst⟩
  · rw [stage_mark hj] at hstate
    have hleave : s.leave { s with c0 := d } = { s with c0 := d, state := .dataSpace } := by
      simp only [leave, hstate]
    rw [hleave, show 2 + 2 * j + 1 = 3 + 2 * j by omega]
    rw [show 2 + 2 * j + 1 = 3 + 2 * j by omega] at hpos
    refine ⟨(stage_space hj).symm, by omega, rfl, by omega, h.dataOut, rfl, fun _ => ?_, ?_⟩
    · show s.bitCount.toNat = _
      rw [hbit (by omega)]
      omega
    · show s.burstCounter = _
      rw [hburst, if_pos (by omega), if_pos (by omega)]
  · rw [stage_space hj] at hstate
    have hbits : s.bitCount.toNat = 7 - j := by rw [hbit (by omega)]; omega
    have hzero : s.bitCount = 0 ↔ j = 7 := by
      rw [← BitVec.toNat_inj, hbits]
      simp
      omega
    -- behind bit 0 comes the end-of-frame burst
    by_cases h7 : j = 7
    · subst h7
      have hleave : s.leave { s with c0 := d } =
          { s with c0 := d, tickCount := 0, state := .eof } := by
        simp only [leave, hstate, nextBitLogic]
        rw [if_pos (hzero.mpr rfl)]
      rw [hleave]
      exact ⟨rfl, by omega, rfl, by omega, h.dataOut, rfl, fun h => by omega, hburst⟩
    · have hleave : s.leave { s with c0 := d } =
          { s with c0 := d, tickCount := 0, bitCount := s.bitCount - 1, state := .dataBurst } := by
        simp only [leave, hstate, nextBitLogic]
        rw [if_neg (by rwa [hzero])]
      rw [hleave, show 3 + 2 * j + 1 = 2 + 2 * (j + 1) by omega]
      rw [show 3 + 2 * j + 1 = 2 + 2 * (j + 1) by omega] at hpos
      refine ⟨(stage_mark (by omega)).symm, by omega, rfl, by omega, h.dataOut, rfl,
        fun _ => ?_, ?_⟩
      · show (s.bitCount - 1).toNat = _
        rw [BitVec.toNat_sub_one (by omega), hbits]
        omega
      · show s.burstCounter = _
        rw [hburst, if_pos (by omega), if_pos (by omega)]
  · have hleave : s.leave { s with c0 := d } =
        { s with c0 := d, done := true, burstCounter := s.burstCounter + 1, state := .wait } := by
      simp only [leave, show s.state = .eof from hstate]
    rw [hleave]
    refine ⟨rfl, by omega, rfl, by omega, h.dataOut, rfl, fun h => by omega, ?_⟩
    show s.burstCounter + 1 = _
    rw [hburst]
    rfl
  · omega
  · omega

/-- The first wait ends the packet, or goes on to the long one after the last
    burst that is allowed. -/
theorem step_wait (h : Sending v c 19 k s) (hr : i.reset = false) (hk : k + 1 = dwell v 19) :
    if burstLimit ≤ (c + 1).toNat then Sending v c 20 0 (s.step i)
    else Resting (c + 1) (s.step i) := by
  obtain ⟨d, hstep⟩ := h.step_limit hr hk
  have hstate : s.state = .wait := h.state
  have hburst : s.burstCounter = c + 1 := h.burstCounter
  have hleave : s.leave { s with c0 := d } =
      if burstLimit ≤ (c + 1).toNat then { s with c0 := d, done := false, state := .longWait }
      else { s with c0 := d, done := false, state := .idle } := by
    simp only [leave, hstate, hburst]
  rw [hstep, hleave]
  split_ifs with hlast
  · exact ⟨rfl, le_rfl, rfl, dwell_pos le_rfl, h.dataOut, rfl, fun h => by omega, hburst⟩
  · exact ⟨rfl, rfl, hburst⟩

/-- Behind the long wait the transmitter rests with its burst counter cleared. -/
theorem step_longWait (h : Sending v c 20 k s) (hr : i.reset = false)
    (hk : k + 1 = dwell v 20) : Resting 0 (s.step i) := by
  obtain ⟨d, hstep⟩ := h.step_limit hr hk
  have hstate : s.state = .longWait := h.state
  rw [hstep]
  unfold leave
  rw [hstate]
  exact ⟨rfl, rfl, rfl⟩

/-- Without a start pulse the transmitter stays idle. -/
theorem step_idle (h : s.state = .idle) (hr : i.reset = false) (hstart : i.start = false) :
    Resting s.burstCounter (s.step i) := by
  rw [step, if_neg (by simp [hr])]
  simp only [advance, h, hstart]
  exact ⟨rfl, rfl, rfl⟩

/-- A start pulse starts a packet with the byte on the `data` port. -/
theorem step_accept (h : s.state = .idle) (hr : i.reset = false) (hstart : i.start = true) :
    Sending i.data s.burstCounter 0 0 (s.step i) := by
  rw [step, if_neg (by simp [hr])]
  simp only [advance, h, hstart]
  exact ⟨rfl, by omega, rfl, dwell_pos (by omega), rfl, rfl, fun _ => rfl, rfl⟩

/-! ## Offsets -/

/-- A stage begins where the one before ends. -/
theorem offset_succ (v : BitVec 8) (n : ℕ) : offset v (n + 1) = offset v n + dwell v n := rfl

/-- Later stages begin later. -/
theorem offset_mono {m : ℕ} (h : m ≤ n) : offset v m ≤ offset v n := by
  induction n, h using Nat.le_induction with
  | base => exact le_rfl
  | succ n _ ih => rw [offset_succ]; omega

/-- The first `i` bits take between `30_002 * i` and `50_002 * i` cycles. -/
theorem offset_mark (v : BitVec 8) {i : ℕ} (hi : i ≤ 8) :
    150_002 + 30_002 * i ≤ offset v (2 + 2 * i) ∧
      offset v (2 + 2 * i) ≤ 150_002 + 50_002 * i := by
  induction i with
  | zero => simp [offset, dwell, tickHeaderBurst, tickHeaderSpace]
  | succ i ih =>
    obtain ⟨hlo, hhi⟩ := ih (by omega)
    -- each bit is a burst of 15,001 cycles and a space
    have hspace := spaceTicks_bounds v i
    have hstep : offset v (2 + 2 * (i + 1)) = offset v (2 + 2 * i) + 15_001 +
        (spaceTicks v i + 1) := by
      rw [show 2 + 2 * (i + 1) = 3 + 2 * i + 1 by omega, offset_succ, dwell_space (by omega),
        show 3 + 2 * i = 2 + 2 * i + 1 by omega, offset_succ, dwell_mark (by omega), tickDataBurst]
    rw [hstep]
    constructor <;> omega

/-- A packet without its waits takes between 8 and 11.3 ms. -/
theorem offset_wait (v : BitVec 8) : 405_019 ≤ offset v 19 ∧ offset v 19 ≤ 565_019 := by
  have h : _ ≤ offset v 18 ∧ offset v 18 ≤ _ := offset_mark v (i := 8) le_rfl
  have heof : dwell v 18 = 15_001 := by simp [dwell, tickDataBurst]
  rw [offset_succ, heof]
  omega

end Scope.Native.IrTx
