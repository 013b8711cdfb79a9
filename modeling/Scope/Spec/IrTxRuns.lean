import Scope.ForStd.RunLength
import Scope.Spec.IrTxEdges

/-!
# The transmitter as a run-length encoder

Without reset the envelope is the runs of the accepted bytes, one packet behind
the other, and low in between.

## Key results

- `spells_packet`: one packet on the envelope
- `envelope_blocks`: the packets do not overlap, and nothing else is sent
- `done_at` / `done_once`: `done` is high in one cycle behind every packet
- `transmit_blind`: what the transmitter does not look at
- `refines_encoder`: the envelope is a function of the accepted starts
-/

namespace Scope.Native.IrTx

open Sync RunLength

/-- The runs of a packet with the byte `b`, most significant bit first. -/
def packetRuns (b : BitVec 8) : List (Bool × ℕ) :=
  [(true, 100_001), (false, 50_001)] ++
    [7, 6, 5, 4, 3, 2, 1, 0].flatMap (fun i =>
      [(true, 15_001), (false, if b.getLsbD i then 35_001 else 15_001)]) ++
    [(true, 15_001)]

section Packet

variable {s : IrTx} {start : ℕ → Bool} {data : ℕ → BitVec 8} {a n : ℕ} {v : BitVec 8}

/-- The first `n` stages as runs. -/
def stageRuns (v : BitVec 8) (n : ℕ) : List (Bool × ℕ) :=
  (List.range n).map fun m => (burst m, dwell v m)

private theorem stageRuns_succ (v : BitVec 8) (n : ℕ) :
    stageRuns v (n + 1) = stageRuns v n ++ [(burst n, dwell v n)] := by
  rw [stageRuns, List.range_succ, List.map_append]
  rfl

/-- The runs take as long as the stages. -/
private theorem duration_stageRuns (v : BitVec 8) (n : ℕ) :
    duration (stageRuns v n) = offset v n := by
  induction n with
  | zero => rfl
  | succ n ih => rw [stageRuns_succ, duration_append, ih, offset_succ, duration_cons]; rfl

/-- The runs of a packet are its stages up to the end-of-frame burst. -/
private theorem packetRuns_eq (v : BitVec 8) : packetRuns v = stageRuns v 19 := by
  have hspace : ∀ i, spaceTicks v i + 1 = if v.getLsbD (7 - i) then 35_001 else 15_001 := by
    intro i
    unfold spaceTicks
    split_ifs <;> rfl
  simp [packetRuns, stageRuns, List.range_succ, burst, dwell, hspace, tickHeaderBurst,
    tickHeaderSpace, tickDataBurst]

/-- A packet takes as long as its stages without the waits. -/
private theorem duration_packetRuns (v : BitVec 8) : duration (packetRuns v) = offset v 19 := by
  rw [packetRuns_eq, duration_stageRuns]

/-- Between two marks the envelope stays at the level of the stage. -/
private theorem envelope_stage (ha : accepts s start data a = true) (hn : n ≤ 18) {k : ℕ}
    (hk : k < dwell (data a) n) :
    envelope s start data (mark (data a) a n + k) = burst n := by
  by_cases hlast : k + 1 < dwell (data a) n
  · rw [show mark (data a) a n + k = a + 1 + offset (data a) n + (k + 1) by rw [mark]; omega,
      envelope_at ha (by omega) hlast]
    rfl
  -- the last cycle is cycle 0 of the next stage
  · rw [show mark (data a) a n + k = a + 1 + offset (data a) (n + 1) + 0 by
      rw [mark, offset_succ]; omega, envelope_at ha (by omega) (dwell_pos (by omega)), level,
      if_pos rfl, burst]
    exact decide_eq_decide.mpr (by omega)

/-- A packet on the envelope, two cycles behind its start. -/
theorem spells_packet (ha : accepts s start data a = true) :
    Spells (envelope s start data) (a + 2) (packetRuns (data a)) := by
  have hstages : ∀ n ≤ 19, Spells (envelope s start data) (a + 2) (stageRuns (data a) n) := by
    intro n hn
    induction n with
    | zero => exact spells_nil _ _
    | succ n ih =>
      rw [stageRuns_succ]
      apply spells_append (ih (by omega))
      rw [duration_stageRuns]
      exact spells_run fun k hk => envelope_stage ha (by omega) hk
  rw [packetRuns_eq]
  exact hstages 19 le_rfl

/-- Where the envelope is high, a packet is being sent. -/
private theorem envelope_high (hs : s.state = .idle) (hm : s.message = false) {k : ℕ}
    (hk : envelope s start data k = true) :
    ∃ a, accepts s start data a = true ∧ a + 2 ≤ k ∧ k < a + 2 + offset (data a) 19 := by
  rcases position start data hs hm k with h | ⟨a, c, n, j, ha, h, rfl⟩
  · exact absurd (h.message.symm.trans hk) Bool.false_ne_true
  · have hlevel : level n j = true := h.message.symm.trans hk
    have hlt := h.lt
    refine ⟨a, ha, ?_⟩
    rw [level] at hlevel
    split_ifs at hlevel with h0
    -- in its first cycle a stage shows the burst of the one before
    · have hn := of_decide_eq_true hlevel
      have hfirst := offset_mono (v := data a) (show 1 ≤ n by omega)
      have hlast := offset_mono (v := data a) (show n ≤ 19 by omega)
      have h1 : offset (data a) 1 = 100_001 := by simp [offset, dwell, tickHeaderBurst]
      omega
    · have hn : n % 2 = 0 ∧ n ≤ 18 := of_decide_eq_true hlevel
      have hlast := offset_mono (v := data a) (show n + 1 ≤ 19 by omega)
      rw [offset_succ] at hlast
      omega

variable (start data) in
/-- The packets do not overlap, and outside of them the envelope is low. -/
theorem envelope_blocks (hs : s.state = .idle) (hm : s.message = false) :
    Blocks (envelope s start data) false (accepts s start data) (fun a => a + 2)
      (fun a => packetRuns (data a)) where
  spells a ha := spells_packet ha
  apart a b ha hb hab := by
    have hspace := accepts_spaced ha hb hab
    have hmono := offset_mono (v := data a) (show 19 ≤ 20 by omega)
    rw [duration_packetRuns]
    omega
  rests k hk := by
    apply Bool.eq_false_of_not_eq_true
    intro hhigh
    obtain ⟨a, ha, hle, hlt⟩ := envelope_high hs hm hhigh
    have hend := hk a ha hle
    rw [duration_packetRuns] at hend
    omega

end Packet

/-! ## The `done` flag -/

section Done

variable {s : IrTx} {start : ℕ → Bool} {data : ℕ → BitVec 8} {a b n : ℕ} {i : Input}

/-- Outside `IDLE`, `done` is set at the end of the frame and cleared by `WAIT`. -/
private theorem step_done (hr : i.reset = false) (hi : s.state ≠ .idle)
    (hu : ∀ low, s.state ≠ .unused low) :
    (s.step i).done = if s.state = .wait then false
      else if s.state = .eof ∧ s.limit ≤ s.tickCount.toNat then true else s.done := by
  rw [step, if_neg (by simp [hr])]
  rcases Nat.lt_or_ge s.tickCount.toNat s.limit with hlt | hge
  · rw [advance_count hi hu hlt, if_neg (show ¬ (s.state = .eof ∧ _) from fun h => by omega)]
  · rw [advance_limit hi hu hge]
    unfold leave nextBitLogic
    cases hs : s.state <;> simp only <;> split_ifs <;> simp_all

/-- Only the last mark of the frame is in state `EOF`. -/
private theorem stage_eof (hn : n ≤ 20) (h : stage n = .eof) : n = 18 := by
  rcases stage_cases hn with rfl | rfl | ⟨i, hi, rfl⟩ | ⟨i, hi, rfl⟩ | rfl | rfl | rfl
  case inr.inr.inl => rw [stage_mark hi] at h; cases h
  case inr.inr.inr.inl => rw [stage_space hi] at h; cases h
  all_goals first | rfl | cases h

/-- Before the first packet the transmitter is as it was. -/
private theorem transmit_before (hs : s.state = .idle)
    (hn : ∀ a < n, accepts s start data a = false) :
    (transmit s start data n).state = .idle ∧ (transmit s start data n).done = s.done := by
  induction n with
  | zero => exact ⟨hs, rfl⟩
  | succ n ih =>
    obtain ⟨hidle, hdone⟩ := ih fun a ha => hn a (by omega)
    have hstart : start n = false := by
      have h := hn n (by omega)
      rw [accepts, hidle] at h
      simpa using h
    rw [transmit_succ, ← hdone]
    simp [step, advance, hidle, hstart]

/-- In the cycle behind a packet `done` is high. -/
theorem done_at (ha : accepts s start data a = true) :
    (transmit s start data (a + 1 + offset (data a) 19)).done = true := by
  have hpos := dwell_pos (v := data a) (n := 18) (by omega)
  have hs := sending_at ha (n := 18) (by omega) (dwell (data a) 18 - 1) (by omega)
  have hlimit := hs.limit
  have htick := hs.tickCount
  have hstate : (transmit s start data
      (a + 1 + offset (data a) 18 + (dwell (data a) 18 - 1))).state = .eof := hs.state
  have hlast : a + 1 + offset (data a) 19 =
      a + 1 + offset (data a) 18 + (dwell (data a) 18 - 1) + 1 := by
    rw [offset_succ _ 18]
    omega
  rw [hlast, transmit_succ, step_done rfl (by simp [hstate]) (by simp [hstate]),
    if_neg (by simp [hstate]), if_pos ⟨hstate, by omega⟩]

/-- In no other cycle, once a packet has been accepted. -/
private theorem done_cases (hs : s.state = .idle) (hm : s.message = false)
    (h : (transmit s start data n).done = true) :
    (∃ a, accepts s start data a = true ∧ n = a + 1 + offset (data a) 19) ∨
      ∀ a < n, accepts s start data a = false := by
  induction n with
  | zero => exact .inr fun a ha => absurd ha (Nat.not_lt_zero a)
  | succ n ih =>
    rw [transmit_succ] at h
    rcases position start data hs hm n with hrest | ⟨a, c, m, k, ha, hsend, hn⟩
    -- an idle transmitter keeps `done` until the next packet
    · have hstart : start n = false := by
        by_contra hstart
        rw [Bool.not_eq_false] at hstart
        simp [step, advance, hrest.state, hstart] at h
      have hkeep : (transmit s start data n).done = true := by
        simpa [step, advance, hrest.state, hstart] using h
      have hnot : accepts s start data n = false := by simp [accepts, hstart]
      rcases ih hkeep with ⟨b, hb, hnb⟩ | hnone
      · have hwait := sending_at hb (n := 19) le_rfl 0 (dwell_pos (by omega))
        rw [Nat.add_zero, ← hnb] at hwait
        exact absurd (hwait.state.symm.trans hrest.state) (stage_ne_idle hwait.last).1
      · refine .inr fun b hb => ?_
        rcases Nat.lt_or_ge b n with hlt | hge
        · exact hnone b hlt
        · rwa [show b = n by omega]
    · obtain ⟨hne, hnu⟩ := stage_ne_idle hsend.last
      have hlimit := hsend.limit
      have htick := hsend.tickCount
      have hlt := hsend.lt
      rw [step_done rfl (by rw [hsend.state]; exact hne) (by rw [hsend.state]; exact hnu)] at h
      split_ifs at h with hwait heof
      -- the end of the frame
      · obtain rfl : m = 18 := stage_eof hsend.last (hsend.state.symm.trans heof.1)
        exact .inl ⟨a, ha, by rw [offset_succ _ 18]; omega⟩
      · rcases ih h with ⟨b, hb, hnb⟩ | hnone
        · have hw := sending_at hb (n := 19) le_rfl 0 (dwell_pos (by omega))
          rw [Nat.add_zero, ← hnb] at hw
          exact absurd hw.state hwait
        · have hnot := hnone a (by omega)
          rw [ha] at hnot
          cases hnot

/-- **One cycle of `done` for each packet**, before the next one is accepted. -/
theorem done_once (hs : s.state = .idle) (hm : s.message = false)
    (ha : accepts s start data a = true) :
    ∃! n, a < n ∧ (∀ b, accepts s start data b = true → a < b → n ≤ b) ∧
      (transmit s start data n).done = true := by
  refine ⟨a + 1 + offset (data a) 19, ⟨by omega, fun b hb hab => ?_, done_at ha⟩, ?_⟩
  · have hspace := accepts_spaced ha hb hab
    have hmono := offset_mono (v := data a) (show 19 ≤ 20 by omega)
    omega
  · rintro n ⟨han, hnext, hdone⟩
    rcases done_cases hs hm hdone with ⟨b, hb, rfl⟩ | hnone
    · rcases Nat.lt_trichotomy a b with hab | rfl | hba
      · have := hnext b hb hab
        omega
      · rfl
      · have hspace := accepts_spaced hb ha hba
        have hmono := offset_mono (v := data b) (show 19 ≤ 20 by omega)
        omega
    · have hnot := hnone a han
      rw [ha] at hnot
      cases hnot

end Done

/-! ## What is not looked at -/

section Blind

variable {s : IrTx} {start start' : ℕ → Bool} {data data' : ℕ → BitVec 8}

/-- Outside `IDLE` a clock edge looks at neither `start` nor `data`, and in `IDLE` it looks
    at `data` only with a start. -/
private theorem step_blind (i j : Input) (hr : i.reset = j.reset)
    (h : s.state = .idle → i.start = j.start ∧ (i.start = true → i.data = j.data)) :
    s.step i = s.step j := by
  unfold step advance
  rw [hr]
  cases hs : s.state with
  | idle =>
    obtain ⟨hstart, hdata⟩ := h hs
    cases hi : i.start with
    | false => simp [← hstart, hi]
    | true => simp [← hstart, hi, hdata hi]
  | _ => rfl

/-- Two runs whose inputs agree whenever the transmitter is idle are one. -/
theorem transmit_blind (h : ∀ n, (transmit s start data n).state = .idle →
      start' n = start n ∧ (start n = true → data' n = data n)) (n : ℕ) :
    transmit s start' data' n = transmit s start data n := by
  induction n with
  | zero => rfl
  | succ n ih =>
    rw [transmit_succ, transmit_succ, ih]
    refine step_blind ⟨false, start' n, data' n⟩ ⟨false, start n, data n⟩ rfl fun hidle => ?_
    obtain ⟨hstart, hdata⟩ := h n hidle
    exact ⟨hstart, fun hon => hdata (hstart.symm.trans hon)⟩

end Blind

/-- The encoder: the accepted bytes, each in the cycle in which it was accepted, as runs. -/
def encode (accepted : List (ℕ × BitVec 8)) : List (Bool × ℕ) :=
  layout false (accepted.map fun p => (p.1 + 2, packetRuns p.2))

/-- The starts accepted before cycle `n`, each with its byte. -/
def accepted (s : IrTx) (start : ℕ → Bool) (data : ℕ → BitVec 8) (n : ℕ) : List (ℕ × BitVec 8) :=
  log (accepts s start data) (fun k => (k, data k)) n

/-- **`ir_tx` refines the encoder.**  The envelope is the code of the accepted bytes, with
    100,002 low cycles or more behind each packet; nothing but the accepted starts and
    their bytes matters; and `done` comes once for each packet. -/
theorem refines_encoder (s : IrTx) (start : ℕ → Bool) (data : ℕ → BitVec 8)
    (hs : s.state = .idle) (hm : s.message = false) :
    (∀ n, ∀ k < n, envelope s start data k =
      (expand (encode (accepted s start data n))).getD k false) ∧
    (∀ a, accepts s start data a = true → ∀ k < 100_002,
      envelope s start data (a + 2 + duration (packetRuns (data a)) + k) = false) ∧
    (∀ start' data', (∀ n, (transmit s start data n).state = .idle →
        start' n = start n ∧ (start n = true → data' n = data n)) →
      ∀ n, transmit s start' data' n = transmit s start data n) ∧
    (∀ a, accepts s start data a = true →
      ∃! n, a < n ∧ (∀ b, accepts s start data b = true → a < b → n ≤ b) ∧
        (transmit s start data n).done = true) ∧
    ∀ n, (∀ a < n, accepts s start data a = false) →
      (transmit s start data n).done = s.done := by
  have hblocks := envelope_blocks start data hs hm
  refine ⟨fun n k hk => ?_, fun a ha k hk => hblocks.rests _ fun b hb hbk => ?_,
    fun start' data' h => transmit_blind h, fun a ha => done_once hs hm ha,
    fun n hn => (transmit_before hs hn).2⟩
  · rw [encode, accepted, log_map]
    exact hblocks.eq_layout (fun a _ => Nat.le_add_right a 2) hk
  -- the next packet does not begin while the low run lasts
  · rcases Nat.lt_trichotomy a b with hab | rfl | hba
    · have hspace := accepts_spaced ha hb hab
      have hwait : offset (data a) 20 = offset (data a) 19 + 100_001 := offset_succ _ 19
      rw [duration_packetRuns] at hbk
      omega
    · omega
    · have := hblocks.apart b a hb ha hba
      omega

/-- A start pulse in cycle 3 and no other. -/
def oneStart (n : ℕ) : Bool := n = 3

/-- It is accepted, and answered by one cycle of `done`. -/
theorem powerUp_sends : accepted powerUp oneStart (fun _ => 0xA5) 10 = [(3, 0xA5)] ∧
    ∃! n, 3 < n ∧ (∀ b, accepts powerUp oneStart (fun _ => 0xA5) b = true → 3 < b → n ≤ b) ∧
      (transmit powerUp oneStart (fun _ => 0xA5) n).done = true := by
  obtain ⟨-, -, -, hdone, -⟩ := refines_encoder powerUp oneStart (fun _ => 0xA5) rfl rfl
  exact ⟨by decide, hdone 3 (by decide)⟩

end Scope.Native.IrTx
