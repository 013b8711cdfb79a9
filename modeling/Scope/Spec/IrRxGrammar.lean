import Mathlib.Data.List.GetD
import Scope.ForStd.Run
import Scope.ForStd.Wave
import Scope.ForStd.BitVec
import Scope.Native.IrRx

/-!
# The timing grammar of the infrared receiver

Between two edges the receiver only counts, so what it does depends on the run
lengths of its input alone.  `Receiving v ds k s` says what the registers are
when the runs `ds` have been closed since the falling edge that left `IDLE` and
`k` cycles have been counted in the run that is open; every clock edge either
goes on to the next count, closes the run, or ends the reception.

## Key results

- `receive_runs`: runs within their windows are received one by one
- `reception_ends`: every reception ends in `IDLE`, with a byte exactly when its
  runs are those of a packet
- `accepts_iff_packet`: the receiver accepts exactly its timing grammar
-/

namespace Scope.Native.IrRx

open Sync Wave

/-- The state machine in front of clock edge `n`, without reset, when `w` is the
    level behind the synchroniser. -/
def receive (s : Fsm) (w : ℕ → Bool) (n : ℕ) : Fsm := run (Fsm.step false) s w n

theorem receive_succ (s : Fsm) (w : ℕ → Bool) (n : ℕ) :
    receive s w (n + 1) = (receive s w n).advance (w n) := rfl

/-! ## The grammar -/

/-- The runs of a packet, from the falling edge that leaves `IDLE` to the falling
    edge behind the last data space.  A run of `d` cycles is counted as `d - 1`. -/
structure Packet (ds : List ℕ) : Prop where
  runs : ds.length = 18
  burst : burstMin ≤ ds.getD 0 0 - 1 ∧ ds.getD 0 0 - 1 ≤ burstMax
  space : spaceMin ≤ ds.getD 1 0 - 1 ∧ ds.getD 1 0 - 1 ≤ spaceMax
  dataBurst : ∀ i < 8, dataBurstMin ≤ ds.getD (2 + 2 * i) 0 - 1 ∧
    ds.getD (2 + 2 * i) 0 - 1 ≤ dataBurstMax
  dataSpace : ∀ i < 8, ds.getD (3 + 2 * i) 0 - 1 < timeout

/-- The byte that the data spaces encode, first bit first. -/
def Encodes (ds : List ℕ) (v : BitVec 8) : Prop :=
  ∀ i < 8, v.getLsbD (7 - i) = decide (ds.getD (3 + 2 * i) 0 - 1 > bitThreshold)

/-- The state in which run number `n` of a packet is received. -/
def stage : ℕ → State
  | 0 => .headerBurst
  | 1 => .headerSpace
  | n + 2 => if n = 16 then .validate else if n % 2 = 0 then .dataBurst else .dataSpace

/-- Run number `n` of a packet may have the length `d`. -/
def Window (n d : ℕ) : Prop :=
  match n with
  | 0 => burstMin ≤ d - 1 ∧ d - 1 ≤ burstMax
  | 1 => spaceMin ≤ d - 1 ∧ d - 1 ≤ spaceMax
  | n + 2 =>
    if n % 2 = 0 then dataBurstMin ≤ d - 1 ∧ d - 1 ≤ dataBurstMax else d - 1 < timeout

/-- All the runs of `ds` are within their windows. -/
def Windows (ds : List ℕ) : Prop := ∀ n < ds.length, Window n (ds.getD n 0)

/-- The even runs are data bursts, and behind the last space comes `VALIDATE`. -/
private theorem stage_burst (i : ℕ) :
    stage (2 + 2 * i) = if i = 8 then .validate else .dataBurst := by
  rw [Nat.add_comm, stage]
  by_cases h : i = 8
  · rw [if_pos (by omega), if_pos h]
  · rw [if_neg (by omega), if_pos (by omega), if_neg h]

/-- The odd runs are spaces. -/
theorem stage_space (i : ℕ) : stage (3 + 2 * i) = .dataSpace := by
  rw [show 3 + 2 * i = 2 * i + 1 + 2 by omega, stage, if_neg (by omega), if_neg (by omega)]

/-- The window of a data burst. -/
theorem window_burst (i d : ℕ) :
    Window (2 + 2 * i) d ↔ dataBurstMin ≤ d - 1 ∧ d - 1 ≤ dataBurstMax := by
  rw [Nat.add_comm]
  simp [Window]

/-- A data space has no window but the timeout. -/
private theorem window_space (i d : ℕ) : Window (3 + 2 * i) d ↔ d - 1 < timeout := by
  rw [show 3 + 2 * i = 2 * i + 1 + 2 by omega]
  simp [Window]

/-- The runs of a packet by kind. -/
private theorem run_cases {P : ℕ → Prop} (h0 : P 0) (h1 : P 1) (hb : ∀ i, P (2 + 2 * i))
    (hs : ∀ i, P (3 + 2 * i)) (n : ℕ) : P n := by
  rcases n with _ | _ | n
  · exact h0
  · exact h1
  · obtain ⟨i, rfl | rfl⟩ := Nat.even_or_odd' n
    · exact (show 2 + 2 * i = 2 * i + 1 + 1 by omega) ▸ hb i
    · exact (show 3 + 2 * i = 2 * i + 1 + 1 + 1 by omega) ▸ hs i

/-- A packet is received outside `IDLE`. -/
theorem stage_ne_idle (n : ℕ) : stage n ≠ .idle := by
  induction n using run_cases with
  | h0 => simp [stage]
  | h1 => simp [stage]
  | hb i => rw [stage_burst]; split_ifs <;> simp
  | hs i => simp [stage_space]

/-- A packet is validated behind its last run. -/
private theorem stage_ne_validate {n : ℕ} (h : n < 18) : stage n ≠ .validate := by
  induction n using run_cases with
  | h0 => simp [stage]
  | h1 => simp [stage]
  | hb i => rw [stage_burst, if_neg (by omega)]; simp
  | hs i => simp [stage_space]

/-- All windows end before the timeout. -/
private theorem Window.lt_timeout {n d : ℕ} (h : Window n d) : d - 1 < timeout := by
  induction n using run_cases with
  | h0 => exact h.2.trans_lt (by decide)
  | h1 => exact h.2.trans_lt (by decide)
  | hb i => exact ((window_burst i d).mp h).2.trans_lt (by decide)
  | hs i => exact (window_space i d).mp h

/-- A packet is 18 runs within their windows. -/
theorem packet_iff_windows {ds : List ℕ} : Packet ds ↔ ds.length = 18 ∧ Windows ds := by
  constructor
  · rintro ⟨hlen, hburst, hspace, hdata, hgap⟩
    refine ⟨hlen, fun n hn => ?_⟩
    induction n using run_cases with
    | h0 => exact hburst
    | h1 => exact hspace
    | hb i => exact (window_burst i _).mpr (hdata i (by omega))
    | hs i => exact (window_space i _).mpr (hgap i (by omega))
  · rintro ⟨hlen, hw⟩
    rw [Windows, hlen] at hw
    exact ⟨hlen, hw 0 (by omega), hw 1 (by omega),
      fun i hi => (window_burst i _).mp (hw _ (by omega)),
      fun i hi => (window_space i _).mp (hw _ (by omega))⟩

/-! ## One clock edge -/

section Advance

variable {s : Fsm} {b : Bool}

/-- The level is remembered for one cycle. -/
theorem advance_prevLevel : (s.advance b).prevLevel = b := by
  unfold Fsm.advance Fsm.timeOut Fsm.validate Fsm.count
  split_ifs <;> simp_all

/-- Below the timeout the tick counter does not saturate. -/
theorem tickCount_succ (ht : s.tickCount.toNat < timeout) :
    (s.tickCount + 1).toNat = s.tickCount.toNat + 1 := by
  apply BitVec.toNat_add_one
  exact (Nat.succ_le_of_lt ht).trans_lt (by decide)

/-- Without an edge the receiver counts. -/
theorem advance_quiet (hb : b = s.prevLevel) (hs : s.state ≠ .validate)
    (ht : s.tickCount.toNat < timeout) :
    s.advance b = { s with done := false, tickCount := s.tickCount + 1 } := by
  have hsat : s.tickCount.toNat < 0xFFFFF := ht.trans (by decide)
  simp only [Fsm.advance, Fsm.validate, Fsm.timeOut]
  rw [if_pos hb, if_neg hs, if_neg fun h => absurd h.1 (by omega), Fsm.count, if_pos hsat]

/-- An edge that is no timeout takes the branch of the current state. -/
theorem advance_edge (hb : b ≠ s.prevLevel) (hs : s.state ≠ .validate)
    (ht : s.tickCount.toNat < timeout) :
    s.advance b = { s.edge { s with done := false } with prevLevel := b } := by
  -- the timeout has priority over the edge, so it has to be excluded first
  simp only [Fsm.advance, Fsm.validate, Fsm.timeOut]
  rw [if_neg hb, if_neg hs, if_neg fun h => absurd h.1 (by omega)]

/-- No branch of the edge case writes the outputs `done` and `data`. -/
private theorem edge_outputs (s n : Fsm) : (s.edge n).done = n.done ∧ (s.edge n).data = n.data := by
  unfold Fsm.edge Fsm.reject
  split <;> try split_ifs
  all_goals exact ⟨rfl, rfl⟩

/-- Only `VALIDATE` raises `done` and writes `data`. -/
theorem advance_outputs (hs : s.state ≠ .validate) :
    (s.advance b).done = false ∧ (s.advance b).data = s.data := by
  simp only [Fsm.advance, Fsm.validate]
  rw [if_neg hs]
  unfold Fsm.timeOut Fsm.count
  split_ifs <;> simp [edge_outputs]

/-- A timeout ends the reception, with or without an edge. -/
theorem advance_timeout (hi : s.state ≠ .idle) (ht : timeout ≤ s.tickCount.toNat) :
    (s.advance b).state = .idle := by
  simp only [Fsm.advance, Fsm.timeOut]
  rw [if_pos ⟨ht, hi⟩]

/-- `VALIDATE` puts the byte out. -/
theorem advance_validate (hs : s.state = .validate) (ht : s.tickCount.toNat < timeout) :
    (s.advance b).state = .idle ∧ (s.advance b).done = true ∧
      (s.advance b).data = s.shiftReg := by
  simp only [Fsm.advance, Fsm.timeOut, Fsm.validate]
  rw [if_neg fun h => absurd h.1 (by omega), if_pos hs]
  exact ⟨rfl, rfl, rfl⟩

/-- A falling edge leaves `IDLE`, and nothing else does. -/
theorem advance_idle (hs : s.state = .idle) :
    (s.advance b).state = (if b = false ∧ s.prevLevel = true then .headerBurst else .idle) ∧
      (b = false → s.prevLevel = true → (s.advance b).tickCount = 0) := by
  have hv : s.state ≠ .validate := by rw [hs]; simp
  simp only [Fsm.advance, Fsm.timeOut, Fsm.validate]
  rw [if_neg hv, if_neg fun h => h.2 hs]
  cases b <;> cases hp : s.prevLevel <;> simp [Fsm.edge, Fsm.count, hs, hp] <;>
    split_ifs <;> simp

end Advance

/-! ## One run -/

/-- The runs `ds` have been received, `k` cycles have been counted since, and
    `data` has the value `v`. -/
structure Receiving (v : BitVec 8) (ds : List ℕ) (k : ℕ) (s : Fsm) : Prop where
  state : s.state = stage ds.length
  tickCount : s.tickCount.toNat = k
  bitCount : 2 ≤ ds.length → ds.length < 18 → s.bitCount.toNat = (ds.length - 2) / 2
  shiftReg : ∀ i < (ds.length - 2) / 2, s.shiftReg.getLsbD ((ds.length - 2) / 2 - 1 - i) =
    decide (ds.getD (3 + 2 * i) 0 - 1 > bitThreshold)
  done : s.done = false
  data : s.data = v

section OneRun

variable {v : BitVec 8} {ds : List ℕ} {k : ℕ} {s : Fsm} {b : Bool}

/-- A reception is not in `IDLE`. -/
theorem Receiving.ne_idle (h : Receiving v ds k s) : s.state ≠ .idle := by
  rw [h.state]
  exact stage_ne_idle _

/-- A reception is not in `VALIDATE` before it is complete. -/
theorem Receiving.ne_validate (h : Receiving v ds k s) (hlen : ds.length < 18) :
    s.state ≠ .validate := by
  rw [h.state]
  exact stage_ne_validate hlen

/-- A cycle without an edge is counted. -/
theorem Receiving.quiet (h : Receiving v ds k s) (hlen : ds.length < 18) (hk : k < timeout)
    (hb : b = s.prevLevel) : Receiving v ds (k + 1) (s.advance b) := by
  have ht : s.tickCount.toNat < timeout := by
    rw [h.tickCount]
    exact hk
  rw [advance_quiet hb (h.ne_validate hlen) ht]
  exact ⟨h.state, by rw [tickCount_succ ht, h.tickCount], h.bitCount, h.shiftReg, rfl, h.data⟩

/-- The kinds of run that are left to receive. -/
private theorem length_cases (hlen : ds.length < 18) : ds.length = 0 ∨ ds.length = 1 ∨
    (∃ i < 8, ds.length = 2 + 2 * i) ∨ ∃ i < 8, ds.length = 3 + 2 * i := by
  rcases Nat.even_or_odd' ds.length with ⟨i, hi | hi⟩
  · rcases Nat.eq_zero_or_pos i with h | h
    · exact .inl (by omega)
    · exact .inr (.inr (.inl ⟨i - 1, by omega, by omega⟩))
  · rcases Nat.eq_zero_or_pos i with h | h
    · exact .inr (.inl (by omega))
    · exact .inr (.inr (.inr ⟨i - 1, by omega, by omega⟩))

/-- What an edge leaves in the registers when it is no timeout. -/
def closed (s : Fsm) (b : Bool) : Fsm :=
  { s.edge { s with done := false } with prevLevel := b }

/-- The header burst is over. -/
private theorem edge_header (h : Receiving v ds k s) (hlen : ds.length = 0)
    (hw : Window 0 (k + 1)) : Receiving v (ds ++ [k + 1]) 0 (closed s b) := by
  have hstate : s.state = .headerBurst := by rw [h.state, hlen]; rfl
  have hedge : s.edge { s with done := false } =
      { s with done := false, state := .headerSpace, tickCount := 0 } := by
    simp only [Fsm.edge, hstate]
    rw [if_pos (by rw [h.tickCount]; exact hw)]
  rw [closed, hedge]
  constructor <;> simp [hlen, stage, h.data]

/-- The header space is over. -/
private theorem edge_headerSpace (h : Receiving v ds k s) (hlen : ds.length = 1)
    (hw : Window 1 (k + 1)) : Receiving v (ds ++ [k + 1]) 0 (closed s b) := by
  have hstate : s.state = .headerSpace := by rw [h.state, hlen]; rfl
  have hedge : s.edge { s with done := false } =
      { s with done := false, state := .dataBurst, bitCount := 0, shiftReg := 0,
               tickCount := 0 } := by
    simp only [Fsm.edge, hstate]
    rw [if_pos (by rw [h.tickCount]; exact hw)]
  rw [closed, hedge]
  constructor <;> simp [hlen, stage, h.data]

/-- A data burst is over. -/
private theorem edge_dataBurst {i : ℕ} (h : Receiving v ds k s) (hlen : ds.length = 2 + 2 * i)
    (hi : i < 8) (hw : Window (2 + 2 * i) (k + 1)) :
    Receiving v (ds ++ [k + 1]) 0 (closed s b) := by
  have hstate : s.state = .dataBurst := by rw [h.state, hlen, stage_burst, if_neg (by omega)]
  have hedge : s.edge { s with done := false } =
      { s with done := false, state := .dataSpace, tickCount := 0 } := by
    simp only [Fsm.edge, hstate]
    rw [if_pos (by rw [h.tickCount]; exact (window_burst i _).mp hw)]
  have hhalf : ((ds ++ [k + 1]).length - 2) / 2 = (ds.length - 2) / 2 := by simp; omega
  rw [closed, hedge]
  constructor
  case state => simp [hlen, show 2 + 2 * i + 1 = 3 + 2 * i by omega, stage_space]
  case bitCount => intro _ _; rw [hhalf]; exact h.bitCount (by omega) (by omega)
  case shiftReg =>
    rw [hhalf]
    intro j hj
    rw [List.getD_append _ _ _ _ (by omega)]
    exact h.shiftReg j hj
  all_goals simp [h.data]

/-- A data space shifts its bit in behind the ones received before. -/
private theorem shiftIn_bits {i : ℕ} (h : Receiving v ds k s) (hlen : ds.length = 3 + 2 * i)
    {j : ℕ} (hj : j < i + 1) (hi : i < 8) :
    (BitVec.shiftIn s.shiftReg (decide (s.tickCount.toNat > bitThreshold))).getLsbD (i - j) =
      decide ((ds ++ [k + 1]).getD (3 + 2 * j) 0 - 1 > bitThreshold) := by
  have hshift := h.shiftReg
  rw [show (ds.length - 2) / 2 = i by omega] at hshift
  rw [BitVec.getLsbD_shiftIn]
  -- older bits move up by one place, and the new one goes to the end
  rcases Nat.lt_or_ge j i with hlt | hge
  · rw [if_neg (by omega), decide_eq_true (by omega), Bool.true_and,
      List.getD_append _ _ _ _ (by omega), ← hshift j hlt]
    congr 1
    omega
  · obtain rfl : j = i := by omega
    rw [if_pos (by omega), List.getD_append_right _ _ _ _ (by omega), hlen, h.tickCount]
    simp

/-- A data space is over, and its bit is in. -/
private theorem edge_dataSpace {i : ℕ} (h : Receiving v ds k s) (hlen : ds.length = 3 + 2 * i)
    (hi : i < 8) : Receiving v (ds ++ [k + 1]) 0 (closed s b) := by
  have hstate : s.state = .dataSpace := by rw [h.state, hlen, stage_space]
  have hbits : s.bitCount.toNat = i := by
    rw [h.bitCount (by omega) (by omega)]
    omega
  have hseven : s.bitCount = 7 ↔ i = 7 := by
    rw [← BitVec.toNat_inj, hbits]
    simp
  -- the eighth bit leaves `bit_count` as it is and goes on to `VALIDATE`
  have hedge : s.edge { s with done := false } =
      { s with
        done := false
        shiftReg := BitVec.shiftIn s.shiftReg (decide (s.tickCount.toNat > bitThreshold))
        tickCount := 0
        bitCount := if i = 7 then s.bitCount else s.bitCount + 1
        state := if i = 7 then .validate else .dataBurst } := by
    simp only [Fsm.edge, hstate, hseven]
    split_ifs <;> rfl
  have hhalf : ((ds ++ [k + 1]).length - 2) / 2 = i + 1 := by simp; omega
  rw [closed, hedge]
  constructor
  case state =>
    simp only [List.length_append, List.length_singleton, hlen]
    rw [show 3 + 2 * i + 1 = 2 + 2 * (i + 1) by omega, stage_burst]
    simp only [show i + 1 = 8 ↔ i = 7 by omega]
  case bitCount =>
    intro _ hl
    simp only [List.length_append, List.length_singleton] at hl
    simp only [hhalf, if_neg (show ¬ i = 7 by omega)]
    rw [BitVec.toNat_add_one (by omega), hbits]
  case shiftReg =>
    rw [hhalf, Nat.add_sub_cancel]
    exact fun j hj => shiftIn_bits h hlen hj hi
  all_goals simp [h.data]

/-- An edge after a run within its window goes on to the next run. -/
theorem Receiving.edge (h : Receiving v ds k s) (hlen : ds.length < 18) (hk : k < timeout)
    (hb : b ≠ s.prevLevel) (hw : Window ds.length (k + 1)) :
    Receiving v (ds ++ [k + 1]) 0 (s.advance b) := by
  rw [advance_edge hb (h.ne_validate hlen) (by rw [h.tickCount]; exact hk)]
  rcases length_cases hlen with h0 | h1 | ⟨i, hi, hi'⟩ | ⟨i, hi, hi'⟩
  · exact edge_header h h0 (h0 ▸ hw)
  · exact edge_headerSpace h h1 (h1 ▸ hw)
  · exact edge_dataBurst h hi' hi (hi' ▸ hw)
  · exact edge_dataSpace h hi' hi

/-- An edge after a run outside its window gives the packet up. -/
theorem Receiving.reject (h : Receiving v ds k s) (hlen : ds.length < 18) (hk : k < timeout)
    (hb : b ≠ s.prevLevel) (hw : ¬ Window ds.length (k + 1)) : (s.advance b).state = .idle := by
  rw [advance_edge hb (h.ne_validate hlen) (by rw [h.tickCount]; exact hk)]
  obtain ⟨hstate, htick, -, -, -, -⟩ := h
  rcases length_cases hlen with h0 | h1 | ⟨i, hi, hi'⟩ | ⟨i, hi, hi'⟩
  · rw [h0] at hstate hw
    simp only [Fsm.edge, hstate, stage]
    rw [if_neg (by rw [htick]; exact hw)]
    rfl
  · rw [h1] at hstate hw
    simp only [Fsm.edge, hstate, stage]
    rw [if_neg (by rw [htick]; exact hw)]
    rfl
  · rw [hi', window_burst] at hw
    rw [hi', stage_burst, if_neg (by omega)] at hstate
    simp only [Fsm.edge, hstate]
    rw [if_neg (by rw [htick]; exact hw)]
    rfl
  · rw [hi', window_space] at hw
    -- a data space has no window of its own: only the timeout ends it
    exact absurd hk hw

/-- Behind the last run the byte is complete. -/
theorem Receiving.finish (h : Receiving v ds 0 s) (hlen : ds.length = 18) :
    (s.advance b).state = .idle ∧ (s.advance b).done = true ∧ Encodes ds (s.advance b).data := by
  have hv : s.state = .validate := by rw [h.state, hlen]; rfl
  obtain ⟨hidle, hdone, hdata⟩ := advance_validate (b := b) hv (by rw [h.tickCount]; decide)
  refine ⟨hidle, hdone, fun i hi => ?_⟩
  have hbit := h.shiftReg i (by omega)
  rw [hlen] at hbit
  rw [hdata]
  exact hbit

end OneRun

/-! ## Receptions -/

section Receptions

variable {s : Fsm} {w : ℕ → Bool} {v : BitVec 8} {ds : List ℕ} {f e : ℕ}

/-- The state machine remembers the level of the cycle before. -/
private theorem receive_prevLevel (hs : s.prevLevel = true) (n : ℕ) :
    (receive s w n).prevLevel = before true w n := by
  cases n with
  | zero => exact hs
  | succ n => exact advance_prevLevel

/-- So it sees the edges of the wave. -/
theorem edge_iff (hs : s.prevLevel = true) (n : ℕ) :
    Edge true w n ↔ w n ≠ (receive s w n).prevLevel := by
  rw [receive_prevLevel hs]
  rfl

/-- As long as no edge comes, the open run is counted. -/
private theorem receiving_hold (hs : s.prevLevel = true) (hlen : ds.length < 18)
    (h : Receiving v ds 0 (receive s w (e + 1))) {K : ℕ} (hK : K ≤ timeout)
    (hq : ∀ u, e < u → u < e + 1 + K → ¬ Edge true w u) :
    ∀ k ≤ K, Receiving v ds k (receive s w (e + 1 + k)) :=
  run_span (P := fun k r => Receiving v ds k r) h fun k hk hr =>
    hr.quiet hlen (by omega)
      (not_not.mp (mt (edge_iff hs (e + 1 + k)).mpr (hq _ (by omega) (by omega))))

/-- In front of the next edge the open run has been counted. -/
private theorem receiving_nextEdge (hs : s.prevLevel = true) (hlen : ds.length < 18)
    (h : Receiving v ds 0 (receive s w (e + 1))) {e' : ℕ} (hn : NextEdge true w e e')
    (hd : e' - e - 1 ≤ timeout) : Receiving v ds (e' - e - 1) (receive s w e') := by
  have hlt := hn.lt
  have := receiving_hold hs hlen h hd (fun u hu hu' => hn.quiet u hu (by omega)) _ le_rfl
  rwa [show e + 1 + (e' - e - 1) = e' by omega] at this

/-- A run within its window is received. -/
private theorem receiving_run (hs : s.prevLevel = true) (hlen : ds.length < 18)
    (h : Receiving v ds 0 (receive s w (e + 1))) {e' : ℕ} (hn : NextEdge true w e e')
    (hw : Window ds.length (e' - e)) :
    Receiving v (ds ++ [e' - e]) 0 (receive s w (e' + 1)) := by
  have hlt := hn.lt
  have hd := hw.lt_timeout
  have hr := receiving_nextEdge hs hlen h hn hd.le
  rw [receive_succ, show e' - e = e' - e - 1 + 1 by omega]
  exact hr.edge hlen hd ((edge_iff hs e').mp hn.edge) (by rwa [Nat.sub_add_cancel (by omega)])

/-- The runs in front of the last one are within their windows, too. -/
private theorem Windows.of_append {d : ℕ} (h : Windows (ds ++ [d])) :
    Windows ds ∧ Window ds.length d := by
  refine ⟨fun n hn => ?_, ?_⟩
  · have := h n (by simp; omega)
    rwa [List.getD_append _ _ _ _ hn] at this
  · have := h ds.length (by simp)
    rwa [List.getD_append_right _ _ _ _ le_rfl, Nat.sub_self] at this

/-- One more run within its window. -/
theorem Windows.append {d : ℕ} (h : Windows ds) (hd : Window ds.length d) :
    Windows (ds ++ [d]) := by
  intro n hn
  rcases Nat.lt_or_ge n ds.length with hlt | hge
  · rw [List.getD_append _ _ _ _ hlt]
    exact h n hlt
  · obtain rfl : n = ds.length := by simp at hn; omega
    rw [List.getD_append_right _ _ _ _ le_rfl, Nat.sub_self]
    exact hd

/-- The edge that leaves `IDLE` is a falling one. -/
structure Departs (s : Fsm) (w : ℕ → Bool) (f : ℕ) : Prop where
  idle : (receive s w f).state = .idle
  left : (receive s w (f + 1)).state ≠ .idle

/-- `IDLE` is left with a falling edge. -/
theorem Departs.falling (hs : s.prevLevel = true) (h : Departs s w f) :
    w f = false ∧ before true w f = true := by
  have := h.left
  rw [receive_succ, (advance_idle h.idle).1, receive_prevLevel hs] at this
  by_contra hn
  rw [if_neg hn] at this
  exact this rfl

/-- A falling edge leaves `IDLE`. -/
theorem departs_of_falling (hs : s.prevLevel = true) (hi : (receive s w f).state = .idle)
    (hw : w f = false) (hb : before true w f = true) : Departs s w f := by
  refine ⟨hi, ?_⟩
  rw [receive_succ, (advance_idle hi).1, receive_prevLevel hs, if_pos ⟨hw, hb⟩]
  simp

/-- That edge is where the reception begins. -/
theorem Departs.edge (hs : s.prevLevel = true) (h : Departs s w f) : Edge true w f := by
  obtain ⟨hw, hb⟩ := h.falling hs
  simp [Edge, hw, hb]

/-- Behind it nothing has been received yet. -/
theorem Departs.receiving (hs : s.prevLevel = true) (h : Departs s w f) :
    Receiving (receive s w f).data [] 0 (receive s w (f + 1)) := by
  obtain ⟨hw, hb⟩ := h.falling hs
  have hp : (receive s w f).prevLevel = true := by rw [receive_prevLevel hs, hb]
  obtain ⟨hstate, htick⟩ := advance_idle (b := w f) h.idle
  obtain ⟨hdone, hdata⟩ := advance_outputs (b := w f)
    (show (receive s w f).state ≠ .validate by rw [h.idle]; simp)
  rw [if_pos ⟨hw, hp⟩] at hstate
  rw [receive_succ]
  exact ⟨hstate, by rw [htick hw hp]; rfl, by simp, by simp, hdone, hdata⟩

/-- Runs within their windows are received one by one. -/
theorem receive_runs (hs : s.prevLevel = true) (hf : Departs s w f)
    (hr : Runs true w f ds e) (hlen : ds.length ≤ 18) (hw : Windows ds) :
    Receiving (receive s w f).data ds 0 (receive s w (e + 1)) := by
  induction hr with
  | start _ => exact hf.receiving hs
  | run _ hn ih =>
    rw [List.length_append, List.length_singleton] at hlen
    obtain ⟨hw', hd⟩ := hw.of_append
    exact receiving_run hs (by omega) (ih (by omega) hw') hn hd

/-- While runs within their windows come in, nothing shows outside. -/
theorem busy_runs (hs : s.prevLevel = true) (hf : Departs s w f) (hr : Runs true w f ds e)
    (hlen : ds.length ≤ 18) (hw : Windows ds) {u : ℕ} (hu : f < u) (hu' : u ≤ e + 1) :
    (receive s w u).state ≠ .idle ∧ (receive s w u).done = false := by
  induction hr with
  | start _ =>
    obtain rfl : u = f + 1 := by omega
    exact ⟨(hf.receiving hs).ne_idle, (hf.receiving hs).done⟩
  | @run ds e e' hr hn ih =>
    rw [List.length_append, List.length_singleton] at hlen
    obtain ⟨hw', hd⟩ := hw.of_append
    have hend := receive_runs hs hf hr (by omega) hw'
    rcases Nat.lt_or_ge (e + 1) u with hlate | hearly
    -- either the run before, the open run, or the edge that closes it
    · rcases Nat.lt_or_ge e' u with hlast | hopen
      · obtain rfl : u = e' + 1 := by omega
        have := receiving_run hs (by omega) hend hn hd
        exact ⟨this.ne_idle, this.done⟩
      · obtain ⟨k, rfl⟩ : ∃ k, u = e + 1 + k := ⟨u - (e + 1), by omega⟩
        have hlim := hd.lt_timeout
        have := receiving_hold hs (by omega) hend (K := k) (by omega)
          (fun x hx hx' => hn.quiet x hx (by omega)) k le_rfl
        exact ⟨this.ne_idle, this.done⟩
    · exact ih (by omega) hw' hearly

/-- In `IDLE` the receiver waits for a falling edge. -/
theorem idle_hold (hs : s.prevLevel = true) {a b : ℕ} (ha : (receive s w a).state = .idle)
    (hab : a ≤ b) (hq : ∀ u, a ≤ u → u < b → ¬ (w u = false ∧ before true w u = true)) :
    (receive s w b).state = .idle ∧ ∀ u, a < u → u ≤ b → (receive s w u).done = false := by
  induction b, hab using Nat.le_induction with
  | base => exact ⟨ha, fun u hu hu' => absurd hu (by omega)⟩
  | succ b hab ih =>
    obtain ⟨hidle, hdone⟩ := ih fun u hu hu' => hq u hu (by omega)
    have hstate := (advance_idle (b := w b) hidle).1
    rw [receive_prevLevel hs, if_neg (hq b hab (by omega))] at hstate
    refine ⟨hstate, fun u hu hu' => ?_⟩
    rcases Nat.lt_or_ge b u with h | h
    · obtain rfl : u = b + 1 := by omega
      exact (advance_outputs (s := receive s w b) (by rw [hidle]; simp)).1
    · exact hdone u hu h

/-- Behind a packet the byte is out. -/
theorem receive_packet (hs : s.prevLevel = true) (hf : Departs s w f)
    (hr : Runs true w f ds e) (hp : Packet ds) :
    (receive s w (e + 2)).state = .idle ∧ (receive s w (e + 2)).done = true ∧
      Encodes ds (receive s w (e + 2)).data := by
  obtain ⟨hlen, hw⟩ := packet_iff_windows.mp hp
  exact (receive_runs hs hf hr hlen.le hw).finish hlen

/-- How a reception that started in cycle `f` ends in cycle `t`: with the byte of
    a packet, or with nothing. -/
def Ends (s : Fsm) (w : ℕ → Bool) (f t : ℕ) : Prop :=
  (∃ ds e, Runs true w f ds e ∧ Packet ds ∧ t = e + 2 ∧ (receive s w t).done = true ∧
    Encodes ds (receive s w t).data) ∨
  ((receive s w t).done = false ∧ (receive s w t).data = (receive s w f).data)

/-- From `a` to `t` a reception goes on quietly, and ends in `t`. -/
structure EndsIn (s : Fsm) (w : ℕ → Bool) (f a t : ℕ) : Prop where
  lt : a < t
  idle : (receive s w t).state = .idle
  busy : ∀ u, a ≤ u → u < t → (receive s w u).state ≠ .idle ∧ (receive s w u).done = false ∧
    (receive s w u).data = (receive s w f).data
  ends : Ends s w f t

/-- Whatever the waveform, the state machine comes back to `IDLE`. -/
theorem reception_ends (hs : s.prevLevel = true) (hr : Runs true w f ds e)
    (hw : Windows ds) (hlen : ds.length ≤ 18)
    (h : Receiving (receive s w f).data ds 0 (receive s w (e + 1))) :
    ∃ t, EndsIn s w f (e + 1) t := by
  -- induction on the number of runs that are left
  induction hleft : 18 - ds.length generalizing ds e with
  | zero =>
    have hfull : ds.length = 18 := by omega
    obtain ⟨hidle, hdone, hdata⟩ := h.finish (b := w (e + 1)) hfull
    refine ⟨e + 2, by omega, hidle, fun u hu hu' => ?_,
      .inl ⟨ds, e, hr, packet_iff_windows.mpr ⟨hfull, hw⟩, rfl, hdone, hdata⟩⟩
    obtain rfl : u = e + 1 := by omega
    exact ⟨h.ne_idle, h.done, h.data⟩
  | succ left ih =>
    have hlt : ds.length < 18 := by omega
    -- one more clock edge that gives the packet up
    have give_up : ∀ k ≤ timeout, (∀ u, e < u → u < e + 1 + k → ¬ Edge true w u) →
        ((receive s w (e + 1 + k)).advance (w (e + 1 + k))).state = .idle →
        ∃ t, EndsIn s w f (e + 1) t := by
      intro k hk hq hidle
      have hhold := receiving_hold hs hlt h hk hq
      refine ⟨e + 1 + k + 1, by omega, hidle, fun u hu hu' => ?_, .inr ?_⟩
      · obtain ⟨j, rfl⟩ : ∃ j, u = e + 1 + j := ⟨u - (e + 1), by omega⟩
        have := hhold j (by omega)
        exact ⟨this.ne_idle, this.done, this.data⟩
      · have hk' := hhold k le_rfl
        obtain ⟨hdone, hdata⟩ := advance_outputs (b := w (e + 1 + k)) (hk'.ne_validate hlt)
        exact ⟨hdone, hdata.trans hk'.data⟩
    -- the open run ends with an edge, or the count reaches the timeout
    by_cases hedge : ∃ u, e < u ∧ u ≤ e + timeout ∧ Edge true w u
    · classical
      obtain ⟨hfirst, hlate, hnew⟩ := Nat.find_spec hedge
      have hmin : ∀ u, e < u → u < Nat.find hedge → ¬ Edge true w u := fun u hu hu' hue =>
        Nat.find_min hedge hu' ⟨hu, by omega, hue⟩
      generalize Nat.find hedge = e' at hfirst hlate hnew hmin
      have hn : NextEdge true w e e' := ⟨hfirst, hnew, hmin⟩
      by_cases hwin : Window ds.length (e' - e)
      · have hnext := receiving_run hs hlt h hn hwin
        obtain ⟨t, ht, hidle, hbusy, hends⟩ := ih (hr.run hn) (hw.append hwin) (by simp; omega)
          hnext (by simp; omega)
        -- behind a run within its window the reception goes on with one run less to come
        refine ⟨t, by omega, hidle, fun u hu hu' => ?_, hends⟩
        rcases Nat.lt_or_ge u (e' + 1) with hbefore | hafter
        · obtain ⟨j, rfl⟩ : ∃ j, u = e + 1 + j := ⟨u - (e + 1), by omega⟩
          have := receiving_hold hs hlt h (K := j) (by omega)
            (fun x hx hx' => hmin x hx (by omega)) j le_rfl
          exact ⟨this.ne_idle, this.done, this.data⟩
        · exact hbusy u hafter hu'
      · obtain ⟨k, rfl⟩ : ∃ k, e' = e + 1 + k := ⟨e' - (e + 1), by omega⟩
        have hhold := receiving_hold hs hlt h (K := k) (by omega)
          (fun x hx hx' => hmin x hx (by omega)) k le_rfl
        refine give_up k (by omega) (fun x hx hx' => hmin x hx (by omega)) ?_
        rw [show e + 1 + k - e = k + 1 by omega] at hwin
        exact hhold.reject hlt (by omega) ((edge_iff hs _).mp hnew) hwin
    · push Not at hedge
      have hq : ∀ u, e < u → u < e + 1 + timeout → ¬ Edge true w u :=
        fun u hu hu' => hedge u hu (by omega)
      have hlast := receiving_hold hs hlt h le_rfl hq timeout le_rfl
      exact give_up timeout le_rfl hq (advance_timeout hlast.ne_idle hlast.tickCount.ge)

/-- Every reception comes to an end. -/
theorem Departs.ends (hs : s.prevLevel = true) (hf : Departs s w f) :
    ∃ t, EndsIn s w f (f + 1) t :=
  reception_ends hs (.start (hf.edge hs)) (fun n hn => absurd hn (Nat.not_lt_zero n)) (by simp)
    (hf.receiving hs)

/-- Outside `IDLE` a reception is going on. -/
private theorem exists_departs (hidle : s.state = .idle) {n : ℕ}
    (hn : (receive s w n).state ≠ .idle) :
    ∃ f < n, Departs s w f ∧ ∀ u, f < u → u ≤ n → (receive s w u).state ≠ .idle := by
  induction n with
  | zero => exact absurd hidle hn
  | succ n ih =>
    -- the state has just left `IDLE`, or it was busy a cycle before
    by_cases hprev : (receive s w n).state = .idle
    · refine ⟨n, by omega, ⟨hprev, hn⟩, fun u hu hu' => ?_⟩
      obtain rfl : u = n + 1 := by omega
      exact hn
    · obtain ⟨f, hfn, hf, hbusy⟩ := ih hprev
      refine ⟨f, by omega, hf, fun u hu hu' => ?_⟩
      rcases Nat.lt_or_ge u (n + 1) with h | h
      · exact hbusy u hu (by omega)
      · obtain rfl : u = n + 1 := by omega
        exact hn

end Receptions

/-! ## The receiver accepts exactly its grammar -/

/-- `f` is where the state machine last left `IDLE` before cycle `t`. -/
structure LastDeparture (s : Fsm) (w : ℕ → Bool) (f t : ℕ) : Prop where
  departs : Departs s w f
  lt : f < t
  last : ∀ u, f < u → u < t → ¬ Departs s w u

section Main

variable {s : Fsm} {w : ℕ → Bool} {t : ℕ}

/-- Every byte comes from the reception that started last. -/
private theorem packet_of_done (hs : s.prevLevel = true) (hidle : s.state = .idle)
    (hdone0 : s.done = false) (hdone : (receive s w t).done = true) :
    ∃ f ds e, LastDeparture s w f t ∧ Runs true w f ds e ∧ Packet ds ∧ t = e + 2 ∧
      Encodes ds (receive s w t).data := by
  rcases t with _ | n
  · rw [show receive s w 0 = s from rfl, hdone0] at hdone
    cases hdone
  -- only `VALIDATE` raises `done`
  have hv : (receive s w n).state = .validate := by
    by_contra hne
    rw [receive_succ, (advance_outputs hne).1] at hdone
    cases hdone
  obtain ⟨f, hfn, hf, hbusy⟩ := exists_departs hidle (show (receive s w n).state ≠ .idle by
    rw [hv]; simp)
  obtain ⟨t, hft, hti, htq, htends⟩ := hf.ends hs
  -- the reception that is going on ends neither before this cycle nor after it
  have htn : n < t := by
    by_contra hle
    exact hbusy t (by omega) (by omega) hti
  have htn' : t ≤ n + 1 := by
    by_contra hlt
    have := (htq (n + 1) (by omega) (by omega)).2.1
    rw [hdone] at this
    cases this
  obtain rfl : t = n + 1 := by omega
  rcases htends with ⟨ds, e, hr, hp, ht, -, hdata⟩ | ⟨hno, -⟩
  · exact ⟨f, ds, e, ⟨hf, by omega, fun u hu hu' h => hbusy u hu (by omega) h.idle⟩, hr, hp, ht,
      hdata⟩
  · rw [hdone] at hno
    cases hno

/-- From the start of a packet up to its byte `IDLE` is not left again. -/
private theorem Departs.last (hs : s.prevLevel = true) {f e : ℕ} {ds : List ℕ}
    (hf : Departs s w f) (hr : Runs true w f ds e) (hp : Packet ds) :
    LastDeparture s w f (e + 2) := by
  obtain ⟨hlen, hw⟩ := packet_iff_windows.mp hp
  have hle := hr.le
  refine ⟨hf, by omega, fun u hu hu' h => ?_⟩
  exact (busy_runs hs hf hr hlen.le hw hu (by omega)).1 h.idle

/-- The outputs move only in a cycle behind `VALIDATE`. -/
private theorem data_step (n : ℕ) (h : (receive s w (n + 1)).data ≠ (receive s w n).data) :
    (receive s w (n + 1)).done = true := by
  by_cases hv : (receive s w n).state = .validate
  · rw [receive_succ]
    simp only [Fsm.advance, Fsm.validate, Fsm.timeOut]
    rw [if_pos hv]
    split_ifs <;> rfl
  · rw [receive_succ, (advance_outputs hv).2] at h
    exact absurd rfl h

/-- As long as nothing is put out, the byte stays. -/
theorem data_quiet {m n : ℕ} (h : m ≤ n)
    (hq : ∀ k, m < k → k ≤ n → (receive s w k).done = false) :
    (receive s w n).data = (receive s w m).data := by
  induction n, h using Nat.le_induction with
  | base => rfl
  | succ n hmn ih =>
    rw [← ih fun k hk hkn => hq k hk (by omega)]
    by_contra hne
    have hdone := data_step n hne
    rw [hq (n + 1) (by omega) le_rfl] at hdone
    cases hdone

end Main

/-- **Timing grammar.**  For every waveform `w` behind the synchroniser after a
    reset: `done` is raised exactly two cycles behind the runs of a packet that
    started with the last departure from `IDLE`, the byte is the one its data
    spaces encode, `done` lasts one cycle and `data` changes only with `done`.
    `IDLE` is left at its falling edges, at every one and at nothing else.  A
    packet that begins there is received, without another departure within it,
    and each reception comes back to `IDLE`, with a byte or without any trace. -/
theorem accepts_iff_packet (w : ℕ → Bool) :
    (∀ t, (receive Fsm.resetRegs w t).done = true ↔ ∃ f ds e,
      LastDeparture Fsm.resetRegs w f t ∧ Runs true w f ds e ∧ Packet ds ∧ t = e + 2) ∧
    (∀ t f ds e, LastDeparture Fsm.resetRegs w f t → Runs true w f ds e → Packet ds → t = e + 2 →
      Encodes ds (receive Fsm.resetRegs w t).data) ∧
    (∀ t, (receive Fsm.resetRegs w t).done = true →
      (receive Fsm.resetRegs w (t + 1)).done = false) ∧
    (∀ t, (receive Fsm.resetRegs w (t + 1)).data ≠ (receive Fsm.resetRegs w t).data →
      (receive Fsm.resetRegs w (t + 1)).done = true) ∧
    (∀ f, Departs Fsm.resetRegs w f ↔ (receive Fsm.resetRegs w f).state = .idle ∧
      w f = false ∧ before true w f = true) ∧
    (∀ f ds e, Departs Fsm.resetRegs w f → Runs true w f ds e → Packet ds →
      LastDeparture Fsm.resetRegs w f (e + 2) ∧
      (receive Fsm.resetRegs w (e + 2)).done = true) ∧
    (∀ f, Departs Fsm.resetRegs w f → ∃ t, EndsIn Fsm.resetRegs w f (f + 1) t) := by
  have hs : Fsm.resetRegs.prevLevel = true := rfl
  refine ⟨fun t => ⟨fun h => ?_, ?_⟩, ?_, fun t h => ?_, data_step, fun f => ⟨fun hf => ?_, ?_⟩,
    fun f ds e hf hr hp => ⟨hf.last hs hr hp, ?_⟩, fun f hf => hf.ends hs⟩
  · obtain ⟨f, ds, e, hl, hr, hp, ht, -⟩ := packet_of_done hs rfl rfl h
    exact ⟨f, ds, e, hl, hr, hp, ht⟩
  · rintro ⟨f, ds, e, hl, hr, hp, rfl⟩
    exact (receive_packet hs hl.departs hr hp).2.1
  · rintro t f ds e hl hr hp rfl
    exact (receive_packet hs hl.departs hr hp).2.2
  · obtain ⟨f, ds, e, hl, hr, hp, rfl, -⟩ := packet_of_done hs rfl rfl h
    have hidle := (receive_packet hs hl.departs hr hp).1
    exact (advance_outputs (s := receive Fsm.resetRegs w (e + 2)) (by rw [hidle]; simp)).1
  · exact ⟨hf.idle, hf.falling hs⟩
  -- in `IDLE` the receiver does not miss a falling edge
  · rintro ⟨hidle, hlow, hhigh⟩
    exact departs_of_falling hs hidle hlow hhigh
  · exact (receive_packet hs hf hr hp).2.1

end Scope.Native.IrRx
