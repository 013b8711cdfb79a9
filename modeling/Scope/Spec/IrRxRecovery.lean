import Scope.Spec.IrRxGrammar

/-!
# Recovery of the infrared receiver

Whatever is in the registers, a line that stays high for longer than the timeout
takes the receiver back to `IDLE`: a state other than `IDLE` counts up to the timeout,
or is left before.  From there on it decodes like one that has been reset.

## Key results

- `idle_of_high`: `IDLE` is reached within the timeout
- `receive_add`: the receiver goes on from the state it has reached
- `self_stabilises`: the packet behind the silence is decoded
-/

namespace Scope.Native.IrRx

open Sync Wave

section Recovery

variable {s : Fsm} {w : ℕ → Bool} {ds : List ℕ} {n N : ℕ}

/-- The receiver goes on from the state it has reached. -/
theorem receive_add (s : Fsm) (w : ℕ → Bool) (m n : ℕ) :
    receive s w (m + n) = receive (receive s w m) (fun k => w (m + k)) n := run_add _ _ _ _ _

/-- One cycle of silence outside `IDLE` ends the reception or is counted. -/
private theorem advance_silent (hp : s.prevLevel = true) (hi : s.state ≠ .idle) :
    (s.advance true).state = .idle ∨
      (s.advance true).state ≠ .idle ∧
        (s.advance true).tickCount.toNat = s.tickCount.toNat + 1 := by
  rcases Nat.lt_or_ge s.tickCount.toNat timeout with hlt | hge
  · by_cases hv : s.state = .validate
    · exact .inl (advance_validate hv hlt).1
    · rw [advance_quiet hp.symm hv hlt]
      exact .inr ⟨hi, tickCount_succ hlt⟩
  · exact .inl (advance_timeout hi hge)

/-- From any registers a silent line leads to `IDLE` within the timeout. -/
theorem idle_of_high (hw : ∀ n < timeout + 2, w n = true) :
    ∃ T, 1 ≤ T ∧ T ≤ timeout + 2 ∧ (receive s w T).state = .idle := by
  by_contra hnone
  push Not at hnone
  -- otherwise every cycle behind the first one is counted
  have hcount : ∀ k ≤ timeout + 1, k ≤ (receive s w (1 + k)).tickCount.toNat := by
    intro k hk
    induction k with
    | zero => exact Nat.zero_le _
    | succ k ih =>
      have hp : (receive s w (1 + k)).prevLevel = true := by
        rw [Nat.add_comm, receive_succ, advance_prevLevel, hw k (by omega)]
      have hstep := advance_silent hp (hnone (1 + k) (by omega) (by omega))
      have hnext := hnone (1 + k + 1) (by omega) (by omega)
      rw [← hw (1 + k) (by omega), ← receive_succ] at hstep
      rcases hstep with hidle | ⟨-, hup⟩
      · exact absurd hidle hnext
      · have := ih (by omega)
        rw [← Nat.add_assoc, hup]
        omega
  have hfull := hcount timeout (by omega)
  have hend := advance_timeout (b := w (1 + timeout)) (hnone (1 + timeout) (by omega) (by omega))
    hfull
  rw [← receive_succ] at hend
  exact hnone (1 + timeout + 1) (by omega) (by omega) hend

/-- Behind the silence the receiver waits in `IDLE` for the falling edge, and it has seen
    the line high. -/
private theorem departs_of_silence (hN : timeout + 10 ≤ N) (hhigh : ∀ n < N, w n = true)
    (hlow : w N = false) :
    ∃ T f, T + f = N ∧ before true w T = true ∧ (receive s w T).prevLevel = true ∧
      Departs (receive s w T) (fun n => w (T + n)) f ∧ (receive s w N).done = false := by
  obtain ⟨T, hT1, hT, hidle⟩ := idle_of_high (s := s) fun n hn => hhigh n (by omega)
  obtain ⟨f, rfl⟩ : ∃ f, N = T + f := ⟨N - T, by omega⟩
  obtain ⟨t, rfl⟩ : ∃ t, T = t + 1 := ⟨T - 1, by omega⟩
  have hbefore : before true w (t + 1) = true := hhigh t (by omega)
  have hprev : (receive s w (t + 1)).prevLevel = true :=
    advance_prevLevel.trans (hhigh t (by omega))
  have hquiet : ∀ u < f, w (t + 1 + u) = true := fun u hu => hhigh _ (by omega)
  -- without a falling edge it stays in `IDLE`
  have hwait := idle_hold hprev (w := fun n => w (t + 1 + n)) (a := 0) (b := f) hidle
    (Nat.zero_le f) fun u _ hu h => absurd ((hquiet u hu).symm.trans h.1) nofun
  refine ⟨t + 1, f, rfl, hbefore, hprev, departs_of_falling hprev hwait.1 hlow ?_, ?_⟩
  · obtain ⟨g, rfl⟩ : ∃ g, f = g + 1 := ⟨f - 1, by omega⟩
    exact hquiet g (by omega)
  · rw [receive_add]
    exact hwait.2 f (by omega) le_rfl

/-- The data spaces determine the byte. -/
theorem Encodes.unique {v v' : BitVec 8} (h : Encodes ds v) (h' : Encodes ds v') : v = v' := by
  apply BitVec.eq_of_getLsbD_eq
  intro b hb
  have hbit := h (7 - b) (by omega)
  rw [← h' (7 - b) (by omega), show 7 - (7 - b) = b by omega] at hbit
  exact hbit

end Recovery

section Registers

variable {s : IrRx} {i : ℕ → Input} {n : ℕ}

/-- The level behind the synchroniser. -/
def syncLevel (s : IrRx) (i : ℕ → Input) (n : ℕ) : Bool := (run IrRx.step s i n).irSync

/-- Without reset the state machine sees the level behind the synchroniser. -/
theorem fsm_eq_receive (hr : ∀ k < n, (i k).reset = false) :
    (run IrRx.step s i n).fsm = receive s.fsm (syncLevel s i) n := by
  induction n with
  | zero => rfl
  | succ n ih =>
    rw [receive_succ, ← ih fun k hk => hr k (by omega), run_succ, IrRx.step, Fsm.step,
      hr n (by omega)]
    rfl

end Registers

/-- **Self-stabilisation.**  Whatever the registers of `ir_rx` hold: when `ir_sync` is high
    for at least `TIMEOUT + 10` cycles and then brings the runs of a packet, the last one
    closed in cycle `e`, then `VALIDATE` comes in cycle `e + 1`, from the first falling edge
    up to the cycle behind it `done` is raised in that one only, and `data` is the byte. -/
theorem self_stabilises (s : IrRx) (i : ℕ → Input) (N e : ℕ) (ds : List ℕ) (v : BitVec 8)
    (hr : ∀ n < e + 2, (i n).reset = false) (hN : timeout + 10 ≤ N)
    (hhigh : ∀ n < N, syncLevel s i n = true) (hruns : Runs true (syncLevel s i) N ds e)
    (hp : Packet ds) (hv : Encodes ds v) :
    (run IrRx.step s i (e + 1)).fsm.state = .validate ∧
    (∀ n, N ≤ n → n ≤ e + 2 → ((run IrRx.step s i n).fsm.done = true ↔ n = e + 2)) ∧
    (run IrRx.step s i (e + 2)).fsm.data = v := by
  have hle := hruns.le
  have hlow : syncLevel s i N = false := by
    obtain ⟨M, rfl⟩ : ∃ M, N = M + 1 := ⟨N - 1, by omega⟩
    rw [hruns.first_edge.level, before_succ, hhigh M (by omega)]
    rfl
  -- the silence brings the receiver to `IDLE`, whatever it held
  obtain ⟨T, f, rfl, hbefore, hprev, hdeparts, hquiet⟩ := departs_of_silence (s := s.fsm) hN
    hhigh hlow
  -- seen from `T` on the packet comes to a receiver at rest
  have hfsm : ∀ n, T ≤ n → n ≤ e + 2 → (run IrRx.step s i n).fsm =
      receive (receive s.fsm (syncLevel s i) T) (fun n => syncLevel s i (T + n)) (n - T) := by
    intro n hn hne
    rw [fsm_eq_receive fun k hk => hr k (by omega), ← receive_add, Nat.add_sub_cancel' hn]
  have hruns' := hruns.drop
  rw [hbefore] at hruns'
  obtain ⟨hlen, hwin⟩ := packet_iff_windows.mp hp
  obtain ⟨-, hdone, hdata⟩ := receive_packet hprev hdeparts hruns' hp
  have hlast := receive_runs hprev hdeparts hruns' hlen.le hwin
  refine ⟨?_, fun n hn hne => ⟨fun hd => ?_, ?_⟩, ?_⟩
  · rw [hfsm _ (by omega) (by omega), show e + 1 - T = e - T + 1 by omega, hlast.state, hlen]
    rfl
  -- up to the packet there is no `done`, and within it the receiver is busy
  · by_contra hlt
    rcases Nat.eq_or_lt_of_le hn with rfl | hgt
    · rw [fsm_eq_receive fun k hk => hr k (by omega), hquiet] at hd
      cases hd
    · have hbusy := busy_runs hprev hdeparts hruns' hlen.le hwin (u := n - T) (by omega)
        (by omega)
      rw [hfsm n (by omega) hne, hbusy.2] at hd
      cases hd
  · rintro rfl
    rw [hfsm _ (by omega) le_rfl, show e + 2 - T = e - T + 2 by omega]
    exact hdone
  · rw [hfsm _ (by omega) le_rfl, show e + 2 - T = e - T + 2 by omega]
    exact hdata.unique hv

/-! ## A packet behind garbage -/

/-- High for 500,010 cycles, then a header and runs of 10,001 cycles. -/
def zeroWave (n : ℕ) : Bool :=
  if n < 500_010 then true
  else if n < 590_011 then false
  else if n < 640_012 then true
  else decide ((n - 640_012) / 10_001 % 2 = 1)

/-- Behind the header the wave changes in step with the data. -/
private theorem zeroWave_late {n : ℕ} (hn : 640_012 ≤ n) :
    zeroWave n = decide ((n - 640_012) / 10_001 % 2 = 1) := by
  unfold zeroWave
  rw [if_neg (by omega), if_neg (by omega), if_neg (by omega)]

/-- A level that holds up to an edge. -/
private theorem nextEdge_of_step {w : ℕ → Bool} {e e' : ℕ} {b : Bool} (hlt : e < e')
    (hstay : ∀ n, e ≤ n → n < e' → w n = b) (hflip : w e' = !b) : NextEdge true w e e' := by
  obtain ⟨k, rfl⟩ : ∃ k, e' = k + 1 := ⟨e' - 1, by omega⟩
  refine ⟨hlt, ?_, fun u hu hu' => ?_⟩
  · rw [edge_succ_iff, hflip, hstay k (by omega) (by omega)]
    cases b <;> exact nofun
  · obtain ⟨v, rfl⟩ : ∃ v, u = v + 1 := ⟨u - 1, by omega⟩
    rw [edge_succ_iff, not_not, hstay _ (by omega) hu', hstay v (by omega) (by omega)]

/-- The runs of the wave, with `j` of the data runs. -/
private theorem zeroWave_runs (j : ℕ) : Runs true zeroWave 500_010
    ([90_001, 50_001] ++ List.replicate j 10_001) (640_012 + j * 10_001) := by
  induction j with
  | zero =>
    have hedge : Edge true zeroWave 500_010 := by decide
    have hburst : NextEdge true zeroWave 500_010 590_011 :=
      nextEdge_of_step (b := false) (by omega) (fun n hn hn' => by
        unfold zeroWave
        rw [if_neg (by omega), if_pos hn']) (by decide)
    have hspace : NextEdge true zeroWave 590_011 640_012 :=
      nextEdge_of_step (b := true) (by omega) (fun n hn hn' => by
        unfold zeroWave
        rw [if_neg (by omega), if_neg (by omega), if_pos hn']) (by decide)
    have hruns := ((Runs.start hedge).run hburst).run hspace
    simpa using hruns
  | succ j ih =>
    have hnext : NextEdge true zeroWave (640_012 + j * 10_001) (640_012 + (j + 1) * 10_001) := by
      refine nextEdge_of_step (b := decide (j % 2 = 1)) (by omega) (fun n hn hn' => ?_) ?_
      · rw [zeroWave_late (by omega)]
        exact decide_eq_decide.mpr (by omega)
      · rw [zeroWave_late (by omega), ← decide_not]
        exact decide_eq_decide.mpr (by omega)
    have hruns := ih.run hnext
    rw [show 640_012 + (j + 1) * 10_001 - (640_012 + j * 10_001) = 10_001 by omega,
      List.append_assoc, ← List.replicate_succ'] at hruns
    exact hruns

/-- Nothing in the registers fits together. -/
def corrupted : IrRx where
  irSync0 := true
  irSync := true
  fsm :=
    { state := .unused true, tickCount := 0xFFFFF, prevLevel := false, bitCount := 13,
      shiftReg := 0xA5, recv := true, done := true, data := 0x5A }

/-- The wave at the input, two cycles ahead. -/
def zeroInput (n : ℕ) : Input where
  irInput := zeroWave (n + 2)
  reset := false

/-- The synchroniser shows the wave. -/
private theorem syncLevel_corrupted (n : ℕ) :
    (run IrRx.step corrupted zeroInput n).irSync0 = zeroWave (n + 1) ∧
      syncLevel corrupted zeroInput n = zeroWave n := by
  induction n with
  | zero => exact ⟨rfl, rfl⟩
  | succ n ih => exact ⟨rfl, ih.1⟩

/-- The byte zero arrives. -/
theorem corrupted_recovers :
    (run IrRx.step corrupted zeroInput (640_012 + 16 * 10_001 + 2)).fsm.data = 0 := by
  have hlevel : syncLevel corrupted zeroInput = zeroWave := by
    funext n
    exact (syncLevel_corrupted n).2
  have hpacket : Packet ([90_001, 50_001] ++ List.replicate 16 10_001) := by
    refine ⟨rfl, by decide, by decide, by decide, by decide⟩
  exact (self_stabilises corrupted zeroInput 500_010 (640_012 + 16 * 10_001)
    ([90_001, 50_001] ++ List.replicate 16 10_001) 0 (fun _ _ => rfl) (by decide)
    (fun n hn => by rw [hlevel, zeroWave, if_pos hn]) (by rw [hlevel]; exact zeroWave_runs 16)
    hpacket (by unfold Encodes; decide)).2.2

end Scope.Native.IrRx
