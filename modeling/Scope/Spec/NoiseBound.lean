import Scope.Spec.IrRxRecovery
import Scope.Spec.TrackingCommand
import Scope.Spec.TrackingPulses

/-!
# Noise

What an arbitrary input can make of the receiver and of the motors behind it.  Every
state of the receiver stands for a number of cycles that a reception must have lasted
to get there, and one clock edge adds one at most.

## Key results

- `spent_advance` / `spent_receive`: the time that a reception has taken
- `done_spacing`: two bytes are 155,000 cycles apart
- `noise_bound`: so are the steps of the gimbal, and their enables do not merge
-/

namespace Scope.Native

open Sync IrRx IrLink EnableWindow

namespace IrRx

/-! ## The receiver -/

/-- The cycles that the reception in progress has taken at least. -/
def spent (s : Fsm) : ℕ :=
  match s.state with
  | .idle | .unused _ => 0
  | .headerBurst => s.tickCount.toNat
  | .headerSpace => 80_001 + s.tickCount.toNat
  | .dataBurst => 115_002 + 5_002 * s.bitCount.toNat + s.tickCount.toNat
  | .dataSpace => 120_003 + 5_002 * s.bitCount.toNat + s.tickCount.toNat
  | .validate => 155_018

section Spent

variable {s : Fsm} {b : Bool} {w : ℕ → Bool} {m n : ℕ}

private theorem spent_idle (h : s.state = .idle) : spent s = 0 := by
  rw [spent, h]

/-- Counting a cycle. -/
private theorem spent_quiet (hb : b = s.prevLevel) (hs : s.state ≠ .validate)
    (ht : s.tickCount.toNat < timeout) : spent (s.advance b) ≤ spent s + 1 := by
  have hup := tickCount_succ ht
  rw [advance_quiet hb hs ht]
  unfold spent
  cases hstate : s.state <;> simp only [hup] <;> omega

/-- An edge closes a run that is as long as its window asks for, or ends the reception. -/
private theorem spent_edge (hb : b ≠ s.prevLevel) (hs : s.state ≠ .validate)
    (ht : s.tickCount.toNat < timeout) : spent (s.advance b) ≤ spent s + 1 := by
  have h0 : (0 : BitVec 20).toNat = 0 := rfl
  have hzero : (0 : BitVec 4).toNat = 0 := rfl
  rw [advance_edge hb hs ht]
  -- in each state either the window bounds the run from below or nothing is spent
  cases hstate : s.state with
  | idle =>
    simp only [Fsm.edge, hstate]
    split_ifs <;> simp [spent]
  | headerBurst =>
    simp only [Fsm.edge, hstate]
    split_ifs with hw
    · have := hw.1
      simp only [spent, hstate, h0, burstMin] at this ⊢
      omega
    · simp [spent, Fsm.reject]
  | headerSpace =>
    simp only [Fsm.edge, hstate]
    split_ifs with hw
    · have := hw.1
      simp only [spent, hstate, h0, hzero, spaceMin] at this ⊢
      omega
    · simp [spent, Fsm.reject]
  | dataBurst =>
    simp only [Fsm.edge, hstate]
    split_ifs with hw
    · have := hw.1
      simp only [spent, hstate, h0, dataBurstMin] at this ⊢
      omega
    · simp [spent, Fsm.reject]
  | dataSpace =>
    simp only [Fsm.edge, hstate]
    -- the eighth bit leaves for `VALIDATE`
    split_ifs with h7
    · have hseven : s.bitCount.toNat = 7 := by rw [h7]; rfl
      simp only [spent, hstate]
      omega
    -- the seven before come back to `DATA_BURST` with one bit more
    · have hbit : (s.bitCount + 1).toNat ≤ s.bitCount.toNat + 1 := by
        rw [BitVec.toNat_add]
        exact Nat.mod_le _ _
      simp only [spent, hstate, h0]
      omega
  | validate => exact absurd hstate hs
  | unused low => simp [Fsm.edge, hstate, spent]

/-- `VALIDATE` lasts one cycle. -/
private theorem advance_of_validate (h : s.state = .validate) : (s.advance b).state = .idle := by
  rcases Nat.lt_or_ge s.tickCount.toNat timeout with hlt | hge
  · exact (advance_validate h hlt).1
  · exact advance_timeout (by rw [h]; simp) hge

/-- One clock edge takes one cycle. -/
theorem spent_advance (s : Fsm) (b : Bool) : spent (s.advance b) ≤ spent s + 1 := by
  by_cases hi : s.state = .idle
  · have hv : s.state ≠ .validate := by rw [hi]; simp
    rcases (advance_idle (b := b) hi) with ⟨hstate, htick⟩
    split_ifs at hstate with hfall
    · rw [spent, hstate, spent, hi, htick hfall.1 hfall.2]
      exact Nat.zero_le _
    · rw [spent_idle hstate]
      exact Nat.zero_le _
  · rcases Nat.lt_or_ge s.tickCount.toNat timeout with hlt | hge
    · by_cases hv : s.state = .validate
      · rw [spent_idle (advance_of_validate hv)]
        exact Nat.zero_le _
      · by_cases hb : b = s.prevLevel
        · exact spent_quiet hb hv hlt
        · exact spent_edge hb hv hlt
    · rw [spent_idle (advance_timeout hi hge)]
      exact Nat.zero_le _

/-- Many clock edges take as many cycles. -/
theorem spent_receive (h : m ≤ n) :
    spent (receive s w n) ≤ spent (receive s w m) + (n - m) := by
  induction n, h using Nat.le_induction with
  | base => omega
  | succ n hmn ih =>
    have := spent_advance (receive s w n) (w n)
    rw [receive_succ]
    omega

/-- Behind `done` the receiver is in `IDLE`, in front of it in `VALIDATE`. -/
private theorem validate_of_done (h : (receive s w (n + 1)).done = true) :
    (receive s w n).state = .validate := by
  by_contra hne
  rw [receive_succ, (advance_outputs hne).1] at h
  cases h

/-- Two bytes are the duration of a shortest packet apart. -/
theorem done_spacing (h0 : s.done = false) (hmn : m < n)
    (hm : (receive s w m).done = true) (hn : (receive s w n).done = true) :
    m + 155_000 ≤ n := by
  obtain ⟨k, rfl⟩ : ∃ k, n = k + 1 := ⟨n - 1, by omega⟩
  rcases m with _ | m
  · rw [show receive s w 0 = s from rfl, h0] at hm
    cases hm
  have hidle : (receive s w (m + 1)).state = .idle := advance_of_validate (validate_of_done hm)
  have hlast : spent (receive s w k) = 155_018 := by
    rw [spent, validate_of_done hn]
  have hspent := spent_receive (s := s) (w := w) (show m + 1 ≤ k by omega)
  rw [hlast, spent_idle hidle] at hspent
  omega

end Spent

end IrRx

/-! ## The transmitter board -/

section Board

variable {y : LaserTop} {home l : ℕ → Bool} {A B t n : ℕ} {a : Axis}

/-- The controller on the board runs on its ports. -/
theorem controller_run (y : LaserTop) (home l : ℕ → Bool) (n : ℕ) :
    controller y home l n =
      run SearchController.step y.gimbal.controller0 (ports y home l) n := by
  have hstep : ∀ (j : LaserTop.Input) (r : LaserTop), (r.step j).gimbal.controller0 =
      r.gimbal.controller0.step (r.gimbal.controllerInput (r.gimbalInput j)) := fun _ _ => rfl
  exact run_component (fun r => r.gimbal.controller0) hstep y _ n

/-- The bytes on the board. -/
theorem rxDone_spacing (h0 : y.r0.fsm.done = false) {m : ℕ} (hmn : m < n)
    (hm : (laser y home l m).rxDone = true) (hn : (laser y home l n).rxDone = true) :
    m + 155_000 ≤ n := by
  rw [LaserTop.rxDone, laser_fsm] at hm hn
  exact done_spacing h0 hmn hm hn

/-- The command bits are those of the last byte. -/
private theorem commanded_of_irData
    (h : (laser y home l n).irData = (laser y home l t).irData) (a : Axis) :
    a.commanded (ports y home l n) = a.commanded (ports y home l t) := by
  cases a
  · exact congrArg (fun d => d.getLsbD 0) h
  · exact congrArg (fun d => d.getLsbD 2) h

/-- From cycle `A` to cycle `B` the controller stays in `TRACKING` with `on_target` high. -/
def StaysTracking (y : LaserTop) (home l : ℕ → Bool) (A B : ℕ) : Prop :=
  ∀ n, A ≤ n → n ≤ B →
    (controller y home l n).state = .tracking ∧ (laser y home l n).onTarget = true

/-- In between the controller tracks with its target in sight. -/
theorem StaysTracking.tracks (h : StaysTracking y home l A B) (hA : A ≤ n) (hB : n < B) :
    SearchController.Tracks (ports y home l n)
      (run SearchController.step y.gimbal.controller0 (ports y home l) n) := by
  rw [← controller_run]
  refine ⟨(h n hA hB.le).1, ports_live ?_, (h n hA hB.le).2⟩
  -- the button would have left `TRACKING`
  by_contra hhome
  have hpress : (ports y home l n).returnHome = true := by
    simpa [ports, LaserTop.gimbalInput, Gimbal.controllerInput] using hhome
  have hstay := (h (n + 1) (by omega) hB).1
  rw [controller_succ, (SearchController.Branch.home rfl hpress).eq] at hstay
  cases hstay

/-- The enables that show a byte: for `PULSE_WIDTH` cycles those that it commands. -/
theorem StaysTracking.en_shows (h : StaysTracking y home l A B) (h0 : y.r0.fsm.done = false)
    (hA : A ≤ t) (hrx : (laser y home l t).rxDone = true)
    (hidle : (controller y home l t).pulseTimer.toNat = 0)
    (hs : Shows (fun n => (laser y home l n).rxDone) t n) (hB : n ≤ B) (a : Axis) :
    a.en (controller y home l n) =
      (decide (t + 2 ≤ n ∧ n < t + 2 + SearchController.pulseWidth.toNat) &&
        a.commanded (ports y home l t)) := by
  rw [controller_run] at hidle ⊢
  have hen := SearchController.command_en (i := ports y home l) (t := t) (n := n) hidle hrx
    (fun k hk hkn => h.tracks (by omega) (by omega)) hs a
  apply hen.trans
  by_cases hin : t + 2 ≤ n ∧ n < t + 2 + SearchController.pulseWidth.toNat
  · have hpulse := SearchController.pulseWidth_toNat
    rw [commanded_of_irData (irData_quiet (t := t) (by omega) fun k hk hkn => ?_)]
    -- the next byte comes later
    by_contra hdone
    have := rxDone_spacing h0 hk hrx (by simpa using hdone)
    omega
  · rw [decide_eq_false hin, Bool.false_and, Bool.false_and]

/-- A coordinate moves with a byte that commands its axis and is not blocked. -/
private theorem StaysTracking.moved_iff (h : StaysTracking y home l A B) (hA : A ≤ t) (hB : t < B) :
    a.pos (controller y home l (t + 1)) ≠ a.pos (controller y home l t) ↔
      (laser y home l t).rxDone = true ∧ a.commanded (ports y home l t) = true ∧
        ¬ SearchController.Blocked a (ports y home l t) (controller y home l t) := by
  have htr := h.tracks hA hB
  have he := (SearchController.track_edge htr.state htr.live htr.onTarget).pos a
  rw [controller_run, controller_run]
  exact he

/-- Up to the next byte. -/
private theorem shows_next (h0 : y.r0.fsm.done = false) (hrx : (laser y home l t).rxDone = true)
    (htn : t < n) (hn : n ≤ t + 155_000) : Shows (fun n => (laser y home l n).rxDone) t n := by
  refine ⟨htn, fun u hu hun => ?_⟩
  by_contra hdone
  have := rxDone_spacing h0 hu hrx (by simpa using hdone)
  omega

end Board

/-- **Noise cannot overdrive the motors.**  Whatever comes in at `ir_input`, from every
    state without `done` and without reset: two done pulses of `ir_rx` are at least 155,000
    cycles apart, and `data` changes only with them.  While the controller stays in
    `TRACKING` with `on_target` high, a byte that finds the timer at zero enables each axis
    that it moves for exactly `PULSE_WIDTH` cycles, which are over when the next byte can
    show, with both enables low in between; and a coordinate moves at most once in 155,000
    cycles. -/
theorem noise_bound (y : LaserTop) (home l : ℕ → Bool) (h0 : y.r0.fsm.done = false) :
    (∀ m n, m < n → (receiver y.r0 l m).fsm.done = true → (receiver y.r0 l n).fsm.done = true →
      m + 155_000 ≤ n) ∧
    (∀ m n, m ≤ n → (∀ k, m < k → k ≤ n → (receiver y.r0 l k).fsm.done = false) →
      (receiver y.r0 l n).fsm.data = (receiver y.r0 l m).fsm.data) ∧
    ∀ A B, StaysTracking y home l A B →
      (∀ t, A ≤ t → t < B → (laser y home l t).rxDone = true →
        (controller y home l t).pulseTimer.toNat = 0 → ∀ a : Axis,
        (a.pos (controller y home l (t + 1)) ≠ a.pos (controller y home l t) →
          (∀ n ≤ B, Shows (fun n => (laser y home l n).rxDone) t n →
            (a.en (controller y home l n) = true ↔
              t + 2 ≤ n ∧ n < t + 2 + SearchController.pulseWidth.toNat)) ∧
          (t + 2 + SearchController.pulseWidth.toNat ≤ B →
            Window (fun n => a.en (controller y home l n))
              SearchController.pulseWidth.toNat (t + 2))) ∧
        ∀ t', t < t' → t' < B → (laser y home l t').rxDone = true →
          (∀ u, t < u → u < t' → (laser y home l u).rxDone = false) →
          t + 2 + SearchController.pulseWidth.toNat < t' + 2 ∧
          ∀ n, t + 2 + SearchController.pulseWidth.toNat ≤ n → n ≤ t' + 1 →
            a.en (controller y home l n) = false) ∧
      ∀ (a : Axis) (m n : ℕ), A ≤ m → m < n → n < B →
        a.pos (controller y home l (m + 1)) ≠ a.pos (controller y home l m) →
        a.pos (controller y home l (n + 1)) ≠ a.pos (controller y home l n) →
        m + 155_000 ≤ n := by
  have hboard : ∀ n, (receiver y.r0 l n).fsm = (laser y home l n).r0.fsm := fun n => by
    rw [board_receiver]
  have hpulse := SearchController.pulseWidth_toNat
  refine ⟨fun m n hmn hm hn => ?_, fun m n hmn hq => ?_, fun A B hst =>
    ⟨fun t hA hB hrx hidle a => ⟨fun hmove => ?_, ?_⟩, fun a m n hA hmn hB hm hn => ?_⟩⟩
  · rw [hboard] at hm hn
    exact rxDone_spacing h0 hmn hm hn
  · rw [hboard, hboard]
    exact irData_quiet hmn fun k hk hkn => by
      rw [← hq k hk hkn, hboard]
      rfl
  -- the axis moved, so the command asks for it
  · have hc := ((hst.moved_iff hA hB).mp hmove).2.1
    have hen : ∀ n ≤ B, Shows (fun n => (laser y home l n).rxDone) t n →
        (a.en (controller y home l n) = true ↔
          t + 2 ≤ n ∧ n < t + 2 + SearchController.pulseWidth.toNat) := by
      intro n hnB hs
      rw [hst.en_shows h0 hA hrx hidle hs hnB a, hc, Bool.and_true, decide_eq_true_iff]
    -- the whole window shows before the next byte can
    have hshows : ∀ n, t < n → n ≤ t + 2 + SearchController.pulseWidth.toNat →
        Shows (fun n => (laser y home l n).rxDone) t n := fun n htn hn =>
      shows_next h0 hrx htn (by omega)
    refine ⟨hen, fun hlong => ⟨fun b hb => ?_, fun k hk => ?_, ?_⟩⟩
    · have hlow := hen b (by omega) (hshows b (by omega) (by omega))
      exact Bool.eq_false_iff.mpr (mt hlow.mp (by omega))
    · exact (hen (t + 2 + k) (by omega) (hshows _ (by omega) (by omega))).mpr (by omega)
    · have hlow := hen _ hlong (hshows _ (by omega) le_rfl)
      exact Bool.eq_false_iff.mpr (mt hlow.mp (by omega))
  · intro t' htt' hB' hrx' hnone
    -- the next byte comes after the pulse is over
    have hgap := rxDone_spacing h0 htt' hrx hrx'
    refine ⟨by omega, fun n hn hnt => ?_⟩
    rw [hst.en_shows h0 hA hrx hidle ⟨by omega, fun u hu hun => hnone u hu (by omega)⟩
      (by omega) a, decide_eq_false (by omega), Bool.false_and]
  -- a position moves with a byte only
  · exact rxDone_spacing h0 hmn ((hst.moved_iff hA (by omega)).mp hm).1
      ((hst.moved_iff (by omega) hB).mp hn).1

/-! ## One byte -/

/-- A board in `TRACKING` whose receiver is about to report a yaw command. -/
def reportingLaser : LaserTop :=
  { trackingLaser with
    r0 :=
      { irSync0 := true
        irSync := true
        fsm :=
          { state := .validate, tickCount := 0, prevLevel := true, bitCount := 7,
            shiftReg := 0x11, recv := true, done := false, data := 0x10 } } }

/-- Behind the report nothing comes in. -/
structure Silent (y : LaserTop) : Prop where
  sync0 : y.r0.irSync0 = true
  sync : y.r0.irSync = true
  state : y.r0.fsm.state = .idle
  data : y.r0.fsm.data = 0x11
  prevLevel : y.r0.fsm.prevLevel = true
  tracking : y.gimbal.controller0.state = .tracking

/-- A line that stays high brings no further byte. -/
private theorem reportingLaser_silent {n : ℕ} (hn : 1 ≤ n) :
    Silent (laser reportingLaser (fun _ => false) (fun _ => true) n) := by
  induction n, hn using Nat.le_induction with
  | base => constructor <;> decide
  | succ n _ ih =>
    set y := laser reportingLaser (fun _ => false) (fun _ => true) n with hy
    have hv : y.r0.fsm.state ≠ .validate := by rw [ih.state]; simp
    have hfsm : (laser reportingLaser (fun _ => false) (fun _ => true) (n + 1)).r0.fsm =
        y.r0.fsm.advance y.r0.irSync := rfl
    have htrack : SearchController.TrackEdge
        (ports reportingLaser (fun _ => false) (fun _ => true) n) y.gimbal.controller0
        (controller reportingLaser (fun _ => false) (fun _ => true) (n + 1)) := by
      apply SearchController.track_edge ih.tracking (ports_live rfl)
      show y.r0.fsm.data.getLsbD 4 = true
      rw [ih.data]
      rfl
    refine ⟨rfl, ih.sync0, ?_, ?_, ?_, htrack.state⟩ <;> rw [hfsm, ih.sync]
    · rw [(advance_idle ih.state).1, if_neg (by simp)]
    · rw [(advance_outputs hv).2, ih.data]
    · exact advance_prevLevel

/-- The command has one window of exactly `PULSE_WIDTH` cycles. -/
theorem reportingLaser_window :
    Window (fun n => Axis.yaw.en (controller reportingLaser (fun _ => false) (fun _ => true) n))
      SearchController.pulseWidth.toNat 3 := by
  have hstays : StaysTracking reportingLaser (fun _ => false) (fun _ => true) 1 60_000 := by
    intro n hn _
    have hs := reportingLaser_silent hn
    refine ⟨hs.tracking, ?_⟩
    rw [LaserTop.onTarget, LaserTop.irData, hs.data]
    rfl
  have hbound := (noise_bound reportingLaser (fun _ => false) (fun _ => true) rfl).2.2 1 60_000
    hstays
  have hbyte := hbound.1 1 le_rfl (by omega) (by decide) (by decide) .yaw
  apply (hbyte.1 (by decide)).2
  rw [SearchController.pulseWidth_toNat]
  omega

end Scope.Native
