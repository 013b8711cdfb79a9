import Scope.Native.LaserTop
import Scope.Spec.ControllerStep
import Scope.Spec.IrLink
import Scope.Spec.Quadrants

/-!
# From the photodiode to the gimbal

The two boards joined by the infrared link: what the transmitter does with the
packet that the receiver board has made of a set of quadrant samples.

## Key results

- `board_transmit` / `board_receiver`: the boards contain the link
- `packet_arrives`: the done pulse that belongs to an accepted start
- `tracking_command`: how the packet moves the gimbal
-/

namespace Scope.Native

open Sync IrTx IrRx IrLink QpdState

/-- The receiver board in front of clock edge `n`, without reset. -/
def board (x : RxState) (q : ℕ → Samples) (n : ℕ) : RxState :=
  run RxState.step x (fun n => { reset := false, q := q n }) n

/-- The start pulse and the byte it offers to `ir_tx`. -/
def boardStart (x : RxState) (q : ℕ → Samples) (n : ℕ) : Bool := (board x q n).tx.gen.txPulse

def boardData (x : RxState) (q : ℕ → Samples) (n : ℕ) : BitVec 8 := (board x q n).data

/-- The transmitter board in front of clock edge `n`, without reset; `home` is the
    return button and `l` the line from the demodulator. -/
def laser (y : LaserTop) (home : ℕ → Bool) (l : ℕ → Bool) (n : ℕ) : LaserTop :=
  run LaserTop.step y (fun n => { key0 := true, key1 := !home n, gpio1 := l n }) n

/-- `ir_tx` on the board runs on its start pulses and bytes. -/
theorem board_transmit (x : RxState) (q : ℕ → Samples) (n : ℕ) :
    (board x q n).tx.ir0 = transmit x.tx.ir0 (boardStart x q) (boardData x q) n := by
  have hstep : ∀ (j : RxState.Input) (r : RxState), (r.step j).tx.ir0 =
      r.tx.ir0.step { reset := j.reset, start := r.tx.gen.txPulse, data := r.data } :=
    fun _ _ => rfl
  exact run_component (fun r => r.tx.ir0) hstep x _ n

/-- `ir_rx` on the board runs on its line. -/
theorem board_receiver (y : LaserTop) (home l : ℕ → Bool) (n : ℕ) :
    (laser y home l n).r0 = receiver y.r0 l n := by
  have hstep : ∀ (j : LaserTop.Input) (r : LaserTop),
      (r.step j).r0 = r.r0.step { irInput := j.gpio1, reset := !j.key0 } := fun _ _ => rfl
  exact run_component LaserTop.r0 hstep y _ n

/-- The receiver on the board sees the line behind its synchroniser. -/
theorem laser_fsm (y : LaserTop) (home l : ℕ → Bool) (n : ℕ) :
    (laser y home l n).r0.fsm =
      receive y.r0.fsm (syncLevel y.r0 fun n => { irInput := l n, reset := false }) n := by
  rw [board_receiver, receiver, fsm_eq_receive fun _ _ => rfl]

/-- Between two packets the byte on the board stays. -/
theorem irData_quiet {y : LaserTop} {home l : ℕ → Bool} {t n : ℕ} (h : t ≤ n)
    (hq : ∀ k, t < k → k ≤ n → (laser y home l k).rxDone = false) :
    (laser y home l n).irData = (laser y home l t).irData := by
  have hfsm := laser_fsm y home l
  rw [LaserTop.irData, LaserTop.irData, hfsm, hfsm]
  refine data_quiet h fun k hk hkn => ?_
  have hk' := hq k hk hkn
  rwa [LaserTop.rxDone, hfsm] at hk'

/-! ## The packet of a start pulse -/

/-- Cycle `t` is the done pulse of the packet accepted in cycle `a`: as many bytes
    have been presented before `t` as were accepted before `a`. -/
def Arrives (x : RxState) (q : ℕ → Samples) (y : LaserTop) (home l : ℕ → Bool) (a t : ℕ) : Prop :=
  (laser y home l t).rxDone = true ∧
    (presented y.r0 l t).length = (sent x.tx.ir0 (boardStart x q) (boardData x q) a).length

/-- Receiver board and `ir_rx` at rest. -/
structure Quiet (x : RxState) (y : LaserTop) : Prop where
  tx : x.tx.ir0.state = .idle
  low : x.tx.ir0.message = false
  sync0 : y.r0.irSync0 = true
  sync : y.r0.irSync = true
  rx : y.r0.fsm.state = .idle
  prevLevel : y.r0.fsm.prevLevel = true
  done : y.r0.fsm.done = false

section Link

variable {x : RxState} {q : ℕ → Samples} {y : LaserTop} {home : ℕ → Bool} {d : ℕ → ℕ} {D a t : ℕ}

/-- The line between the boards. -/
def boardLine (x : RxState) (q : ℕ → Samples) (d : ℕ → ℕ) : ℕ → Bool :=
  line d (envelope x.tx.ir0 (boardStart x q) (boardData x q))

variable (home) in
/-- Every packet arrives once, with its byte. -/
theorem packet_arrives (h : Quiet x y) (hd : Jitter d D)
    (ha : accepts x.tx.ir0 (boardStart x q) (boardData x q) a = true) :
    ∃ t, Arrives x q y home (boardLine x q d) a t ∧
      (laser y home (boardLine x q d) t).irData = boardData x q a ∧
      ∀ t', Arrives x q y home (boardLine x q d) a t' → t' = t := by
  have hframed := framed (boardStart x q) (boardData x q) h.tx h.low hd
  obtain ⟨hidle, -⟩ := hframed.ready h.prevLevel h.rx h.done ha
  obtain ⟨-, hdone, hdata, -⟩ := hframed.arrived h.prevLevel ha hidle
  obtain ⟨hlog, -⟩ := hframed.delivered h.prevLevel h.rx h.done ha
  -- on the board the receiver runs as it does alone
  have hfsm : ∀ n, (laser y home (boardLine x q d) n).r0.fsm =
      receive y.r0.fsm (heard d (envelope x.tx.ir0 (boardStart x q) (boardData x q))) n := by
    intro n
    rw [board_receiver, receiver_eq h.sync0 h.sync]
    rfl
  have hpres : ∀ T, presented y.r0 (boardLine x q d) T =
      received y.r0.fsm (heard d (envelope x.tx.ir0 (boardStart x q) (boardData x q))) T :=
    presented_eq h.sync0 h.sync d _
  have hdone' :
      (laser y home (boardLine x q d) (seen (boardData x q) d a 18 + 2)).rxDone = true := by
    rw [LaserTop.rxDone, hfsm]
    exact hdone
  refine ⟨seen (boardData x q) d a 18 + 2, ⟨hdone', ?_⟩, ?_, ?_⟩
  · rw [hpres, hlog, sent]
  · rw [LaserTop.irData, hfsm, hdata]
  -- a second arrival would be a second report with the same number of bytes before it
  · rintro t ⟨hd', hlen⟩
    rw [LaserTop.rxDone, hfsm] at hd'
    rw [hpres, sent, ← hlog] at hlen
    exact event_unique hd' hdone hlen

end Link

/-! ## What the packet does -/

/-- How far a command moves a coordinate: against the sign of the difference,
    unless the coordinate is at or beyond its limit on that side. -/
def moves (limit diff pos : ℤ) : ℤ :=
  if diff > 350 then (if -limit < pos then -1 else 0)
  else if diff < -350 then (if pos < limit then 1 else 0)
  else 0

/-- A command whose bits are those of a difference moves its coordinate against it. -/
private theorem commandStep_moves {limit pos : BitVec 16} {en dir : Bool} {diff : ℤ}
    (hen : en = decide (diff > 350 ∨ diff < -350)) (habove : diff > 350 → dir = false)
    (hbelow : diff < -350 → dir = true) :
    (SearchController.commandStep limit en dir pos).toInt =
      pos.toInt + moves limit.toInt diff pos.toInt := by
  rw [SearchController.commandStep_toInt, hen]
  unfold moves
  -- beyond the threshold on one side, on the other, or within it
  rcases lt_or_ge 350 diff with h | h
  · have hdir := habove h
    simp [hdir, h]
    split_ifs <;> omega
  · rcases lt_or_ge diff (-350) with h' | h'
    · have hdir := hbelow h'
      simp [hdir, h', h.not_gt]
      split_ifs <;> omega
    · simp [h.not_gt, h'.not_gt]

section Gimbal

variable {y : LaserTop} {home l : ℕ → Bool} {n : ℕ}

/-- The controller's inputs in cycle `n`. -/
def ports (y : LaserTop) (home l : ℕ → Bool) (n : ℕ) : SearchController.Input :=
  (laser y home l n).gimbal.controllerInput
    ((laser y home l n).gimbalInput { key0 := true, key1 := !home n, gpio1 := l n })

/-- The controller's registers in cycle `n`. -/
def controller (y : LaserTop) (home l : ℕ → Bool) (n : ℕ) : SearchController :=
  (laser y home l n).gimbal.controller0

theorem controller_succ (n : ℕ) : controller y home l (n + 1) =
    (controller y home l n).step (ports y home l n) := rfl

/-- Without reset and button the modes run. -/
theorem ports_live (h : home n = false) : SearchController.Live (ports y home l n) :=
  ⟨rfl, by simp [ports, LaserTop.gimbalInput, Gimbal.controllerInput, h]⟩

/-- Without a packet `TRACKING` leaves the position alone. -/
private theorem tracking_holds (hs : (controller y home l n).state = .tracking)
    (hdone : (laser y home l n).rxDone = false) :
    (controller y home l (n + 1)).posX = (controller y home l n).posX ∧
      (controller y home l (n + 1)).posY = (controller y home l n).posY := by
  have hrx : (ports y home l n).rxDone = false := hdone
  rw [controller_succ]
  -- no path through `TRACKING` without `rx_done` writes a position, nor does the button
  cases hh : home n
  · have hl := ports_live (y := y) (l := l) hh
    cases ho : (ports y home l n).onTarget
    · cases hsn : (controller y home l n).hasSeenTarget
      · rw [(SearchController.Branch.trackStay hl hs ho hsn).eq]
        exact ⟨rfl, rfl⟩
      · rw [(SearchController.Branch.trackLost hl hs ho hsn).eq]
        exact ⟨rfl, rfl⟩
    · rw [(SearchController.Branch.trackHold hl hs ho hrx).eq]
      exact ⟨rfl, rfl⟩
  · have hhome : (ports y home l n).returnHome = true := by
      simp [ports, LaserTop.gimbalInput, Gimbal.controllerInput, hh]
    rw [(SearchController.Branch.home rfl hhome).eq]
    exact ⟨rfl, rfl⟩

/-- As long as no packet comes, `TRACKING` with the target in sight is kept, and so is the
    position. -/
private theorem tracking_kept {t : ℕ} (hs : y.gimbal.controller0.state = .tracking)
    (hon : y.onTarget = true) (hhome : ∀ n < t, home n = false)
    (hdone : ∀ n < t, (laser y home l n).rxDone = false) :
    (controller y home l t).state = .tracking ∧
      (controller y home l t).posX = y.gimbal.controller0.posX ∧
      (controller y home l t).posY = y.gimbal.controller0.posY := by
  induction t with
  | zero => exact ⟨hs, rfl, rfl⟩
  | succ t ih =>
    obtain ⟨hst, hx, hy⟩ := ih (fun n hn => hhome n (by omega)) (fun n hn => hdone n (by omega))
    -- the byte is still the one that had the target bit set
    have hdata : (laser y home l t).irData = y.irData :=
      irData_quiet (Nat.zero_le t) fun k _ hk => hdone k (by omega)
    have ho : (ports y home l t).onTarget = true := (congrArg (BitVec.getLsbD · 4) hdata).trans hon
    rw [controller_succ, (SearchController.Branch.trackHold (ports_live (hhome t (by omega))) hst ho
      (hdone t (by omega))).eq]
    exact ⟨hst, hx, hy⟩

/-- A packet with the target bit set, in `TRACKING`: the gimbal turns against the
    differences that the receiver board has measured one clock before. -/
private theorem tracking_moves (hs : (controller y home l n).state = .tracking)
    (hdone : (laser y home l n).rxDone = true) (hhome : home n = false) {x : RxState}
    {q : Samples}
    (hdata : (laser y home l n).irData = (x.step { reset := false, q }).data)
    (hon : (x.step { reset := false, q }).qpd0.onTarget = true) :
    (controller y home l (n + 1)).posX.toInt = (controller y home l n).posX.toInt +
        moves SearchController.yawLimit.toInt q.dx (controller y home l n).posX.toInt ∧
      (controller y home l (n + 1)).posY.toInt = (controller y home l n).posY.toInt +
        moves SearchController.pitchLimit.toInt q.dy (controller y home l n).posY.toInt ∧
      (controller y home l (n + 1)).outYawDir = !(x.step { reset := false, q }).qpd0.dirX ∧
      (controller y home l (n + 1)).outPitchDir = !(x.step { reset := false, q }).qpd0.dirY := by
  obtain ⟨h0, h1, h2, h3, h4⟩ := data_bits (x.step { reset := false, q })
  obtain ⟨hmx, hdx⟩ := step_horizontal false q x.qpd0
  obtain ⟨hmy, hdy⟩ := step_vertical false q x.qpd0
  rw [← hdata] at h0 h1 h2 h3 h4
  -- the decoder inverts both directions
  have hl := ports_live (y := y) (l := l) hhome
  have ho : (ports y home l n).onTarget = true := h4.trans hon
  have hrx : (ports y home l n).rxDone = true := hdone
  have hyd : (ports y home l n).irYawDir = !(x.step { reset := false, q }).qpd0.dirX :=
    congrArg (fun b => !b) h1
  have hpd : (ports y home l n).irPitchDir = !(x.step { reset := false, q }).qpd0.dirY :=
    congrArg (fun b => !b) h3
  rw [controller_succ, (SearchController.Branch.trackCommand hl hs ho hrx).eq]
  rw [SearchController.yawAfter_eq, SearchController.pitchAfter_eq]
  refine ⟨commandStep_moves (h0.trans hmx) (fun h => ?_) (fun h => ?_),
    commandStep_moves (h2.trans hmy) (fun h => ?_) (fun h => ?_), hyd, hpd⟩
  · rw [hyd, show (x.step { reset := false, q }).qpd0.dirX = _ from hdx, if_pos h]
    rfl
  · rw [hyd, show (x.step { reset := false, q }).qpd0.dirX = _ from hdx, if_neg (by omega),
      if_pos h]
    rfl
  · rw [hpd, show (x.step { reset := false, q }).qpd0.dirY = _ from hdy, if_pos h]
    rfl
  · rw [hpd, show (x.step { reset := false, q }).qpd0.dirY = _ from hdy, if_neg (by omega),
      if_pos h]
    rfl

end Gimbal

/-- **Tracking command.**  `x` is the receiver board, `y` the transmitter board, and
    `q` the samples.  The packet started in cycle `a + 1` arrives once.  If its
    target bit is set and the controller is in `TRACKING` when it does, the
    position moves against the differences of the samples of cycle `a`, up to the
    travel limits, and the direction outputs take the decoded bits.  Between
    packets `TRACKING` moves nothing, and no 16-bit operation overflows. -/
theorem tracking_command (x : RxState) (q : ℕ → Samples) (y : LaserTop) (home : ℕ → Bool)
    (d : ℕ → ℕ) (D : ℕ) (hquiet : Quiet x y) (hd : ∀ e, D ≤ d e ∧ d e ≤ D + 7_000) (a : ℕ)
    (hidle : (board x q (a + 1)).tx.ir0.state = .idle)
    (hpulse : (board x q (a + 1)).tx.gen.txPulse = true) :
    let l := boardLine x q d
    (∃ t, Arrives x q y home l (a + 1) t) ∧
    (∀ t, Arrives x q y home l (a + 1) t → (board x q (a + 1)).qpd0.onTarget = true →
      (controller y home l t).state = .tracking → home t = false →
      (laser y home l t).onTarget = true ∧
      (controller y home l (t + 1)).posX.toInt = (controller y home l t).posX.toInt +
        moves SearchController.yawLimit.toInt (q a).dx (controller y home l t).posX.toInt ∧
      (controller y home l (t + 1)).posY.toInt = (controller y home l t).posY.toInt +
        moves SearchController.pitchLimit.toInt (q a).dy (controller y home l t).posY.toInt ∧
      (controller y home l (t + 1)).outYawDir = !(board x q (a + 1)).qpd0.dirX ∧
      (controller y home l (t + 1)).outPitchDir = !(board x q (a + 1)).qpd0.dirY) ∧
    (∀ n, (controller y home l n).state = .tracking → (laser y home l n).rxDone = false →
      (controller y home l (n + 1)).posX = (controller y home l n).posX ∧
      (controller y home l (n + 1)).posY = (controller y home l n).posY) ∧
    (∀ p : Samples, p.dxNum.toInt = p.dx ∧ p.dyNum.toInt = p.dy ∧
      p.sum.toInt = p.q0.toNat + p.q1.toNat + p.q2.toNat + p.q3.toNat ∧
      (abs16 p.dxNum).toInt = |p.dx| ∧ (abs16 p.dyNum).toInt = |p.dy|) := by
  intro l
  have ha : accepts x.tx.ir0 (boardStart x q) (boardData x q) (a + 1) = true := by
    rw [accepts_iff, ← board_transmit]
    exact ⟨hidle, hpulse⟩
  obtain ⟨t, ht, hdata, huniq⟩ := packet_arrives home hquiet hd ha
  refine ⟨⟨t, ht⟩, fun t' ht' hon hs hhome => ?_, fun n => tracking_holds, fun p => ?_⟩
  · obtain rfl := huniq t' ht'
    refine ⟨?_, tracking_moves hs ht.1 hhome (x := board x q a) hdata hon⟩
    rw [LaserTop.onTarget, hdata]
    exact (data_bits (board x q (a + 1))).2.2.2.2.trans hon
  · have hx := dx_bounds p
    have hy := dy_bounds p
    refine ⟨dxNum_toInt p, dyNum_toInt p, sum_toInt p, ?_, ?_⟩
    · rw [abs16_toInt (by rw [dxNum_toInt]; omega), dxNum_toInt]
    · rw [abs16_toInt (by rw [dyNum_toInt]; omega), dyNum_toInt]

/-- The receiver board one clock before a start pulse, locked on the target. -/
def lockedBoard : RxState where
  qpd0 := { QpdState.powerUp with confidenceCounter := 60_000, onTarget := true }
  tx := { gen := { txTimer := 1_000_000, txPulse := false, settled := by simp }
          ir0 := .powerUp }

/-- The transmitter board in `TRACKING`. -/
def trackingLaser : LaserTop where
  r0 := restingRx
  gimbal :=
    { ticker := { clkCount := 0, stepTick := false, settled := fun _ => rfl }
      controller0 :=
        { state := .tracking, posX := 0, posY := 0, sideLimit := 3, stepCount := 0,
          spiralDir := 0, pulseTimer := 0, hasSeenTarget := false, outYawEn := false,
          outYawDir := false, outPitchEn := false, outPitchDir := false }
      simpledriver :=
        { c0 := { count := 0, clkout := false }, yawStep := true, pitchStep := true } }

/-- The same behind a packet with the target bit set. -/
def lockedLaser : LaserTop :=
  { trackingLaser with r0 := { restingRx with fsm := { Fsm.resetRegs with data := 0b10000 } } }

/-- A spot on the right. -/
def spotRight (_ : ℕ) : Samples := ⟨900, 900, 100, 100⟩

/-- The line from the locked board, over a channel that takes 12345 cycles. -/
def lockedLine : ℕ → Bool := boardLine lockedBoard spotRight (fun _ => 12_345)

/-- The command to turn back arrives in `TRACKING`; it moves the yaw axis one step back and
    the pitch axis not at all. -/
theorem lockedBoard_command :
    ∃ t, Arrives lockedBoard spotRight lockedLaser (fun _ => false) lockedLine 1 t ∧
      (laser lockedLaser (fun _ => false) lockedLine t).onTarget = true ∧
      (controller lockedLaser (fun _ => false) lockedLine t).state = .tracking ∧
      (controller lockedLaser (fun _ => false) lockedLine t).posX.toInt = 0 ∧
      (controller lockedLaser (fun _ => false) lockedLine (t + 1)).posX.toInt = -1 ∧
      (controller lockedLaser (fun _ => false) lockedLine (t + 1)).posY.toInt = 0 := by
  obtain ⟨⟨t, ht⟩, hmove, -⟩ := tracking_command lockedBoard spotRight lockedLaser
    (fun _ => false) (fun _ => 12_345) 12_345 ⟨rfl, rfl, rfl, rfl, rfl, rfl, rfl⟩
    (fun _ => by omega) 0 rfl rfl
  -- nothing has been sent before, so nothing comes before this packet
  have hquiet : ∀ n < t, (laser lockedLaser (fun _ => false) lockedLine n).rxDone = false :=
    fun n hn => by
      have hnone : _ ≤ 0 := ht.2.le
      rw [LaserTop.rxDone, board_receiver]
      exact quiet_of_length (m := 0) hnone (Nat.zero_le n) hn
  obtain ⟨hstate, hx, hy⟩ := tracking_kept (t := t) rfl rfl (fun _ _ => rfl) hquiet
  obtain ⟨hon, hx', hy', -⟩ := hmove t ht rfl hstate rfl
  rw [show boardLine lockedBoard spotRight _ = lockedLine from rfl, hx] at hx'
  rw [show boardLine lockedBoard spotRight _ = lockedLine from rfl, hy] at hy'
  exact ⟨t, ht, hon, hstate, congrArg BitVec.toInt hx, hx', hy'⟩

end Scope.Native
