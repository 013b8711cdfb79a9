import Mathlib.Data.Nat.Count
import Scope.ForStd.Run
import Scope.ForStd.BitVec
import Scope.Native.SearchController

/-!
# What one clock edge does to the search controller

Every branch of `SearchController.step` as one record update, so that the files
about the controller read off the fields they need and do not unfold the
branches again.
-/

namespace Scope.Native.SearchController

open Sync

/-- `pulse_timer` after the countdown in front of `case (state)`. -/
def timerDown (s : SearchController) : BitVec 32 :=
  if s.pulseTimer.toNat > 0 then s.pulseTimer - 1 else s.pulseTimer

/-- The registers after the countdown. -/
def countdown (s : SearchController) : SearchController := { s with pulseTimer := s.timerDown }

/-- The timer counts down to zero and stays. -/
theorem timerDown_toNat (s : SearchController) :
    s.timerDown.toNat = s.pulseTimer.toNat - 1 := by
  unfold timerDown
  split
  · exact BitVec.toNat_sub_one (by omega)
  · omega

/-- A register that is loaded or counts down, as a number. -/
theorem loaded_toNat {s c : SearchController} {load : Bool}
    (h : c.pulseTimer = if load then pulseWidth else s.timerDown) :
    c.pulseTimer.toNat = if load then pulseWidth.toNat else s.pulseTimer.toNat - 1 := by
  rw [h]
  split_ifs
  · rfl
  · exact s.timerDown_toNat

/-- `pos_x` after the yaw part of a command. -/
def yawAfter (i : Input) (s : SearchController) : BitVec 16 := (s.trackYaw i s).posX

/-- `pos_y` after the pitch part of a command. -/
def pitchAfter (i : Input) (s : SearchController) : BitVec 16 := (s.trackPitch i s).posY

/-- The yaw part of a command writes `pos_x` alone. -/
private theorem trackYaw_eq (i : Input) (s n : SearchController) (h : n.posX = s.posX) :
    s.trackYaw i n = { n with posX := s.yawAfter i } := by
  unfold yawAfter trackYaw
  split_ifs <;> simp only [← h]

private theorem trackPitch_eq (i : Input) (s n : SearchController) (h : n.posY = s.posY) :
    s.trackPitch i n = { n with posY := s.pitchAfter i } := by
  unfold pitchAfter trackPitch
  split_ifs <;> simp only [← h]

/-- All four values of `spiral_dir` name a direction. -/
theorem spiralDir_cases (s : SearchController) :
    s.spiralDir = 0 ∨ s.spiralDir = 1 ∨ s.spiralDir = 2 ∨ s.spiralDir = 3 := by
  have hall : ∀ d : BitVec 2, d = 0 ∨ d = 1 ∨ d = 2 ∨ d = 3 := by decide
  exact hall s.spiralDir

/-- A spiral step writes the position alone. -/
private theorem spiralMove_eq (s n : SearchController) (hx : n.posX = s.posX)
    (hy : n.posY = s.posY) :
    s.spiralMove n =
      { n with posX := (s.spiralMove s).posX, posY := (s.spiralMove s).posY } := by
  unfold spiralMove
  split_ifs <;> simp only [← hx, ← hy]

/-- The drive writes directions and enables alone. -/
private theorem spiralDrive_eq (s n : SearchController) (hx : n.outYawDir = s.outYawDir)
    (hy : n.outPitchDir = s.outPitchDir) :
    s.spiralDrive n =
      { n with
        outYawDir := (s.spiralDrive s).outYawDir
        outYawEn := (s.spiralDrive s).outYawEn
        outPitchDir := (s.spiralDrive s).outPitchDir
        outPitchEn := (s.spiralDrive s).outPitchEn } := by
  unfold spiralDrive
  split_ifs <;> simp only [← hx, ← hy]

/-- The counters of the spiral are written alone. -/
private theorem spiralCount_eq (s n : SearchController) (hd : n.spiralDir = s.spiralDir)
    (hl : n.sideLimit = s.sideLimit) :
    s.spiralCount n =
      { n with
        stepCount := (s.spiralCount s).stepCount
        spiralDir := (s.spiralCount s).spiralDir
        sideLimit := (s.spiralCount s).sideLimit } := by
  unfold spiralCount
  split_ifs <;> simp only [← hd, ← hl]

/-! ## Constants and positions as integers -/

@[simp] theorem yawLimit_toInt : yawLimit.toInt = 177 := rfl
@[simp] theorem pitchLimit_toInt : pitchLimit.toInt = 89 := rfl
@[simp] theorem bootLimit_toInt : bootLimit.toInt = 266 := rfl
@[simp] theorem neg_bootLimit_toInt : (-bootLimit).toInt = -266 := rfl
@[simp] theorem pulseWidth_toNat : pulseWidth.toNat = 50_000 := rfl

/-- A homing step moves one closer to the goal and never past it. -/
theorem stepToward_toInt (goal pos : BitVec 16) :
    (stepToward goal pos).toInt =
      if pos.toInt > goal.toInt then pos.toInt - 1
      else if pos.toInt < goal.toInt then pos.toInt + 1
      else pos.toInt := by
  -- on the way to the goal neither end of the 16-bit range is met
  have hlo := goal.le_toInt
  have hhi := goal.toInt_lt
  unfold stepToward
  split_ifs
  · exact BitVec.toInt_sub_one (by omega)
  · exact BitVec.toInt_add_one (by omega)
  · rfl

/-- A coordinate after a command: one further on the side to which `dir` points, as long as
    that is within the limit. -/
def commandStep (limit : BitVec 16) (en dir : Bool) (pos : BitVec 16) : BitVec 16 :=
  if en then
    if dir ∧ pos.toInt < limit.toInt then pos + 1
    else if ¬ dir ∧ pos.toInt > -limit.toInt then pos - 1
    else pos
  else pos

/-- A command moves the integer, too. -/
theorem commandStep_toInt (limit : BitVec 16) (en dir : Bool) (pos : BitVec 16) :
    (commandStep limit en dir pos).toInt =
      if en ∧ dir ∧ pos.toInt < limit.toInt then pos.toInt + 1
      else if en ∧ ¬ dir ∧ pos.toInt > -limit.toInt then pos.toInt - 1
      else pos.toInt := by
  -- within the limit neither end of the 16-bit range is met
  have hlo := limit.le_toInt
  have hhi := limit.toInt_lt
  unfold commandStep
  cases en <;> cases dir <;> simp
  · split_ifs with h
    · exact BitVec.toInt_sub_one (by omega)
    · rfl
  · split_ifs with h
    · exact BitVec.toInt_add_one (by omega)
    · rfl

/-- The yaw part is a command step with the yaw limit. -/
theorem yawAfter_eq (i : Input) (s : SearchController) :
    s.yawAfter i = commandStep yawLimit i.irYawEn i.irYawDir s.posX := by
  unfold yawAfter trackYaw commandStep
  split_ifs <;> rfl

theorem pitchAfter_eq (i : Input) (s : SearchController) :
    s.pitchAfter i = commandStep pitchLimit i.irPitchEn i.irPitchDir s.posY := by
  unfold pitchAfter trackPitch commandStep
  split_ifs <;> rfl

/-! ## The branches of a clock edge -/

/-- Neither reset nor the return button: the controller runs its modes. -/
structure Live (i : Input) : Prop where
  reset : i.reset = false
  returnHome : i.returnHome = false

/-- A step tick moves the spiral: the target is still lost, the last leg is not
    over. -/
structure SearchTick (i : Input) (s : SearchController) : Prop where
  live : Live i
  state : s.state = .searching
  lost : i.onTarget = false
  side : s.sideLimit.toNat ≤ searchMaxSide.toNat
  tick : i.stepTick = true

/-- What a clock edge can do, one constructor for each path through the clocked
    block. -/
inductive Branch (i : Input) (s : SearchController) : SearchController → Prop
  | reset : i.reset = true → Branch i s s.resetRegs
  | home : i.reset = false → i.returnHome = true → Branch i s { s with state := .forcedReturn }
  | bootWait : Live i → s.state = .bootUp → i.stepTick = false →
      Branch i s { s with
        pulseTimer := s.timerDown
        outPitchDir := true
        outPitchEn := s.pulsing }
  | bootStep : Live i → s.state = .bootUp → i.stepTick = true → s.posY.toInt < 0 →
      Branch i s { s with
        posY := s.posY + 1
        pulseTimer := pulseWidth
        outPitchDir := true
        outPitchEn := s.pulsing }
  | bootDone : Live i → s.state = .bootUp → i.stepTick = true → 0 ≤ s.posY.toInt →
      Branch i s { s with
        state := .idleWait
        pulseTimer := s.timerDown
        outPitchDir := true
        outPitchEn := s.pulsing }
  | idle : Live i → s.state = .idleWait →
      Branch i s { s with
        state := if i.onTarget then .tracking else .idleWait
        pulseTimer := s.timerDown
        outYawEn := false
        outPitchEn := false }
  | trackHold : Live i → s.state = .tracking → i.onTarget = true → i.rxDone = false →
      Branch i s { s with
        hasSeenTarget := true
        pulseTimer := s.timerDown
        outYawEn := s.pulsing && i.irYawEn
        outPitchEn := s.pulsing && i.irPitchEn }
  | trackCommand : Live i → s.state = .tracking → i.onTarget = true → i.rxDone = true →
      Branch i s { s with
        posX := s.yawAfter i
        posY := s.pitchAfter i
        hasSeenTarget := true
        pulseTimer := pulseWidth
        outYawEn := s.pulsing && i.irYawEn
        outYawDir := i.irYawDir
        outPitchEn := s.pulsing && i.irPitchEn
        outPitchDir := i.irPitchDir }
  | trackLost : Live i → s.state = .tracking → i.onTarget = false → s.hasSeenTarget = true →
      Branch i s { s with
        state := .searching
        stepCount := 0
        spiralDir := 0
        sideLimit := densityStep
        pulseTimer := 0 }
  | trackStay : Live i → s.state = .tracking → i.onTarget = false → s.hasSeenTarget = false →
      Branch i s { s with pulseTimer := s.timerDown }
  | searchFound : Live i → s.state = .searching → i.onTarget = true →
      Branch i s { s with state := .tracking, pulseTimer := s.timerDown }
  | searchOver : Live i → s.state = .searching → i.onTarget = false →
      searchMaxSide.toNat < s.sideLimit.toNat →
      Branch i s { s with state := .returning, pulseTimer := s.timerDown }
  | searchWait : Live i → s.state = .searching → i.onTarget = false →
      s.sideLimit.toNat ≤ searchMaxSide.toNat → i.stepTick = false →
      Branch i s { s with
        pulseTimer := s.timerDown
        outYawDir := (s.spiralDrive s).outYawDir
        outYawEn := (s.spiralDrive s).outYawEn
        outPitchDir := (s.spiralDrive s).outPitchDir
        outPitchEn := (s.spiralDrive s).outPitchEn }
  | searchStep : SearchTick i s →
      Branch i s { s with
        posX := (s.spiralMove s).posX
        posY := (s.spiralMove s).posY
        stepCount := (s.spiralCount s).stepCount
        spiralDir := (s.spiralCount s).spiralDir
        sideLimit := (s.spiralCount s).sideLimit
        pulseTimer := pulseWidth
        outYawDir := (s.spiralDrive s).outYawDir
        outYawEn := (s.spiralDrive s).outYawEn
        outPitchDir := (s.spiralDrive s).outPitchDir
        outPitchEn := (s.spiralDrive s).outPitchEn }
  | returnFound : Live i → s.state = .returning → i.onTarget = true →
      Branch i s { s with state := .tracking, pulseTimer := s.timerDown }
  | returnDone : Live i → s.state = .returning → i.onTarget = false → s.posX = 0 → s.posY = 0 →
      Branch i s { s with
        state := .idleWait
        hasSeenTarget := false
        pulseTimer := s.timerDown }
  | returnRun : Live i → s.state = .returning → i.onTarget = false →
      ¬ (s.posX = 0 ∧ s.posY = 0) →
      Branch i s { s with
        posX := if i.stepTick then stepToward 0 s.posX else s.posX
        posY := if i.stepTick then stepToward 0 s.posY else s.posY
        pulseTimer := if i.stepTick then pulseWidth else s.timerDown
        outYawDir := decide (s.posX.toInt < 0)
        outYawEn := s.pulsing && decide (s.posX ≠ 0)
        outPitchDir := decide (s.posY.toInt < 0)
        outPitchEn := s.pulsing && decide (s.posY ≠ 0) }
  | forcedDone : Live i → s.state = .forcedReturn → s.posX = 0 → s.posY = -bootLimit →
      Branch i s { s with
        state := .idleWait
        hasSeenTarget := false
        pulseTimer := s.timerDown }
  | forcedRun : Live i → s.state = .forcedReturn → ¬ (s.posX = 0 ∧ s.posY = -bootLimit) →
      Branch i s { s with
        posX := if i.stepTick then stepToward 0 s.posX else s.posX
        posY := if i.stepTick then stepToward (-bootLimit) s.posY else s.posY
        pulseTimer := if i.stepTick then pulseWidth else s.timerDown
        outYawDir := decide (s.posX.toInt < 0)
        outYawEn := s.pulsing && decide (s.posX ≠ 0)
        outPitchDir := decide (s.posY.toInt ≤ (-bootLimit).toInt)
        outPitchEn := s.pulsing && decide (s.posY ≠ -bootLimit) }
  | unused (low : Bool) : Live i → s.state = .unused low →
      Branch i s { s with pulseTimer := s.timerDown }

/-- Outside reset and the return button, the countdown runs and then the mode. -/
private theorem step_live {i : Input} {s : SearchController} (h : Live i) :
    s.step i =
      match s.state with
      | .bootUp => s.bootUp i s.countdown
      | .idleWait => idleWait i s.countdown
      | .tracking => s.tracking i s.countdown
      | .searching => s.searching i s.countdown
      | .returning => s.returning i s.countdown
      | .forcedReturn => s.forcedReturn i s.countdown
      | .unused _ => s.countdown := by
  -- the countdown is written before the mode, whose assignments win
  have hc : (if s.pulseTimer.toNat > 0 then { s with pulseTimer := s.pulseTimer - 1 } else s) =
      s.countdown := by
    unfold countdown timerDown
    split <;> rfl
  have hr : ¬ i.reset = true := by simp [h.reset]
  have hh : ¬ i.returnHome = true := by simp [h.returnHome]
  rw [← hc]
  exact (if_neg hr).trans (if_neg hh)

/-- A branch whose conditions hold is the one the clock edge takes. -/
theorem Branch.eq {i : Input} {s s' : SearchController} (h : Branch i s s') : s.step i = s' := by
  cases h with
  | reset hr => exact if_pos hr
  | home hr hh => rw [step, if_neg (by simp [hr]), if_pos hh]
  | bootWait hl hs ht => simp [step_live hl, hs, bootUp, ht, countdown]
  | bootStep hl hs ht hy => simp [step_live hl, hs, bootUp, ht, hy, countdown]
  | bootDone hl hs ht hy => simp [step_live hl, hs, bootUp, ht, Int.not_lt.mpr hy, countdown]
  | idle hl hs =>
    cases ho : i.onTarget <;> simp [step_live hl, hs, idleWait, ho, countdown]
  | trackHold hl hs ho hrx => simp [step_live hl, hs, tracking, ho, hrx, countdown]
  -- the two halves of a command write different registers
  | trackCommand hl hs ho hrx =>
    simp only [step_live hl, hs, tracking, ho, hrx, if_true]
    rw [trackYaw_eq, trackPitch_eq]
    · simp only [countdown, hs]
    all_goals rfl
  | trackLost hl hs ho hsn => simp [step_live hl, hs, tracking, ho, hsn, countdown]
  | trackStay hl hs ho hsn => simp [step_live hl, hs, tracking, ho, hsn, countdown]
  | searchFound hl hs ho => simp [step_live hl, hs, searching, ho, countdown]
  | searchOver hl hs ho hm => simp [step_live hl, hs, searching, ho, hm, countdown]
  | searchWait hl hs ho hm ht =>
    rw [step_live hl, hs]
    simp only [searching]
    rw [spiralDrive_eq s s.countdown rfl rfl]
    simp [ho, Nat.not_lt.mpr hm, ht, countdown, hs]
  -- drive, move and count each touch registers of their own
  | searchStep h =>
    obtain ⟨hl, hs, ho, hm, ht⟩ := h
    rw [step_live hl, hs]
    simp only [searching]
    rw [spiralDrive_eq s s.countdown rfl rfl, spiralMove_eq, spiralCount_eq]
    · simp [ho, Nat.not_lt.mpr hm, ht, countdown, hs]
    all_goals rfl
  | returnFound hl hs ho => simp [step_live hl, hs, returning, ho, countdown]
  | returnDone hl hs ho hx hy => simp [step_live hl, hs, returning, ho, hx, hy, countdown]
  | returnRun hl hs ho hp =>
    rw [step_live hl, hs]
    simp only [returning]
    rw [if_neg (by simp [ho]), if_neg hp]
    cases ht : i.stepTick <;> simp [countdown, hs]
  | forcedDone hl hs hx hy => simp [step_live hl, hs, forcedReturn, hx, hy, countdown]
  | forcedRun hl hs hp =>
    have hd : (if s.posY.toInt > (-bootLimit).toInt then false else true) =
        decide (s.posY.toInt ≤ (-bootLimit).toInt) := by
      split
      · exact (decide_eq_false (by omega)).symm
      · exact (decide_eq_true (by omega)).symm
    rw [step_live hl, hs]
    simp only [forcedReturn]
    rw [if_neg hp, hd]
    cases ht : i.stepTick <;> simp [countdown, hs]
  | unused low hl hs => simp [step_live hl, hs, countdown]

/-- A path that is open is the one taken. -/
theorem Branch.taken {i : Input} {s s' : SearchController} (h : Branch i s s') :
    Branch i s (s.step i) := h.eq ▸ h

/-- Every clock edge takes one of the branches. -/
theorem step_branch (i : Input) (s : SearchController) : Branch i s (s.step i) := by
  -- reset comes first, then the return button, then the state
  cases hr : i.reset
  case true => exact (Branch.reset hr).taken
  case false =>
    cases hh : i.returnHome
    case true => exact (Branch.home hr hh).taken
    case false =>
      have hl : Live i := ⟨hr, hh⟩
      -- each state in the order of its own tests
      cases hs : s.state with
      | bootUp =>
        cases ht : i.stepTick
        · exact (Branch.bootWait hl hs ht).taken
        · by_cases hy : s.posY.toInt < 0
          · exact (Branch.bootStep hl hs ht hy).taken
          · exact (Branch.bootDone hl hs ht (by omega)).taken
      | idleWait => exact (Branch.idle hl hs).taken
      | tracking =>
        cases ho : i.onTarget
        · cases hsn : s.hasSeenTarget
          · exact (Branch.trackStay hl hs ho hsn).taken
          · exact (Branch.trackLost hl hs ho hsn).taken
        · cases hrx : i.rxDone
          · exact (Branch.trackHold hl hs ho hrx).taken
          · exact (Branch.trackCommand hl hs ho hrx).taken
      | searching =>
        cases ho : i.onTarget
        · by_cases hm : searchMaxSide.toNat < s.sideLimit.toNat
          · exact (Branch.searchOver hl hs ho hm).taken
          · cases ht : i.stepTick
            · exact (Branch.searchWait hl hs ho (by omega) ht).taken
            · exact (Branch.searchStep ⟨hl, hs, ho, by omega, ht⟩).taken
        · exact (Branch.searchFound hl hs ho).taken
      | returning =>
        cases ho : i.onTarget
        · by_cases hp : s.posX = 0 ∧ s.posY = 0
          · exact (Branch.returnDone hl hs ho hp.1 hp.2).taken
          · exact (Branch.returnRun hl hs ho hp).taken
        · exact (Branch.returnFound hl hs ho).taken
      | forcedReturn =>
        by_cases hp : s.posX = 0 ∧ s.posY = -bootLimit
        · exact (Branch.forcedDone hl hs hp.1 hp.2).taken
        · exact (Branch.forcedRun hl hs hp).taken
      | unused low => exact (Branch.unused low hl hs).taken

/-! ## Step ticks -/

/-- The number of step ticks in the first `n` cycles. -/
def ticks (i : ℕ → Input) (n : ℕ) : ℕ := Nat.count (fun m => (i m).stepTick = true) n

@[simp] theorem ticks_zero (i : ℕ → Input) : ticks i 0 = 0 := Nat.count_zero _

theorem ticks_succ (i : ℕ → Input) (n : ℕ) :
    ticks i (n + 1) = ticks i n + if (i n).stepTick then 1 else 0 := Nat.count_succ _ n

theorem ticks_mono (i : ℕ → Input) {m n : ℕ} (h : m ≤ n) : ticks i m ≤ ticks i n :=
  Nat.count_monotone _ h

theorem ticks_quiet (i : ℕ → Input) {m n : ℕ} (h : m ≤ n)
    (hq : ∀ k, m ≤ k → k < n → (i k).stepTick = false) : ticks i n = ticks i m := by
  induction n, h using Nat.le_induction with
  | base => rfl
  | succ n hmn ih =>
    rw [ticks_succ, hq n hmn (by omega), ih fun k hk hkn => hq k hk (by omega)]
    rfl

/-- With a tick in every cycle there are as many ticks as cycles. -/
theorem ticks_of_forall {i : ℕ → Input} (h : ∀ n, (i n).stepTick = true) (n : ℕ) :
    ticks i n = n := Nat.count_of_forall fun k _ => h k

/-- Ticks come one at a time. -/
theorem ticks_le_of_lt {i : ℕ → Input} {n X : ℕ} (h : ∀ k < n, ticks i k < X) :
    ticks i n ≤ X := by
  rcases n with _ | n
  · exact Nat.zero_le X
  · have hlt := h n (by omega)
    rw [ticks_succ]
    split_ifs <;> omega

/-- Every number of ticks up to the present one has been that of some cycle. -/
theorem exists_ticks (i : ℕ → Input) {k n : ℕ} (h : k ≤ ticks i n) : ∃ m ≤ n, ticks i m = k := by
  induction n with
  | zero => exact ⟨0, le_rfl, by rw [ticks_zero] at h ⊢; omega⟩
  | succ n ih =>
    rcases Nat.lt_or_ge (ticks i n) k with hlt | hge
    · refine ⟨n + 1, le_rfl, ?_⟩
      rw [ticks_succ] at h ⊢
      split_ifs at h ⊢ <;> omega
    · obtain ⟨m, hm, hk⟩ := ih hge
      exact ⟨m, by omega, hk⟩

end Scope.Native.SearchController
