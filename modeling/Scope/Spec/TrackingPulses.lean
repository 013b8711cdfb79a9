import Scope.ForStd.EnableWindow
import Scope.Spec.EnableOutputs
import Scope.Spec.StepLedger

/-!
# The pulses of a command

`TRACKING` loads the pulse timer for every packet and derives the enables from the
command bits; the travel limits are asked for the position alone.  A command beyond a
limit therefore moves the motor although it does not move the counter.

## Key results

- `TrackEdge`: what a clock edge of `TRACKING` does
- `commandStep_ne_iff`: which commands move a coordinate
- `command_en`: the enables behind a packet
- `limit_binds_iff`: the limits bind the motor unless a command goes beyond one
-/

namespace Scope.Native

namespace Axis

/-- The enable and direction bits of a command. -/
def commanded (a : Axis) (j : SearchController.Input) : Bool :=
  match a with
  | yaw => j.irYawEn
  | pitch => j.irPitchEn

def commandDir (a : Axis) (j : SearchController.Input) : Bool :=
  match a with
  | yaw => j.irYawDir
  | pitch => j.irPitchDir

/-- The travel limit that commands keep. -/
def limit : Axis → BitVec 16
  | yaw => SearchController.yawLimit
  | pitch => SearchController.pitchLimit

end Axis

namespace SearchController

open Sync EnableWindow

/-- The command asks for a step outward of an axis that is at or beyond its limit. -/
def Blocked (a : Axis) (j : Input) (s : SearchController) : Prop :=
  a.commanded j = true ∧
    if a.commandDir j then a.limit.toInt ≤ (a.pos s).toInt else (a.pos s).toInt ≤ -a.limit.toInt

/-- A clock edge of `TRACKING` with the target in sight. -/
structure TrackEdge (j : Input) (s c : SearchController) : Prop where
  state : c.state = .tracking
  timer : c.pulseTimer = if j.rxDone then pulseWidth else s.timerDown
  en : ∀ a : Axis, a.en c = (s.pulsing && a.commanded j)
  pos : ∀ a : Axis, a.pos c ≠ a.pos s ↔
    j.rxDone = true ∧ a.commanded j = true ∧ ¬ Blocked a j s

section Edge

variable {s : SearchController} {i : ℕ → Input} {j : Input} {a : Axis} {n t : ℕ}

/-- A command moves its coordinate unless it asks for nothing or is blocked. -/
theorem commandStep_ne_iff {limit pos : BitVec 16} {en dir : Bool} :
    commandStep limit en dir pos ≠ pos ↔ en = true ∧ ¬ (en = true ∧
      if dir then limit.toInt ≤ pos.toInt else pos.toInt ≤ -limit.toInt) := by
  rw [Ne, ← BitVec.toInt_inj, commandStep_toInt]
  cases en <;> cases dir <;> simp

/-- The coordinates behind a clock edge of `TRACKING` with the target in sight. -/
theorem track_pos (hs : s.state = .tracking) (hl : Live j) (ho : j.onTarget = true) (a : Axis) :
    a.pos (s.step j) =
      if j.rxDone then commandStep a.limit (a.commanded j) (a.commandDir j) (a.pos s)
      else a.pos s := by
  cases hrx : j.rxDone with
  | false =>
    rw [(Branch.trackHold hl hs ho hrx).eq]
    cases a <;> rfl
  | true =>
    rw [(Branch.trackCommand hl hs ho hrx).eq]
    cases a
    · exact yawAfter_eq j s
    · exact pitchAfter_eq j s

/-- A clock edge of `TRACKING` with the target in sight is one of these. -/
theorem track_edge (hs : s.state = .tracking) (hl : Live j) (ho : j.onTarget = true) :
    TrackEdge j s (s.step j) := by
  have hpos : ∀ a : Axis, a.pos (s.step j) ≠ a.pos s ↔
      j.rxDone = true ∧ a.commanded j = true ∧ ¬ Blocked a j s := by
    intro a
    rw [track_pos hs hl ho]
    cases hrx : j.rxDone
    · exact ⟨fun h => absurd rfl h, fun h => absurd h.1 nofun⟩
    · exact commandStep_ne_iff.trans (and_iff_right rfl).symm
  cases hrx : j.rxDone with
  | false =>
    rw [(Branch.trackHold hl hs ho hrx).eq] at hpos ⊢
    exact ⟨hs, by rw [hrx]; rfl, by rintro ⟨_⟩ <;> rfl, hpos⟩
  | true =>
    rw [(Branch.trackCommand hl hs ho hrx).eq] at hpos ⊢
    exact ⟨hs, by rw [hrx]; rfl, by rintro ⟨_⟩ <;> rfl, hpos⟩

/-- The cycle belongs to a run of `TRACKING` with the target in sight. -/
structure Tracks (j : Input) (s : SearchController) : Prop where
  state : s.state = .tracking
  live : Live j
  onTarget : j.onTarget = true

/-- In `TRACKING` the enable of an axis is gated by its command bit. -/
theorem Tracks.clocked (h : Tracks (i n) (run step s i n)) (a : Axis) :
    Clocked pulseWidth.toNat (fun n => (i n).rxDone) (fun n => a.commanded (i n))
      (fun n => (run step s i n).pulseTimer.toNat) (enable a s i) n := by
  have he := track_edge h.state h.live h.onTarget
  exact ⟨loaded_toNat he.timer, he.en a⟩

/-- The enables behind a packet that finds the timer at zero, up to the next packet. -/
theorem command_en (h0 : (run step s i t).pulseTimer.toNat = 0) (ht : (i t).rxDone = true)
    (htr : ∀ k, t ≤ k → k < n → Tracks (i k) (run step s i k))
    (hs : Shows (fun n => (i n).rxDone) t n) (a : Axis) :
    enable a s i n = (decide (t + 2 ≤ n ∧ n < t + 2 + pulseWidth.toNat) &&
      a.commanded (i (n - 1))) := by
  have hen := en_of_load ht h0 hs fun k hk hkn => (htr k hk hkn).clocked a
  exact hen

end Edge

/-! ## Travel limits -/

/-- A packet finds `TRACKING` with the timer at zero; for as long as its pulse takes, the
    command is held, no other packet comes and no button is pressed. -/
structure Commanded (s : SearchController) (i : ℕ → Input) : Prop where
  state : s.state = .tracking
  timer : s.pulseTimer.toNat = 0
  rxDone : (i 0).rxDone = true
  onTarget : (i 0).onTarget = true
  held : ∀ n, 1 ≤ n → n ≤ pulseWidth.toNat + 1 → (i n).rxDone = false ∧
    (i n).onTarget = true ∧ ∀ a : Axis, a.commanded (i n) = a.commanded (i 0)
  live : ∀ n ≤ pulseWidth.toNat + 1, Live (i n)

/-- The limits bind the motors: an axis that the command would take outward from its
    limit is not enabled during the pulse, and one whose counter moves is enabled for
    exactly `PULSE_WIDTH` cycles. -/
def BindsMotor (s : SearchController) (i : ℕ → Input) : Prop :=
  ∀ a : Axis,
    (Blocked a (i 0) s → ∀ n, 1 ≤ n → n ≤ pulseWidth.toNat + 2 → enable a s i n = false) ∧
    (a.pos (run step s i 1) ≠ a.pos s → Window (enable a s i) pulseWidth.toNat 2)

section Limits

variable {s : SearchController} {i : ℕ → Input} {a : Axis} {n : ℕ}

/-- For as long as its pulse takes, the controller tracks. -/
theorem Commanded.tracks (h : Commanded s i) (hn : n ≤ pulseWidth.toNat + 1) :
    Tracks (i n) (run step s i n) := by
  have hon : ∀ k ≤ pulseWidth.toNat + 1, (i k).onTarget = true := by
    intro k hk
    rcases Nat.eq_zero_or_pos k with rfl | hpos
    · exact h.onTarget
    · exact (h.held k hpos hk).2.1
  refine ⟨?_, h.live n hn, hon n hn⟩
  induction n with
  | zero => exact h.state
  | succ n ih => exact (track_edge (ih (by omega)) (h.live n (by omega)) (hon n (by omega))).state

/-- The pulse that follows: whatever the limits say, the commanded axes are enabled. -/
private theorem Commanded.enable_eq (h : Commanded s i) (h1 : 1 ≤ n)
    (hn : n ≤ pulseWidth.toNat + 2) : enable a s i n =
      (decide (2 ≤ n ∧ n < 2 + pulseWidth.toNat) && a.commanded (i 0)) := by
  have hen := command_en (t := 0) h.timer h.rxDone (fun k _ hk => h.tracks (by omega))
    ⟨h1, fun u hu hun => (h.held u hu (by omega)).1⟩ a
  rw [hen, Nat.zero_add]
  rcases Nat.lt_or_ge n 2 with hlt | hge
  · simp [Nat.not_le.mpr hlt]
  · rw [(h.held (n - 1) (by omega) (by omega)).2.2 a]

/-- An axis that is commanded is enabled for one pulse. -/
theorem Commanded.window (h : Commanded s i) (hc : a.commanded (i 0) = true) :
    Window (enable a s i) pulseWidth.toNat 2 := by
  refine ⟨fun b hb => ?_, fun k hk => ?_, ?_⟩
  · rw [h.enable_eq (by omega) (by omega), decide_eq_false (by omega), Bool.false_and]
  · rw [h.enable_eq (by omega) (by omega), decide_eq_true (by omega), hc, Bool.and_true]
  · rw [h.enable_eq (by omega) (by omega), decide_eq_false (by omega), Bool.false_and]

/-- A blocked axis is enabled all the same. -/
private theorem Commanded.blocked_enabled (h : Commanded s i) (hb : Blocked a (i 0) s) :
    enable a s i 2 = true := (h.window hb.1).high 0 (by rw [pulseWidth_toNat]; omega)

end Limits

/-- The travel limits bind the motors exactly when the command is not blocked on any axis. -/
theorem limit_binds_iff (s : SearchController) (i : ℕ → Input) (h : Commanded s i) :
    BindsMotor s i ↔ ∀ a : Axis, ¬ Blocked a (i 0) s := by
  constructor
  · intro hbind a hb
    have hlow := (hbind a).1 hb 2 (by omega) (by omega)
    rw [h.blocked_enabled hb] at hlow
    cases hlow
  · intro hfree a
    refine ⟨fun hb => absurd hb (hfree a), fun hpos => ?_⟩
    have hmoved := ((track_edge h.state (h.live 0 (by omega)) h.onTarget).pos a).mp hpos
    exact h.window hmoved.2.1

/-- The yaw command at home is driven. -/
theorem oneYawCommand_binds :
    BindsMotor (run step powerUp.resetRegs oneYawCommand 3) fun n => oneYawCommand (3 + n) := by
  have hcommanded : Commanded (run step powerUp.resetRegs oneYawCommand 3)
      fun n => oneYawCommand (3 + n) := by
    refine ⟨by decide, by decide, by decide, by decide, fun n h1 _ => ⟨?_, ?_, ?_⟩, fun n _ =>
      ⟨rfl, decide_eq_false (by omega)⟩⟩
    · exact decide_eq_false (by omega)
    · exact decide_eq_true (by omega)
    · rintro ⟨_⟩
      · exact (decide_eq_true (show 2 ≤ 3 + n by omega)).trans rfl
      · rfl
  apply (limit_binds_iff _ _ hcommanded).mpr
  rintro ⟨_⟩
  · exact fun hb => absurd hb.2 (by decide)
  · exact fun hb => absurd hb.1 (by decide)

/-- Press the return button once; a packet then commands one pitch step down. -/
def pitchDownAtHome (n : ℕ) : Input :=
  { noInput n with
    returnHome := n = 0
    onTarget := true
    rxDone := n = 3
    irPitchEn := true }

/-- At the homing position, below `-PITCH_LIMIT`, the command "down" leaves the counter
    alone and drives the motor. -/
theorem limit_not_binding :
    Commanded (run step powerUp.resetRegs pitchDownAtHome 3)
      (fun n => pitchDownAtHome (3 + n)) ∧
    (run step powerUp.resetRegs pitchDownAtHome 4).posY =
      (run step powerUp.resetRegs pitchDownAtHome 3).posY ∧
    (run step powerUp.resetRegs pitchDownAtHome 5).outPitchEn = true ∧
    ¬ BindsMotor (run step powerUp.resetRegs pitchDownAtHome 3)
      (fun n => pitchDownAtHome (3 + n)) := by
  have hcommanded : Commanded (run step powerUp.resetRegs pitchDownAtHome 3)
      fun n => pitchDownAtHome (3 + n) :=
    ⟨by decide, by decide, by decide, rfl,
      fun n _ _ => ⟨decide_eq_false (by omega), rfl, by rintro ⟨_⟩ <;> rfl⟩,
      fun n _ => ⟨rfl, decide_eq_false (by omega)⟩⟩
  refine ⟨hcommanded, by decide, by decide, fun hbind => ?_⟩
  have hblocked : Blocked .pitch (pitchDownAtHome (3 + 0))
      (run step powerUp.resetRegs pitchDownAtHome 3) := ⟨by decide, by decide⟩
  have hlow := (hbind .pitch).1 hblocked 2 (by omega) (by omega)
  rw [hcommanded.blocked_enabled hblocked] at hlow
  cases hlow

end SearchController

end Scope.Native
