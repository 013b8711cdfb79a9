import Scope.Spec.ControllerStep

/-!
# Travel envelope of the search controller

The travel limits are checked in `TRACKING` only.  Booting and homing move
towards a point inside the envelope, so the one branch that can carry the
position out of it is a spiral step, which looks at no limit.

## Key results

- `step_envelope` / `withinTravel_of_step`: one clock edge keeps the envelope
  exactly when it is no spiral step off the edge of it
- `envelope_iff_withinTravel`: a run from reset stays inside as long as no such
  step is taken
- `search_leaves_envelope`: such a run exists
-/

namespace Scope.Native.SearchController

open Sync

/-- The position is within the travel limits of both axes. -/
structure Envelope (s : SearchController) : Prop where
  left : -yawLimit.toInt ≤ s.posX.toInt
  right : s.posX.toInt ≤ yawLimit.toInt
  down : -bootLimit.toInt ≤ s.posY.toInt
  up : s.posY.toInt ≤ pitchLimit.toInt

instance (s : SearchController) : Decidable (Envelope s) :=
  decidable_of_iff
    (-yawLimit.toInt ≤ s.posX.toInt ∧ s.posX.toInt ≤ yawLimit.toInt ∧
      -bootLimit.toInt ≤ s.posY.toInt ∧ s.posY.toInt ≤ pitchLimit.toInt)
    ⟨fun ⟨h₁, h₂, h₃, h₄⟩ => ⟨h₁, h₂, h₃, h₄⟩, fun h => ⟨h.left, h.right, h.down, h.up⟩⟩

/-- The coordinate that the next spiral step changes is strictly inside its limit
    in the direction of the step. -/
structure SpiralRoom (s : SearchController) : Prop where
  right : s.spiralDir = 0 → s.posX.toInt < yawLimit.toInt
  up : s.spiralDir = 1 → s.posY.toInt < pitchLimit.toInt
  left : s.spiralDir = 2 → -yawLimit.toInt < s.posX.toInt
  down : s.spiralDir = 3 → -bootLimit.toInt < s.posY.toInt

/-- The clock edge is no spiral step off the edge of the envelope. -/
def WithinTravel (i : Input) (s : SearchController) : Prop := SearchTick i s → SpiralRoom s

/-- Within the envelope a spiral step moves the integers. -/
private theorem spiralMove_toInt (s : SearchController) (h : Envelope s) :
    (s.spiralMove s).posX.toInt = s.posX.toInt +
        (if s.spiralDir = 0 then 1 else if s.spiralDir = 2 then -1 else 0) ∧
    (s.spiralMove s).posY.toInt = s.posY.toInt +
        (if s.spiralDir = 1 then 1
         else if s.spiralDir = 0 ∨ s.spiralDir = 2 then 0 else -1) := by
  obtain ⟨hl, hr, hd, hu⟩ := h
  simp only [yawLimit_toInt, pitchLimit_toInt, bootLimit_toInt] at hl hr hd hu
  have hx := BitVec.toInt_add_one (x := s.posX) (by omega)
  have hx' := BitVec.toInt_sub_one (x := s.posX) (by omega)
  have hy := BitVec.toInt_add_one (x := s.posY) (by omega)
  have hy' := BitVec.toInt_sub_one (x := s.posY) (by omega)
  unfold spiralMove
  split_ifs <;> simp_all <;> omega

/-- Reset puts the position inside the envelope, whatever it was. -/
private theorem resetRegs_envelope (s : SearchController) : Envelope s.resetRegs := by
  constructor <;> simp [resetRegs]

/-- A step towards `(0, goal)` stays inside when the goal is inside. -/
private theorem homing_envelope {s n : SearchController} {goal : BitVec 16} {t : Bool}
    (h : Envelope s) (hlo : -266 ≤ goal.toInt) (hhi : goal.toInt ≤ 89)
    (hx : n.posX = if t then stepToward 0 s.posX else s.posX)
    (hy : n.posY = if t then stepToward goal s.posY else s.posY) : Envelope n := by
  obtain ⟨hl, hr, hd, hu⟩ := h
  simp only [yawLimit_toInt, pitchLimit_toInt, bootLimit_toInt] at hl hr hd hu
  have hx' := stepToward_toInt 0 s.posX
  have hy' := stepToward_toInt goal s.posY
  have h0 : (0 : BitVec 16).toInt = 0 := rfl
  rw [h0] at hx'
  cases t
  · constructor <;> simp [hx, hy] <;> omega
  · simp only [if_true] at hx hy
    constructor <;> simp only [hx, hy, hx', hy', yawLimit_toInt, pitchLimit_toInt,
      bootLimit_toInt] <;> split_ifs <;> omega

/-- One clock edge keeps the position inside, unless it is a spiral step off the
    edge. -/
theorem step_envelope {i : Input} {s : SearchController} (h : Envelope s)
    (hw : WithinTravel i s) : Envelope (s.step i) := by
  have hb := step_branch i s
  generalize s.step i = s' at hb ⊢
  have ⟨hl, hr, hd, hu⟩ := h
  cases hb with
  | reset _ => exact resetRegs_envelope s
  | bootStep _ _ _ hy =>
    have hy' := BitVec.toInt_add_one (x := s.posY) (by omega)
    exact ⟨hl, hr, by rw [hy']; omega, by rw [hy', pitchLimit_toInt]; omega⟩
  -- `TRACKING` checks the limit on the side to which it moves
  | trackCommand _ _ _ _ =>
    simp only [yawLimit_toInt, pitchLimit_toInt, bootLimit_toInt] at hl hr hd hu
    constructor <;> simp only [yawAfter_eq, pitchAfter_eq, commandStep_toInt, yawLimit_toInt,
      pitchLimit_toInt, bootLimit_toInt] <;> split_ifs <;> omega
  | searchStep ht =>
    have hroom := hw ht
    obtain ⟨hx', hy'⟩ := spiralMove_toInt s h
    have ⟨h0, h1, h2, h3⟩ := hroom
    rcases s.spiralDir_cases with hs | hs | hs | hs <;> simp [hs] at hx' hy' h0 h1 h2 h3 <;>
      constructor <;> simp_all <;> omega
  | returnRun _ _ _ _ => exact homing_envelope h (by decide) (by decide) rfl rfl
  | forcedRun _ _ _ => exact homing_envelope h (by decide) (by decide) rfl rfl
  -- the other paths move nothing
  | _ => exact ⟨hl, hr, hd, hu⟩

/-- A spiral step without room leaves the envelope at once. -/
theorem withinTravel_of_step {i : Input} {s : SearchController} (h : Envelope s)
    (h' : Envelope (s.step i)) : WithinTravel i s := by
  intro ht
  obtain ⟨hx, hy⟩ := spiralMove_toInt s h
  rw [(Branch.searchStep ht).eq] at h'
  obtain ⟨hl, hr, hd, hu⟩ := h'
  simp only [hx, hy] at hl hr hd hu
  constructor <;> intro hs <;> simp [hs] at hl hr hd hu ⊢ <;> omega

/-- In a run from reset, the position has stayed within the travel limits exactly
    when no spiral step was taken off the edge of the envelope. -/
theorem envelope_iff_withinTravel (s : SearchController) (i : ℕ → Input) (N : ℕ) :
    (∀ n ≤ N, Envelope (run step s.resetRegs i n)) ↔
      ∀ n < N, WithinTravel (i n) (run step s.resetRegs i n) := by
  constructor
  · intro h n hn
    exact withinTravel_of_step (h n (by omega)) (h (n + 1) (by omega))
  · intro h n hn
    induction n with
    | zero => exact resetRegs_envelope s
    | succ n ih => exact step_envelope (ih (by omega)) (h n (by omega))

/-! ## A search that leaves the envelope -/

/-- Press the return button once, acquire the target below the horizon and lose
    it again; the spiral then steps in every cycle. -/
def lostBelowHorizon (n : ℕ) : Input where
  reset := false
  returnHome := n = 0
  onTarget := n = 2 ∨ n = 3
  stepTick := true
  rxDone := false
  irYawEn := false
  irYawDir := false
  irPitchEn := false
  irPitchDir := false

/-- The registers after power-up, all low. -/
def powerUp : SearchController where
  state := .bootUp
  posX := 0
  posY := 0
  sideLimit := 0
  stepCount := 0
  spiralDir := 0
  pulseTimer := 0
  hasSeenTarget := false
  outYawEn := false
  outYawDir := false
  outPitchEn := false
  outPitchDir := false

/-- The fourth leg of the spiral carries `pos_y` below `-BOOT_LIMIT`. -/
theorem search_leaves_envelope :
    ¬ Envelope (run step powerUp.resetRegs lostBelowHorizon 21) := by
  decide

end Scope.Native.SearchController
