import Scope.Spec.BoardReckoning

/-!
# A line that goes dead

Nothing on the transmitter board notices that no packets come any more.  The last
byte stays, and `on_target` with it, so the controller either goes on tracking or
gives the target up for good.  In both cases the motors come to a stop.

## Key results

- `rxDone_of_silent`: behind the timeout no byte comes
- `Holds`: a clock edge that lets the steps under way run out
- `atRest_of_holds`: two periods later the motors stand still
- `silent_line_stops`: the whole board
-/

namespace Scope.Native

open Sync StepPulse

namespace SearchController

/-! ## Edges that count no step -/

/-- The clock edge counts no step and lets those under way run out. -/
structure Holds (c c' : SearchController) : Prop where
  timer : c'.pulseTimer.toNat = c.pulseTimer.toNat - 1
  pos : ∀ a : Axis, a.pos c' = a.pos c
  en : ∀ a : Axis, a.en c' = true → 0 < c.pulseTimer.toNat

section Holds

variable {c : SearchController} {j : Input} {p : BitVec 16 × BitVec 16}

/-- Tracking without a new byte. -/
private theorem holds_tracking (hl : Live j) (hs : c.state = .tracking) (ho : j.onTarget = true)
    (hrx : j.rxDone = false) : Holds c (c.step j) := by
  rw [(Branch.trackHold hl hs ho hrx).eq]
  refine ⟨c.timerDown_toNat, fun a => ?_, fun a hen => ?_⟩
  · cases a <;> rfl
  · cases a <;> simp only [Axis.en, Bool.and_eq_true] at hen <;>
      exact of_decide_eq_true hen.1

/-- At rest without a target. -/
private theorem holds_resting (hl : Live j) (h : Resting p c) (ho : j.onTarget = false)
    (hlow : ∀ a : Axis, a.en c = false) : Holds c (c.step j) := by
  obtain hs | hs := h.state
  · rw [(Branch.idle hl hs).eq]
    refine ⟨c.timerDown_toNat, fun a => ?_, fun a hen => ?_⟩
    · cases a <;> rfl
    · cases a <;> cases hen
  · rw [(Branch.trackStay hl hs ho h.unseen).eq]
    refine ⟨c.timerDown_toNat, fun a => ?_, fun a hen => ?_⟩
    · cases a <;> rfl
    · have hkept := hlow a
      cases a
      · exact absurd (hen.symm.trans hkept) (by decide)
      · exact absurd (hen.symm.trans hkept) (by decide)

/-- The timer is never loaded with more than `PULSE_WIDTH`. -/
private theorem pulseTimer_le (h : c.pulseTimer.toNat ≤ 50_000) (j : Input) :
    (c.step j).pulseTimer.toNat ≤ 50_000 := by
  have hdown : c.timerDown.toNat ≤ 50_000 := by
    rw [c.timerDown_toNat]
    omega
  have hload : ∀ load, (if load = true then pulseWidth else c.timerDown).toNat ≤ 50_000 := by
    intro load
    cases load
    · exact hdown
    · exact le_rfl
  have hb := step_branch j c
  generalize c.step j = c' at hb
  cases hb with
  | reset _ => exact Nat.zero_le _
  | home _ _ => exact h
  | bootStep _ _ _ _ => exact le_rfl
  | trackCommand _ _ _ _ => exact le_rfl
  | trackLost _ _ _ _ => exact Nat.zero_le _
  | searchStep _ => exact le_rfl
  | returnRun _ _ _ _ => exact hload _
  | forcedRun _ _ _ => exact hload _
  | _ => exact hdown

end Holds

end SearchController

open SearchController IrRx

/-- While the steps under way run out, they grow older. -/
theorem SearchController.Holds.aged {g : Gimbal} {c : SearchController} {A : ℕ}
    (hc : Holds g.controller0 c) (hφ : g.simpledriver.InPhase) (h : g.Aged A) :
    (g.next c).Aged (A + 1) := by
  intro a
  rw [Gimbal.untilRise_next hφ, Gimbal.line_next hφ, Gimbal.next_controller0, hc.timer]
  exact (h a).run hφ.bounds.1 (hc.en a)

section Line

variable {y : LaserTop} {home l : ℕ → Bool} {A E N P n : ℕ}

/-! ## The receiver -/

/-- Whatever the receiver is at, behind the timeout no byte comes any more. -/
theorem rxDone_of_silent (hsilent : ∀ k, A ≤ k → k < N → l k = true) (hn : A + 500_004 < n)
    (hnN : n ≤ N) : (laser y home l n).rxDone = false := by
  have hhigh : ∀ k, A ≤ k → k < N →
      syncLevel y.r0 (fun n => { irInput := l n, reset := false }) (k + 2) = true := hsilent
  rw [LaserTop.rxDone, laser_fsm]
  generalize syncLevel y.r0 (fun n => { irInput := l n, reset := false }) = w at hhigh ⊢
  have hw : ∀ k, A + 2 ≤ k → k < n → w k = true := by
    intro k hk hkn
    obtain ⟨k, rfl⟩ := Nat.exists_eq_add_of_le' (show 2 ≤ k by omega)
    exact hhigh k (by omega) (by omega)
  obtain ⟨T, hT1, hT, hidle⟩ := idle_of_high (s := receive y.r0.fsm w (A + 2))
    (w := fun k => w (A + 2 + k)) fun k hk => hw _ (by omega) (by rw [timeout] at hk; omega)
  rw [timeout] at hT
  rw [← receive_add] at hidle
  obtain ⟨u, rfl⟩ := Nat.exists_eq_add_of_le (show A + 2 + T ≤ n by omega)
  -- from then on it waits for a falling edge
  have hprev : (receive y.r0.fsm w (A + 2 + T)).prevLevel = true := by
    obtain ⟨t, rfl⟩ := Nat.exists_eq_add_of_le' hT1
    rw [← Nat.add_assoc, receive_succ, advance_prevLevel]
    exact hw _ (by omega) (by omega)
  have hwait := idle_hold hprev (w := fun k => w (A + 2 + T + k)) (a := 0) (b := u) hidle
    (Nat.zero_le u) fun k _ hk hedge => by
      rw [hw _ (by omega) (by omega)] at hedge
      exact absurd hedge.1 (by decide)
  rw [receive_add]
  exact hwait.2 u (by omega) le_rfl

/-- The last byte stays. -/
private theorem irData_of_silent (hsilent : ∀ k, A ≤ k → k < N → l k = true) (hn : A + 500_004 ≤ n)
    (hnN : n ≤ N) : (laser y home l n).irData = (laser y home l (A + 500_004)).irData :=
  irData_quiet hn fun _ hk hkn => rxDone_of_silent hsilent hk (hkn.trans hnN)

/-! ## The motors -/

/-- The divider of the driver stays in its phases. -/
theorem laser_inPhase (h : y.gimbal.simpledriver.InPhase) (n : ℕ) :
    (laser y home l n).gimbal.simpledriver.InPhase := by
  induction n with
  | zero => exact h
  | succ n ih => exact (Driver.step_spec ih _ _).1

/-- The timer never gets above its pulse width. -/
private theorem laser_pulseTimer (h : y.gimbal.controller0.pulseTimer.toNat ≤ 50_000) (n : ℕ) :
    (controller y home l n).pulseTimer.toNat ≤ 50_000 := by
  induction n with
  | zero => exact h
  | succ n ih => exact pulseTimer_le ih _

/-- The steps under way grow older, and the position stays. -/
private theorem aged_of_holds (hg : Gimbal.FromReset y.gimbal)
    (hholds : ∀ k, P ≤ k → k < N → Holds (controller y home l k) (controller y home l (k + 1)))
    (d : ℕ) (hd : P + d ≤ N) : (laser y home l (P + d)).gimbal.Aged (d + 1) ∧
      ∀ a : Axis, a.pos (controller y home l (P + d)) = a.pos (controller y home l P) := by
  have hphase : ∀ k, (laser y home l k).gimbal.simpledriver.InPhase := laser_inPhase hg.phase
  induction d with
  | zero =>
    have htimer : y.gimbal.controller0.pulseTimer.toNat ≤ 50_000 := by
      rw [hg.atRest.timer]
      exact Nat.zero_le _
    exact ⟨fun _ => .fresh (laser_pulseTimer htimer P) (hphase P).bounds.2, fun _ => rfl⟩
  | succ d ih =>
    obtain ⟨haged, hpos⟩ := ih (by omega)
    have hc := hholds (P + d) (by omega) (by omega)
    exact ⟨hc.aged (hphase _) haged, fun a => (hc.pos a).trans (hpos a)⟩

/-- Two periods later the motors stand still. -/
theorem atRest_of_holds (hg : Gimbal.FromReset y.gimbal)
    (hholds : ∀ k, P ≤ k → k < N → Holds (controller y home l k) (controller y home l (k + 1)))
    (hn : P + 100_001 ≤ n) (hnN : n ≤ N) : (laser y home l n).gimbal.AtRest ∧
      ∀ a : Axis, a.pos (controller y home l n) = a.pos (controller y home l P) := by
  obtain ⟨d, rfl⟩ := Nat.exists_eq_add_of_le (show P ≤ n by omega)
  obtain ⟨haged, hpos⟩ := aged_of_holds hg hholds d hnN
  exact ⟨haged.settled (laser_inPhase hg.phase _) (by omega), hpos⟩

/-- A motor whose step line stays high gets no pulse. -/
theorem sent_of_high {a : Axis}
    (hhigh : ∀ k, E ≤ k → k ≤ n → a.line (laser y home l k).gimbal.simpledriver = true)
    (hn : E ≤ n) (b : Bool) :
    y.gimbal.sent (gimbalPorts y home l) a b n = y.gimbal.sent (gimbalPorts y home l) a b E := by
  induction n, hn using Nat.le_induction with
  | base => rfl
  | succ n hn ih =>
    have hline := hhigh (n + 1) (by omega) le_rfl
    rw [laser_gimbal] at hline
    rw [← ih fun k hk hkn => hhigh k hk (by omega), Gimbal.sent, Gimbal.sent, emitted, emitted,
      Nat.count_succ, hline]
    simp

/-! ## The board -/

/-- What the controller sees behind the timeout: the last byte, and no button. -/
private theorem ports_of_silent (hsilent : ∀ k, A ≤ k → k < N → l k = true)
    (hhome : ∀ k, A ≤ k → k < N → home k = false) (hn : A + 500_004 ≤ n) (hnN : n < N) :
    Live (ports y home l n) ∧
      (ports y home l n).onTarget = (laser y home l (A + 500_004)).onTarget :=
  ⟨ports_live (hhome n (by omega) hnN),
    congrArg (fun d => d.getLsbD 4) (irData_of_silent hsilent hn hnN.le)⟩

/-- With the target in the last byte the controller goes on tracking. -/
private theorem tracks_of_silent (hsound : Sound y.gimbal.controller0)
    (hsilent : ∀ k, A ≤ k → k < N → l k = true) (hhome : ∀ k, A ≤ k → k < N → home k = false)
    (ho : (laser y home l (A + 500_004)).onTarget = true)
    (hn : A + 500_004 + 46_037 * 500_002 < n) (hnN : n ≤ N) :
    (controller y home l n).state = .tracking := by
  have hticks := ticks_recur y home l (A + 500_004) 46_037
  have hrank := toTarget_le (controller y home l (A + 500_004))
  rw [controller_run] at hrank
  rw [controller_run]
  refine (tracked_of_seen (i := ports y home l) (m := A + 500_004 + 46_037 * 500_002)
    (sound_from hsound _ _) (fun k hk hkN => ?_) (Nat.le_add_right _ _) (by omega) hn hnN).1
  obtain ⟨hl, hport⟩ := ports_of_silent (y := y) hsilent hhome hk hkN
  exact ⟨hl, hport.trans ho⟩

/-- Without it the controller gives the target up. -/
private theorem rests_of_silent (hsound : Sound y.gimbal.controller0)
    (hsilent : ∀ k, A ≤ k → k < N → l k = true) (hhome : ∀ k, A ≤ k → k < N → home k = false)
    (ho : (laser y home l (A + 500_004)).onTarget = false)
    (hn : A + 500_004 + 46_037 * 500_002 < n) (hnN : n ≤ N) :
    Resting (controller y home l (A + 500_004)).parking (controller y home l n) ∧
      ∀ a : Axis, a.en (controller y home l n) = false := by
  have hticks := ticks_recur y home l (A + 500_004) 46_037
  have hrank := toRest_le (controller y home l (A + 500_004))
  rw [controller_run] at hrank
  rw [controller_run, controller_run]
  obtain ⟨hrest, hyaw, hpitch⟩ := rests_of_lost (i := ports y home l)
    (m := A + 500_004 + 46_037 * 500_002) (sound_from hsound _ _) (fun k hk hkN => by
      obtain ⟨hl, hport⟩ := ports_of_silent (y := y) hsilent hhome hk hkN
      exact ⟨hl, hport.trans ho⟩)
    (Nat.le_add_right _ _) (by omega) hn hnN
  refine ⟨hrest, fun a => ?_⟩
  cases a
  · exact hyaw
  · exact hpitch

/-- Either way no step is counted any more. -/
private theorem holds_of_silent (hsound : Sound y.gimbal.controller0)
    (hsilent : ∀ k, A ≤ k → k < N → l k = true) (hhome : ∀ k, A ≤ k → k < N → home k = false)
    (hn : A + 500_004 + 46_037 * 500_002 < n) (hnN : n < N) :
    Holds (controller y home l n) (controller y home l (n + 1)) := by
  obtain ⟨hl, hport⟩ := ports_of_silent (y := y) hsilent hhome (show A + 500_004 ≤ n by omega) hnN
  cases ho : (laser y home l (A + 500_004)).onTarget
  · obtain ⟨hrest, hlow⟩ := rests_of_silent hsound hsilent hhome ho hn hnN.le
    exact holds_resting hl hrest (hport.trans ho) hlow
  · have hrx : (laser y home l n).rxDone = false :=
      rxDone_of_silent hsilent (by omega) hnN.le
    exact holds_tracking hl (tracks_of_silent hsound hsilent hhome ho hn hnN.le)
      (hport.trans ho) hrx

/-- **A dead line.**  From a reset, whatever has come in on the line before: when it is silent
    from cycle `A` on and nobody presses the return button, the last byte is never replaced, and
    46,039 tick periods later the motors stand still, for as long as the silence goes on.  With
    `on_target` set in that byte the controller stays in `TRACKING`, else it waits at its
    resting place. -/
theorem silent_line_stops (y : LaserTop) (home l : ℕ → Bool) (hg : Gimbal.FromReset y.gimbal)
    (A N : ℕ) (hsilent : ∀ k, A ≤ k → k < N → l k = true)
    (hhome : ∀ k, A ≤ k → k < N → home k = false) (n : ℕ)
    (hn : A + 46_039 * 500_002 ≤ n) (hnN : n ≤ N) :
    let i := gimbalPorts y home l
    let B := A + 500_004
    let E := A + 46_039 * 500_002
    (∀ k, B ≤ k → k ≤ N → (laser y home l k).irData = (laser y home l B).irData) ∧
    (laser y home l n).gimbal.AtRest ∧
    (∀ a : Axis, a.pos (controller y home l n) = a.pos (controller y home l E)) ∧
    (∀ (a : Axis) (b : Bool), y.gimbal.sent i a b n = y.gimbal.sent i a b E) ∧
    ((laser y home l B).onTarget = true → (controller y home l n).state = .tracking) ∧
    ((laser y home l B).onTarget = false →
      Resting (controller y home l B).parking (controller y home l n)) := by
  intro i B E
  have hsound : Sound y.gimbal.controller0 := by
    obtain ⟨s, hs⟩ := hg.reset
    rw [hs]
    exact sound_resetRegs s
  -- from here on no step is counted, so two periods later everything is over
  have hstill : ∀ m, E ≤ m → m ≤ N → (laser y home l m).gimbal.AtRest ∧
      ∀ a : Axis, a.pos (controller y home l m) =
        a.pos (controller y home l (B + 46_037 * 500_002 + 1)) :=
    fun m hm hmN => atRest_of_holds hg
      (fun k hk hkN => holds_of_silent hsound hsilent hhome hk hkN) (by omega) hmN
  refine ⟨fun k => irData_of_silent hsilent, (hstill n hn hnN).1, fun a => ?_, fun a b => ?_,
    fun ho => tracks_of_silent hsound hsilent hhome ho (by omega) hnN,
    fun ho => (rests_of_silent hsound hsilent hhome ho (by omega) hnN).1⟩
  · exact ((hstill n hn hnN).2 a).trans ((hstill E le_rfl (by omega)).2 a).symm
  · exact sent_of_high (fun k hk hkn => ((hstill k hk (hkn.trans hnN)).1.axis a).2) hn b

/-- A board that never hears anything ends up with its motors at rest. -/
theorem resetLaser_stops :
    (laser resetLaser (fun _ => false) (fun _ => true) 30_000_000_000).gimbal.AtRest :=
  (silent_line_stops resetLaser (fun _ => false) (fun _ => true)
    (Gimbal.afterReset_fromReset false) 0 30_000_000_000 (fun _ _ _ => rfl) (fun _ _ _ => rfl)
    30_000_000_000 (by decide) le_rfl).2.1

end Line

end Scope.Native
