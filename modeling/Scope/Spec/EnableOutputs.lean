import Scope.Spec.TravelEnvelope

/-!
# The enable outputs of the search controller

Two questions about `out_yaw_en` and `out_pitch_en`.  The reset branch does not
write them and `BOOT_UP` writes only the pitch enable, so what a reset hides of
the past depends on the yaw enable it finds.  Every mode that drives a motor
derives the enable from `pulse_timer`, but several paths write neither, so the
length of an enable pulse depends on when those paths are taken.

## Key results

- `reset_erases_iff`: a reset hides the past exactly when it finds the yaw
  enable low
- `enable_pulses_bounded`: enables are pulses of at most `PULSE_WIDTH` cycles as
  long as no path freezes one that is high
-/

namespace Scope.Native.SearchController

open Sync

/-! ## What a reset hides -/

/-- The registers without the two direction outputs, which feed nothing back. -/
def withoutDirs (s : SearchController) : SearchController :=
  { s with outYawDir := false, outPitchDir := false }

/-- The direction outputs have no influence on the branch taken, nor on the
    registers it leaves other than themselves. -/
private theorem Branch.withoutDirs {i : Input} {s s' : SearchController} (h : Branch i s s') :
    ∃ n, Branch i s.withoutDirs n ∧ n.withoutDirs = s'.withoutDirs := by
  cases h with
  | reset hr => exact ⟨_, .reset hr, rfl⟩
  | home hr hh => exact ⟨_, .home hr hh, rfl⟩
  | bootWait hl hs ht => exact ⟨_, .bootWait hl hs ht, rfl⟩
  | bootStep hl hs ht hy => exact ⟨_, .bootStep hl hs ht hy, rfl⟩
  | bootDone hl hs ht hy => exact ⟨_, .bootDone hl hs ht hy, rfl⟩
  | idle hl hs => exact ⟨_, .idle hl hs, rfl⟩
  | trackHold hl hs ho hrx => exact ⟨_, .trackHold hl hs ho hrx, rfl⟩
  | trackCommand hl hs ho hrx =>
    refine ⟨_, .trackCommand hl hs ho hrx, ?_⟩
    unfold yawAfter pitchAfter trackYaw trackPitch SearchController.withoutDirs
    split_ifs <;> rfl
  | trackLost hl hs ho hsn => exact ⟨_, .trackLost hl hs ho hsn, rfl⟩
  | trackStay hl hs ho hsn => exact ⟨_, .trackStay hl hs ho hsn, rfl⟩
  | searchFound hl hs ho => exact ⟨_, .searchFound hl hs ho, rfl⟩
  | searchOver hl hs ho hm => exact ⟨_, .searchOver hl hs ho hm, rfl⟩
  | searchWait hl hs ho hm ht =>
    refine ⟨_, .searchWait hl hs ho hm ht, ?_⟩
    unfold spiralDrive SearchController.withoutDirs
    split_ifs <;> rfl
  | searchStep h =>
    refine ⟨_, .searchStep ⟨h.live, h.state, h.lost, h.side, h.tick⟩, ?_⟩
    unfold spiralDrive spiralMove spiralCount SearchController.withoutDirs
    split_ifs <;> first | rfl | contradiction
  | returnFound hl hs ho => exact ⟨_, .returnFound hl hs ho, rfl⟩
  | returnDone hl hs ho hx hy => exact ⟨_, .returnDone hl hs ho hx hy, rfl⟩
  | returnRun hl hs ho hp => exact ⟨_, .returnRun hl hs ho hp, rfl⟩
  | forcedDone hl hs hx hy => exact ⟨_, .forcedDone hl hs hx hy, rfl⟩
  | forcedRun hl hs hp => exact ⟨_, .forcedRun hl hs hp, rfl⟩
  | unused low hl hs => exact ⟨_, .unused low hl hs, rfl⟩

/-- The direction outputs decide nothing. -/
private theorem step_withoutDirs (i : Input) (s : SearchController) :
    (s.withoutDirs.step i).withoutDirs = (s.step i).withoutDirs := by
  obtain ⟨n, hn, he⟩ := (step_branch i s).withoutDirs
  rw [hn.eq, he]

/-- Two runs that differ only in the direction outputs go on doing so. -/
private theorem run_withoutDirs {s s' : SearchController} (h : s.withoutDirs = s'.withoutDirs)
    (i : ℕ → Input) (n : ℕ) :
    (run step s i n).withoutDirs = (run step s' i n).withoutDirs :=
  run_rel (R := fun r r' : SearchController => r.withoutDirs = r'.withoutDirs) h
    (fun k ih => by rw [← step_withoutDirs, ih, step_withoutDirs]) n

/-- The first clock edge after a reset makes everything equal but the yaw enable
    and the direction outputs. -/
private theorem step_resetRegs {i : Input} (hl : Live i) {s s' : SearchController}
    (h : s.outYawEn = s'.outYawEn) :
    (s.resetRegs.step i).withoutDirs = (s'.resetRegs.step i).withoutDirs := by
  -- reset puts `pos_y` to `-BOOT_LIMIT`, so `BOOT_UP` has steps to do
  have hy : ∀ r : SearchController, r.resetRegs.posY.toInt < 0 := by
    intro r
    simp [resetRegs]
  cases ht : i.stepTick
  · rw [(Branch.bootWait (s := s.resetRegs) hl rfl ht).eq,
      (Branch.bootWait (s := s'.resetRegs) hl rfl ht).eq]
    simp only [SearchController.withoutDirs, resetRegs, timerDown, pulsing, h]
    rfl
  · rw [(Branch.bootStep (s := s.resetRegs) hl rfl ht (hy s)).eq,
      (Branch.bootStep (s := s'.resetRegs) hl rfl ht (hy s')).eq]
    simp only [SearchController.withoutDirs, resetRegs, pulsing, h]
    rfl

/-- As long as `BOOT_UP` lasts, the yaw enable is not written. -/
private theorem bootUp_outYawEn {i : Input} {s : SearchController} (hs : s.state = .bootUp)
    (hs' : (s.step i).state = .bootUp) : (s.step i).outYawEn = s.outYawEn := by
  have hb := step_branch i s
  generalize s.step i = s' at hb hs' ⊢
  cases hb with
  | reset _ => rfl
  | home _ _ => cases hs'
  | bootWait _ _ _ => rfl
  | bootStep _ _ _ _ => rfl
  | bootDone _ _ _ _ => cases hs'
  | searchStep h => rw [h.state] at hs; cases hs
  | _ => simp_all

/-- In `BOOT_UP` the yaw enable stays what it was before the reset. -/
private theorem run_bootUp_outYawEn (s : SearchController) (i : ℕ → Input) (n : ℕ)
    (hb : ∀ k ≤ n, (run step s.resetRegs i k).state = .bootUp) :
    (run step s.resetRegs i n).outYawEn = s.outYawEn := by
  induction n with
  | zero => rfl
  | succ n ih =>
    have hn := bootUp_outYawEn (hb n (by omega)) (hb (n + 1) (by omega))
    rw [run_succ, hn, ih fun k hk => hb k (by omega)]

/-- Reset in the states `s` and `s'`, then the same inputs, the return button
    released in `BOOT_UP`: behind the first edge out of reset the enables and
    `is_searching` agree, and no yaw enable outlives the reset in `BOOT_UP`. -/
def ErasesHistory (s s' : SearchController) : Prop :=
  ∀ i : ℕ → Input, (i 0).reset = false →
    (∀ n, (run step s.resetRegs i n).state = .bootUp → (i n).returnHome = false) →
    (∀ n, 1 ≤ n →
      (run step s.resetRegs i n).outYawEn = (run step s'.resetRegs i n).outYawEn ∧
      (run step s.resetRegs i n).outPitchEn = (run step s'.resetRegs i n).outPitchEn ∧
      (run step s.resetRegs i n).isSearching = (run step s'.resetRegs i n).isSearching) ∧
    ∀ r ∈ [s, s'], ∀ n, (∀ k ≤ n, (run step r.resetRegs i k).state = .bootUp) →
      (run step r.resetRegs i n).outYawEn = false

/-- All inputs low. -/
def noInput (_ : ℕ) : Input where
  reset := false
  returnHome := false
  onTarget := false
  stepTick := false
  rxDone := false
  irYawEn := false
  irYawDir := false
  irPitchEn := false
  irPitchDir := false

/-- Where the enable is low in both, the reset erases the history. -/
private theorem erasesHistory_of_low {s s' : SearchController} (h : s.outYawEn = false)
    (h' : s'.outYawEn = false) : ErasesHistory s s' := by
  intro i hr hhome
  have hl : Live (i 0) := ⟨hr, hhome 0 rfl⟩
  refine ⟨fun n hn => ?_, ?_⟩
  -- from the first edge on the two runs differ in the directions only, which nothing reads
  · obtain ⟨m, rfl⟩ : ∃ m, n = 1 + m := ⟨n - 1, by omega⟩
    have hone := step_resetRegs hl (h.trans h'.symm)
    have hrun := run_withoutDirs hone (fun k => i (1 + k)) m
    rw [run_add, run_add]
    have hyaw := congrArg SearchController.outYawEn hrun
    have hpitch := congrArg SearchController.outPitchEn hrun
    have hstate := congrArg SearchController.state hrun
    refine ⟨hyaw, hpitch, ?_⟩
    unfold isSearching
    rw [show (run step (run step s.resetRegs i 1) (fun k => i (1 + k)) m).state =
      (run step (run step s'.resetRegs i 1) (fun k => i (1 + k)) m).state from hstate]
  · intro r hr n hn
    rw [run_bootUp_outYawEn r i n hn]
    rcases List.mem_pair.mp hr with rfl | rfl
    · exact h
    · exact h'

/-- Where it is high in one of them, the next cycle tells them apart. -/
private theorem low_of_erasesHistory {s s' : SearchController} (h : ErasesHistory s s') :
    s.outYawEn = false ∧ s'.outYawEn = false := by
  obtain ⟨-, hlow⟩ := h noInput rfl fun _ _ => rfl
  -- in cycle 0 the yaw enable is still the one reset has found
  have hzero : ∀ r : SearchController, ∀ k ≤ 0,
      (run step r.resetRegs noInput k).state = .bootUp := by
    intro r k hk
    rw [Nat.le_zero.mp hk]
    rfl
  exact ⟨hlow s (by simp) 0 (hzero s), hlow s' (by simp) 0 (hzero s')⟩

/-- A reset hides what happened before it exactly when it finds the yaw enable
    low in both runs. -/
theorem reset_erases_iff (s s' : SearchController) :
    ErasesHistory s s' ↔ s.outYawEn = false ∧ s'.outYawEn = false :=
  ⟨low_of_erasesHistory, fun ⟨h, h'⟩ => erasesHistory_of_low h h'⟩

/-- Press the return button once, acquire the target and receive one yaw command. -/
def oneYawCommand (n : ℕ) : Input :=
  { noInput n with
    returnHome := n = 0
    onTarget := 2 ≤ n
    rxDone := n = 3
    irYawEn := 2 ≤ n }

/-- A reset in the middle of a yaw pulse leaves `out_yaw_en` high in `BOOT_UP`; a
    reset at rest leaves it low. -/
theorem reset_keeps_yaw_enable :
    (run step (run step powerUp.resetRegs oneYawCommand 5).resetRegs noInput 1).outYawEn = true ∧
    (run step powerUp.resetRegs noInput 1).outYawEn = false ∧
    ¬ ErasesHistory (run step powerUp.resetRegs oneYawCommand 5) powerUp.resetRegs := by
  refine ⟨by decide, by decide, fun h => ?_⟩
  have hlow := (low_of_erasesHistory h).1
  revert hlow
  decide

/-! ## How long an enable stays high -/

/-- A step tick or a received packet, the two events that can load `pulse_timer`. -/
def LoadEvent (i : Input) : Prop := i.stepTick = true ∨ i.rxDone = true

/-- The path through the current mode writes the enables of the motors it drives. -/
def Refreshes (i : Input) (s : SearchController) : Prop :=
  match s.state with
  | .bootUp | .idleWait => True
  | .tracking => i.onTarget = true
  | .searching => i.onTarget = false ∧ s.sideLimit.toNat ≤ searchMaxSide.toNat
  | .returning => i.onTarget = false ∧ ¬ (s.posX = 0 ∧ s.posY = 0)
  | .forcedReturn => ¬ (s.posX = 0 ∧ s.posY = -bootLimit)
  | .unused _ => False

/-- The clock edge freezes no enable: the return button is pressed only when the
    timer has run out and both enables are low, and an enable that is still high
    when the timer has run out is written again. -/
structure NoFreeze (i : Input) (s : SearchController) : Prop where
  home : i.returnHome = true →
    s.pulseTimer.toNat = 0 ∧ s.outYawEn = false ∧ s.outPitchEn = false
  refresh : s.pulseTimer.toNat = 0 → (s.outYawEn = true ∨ s.outPitchEn = true) → Refreshes i s

/-- The yaw enable is low in `BOOT_UP`, both are low in an unused encoding. -/
structure RestingEnables (s : SearchController) : Prop where
  bootUp : s.state = .bootUp → s.outYawEn = false
  unused : ∀ low, s.state = .unused low → s.outYawEn = false ∧ s.outPitchEn = false

/-- A clock edge without reset leaves the enables of `IDLE_WAIT` low. -/
private theorem step_restingEnables {i : Input} {s : SearchController} (hr : i.reset = false)
    (h : RestingEnables s) : RestingEnables (s.step i) := by
  have hb := step_branch i s
  generalize s.step i = s' at hb ⊢
  cases hb with
  | reset hr' => rw [hr] at hr'; cases hr'
  | bootWait _ hs _ => exact ⟨fun _ => h.bootUp hs, fun low h' => by simp_all⟩
  | bootStep _ hs _ _ => exact ⟨fun _ => h.bootUp hs, fun low h' => by simp_all⟩
  | idle _ hs => constructor <;> intros <;> simp_all
  | searchStep ht =>
    have hs := ht.state
    constructor <;> intros <;> simp_all
  | unused low _ hs => exact ⟨fun h' => by simp_all, fun low' h' => h.unused low' h'⟩
  | _ => constructor <;> intros <;> simp_all

/-- An enable is high only if the timer was running one cycle earlier. -/
private theorem pulsing_of_enable {i : Input} {s : SearchController} (hr : i.reset = false)
    (hrest : RestingEnables s) (hf : NoFreeze i s)
    (hen : (s.step i).outYawEn = true ∨ (s.step i).outPitchEn = true) :
    0 < s.pulseTimer.toNat := by
  by_contra hz
  have hzero : s.pulseTimer.toNat = 0 := by omega
  have hp : s.pulsing = false := decide_eq_false (by omega)
  -- with the timer at zero a branch that writes the enables writes them low
  have hrefresh := hf.refresh hzero
  have hb := step_branch i s
  generalize s.step i = s' at hb hen
  cases hb with
  | reset hr' => rw [hr] at hr'; cases hr'
  | home _ hh => have := hf.home hh; simp_all
  | bootWait _ hs _ => have := hrest.bootUp hs; simp_all
  | bootStep _ hs _ _ => have := hrest.bootUp hs; simp_all
  | bootDone _ hs _ _ => have := hrest.bootUp hs; simp_all
  | trackLost _ hs ho _ => simp_all [Refreshes]
  | trackStay _ hs ho _ => simp_all [Refreshes]
  | searchFound _ hs ho => simp_all [Refreshes]
  | searchOver _ hs ho hm => simp only [Refreshes, hs] at hrefresh; have := hrefresh hen; omega
  | searchWait _ _ _ _ _ => unfold spiralDrive at hen; split_ifs at hen <;> simp_all
  | searchStep _ => unfold spiralDrive at hen; split_ifs at hen <;> simp_all
  | returnFound _ hs ho => simp_all [Refreshes]
  | returnDone _ hs ho hx hy => simp_all [Refreshes]
  | forcedDone _ hs hx hy => simp_all [Refreshes]
  | unused low _ hs => have := hrest.unused low hs; simp_all
  | _ => simp_all

/-- The timer counts down unless an event loads it. -/
private theorem pulseTimer_step {i : Input} {s : SearchController} (hr : i.reset = false)
    (hf : NoFreeze i s) :
    (s.step i).pulseTimer.toNat ≤ s.pulseTimer.toNat - 1 ∨
      LoadEvent i ∧ (s.step i).pulseTimer.toNat ≤ 50_000 := by
  -- the branches either count down, clear the timer or load it with an event
  have hdown := s.timerDown_toNat
  have hb := step_branch i s
  generalize s.step i = s' at hb ⊢
  cases hb with
  | reset hr' => rw [hr] at hr'; cases hr'
  | home _ hh => have := hf.home hh; left; simp only; omega
  | bootStep _ _ ht _ => exact .inr ⟨.inl ht, by simp⟩
  | trackCommand _ _ _ hrx => exact .inr ⟨.inr hrx, by simp⟩
  | trackLost _ _ _ _ => left; simp
  | searchStep h => exact .inr ⟨.inl h.tick, by simp⟩
  | returnRun _ _ _ _ =>
    cases ht : i.stepTick
    · left; simp only [Bool.false_eq_true, if_false]; omega
    · exact .inr ⟨.inl ht, by simp⟩
  | forcedRun _ _ _ =>
    cases ht : i.stepTick
    · left; simp only [Bool.false_eq_true, if_false]; omega
    · exact .inr ⟨.inl ht, by simp⟩
  | _ => left; simp only; omega

section Pulses

variable {s : SearchController} {i : ℕ → Input}

/-- While the timer runs, the event that loaded it is recent enough. -/
private theorem event_of_pulsing (ht : s.pulseTimer.toNat = 0) (hr : ∀ n, (i n).reset = false)
    (hf : ∀ n, NoFreeze (i n) (run step s i n)) (n : ℕ)
    (hp : 0 < (run step s i n).pulseTimer.toNat) :
    ∃ e < n, LoadEvent (i e) ∧ (run step s i n).pulseTimer.toNat + n ≤ e + 50_001 := by
  induction n with
  | zero => rw [run_zero] at hp; omega
  | succ n ih =>
    rw [run_succ] at hp ⊢
    rcases pulseTimer_step (hr n) (hf n) with h | ⟨he, h⟩
    · obtain ⟨e, hen, hev, hle⟩ := ih (by omega)
      exact ⟨e, by omega, hev, by omega⟩
    · exact ⟨n, by omega, he, by omega⟩

/-- The timer never runs for more than `PULSE_WIDTH` cycles in a row. -/
private theorem pulsing_bounded (ht : s.pulseTimer.toNat = 0) (hr : ∀ n, (i n).reset = false)
    (hf : ∀ n, NoFreeze (i n) (run step s i n))
    (hspace : ∀ m n, m < n → LoadEvent (i m) → LoadEvent (i n) →
      n - m > pulseWidth.toNat + 2)
    {a len : ℕ} (hp : ∀ k < len, 0 < (run step s i (a + k)).pulseTimer.toNat) :
    len ≤ pulseWidth.toNat := by
  by_contra hlong
  rw [pulseWidth_toNat] at hlong
  -- the event that keeps the timer running at the end of the stretch lies in the stretch,
  obtain ⟨e, hea, he, hle⟩ := event_of_pulsing ht hr hf (a + 50_000) (hp 50_000 (by omega))
  have hlast := hp 50_000 (by omega)
  -- where the timer is already running for an earlier event
  have hrunning := hp (e - a) (by omega)
  rw [show a + (e - a) = e by omega] at hrunning
  obtain ⟨e', hlt, he', hle'⟩ := event_of_pulsing ht hr hf e hrunning
  have hgap := hspace e' e hlt he' he
  rw [pulseWidth_toNat] at hgap
  omega

/-- Step enables are pulses of at most `PULSE_WIDTH` cycles in every run that
    freezes none. -/
theorem enable_pulses_bounded (hyaw : s.outYawEn = false) (hpitch : s.outPitchEn = false)
    (ht : s.pulseTimer.toNat = 0) (hr : ∀ n, (i n).reset = false)
    (hspace : ∀ m n, m < n → LoadEvent (i m) → LoadEvent (i n) →
      n - m > pulseWidth.toNat + 2)
    (hf : ∀ n, NoFreeze (i n) (run step s i n)) (a len : ℕ) :
    ((∀ k < len, (run step s i (a + k)).outYawEn = true) → len ≤ pulseWidth.toNat) ∧
    ((∀ k < len, (run step s i (a + k)).outPitchEn = true) → len ≤ pulseWidth.toNat) := by
  have hrest : ∀ n, RestingEnables (run step s i n) := fun n =>
    run_inv (C := fun j _ => j.reset = false) ⟨fun _ => hyaw, fun _ _ => ⟨hyaw, hpitch⟩⟩
      (fun j r h hj => step_restingEnables hj h) hr n
  -- an enable that is high in `n` has the timer running in `n - 1`
  have hone : ∀ n, (run step s i n).outYawEn = true ∨ (run step s i n).outPitchEn = true →
      1 ≤ n ∧ 0 < (run step s i (n - 1)).pulseTimer.toNat := by
    intro n hn
    cases n with
    | zero => simp [hyaw, hpitch] at hn
    | succ n => exact ⟨by omega, pulsing_of_enable (hr n) (hrest n) (hf n) hn⟩
  have hwindow : (∀ k < len, (run step s i (a + k)).outYawEn = true ∨
      (run step s i (a + k)).outPitchEn = true) → len ≤ pulseWidth.toNat := by
    intro h
    rcases Nat.eq_zero_or_pos len with h0 | hpos
    · omega
    · have ha := (hone a (h 0 hpos)).1
      refine pulsing_bounded (a := a - 1) ht hr hf hspace fun k hk => ?_
      have := (hone (a + k) (h k hk)).2
      rwa [show a + k - 1 = a - 1 + k by omega] at this
  exact ⟨fun h => hwindow fun k hk => .inl (h k hk), fun h => hwindow fun k hk => .inr (h k hk)⟩

end Pulses

/-- One step tick in the first cycle. -/
def oneTick (n : ℕ) : Input := { noInput n with stepTick := n = 0 }

/-- A single tick does not end booting. -/
private theorem oneTick_bootUp (n : ℕ) :
    (run step powerUp.resetRegs oneTick n).state = .bootUp := by
  induction n with
  | zero => rfl
  | succ n ih =>
    have hl : Live (oneTick n) := ⟨rfl, rfl⟩
    rw [run_succ]
    -- one boot step, and then no tick to take another
    rcases Nat.eq_zero_or_pos n with rfl | hn
    · rw [(Branch.bootStep hl ih rfl (by decide)).eq, ih]
    · rw [(Branch.bootWait hl ih (decide_eq_false (by omega))).eq, ih]

/-- The pulse of a boot step comes to its end. -/
theorem oneTick_pulses_bounded :
    ¬ ∀ k < 50_001, (run step powerUp.resetRegs oneTick (2 + k)).outPitchEn = true := by
  intro h
  have hfree : ∀ n, NoFreeze (oneTick n) (run step powerUp.resetRegs oneTick n) := by
    refine fun n => ⟨fun hh => ?_, fun _ _ => ?_⟩
    · cases hh
    · simp only [Refreshes, oneTick_bootUp n]
  have hspace : ∀ m n, m < n → LoadEvent (oneTick m) → LoadEvent (oneTick n) →
      n - m > pulseWidth.toNat + 2 := by
    rintro m n hmn (h | h) (h' | h') <;> simp_all [oneTick, noInput]
  have hbound := (enable_pulses_bounded rfl rfl rfl (fun _ => rfl) hspace hfree 2 50_001).2 h
  rw [pulseWidth_toNat] at hbound
  omega

/-- Hold the return button from the cycle in which the first pulse starts. -/
def heldHome (n : ℕ) : Input := { oneTick n with returnHome := 2 ≤ n }

/-- With the button held the enable stays high. -/
private theorem heldHome_outPitchEn (k : ℕ) :
    (run step powerUp.resetRegs heldHome (2 + k)).outPitchEn = true := by
  induction k with
  | zero => decide
  | succ k ih =>
    have hh : (heldHome (2 + k)).returnHome = true := decide_eq_true (by omega)
    rw [← Nat.add_assoc, run_succ, (Branch.home rfl hh).eq]
    exact ih

/-- Holding the return button during a pulse keeps the enable high for longer than
    `PULSE_WIDTH`: from cycle 2 on for one cycle longer, and on. -/
theorem held_button_stretches_pulse :
    powerUp.resetRegs.outYawEn = false ∧ powerUp.resetRegs.outPitchEn = false ∧
    powerUp.resetRegs.pulseTimer = 0 ∧
    (∀ n, (heldHome n).reset = false) ∧
    (∀ m n, m < n → LoadEvent (heldHome m) → LoadEvent (heldHome n) →
      n - m > pulseWidth.toNat + 2) ∧
    (run step powerUp.resetRegs heldHome 1).outPitchEn = false ∧
    ∀ k < pulseWidth.toNat + 1,
      (run step powerUp.resetRegs heldHome (2 + k)).outPitchEn = true := by
  refine ⟨rfl, rfl, rfl, fun _ => rfl, ?_, by decide, fun k _ => heldHome_outPitchEn k⟩
  -- there is one event in the whole run
  rintro m n hmn (h | h) (h' | h') <;> simp_all [heldHome, oneTick, noInput]

end Scope.Native.SearchController
