import Scope.Spec.Homing

/-!
# The modes of the search controller

Whatever happens behind a reset, `has_seen_target` and the spiral counters belong
to the mode that the controller is in.  So a target that stays lost, or stays in
sight, decides where the controller ends up: each step tick brings it closer, and
it does not leave again.

## Key results

- `Sound.step` / `sound_run` / `mode_registers`: what holds in every mode, behind a reset
- `Sound.step_lost` / `lost_target_rests`: without a target the controller comes to rest
- `step_seen` / `steady_target_tracked`: with a target in sight it comes to track it
-/

namespace Scope.Native.SearchController

open Sync SquareSpiral

/-! ## What holds in every mode -/

/-- The registers belong to the mode. -/
structure Sound (c : SearchController) : Prop where
  used : ∀ low, c.state ≠ .unused low
  unseen : c.state = .bootUp ∨ c.state = .idleWait → c.hasSeenTarget = false
  seen : c.state = .searching ∨ c.state = .returning → c.hasSeenTarget = true
  spot : c.state = .searching → ∃ p : Spot 3, OnSpot p c ∧ p.index ≤ 13_266
  low : c.state = .tracking → c.hasSeenTarget = false →
    c.outYawEn = false ∧ c.outPitchEn = false

section Sound

variable {c : SearchController} {j : Input} {i : ℕ → Input} {r n : ℕ}

/-- A reset leaves the registers of `BOOT_UP`. -/
theorem sound_resetRegs (c : SearchController) : Sound c.resetRegs where
  used _ h := by cases h
  unseen _ := rfl
  seen h := by obtain h | h := h <;> cases h
  spot h := by cases h
  low h := by cases h

/-- A fresh search begins at the start of the spiral. -/
private theorem onSpot_start {c : SearchController} (hside : c.sideLimit = densityStep)
    (hdir : c.spiralDir = 0) (hcount : c.stepCount = 0) : OnSpot ⟨0, 0, by decide⟩ c :=
  ⟨by rw [hside]; rfl, by rw [hdir]; rfl, by rw [hcount]; rfl⟩

/-- A leg that is not too long is not the last. -/
private theorem index_lt_of_side {p : Spot 3} (h : OnSpot p c) (hp : p.index ≤ 13_266)
    (hside : c.sideLimit.toNat ≤ searchMaxSide.toNat) : p.leg < 132 ∧ p.index < 13_266 := by
  have hleg : p.leg < 132 := by
    obtain hleg | ⟨hleg, -⟩ := leg_of_index hp
    · exact hleg
    · have hover := h.side_over hleg
      omega
  have hend := legStart_add_le hleg
  have hin := p.inside
  exact ⟨hleg, by rw [Spot.index]; omega⟩

/-- A clock edge leaves registers that belong to the mode. -/
theorem Sound.step (h : Sound c) (j : Input) : Sound (c.step j) := by
  have hb := step_branch j c
  generalize c.step j = c' at hb
  have hused := h.used
  have hunseen := h.unseen
  have hseen := h.seen
  have hspot := h.spot
  have hlow := h.low
  cases hb with
  | reset _ => exact sound_resetRegs c
  -- the search starts over
  | trackLost _ hs _ hsn =>
    exact ⟨by simp, by simp, fun _ => hsn,
      fun _ => ⟨⟨0, 0, by decide⟩, onSpot_start rfl rfl rfl, by decide⟩, by simp⟩
  | searchWait _ hs _ _ _ =>
    obtain ⟨p, hp, hend⟩ := hspot hs
    exact ⟨hused, hunseen, hseen, fun _ => ⟨p, ⟨hp.1, hp.2, hp.3⟩, hend⟩, by simp [hs]⟩
  -- the counters walk on; a search whose last leg is over takes no step
  | searchStep ht =>
    have hs := ht.state
    obtain ⟨p, hp, hend⟩ := hspot hs
    obtain ⟨hleg, hlt⟩ := index_lt_of_side hp hend ht.side
    have hnext := hp.spiralCount hleg c rfl rfl
    have hend' : p.next.index ≤ 13_266 := by
      rw [p.index_next]
      omega
    exact ⟨hused, hunseen, hseen, fun _ => ⟨p.next, ⟨hnext.1, hnext.2, hnext.3⟩, hend'⟩,
      by simp [hs]⟩
  | idle _ hs =>
    have hsn := hunseen (.inr hs)
    cases j.onTarget <;> constructor <;> simp_all
  | _ => constructor <;> simp_all

/-- A run leaves registers that belong to the mode. -/
theorem sound_from (h : Sound c) (i : ℕ → Input) (n : ℕ) : Sound (run step c i n) :=
  run_inv (C := fun _ _ => True) h (fun j _ hr _ => hr.step j) (fun _ => trivial) n

/-- Behind a reset the registers belong to the mode. -/
theorem sound_run (s : SearchController) (hr : (i r).reset = true) (hn : r < n) :
    Sound (run step s i n) := by
  induction n, hn using Nat.le_induction with
  | base =>
    rw [run_succ, (Branch.reset hr).eq]
    exact sound_resetRegs _
  | succ n _ ih => exact ih.step (i n)

end Sound

/-- A reset in cycle 0, a step tick in every cycle, and a target that is always or never in
    sight. -/
def resetFirst (seen : Bool) (n : ℕ) : Input :=
  { everyTick n with reset := n = 0, onTarget := seen }

/-- Behind the reset the modes run. -/
private theorem resetFirst_live (seen : Bool) (n : ℕ) :
    Live (resetFirst seen (n + 1)) ∧ (resetFirst seen (n + 1)).onTarget = seen :=
  ⟨⟨rfl, rfl⟩, rfl⟩

/-- **Modes.**  Behind a reset, whatever the inputs do, the state is one of the six named
    ones.  The controller has seen no target while it boots or waits and has seen one while
    it searches or returns.  In a search `side_limit` is one of 3, 6, …, 201, and
    `step_count` has not passed it.  `TRACKING` without a target seen enables no motor. -/
theorem mode_registers (s : SearchController) (i : ℕ → Input) (r n : ℕ)
    (hr : (i r).reset = true) (hrn : r < n) :
    let c := run step s i n
    (∀ low, c.state ≠ .unused low) ∧
    (c.state = .bootUp ∨ c.state = .idleWait → c.hasSeenTarget = false) ∧
    (c.state = .searching ∨ c.state = .returning → c.hasSeenTarget = true) ∧
    (c.state = .searching → 3 ∣ c.sideLimit.toNat ∧ c.sideLimit.toNat ≤ 201 ∧
      c.stepCount.toNat < c.sideLimit.toNat) ∧
    (c.state = .tracking → c.hasSeenTarget = false →
      c.outYawEn = false ∧ c.outPitchEn = false) := by
  intro c
  have h : Sound c := sound_run s hr hrn
  refine ⟨h.used, h.unseen, h.seen, fun hs => ?_, h.low⟩
  obtain ⟨p, hp, hend⟩ := h.spot hs
  have hside := hp.sideLimit
  have hcount := hp.stepCount
  have hin := p.inside
  have hleg : p.leg ≤ 132 := by
    obtain hlt | ⟨heq, -⟩ := leg_of_index hend <;> omega
  rw [legLength] at hside hin
  exact ⟨⟨p.leg / 2 + 1, by omega⟩, by omega, by omega⟩

/-- A target that is in sight for three cycles when booting is over. -/
def glimpsed (n : ℕ) : Input :=
  { resetFirst false n with onTarget := 267 ≤ n ∧ n < 270 }

/-- The search behind it has seen a target, and its counters fit. -/
theorem glimpsed_modes : (run step lostTarget glimpsed 275).hasSeenTarget = true ∧
    3 ∣ (run step lostTarget glimpsed 275).sideLimit.toNat ∧
    (run step lostTarget glimpsed 275).sideLimit.toNat ≤ 201 ∧
    (run step lostTarget glimpsed 275).stepCount.toNat <
      (run step lostTarget glimpsed 275).sideLimit.toNat := by
  have hsearch : (run step lostTarget glimpsed 275).state = .searching := by decide +kernel
  obtain ⟨-, -, hseen, hcounters, -⟩ := mode_registers lostTarget glimpsed 0 275 rfl (by decide)
  exact ⟨hseen (.inl hsearch), hcounters hsearch⟩

/-! ## Homing, one tick at a time -/

section Distance

variable {m : Homing} {c : SearchController} {j : Input}

/-- A tick on the way home takes one from the distance. -/
private theorem distance_edge (h : m.Edge j c (c.step j)) :
    m.distance (c.step j) = m.distance c - if j.stepTick then 1 else 0 := by
  refine (distance_approach fun a => ?_).2
  rw [h.pos a]
  cases j.stepTick
  · exact (approach_zero _ _).symm
  · have hnext := approach_succ (m.goal a).toInt (a.pos c).toInt 0
    rw [approach_zero] at hnext
    exact (stepToward_toInt _ _).trans hnext.symm

/-- In front of the goal every tick leads nearer to it. -/
private theorem homing_tick (hs : c.state = m.state) (hu : m.Undisturbed j)
    (hp : ¬ (c.posX = 0 ∧ c.posY = m.goal .pitch)) :
    m.distance (c.step j) + 1 ≤ m.distance c + 1 - if j.stepTick then 1 else 0 := by
  have hd : 0 < m.distance c := Nat.pos_of_ne_zero fun h0 => hp (distance_eq_zero.mp h0)
  rw [distance_edge (homing_edge hs hu hd)]
  split_ifs <;> omega

/-- A goal that is `d` steps from the origin is in reach from everywhere. -/
private theorem distance_le {d : ℕ} (hd : (m.goal .pitch).toInt.natAbs ≤ d) (c : SearchController) :
    m.distance c ≤ 32_768 + d := by
  have hyaw : (m.goal .yaw).toInt = 0 := by cases m <;> rfl
  have hx := (Axis.yaw.pos c).le_toInt
  have hx' := (Axis.yaw.pos c).toInt_lt
  have hy := (Axis.pitch.pos c).le_toInt
  have hy' := (Axis.pitch.pos c).toInt_lt
  rw [Homing.distance, Homing.away, Homing.away, hyaw]
  omega

end Distance

/-! ## A target that stays lost -/

/-- The steps of the search that are behind. -/
def searched (c : SearchController) : ℕ := legStart 3 c.leg + c.stepCount.toNat

/-- On the spiral the steps searched are the index of the place. -/
private theorem OnSpot.searched {p : Spot 3} {c : SearchController} (h : OnSpot p c) :
    c.searched = p.index := by
  rw [SearchController.searched, h.leg, h.stepCount, Spot.index]

/-- No more step ticks than this are left until the controller rests without a target. -/
def toRest (c : SearchController) : ℕ :=
  match c.state with
  | .bootUp => (-c.posY.toInt).toNat + 1
  | .idleWait | .unused _ => 0
  | .tracking => if c.hasSeenTarget then 46_037 else 0
  | .searching => 46_036 - c.searched
  | .returning => Homing.returning.distance c + 1
  | .forcedReturn => Homing.forcedReturn.distance c + 1

/-- The position in which it rests. -/
def parking (c : SearchController) : BitVec 16 × BitVec 16 :=
  match c.state with
  | .bootUp => (c.posX, if c.posY.toInt < 0 then 0 else c.posY)
  | .idleWait | .unused _ => (c.posX, c.posY)
  | .tracking => if c.hasSeenTarget then (0, 0) else (c.posX, c.posY)
  | .searching | .returning => (0, 0)
  | .forcedReturn => (0, -bootLimit)

section Lost

variable {c : SearchController} {j : Input} {i : ℕ → Input} {s : SearchController}
  {r m n N : ℕ}

/-- The bound is 46,037 ticks in any state. -/
theorem toRest_le (c : SearchController) : c.toRest ≤ 46_037 := by
  have hret := distance_le (m := .returning) (d := 0) (by decide) c
  have hforced := distance_le (m := .forcedReturn) (d := 266) (by decide) c
  have hy := c.posY.le_toInt
  unfold toRest
  cases c.state <;> simp only
  case tracking => split_ifs <;> omega
  all_goals omega

/-- While homing it is the distance and the tick that ends it. -/
private theorem toRest_homing {m : Homing} (hs : c.state = m.state) :
    c.toRest = m.distance c + 1 := by
  cases m <;> simp [toRest, hs, Homing.state]

/-- A clock edge without a target leads nearer to the resting place, by a step for each
    tick. -/
theorem Sound.step_lost (h : Sound c) (hl : Live j) (ho : j.onTarget = false) :
    (c.step j).parking = c.parking ∧
      (c.step j).toRest ≤ c.toRest - if j.stepTick then 1 else 0 := by
  have hb := step_branch j c
  have hhome := fun m => homing_tick (m := m) (c := c) (j := j)
  have hret := distance_le (m := .returning) (d := 0) (by decide) c
  have htick : (if j.stepTick then 1 else 0) ≤ 1 := by split_ifs <;> omega
  generalize c.step j = c' at hb hhome
  -- one case for each branch: with a tick the rank has to go down
  cases hb with
  | bootWait _ hs ht => simp [parking, toRest, hs, ht]
  | bootStep _ hs ht hy =>
    have hy' := BitVec.toInt_add_one (x := c.posY) (by omega)
    refine ⟨?_, by simp only [toRest, hs, ht, hy', if_true]; omega⟩
    simp only [parking, hs, if_pos hy]
    split_ifs with hneg
    · rfl
    · have hzero : c.posY + 1 = 0 := BitVec.toInt_inj.mp (by
        rw [show (0 : BitVec 16).toInt = 0 from rfl]; omega)
      rw [hzero]
  | bootDone _ hs ht hy => simp [parking, toRest, hs, ht, Int.not_lt.mpr hy]
  | idle _ hs => simp [parking, toRest, hs, ho]
  -- the spiral starts at its first step
  | trackLost _ hs _ hsn =>
    refine ⟨by simp [parking, hs, hsn], ?_⟩
    simp only [toRest, hs, hsn, if_true]
    omega
  | trackStay _ hs _ hsn => simp [parking, toRest, hs, hsn]
  -- the return journey is shorter than what the rank still allows
  | searchOver _ hs _ hside =>
    refine ⟨by simp [parking, hs], ?_⟩
    obtain ⟨p, hp, hend⟩ := h.spot hs
    simp only [toRest, hs, hp.searched]
    change Homing.returning.distance c + 1 ≤ _
    omega
  | searchWait _ hs _ hside ht => simp [parking, toRest, hs, ht, searched, leg]
  -- a tick takes the search to the next spot
  | searchStep ht =>
    have hs := ht.state
    obtain ⟨p, hp, hend⟩ := h.spot hs
    obtain ⟨hleg, -⟩ := index_lt_of_side hp hend ht.side
    have hnext : (c.spiralCount c).searched = p.index + 1 := by
      rw [(hp.spiralCount hleg c rfl rfl).searched, p.index_next]
    refine ⟨by simp [parking, hs], ?_⟩
    simp only [toRest, hs, hp.searched, ht.tick, if_true]
    change 46_036 - (c.spiralCount c).searched ≤ _
    omega
  | returnDone _ hs _ hx hy =>
    refine ⟨by simp [parking, hs, hx, hy], ?_⟩
    simp only [toRest, hs]
    omega
  -- a step of the way home
  | returnRun _ hs _ hp =>
    refine ⟨by simp [parking, hs], ?_⟩
    rw [toRest_homing (c := c) (m := .returning) hs]
    refine (toRest_homing (m := .returning) ?_).trans_le (hhome .returning hs ⟨hl, fun _ => ho⟩ hp)
    exact hs
  | forcedDone _ hs hx hy =>
    refine ⟨by simp [parking, hs, hx, hy], ?_⟩
    simp only [toRest, hs]
    omega
  | forcedRun _ hs hp =>
    refine ⟨by simp [parking, hs], ?_⟩
    rw [toRest_homing (c := c) (m := .forcedReturn) hs]
    have hlive : Homing.forcedReturn = Homing.returning → j.onTarget = false := fun _ => ho
    refine (toRest_homing (m := .forcedReturn) ?_).trans_le (hhome .forcedReturn hs ⟨hl, hlive⟩ hp)
    exact hs
  -- no other branch: the state is one in use, the edge live and without a target
  | unused low _ hs => exact absurd hs (h.used low)
  | reset hr => exact absurd (hr.symm.trans hl.reset) (by decide)
  | home _ hh => exact absurd (hh.symm.trans hl.returnHome) (by decide)
  | _ => simp_all

/-- The controller waits for a target in the position `p`. -/
structure Resting (p : BitVec 16 × BitVec 16) (c : SearchController) : Prop where
  state : c.state = .idleWait ∨ c.state = .tracking
  unseen : c.hasSeenTarget = false
  pos : (c.posX, c.posY) = p

/-- With no tick left the controller rests. -/
theorem Sound.resting (h : Sound c) (h0 : c.toRest = 0) : Resting c.parking c := by
  cases hs : c.state with
  | idleWait => exact ⟨.inl hs, h.unseen (.inr hs), by simp [parking, hs]⟩
  | tracking =>
    cases hsn : c.hasSeenTarget
    · exact ⟨.inr hs, hsn, by simp [parking, hs, hsn]⟩
    · simp [toRest, hs, hsn] at h0
  | searching =>
    obtain ⟨p, hp, hend⟩ := h.spot hs
    simp only [toRest, hs, hp.searched] at h0
    omega
  | unused low => exact absurd hs (h.used low)
  | _ => simp [toRest, hs] at h0

/-- Without a target nothing moves any more, and no motor is enabled. -/
theorem Resting.step {p : BitVec 16 × BitVec 16} (h : Resting p c) (hc : Sound c) (hl : Live j)
    (ho : j.onTarget = false) :
    Resting p (c.step j) ∧ (c.step j).outYawEn = false ∧ (c.step j).outPitchEn = false := by
  obtain hs | hs := h.state
  · rw [(Branch.idle hl hs).eq, ho]
    exact ⟨⟨.inl rfl, h.unseen, h.pos⟩, rfl, rfl⟩
  · rw [(Branch.trackStay hl hs ho h.unseen).eq]
    exact ⟨⟨.inr hs, h.unseen, h.pos⟩, hc.low hs h.unseen⟩

/-- As long as there is no target, every tick leads nearer to the resting place. -/
private theorem lost_run (h : Sound (run step s i n)) (hnm : n ≤ m)
    (hlost : ∀ k, n ≤ k → k < m → Live (i k) ∧ (i k).onTarget = false) :
    (Sound (run step s i m) ∧ (run step s i m).parking = (run step s i n).parking) ∧
      (run step s i m).toRest ≤ (run step s i n).toRest - (ticks i m - ticks i n) :=
  rank_run (P := fun c => Sound c ∧ c.parking = (run step s i n).parking)
    (C := fun j => Live j ∧ j.onTarget = false)
    (fun j _ hj hc =>
      have hstep := hc.1.step_lost hj.1 hj.2
      ⟨⟨hc.1.step j, hstep.1.trans hc.2⟩, hstep.2⟩)
    hnm ⟨h, rfl⟩ hlost

/-- With the ticks that are left gone, the controller rests. -/
theorem rests_of_lost (h : Sound (run step s i n))
    (hlost : ∀ k, n ≤ k → k < N → Live (i k) ∧ (i k).onTarget = false) {k : ℕ} (hnm : n ≤ m)
    (hm : ticks i n + (run step s i n).toRest ≤ ticks i m) (hmk : m < k)
    (hkN : k ≤ N) :
    Resting (run step s i n).parking (run step s i k) ∧
      (run step s i k).outYawEn = false ∧ (run step s i k).outPitchEn = false := by
  obtain ⟨k, rfl⟩ : ∃ k', k = k' + 1 := ⟨k - 1, by omega⟩
  obtain ⟨⟨hsound, hpark⟩, hrank⟩ := lost_run (m := k) h (by omega)
    fun t ht htk => hlost t ht (by omega)
  have hmono := ticks_mono i (show m ≤ k by omega)
  have hrest := hsound.resting (by omega)
  rw [hpark] at hrest
  obtain ⟨hl, ho⟩ := hlost k (by omega) (by omega)
  exact hrest.step hsound hl ho

/-- **A lost target.**  At any time behind a reset, if the target stays out of sight from a
    cycle on and nobody presses the return button, no more than `to_rest` step ticks, 46,037
    of them at most, take the controller to its resting place.  It stays there, with both
    enables low, for as long as there is no target. -/
theorem lost_target_rests (s : SearchController) (i : ℕ → Input) (r n N : ℕ)
    (hr : (i r).reset = true) (hrn : r < n)
    (hlost : ∀ k, n ≤ k → k < N → Live (i k) ∧ (i k).onTarget = false) :
    let c := run step s i n
    c.toRest ≤ 46_037 ∧
    ∀ m k, n ≤ m → ticks i n + c.toRest ≤ ticks i m → m < k → k ≤ N →
      Resting c.parking (run step s i k) ∧
      (run step s i k).outYawEn = false ∧ (run step s i k).outPitchEn = false :=
  ⟨toRest_le _, fun _ _ hnm hm hmk hkN => rests_of_lost (sound_run s hr hrn) hlost hnm hm hmk hkN⟩

/-- Booted without a target, the gimbal stays on the horizon. -/
theorem resetFirst_rests : Resting (0, 0) (run step lostTarget (resetFirst false) 400) := by
  obtain ⟨-, hrest⟩ := lost_target_rests lostTarget (resetFirst false) 0 1 1_000 rfl (by decide)
    fun k hk _ => by
      obtain ⟨k, rfl⟩ := Nat.exists_eq_add_of_le' hk
      exact resetFirst_live false k
  refine (hrest 399 400 (by decide) ?_ (by decide) (by decide)).1
  rw [ticks_of_forall fun _ => rfl, ticks_of_forall fun _ => rfl]
  decide

end Lost

/-! ## A target that stays in sight -/

/-- No more step ticks than this are left until a target in sight is tracked. -/
def toTarget (c : SearchController) : ℕ :=
  match c.state with
  | .bootUp => (-c.posY.toInt).toNat + 1
  | .forcedReturn => Homing.forcedReturn.distance c + 1
  | _ => 0

section Seen

variable {c : SearchController} {j : Input} {i : ℕ → Input} {s : SearchController}
  {m n N : ℕ}

/-- The bound is 33,035 ticks in any state. -/
theorem toTarget_le (c : SearchController) : c.toTarget ≤ 33_035 := by
  have hforced := distance_le (m := .forcedReturn) (d := 266) (by decide) c
  have hy := c.posY.le_toInt
  unfold toTarget
  split <;> omega

/-- Booting and the forced return do not look at the target, but every tick leads to their
    end. -/
theorem step_seen (hl : Live j) (ho : j.onTarget = true) :
    (c.step j).toTarget ≤ c.toTarget - if j.stepTick then 1 else 0 := by
  have hb := step_branch j c
  have hhome := homing_tick (m := .forcedReturn) (c := c) (j := j)
  generalize c.step j = c' at hb hhome
  cases hb with
  | bootWait _ hs ht => simp [toTarget, hs, ht]
  | bootStep _ hs ht hy =>
    have hy' := BitVec.toInt_add_one (x := c.posY) (by omega)
    simp only [toTarget, hs, ht, hy', if_true]
    omega
  | forcedRun _ hs hp =>
    have hdist := hhome hs ⟨hl, nofun⟩ hp
    simp only [toTarget, hs]
    exact hdist
  | searchStep ht => exact absurd (ho.symm.trans ht.lost) (by decide)
  | reset hr => exact absurd (hr.symm.trans hl.reset) (by decide)
  | home _ hh => exact absurd (hh.symm.trans hl.returnHome) (by decide)
  | _ => simp_all [toTarget]

/-- A controller that looks for the target tracks it behind the next clock edge. -/
private theorem Sound.step_found (h : Sound c) (h0 : c.toTarget = 0) (hl : Live j)
    (ho : j.onTarget = true) :
    (c.step j).state = .tracking ∧ (c.state = .tracking → (c.step j).hasSeenTarget = true) := by
  cases hs : c.state with
  | idleWait => simp [(Branch.idle hl hs).eq, ho]
  | tracking =>
    cases hrx : j.rxDone
    · simp [(Branch.trackHold hl hs ho hrx).eq, hs]
    · simp [(Branch.trackCommand hl hs ho hrx).eq, hs]
  | searching => simp [(Branch.searchFound hl hs ho).eq]
  | returning => simp [(Branch.returnFound hl hs ho).eq]
  | unused low => exact absurd hs (h.used low)
  | _ => simp [toTarget, hs] at h0

/-- With the ticks that are left gone, the controller tracks. -/
theorem tracked_of_seen (h : Sound (run step s i n))
    (hseen : ∀ k, n ≤ k → k < N → Live (i k) ∧ (i k).onTarget = true) {k : ℕ} (hnm : n ≤ m)
    (hm : ticks i n + (run step s i n).toTarget ≤ ticks i m) (hmk : m < k) (hkN : k ≤ N) :
    (run step s i k).state = .tracking ∧
      (m + 1 < k → (run step s i k).hasSeenTarget = true) := by
  have hfound : ∀ t, m ≤ t → t < N → (run step s i (t + 1)).state = .tracking ∧
      ((run step s i t).state = .tracking → (run step s i (t + 1)).hasSeenTarget = true) := by
    intro t hmt htN
    have hrun : Sound (run step s i t) ∧ (run step s i t).toTarget ≤
        (run step s i n).toTarget - (ticks i t - ticks i n) :=
      rank_run (P := Sound) (C := fun j => Live j ∧ j.onTarget = true)
        (fun j _ hj hc => ⟨hc.step j, step_seen hj.1 hj.2⟩) (show n ≤ t by omega) h
        fun k hk hkt => hseen k hk (by omega)
    obtain ⟨hsound, hrank⟩ := hrun
    have hmono := ticks_mono i hmt
    obtain ⟨hl, ho⟩ := hseen t (by omega) htN
    exact hsound.step_found (by omega) hl ho
  obtain ⟨k, rfl⟩ : ∃ k', k = k' + 1 := ⟨k - 1, by omega⟩
  refine ⟨(hfound k (by omega) (by omega)).1, fun hmk' => ?_⟩
  obtain ⟨k, rfl⟩ : ∃ k', k = k' + 1 := ⟨k - 1, by omega⟩
  exact (hfound (k + 1) (by omega) (by omega)).2 (hfound k (by omega) (by omega)).1

/-- **A target in sight.**  At any time behind a reset, if the target stays in sight from a
    cycle on and nobody presses the return button, no more than `to_target` step ticks,
    33,035 of them at most, and one clock cycle take the controller to `TRACKING`, and it
    tracks the target for as long as it is in sight. -/
theorem steady_target_tracked (s : SearchController) (i : ℕ → Input) (r n N : ℕ)
    (hr : (i r).reset = true) (hrn : r < n)
    (hseen : ∀ k, n ≤ k → k < N → Live (i k) ∧ (i k).onTarget = true) :
    let c := run step s i n
    c.toTarget ≤ 33_035 ∧
    ∀ m k, n ≤ m → ticks i n + c.toTarget ≤ ticks i m → m < k → k ≤ N →
      (run step s i k).state = .tracking ∧
      (m + 1 < k → (run step s i k).hasSeenTarget = true) :=
  ⟨toTarget_le _, fun _ _ hnm hm hmk hkN =>
    tracked_of_seen (sound_run s hr hrn) hseen hnm hm hmk hkN⟩

/-- With the target in sight from the beginning, booting ends in `TRACKING`. -/
theorem resetFirst_tracked : (run step lostTarget (resetFirst true) 400).state = .tracking := by
  obtain ⟨-, htrack⟩ := steady_target_tracked lostTarget (resetFirst true) 0 1 1_000 rfl
    (by decide) fun k hk _ => by
      obtain ⟨k, rfl⟩ := Nat.exists_eq_add_of_le' hk
      exact resetFirst_live true k
  refine (htrack 300 400 (by decide) ?_ (by decide) (by decide)).1
  rw [ticks_of_forall fun _ => rfl, ticks_of_forall fun _ => rfl]
  decide

end Seen

end Scope.Native.SearchController
