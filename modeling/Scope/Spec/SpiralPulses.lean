import Scope.Spec.HomingPulses
import Scope.Spec.SpiralSearch

/-!
# The pulses of a spiral search

A tick of the search moves the position along the present leg and loads the timer;
the enable and the direction come from the leg of the cycles behind it.  The two
agree unless the tick was the last one of its leg: then the motor gets the pulse on
the axis of the next leg, or, behind the last leg, what `RETURNING` makes of it.

## Key results

- `SearchEdge`: what a clock edge of a search does to timer, enables and directions
- `drives_of_inside` / `not_drives_of_last`: the pulse behind a tick within a leg and
  at its end
- `spiral_pulse_iff`: the pulse follows the spiral except at the end of a leg
-/

namespace Scope.Native

/-- The other motor. -/
def Axis.other : Axis → Axis
  | yaw => pitch
  | pitch => yaw

namespace SearchController

open Sync EnableWindow SquareSpiral

/-! ## Clock edges of a search -/

/-- The axis of a leg with the given direction. -/
def legAxis (d : BitVec 2) : Axis := if d = 0 ∨ d = 2 then .yaw else .pitch

/-- The direction output of a leg. -/
def legDir (d : BitVec 2) : Bool := d = 0 ∨ d = 1

/-- The position takes a step on the axis `a`, up for `b`, and none on the other. -/
structure Moves (a : Axis) (b : Bool) (s c : SearchController) : Prop where
  axis : a.pos c = if b then a.pos s + 1 else a.pos s - 1
  other : a.other.pos c = a.other.pos s

/-- A clock edge of a search that is not over. -/
structure SearchEdge (j : Input) (c c' : SearchController) : Prop where
  timer : c'.pulseTimer = if j.stepTick then pulseWidth else c.timerDown
  en : ∀ a : Axis, a.en c' = (c.pulsing && decide (a = legAxis c.spiralDir))
  dir : (legAxis c.spiralDir).dir c' = legDir c.spiralDir
  move : j.stepTick = true → Moves (legAxis c.spiralDir) (legDir c.spiralDir) c c'

section Edge

variable {s c : SearchController} {i : ℕ → Input} {j : Input} {p : Spot 3} {a : Axis} {n t : ℕ}

/-- What `SEARCHING` drives belongs to the leg it is on. -/
private theorem spiralDrive_leg (c : SearchController) :
    (∀ a : Axis, a.en (c.spiralDrive c) = (c.pulsing && decide (a = legAxis c.spiralDir))) ∧
    (legAxis c.spiralDir).dir (c.spiralDrive c) = legDir c.spiralDir := by
  unfold spiralDrive legAxis legDir
  rcases c.spiralDir_cases with h | h | h | h <;> rw [h]
  all_goals
    refine ⟨?_, rfl⟩
    rintro ⟨_⟩ <;> simp [Axis.en]

/-- A spiral step moves the axis of its leg in the direction of its leg. -/
private theorem spiralMove_leg (c : SearchController) :
    Moves (legAxis c.spiralDir) (legDir c.spiralDir) c (c.spiralMove c) := by
  unfold spiralMove legAxis legDir
  rcases c.spiralDir_cases with h | h | h | h <;> rw [h] <;> exact ⟨rfl, rfl⟩

/-- A step on one axis is none on the other. -/
theorem Moves.unique {b b' : Bool} {a' : Axis} {c' : SearchController} (h : Moves a b c c')
    (h' : Moves a' b' c c') : a = a' := by
  have hup : ∀ x : BitVec 16, x + 1 ≠ x := fun x heq => absurd (add_eq_left.mp heq) (by decide)
  have hdown : ∀ x : BitVec 16, x - 1 ≠ x := fun x heq => absurd (sub_eq_self.mp heq) (by decide)
  by_contra haxis
  obtain rfl : a' = a.other := by cases a <;> cases a' <;> first | rfl | exact absurd rfl haxis
  have hmove := h'.axis
  rw [h.other] at hmove
  split_ifs at hmove
  · exact hup _ hmove.symm
  · exact hdown _ hmove.symm

/-- In front of its end every clock edge of a search is of this form. -/
theorem Searching.edge (h : Searching s p c) (hl : Live j) (ho : j.onTarget = false)
    (hleg : p.leg < 132) : SearchEdge j c (c.step j) := by
  have hside := h.spot.side hleg
  obtain ⟨hen, hdir⟩ := spiralDrive_leg c
  have hmove := spiralMove_leg c
  cases ht : j.stepTick with
  | false =>
    rw [(Branch.searchWait hl h.state ho hside ht).eq]
    refine ⟨by rw [ht]; rfl, fun a => ?_, ?_, fun htick => by rw [ht] at htick; cases htick⟩
    · rw [← hen a]
      cases a <;> rfl
    · rw [← hdir]
      cases legAxis c.spiralDir <;> rfl
  | true =>
    rw [(Branch.searchStep ⟨hl, h.state, ho, hside, ht⟩).eq]
    refine ⟨by rw [ht]; rfl, fun a => ?_, ?_, fun _ => ?_⟩
    · rw [← hen a]
      cases a <;> rfl
    · rw [← hdir]
      cases legAxis c.spiralDir <;> rfl
    · obtain ⟨haxis, hother⟩ := hmove
      constructor
      · rw [← haxis]
        cases legAxis c.spiralDir <;> rfl
      · rw [← hother]
        cases legAxis c.spiralDir <;> rfl

/-- The search goes on as long as steps are left. -/
private theorem ongoing_of_lt (h : searchTicks i n < 13_266) : Ongoing i n := by
  intro m hm
  exact (ticks_mono _ hm.le).trans_lt h

/-- So its clock edges are those of a search. -/
theorem Episode.edge (h : Episode s i) (hn : searchTicks i n < 13_266) :
    SearchEdge (i (n + 1)) (search s i n) (search s i (n + 1)) := by
  obtain ⟨p, hp, hs⟩ := search_run h (ongoing_of_lt hn)
  exact hs.edge (h.live (n + 1)) (h.lost (n + 1)) (leg_lt_of_index (hp.trans_lt hn))

/-- In a search the enable of an axis is gated by the leg. -/
theorem Episode.clocked (h : Episode s i) (hn : searchTicks i n < 13_266) (a : Axis) :
    Clocked pulseWidth.toNat (fun n => (i (n + 1)).stepTick)
      (fun n => decide (a = legAxis (search s i n).spiralDir))
      (fun n => (search s i n).pulseTimer.toNat) (fun n => a.en (search s i n)) n := by
  have he := h.edge hn
  exact ⟨loaded_toNat he.timer, he.en a⟩

/-- A search is entered with the timer cleared, so every tick finds it at zero. -/
theorem Episode.timer_idle (h : Episode s i) (hsp : Spaced i) (ht : (i (t + 1)).stepTick = true)
    (hn : searchTicks i t < 13_266) : (search s i t).pulseTimer.toNat = 0 := by
  have h0 : (search s i 0).pulseTimer.toNat = 0 := by
    rw [show search s i 0 = s.step (i 0) from rfl,
      (Branch.trackLost (h.live 0) h.tracking (h.lost 0) h.seen).eq]
    rfl
  refine EnableWindow.timer_idle (n := t) h0 (fun k hk => h.clocked ?_ .yaw) fun u hu htick => ?_
  · exact (ticks_mono _ hk.le).trans_lt hn
  · have := hsp (u + 1) (t + 1) (by omega) htick ht
    omega

end Edge

/-! ## The pulse behind a tick -/

/-- The tick in cycle `t` of the search has one enable window of exactly `PULSE_WIDTH`
    cycles before the enables belong to the next tick.  It is on the axis of the step
    that the tick has counted and has its direction, and the other axis is not enabled. -/
def DrivesMove (s : SearchController) (i : ℕ → Input) (t : ℕ) : Prop :=
  ∃ (a : Axis) (b : Bool) (w : ℕ), Moves a b (search s i t) (search s i (t + 1)) ∧
    (t < w ∧ Shows (fun n => (i (n + 1)).stepTick) t (w + pulseWidth.toNat)) ∧
    (∀ n, Shows (fun n => (i (n + 1)).stepTick) t n →
      (a.en (search s i n) = true ↔ w ≤ n ∧ n < w + pulseWidth.toNat) ∧
      a.other.en (search s i n) = false) ∧
    ∀ k < pulseWidth.toNat, a.dir (search s i (w + k)) = b

section Pulse

variable {s : SearchController} {i : ℕ → Input} {p : Spot 3} {n t u : ℕ}

/-- Between two ticks the count stays. -/
private theorem searchTicks_shows (ht : (i (t + 1)).stepTick = true)
    (hs : Shows (fun n => (i (n + 1)).stepTick) t n) (hu : t < u) (hun : u < n) :
    searchTicks i u = searchTicks i t + 1 := by
  have hquiet : ticks (fun m => i (m + 1)) u = ticks (fun m => i (m + 1)) (t + 1) :=
    ticks_quiet _ hu fun k hk hku => hs.2 k (by omega) (by omega)
  rw [searchTicks, hquiet]
  exact (searchTicks_succ i t).trans (by rw [if_pos ht])

/-- Behind a tick the search is at the next place until the tick after it. -/
private theorem Episode.spot_shows (h : Episode s i) (hp : p.index = searchTicks i t)
    (ht : (i (t + 1)).stepTick = true) (hn : searchTicks i t + 1 < 13_266)
    (hs : Shows (fun n => (i (n + 1)).stepTick) t n) (hu : t < u) (hun : u < n) :
    Searching s p.next (search s i u) := by
  have hticks := searchTicks_shows ht hs hu hun
  obtain ⟨q, hq, hsearch⟩ := search_run h (ongoing_of_lt (hticks.trans_lt hn))
  obtain rfl : q = p.next := Spot.ext_index (by rw [hq, hticks, p.index_next, hp])
  exact hsearch

/-- The enables behind a tick that is not the last one of the search. -/
theorem Episode.en_shows (h : Episode s i) (hsp : Spaced i) (ht : (i (t + 1)).stepTick = true)
    (hn : searchTicks i t + 1 < 13_266) (hs : Shows (fun n => (i (n + 1)).stepTick) t n)
    (a : Axis) :
    a.en (search s i n) = (decide (t + 2 ≤ n ∧ n < t + 2 + pulseWidth.toNat) &&
      decide (a = legAxis (search s i (n - 1)).spiralDir)) := by
  have hc : ∀ k, t ≤ k → k < n → searchTicks i k < 13_266 := by
    intro k hk hkn
    rcases Nat.eq_or_lt_of_le hk with rfl | hlt
    · omega
    · rw [searchTicks_shows ht hs hlt hkn]
      exact hn
  have hidle := h.timer_idle hsp ht (by omega)
  have hen := en_of_load ht hidle hs fun k hk hkn => h.clocked (hc k hk hkn) a
  exact hen

/-- Even legs are on the yaw axis, odd ones on the pitch axis. -/
private theorem legAxis_eq :
    ∀ d : BitVec 2, legAxis d = if d.toNat % 2 = 0 then .yaw else .pitch := by
  decide

/-- Within a leg the pulse is that of the step. -/
theorem drives_of_inside (h : Episode s i) (hsp : Spaced i) (ht : (i (t + 1)).stepTick = true)
    (hn : searchTicks i t < 13_266) (hin : (search s i t).lastOfLeg = false) :
    DrivesMove s i t := by
  obtain ⟨p, hp, hs⟩ := search_run h (ongoing_of_lt hn)
  have hleg := leg_lt_of_index (hp.trans_lt hn)
  -- the step is not the last of its leg, so the next spot is on the same leg
  have hoff : p.offset + 1 < legLength 3 p.leg := by
    by_contra hge
    rw [hs.spot.lastOfLeg_iff.mpr (by omega)] at hin
    cases hin
  have hnext : p.next.leg = p.leg := by
    unfold Spot.next
    rw [dif_pos hoff]
  -- the leg goes on, so the search does
  have hn' : searchTicks i t + 1 < 13_266 := by
    have hend := legStart_add_le hleg
    rw [Spot.index] at hp
    omega
  -- up to the next tick `spiral_dir` stands
  have hdir : ∀ n, Shows (fun n => (i (n + 1)).stepTick) t n → ∀ u, t < u → u < n →
      (search s i u).spiralDir = (search s i t).spiralDir := by
    intro n hsn u hu hun
    have hu' := h.spot_shows hp ht hn' hsn hu hun
    rw [← BitVec.toNat_inj, hu'.spot.spiralDir, hs.spot.spiralDir, hnext]
  -- the ticks are far enough apart for the whole pulse
  have hwindow : Shows (fun n => (i (n + 1)).stepTick) t (t + 2 + pulseWidth.toNat) :=
    ⟨by omega, fun u hu hu' => hsp.quiet ht (by omega) (by omega)⟩
  refine ⟨_, _, t + 2, (h.edge hn).move ht, ⟨by omega, hwindow⟩, fun n hsn => ?_, fun k hk => ?_⟩
  · rw [h.en_shows hsp ht hn' hsn, h.en_shows hsp ht hn' hsn]
    rcases Nat.lt_or_ge n (t + 2) with hlt | hge
    · simp [Nat.not_le.mpr hlt]
    · rw [hdir n hsn (n - 1) (by omega) (by omega)]
      have hother : ∀ a : Axis, a.other ≠ a := by rintro ⟨_⟩ <;> decide
      rw [decide_eq_true rfl, Bool.and_true, decide_eq_false (hother _), Bool.and_false]
      exact ⟨decide_eq_true_iff, rfl⟩
  · have hd := hdir _ hwindow (t + 1 + k) (by omega) (by omega)
    have hlt : searchTicks i (t + 1 + k) < 13_266 := by
      rw [searchTicks_shows ht hwindow (by omega) (by omega)]
      exact hn'
    have he := (h.edge hlt).dir
    rw [hd] at he
    rw [show t + 2 + k = t + 1 + k + 1 by omega]
    exact he

/-! ## The end of the last leg -/

/-- Cycle `n` behind the last tick of a search, in cycle `t`, and before the tick after it:
    the timer runs on in `RETURNING` or `IDLE_WAIT`. -/
structure Leaving (t n : ℕ) (c : SearchController) : Prop where
  timer : c.pulseTimer.toNat = pulseWidth.toNat - (n - (t + 1))
  mode : c.state = .returning ∨ c.state = .idleWait
  low : Homing.returning.distance c = 0 → ∀ a : Axis, a.en c = false

/-- There an enable shows the timer, and without a tick nothing moves. -/
theorem Leaving.step {j : Input} {c : SearchController} (h : Leaving t n c) (hl : Live j)
    (ho : j.onTarget = false) (htn : t < n) :
    (∀ a : Axis, a.en (c.step j) = true → n < t + 1 + pulseWidth.toNat) ∧
    (j.stepTick = false → Leaving t (n + 1) (c.step j)) := by
  have htimer : c.timerDown.toNat = pulseWidth.toNat - (n + 1 - (t + 1)) := by
    rw [timerDown_toNat, h.timer]
    omega
  -- at the end of the way home, on it, or arrived already
  rcases h.mode with hs | hs
  · have hu : Homing.returning.Undisturbed j := ⟨hl, fun _ => ho⟩
    rcases Nat.eq_zero_or_pos (Homing.returning.distance c) with hd | hd
    · have hlow := h.low hd
      rw [homing_arrived hs hu hd]
      -- arriving leaves the enables as they are
      have hkeep : ∀ a : Axis, a.en { c with
          state := .idleWait
          hasSeenTarget := false
          pulseTimer := c.timerDown } = false := by
        rintro ⟨_⟩
        · exact hlow .yaw
        · exact hlow .pitch
      exact ⟨fun a ha => absurd ((hkeep a).symm.trans ha) Bool.false_ne_true,
        fun _ => ⟨htimer, .inr rfl, fun _ => hkeep⟩⟩
    · have he := homing_edge hs hu hd
      refine ⟨fun a ha => ?_, fun htick => ⟨?_, .inl he.state, fun hd' => ?_⟩⟩
      · rw [he.en a, Bool.and_eq_true, pulsing, decide_eq_true_iff, h.timer] at ha
        omega
      · rw [he.timer, htick, if_neg Bool.false_ne_true]
        exact htimer
      · have hpos : ∀ a : Axis, a.pos (c.step j) = a.pos c := fun a => by
          rw [he.pos a, htick, if_neg Bool.false_ne_true]
        rw [Homing.distance, Homing.away, Homing.away, hpos, hpos] at hd'
        exact absurd hd' hd.ne'
  -- `IDLE_WAIT` drives both low
  · have hlow : ∀ a : Axis, a.en (c.step j) = false := by
      rw [(Branch.idle hl hs).eq]
      rintro ⟨_⟩ <;> rfl
    refine ⟨fun a ha => absurd ((hlow a).symm.trans ha) Bool.false_ne_true,
      fun _ => ⟨?_, .inr ?_, fun _ => hlow⟩⟩
    · rw [(Branch.idle hl hs).eq]
      exact htimer
    · rw [(Branch.idle hl hs).eq, ho]
      rfl

/-- Behind the last tick of a search `RETURNING` opens a window that is one cycle short. -/
private theorem Episode.en_last (h : Episode s i) (hsp : Spaced i)
    (ht : (i (t + 1)).stepTick = true)
    (hn : searchTicks i t < 13_266) (hover : Searching s p (search s i (t + 1)))
    (hleg : p.leg = 132) (hs : Shows (fun n => (i (n + 1)).stepTick) t n) (a : Axis)
    (hon : a.en (search s i n) = true) : t + 3 ≤ n ∧ n < t + 2 + pulseWidth.toNat := by
  have he := h.edge hn
  have hlow : ∀ a : Axis, a.en (search s i (t + 1)) = false := by
    intro a
    rw [he.en a, pulsing, h.timer_idle hsp ht hn]
    rfl
  have hside := hover.spot.side_over hleg
  -- the search is over one cycle behind the tick, with the timer loaded
  have hexit : Leaving t (t + 2) (search s i (t + 2)) := by
    rw [search_succ s i (t + 1), (Branch.searchOver (h.live _) hover.state (h.lost _) hside).eq]
    refine ⟨?_, .inl rfl, fun _ => ?_⟩
    · show (search s i (t + 1)).timerDown.toNat = _
      rw [timerDown_toNat, he.timer, ht, if_pos rfl]
      omega
    · rintro ⟨_⟩
      · exact hlow .yaw
      · exact hlow .pitch
  -- the timer runs on until the next tick
  have hleave : ∀ m, t + 2 ≤ m → m < n → Leaving t m (search s i m) := by
    intro m hm
    induction m, hm using Nat.le_induction with
    | base => exact fun _ => hexit
    | succ m hm ih =>
      intro hmn
      exact ((ih (by omega)).step (h.live (m + 1)) (h.lost (m + 1)) (by omega)).2
        (hs.2 m (by omega) (by omega))
  obtain ⟨htn, -⟩ := hs
  -- the two cycles at the change of state show no enable
  by_cases hlt : n < t + 3
  · obtain rfl | rfl : n = t + 1 ∨ n = t + 2 := by omega
    · rw [hlow a] at hon
      cases hon
    · rw [search_succ s i (t + 1), (Branch.searchOver (h.live _) hover.state (h.lost _) hside).eq]
        at hon
      have hkeep := hlow a
      cases a <;> exact absurd (hkeep.symm.trans hon) Bool.false_ne_true
  · obtain ⟨m, rfl⟩ : ∃ m, n = m + 1 := ⟨n - 1, by omega⟩
    have hend := ((hleave m (by omega) (by omega)).step (h.live (m + 1)) (h.lost (m + 1))
      (by omega)).1 a hon
    omega

/-- At the end of a leg there is no pulse of the step. -/
theorem not_drives_of_last (h : Episode s i) (hsp : Spaced i) (ht : (i (t + 1)).stepTick = true)
    (hn : searchTicks i t < 13_266) (hlast : (search s i t).lastOfLeg = true) :
    ¬ DrivesMove s i t := by
  rintro ⟨a, b, w, hmove, ⟨htw, hshows⟩, hen, -⟩
  obtain ⟨p, hp, hs⟩ := search_run h (ongoing_of_lt hn)
  have hleg := leg_lt_of_index (hp.trans_lt hn)
  have hoff := hs.spot.lastOfLeg_iff.mp hlast
  have hnext : p.next.leg = p.leg + 1 := by
    unfold Spot.next
    rw [dif_neg (by omega)]
  have hpulse := pulseWidth_toNat
  have hw : Shows (fun n => (i (n + 1)).stepTick) t w :=
    ⟨htw, fun u hu huw => hshows.2 u hu (by omega)⟩
  have hon : a.en (search s i w) = true := ((hen w hw).1).mpr (by omega)
  have haxis : a = legAxis (search s i t).spiralDir := hmove.unique ((h.edge hn).move ht)
  rcases Nat.lt_or_ge (p.leg + 1) 132 with hgo | hend
  -- the next leg enables the other axis
  · have hn' : searchTicks i t + 1 < 13_266 := by
      have hend := legStart_add_le hgo
      rw [legStart, legLength, legLength] at hend
      rw [Spot.index] at hp
      have hin := p.inside
      rw [legLength] at hin
      omega
    rw [h.en_shows hsp ht hn' hw, Bool.and_eq_true, decide_eq_true_iff, decide_eq_true_iff] at hon
    have hu := h.spot_shows hp ht hn' hw (show t < w - 1 by omega) (by omega)
    rw [haxis, legAxis_eq, legAxis_eq, hu.spot.spiralDir, hs.spot.spiralDir, hnext] at hon
    split_ifs at hon <;> first | omega | exact absurd hon.2 (by decide)
  -- behind the last leg the window is too short
  · have hstep := hs.step (h.live (t + 1)) (h.lost (t + 1)) hleg
    rw [ht, if_pos rfl] at hstep
    have hlast : Shows (fun n => (i (n + 1)).stepTick) t (w + pulseWidth.toNat - 1) :=
      ⟨by omega, fun u hu huw => hshows.2 u hu (by omega)⟩
    have hon' : a.en (search s i (w + pulseWidth.toNat - 1)) = true :=
      ((hen _ hlast).1).mpr (by omega)
    have h3 := h.en_last hsp ht hn hstep (by omega) hw a hon
    have hW := h.en_last hsp ht hn hstep (by omega) hlast a hon'
    omega

end Pulse

/-- A tick of a search drives the motor as it moves the position exactly when it is not
    the last one of its leg. -/
theorem spiral_pulse_iff (s : SearchController) (i : ℕ → Input) (h : Episode s i)
    (hsp : Spaced i) (t : ℕ) (ht : (i (t + 1)).stepTick = true)
    (hn : searchTicks i t < 13_266) :
    DrivesMove s i t ↔ (search s i t).lastOfLeg = false := by
  constructor
  · intro hd
    by_contra hlast
    exact not_drives_of_last h hsp ht hn (by simpa using hlast) hd
  · exact drives_of_inside h hsp ht hn

/-! ## The third step -/

/-- The button, the target, the target lost; ticks every 60,000 cycles. -/
def lostSlowly (n : ℕ) : Input :=
  { noInput n with
    returnHome := n = 0
    onTarget := n = 2 ∨ n = 3
    stepTick := n % 60_000 = 5 }

/-- `TRACKING` in the cycle in which the target is lost. -/
def lostAtHome : SearchController := run step powerUp.resetRegs lostSlowly 4

/-- The search begins and ticks in its cycles 0, 60,000, 120,000 and so on. -/
def slowSearch (n : ℕ) : Input := lostSlowly (4 + n)

/-- A tick comes every 60,000 cycles. -/
private theorem slowSearch_tick {n : ℕ} :
    (slowSearch (n + 1)).stepTick = true ↔ n % 60_000 = 0 := by
  apply decide_eq_true_iff.trans
  omega

private theorem lostAtHome_episode : Episode lostAtHome slowSearch where
  tracking := by decide
  seen := by decide
  live n := ⟨rfl, decide_eq_false (by omega)⟩
  lost n := decide_eq_false (by omega)

private theorem slowSearch_spaced : Spaced slowSearch := by
  intro t u htu ht hu
  have ht := of_decide_eq_true ht
  have hu := of_decide_eq_true hu
  rw [pulseWidth_toNat]
  omega

/-- Its ticks can be counted. -/
private theorem searchTicks_slowSearch (n : ℕ) :
    searchTicks slowSearch n = (n + 59_999) / 60_000 := by
  induction n with
  | zero => rfl
  | succ n ih =>
    rw [searchTicks_succ, ih]
    split_ifs with htick
    · have := slowSearch_tick.mp htick
      omega
    · have := mt slowSearch_tick.mpr htick
      omega

/-- The first step of the search has its pulse. -/
theorem slowSearch_drives : DrivesMove lostAtHome slowSearch 0 :=
  (spiral_pulse_iff lostAtHome slowSearch lostAtHome_episode slowSearch_spaced 0
    (slowSearch_tick.mpr rfl) (by rw [searchTicks_slowSearch]; omega)).mpr (by decide)

/-- The third step, the last one of the first leg, has none on its axis. -/
theorem leg_end_not_driven :
    Episode lostAtHome slowSearch ∧ Spaced slowSearch ∧
    (slowSearch (120_000 + 1)).stepTick = true ∧ searchTicks slowSearch 120_000 = 2 ∧
    ¬ DrivesMove lostAtHome slowSearch 120_000 := by
  have htick : (slowSearch (120_000 + 1)).stepTick = true := slowSearch_tick.mpr (by omega)
  have hcount : searchTicks slowSearch 120_000 = 2 := by
    rw [searchTicks_slowSearch]
  have hlt : searchTicks slowSearch 120_000 < 13_266 := by omega
  refine ⟨lostAtHome_episode, slowSearch_spaced, htick, hcount,
    not_drives_of_last lostAtHome_episode slowSearch_spaced htick hlt ?_⟩
  obtain ⟨p, hp, hs⟩ := search_run lostAtHome_episode (ongoing_of_lt hlt)
  obtain rfl : p = ⟨0, 2, by decide⟩ := Spot.ext_index (hp.trans hcount)
  exact hs.spot.lastOfLeg_iff.mpr (by decide)

end SearchController

end Scope.Native
