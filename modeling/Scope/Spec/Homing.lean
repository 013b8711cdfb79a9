import Scope.Spec.SpiralSearch
import Scope.Spec.StepLedger

/-!
# Homing

`RETURNING` and `FORCED_RETURN` take every axis to its goal, one step for each tick
and both axes at once.  The modes differ in the goal of the pitch axis and in that
`RETURNING` gives way to the target.

## Key results

- `homing_edge` / `homing_arrived`: what a clock edge of a homing mode does
- `homing_run`: where a homing run is after any number of ticks
- `forcedReturn_blind`: `FORCED_RETURN` does not see what the receiver says
- `homing_reaches_goal`: both modes end in `IDLE_WAIT` after exactly the ticks they need
-/

namespace Scope.Native.SearchController

open Sync

/-- The two modes that take the gimbal home. -/
inductive Homing | returning | forcedReturn
  deriving DecidableEq, Repr

namespace Homing

def state : Homing → State
  | returning => .returning
  | forcedReturn => .forcedReturn

/-- Where the mode takes an axis. -/
def goal : Homing → Axis → BitVec 16
  | forcedReturn, .pitch => -bootLimit
  | _, _ => 0

/-- Nothing takes the controller out of the mode. -/
structure Undisturbed (m : Homing) (j : Input) : Prop where
  live : Live j
  lost : m = returning → j.onTarget = false

/-- The steps between an axis and its goal. -/
def away (m : Homing) (a : Axis) (s : SearchController) : ℕ :=
  ((a.pos s).toInt - (m.goal a).toInt).natAbs

/-- The direction in which an axis has to go. -/
def toward (m : Homing) (a : Axis) (s : SearchController) : Bool :=
  decide ((a.pos s).toInt < (m.goal a).toInt)

/-- The ticks that homing takes. -/
def distance (m : Homing) (s : SearchController) : ℕ := max (m.away .yaw s) (m.away .pitch s)

/-- A clock edge of the mode in front of the goal. -/
structure Edge (m : Homing) (j : Input) (s c : SearchController) : Prop where
  state : c.state = m.state
  pos : ∀ a : Axis, a.pos c = if j.stepTick then stepToward (m.goal a) (a.pos s) else a.pos s
  timer : c.pulseTimer = if j.stepTick then pulseWidth else s.timerDown
  en : ∀ a : Axis, a.en c = (s.pulsing && decide (a.pos s ≠ m.goal a))
  dir : ∀ a : Axis, a.pos s ≠ m.goal a → a.dir c = m.toward a s

end Homing

section Step

variable {m : Homing} {a : Axis} {s : SearchController} {i : ℕ → Input} {j : Input} {n : ℕ}

/-- No steps are left where the axis has arrived. -/
theorem away_eq_zero : m.away a s = 0 ↔ a.pos s = m.goal a := by
  rw [Homing.away, Int.natAbs_eq_zero, Int.sub_eq_zero, BitVec.toInt_inj]

/-- No steps are left where both have. -/
theorem distance_eq_zero : m.distance s = 0 ↔ s.posX = 0 ∧ s.posY = m.goal .pitch := by
  have hyaw : m.away .yaw s = 0 ↔ s.posX = m.goal .yaw := away_eq_zero
  have hpitch : m.away .pitch s = 0 ↔ s.posY = m.goal .pitch := away_eq_zero
  have hgoal : m.goal .yaw = 0 := by cases m <;> rfl
  rw [hgoal] at hyaw
  rw [← hyaw, ← hpitch, Homing.distance]
  omega

/-- In front of the goal a tick takes every axis one step on. -/
theorem homing_edge (hs : s.state = m.state) (hu : m.Undisturbed j) (hd : 0 < m.distance s) :
    m.Edge j s (s.step j) := by
  have hgoal : ¬ (s.posX = 0 ∧ s.posY = m.goal .pitch) := by
    rw [← distance_eq_zero]
    omega
  cases m with
  | returning =>
    rw [(Branch.returnRun hu.live hs (hu.lost rfl) hgoal).eq]
    refine ⟨hs, ?_, rfl, ?_, ?_⟩ <;> rintro ⟨_⟩
    all_goals first | rfl | exact fun _ => rfl
  | forcedReturn =>
    rw [(Branch.forcedRun hu.live hs hgoal).eq]
    refine ⟨hs, ?_, rfl, ?_, ?_⟩ <;> rintro ⟨_⟩
    -- at the goal the pitch direction is up, which no enable ever shows
    case refine_3.pitch =>
      intro hne
      have hint : s.posY.toInt ≠ (-bootLimit).toInt := fun h => hne (BitVec.toInt_inj.mp h)
      exact decide_eq_decide.mpr (by change _ ↔ s.posY.toInt < (-bootLimit).toInt; omega)
    all_goals first | rfl | exact fun _ => rfl

/-- At the goal the mode is left. -/
theorem homing_arrived (hs : s.state = m.state) (hu : m.Undisturbed j) (hd : m.distance s = 0) :
    s.step j = { s with
      state := .idleWait
      hasSeenTarget := false
      pulseTimer := s.timerDown } := by
  obtain ⟨hx, hy⟩ := distance_eq_zero.mp hd
  cases m with
  | returning => exact (Branch.returnDone hu.live hs (hu.lost rfl) hx hy).eq
  | forcedReturn => exact (Branch.forcedDone hu.live hs hx hy).eq

end Step

/-! ## The way to the goal -/

/-- A coordinate that goes `k` steps from `p` towards `g` and stops there. -/
def approach (g p : ℤ) (k : ℕ) : ℤ := if g ≤ p then max g (p - k) else min g (p + k)

@[simp] theorem approach_zero (g p : ℤ) : approach g p 0 = p := by
  unfold approach
  split_ifs <;> omega

theorem approach_succ (g p : ℤ) (k : ℕ) :
    approach g p (k + 1) =
      if approach g p k > g then approach g p k - 1
      else if approach g p k < g then approach g p k + 1
      else approach g p k := by
  unfold approach
  split_ifs <;> omega

/-- On the way the goal stays on the same side. -/
theorem approach_side {g p : ℤ} {k : ℕ} (h : approach g p k ≠ g) :
    approach g p k < g ↔ p < g := by
  unfold approach at h ⊢
  split_ifs at h ⊢ <;> omega

/-- Every step makes the way shorter by one. -/
private theorem natAbs_approach (g p : ℤ) (k : ℕ) :
    (approach g p k - g).natAbs = (p - g).natAbs - k := by
  unfold approach
  split_ifs <;> omega

section Run

variable {m : Homing} {s c : SearchController} {i j : ℕ → Input} {n k : ℕ}

/-- The two axes get closer to their goals at the same rate. -/
theorem distance_approach (h : ∀ a : Axis, (a.pos c).toInt =
    approach (m.goal a).toInt (a.pos s).toInt k) :
    (∀ a, m.away a c = m.away a s - k) ∧ m.distance c = m.distance s - k := by
  have haway : ∀ a, m.away a c = m.away a s - k := by
    intro a
    rw [Homing.away, h a, natAbs_approach, Homing.away]
  refine ⟨haway, ?_⟩
  rw [Homing.distance, haway, haway, Homing.distance]
  omega

/-- Up to the end of homing, every axis has gone as many steps as there were ticks,
    or all it had to go. -/
theorem homing_run (hs : s.state = m.state) (hu : ∀ k < n, m.Undisturbed (i k))
    (hn : ∀ k < n, ticks i k < m.distance s) :
    (run step s i n).state = m.state ∧
    ∀ a : Axis, (a.pos (run step s i n)).toInt =
      approach (m.goal a).toInt (a.pos s).toInt (ticks i n) := by
  induction n with
  | zero => exact ⟨hs, fun a => by simp⟩
  | succ n ih =>
    obtain ⟨hs', hpos⟩ := ih (fun k hk => hu k (by omega)) fun k hk => hn k (by omega)
    have hd := (distance_approach hpos).2
    have hlt := hn n (by omega)
    have he := homing_edge hs' (hu n (by omega)) (by omega)
    refine ⟨he.state, fun a => ?_⟩
    rw [run_succ, he.pos a, ticks_succ]
    split_ifs
    · rw [stepToward_toInt, hpos a, approach_succ]
    · exact hpos a

/-- While nothing disturbs it, a run from `s` is homing until `m.distance s` ticks have
    been counted.  All the way every axis has gone as many steps towards its goal as there
    were ticks, or has stopped at it.  Both are at their goals exactly when the last tick
    has been counted, and the clock edge behind that enters `IDLE_WAIT` and forgets the
    target. -/
def Homes (m : Homing) (s : SearchController) (i : ℕ → Input) : Prop :=
  ∀ n, (∀ k ≤ n, m.Undisturbed (i k)) → (∀ k < n, ticks i k < m.distance s) →
    let c := run step s i n
    let c' := run step s i (n + 1)
    c.state = m.state ∧
    (∀ a : Axis, (a.pos c).toInt = approach (m.goal a).toInt (a.pos s).toInt (ticks i n)) ∧
    ((∀ a : Axis, a.pos c = m.goal a) ↔ ticks i n = m.distance s) ∧
    (ticks i n < m.distance s → c'.state = m.state) ∧
    (ticks i n = m.distance s → c'.state = .idleWait ∧ c'.hasSeenTarget = false)

/-- A homing mode homes. -/
theorem homes_of_state (hs : s.state = m.state) : Homes m s i := by
  intro n hu hn c c'
  obtain ⟨hs', hpos⟩ := homing_run hs (fun k hk => hu k (by omega)) hn
  obtain ⟨haway, hd⟩ := distance_approach hpos
  have hle := ticks_le_of_lt hn
  refine ⟨hs', hpos, ?_, fun hlt => ?_, fun heq => ?_⟩
  · rw [show (∀ a : Axis, a.pos c = m.goal a) ↔ ∀ a : Axis, m.away a c = 0 from
      forall_congr' fun a => away_eq_zero.symm]
    have haxes : (∀ a : Axis, m.away a c = 0) ↔ m.distance c = 0 := by
      refine ⟨fun h => ?_, fun h => ?_⟩
      · rw [Homing.distance, h, h, max_self]
      · rw [Homing.distance] at h
        rintro ⟨_⟩ <;> omega
    rw [haxes, show m.distance c = _ from hd]
    omega
  · exact (homing_edge hs' (hu n le_rfl) (by omega)).state
  · have hstep := homing_arrived hs' (hu n le_rfl) (by omega)
    rw [show c' = _ from hstep]
    exact ⟨rfl, rfl⟩

/-! ## The return button -/

/-- The inputs that `FORCED_RETURN` looks at. -/
structure SameButtons (i j : Input) : Prop where
  reset : i.reset = j.reset
  returnHome : i.returnHome = j.returnHome
  stepTick : i.stepTick = j.stepTick

/-- `FORCED_RETURN` does not see what the receiver says. -/
theorem forcedReturn_blind {i j : Input} (hs : s.state = .forcedReturn) (h : SameButtons i j) :
    s.step i = s.step j := by
  unfold step
  rw [h.reset, h.returnHome, hs]
  simp only [forcedReturn, h.stepTick]

/-- Neither does the press of the button. -/
private theorem press_blind {i j : Input} (hh : i.returnHome = true) (h : SameButtons i j) :
    s.step i = s.step j := by
  unfold step
  rw [← h.reset, ← h.returnHome, hh]
  rfl

/-- While the button is held the controller is in `FORCED_RETURN` and nothing moves. -/
private theorem held_run (hh : ∀ k < n, (i k).reset = false ∧ (i k).returnHome = true)
    (hn : 1 ≤ n) : run step s i n = { s with state := .forcedReturn } := by
  induction n, hn using Nat.le_induction with
  | base => exact (Branch.home (hh 0 (by omega)).1 (hh 0 (by omega)).2).eq
  | succ n hn ih =>
    rw [run_succ, ih fun k hk => hh k (by omega)]
    exact (Branch.home (hh n (by omega)).1 (hh n (by omega)).2).eq

/-- Two runs in which the button is pressed in the first cycle and that differ in what
    the receiver says only are the same until `FORCED_RETURN` has been left. -/
private theorem run_blind (h : ∀ k, SameButtons (i k) (j k)) (hh : (i 0).returnHome = true)
    (hs : ∀ k, 1 ≤ k → k < n → (run step s i k).state = .forcedReturn) :
    run step s i n = run step s j n := by
  induction n with
  | zero => rfl
  | succ n ih =>
    rw [run_succ, run_succ, ← ih fun k hk hkn => hs k hk (by omega)]
    rcases n with _ | n
    · exact press_blind hh (h 0)
    · exact forcedReturn_blind (hs (n + 1) (by omega) (by omega)) (h (n + 1))

end Run

/-- **Homing reaches its goal.**  On every schedule of ticks, from every position,
    `RETURNING` homes to (0, 0).  From every state, when the return button has been held
    for `h` cycles, `FORCED_RETURN` has been entered with no other register touched; from
    the release on it homes to (0, -BOOT_LIMIT); and as long as it does, all registers,
    and the outputs with them, are those of any run with other receiver inputs. -/
theorem homing_reaches_goal (s : SearchController) (i : ℕ → Input) :
    (s.state = .returning → Homes .returning s i) ∧
    ∀ h, 1 ≤ h → (∀ k < h, (i k).reset = false ∧ (i k).returnHome = true) →
      (∀ n, 1 ≤ n → n ≤ h → run step s i n = { s with state := .forcedReturn }) ∧
      Homes .forcedReturn (run step s i h) (fun k => i (h + k)) ∧
      ∀ j : ℕ → Input, (∀ k, SameButtons (i k) (j k)) →
        ∀ n, (∀ k, 1 ≤ k → k < n → (run step s i k).state = .forcedReturn) →
          run step s i n = run step s j n ∧
          (run step s i n).isSearching = (run step s j n).isSearching := by
  refine ⟨fun hs => homes_of_state hs, fun h hpos hh => ⟨fun n hn hnh => ?_, ?_, ?_⟩⟩
  · exact held_run (fun k hk => hh k (by omega)) hn
  · apply homes_of_state
    rw [held_run hh hpos]
    rfl
  · intro j hj n hs
    have hrun := run_blind hj (hh 0 (by omega)).2 hs
    exact ⟨hrun, by rw [hrun]⟩

/-- Press the return button in cycle 0, then tick in every cycle. -/
def pressThenTick (n : ℕ) : Input := { everyTick n with returnHome := n = 0 }

/-- From (12, -34) `RETURNING` takes 34 ticks and the button 232. -/
theorem lostTarget_homes :
    (run step { lostTarget with state := .returning } everyTick 35).state = .idleWait ∧
    (run step (run step lostTarget pressThenTick 1) (fun k => pressThenTick (1 + k)) 233).state =
      .idleWait := by
  have hreturn := (homing_reaches_goal { lostTarget with state := .returning } everyTick).1 rfl
  have hforced := ((homing_reaches_goal lostTarget pressThenTick).2 1 le_rfl fun k hk => by
    rw [Nat.lt_one_iff.mp hk]
    exact ⟨rfl, rfl⟩).2.1
  have htick : ∀ n, ticks (fun k => pressThenTick (1 + k)) n = n :=
    ticks_of_forall fun _ => rfl
  have hgo : ∀ k, (pressThenTick (1 + k)).returnHome = false := fun k =>
    decide_eq_false (by omega)
  constructor
  · have h34 := hreturn 34 (fun k _ => ⟨⟨rfl, rfl⟩, fun _ => rfl⟩) fun k hk => by
      rw [ticks_of_forall fun _ => rfl]
      exact hk
    exact (h34.2.2.2.2 (ticks_of_forall (fun _ => rfl) 34)).1
  · have h232 := hforced 232 (fun k _ => ⟨⟨rfl, hgo k⟩, fun h => by cases h⟩) fun k hk => by
      rw [htick]
      exact hk
    exact (h232.2.2.2.2 (htick 232)).1

end Scope.Native.SearchController
