import Scope.ForStd.SquareSpiral
import Scope.Spec.ControllerStep

/-!
# The spiral search

A search that is not disturbed walks a square spiral whose windings are
`DENSITY_STEP` apart, one step for each tick.  `side_limit`, `spiral_dir` and
`step_count` say where on the spiral the controller is, and the position register
is the start position plus that place.

## Key results

- `OnSpot.lastOfLeg_iff` / `OnSpot.spiralCount`: the three counters walk the spiral
- `search_run`: so does the position, over a whole search
- `spiral_closed_form`: where the search is after any number of ticks, and its end
- `spiral_coverage`: it takes no position twice and leaves no cell out
-/

namespace Scope.Native.SearchController

open Sync SquareSpiral

/-! ## The counters -/

/-- The counters are those of a place on the spiral. -/
structure OnSpot (p : Spot 3) (c : SearchController) : Prop where
  sideLimit : c.sideLimit.toNat = legLength 3 p.leg
  spiralDir : c.spiralDir.toNat = p.leg % 4
  stepCount : c.stepCount.toNat = p.offset

/-- The number of legs that have been completed. -/
def leg (c : SearchController) : ℕ := 2 * (c.sideLimit.toNat / 3 - 1) + c.spiralDir.toNat % 2

section Counters

variable {p : Spot 3} {c : SearchController}

/-- The counters tell the leg. -/
theorem OnSpot.leg (h : OnSpot p c) : c.leg = p.leg := by
  rw [SearchController.leg, h.sideLimit, h.spiralDir, legLength]
  omega

/-- The counters tell the last step of a leg. -/
theorem OnSpot.lastOfLeg_iff (h : OnSpot p c) :
    c.lastOfLeg = true ↔ legLength 3 p.leg ≤ p.offset + 1 := by
  have hside := h.sideLimit
  have hcount := h.stepCount
  have hlt := c.sideLimit.isLt
  have hlt' := c.stepCount.isLt
  have hpos : 3 ≤ legLength 3 p.leg := by rw [legLength]; omega
  have hwide : ∀ x : BitVec 16, (x.setWidth 32).toNat = x.toNat := by
    intro x
    have := x.isLt
    rw [BitVec.toNat_setWidth, Nat.mod_eq_of_lt (by omega)]
  rw [lastOfLeg, decide_eq_true_iff, BitVec.toNat_sub_one (by rw [hwide]; omega), hwide, hwide]
  omega

/-- A step goes on to the next place on the spiral. -/
theorem OnSpot.spiralCount (h : OnSpot p c) (hleg : p.leg < 132) (n : SearchController)
    (hdir : n.spiralDir = c.spiralDir) (hside : n.sideLimit = c.sideLimit) :
    OnSpot p.next (c.spiralCount n) := by
  have hlast := h.lastOfLeg_iff
  have hl := h.sideLimit
  have hd := h.spiralDir
  have hc := h.stepCount
  have hin := p.inside
  have hlen : legLength 3 p.leg ≤ 198 := by rw [legLength]; omega
  unfold SearchController.spiralCount Spot.next
  by_cases hend : p.offset + 1 < legLength 3 p.leg
  · rw [dif_pos hend, if_neg (by rw [hlast]; omega)]
    refine ⟨by rw [← hl, ← hside], by rw [← hd, ← hdir], ?_⟩
    show (c.stepCount + 1).toNat = p.offset + 1
    rw [BitVec.toNat_add_one (by omega), hc]
  · rw [dif_neg hend, if_pos (by rw [hlast]; omega)]
    have hturn : (c.spiralDir + 1).toNat = (p.leg + 1) % 4 := by
      rw [BitVec.toNat_add, hd]
      show (p.leg % 4 + 1) % 4 = _
      omega
    have hgrow : (c.sideLimit + densityStep).toNat = c.sideLimit.toNat + 3 := by
      rw [BitVec.toNat_add, hl]
      show (legLength 3 p.leg + 3) % 65536 = _
      omega
    have hodd : (c.spiralDir = 1 ∨ c.spiralDir = 3) ↔ p.leg % 2 = 1 := by
      rw [← BitVec.toNat_inj, ← BitVec.toNat_inj, hd]
      show p.leg % 4 = 1 ∨ p.leg % 4 = 3 ↔ _
      omega
    split_ifs with hs
    · rw [hodd] at hs
      refine ⟨?_, hturn, rfl⟩
      show (c.sideLimit + densityStep).toNat = legLength 3 (p.leg + 1)
      rw [hgrow, hl, legLength, legLength]
      omega
    · rw [hodd] at hs
      refine ⟨?_, hturn, rfl⟩
      show n.sideLimit.toNat = legLength 3 (p.leg + 1)
      rw [hside, hl, legLength, legLength]
      omega

end Counters

/-! ## A search -/

/-- A search that nothing disturbs: it is entered from `TRACKING`, and the target
    stays lost. -/
structure Episode (s : SearchController) (i : ℕ → Input) : Prop where
  tracking : s.state = .tracking
  seen : s.hasSeenTarget = true
  live : ∀ n, Live (i n)
  lost : ∀ n, (i n).onTarget = false

/-- The controller `n` cycles into the search; the edge of cycle 0 enters `SEARCHING`. -/
def search (s : SearchController) (i : ℕ → Input) (n : ℕ) : SearchController :=
  run step s i (n + 1)

/-- The number of step ticks in the first `n` cycles of the search. -/
def searchTicks (i : ℕ → Input) (n : ℕ) : ℕ := ticks (fun m => i (m + 1)) n

/-- The search is not over before its cycle `n`. -/
def Ongoing (i : ℕ → Input) (n : ℕ) : Prop := ∀ m < n, searchTicks i m < 13_266

/-- The controller is at the place `p` of a spiral around the position of `s`. -/
structure Searching (s : SearchController) (p : Spot 3) (c : SearchController) : Prop where
  state : c.state = .searching
  spot : OnSpot p c
  posX : c.posX = s.posX + BitVec.ofInt 16 p.cell.1
  posY : c.posY = s.posY + BitVec.ofInt 16 p.cell.2

section Search

variable {s c : SearchController} {i : ℕ → Input} {j : Input} {p : Spot 3} {m n : ℕ}

theorem search_succ (s : SearchController) (i : ℕ → Input) (n : ℕ) :
    search s i (n + 1) = (search s i n).step (i (n + 1)) := rfl

theorem searchTicks_succ (i : ℕ → Input) (n : ℕ) :
    searchTicks i (n + 1) = searchTicks i n + if (i (n + 1)).stepTick then 1 else 0 :=
  ticks_succ _ n

/-- What goes on has gone on. -/
theorem Ongoing.mono (h : Ongoing i n) (hmn : m ≤ n) : Ongoing i m :=
  fun k hk => h k (by omega)

/-- A search takes 13,266 ticks at most. -/
private theorem Ongoing.searchTicks_le (h : Ongoing i n) : searchTicks i n ≤ 13_266 :=
  ticks_le_of_lt h

/-- The spiral has 132 legs. -/
private theorem legStart_last : legStart 3 132 = 13_266 := legStart_even 3 66

/-- A place with no more than 13,266 steps in front of it is on one of the legs, or it is the
    end of the last one. -/
theorem leg_of_index (h : p.index ≤ 13_266) : p.leg < 132 ∨ p.leg = 132 ∧ p.index = 13_266 := by
  rcases Nat.lt_or_ge p.leg 132 with hlt | hge
  · exact .inl hlt
  · have hmono := legStart_mono (d := 3) hge
    rw [legStart_last] at hmono
    unfold Spot.index at h ⊢
    rcases Nat.lt_or_ge 132 p.leg with hgt | hle
    · have hnext := legStart_mono (d := 3) (show 132 + 1 ≤ p.leg from hgt)
      rw [legStart, legStart_last, legLength] at hnext
      omega
    · obtain h132 : p.leg = 132 := by omega
      exact .inr ⟨h132, by omega⟩

/-- Before its last step the search is on one of its 132 legs. -/
theorem leg_lt_of_index (h : p.index < 13_266) : p.leg < 132 := by
  rcases leg_of_index h.le with hleg | ⟨-, hend⟩
  · exact hleg
  · omega

/-- The spiral ends behind every one of its legs. -/
theorem legStart_add_le {l : ℕ} (h : l < 132) : legStart 3 l + legLength 3 l ≤ 13_266 := by
  have hmono := legStart_mono (d := 3) (Nat.succ_le_of_lt h)
  rwa [Nat.succ_eq_add_one, legStart, legStart_last] at hmono

/-- The direction of a leg, as the position register is changed. -/
private theorem spiralMove_heading (c : SearchController) :
    (c.spiralMove c).posX = c.posX + BitVec.ofInt 16 (heading c.spiralDir.toNat).1 ∧
      (c.spiralMove c).posY = c.posY + BitVec.ofInt 16 (heading c.spiralDir.toNat).2 := by
  unfold spiralMove
  rcases c.spiralDir_cases with h | h | h | h <;> rw [h] <;>
    simp [heading, BitVec.sub_eq_add_neg]

/-- No leg of the search is longer than `SEARCH_MAX_SIDE`. -/
theorem OnSpot.side (h : OnSpot p c) (hleg : p.leg < 132) :
    c.sideLimit.toNat ≤ searchMaxSide.toNat := by
  rw [h.sideLimit, legLength]
  show _ ≤ 200
  omega

/-- The one behind them would be. -/
theorem OnSpot.side_over (h : OnSpot p c) (hleg : p.leg = 132) :
    searchMaxSide.toNat < c.sideLimit.toNat := by
  rw [h.sideLimit, hleg]
  decide

/-- In front of the end a tick takes the search to the next place, and without a tick it
    stays where it is. -/
theorem Searching.step (h : Searching s p c) (hl : Live j) (ho : j.onTarget = false)
    (hleg : p.leg < 132) :
    Searching s (if j.stepTick then p.next else p) (c.step j) := by
  have hside := h.spot.side hleg
  cases ht : j.stepTick with
  | false =>
    rw [(Branch.searchWait hl h.state ho hside ht).eq, if_neg Bool.false_ne_true]
    exact ⟨h.state, ⟨h.spot.sideLimit, h.spot.spiralDir, h.spot.stepCount⟩, h.posX, h.posY⟩
  | true =>
    obtain ⟨hx, hy⟩ := spiralMove_heading c
    have hcount := h.spot.spiralCount hleg c rfl rfl
    rw [(Branch.searchStep ⟨hl, h.state, ho, hside, ht⟩).eq, if_pos rfl]
    refine ⟨h.state, ⟨hcount.sideLimit, hcount.spiralDir, hcount.stepCount⟩, ?_, ?_⟩
    · show (c.spiralMove c).posX = _
      rw [hx, h.posX, h.spot.spiralDir, p.cell_next, Prod.fst_add, BitVec.ofInt_add,
        BitVec.add_assoc]
    · show (c.spiralMove c).posY = _
      rw [hy, h.posY, h.spot.spiralDir, p.cell_next, Prod.snd_add, BitVec.ofInt_add,
        BitVec.add_assoc]

/-- At the end of the last leg the search is over. -/
private theorem Searching.step_over (h : Searching s p c) (hl : Live j) (ho : j.onTarget = false)
    (hleg : p.leg = 132) : (c.step j).state = .returning := by
  rw [(Branch.searchOver hl h.state ho (h.spot.side_over hleg)).eq]

/-- `SEARCHING` is entered at the start of the spiral. -/
theorem Episode.start (h : Episode s i) :
    Searching s ⟨0, 0, by decide⟩ (search s i 0) := by
  have hstep := Branch.trackLost (h.live 0) h.tracking (h.lost 0) h.seen
  rw [show search s i 0 = s.step (i 0) from rfl, hstep.eq]
  refine ⟨rfl, ⟨rfl, rfl, rfl⟩, ?_, ?_⟩ <;> simp [Spot.cell, point, radius]

/-- Over a whole search: after `k` ticks the controller is `k` steps into the spiral. -/
theorem search_run (h : Episode s i) (hn : Ongoing i n) :
    ∃ p : Spot 3, p.index = searchTicks i n ∧ Searching s p (search s i n) := by
  induction n with
  | zero => exact ⟨⟨0, 0, by decide⟩, rfl, h.start⟩
  | succ n ih =>
    obtain ⟨p, hp, hs⟩ := ih fun m hm => hn m (by omega)
    have hlt := hn n (by omega)
    have hleg : p.leg < 132 := leg_lt_of_index (by omega)
    refine ⟨_, ?_, hs.step (h.live (n + 1)) (h.lost (n + 1)) hleg⟩
    rw [searchTicks_succ, ← hp]
    split_ifs
    · exact p.index_next
    · rfl

end Search

/-- The legs of the search stay within 99 steps of the start. -/
private theorem cell_bounds {p : Spot 3} (h : p.index ≤ 13_266) :
    |p.cell.1| ≤ 99 ∧ |p.cell.2| ≤ 99 := by
  rcases leg_of_index h with hleg | ⟨hleg, hend⟩
  · have hb := point_bounds p.inside.le
    have hR : radius 3 p.leg ≤ 96 := by rw [radius]; omega
    exact ⟨hb.1.trans (by omega), hb.2.trans (by omega)⟩
  · rw [Spot.index, hleg, legStart_last] at hend
    rw [Spot.cell, hleg, show p.offset = 0 by omega]
    decide

/-- **Spiral search.**  In cycle `n` of a search, after `k` step ticks, `side_limit`
    and `spiral_dir` give the leg: it is the one with `k` between its first and its
    last step, it has 3 * ⌈m / 2⌉ steps when it is the `m`-th, and `step_count` is how
    many of them have been taken.  The position is the start plus the place on the
    spiral, in 16 bits.  A tick moves it in the direction of the leg.  After exactly
    13,266 ticks, at the end of leg 132, the search goes on to `RETURNING`. -/
theorem spiral_closed_form (s : SearchController) (i : ℕ → Input) (h : Episode s i) (n : ℕ)
    (hn : Ongoing i n) :
    let c := search s i n
    let k := searchTicks i n
    let l := c.leg
    c.state = .searching ∧
    (k = legStart 3 l + c.stepCount.toNat ∧ c.stepCount.toNat < legLength 3 l ∧
      legLength 3 l = 3 * ((l + 2) / 2)) ∧
    (c.sideLimit.toNat = legLength 3 l ∧ c.spiralDir.toNat = l % 4 ∧ l ≤ 132) ∧
    (c.posX = s.posX + BitVec.ofInt 16 (point 3 l c.stepCount.toNat).1 ∧
      c.posY = s.posY + BitVec.ofInt 16 (point 3 l c.stepCount.toNat).2) ∧
    (|(point 3 l c.stepCount.toNat).1| ≤ 99 ∧ |(point 3 l c.stepCount.toNat).2| ≤ 99) ∧
    (k < 13_266 → (search s i (n + 1)).state = .searching ∧
      ((i (n + 1)).stepTick = true →
        (search s i (n + 1)).posX = c.posX + BitVec.ofInt 16 (heading (l % 4)).1 ∧
        (search s i (n + 1)).posY = c.posY + BitVec.ofInt 16 (heading (l % 4)).2)) ∧
    (k = 13_266 → l = 132 ∧ point 3 l c.stepCount.toNat = (-99, -99) ∧
      (search s i (n + 1)).state = .returning) := by
  intro c k l
  -- the registers hold the spot whose index is the number of ticks
  obtain ⟨p, hp, hs⟩ := search_run h hn
  have hl : l = p.leg := hs.spot.leg
  have hcount : c.stepCount.toNat = p.offset := hs.spot.stepCount
  have hk : p.index ≤ 13_266 := hp.trans_le hn.searchTicks_le
  rw [hl, hcount]
  refine ⟨hs.state, ⟨hp.symm, p.inside, ?_⟩, ⟨hs.spot.sideLimit, hs.spot.spiralDir, ?_⟩,
    ⟨hs.posX, hs.posY⟩, cell_bounds hk, fun hlt => ?_, fun hend => ?_⟩
  · rw [legLength, Nat.add_div_right _ (by omega)]
  · rcases leg_of_index hk with hleg | ⟨hleg, -⟩ <;> omega
  · have hleg : p.leg < 132 := leg_lt_of_index (hp.trans_lt hlt)
    -- a tick before the end of leg 132 goes on to the next spot
    have hnext := hs.step (h.live (n + 1)) (h.lost (n + 1)) hleg
    refine ⟨hnext.state, fun ht => ?_⟩
    rw [ht, if_pos rfl] at hnext
    constructor
    · rw [show (search s i (n + 1)).posX = _ from hnext.posX, p.cell_next, Prod.fst_add,
        BitVec.ofInt_add, ← BitVec.add_assoc, ← hs.posX]
    · rw [show (search s i (n + 1)).posY = _ from hnext.posY, p.cell_next, Prod.snd_add,
        BitVec.ofInt_add, ← BitVec.add_assoc, ← hs.posY]
  -- 13,266 steps are the legs before leg 132, counted from 0
  · have hleg : p.leg = 132 := by
      rcases leg_of_index hk with hleg | ⟨hleg, -⟩
      · have hin := p.inside
        have hend' := legStart_add_le hleg
        rw [Spot.index] at hp
        omega
      · exact hleg
    have hoff : p.offset = 0 := by
      rw [Spot.index, hleg, legStart_last] at hp
      omega
    refine ⟨hleg, ?_, hs.step_over (h.live (n + 1)) (h.lost (n + 1)) hleg⟩
    rw [hleg, hoff]
    rfl

/-- The target has been seen and is lost. -/
def lostTarget : SearchController where
  state := .tracking
  posX := 12
  posY := -34
  sideLimit := densityStep
  stepCount := 0
  spiralDir := 0
  pulseTimer := 0
  hasSeenTarget := true
  outYawEn := false
  outYawDir := false
  outPitchEn := false
  outPitchDir := false

/-- A step tick in every cycle and nothing else. -/
def everyTick (_ : ℕ) : Input where
  reset := false
  returnHome := false
  onTarget := false
  stepTick := true
  rxDone := false
  irYawEn := false
  irYawDir := false
  irPitchEn := false
  irPitchDir := false

private theorem lostTarget_episode : Episode lostTarget everyTick :=
  ⟨rfl, rfl, fun _ => ⟨rfl, rfl⟩, fun _ => rfl⟩

/-- Every cycle is a tick. -/
private theorem searchTicks_everyTick (n : ℕ) : searchTicks everyTick n = n :=
  ticks_of_forall (fun _ => rfl) n

/-- The search goes on for as many cycles as it has steps. -/
private theorem everyTick_ongoing {n : ℕ} (h : n ≤ 13_266) : Ongoing everyTick n := by
  intro m hm
  rw [searchTicks_everyTick]
  omega

/-- The search that steps in every cycle is over in cycle 13,267. -/
theorem lostTarget_search : (search lostTarget everyTick 13_266).posX = -87 ∧
    (search lostTarget everyTick 13_267).state = .returning := by
  obtain ⟨-, -, -, ⟨hx, -⟩, -, -, hend⟩ := spiral_closed_form lostTarget everyTick
    lostTarget_episode 13_266 (everyTick_ongoing le_rfl)
  obtain ⟨-, hpoint, hstate⟩ := hend (searchTicks_everyTick _)
  rw [hpoint] at hx
  exact ⟨hx, hstate⟩

/-! ## Coverage -/

section Coverage

variable {s : SearchController} {i : ℕ → Input} {n : ℕ}

/-- No position within 99 steps of the start wraps. -/
private theorem displaced_toInt {x : BitVec 16} {y : ℤ} (hlo : -32_768 ≤ x.toInt - 99)
    (hhi : x.toInt + 99 ≤ 32_767) (hy : |y| ≤ 99) :
    (x + BitVec.ofInt 16 y).toInt = x.toInt + y := by
  obtain ⟨hy', hy''⟩ := abs_le.mp hy
  rw [BitVec.toInt_add, BitVec.toInt_ofInt, Int.bmod_def, Int.bmod_def]
  omega

/-- The position of a search as integers. -/
private theorem search_position (h : Episode s i) (hn : Ongoing i n)
    (hx : -32_768 ≤ s.posX.toInt - 99 ∧ s.posX.toInt + 99 ≤ 32_767)
    (hy : -32_768 ≤ s.posY.toInt - 99 ∧ s.posY.toInt + 99 ≤ 32_767) :
    ∃ p : Spot 3, p.index = searchTicks i n ∧
      (search s i n).posX.toInt = s.posX.toInt + p.cell.1 ∧
      (search s i n).posY.toInt = s.posY.toInt + p.cell.2 := by
  obtain ⟨p, hp, hs⟩ := search_run h hn
  obtain ⟨hbx, hby⟩ := cell_bounds (hp.trans_le hn.searchTicks_le)
  refine ⟨p, hp, ?_, ?_⟩
  · rw [hs.posX, displaced_toInt hx.1 hx.2 hbx]
  · rw [hs.posY, displaced_toInt hy.1 hy.2 hby]

/-- **Coverage without repetition.**  When no position wraps, two cycles of a search
    with the same position have seen the same number of step ticks; and once the
    `r`-th leg down has been completed, every cell of the square around it down to
    the start of its winding is next to a position that has been taken. -/
theorem spiral_coverage (s : SearchController) (i : ℕ → Input) (h : Episode s i)
    (hx : -32_768 ≤ s.posX.toInt - 99 ∧ s.posX.toInt + 99 ≤ 32_767)
    (hy : -32_768 ≤ s.posY.toInt - 99 ∧ s.posY.toInt + 99 ≤ 32_767) :
    (∀ m n, Ongoing i m → Ongoing i n → (search s i m).posX = (search s i n).posX →
      (search s i m).posY = (search s i n).posY → searchTicks i m = searchTicks i n) ∧
    (∀ r T : ℕ, 1 ≤ r → r ≤ 33 → Ongoing i T → 4 * r ≤ (search s i T).leg →
      ∀ a b : ℤ, |a| ≤ 3 * r → -3 * (r - 1) ≤ b → b ≤ 3 * r →
        ∃ t ≤ T, |s.posX.toInt + a - (search s i t).posX.toInt| ≤ 1 ∧
          |s.posY.toInt + b - (search s i t).posY.toInt| ≤ 1) := by
  refine ⟨fun m n hm hn hxe hye => ?_, fun r T hr hr' hT hleg a b ha hb hb' => ?_⟩
  · obtain ⟨p, hp, hpx, hpy⟩ := search_position h hm hx hy
    obtain ⟨q, hq, hqx, hqy⟩ := search_position h hn hx hy
    rw [hxe, hqx] at hpx
    rw [hye, hqy] at hpy
    have hcell : p.cell = q.cell := by
      apply Prod.ext <;> omega
    rw [← hp, ← hq, Spot.cell_injective hcell]
  · obtain ⟨p, hpT, hs⟩ := search_run h hT
    rw [hs.spot.leg] at hleg
    have hdone : legStart 3 (4 * r) ≤ searchTicks i T :=
      (legStart_mono hleg).trans ((Nat.le_add_right _ _).trans hpT.le)
    obtain ⟨q, hq, hqa, hqb⟩ := exists_near (d := 3) (by omega) (n := r) (by exact_mod_cast ha)
      (by push_cast; linarith) (by exact_mod_cast hb')
    -- every step of the spiral up to now has been taken in some cycle
    obtain ⟨t, ht, htq⟩ := exists_ticks (fun m => i (m + 1)) (hq.trans hdone)
    obtain ⟨q', hq', hqx, hqy⟩ := search_position h (hT.mono ht) hx hy
    obtain rfl : q' = q := Spot.ext_index (hq'.trans htq)
    refine ⟨t, ht, ?_, ?_⟩
    · rw [hqx, show s.posX.toInt + a - (s.posX.toInt + q'.cell.1) = a - q'.cell.1 by omega]
      exact hqa
    · rw [hqy, show s.posY.toInt + b - (s.posY.toInt + q'.cell.2) = b - q'.cell.2 by omega]
      exact hqb

end Coverage

/-- After the first winding the cell at the upper left corner has been passed. -/
theorem lostTarget_coverage : ∃ t ≤ 18,
    |lostTarget.posX.toInt + -3 - (search lostTarget everyTick t).posX.toInt| ≤ 1 ∧
      |lostTarget.posY.toInt + 3 - (search lostTarget everyTick t).posY.toInt| ≤ 1 := by
  have hT := everyTick_ongoing (n := 18) (by omega)
  have hleg : 4 * 1 ≤ (search lostTarget everyTick 18).leg := by decide
  exact (spiral_coverage lostTarget everyTick lostTarget_episode (by decide) (by decide)).2 1 18
    le_rfl (by omega) hT hleg (-3) 3 (by decide) (by decide) (by decide)

end Scope.Native.SearchController
