import Scope.Spec.LightToGimbal
import Scope.Spec.SilentLine

/-!
# The light steers the gimbal

What the control loop is for.  Packets keep coming, so light that falls on one side
for long enough takes the gimbal there, a step for every packet up to the travel
limit, and light in the middle leaves it standing.

## Key results

- `bytes_recur`: how long it takes at most to the next byte
- `driven_run`: the position under a command that stays the same
- `centred_light_stands`: light in the middle
- `sided_light_drives`: light on one side
-/

namespace Scope.Native

open Sync StepPulse IrTx IrRx IrLink QpdState

/-! ## Bytes -/

/-- Cycles of the transmitter board in which a command gets too old. -/
def IrLink.Channel.commandPeriod (ch : Channel) : ℕ := ch.q * (commandAge ch + 1) / ch.lo + 1

/-- The receiving clock is not infinitely slow. -/
private theorem IrLink.Tolerance.lo_pos {lo hi q j : ℕ} (h : Tolerance lo hi q j) : 0 < lo := by
  have hburst := h.headerBurst.2
  obtain rfl | hpos := Nat.eq_zero_or_pos lo
  · omega
  · exact hpos

/-- A command gets as old as it may be within the period. -/
private theorem IrLink.Channel.commandAge_le (ch : Channel) (n : ℕ) :
    ch.clock.cycle n + commandAge ch ≤ ch.clock.cycle (n + ch.commandPeriod) := by
  have hpace := ch.paced.fast n ch.commandPeriod
  have hdiv := Nat.lt_mul_div_succ (ch.q * (commandAge ch + 1)) ch.tolerance.lo_pos
  rw [← Channel.commandPeriod] at hdiv
  rw [← Nat.mul_succ] at hpace
  have hlt : commandAge ch + 1 < ch.clock.cycle (n + ch.commandPeriod) - ch.clock.cycle n + 1 :=
    Nat.lt_of_mul_lt_mul_left (hdiv.trans_le hpace)
  omega

section Bytes

variable {ch : Channel} {x : RxState} {q : ℕ → Samples} {y : LaserTop} {home : ℕ → Bool}

/-- Bytes keep coming in. -/
theorem bytes_recur (h : Rested x y) : Recurs (ch.commandPeriod + 5)
    fun n => (laser y home (ch.wire (boardPin x q)) n).rxDone := by
  intro n
  obtain ⟨b, hnb, hb, hacc⟩ := accepts_recurs h.tx h.burst (q := q) (ch.clock.cycle n)
  have hage := ch.commandAge_le n
  rw [commandAge] at hage
  have hheard := ch.heard_pin (boardStart x q) (boardData x q) h.tx h.low h.carrier
  rw [← boardPin_eq] at hheard
  have hout := hheard.received_le h.tx h.low h.prevLevel h.rx h.done n
  have hin := hheard.le_received h.tx h.low h.prevLevel h.rx h.done
    (show b + 1 + ch.latency ≤ ch.clock.cycle (n + ch.commandPeriod) by omega)
  by_contra hnone
  push Not at hnone
  -- without a byte the packet started in cycle `b` would not have come in
  have hquiet : received y.r0.fsm (Wave.delayed 2 true (ch.wire (boardPin x q)))
      (n + ch.commandPeriod + 5) =
        received y.r0.fsm (Wave.delayed 2 true (ch.wire (boardPin x q))) n := by
    refine log_quiet (by omega) fun k hk hkn => ?_
    rw [Nat.add_assoc] at hkn
    have hk' := hnone k hk hkn
    rw [LaserTop.rxDone, board_receiver, receiver_eq h.sync0 h.sync] at hk'
    simpa using hk'
  rw [hquiet] at hin
  have hlen := hin.length_le.trans hout.length_le
  have hmore := length_log_lt (v := boardData x q) hacc (Nat.lt_add_one b)
  have hpre := (log_mono (p := accepts x.tx.ir0 (boardStart x q) (boardData x q))
    (v := boardData x q) hnb).length_le
  rw [IrLink.sent, IrLink.sent] at hlen
  omega

end Bytes

/-! ## A command that stays the same -/

namespace SearchController

/-- Steps of the axis up to the travel limit in direction `d`. -/
def toLimit (a : Axis) (d : Bool) (c : SearchController) : ℕ :=
  if d then (a.limit.toInt - (a.pos c).toInt).toNat else ((a.pos c).toInt + a.limit.toInt).toNat

/-- `TRACKING` with a command for the axis in direction `d`. -/
structure Drives (a : Axis) (d : Bool) (j : Input) (c : SearchController) : Prop
    extends Tracks j c where
  en : a.commanded j = true
  dir : a.commandDir j = d

variable {a : Axis} {d : Bool} {j : Input} {c : SearchController}

/-- There is a bound on the steps to the limit for any position. -/
private theorem toLimit_le (a : Axis) (d : Bool) (c : SearchController) :
    c.toLimit a d ≤ 32_945 := by
  have hlo := (a.pos c).le_toInt
  have hhi := (a.pos c).toInt_lt
  have hlim : a.limit.toInt ≤ 177 := by cases a <;> decide
  unfold toLimit
  split_ifs <;> omega

/-- A byte takes the axis one step on, as long as there is room. -/
theorem Drives.pos (h : Drives a d j c) : (a.pos (c.step j)).toInt =
    (a.pos c).toInt + if j.rxDone = true ∧ 0 < c.toLimit a d then sign d else 0 := by
  obtain ⟨⟨hs, hl, ho⟩, hen, hdir⟩ := h
  rw [track_pos hs hl ho, hen, hdir]
  cases hrx : j.rxDone
  · simp
  · rw [if_pos rfl, commandStep_toInt]
    cases d <;> simp [toLimit, sign] <;> split_ifs <;> omega

end SearchController

open SearchController

section Steady

variable {y : LaserTop} {home l : ℕ → Bool} {a : Axis} {d : Bool} {m n : ℕ}

/-- The bytes that have come in before cycle `n`. -/
def bytes (y : LaserTop) (home l : ℕ → Bool) (n : ℕ) : ℕ :=
  Nat.count (fun k => (laser y home l k).rxDone = true) n

/-- Under a command that stays the same, every byte moves the position by a step up to the
    limit. -/
theorem driven_run (hmn : m ≤ n)
    (hdrives : ∀ k, m ≤ k → k < n → Drives a d (ports y home l k) (controller y home l k)) :
    (a.pos (controller y home l n)).toInt = (a.pos (controller y home l m)).toInt +
      sign d * (min (bytes y home l n - bytes y home l m)
        ((controller y home l m).toLimit a d) : ℕ) := by
  induction n, hmn using Nat.le_induction with
  | base => simp
  | succ n hmn ih =>
    have hpos := (hdrives n hmn (by omega)).pos
    have hih := ih fun k hk hkn => hdrives k hk (by omega)
    have hmono : bytes y home l m ≤ bytes y home l n := Nat.count_monotone _ hmn
    have hcount : bytes y home l (n + 1) =
        bytes y home l n + if (ports y home l n).rxDone = true then 1 else 0 := Nat.count_succ _ n
    rw [controller_succ, hpos, hcount]
    cases (ports y home l n).rxDone
    · simpa using hih
    -- there is room exactly when fewer bytes than steps have come in
    · simp only [toLimit, sign] at hih ⊢
      cases d <;> simp at hih ⊢ <;> split_ifs <;> omega

/-- Without a command for the axis its position and its enable stay, and its step line is high
    within a period. -/
private theorem undriven_run (hφ : y.gimbal.simpledriver.InPhase) (e : ℕ)
    (hidle : ∀ k, m ≤ k → k < m + e → Tracks (ports y home l k) (controller y home l k) ∧
      a.commanded (ports y home l k) = false) :
    a.pos (controller y home l (m + e)) = a.pos (controller y home l m) ∧
    (0 < e → a.en (controller y home l (m + e)) = false) ∧
    (a.line (laser y home l (m + e)).gimbal.simpledriver = true ∨
      (laser y home l (m + e)).gimbal.simpledriver.untilRise + e ≤ 50_000) := by
  have hphase : ∀ k, (laser y home l k).gimbal.simpledriver.InPhase := laser_inPhase hφ
  induction e with
  | zero => exact ⟨rfl, fun h => absurd h (Nat.lt_irrefl 0), .inr (hphase m).bounds.2⟩
  | succ e ih =>
    obtain ⟨hpos, -, hline⟩ := ih fun k hk hke => hidle k hk (by omega)
    obtain ⟨⟨hs, hl, ho⟩, hoff⟩ := hidle (m + e) (by omega) (by omega)
    have hedge : TrackEdge (ports y home l (m + e)) (controller y home l (m + e))
        (controller y home l (m + (e + 1))) := track_edge hs hl ho
    have hen : a.en (controller y home l (m + (e + 1))) = false := by
      rw [hedge.en, hoff, Bool.and_false]
    have hstay : a.pos (controller y home l (m + (e + 1))) =
        a.pos (controller y home l (m + e)) := by
      by_contra hne
      exact absurd (hoff.symm.trans ((hedge.pos a).mp hne).2.1) (by decide)
    refine ⟨hstay.trans hpos, fun _ => hen, ?_⟩
    have hgimbal : (laser y home l (m + (e + 1))).gimbal =
        (laser y home l (m + e)).gimbal.next (controller y home l (m + (e + 1))) := rfl
    rw [hgimbal, Gimbal.line_next (hphase _), Gimbal.untilRise_next (hphase _), hen]
    exact nextLine_settles hline (hphase _).bounds.1

end Steady

/-! ## Light that stays where it is -/

namespace RxSystem

/-- One conversion of each channel, all started between cycle `A` and cycle `N`. -/
def InSpan (analog : ℕ → BitVec 3 → BitVec 12) (s : RxSystem) (A N : ℕ) (k : BitVec 3 → ℕ) :
    Prop :=
  ∀ c, (trace analog s A).adc.conversion ≤ k c ∧ k c ≤ (trace analog s N).adc.conversion

/-- The cycle of the transmitter board from which on its controller knows of light that is
    there since cycle `A` of the receiver board. -/
def seenFrom (ch : Channel) (A : ℕ) : ℕ :=
  ch.clock.first (A + 1_570 + 50_002 + commandAge ch) + 4

section Steering

variable {ch : Channel} {analog : ℕ → BitVec 3 → BitVec 12} {s : RxSystem} {y : LaserTop}
  {home : ℕ → Bool} {a : Axis} {A N n : ℕ}

/-- While there is light, the ports of a controller that tracks answer conversions of the span. -/
private theorem steered (h : Rested s.board.r0 y) (hsound : Sound y.gimbal.controller0)
    (hlit : ∀ k, InSpan analog s A N k → (samples analog k).lit = true)
    (hn : seenFrom ch A + 33_035 * 500_002 < n) (hnN : ch.clock.cycle (n + 1) ≤ N)
    (hhome : ∀ k, seenFrom ch A ≤ k → k ≤ n → home k = false) :
    Tracks (ports y home (ch.wire (gpio1 analog s)) n)
      (controller y home (ch.wire (gpio1 analog s)) n) ∧
    ∃ k, InSpan analog s A N k ∧
      Answers (samples analog k) (ports y home (ch.wire (gpio1 analog s)) n) := by
  have hphoto : ∀ k, A + 1_570 ≤ k → k < N → (photo analog s k).lit = true := by
    intro k hk hkN
    obtain ⟨c, hc, hphoto⟩ := photo_samples analog s hk
    rw [hphoto]
    exact hlit c fun i => ⟨(hc i).1, (hc i).2.1.trans (conversion_mono analog s hkN.le)⟩
  obtain ⟨hseen, htrack⟩ := lit_target_tracked ch s.board.r0 (photo analog s) y home h hsound
    (A + 1_570) N hphoto
  rw [← gpio1_eq] at hseen htrack
  rw [seenFrom] at hn
  simp only [seenFrom] at hhome
  have hstate := (htrack n hn ((ch.clock.mono (Nat.le_succ n)).trans hnN)
    fun k hk hkn => hhome k hk hkn.le).1
  refine ⟨⟨hstate, ports_live (hhome n (by omega) le_rfl), hseen n (by omega) hnN⟩, ?_⟩
  obtain ⟨K, rfl⟩ : ∃ K, n = K + 4 := ⟨n - 4, by omega⟩
  have hK := ch.clock.first_le_iff.mp
    (show ch.clock.first (A + 1_570 + 50_002 + commandAge ch) ≤ K by omega)
  obtain ⟨m, -, hm, k, hk, hans⟩ := command_photo home h
    (show A + 1_571 + commandAge ch ≤ ch.clock.cycle K by omega)
  rw [show K + 4 + 1 = K + 5 from rfl] at hnN
  exact ⟨k, fun c => ⟨(hk c).1, (hk c).2.1.trans (conversion_mono analog s (by omega))⟩, hans⟩

/-- Light on one side is light enough. -/
private theorem lit_of_sided {q : Samples} (hside : 350 < |a.diff q|) : q.lit = true := by
  rw [lit_iff]
  rw [lt_abs] at hside
  cases a <;> simp only [Axis.diff, Samples.dx, Samples.dy] at hside <;> omega

end Steering

/-- **Light in the middle.**  All conversions started from cycle `A` to cycle `N` of the receiver
    board read enough light, and the two halves that an axis compares differ by no more than the
    threshold.  When nobody presses the return button, the axis stands still once the controller
    tracks: its position stays, its enable is low, and from a period of the step clock on its
    motor gets no pulse any more, for as long as the light stays. -/
theorem centred_light_stands (ch : Channel) (analog : ℕ → BitVec 3 → BitVec 12) (s : RxSystem)
    (y : LaserTop) (home : ℕ → Bool) (h : Rested s.board.r0 y)
    (hsound : Sound y.gimbal.controller0) (hphase : y.gimbal.simpledriver.InPhase) (a : Axis)
    (A N : ℕ) (hlit : ∀ k, InSpan analog s A N k → (samples analog k).lit = true)
    (hcentred : ∀ k, InSpan analog s A N k → |a.diff (samples analog k)| ≤ 350) :
    let l := ch.wire (gpio1 analog s)
    let C := seenFrom ch A + 33_035 * 500_002 + 1
    ∀ n, C < n → ch.clock.cycle n ≤ N → (∀ k, seenFrom ch A ≤ k → k < n → home k = false) →
      a.pos (controller y home l n) = a.pos (controller y home l C) ∧
      a.en (controller y home l n) = false ∧
      (C + 50_000 ≤ n → ∀ b, y.gimbal.sent (gimbalPorts y home l) a b n =
        y.gimbal.sent (gimbalPorts y home l) a b (C + 50_000)) := by
  intro l C n hn hnN hhome
  have hidle : ∀ k, C ≤ k → k < n → Tracks (ports y home l k) (controller y home l k) ∧
      a.commanded (ports y home l k) = false := by
    intro k hk hkn
    obtain ⟨htracks, c, hc, hans⟩ := steered h hsound hlit (show _ < k by omega)
      ((ch.clock.mono (Nat.succ_le_of_lt hkn)).trans hnN) fun j hj hjk => hhome j hj (by omega)
    refine ⟨htracks, ?_⟩
    obtain ⟨hlo, hhi⟩ := abs_le.mp (hcentred c hc)
    rw [hans.en, decide_eq_false (by omega)]
  have hrun : ∀ e, C + e ≤ n → _ := fun e he =>
    undriven_run hphase e fun k hk hke => hidle k hk (by omega)
  obtain ⟨e, rfl⟩ := Nat.exists_eq_add_of_lt hn
  obtain ⟨hpos, hen, -⟩ := hrun (e + 1) le_rfl
  refine ⟨hpos, hen (Nat.succ_pos e), fun hperiod b => sent_of_high (fun k hk hkn => ?_) hperiod b⟩
  obtain ⟨d, rfl⟩ := Nat.exists_eq_add_of_le (show C ≤ k by omega)
  have hφ : 1 ≤ (laser y home l (C + d)).gimbal.simpledriver.untilRise :=
    (laser_inPhase hphase _).bounds.1
  exact (hrun d hkn).2.2.resolve_right (by omega)

/-- In even light from the beginning the slow boards track within six minutes. -/
private theorem slowChannel_seenFrom :
    seenFrom slowChannel 0 + 33_035 * 500_002 + 1 ≤ 17_000_000_000 := by
  have hfirst := slowChannel_first
    (show 0 + 1_570 + 50_002 + commandAge slowChannel ≤ 4_000_000 by decide)
  have hseen : seenFrom slowChannel 0 ≤ 4_000_004 := by
    rw [seenFrom]
    omega
  generalize seenFrom slowChannel 0 = B at hseen ⊢
  omega

/-- The boards in even light, ten minutes later. -/
theorem darkSystem_stands : Axis.pitch.en (controller trackingLaser (fun _ => false)
    (slowChannel.wire (gpio1 (fun _ _ => 100) darkSystem)) 30_000_000_000) = false :=
  (centred_light_stands slowChannel (fun _ _ => 100) darkSystem trackingLaser (fun _ => false)
    darkSystem_rested trackingLaser_sound (by simp [Driver.InPhase, trackingLaser]) .pitch 0
    33_000_000_000 (fun _ _ => by simp [samples, lit_iff])
    (fun _ _ => by simp [samples, Axis.diff, Samples.dy]) 30_000_000_000
    (slowChannel_seenFrom.trans_lt (by decide)) (by decide) fun _ _ _ => rfl).2.1

/-- **Light on one side.**  All conversions started from cycle `A` to cycle `N` of the receiver
    board read more light on one of the two halves that an axis compares, by more than the
    threshold.  When nobody presses the return button, from the moment in which the controller
    tracks every byte moves the position of the axis by a step against the difference, up to the
    travel limit, and bytes come often enough to get it there. -/
theorem sided_light_drives (ch : Channel) (analog : ℕ → BitVec 3 → BitVec 12) (s : RxSystem)
    (y : LaserTop) (home : ℕ → Bool) (h : Rested s.board.r0 y)
    (hsound : Sound y.gimbal.controller0) (a : Axis) (d : Bool) (A N : ℕ)
    (hside : ∀ k, InSpan analog s A N k →
      if d then a.diff (samples analog k) < -350 else 350 < a.diff (samples analog k)) :
    let l := ch.wire (gpio1 analog s)
    let C := seenFrom ch A + 33_035 * 500_002 + 1
    let room := (controller y home l C).toLimit a d
    room ≤ 32_945 ∧
    Recurs (ch.commandPeriod + 5) (fun n => (laser y home l n).rxDone) ∧
    ∀ n, C ≤ n → ch.clock.cycle n ≤ N → (∀ k, seenFrom ch A ≤ k → k < n → home k = false) →
      (a.pos (controller y home l n)).toInt = (a.pos (controller y home l C)).toInt +
        sign d * (min (bytes y home l n - bytes y home l C) room : ℕ) ∧
      (C + room * (ch.commandPeriod + 5) ≤ n → (controller y home l n).toLimit a d = 0) := by
  intro l C room
  have hrecur : Recurs (ch.commandPeriod + 5) fun n => (laser y home l n).rxDone := by
    intro n
    rw [show l = ch.wire (boardPin s.board.r0 (photo analog s)) from
      congrArg ch.wire (gpio1_eq analog s)]
    exact bytes_recur h n
  refine ⟨toLimit_le a d _, hrecur, fun n hn hnN hhome => ?_⟩
  -- light on one side is a target
  have hlit : ∀ k, InSpan analog s A N k → (samples analog k).lit = true := by
    intro k hk
    have hd := hside k hk
    refine lit_of_sided (a := a) (lt_abs.mpr ?_)
    cases d
    · exact .inl hd
    · exact .inr (lt_neg_of_lt_neg hd)
  -- so the controller tracks, and each byte asks for the same direction
  have hdrives : ∀ k, C ≤ k → k < n → Drives a d (ports y home l k) (controller y home l k) := by
    intro k hk hkn
    obtain ⟨htracks, c, hc, hans⟩ := steered h hsound hlit (show _ < k by omega)
      ((ch.clock.mono (Nat.succ_le_of_lt hkn)).trans hnN) fun j hj hjk => hhome j hj (by omega)
    have hd := hside c hc
    cases d
    · exact ⟨htracks, (hans.en a).trans (decide_eq_true (.inl hd)), hans.down a hd⟩
    · exact ⟨htracks, (hans.en a).trans (decide_eq_true (.inr hd)), hans.up a hd⟩
  have hpos := driven_run hn hdrives
  refine ⟨hpos, fun hlong => ?_⟩
  -- `room` periods bring at least `room` bytes
  have hcount : bytes y home l C + (controller y home l C).toLimit a d ≤
      bytes y home l (C + room * (ch.commandPeriod + 5)) := hrecur.le_count C room
  have hmono : bytes y home l (C + room * (ch.commandPeriod + 5)) ≤ bytes y home l n :=
    Nat.count_monotone _ hlong
  rw [min_eq_right (by omega)] at hpos
  simp only [toLimit, sign] at hpos ⊢
  cases d <;> simp at hpos ⊢ <;> omega

/-- Light on the quadrants 0 and 1 takes the yaw axis to its limit within an hour. -/
theorem darkSystem_driven : (controller trackingLaser (fun _ => false) (slowChannel.wire
    (gpio1 (fun _ c => if c.toNat < 2 then 1_000 else 0) darkSystem)) 150_000_000_000).toLimit
      .yaw false = 0 := by
  obtain ⟨hroom, -, hdrive⟩ := sided_light_drives slowChannel
    (fun _ c => if c.toNat < 2 then 1_000 else 0) darkSystem trackingLaser (fun _ => false)
    darkSystem_rested trackingLaser_sound .yaw false 0 170_000_000_000
    fun _ _ => by simp [samples, Axis.diff, Samples.dx]
  have hperiod : slowChannel.commandPeriod + 5 ≤ 3_000_000 := by decide
  exact (hdrive 150_000_000_000 (slowChannel_seenFrom.trans (by decide)) (by decide)
    fun _ _ _ => rfl).2 ((Nat.add_le_add slowChannel_seenFrom (Nat.mul_le_mul hroom hperiod)).trans
      (by decide))

end RxSystem

end Scope.Native
