import Scope.Spec.ControlLoop
import Scope.Spec.SampleAge

/-!
# From the light to the gimbal

The receiver board with its converter, the channel, and the transmitter board.
Nothing has been reset: the scanner finds into its rounds by itself, and from
then on the samples, the command and the mode follow the light.

## Key results

- `photo_recent`: the conversions that the classifier works on
- `command_photo` / `light_commands`: the light behind a command at the ports of the controller
- `dark_light_rests` / `bright_light_tracked`: what becomes of the gimbal
-/

namespace Scope.Native

open Sync AdcSystem QpdState IrTx IrRx IrLink

/-- The difference of the light that an axis works on. -/
def Axis.diff (a : Axis) (q : Samples) : ℤ :=
  match a with
  | yaw => q.dx
  | pitch => q.dy

/-- The command bits at the ports of the controller compare the light of the samples against
    the threshold. -/
structure Answers (q : Samples) (i : SearchController.Input) : Prop where
  en : ∀ a : Axis, a.commanded i = decide (a.diff q > 350 ∨ a.diff q < -350)
  down : ∀ a : Axis, a.diff q > 350 → a.commandDir i = false
  up : ∀ a : Axis, a.diff q < -350 → a.commandDir i = true

/-- The direction bit that the decoder makes of the one of the classifier. -/
private theorem dir_down {diff : ℤ} {kept : Bool} (h : diff > 350) :
    (!if diff > 350 then true else if diff < -350 then false else kept) = false := by
  rw [if_pos h]
  rfl

/-- The decoder inverts the direction of a negative difference to up. -/
private theorem dir_up {diff : ℤ} {kept : Bool} (h : diff < -350) :
    (!if diff > 350 then true else if diff < -350 then false else kept) = true := by
  rw [if_neg (by omega), if_pos h]
  rfl

namespace RxSystem

/-- The system on the receiver board in front of clock edge `n`, without reset. -/
def trace (analog : ℕ → BitVec 3 → BitVec 12) (s : RxSystem) (n : ℕ) : RxSystem :=
  run (step analog) s (fun _ => true) n

/-- The samples of the classifier. -/
def photo (analog : ℕ → BitVec 3 → BitVec 12) (s : RxSystem) (n : ℕ) : Samples :=
  (trace analog s n).board.samples

/-- The pin `GPIO_1[0]`. -/
def gpio1 (analog : ℕ → BitVec 3 → BitVec 12) (s : RxSystem) (n : ℕ) : Bool :=
  (trace analog s n).board.r0.irOut

section Photo

variable {analog : ℕ → BitVec 3 → BitVec 12} {s : RxSystem} {A m n : ℕ}

/-- `rx_state` runs on the samples. -/
private theorem trace_r0 (analog : ℕ → BitVec 3 → BitVec 12) (s : RxSystem) (n : ℕ) :
    (trace analog s n).board.r0 = Native.board s.board.r0 (photo analog s) n := by
  have hstep : ∀ (j : Bool) (r : RxSystem), (step analog j r).board.r0 =
      r.board.r0.step { reset := !j, q := r.board.samples } := fun _ _ => rfl
  exact run_component (fun r => r.board.r0) hstep s _ n

/-- The pin depends on the light through the samples of the scanner alone. -/
theorem gpio1_eq (analog : ℕ → BitVec 3 → BitVec 12) (s : RxSystem) :
    gpio1 analog s = boardPin s.board.r0 (photo analog s) := by
  funext n
  rw [gpio1, trace_r0, boardPin]

/-- The board goes on from the state it has reached. -/
private theorem trace_add (m n : ℕ) : trace analog s (m + n) = trace analog (trace analog s m) n :=
  run_add _ _ _ m n

/-- Conversions are counted up. -/
theorem conversion_mono (analog : ℕ → BitVec 3 → BitVec 12) (s : RxSystem) (h : m ≤ n) :
    (trace analog s m).adc.conversion ≤ (trace analog s n).adc.conversion := by
  induction n, h using Nat.le_induction with
  | base => exact le_rfl
  | succ n _ ih =>
    refine ih.trans ?_
    rw [trace, trace, run_succ, step]
    simp only [Ltc2308.step, Ltc2308.capture]
    split_ifs <;> simp

/-- From some cycles behind `A` on, every register holds one of the last five conversions,
    and it has been started since. -/
private theorem quad_recent (analog : ℕ → BitVec 3 → BitVec 12) (s : RxSystem) (hn : A + 1_570 ≤ n)
    (c : Fin 4) :
    ∃ k, (trace analog s A).adc.conversion ≤ k ∧ k ≤ (trace analog s n).adc.conversion ∧
      (trace analog s n).adc.conversion ≤ k + 4 ∧
      (trace analog s n).board.qpdrd.quad c = analog k (chan c) := by
  obtain ⟨j, hj, x, hk, hx⟩ := round_begins analog (trace analog s A).scanning
  obtain ⟨m, hm, rfl⟩ : ∃ m, 792 ≤ m ∧ n = A + j + m := ⟨n - A - j, by omega, by omega⟩
  have hscan : ∀ i, (trace analog s (A + i)).scanning =
      run (AdcSystem.step analog) (trace analog s A).scanning (fun _ => false) i := by
    intro i
    rw [trace_add]
    exact scanning_run i
  rw [← hscan] at hk hx
  obtain ⟨r, hr, hr', hquad⟩ := quad_fresh analog hx hm c
  have hconv := (inRound_conversion (@round_run analog _ _ hx m)).1
  have hrun : (trace analog s (A + j + m)).scanning =
      run (AdcSystem.step analog) (trace analog s (A + j)).scanning (fun _ => false) m := by
    rw [trace_add]
    exact scanning_run m
  rw [← hrun] at hquad hconv
  rw [round_k] at hconv
  have hstart := conversion_mono analog s (Nat.le_add_right A j)
  change x.k = (trace analog s (A + j)).adc.conversion at hk
  change (trace analog s (A + j + m)).adc.conversion = x.k + m / 160 at hconv
  exact ⟨x.k + r, by omega, by omega, by omega, hquad⟩

/-- The four samples. -/
theorem photo_recent (analog : ℕ → BitVec 3 → BitVec 12) (s : RxSystem) (hn : A + 1_570 ≤ n) :
    ∃ k : Fin 4 → ℕ, (∀ c, (trace analog s A).adc.conversion ≤ k c ∧
      k c ≤ (trace analog s n).adc.conversion ∧ (trace analog s n).adc.conversion ≤ k c + 4) ∧
      photo analog s n = ⟨analog (k 0) (chan 0), analog (k 1) (chan 1), analog (k 2) (chan 2),
        analog (k 3) (chan 3)⟩ := by
  choose k hA hk hk' hquad using fun c => quad_recent analog s hn c
  refine ⟨k, fun c => ⟨hA c, hk c, hk' c⟩, ?_⟩
  rw [← hquad, ← hquad, ← hquad, ← hquad]
  rfl

/-- There is light when the quadrants add up to more than 300. -/
theorem lit_iff (q : Samples) :
    q.lit = true ↔ 300 < q.q0.toNat + q.q1.toNat + q.q2.toNat + q.q3.toNat := by
  rw [Samples.lit, decide_eq_true_iff, sum_toInt]
  omega

/-- The samples that one conversion of each channel makes. -/
def samples (analog : ℕ → BitVec 3 → BitVec 12) (k : BitVec 3 → ℕ) : Samples :=
  ⟨analog (k 0) 0, analog (k 1) 1, analog (k 2) 2, analog (k 3) 3⟩

/-- The samples by the codes of their channels. -/
theorem photo_samples (analog : ℕ → BitVec 3 → BitVec 12) (s : RxSystem) (hn : A + 1_570 ≤ n) :
    ∃ k : BitVec 3 → ℕ, (∀ c, (trace analog s A).adc.conversion ≤ k c ∧
      k c ≤ (trace analog s n).adc.conversion ∧ (trace analog s n).adc.conversion ≤ k c + 4) ∧
      photo analog s n = samples analog k := by
  obtain ⟨k, hk, hphoto⟩ := photo_recent analog s hn
  exact ⟨fun c => k (Fin.ofNat 4 c.toNat), fun c => hk _, hphoto⟩

end Photo

/-! ## Commands -/

/-- The ports of the controller answer the samples that the classifier has read in some
    cycle, long enough behind `A`. -/
theorem command_photo {ch : Channel} {analog : ℕ → BitVec 3 → BitVec 12} {s : RxSystem}
    {y : LaserTop} (home : ℕ → Bool) {A K : ℕ} (h : Rested s.board.r0 y)
    (hK : A + 1_571 + commandAge ch ≤ ch.clock.cycle K) :
    ∃ n, ch.clock.cycle K ≤ n + 1 + commandAge ch ∧ n + 1 < ch.clock.cycle (K + 5) ∧
      ∃ k : BitVec 3 → ℕ, (∀ c, (trace analog s A).adc.conversion ≤ k c ∧
        k c ≤ (trace analog s n).adc.conversion ∧ (trace analog s n).adc.conversion ≤ k c + 4) ∧
        Answers (samples analog k) (ports y home (ch.wire (gpio1 analog s)) (K + 4)) := by
  obtain ⟨a, hage, haK, -, -, -, hyawEn, hyawDir, hpitchEn, hpitchDir⟩ :=
    command_fresh ch s.board.r0 (photo analog s) y home h K (by omega)
  obtain ⟨n, rfl⟩ : ∃ n, a = n + 1 := ⟨a - 1, by omega⟩
  obtain ⟨k, hk, hphoto⟩ := photo_samples analog s (show A + 1_570 ≤ n by omega)
  refine ⟨n, hage, haK, k, hk, ?_⟩
  have hqpd : (Native.board s.board.r0 (photo analog s) (n + 1)).qpd0 =
      (Native.board s.board.r0 (photo analog s) n).qpd0.step false (samples analog k) := by
    rw [Native.board, run_succ, hphoto]
    rfl
  obtain ⟨hmx, hdx⟩ := step_horizontal false (samples analog k)
    (Native.board s.board.r0 (photo analog s) n).qpd0
  obtain ⟨hmy, hdy⟩ := step_vertical false (samples analog k)
    (Native.board s.board.r0 (photo analog s) n).qpd0
  rw [← gpio1_eq, hqpd] at hyawEn hyawDir hpitchEn hpitchDir
  rw [hmx] at hyawEn
  rw [hmy] at hpitchEn
  rw [hdx] at hyawDir
  rw [hdy] at hpitchDir
  -- one axis after the other
  refine ⟨fun a => ?_, fun a hr => ?_, fun a hl => ?_⟩ <;> cases a
  · exact hyawEn
  · exact hpitchEn
  · exact hyawDir.trans (dir_down hr)
  · exact hpitchDir.trans (dir_down hr)
  · exact hyawDir.trans (dir_up hl)
  · exact hpitchDir.trans (dir_up hl)

/-- **Light behind a command.**  In every cycle of the transmitter board, once packets have had
    the time to arrive, the movement ports of the controller compare the light of four
    conversions, one of each channel, against the threshold.  They are among the last five that
    had been started when the classifier read them, and that was no longer ago than the age of
    a command.  The age counts up to the begin of cycle `K` of the receiving clock, four cycles
    in front of the one that the ports are read in. -/
theorem light_commands (ch : Channel) (analog : ℕ → BitVec 3 → BitVec 12) (s : RxSystem)
    (y : LaserTop) (home : ℕ → Bool) (h : Rested s.board.r0 y) (K : ℕ)
    (hK : commandAge ch + 1_571 ≤ ch.clock.cycle K) :
    ∃ n, ch.clock.cycle K ≤ n + 1 + commandAge ch ∧ n + 1 < ch.clock.cycle (K + 5) ∧
      ∃ k : Fin 4 → ℕ, (∀ c, k c ≤ (trace analog s n).adc.conversion ∧
        (trace analog s n).adc.conversion ≤ k c + 4) ∧
      let q : Samples := ⟨analog (k 0) (chan 0), analog (k 1) (chan 1), analog (k 2) (chan 2),
        analog (k 3) (chan 3)⟩
      let i := ports y home (ch.wire (gpio1 analog s)) (K + 4)
      i.irYawEn = decide (q.dx > 350 ∨ q.dx < -350) ∧
      (q.dx > 350 → i.irYawDir = false) ∧ (q.dx < -350 → i.irYawDir = true) ∧
      i.irPitchEn = decide (q.dy > 350 ∨ q.dy < -350) ∧
      (q.dy > 350 → i.irPitchDir = false) ∧ (q.dy < -350 → i.irPitchDir = true) := by
  obtain ⟨n, hage, haK, k, hk, hans⟩ := command_photo home h
    (show 0 + 1_571 + commandAge ch ≤ ch.clock.cycle K by omega)
  exact ⟨n, hage, haK, fun c => k (chan c), fun c => (hk _).2, hans.en .yaw, hans.down .yaw,
    hans.up .yaw, hans.en .pitch, hans.down .pitch, hans.up .pitch⟩

theorem darkSystem_rested : Rested darkSystem.board.r0 trackingLaser :=
  ⟨⟨rfl, rfl, rfl, rfl, rfl, rfl, rfl⟩, rfl, by decide, by decide⟩

/-- Light on the quadrants 0 and 1 has the yaw motor enabled within 60 ms. -/
theorem darkSystem_commands : (ports trackingLaser (fun _ => false) (slowChannel.wire
    (gpio1 (fun _ c => if c.toNat < 2 then 1_000 else 0) darkSystem)) 3_000_004).irYawEn =
      true := by
  obtain ⟨n, -, -, k, -, hyaw, -⟩ := light_commands slowChannel
    (fun _ c => if c.toNat < 2 then 1_000 else 0) darkSystem trackingLaser (fun _ => false)
    darkSystem_rested 3_000_000 (by decide)
  exact hyaw.trans (by decide)

/-! ## Modes -/

section Modes

variable {analog : ℕ → BitVec 3 → BitVec 12} {s : RxSystem} {b : Fin 4 → ℕ} {A N n : ℕ}

/-- What is read in the dark is dark, as soon as every register has been written. -/
private theorem photo_dark (hb : b 0 + b 1 + b 2 + b 3 ≤ 300)
    (hdark : ∀ k c, (trace analog s A).adc.conversion ≤ k →
      k ≤ (trace analog s N).adc.conversion → (analog k (chan c)).toNat ≤ b c)
    (hn : A + 1_570 ≤ n) (hnN : n ≤ N) : (photo analog s n).lit = false := by
  obtain ⟨k, hk, hphoto⟩ := photo_recent analog s hn
  have hle : ∀ c, (analog (k c) (chan c)).toNat ≤ b c := fun c =>
    hdark (k c) c (hk c).1 ((hk c).2.1.trans (conversion_mono analog s hnN))
  have h0 := hle 0
  have h1 := hle 1
  have h2 := hle 2
  have h3 := hle 3
  rw [← Bool.not_eq_true, lit_iff, hphoto]
  simp only
  omega

/-- What is read in the light is light. -/
private theorem photo_bright (hb : 300 < b 0 + b 1 + b 2 + b 3)
    (hlit : ∀ k c, (trace analog s A).adc.conversion ≤ k →
      k ≤ (trace analog s N).adc.conversion → b c ≤ (analog k (chan c)).toNat)
    (hn : A + 1_570 ≤ n) (hnN : n ≤ N) : (photo analog s n).lit = true := by
  obtain ⟨k, hk, hphoto⟩ := photo_recent analog s hn
  have hle : ∀ c, b c ≤ (analog (k c) (chan c)).toNat := fun c =>
    hlit (k c) c (hk c).1 ((hk c).2.1.trans (conversion_mono analog s hnN))
  have h0 := hle 0
  have h1 := hle 1
  have h2 := hle 2
  have h3 := hle 3
  rw [lit_iff, hphoto]
  simp only
  omega

end Modes

/-- **Light gone.**  All conversions started from cycle `A` to cycle `N` of the receiver board
    read too little light.  Then the controller learns of it in time, and when nobody presses
    the return button from then on, the gimbal comes to rest at its resting place with both
    enables low, and stays there for as long as it is dark. -/
theorem dark_light_rests (ch : Channel) (analog : ℕ → BitVec 3 → BitVec 12) (s : RxSystem)
    (y : LaserTop) (home : ℕ → Bool) (h : Rested s.board.r0 y)
    (hsound : SearchController.Sound y.gimbal.controller0) (b : Fin 4 → ℕ)
    (hb : b 0 + b 1 + b 2 + b 3 ≤ 300) (A N : ℕ)
    (hdark : ∀ k c, (trace analog s A).adc.conversion ≤ k →
      k ≤ (trace analog s N).adc.conversion → (analog k (chan c)).toNat ≤ b c) :
    let l := ch.wire (gpio1 analog s)
    let B := ch.clock.first (A + 1_570 + 500_001 + commandAge ch) + 4
    (∀ n, B ≤ n → ch.clock.cycle (n + 1) ≤ N → (ports y home l n).onTarget = false) ∧
    ∀ n, B + 46_037 * 500_002 < n → ch.clock.cycle n ≤ N →
      (∀ k, B ≤ k → k < n → home k = false) →
      SearchController.Resting (controller y home l B).parking (controller y home l n) ∧
      (controller y home l n).outYawEn = false ∧ (controller y home l n).outPitchEn = false := by
  intro l
  rw [show l = ch.wire (boardPin s.board.r0 (photo analog s)) from
    congrArg ch.wire (gpio1_eq analog s)]
  exact dark_target_rests ch s.board.r0 (photo analog s) y home h hsound (A + 1_570) N
    fun k hk hkN => photo_dark hb hdark hk hkN.le

theorem trackingLaser_sound : SearchController.Sound trackingLaser.gimbal.controller0 := by
  constructor <;> simp [trackingLaser]

/-- Its clock has counted no more cycles than the other one. -/
theorem slowChannel_first {T k : ℕ} (h : T ≤ k) : slowChannel.clock.first T ≤ k :=
  slowChannel.clock.first_le_iff.mpr (by
    change T ≤ k * 11 / 10
    omega)

/-- Ten minutes in the dark end with the motors off. -/
theorem darkSystem_rests : (controller trackingLaser (fun _ => false) (slowChannel.wire
    (gpio1 (fun _ _ => 0) darkSystem)) 30_000_000_000).outYawEn = false := by
  have hB := slowChannel_first
    (show 0 + 1_570 + 500_001 + commandAge slowChannel ≤ 4_000_000 by decide)
  exact ((dark_light_rests slowChannel (fun _ _ => 0) darkSystem trackingLaser (fun _ => false)
    darkSystem_rested trackingLaser_sound (fun _ => 0) (by decide) 0 33_000_000_000
    fun _ _ _ _ => le_rfl).2 30_000_000_000 (by omega) (by decide) fun _ _ _ => rfl).2.1

/-- **Light there.**  All conversions started from cycle `A` to cycle `N` of the receiver board
    read enough light.  Then the controller learns of it in time, and when nobody presses the
    return button from then on, it comes to track the target, for as long as there is light. -/
theorem bright_light_tracked (ch : Channel) (analog : ℕ → BitVec 3 → BitVec 12) (s : RxSystem)
    (y : LaserTop) (home : ℕ → Bool) (h : Rested s.board.r0 y)
    (hsound : SearchController.Sound y.gimbal.controller0) (b : Fin 4 → ℕ)
    (hb : 300 < b 0 + b 1 + b 2 + b 3) (A N : ℕ)
    (hlit : ∀ k c, (trace analog s A).adc.conversion ≤ k →
      k ≤ (trace analog s N).adc.conversion → b c ≤ (analog k (chan c)).toNat) :
    let l := ch.wire (gpio1 analog s)
    let B := ch.clock.first (A + 1_570 + 50_002 + commandAge ch) + 4
    (∀ n, B ≤ n → ch.clock.cycle (n + 1) ≤ N → (ports y home l n).onTarget = true) ∧
    ∀ n, B + 33_035 * 500_002 < n → ch.clock.cycle n ≤ N →
      (∀ k, B ≤ k → k < n → home k = false) →
      (controller y home l n).state = .tracking ∧
      (B + 33_035 * 500_002 + 1 < n → (controller y home l n).hasSeenTarget = true) := by
  intro l
  rw [show l = ch.wire (boardPin s.board.r0 (photo analog s)) from
    congrArg ch.wire (gpio1_eq analog s)]
  exact lit_target_tracked ch s.board.r0 (photo analog s) y home h hsound (A + 1_570) N
    fun k hk hkN => photo_bright hb hlit hk hkN.le

/-- Ten minutes of light end with the target tracked. -/
theorem darkSystem_tracks : (controller trackingLaser (fun _ => false) (slowChannel.wire
    (gpio1 (fun _ _ => 100) darkSystem)) 30_000_000_000).state = .tracking := by
  have hB := slowChannel_first
    (show 0 + 1_570 + 50_002 + commandAge slowChannel ≤ 4_000_000 by decide)
  exact ((bright_light_tracked slowChannel (fun _ _ => 100) darkSystem trackingLaser
    (fun _ => false) darkSystem_rested trackingLaser_sound (fun _ => 100) (by decide) 0
    33_000_000_000 fun _ _ _ _ => le_rfl).2 30_000_000_000 (by omega) (by decide)
    fun _ _ _ => rfl).1

end RxSystem

end Scope.Native
