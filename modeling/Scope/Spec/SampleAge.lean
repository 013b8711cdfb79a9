import Scope.Native.LaserRx
import Scope.Spec.AdcChannels
import Scope.Spec.Quadrants

/-!
# The age of a sample

The scanner visits each quadrant once in four rounds, so what a quadrant register
holds is never older than five.  From whatever registers it starts, with no reset
at all, the scanner falls into its rounds by itself.

## Key results

- `quad_fresh`: the conversion that a quadrant register comes from
- `toRound_step` / `scanner_stabilises`: the scanner finds into its rounds
- `command_of_light`: the command bits of the receiver board and the light they come from
-/

namespace Scope.Native

open Sync

namespace AdcSystem

open AdcQpdScanner

section Fresh

variable {analog : ℕ → BitVec 3 → BitVec 12} {x : Context} {s : AdcSystem} {m o r : ℕ} {c : Fin 4}

private theorem round_succ (r : ℕ) : x.round analog (r + 1) = (x.round analog r).next analog := rfl

variable (analog x) in
/-- What a round stores stays for three more. -/
private theorem round_quad (r : ℕ) : ∀ i < 4,
    (x.round analog (r + 1 + i)).q (x.round analog r).c = (x.round analog r).v := by
  intro i
  induction i with
  | zero => exact fun _ => Function.update_self _ _ _
  | succ i ih =>
    intro hi
    rw [← ih (by omega), ← Nat.add_assoc, round_succ]
    refine Function.update_of_ne ?_ _ _
    rw [round_c, round_c, Ne, Fin.ext_iff]
    simp only [Fin.val_add, Fin.ofNat]
    omega

/-- The registers in a cycle are those of the last round that is through its transfer. -/
private theorem quad_run (h : InRound x 0 s) (t o : ℕ) (ho : o < 160) :
    (run (step analog) s (fun _ => false) (160 * t + 152 + o)).scanner.quad =
      (x.round analog (t + 1)).q := by
  have hround : (run (step analog) s (fun _ => false) (160 * t + 152 + o)).scanner.quad = _ :=
    inRound_quad (round_run h (160 * t + 152 + o))
  by_cases hlast : o < 8
  · rw [show (160 * t + 152 + o) % 160 = 152 + o by omega, if_neg (by omega),
      show (160 * t + 152 + o) / 160 = t by omega] at hround
    exact hround
  · rw [show (160 * t + 152 + o) % 160 = o - 8 by omega, if_pos (by omega),
      show (160 * t + 152 + o) / 160 = t + 1 by omega] at hround
    exact hround

variable (analog) in
/-- From the fifth round on, every register holds a conversion of its own channel that has
    been started no more than 791 cycles ago. -/
theorem quad_fresh (h : InRound x 0 s) (hm : 792 ≤ m) (c : Fin 4) :
    ∃ r, 160 * r + 152 ≤ m ∧ m < 160 * r + 792 ∧
      (run (step analog) s (fun _ => false) m).scanner.quad c = analog (x.k + r) (chan c) := by
  obtain ⟨t, o, ho, rfl⟩ : ∃ t o, o < 160 ∧ m = 160 * t + 152 + o :=
    ⟨(m - 152) / 160, (m - 152) % 160, by omega, by omega⟩
  -- one of the last four rounds was for quadrant `c`
  obtain ⟨i, hi, hc⟩ : ∃ i < 4, (x.round analog (t - i)).c = c := by
    refine ⟨(x.c + Fin.ofNat 4 t - c).val, Fin.isLt _, ?_⟩
    rw [round_c, Fin.ext_iff]
    simp only [Fin.val_add, Fin.val_sub, Fin.ofNat]
    omega
  refine ⟨t - i, by omega, by omega, ?_⟩
  have hquad := round_quad analog x (t - i) i hi
  obtain ⟨hsrc, hv⟩ := round_v analog x (r := t - i) (by omega)
  rw [hc, show t - i + 1 + i = t + 1 by omega] at hquad
  rw [quad_run h t o ho, hquad, hv, hsrc, hc, round_k]

end Fresh

/-! ## From any registers -/

/-- The rounds that go by until the channel is one of the four. -/
def strayRounds (ch : BitVec 3) : ℕ := if ch.toNat ≤ 3 then 0 else 8 - ch.toNat

/-- The cycles that go by until a round begins on one of the four channels. -/
def toRound (s : AdcQpdScanner) : ℕ :=
  let rounds := strayRounds s.ch
  match s.state with
  | .start =>
    if s.count.toNat = 0 then 159 + 160 * (rounds - 1) else s.count.toNat - 1 + 160 * rounds
  | .convert =>
    if s.count.toNat = 0 then 33 + 160 * rounds else s.count.toNat + 33 + 160 * (rounds - 1)
  | .transfer => s.count.toNat + 9 + 160 * rounds
  | .acquire | .unused _ => s.count.toNat + 1 + 160 * rounds

section Stray

variable {analog : ℕ → BitVec 3 → BitVec 12} {s : AdcQpdScanner} {n : ℕ}

/-- No state is further from a round than 776 cycles. -/
private theorem toRound_lt (s : AdcQpdScanner) : toRound s < 777 := by
  have hc := s.count.isLt
  unfold toRound strayRounds
  cases s.state <;> simp only <;> split_ifs <;> omega

/-- Each round takes a stray channel on. -/
private theorem strayRounds_next (ch : BitVec 3) :
    strayRounds (if ch = lastch then firstch else ch + 1) = strayRounds ch - 1 := by
  revert ch
  decide

/-- Taking in a sample takes no time. -/
private theorem store_timing (s n : AdcQpdScanner) :
    (s.store n).state = n.state ∧ (s.store n).count = n.count ∧ (s.store n).ch = n.ch := by
  unfold store
  split_ifs <;> exact ⟨rfl, rfl, rfl⟩

/-- The registers that decide where in a round the scanner is. -/
private theorem step_timing (sdo : Bool) {st : State} {cn : BitVec 7}
    (hn : s.next false = (st, cn)) :
    (s.step { reset := false, sdo }).state = st ∧ (s.step { reset := false, sdo }).count = cn ∧
    (s.step { reset := false, sdo }).ch =
      if s.state = .convert ∧ cn = 0 then (if s.ch = lastch then firstch else s.ch + 1)
      else s.ch := by
  rw [scanner_step s sdo _ _ hn]
  simp only [quadrants, channels, Bool.false_eq_true, if_false]
  split_ifs <;> simp [store_timing]

/-- Every clock edge leads nearer to the beginning of a round. -/
theorem toRound_step (sdo : Bool) (h : 0 < toRound s) :
    toRound (s.step { reset := false, sdo }) < toRound s := by
  obtain h0 | hpos := Nat.eq_zero_or_pos s.count.toNat
  -- at the end of a phase
  · have hnext := next_phase h0
    cases hs : s.state <;> rw [hs] at hnext <;>
      obtain ⟨hstate, hcount, hch⟩ := step_timing sdo hnext
    all_goals
      rw [hs] at hch
      simp [toRound, hstate, hcount, hch, hs, h0]
  -- inside a phase; the channel goes on when the conversion is over
  · obtain ⟨hstate, hcount, hch⟩ := step_timing sdo (next_count hpos)
    have hdown := BitVec.toNat_sub_one hpos
    cases hs : s.state <;> rw [hs] at hstate hch <;>
      simp only [toRound, hs, hstate, hcount, hdown] at h ⊢
    case convert =>
      have hstray := strayRounds_next s.ch
      have hzero : s.count - 1 = 0 ↔ s.count.toNat = 1 := by
        rw [← BitVec.toNat_inj, hdown]
        simp
        omega
      simp only [hzero, true_and] at hch
      rw [hch]
      by_cases h1 : s.count.toNat = 1
      · rw [if_pos h1, hstray]
        split_ifs <;> omega
      · rw [if_neg h1]
        split_ifs <;> omega
    all_goals
      simp only [reduceCtorEq, false_and, if_false] at hch
      rw [hch]
    case start => split_ifs at h ⊢ <;> omega
    all_goals omega

/-- A clock edge that leads to the beginning of a round on one of the four channels. -/
private theorem inRound_of_toRound {s : AdcSystem} (h : toRound (s.step analog false).scanner = 0) :
    ∃ x : Context, x.k = (s.step analog false).adc.conversion ∧
      InRound x 0 (s.step analog false) := by
  generalize hs' : s.step analog false = s' at h ⊢
  obtain ⟨hstart, hcount, hstray⟩ : s'.scanner.state = .start ∧ s'.scanner.count.toNat = 1 ∧
      strayRounds s'.scanner.ch = 0 := by
    unfold toRound at h
    cases hs : s'.scanner.state <;> simp only [hs] at h
    case start => split_ifs at h <;> simp <;> omega
    case convert => split_ifs at h <;> omega
    all_goals omega
  obtain ⟨c, hc⟩ : ∃ c : Fin 4, s'.scanner.ch = chan c := by
    revert hstray
    generalize s'.scanner.ch = ch
    revert ch
    decide
  -- the edge into `start` has set the serial outputs
  obtain ⟨⟨st, cn⟩, hnext⟩ : ∃ p, s.scanner.next false = p := ⟨_, rfl⟩
  obtain ⟨hstate, -, -⟩ := step_timing s.adc.sdo hnext
  have hconvst := step_convst { reset := false, sdo := s.adc.sdo } s.scanner
  rw [hnext, ← hstate, ← step_scanner analog, hs', hstart] at hconvst
  have hsck := step_sck_of_convst (i := { reset := false, sdo := s.adc.sdo }) (s := s.scanner)
    (by rw [← step_scanner analog, hs', hconvst]; rfl)
  rw [← step_scanner analog, hs'] at hsck
  refine ⟨⟨c, s'.adc.result, s'.adc.conversion, s'.adc.source, s'.scanner.quad⟩, rfl, ?_⟩
  exact ⟨hstart, by omega, hconvst, hsck, hc, rfl, s'.fresh (by rw [hconvst]; rfl), rfl, rfl, rfl⟩

variable (analog) in
/-- Without any reset a round begins within 778 cycles. -/
theorem round_begins (s : AdcSystem) : ∃ n ≤ 778, ∃ x : Context,
    x.k = (run (step analog) s (fun _ => false) n).adc.conversion ∧
      InRound x 0 (run (step analog) s (fun _ => false) n) := by
  have hrecurs : Recurs 777
      fun n => decide (toRound (run (step analog) s (fun _ => false) n).scanner = 0) := by
    refine recurs_of_countdown
      (fun n => toRound (run (step analog) s (fun _ => false) n).scanner)
      (fun _ => toRound_lt _) fun n hn => ?_
    exact toRound_step _ (Nat.pos_of_ne_zero (of_decide_eq_false hn))
  obtain ⟨n, h1n, hn, hround⟩ := hrecurs 1
  obtain ⟨n, rfl⟩ : ∃ k, n = k + 1 := ⟨n - 1, by omega⟩
  exact ⟨n + 1, by omega, inRound_of_toRound (of_decide_eq_true hround)⟩

/-- **The scanner starts itself.**  Whatever is in its registers and in the converter, and
    without any reset, the scanner begins a round within 778 cycles, and from the fifth round
    on every quadrant register holds a conversion of its own channel that has been started no
    more than 791 cycles ago. -/
theorem scanner_stabilises (analog : ℕ → BitVec 3 → BitVec 12) (s : AdcSystem) :
    ∃ n ≤ 778, ∀ m, 792 ≤ m → ∀ c : Fin 4, ∃ r, 160 * r + 152 ≤ m ∧ m < 160 * r + 792 ∧
      (run (step analog) s (fun _ => false) (n + m)).scanner.quad c =
        analog ((run (step analog) s (fun _ => false) n).adc.conversion + r) (chan c) := by
  obtain ⟨n, hn, x, hk, hx⟩ := round_begins analog s
  refine ⟨n, hn, fun m hm c => ?_⟩
  obtain ⟨r, hr, hr', hquad⟩ := quad_fresh analog hx hm c
  refine ⟨r, hr, hr', ?_⟩
  rw [run_add, ← hk]
  exact hquad

end Stray

end AdcSystem

/-! ## From the light to the command -/

/-- The receiver board with its converter. -/
structure RxSystem where
  board : LaserRx
  adc : Ltc2308
  /-- No clock edge has come since a `convst` that is still high. -/
  fresh : board.qpdrd.convst = true → adc.edges = 0

namespace RxSystem

/-- One clock edge. -/
def step (analog : ℕ → BitVec 3 → BitVec 12) (key0 : Bool) (s : RxSystem) : RxSystem where
  board := s.board.step { key0, adcSdo := s.adc.sdo }
  adc := s.adc.step analog s.board.qpdrd
    (s.board.qpdrd.step { reset := !key0, sdo := s.adc.sdo })
  fresh := Ltc2308.step_edges analog s.fresh _

/-- Scanner and converter. -/
def scanning (s : RxSystem) : AdcSystem := ⟨s.board.qpdrd, s.adc, s.fresh⟩

section Run

variable {analog : ℕ → BitVec 3 → BitVec 12} {s : RxSystem} {key0 : ℕ → Bool} {N m : ℕ}

/-- Scanner and converter run on the board as they do alone. -/
theorem scanning_run (n : ℕ) : (run (step analog) s key0 n).scanning =
    run (AdcSystem.step analog) s.scanning (fun k => !key0 k) n :=
  run_component (g := fun j _ => !j) scanning (fun _ _ => rfl) s key0 n

variable (analog s) in
/-- The samples that the classifier gets when round follows round. -/
private theorem samples_fresh (hreset : key0 N = false) (hfree : ∀ n > N, key0 n = true)
    (hm : 792 ≤ m) (c : Fin 4) : ∃ r, 160 * r + 152 ≤ m ∧ m < 160 * r + 792 ∧
      (run (step analog) s key0 (N + 1 + m)).board.qpdrd.quad c =
        analog ((run (step analog) s key0 (N + 1)).adc.conversion + r) (chan c) := by
  have hfirst : (run (step analog) s key0 (N + 1)).scanning =
      (run (step analog) s key0 N).scanning.step analog true := by
    rw [run_succ, hreset]
    rfl
  obtain ⟨x, -, hk, hx⟩ := AdcSystem.reset_round analog (run (step analog) s key0 N).scanning
  rw [← hfirst] at hk hx
  obtain ⟨r, hr, hr', hquad⟩ := AdcSystem.quad_fresh analog hx hm c
  refine ⟨r, hr, hr', ?_⟩
  have hlow : (fun k => !key0 (N + 1 + k)) = fun _ => false := by
    funext k
    rw [hfree _ (by omega)]
    rfl
  rw [← hlow, ← scanning_run, hk] at hquad
  rw [run_add]
  exact hquad

end Run

/-- **From the light to the command.**  Counting `m` from the clock behind the last reset of
    the receiver board: from the fifth round on, the movement bits of the byte that is ready
    for the transmitter compare the light of four conversions, one of each channel, and each
    has been started no more than 792 cycles ago. -/
theorem command_of_light (analog : ℕ → BitVec 3 → BitVec 12) (s : RxSystem) (key0 : ℕ → Bool)
    (N : ℕ) (hreset : key0 N = false) (hfree : ∀ n > N, key0 n = true) (m : ℕ) (hm : 792 ≤ m) :
    let start := run (step analog) s key0 (N + 1)
    let x := (run (step analog) s key0 (N + 1 + m + 1)).board.r0
    ∃ r : Fin 4 → ℕ, (∀ c, 160 * r c + 152 ≤ m ∧ m < 160 * r c + 792) ∧
      let light := fun c => analog (start.adc.conversion + r c) (chan c)
      let q : QpdState.Samples := ⟨light 0, light 1, light 2, light 3⟩
      x.data.getLsbD 0 = decide (q.dx > 350 ∨ q.dx < -350) ∧
      (q.dx > 350 → x.data.getLsbD 1 = true) ∧ (q.dx < -350 → x.data.getLsbD 1 = false) ∧
      x.data.getLsbD 2 = decide (q.dy > 350 ∨ q.dy < -350) ∧
      (q.dy > 350 → x.data.getLsbD 3 = true) ∧ (q.dy < -350 → x.data.getLsbD 3 = false) := by
  intro start x
  choose r hr hr' hquad using fun c => samples_fresh analog s hreset hfree hm c
  refine ⟨r, fun c => ⟨hr c, hr' c⟩, ?_⟩
  intro light q
  have hall : (run (step analog) s key0 (N + 1 + m)).board.qpdrd.quad = light := funext hquad
  have hq : (run (step analog) s key0 (N + 1 + m)).board.samples = q := by
    change (⟨_, _, _, _⟩ : QpdState.Samples) = ⟨light 0, light 1, light 2, light 3⟩
    rw [← hall]
    rfl
  have hx : x.qpd0 = (run (step analog) s key0 (N + 1 + m)).board.r0.qpd0.step false q := by
    rw [← hq]
    change (run (step analog) s key0 (N + 1 + m + 1)).board.r0.qpd0 = _
    rw [run_succ, hfree _ (by omega)]
    rfl
  obtain ⟨hb0, hb1, hb2, hb3, -⟩ := QpdState.data_bits x
  rw [hb0, hb1, hb2, hb3, hx]
  obtain ⟨hmx, hdx⟩ := QpdState.step_horizontal false q
    (run (step analog) s key0 (N + 1 + m)).board.r0.qpd0
  obtain ⟨hmy, hdy⟩ := QpdState.step_vertical false q
    (run (step analog) s key0 (N + 1 + m)).board.r0.qpd0
  refine ⟨hmx, fun h => ?_, fun h => ?_, hmy, fun h => ?_, fun h => ?_⟩
  · rw [hdx, if_pos h]
  · rw [hdx, if_neg (by omega), if_pos h]
  · rw [hdy, if_pos h]
  · rw [hdy, if_neg (by omega), if_pos h]

/-- The receiver board with everything low. -/
def darkSystem : RxSystem where
  board :=
    { qpdrd := AdcSystem.powerUp.scanner
      r0 :=
        { qpd0 := .powerUp
          tx := { gen := .pulsed, ir0 := .powerUp } } }
  adc := AdcSystem.powerUp.adc
  fresh := fun _ => rfl

/-- Light on the quadrants 0 and 1 sets the horizontal direction bit within 20 µs. -/
theorem darkSystem_command :
    (run (step fun _ c => if c.toNat < 2 then 1_000 else 0) darkSystem (fun n => n ≠ 0)
      (0 + 1 + 792 + 1)).board.r0.data.getLsbD 1 = true := by
  obtain ⟨r, -, -, hright, -⟩ := command_of_light (fun _ c => if c.toNat < 2 then 1_000 else 0)
    darkSystem (fun n => n ≠ 0) 0 rfl (fun n hn => decide_eq_true (by omega)) 792 le_rfl
  exact hright (by decide)

end RxSystem

end Scope.Native
