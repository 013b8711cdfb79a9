import Scope.Spec.IrLink
import Scope.Native.RxState

/-!
# The infrared link under resets

Either board may be reset at any time: a packet may break off, a burst may be
stretched while `message` is frozen, and the receiver may join a packet half-way.
The start pulses come from a timer that is never reset, and that timer is what
both sides are measured against here.  `Follows` says what the receiver may be
doing while a packet is sent, `Trails` what it may be doing when no burst can
come before the next start pulse.

## Key results

- `Reception.step`: what one clock edge does to a reception
- `follows_step` / `trails_step`: both relations survive every clock edge
- `joint_step`: so does the relation between the two boards
- `reported_behind`: a start behind the resets is reported
- `no_invented_command`: a byte is only ever reported when it was the last one sent
-/

namespace Scope.Native.LinkReset

open Sync Wave IrTx IrRx IrLink

/-! ## Receptions, one clock edge at a time -/

/-- A reception as the receiver can reach it: `Receiving` with the level that the
    number of runs implies. -/
structure Reception (d : BitVec 8) (ds : List ℕ) (k : ℕ) (r : Fsm) : Prop
    extends Receiving d ds k r where
  short : ds.length ≤ 18
  count : k ≤ timeout
  level : r.prevLevel = decide (ds.length % 2 = 1)

/-- A reception goes on, closes a run, or ends in `IDLE` without `done`. -/
inductive Goes (d : BitVec 8) (ds : List ℕ) (k : ℕ) (r r' : Fsm) (b : Bool) : Prop
  | idle : r'.state = .idle → r'.done = false → Goes d ds k r r' b
  | quiet : b = r.prevLevel → k < timeout → Reception d ds (k + 1) r' → Goes d ds k r r' b
  | edge : b ≠ r.prevLevel → Window ds.length (k + 1) → Reception d (ds ++ [k + 1]) 0 r' →
      Goes d ds k r r' b

section Step

variable {d : BitVec 8} {ds : List ℕ} {k : ℕ} {r : Fsm} {b : Bool}

/-- One clock edge of a reception. -/
theorem Reception.step (h : Reception d ds k r) (hlen : ds.length < 18) :
    Goes d ds k r (r.advance b) b := by
  have hr := h.toReceiving
  obtain ⟨hdone, -⟩ := advance_outputs (b := b) (hr.ne_validate hlen)
  rcases Nat.lt_or_ge k timeout with hk | hk
  · by_cases hb : b = r.prevLevel
    · refine .quiet hb hk { hr.quiet hlen hk hb with short := h.short, count := hk, level := ?_ }
      rw [advance_prevLevel, hb, h.level]
    · by_cases hw : Window ds.length (k + 1)
      · refine .edge hb hw { hr.edge hlen hk hb hw with
          short := by simp; omega, count := Nat.zero_le _, level := ?_ }
        have hflip : b = !r.prevLevel := Bool.eq_not_iff.mpr hb
        rw [advance_prevLevel, hflip, h.level, List.length_append, List.length_singleton,
          ← decide_not, decide_eq_decide]
        omega
      · exact .idle (hr.reject hlen hk hb hw) hdone
  · exact .idle (advance_timeout hr.ne_idle (by rw [hr.tickCount]; exact hk)) hdone

/-- From `IDLE` a reception starts, or nothing happens. -/
theorem idle_step (h : r.state = .idle) : (r.advance b).done = false ∧
    ((r.advance b).state = .idle ∨ b = false ∧ Reception r.data [] 0 (r.advance b)) := by
  have hv : r.state ≠ .validate := by rw [h]; simp
  obtain ⟨hdone, hdata⟩ := advance_outputs (b := b) hv
  obtain ⟨hstate, htick⟩ := advance_idle (b := b) h
  refine ⟨hdone, ?_⟩
  split_ifs at hstate with hfall
  · obtain ⟨rfl, hp⟩ := hfall
    refine .inr ⟨rfl, ⟨hstate, by rw [htick rfl hp]; rfl, by simp, by simp, hdone, hdata⟩,
      by simp, Nat.zero_le _, ?_⟩
    rw [advance_prevLevel]
    rfl
  · exact .inl hstate

end Step

/-! ## Positions in a packet with a command byte -/

section Positions

variable {v : BitVec 8} {m k n l : ℕ}

/-- The top three bits of a command byte are zero. -/
def Command (v : BitVec 8) : Prop := v.toNat < 32

/-- The first three data spaces are short. -/
theorem Command.spaceTicks (hv : Command v) {i : ℕ} (hi : i < 3) :
    spaceTicks v i = 15_000 := by
  -- space `i` sends bit `7 - i`, which is above the five command bits
  have hbit : v.getLsbD (7 - i) = false := by
    rw [BitVec.getLsbD]
    have hpow : 2 ^ 5 ≤ 2 ^ (7 - i) := Nat.pow_le_pow_right two_pos (by omega)
    exact Nat.testBit_lt_two_pow (hv.trans_le hpow)
  rw [IrTx.spaceTicks, hbit]
  rfl

/-- The first three bits of a command are short, so its last bit comes early. -/
theorem Command.offset_mark (hv : Command v) {i : ℕ} (hi : i ≤ 5) :
    offset v (8 + 2 * i) ≤ 240_008 + 50_002 * i := by
  have hstep : ∀ j < 8, offset v (2 + 2 * (j + 1)) =
      offset v (2 + 2 * j) + 15_001 + (IrTx.spaceTicks v j + 1) := by
    intro j hj
    rw [show 2 + 2 * (j + 1) = 3 + 2 * j + 1 by omega, offset_succ, dwell_space hj,
      show 3 + 2 * j = 2 + 2 * j + 1 by omega, offset_succ, dwell_mark hj, tickDataBurst]
  -- the three short spaces are in the base case; from there on a space may be long
  induction i with
  | zero =>
    have h0 := hstep 0 (by omega)
    have h1 := hstep 1 (by omega)
    have h2 := hstep 2 (by omega)
    rw [hv.spaceTicks (by omega)] at h0 h1 h2
    have hstart : offset v (2 + 2 * 0) = 150_002 := by
      simp [offset, dwell, tickHeaderBurst, tickHeaderSpace]
    simp only [Nat.reduceAdd, Nat.reduceMul] at h0 h1 h2 hstart ⊢
    omega
  | succ i ih =>
    have hnext := hstep (3 + i) (by omega)
    have hspace := spaceTicks_bounds v (3 + i)
    rw [show 2 + 2 * (3 + i + 1) = 8 + 2 * (i + 1) by omega,
      show 2 + 2 * (3 + i) = 8 + 2 * i by omega] at hnext
    have := ih (by omega)
    omega

/-- A position in a packet has one stage and one count. -/
private theorem position_unique (h : offset v m + k = offset v n + l) (hk : k < dwell v m)
    (hl : l < dwell v n) : m = n ∧ k = l := by
  rcases Nat.lt_trichotomy m n with hmn | rfl | hmn
  · have := offset_mono (v := v) (show m + 1 ≤ n by omega)
    rw [offset_succ] at this
    omega
  · exact ⟨rfl, by omega⟩
  · have := offset_mono (v := v) (show n + 1 ≤ m by omega)
    rw [offset_succ] at this
    omega

/-- The envelope is that of stage `n` from its cycle 1 to cycle 0 of the next. -/
private theorem level_of_position (h : offset v m + k = offset v n + l) (hk : k < dwell v m)
    (hn : n ≤ 18) (hl : 1 ≤ l) (hl' : l ≤ dwell v n) : level m k = burst n := by
  rcases Nat.lt_or_ge l (dwell v n) with hlt | hge
  · obtain ⟨rfl, rfl⟩ := position_unique h hk hlt
    rw [level, if_neg (by omega)]
  · have hpos := dwell_pos (v := v) (n := n + 1) (by omega)
    obtain ⟨rfl, rfl⟩ := position_unique (n := n + 1) (l := 0)
      (by rw [offset_succ]; omega) hk hpos
    rw [level, if_pos rfl, burst, decide_eq_decide]
    omega

end Positions

/-! ## While a packet is sent -/

/-- What the receiver may be doing `T` cycles after the start of a packet with the
    byte `v`, while the transmitter has bursts to send. -/
inductive Follows (v : BitVec 8) (T : ℕ) (r : Fsm) : Prop
  | idle : r.state = .idle → Follows v T r
  /-- A reception from before the start: the first burst closes its header space. -/
  | carried {d : BitVec 8} {ds : List ℕ} {k : ℕ} : Reception d ds k r → ds.length ≤ 1 →
      T ≤ 2 → (T = 2 → ds.length = 1) → Follows v T r
  /-- A first run that the receiver has joined in the burst of stage `m`. -/
  | burst {d : BitVec 8} {k m : ℕ} : Reception d [] k r → m % 2 = 0 → m ≤ 18 →
      offset v m + k + 3 ≤ T → T ≤ offset v (m + 1) + 2 → Follows v T r
  /-- The header burst in the place of the first data burst. -/
  | dead {d : BitVec 8} {ds : List ℕ} {k : ℕ} : Reception d ds k r → ds.length = 2 →
      k + 3 = T → T ≤ offset v 1 + 2 → Follows v T r
  /-- The receiver is where the packet is. -/
  | synced {d : BitVec 8} {ds : List ℕ} {k : ℕ} : Reception d ds k r → 1 ≤ ds.length →
      offset v ds.length + k + 3 = T → k < dwell v ds.length → (ds.length = 18 → k = 0) →
      (∀ i, 3 + 2 * i < ds.length → ds.getD (3 + 2 * i) 0 = dwell v (3 + 2 * i)) →
      Follows v T r

/-- The data spaces of a packet encode its byte. -/
private theorem encodes_dwell {v w : BitVec 8} {ds : List ℕ}
    (h : ∀ i < 8, ds.getD (3 + 2 * i) 0 = dwell v (3 + 2 * i)) (hw : Encodes ds w) : w = v := by
  apply BitVec.eq_of_getLsbD_eq
  intro j hj
  have hbit := hw (7 - j) (by omega)
  rw [show 7 - (7 - j) = j by omega, h _ (by omega), dwell_space (by omega),
    Nat.add_sub_cancel, spaceTicks_threshold, show 7 - (7 - j) = j by omega] at hbit
  rw [hbit]
  cases v.getLsbD j <;> decide

section Follows

variable {v : BitVec 8} {T m k : ℕ} {r : Fsm}

/-- Where in the packet the envelope is high. -/
private theorem high_position (hk : k < dwell v m) (hm : m ≤ 18) (hT : T = 1 + offset v m + k)
    (hhigh : level m k = true) :
    ∃ n, n % 2 = 0 ∧ n ≤ 18 ∧ offset v n + 3 ≤ T + 1 ∧ T + 1 ≤ offset v (n + 1) + 2 := by
  rw [level] at hhigh
  -- `message` is a register: in cycle 0 it still shows the stage before
  split_ifs at hhigh with h0
  · obtain ⟨hodd, -⟩ := of_decide_eq_true hhigh
    obtain ⟨n, rfl⟩ : ∃ n, m = n + 1 := ⟨m - 1, by omega⟩
    have := (dwell_bounds (v := v) (n := n) (by omega)).1
    rw [offset_succ] at hT
    exact ⟨n, by omega, by omega, by omega, by rw [offset_succ]; omega⟩
  · obtain ⟨heven, -⟩ := of_decide_eq_true hhigh
    exact ⟨m, heven, hm, by omega, by rw [offset_succ]; omega⟩

/-- A reception that is in step with the packet stays in step. -/
private theorem synced_step {d : BitVec 8} {ds : List ℕ} {l : ℕ} (hk : k < dwell v m)
    (hT : T = 1 + offset v m + k) (h : Reception d ds l r) (hlen : 1 ≤ ds.length)
    (hshort : ds.length < 18) (hpos : offset v ds.length + l + 3 = T)
    (hl : l < dwell v ds.length)
    (hds : ∀ i, 3 + 2 * i < ds.length → ds.getD (3 + 2 * i) 0 = dwell v (3 + 2 * i)) :
    Follows v (T + 1) (r.advance (!level m k)) := by
  have hlevel := h.level
  rcases Nat.lt_or_ge (l + 1) (dwell v ds.length) with hopen | hclosed
  · -- the stage is not over: no edge
    have hnow : level m k = burst ds.length :=
      level_of_position (l := l + 2) (by omega) hk hshort.le (by omega) (by omega)
    have hsame : (!level m k) = r.prevLevel := by
      rw [hnow, hlevel, burst, ← decide_not, decide_eq_decide]
      omega
    cases h.step (b := !level m k) hshort with
    | idle hi _ => exact .idle hi
    | quiet _ _ h' => exact .synced h' hlen (by omega) hopen (by omega) hds
    | edge hb _ _ => exact absurd hsame hb
  · -- the next stage has begun: its edge closes the run
    have hnow : level m k = burst (ds.length + 1) :=
      level_of_position (l := 1) (by rw [offset_succ]; omega) hk (by omega) le_rfl
        (dwell_pos (by omega))
    have hnew : (!level m k) ≠ r.prevLevel := by
      rw [hnow, hlevel, burst, ← decide_not, Ne, decide_eq_decide]
      omega
    cases h.step (b := !level m k) hshort with
    | idle hi _ => exact .idle hi
    | quiet hb _ _ => exact absurd hb hnew
    | edge _ _ h' =>
      have hlen' : (ds ++ [l + 1]).length = ds.length + 1 := by simp
      -- the run just closed is as long as the stage was
      refine .synced h' (by omega) ?_ ?_ (fun _ => rfl) (fun i hi => ?_)
      · rw [hlen', offset_succ]
        omega
      · rw [hlen']
        exact dwell_pos (by omega)
      · rw [hlen'] at hi
        rcases Nat.lt_or_ge (3 + 2 * i) ds.length with hold | hlast
        · rw [List.getD_append _ _ _ _ hold]
          exact hds i hold
        · rw [List.getD_append_right _ _ _ _ hlast, show 3 + 2 * i = ds.length by omega,
            Nat.sub_self]
          show l + 1 = _
          omega

/-- A reception from before the start meets the first burst too early. -/
private theorem carried_step {d : BitVec 8} {ds : List ℕ} {l : ℕ} (hk : k < dwell v m)
    (hT : T = 1 + offset v m + k) (h : Reception d ds l r) (hlen : ds.length ≤ 1) (hT2 : T ≤ 2)
    (h1 : T = 2 → ds.length = 1) : Follows v (T + 1) (r.advance (!level m k)) := by
  have hd := (dwell_bounds (v := v) (n := 0) (by omega)).1
  have hlevel := h.level
  have hpos : offset v m + k = offset v 0 + (T - 1) := by simp only [offset]; omega
  obtain ⟨rfl, rfl⟩ := position_unique hpos hk (by omega)
  rcases Nat.lt_or_ge (T - 1) 1 with hfirst | hsecond
  · -- the envelope is still low
    have hlow : (!level 0 (T - 1)) = true := by rw [show T - 1 = 0 by omega]; rfl
    rw [hlow]
    cases h.step (b := true) (by omega) with
    | idle hi _ => exact .idle hi
    | quiet hb _ h' =>
      rw [hlevel, eq_comm, decide_eq_true_iff] at hb
      exact .carried h' hlen (by omega) (fun _ => by omega)
    | edge hb _ h' =>
      rw [hlevel, ne_comm, Ne, decide_eq_true_iff] at hb
      have hlen' : (ds ++ [l + 1]).length = ds.length + 1 := by simp
      exact .carried h' (by omega) (by omega) (fun _ => by omega)
  · -- the first burst begins
    have hhigh : (!level 0 (T - 1)) = false := by rw [show T - 1 = 1 by omega]; rfl
    have hone := h1 (by omega)
    rw [hhigh]
    cases h.step (b := false) (by omega) with
    | idle hi _ => exact .idle hi
    | quiet hb _ _ =>
      rw [hlevel, hone] at hb
      cases hb
    | edge _ _ h' =>
      refine .dead h' (by simp [hone]) (by omega) ?_
      rw [offset_succ, offset]
      omega

/-- In a burst of stage `n` the open run is counted; when the burst is over, only a
    header burst is long enough for a header. -/
private theorem burst_step {d : BitVec 8} {l n : ℕ} (hk : k < dwell v m) (hm : m ≤ 18)
    (hT : T = 1 + offset v m + k) (h : Reception d [] l r) (hn : n % 2 = 0) (hn18 : n ≤ 18)
    (hlo : offset v n + l + 3 ≤ T) (hhi : T ≤ offset v (n + 1) + 2) :
    Follows v (T + 1) (r.advance (!level m k)) := by
  have hlevel : r.prevLevel = false := h.level
  have hoff := offset_succ v n
  -- the end of the burst reaches the receiver two cycles late
  rcases Nat.lt_or_ge T (offset v (n + 1) + 2) with hopen | hclosed
  · have hnow : level m k = burst n :=
      level_of_position (l := T - 1 - offset v n) (by omega) hk hn18 (by omega) (by omega)
    have hhigh : (!level m k) = false := by
      rw [hnow, burst, decide_eq_true (by omega)]
      rfl
    rw [hhigh]
    cases h.step (b := false) (by simp) with
    | idle hi _ => exact .idle hi
    | quiet _ _ h' => exact .burst h' hn hn18 (by omega) (by omega)
    | edge hb _ _ => exact absurd hlevel.symm hb
  -- the end-of-frame burst is the last stage: its end is behind every position up to 18
  · have hn17 : n < 18 := by
      by_contra hge
      obtain rfl : n = 18 := by omega
      have := offset_mono (v := v) (show m + 1 ≤ 18 + 1 by omega)
      rw [offset_succ v m] at this
      omega
    have hnow : level m k = burst (n + 1) :=
      level_of_position (l := 1) (by omega) hk (by omega) le_rfl (dwell_pos (by omega))
    have hlow : (!level m k) = true := by
      rw [hnow, burst, decide_eq_false (by omega)]
      rfl
    rw [hlow]
    cases h.step (b := true) (by simp) with
    | idle hi _ => exact .idle hi
    | quiet hb _ _ => exact absurd (hb.trans hlevel) (by simp)
    | edge _ hw h' =>
      have hlong : 80_000 ≤ l + 1 - 1 := hw.1
      -- a data burst is too short to be taken for a header
      have hzero : n = 0 := by
        by_contra hne
        obtain ⟨i, rfl⟩ : ∃ i, n = 2 + 2 * i := ⟨n / 2 - 1, by omega⟩
        rw [dwell_mark (by omega), tickDataBurst] at hoff
        omega
      subst hzero
      refine .synced h' (by simp) ?_ ?_ (fun h18 => by simp at h18) (fun i hi => by simp at hi)
      · show offset v (0 + 1) + 0 + 3 = T + 1
        omega
      · exact dwell_pos (by simp)

/-- The header burst is too long for a data burst. -/
private theorem dead_step {d : BitVec 8} {ds : List ℕ} {l : ℕ} (hk : k < dwell v m)
    (hT : T = 1 + offset v m + k) (h : Reception d ds l r) (hlen : ds.length = 2)
    (hl : l + 3 = T) (hhi : T ≤ offset v 1 + 2) :
    Follows v (T + 1) (r.advance (!level m k)) := by
  have hlevel : r.prevLevel = false := by rw [h.level, hlen]; rfl
  have hone : offset v 1 = 100_001 := by simp [offset, dwell, tickHeaderBurst]
  have hzero : dwell v 0 = 100_001 := by simp [dwell, tickHeaderBurst]
  have hstart : offset v 0 = 0 := rfl
  rcases Nat.lt_or_ge T (offset v 1 + 2) with hopen | hclosed
  · have hnow : level m k = burst 0 :=
      level_of_position (l := T - 1) (by omega) hk (by omega) (by omega) (by omega)
    have hhigh : (!level m k) = false := by rw [hnow]; rfl
    rw [hhigh]
    cases h.step (b := false) (by omega) with
    | idle hi _ => exact .idle hi
    | quiet _ _ h' => exact .dead h' hlen (by omega) (by omega)
    | edge hb _ _ => exact absurd hlevel.symm hb
  · have hnow : level m k = burst 1 :=
      level_of_position (l := 1) (by omega) hk (by omega) le_rfl (dwell_pos (by omega))
    have hlow : (!level m k) = true := by rw [hnow]; rfl
    rw [hlow]
    cases h.step (b := true) (by omega) with
    | idle hi _ => exact .idle hi
    | quiet hb _ _ => exact absurd (hb.trans hlevel) (by simp)
    | edge _ hw _ =>
      rw [hlen] at hw
      -- the window of run 2 is that of a data burst
      have hshort : l + 1 - 1 ≤ 22_000 := hw.2
      omega

/-- Whatever is reported while a packet is sent is the byte of the packet. -/
theorem follows_step (hk : k < dwell v m) (hm : m ≤ 18) (hT : T = 1 + offset v m + k)
    (hf : Follows v T r) (reset : Bool) :
    Follows v (T + 1) (r.step reset (!level m k)) ∧
      ((r.step reset (!level m k)).done = true →
        (r.step reset (!level m k)).data = v ∧ T = offset v 18 + 3) := by
  cases reset with
  | true => exact ⟨.idle rfl, fun h => by cases h⟩
  | false =>
    show Follows v (T + 1) (r.advance _) ∧ ((r.advance _).done = true → (r.advance _).data = v ∧ _)
    -- outside `VALIDATE` nothing is reported
    have hquiet : ∀ {d ds l}, Reception d ds l r → ds.length < 18 →
        (r.advance (!level m k)).done = true →
          (r.advance (!level m k)).data = v ∧ T = offset v 18 + 3 := by
      intro d ds l h hlen hdone
      rw [(advance_outputs (h.toReceiving.ne_validate hlen)).1] at hdone
      cases hdone
    cases hf with
    -- a reception can only start while the envelope is high
    | idle hi =>
      obtain ⟨hdone, hnext⟩ := idle_step (b := !level m k) hi
      refine ⟨?_, fun h => by rw [hdone] at h; cases h⟩
      rcases hnext with h | ⟨hb, h⟩
      · exact .idle h
      · obtain ⟨n, hn, hn18, hlo, hhi⟩ := high_position hk hm hT (by simpa using hb)
        exact .burst h hn hn18 (by omega) hhi
    | carried h hlen hT2 h1 =>
      exact ⟨carried_step hk hT h hlen hT2 h1, hquiet h (by omega)⟩
    | burst h hn hn18 hlo hhi =>
      exact ⟨burst_step hk hm hT h hn hn18 hlo hhi, hquiet h (by simp)⟩
    | dead h hlen hl hhi => exact ⟨dead_step hk hT h hlen hl hhi, hquiet h (by omega)⟩
    | @synced d ds l h hlen hpos hl hfull hds =>
      rcases Nat.lt_or_ge ds.length 18 with hshort | hlast
      · exact ⟨synced_step hk hT h hlen hshort hpos hl hds, hquiet h hshort⟩
      -- all 18 runs are closed: this is the cycle of `VALIDATE`
      · have h18 : ds.length = 18 := by have := h.short; omega
        obtain rfl := hfull h18
        obtain ⟨hidle, -, henc⟩ := h.toReceiving.finish (b := !level m k) h18
        refine ⟨.idle hidle, fun _ => ⟨encodes_dwell (fun i hi => hds i (by omega)) henc, ?_⟩⟩
        rw [h18] at hpos
        omega

end Follows

/-! ## Between the packets -/

/-- The transmitter has no burst to send before the next start. -/
def Silent (tx : IrTx) : Prop := tx.state = .idle ∨ ∃ v c m k, 19 ≤ m ∧ Sending v c m k tx

/-- What the receiver may be doing `T` cycles after a start pulse, in cycle `n`, while
    the transmitter is silent and has latched the byte `v`.  Receptions that have
    got beyond the header have begun after the start pulse, and early enough to
    time out before the next one. -/
inductive Trails (acc : ℕ → Bool) (n : ℕ) (v : BitVec 8) (T : ℕ) (r : Fsm) : Prop
  | idle : r.state = .idle → Trails acc n v T r
  | header {d : BitVec 8} {ds : List ℕ} {k : ℕ} : Reception d ds k r → ds.length ≤ 1 →
      Trails acc n v T r
  | mark {d : BitVec 8} {ds : List ℕ} {k : ℕ} : Reception d ds k r → ds.length % 2 = 0 →
      2 ≤ ds.length → ds.length < 18 → k + 3 ≤ T → T ≤ k + 440_019 → Trails acc n v T r
  | space {d : BitVec 8} {ds : List ℕ} {k : ℕ} : Reception d ds k r → ds.length % 2 = 1 →
      3 ≤ ds.length → k + 3 ≤ T → T ≤ k + 462_020 → Trails acc n v T r
  | full {d : BitVec 8} {ds : List ℕ} : Reception d ds 0 r → ds.length = 18 →
      (∀ i < 8, ds.getD (3 + 2 * i) 0 = dwell v (3 + 2 * i)) →
      3 ≤ T → T ≤ 490_021 → (∃ a, acc a = true ∧ n = a + T) → Trails acc n v T r

section Trails

variable {acc : ℕ → Bool} {n T T' : ℕ} {v w : BitVec 8} {r : Fsm} {b : Bool}

/-- When a packet breaks off or ends, the receiver is left to itself. -/
private theorem Follows.trails (h : Follows v T r) (hv : Command v)
    (hacc : ∃ a, acc a = true ∧ n = a + T) : Trails acc n v T r := by
  cases h with
  | idle hi => exact .idle hi
  | carried h hlen _ _ => exact .header h hlen
  | burst h _ _ _ _ => exact .header h (by simp)
  | dead h hlen hl hhi =>
    have hone : offset v 1 = 100_001 := by simp [offset, dwell, tickHeaderBurst]
    exact .mark h (by omega) (by omega) (by omega) (by omega) (by omega)
  | @synced d ds k h hlen hpos hl hfull hds =>
    -- three of the eight spaces of a command are short, so stage 16 comes early
    have hlast : offset v 16 ≤ 440_016 := hv.offset_mark (i := 4) (by omega)
    rcases Nat.lt_or_ge ds.length 18 with hshort | hge
    · rcases Nat.lt_or_ge 1 ds.length with hdata | hheader
      · rcases Nat.mod_two_eq_zero_or_one ds.length with heven | hodd
        · have := offset_mono (v := v) (show ds.length ≤ 16 by omega)
          exact .mark h heven (by omega) hshort (by omega) (by omega)
        · have := offset_mono (v := v) (show ds.length ≤ 16 + 1 by omega)
          have hstep := offset_succ v 16
          rw [show dwell v 16 = 15_001 from dwell_mark (i := 7) (by omega)] at hstep
          exact .space h hodd (by omega) (by omega) (by omega)
      · exact .header h hheader
    · have h18 : ds.length = 18 := by have := h.short; omega
      obtain rfl := hfull h18
      have hend : offset v 18 ≤ 490_018 := hv.offset_mark (i := 5) (by omega)
      rw [h18] at hpos
      exact .full h h18 (fun i hi => hds i (by omega)) (by omega) (by omega) hacc

/-- While no burst comes, a reception beyond the header runs into its timeout. -/
theorem trails_step (h : Trails acc n v T r) (hT : T < 1_000_000 → T' = T + 1)
    (hrise : b = false → r.state ≠ .idle → r.prevLevel = false) (reset : Bool) :
    Trails acc (n + 1) v T' (r.step reset b) ∧
      ((r.step reset b).done = true → (r.step reset b).data = v ∧
        ∃ a, acc a = true ∧ n = a + T ∧ T ≤ 490_021) := by
  cases reset with
  | true => exact ⟨.idle rfl, fun h => by cases h⟩
  | false =>
    show Trails acc (n + 1) v T' (r.advance b) ∧
      ((r.advance b).done = true → (r.advance b).data = v ∧ _)
    have hquiet : ∀ {d ds l}, Reception d ds l r → ds.length < 18 → (r.advance b).done = true →
        (r.advance b).data = v ∧ ∃ a, acc a = true ∧ n = a + T ∧ T ≤ 490_021 := by
      intro d ds l h hlen hdone
      rw [(advance_outputs (h.toReceiving.ne_validate hlen)).1] at hdone
      cases hdone
    -- behind a space an edge of the line would be a burst
    have hstay : ∀ {d ds l}, Reception d ds l r → ds.length % 2 = 1 → b = r.prevLevel := by
      intro d ds l h hodd
      have hlevel : r.prevLevel = true := by rw [h.level, decide_eq_true hodd]
      by_contra hne
      have hb : b = false := by cases b <;> simp_all
      have := hrise hb h.toReceiving.ne_idle
      rw [hlevel] at this
      cases this
    cases h with
    | idle hi =>
      obtain ⟨hdone, hnext⟩ := idle_step (b := b) hi
      refine ⟨?_, fun h => by rw [hdone] at h; cases h⟩
      rcases hnext with h | ⟨-, h⟩
      · exact .idle h
      · exact .header h (by simp)
    -- the header burst may still close behind the last burst of the packet
    | @header d ds l h hlen =>
      refine ⟨?_, hquiet h (by omega)⟩
      cases h.step (b := b) (by omega) with
      | idle hi _ => exact .idle hi
      | quiet _ _ h' => exact .header h' hlen
      | edge hb _ h' =>
        have hlen' : (ds ++ [l + 1]).length = ds.length + 1 := by simp
        rcases Nat.mod_two_eq_zero_or_one ds.length with heven | hodd
        · exact .header h' (by omega)
        · exact absurd (hstay h hodd) hb
    -- a burst the line is stuck in: it closes within its window or the count runs out
    | @mark d ds l h heven hlen hlen' hlo hhi =>
      have hcount := h.count
      simp only [timeout] at hcount
      have hT' := hT (by omega)
      refine ⟨?_, hquiet h hlen'⟩
      cases h.step (b := b) hlen' with
      | idle hi _ => exact .idle hi
      | quiet _ _ h' => exact .mark h' heven hlen hlen' (by omega) (by omega)
      | edge _ hw h' =>
        obtain ⟨i, hi⟩ : ∃ i, ds.length = 2 + 2 * i := ⟨ds.length / 2 - 1, by omega⟩
        rw [hi, window_burst] at hw
        have hlong : l + 1 - 1 ≤ 22_000 := hw.2
        have hlen' : (ds ++ [l + 1]).length = ds.length + 1 := by simp
        exact .space h' (by omega) (by omega) (by omega) (by omega)
    -- nothing can close a space, so only the timeout is left
    | @space d ds l h hodd hlen hlo hhi =>
      have hcount := h.count
      have hshort := h.short
      simp only [timeout] at hcount
      have hT' := hT (by omega)
      refine ⟨?_, hquiet h (by omega)⟩
      cases h.step (b := b) (by omega) with
      | idle hi _ => exact .idle hi
      | quiet _ _ h' => exact .space h' hodd hlen (by omega) (by omega)
      | edge hb _ _ => exact absurd (hstay h hodd) hb
    | @full d ds h hlen hds hlo hhi hacc =>
      obtain ⟨hidle, -, henc⟩ := h.toReceiving.finish (b := b) hlen
      obtain ⟨a, ha, hn⟩ := hacc
      exact ⟨.idle hidle, fun _ => ⟨encodes_dwell hds henc, a, ha, hn, hhi⟩⟩

/-- A start pulse finds the receiver in front of the first data burst. -/
private theorem trails_start (h : Trails acc n v 0 r)
    (hrise : b = false → r.state ≠ .idle → r.prevLevel = false) (reset : Bool) :
    Follows w 1 (r.step reset b) ∧ (r.step reset b).done = false := by
  cases reset with
  | true => exact ⟨.idle rfl, rfl⟩
  | false =>
    show Follows w 1 (r.advance b) ∧ (r.advance b).done = false
    cases h with
    | idle hi =>
      obtain ⟨hdone, hnext⟩ := idle_step (b := b) hi
      refine ⟨?_, hdone⟩
      rcases hnext with h | ⟨-, h⟩
      · exact .idle h
      · exact .carried h (by simp) (by omega) (by omega)
    | @header d ds l h hlen =>
      refine ⟨?_, (advance_outputs (h.toReceiving.ne_validate (by omega))).1⟩
      cases h.step (b := b) (by omega) with
      | idle hi _ => exact .idle hi
      | quiet _ _ h' => exact .carried h' hlen (by omega) (by omega)
      | edge hb _ h' =>
        have hlen' : (ds ++ [l + 1]).length = ds.length + 1 := by simp
        rcases Nat.eq_zero_or_pos ds.length with hzero | hpos
        · exact .carried h' (by omega) (by omega) (by omega)
        · have hlevel : r.prevLevel = true := by
            rw [h.level, decide_eq_true (by omega)]
          have hb' : b = false := by cases b <;> simp_all
          have := hrise hb' h.toReceiving.ne_idle
          rw [hlevel] at this
          cases this
    -- beyond the header the run would have to be longer than the time since the start
    | mark _ _ _ _ hlo _ => omega
    | space _ _ _ hlo _ => omega
    | full _ _ _ hlo _ _ => omega

end Trails

/-! ## Both boards -/

section Joint

variable {tx : IrTx} {i : IrTx.Input}

variable (tx) in
/-- Reset leaves the envelope and the byte as they are. -/
private theorem tx_reset (hr : i.reset = true) : (tx.step i).state = .idle ∧
    (tx.step i).message = tx.message ∧ (tx.step i).dataOut = tx.dataOut := by
  rw [IrTx.step, if_pos hr]
  exact ⟨rfl, rfl, rfl⟩

/-- The byte is latched by an accepted start and by nothing else. -/
private theorem dataOut_step (h : i.reset = true ∨ tx.state ≠ .idle ∨ i.start = false) :
    (tx.step i).dataOut = tx.dataOut := by
  cases hr : i.reset with
  | true => exact (tx_reset tx hr).2.2
  | false =>
    rw [IrTx.step, if_neg (by simp [hr])]
    unfold IrTx.advance nextBitLogic countUp
    -- `IDLE` is the only state that loads `data_out`
    cases hs : tx.state
    case idle =>
      have hstart : i.start = false := by simp_all
      simp [hstart]
    case unused => rfl
    all_goals
      simp only
      split_ifs <;> rfl

/-- A silent transmitter stays silent without a start, and its envelope can only fall. -/
private theorem silent_step (h : Silent tx)
    (hno : i.reset = true ∨ tx.state ≠ .idle ∨ i.start = false) :
    Silent (tx.step i) ∧ ((tx.step i).message = true → tx.message = true) := by
  cases hr : i.reset with
  | true =>
    obtain ⟨hs, hm, -⟩ := tx_reset tx hr
    exact ⟨.inl hs, fun hh => hm ▸ hh⟩
  | false =>
    rcases h with hidle | ⟨v, c, m, k, hm, hs⟩
    · have hrest := step_idle hidle hr (by simp_all)
      exact ⟨.inl hrest.state, fun hh => by rw [hrest.message] at hh; cases hh⟩
    · have hm20 := hs.last
      rcases Nat.lt_or_ge (k + 1) (dwell v m) with hk | hk
      · have hnext := step_count hs hr hk
        refine ⟨.inr ⟨v, c, m, k + 1, hm, hnext⟩, fun hh => ?_⟩
        rw [hnext.message, level, if_neg (by omega), burst, decide_eq_true_iff] at hh
        omega
      · have hk' : k + 1 = dwell v m := by have := hs.lt; omega
        -- stages 19 and 20 are the two waits
        rcases Nat.lt_or_ge m 20 with h19 | h20
        · obtain rfl : m = 19 := by omega
          have hnext := step_wait hs hr hk'
          split_ifs at hnext
          · exact ⟨.inr ⟨v, c, 20, 0, by omega, hnext⟩, fun hh => by
              rw [hnext.message] at hh
              cases hh⟩
          · exact ⟨.inl hnext.state, fun hh => by rw [hnext.message] at hh; cases hh⟩
        · obtain rfl : m = 20 := by omega
          have hnext := step_longWait hs hr hk'
          exact ⟨.inl hnext.state, fun hh => by rw [hnext.message] at hh; cases hh⟩

private theorem step_gen (x : PulsedTx) (j : PulsedTx.Input) : (x.step j).gen = x.gen.step := rfl

/-- The timer counts through a pulse period. -/
private theorem txTimer_step {g : TxPulse} (h : g.txTimer.toNat < 1_000_000) :
    g.step.txTimer.toNat = g.txTimer.toNat + 1 := by
  rw [TxPulse.step, if_neg (by omega)]
  exact BitVec.toNat_add_one (by omega)

/-- In cycle `n` a packet with the byte `v`, accepted in cycle `a`, is in cycle `k` of
    the burst or space `m`; the receiver sees the envelope of that cycle. -/
structure Live (acc : ℕ → Bool) (n : ℕ) (x : PulsedTx) (r : Fsm) (v : BitVec 8) (c : BitVec 3)
    (m k a : ℕ) : Prop where
  command : Command v
  sending : Sending v c m k x.ir0
  last : m ≤ 18
  timer : x.gen.txTimer.toNat = 1 + offset v m + k
  accepted : acc a = true
  age : n = a + x.gen.txTimer.toNat
  follows : Follows v x.gen.txTimer.toNat r

/-- In cycle `n` no packet is being sent, or only its waits. -/
structure Still (acc : ℕ → Bool) (n : ℕ) (x : PulsedTx) (r : Fsm) : Prop where
  silent : Silent x.ir0
  trails : Trails acc n x.ir0.dataOut x.gen.txTimer.toNat r
  fall : x.ir0.message = true → r.state ≠ .idle → r.prevLevel = false

/-- The two boards in cycle `n`; `acc` says in which cycles a start has been accepted. -/
structure Joint (acc : ℕ → Bool) (n : ℕ) (x : PulsedTx) (r : Fsm) : Prop where
  mode : (∃ v c m k a, Live acc n x r v c m k a) ∨ Still acc n x r
  reported : r.done = true → ∃ a, acc a = true ∧ a < n ∧ n ≤ a + 490_022 ∧
    r.data = x.ir0.dataOut

variable {acc : ℕ → Bool} {n : ℕ} {x : PulsedTx} {r : Fsm} {j : PulsedTx.Input}

/-- What the receiver has seen of an envelope that is still high. -/
private theorem prevLevel_step (reset : Bool) (m : Bool) (hm : m = true) :
    (r.step reset (!m)).state ≠ .idle → (r.step reset (!m)).prevLevel = false := by
  intro hne
  cases reset with
  | true => exact absurd rfl hne
  | false =>
    show (r.advance (!m)).prevLevel = false
    rw [advance_prevLevel, hm]
    rfl

/-- A packet is over, its waits apart, within half a pulse period. -/
theorem Live.bounds {v : BitVec 8} {c : BitVec 3} {m k a : ℕ} (h : Live acc n x r v c m k a) :
    offset v 18 ≤ 490_018 ∧ x.gen.txTimer.toNat ≤ 505_019 := by
  have h18 : offset v 18 ≤ 490_018 := h.command.offset_mark (i := 5) (by omega)
  have h19 : offset v 19 = offset v 18 + 15_001 := by
    rw [offset_succ, show dwell v 18 = 15_001 by simp [dwell, tickDataBurst]]
  have hm := h.last
  have hmono := offset_mono (v := v) (show m + 1 ≤ 19 by omega)
  rw [offset_succ] at hmono
  have hlt := h.sending.lt
  have htimer := h.timer
  omega

/-- One cycle of a packet: it goes on, ends, or is broken off by a reset. -/
private theorem live_step {v : BitVec 8} {c : BitVec 3} {m k a : ℕ} (h : Live acc n x r v c m k a)
    (reset : Bool) : Joint acc (n + 1) (x.step j) (r.step reset (!x.ir0.message)) := by
  set i : IrTx.Input := ⟨j.reset, x.gen.txPulse, j.data⟩
  obtain ⟨hlast, hshort⟩ := h.bounds
  have hs := h.sending
  have hm := h.last
  have hT := h.timer
  have hn := h.age
  have hT' : x.gen.step.txTimer.toNat = x.gen.txTimer.toNat + 1 := txTimer_step (by omega)
  have hn' : n + 1 = a + x.gen.step.txTimer.toNat := by omega
  -- the receiver keeps following the packet, and reports its byte if anything
  obtain ⟨hfollows, hdone⟩ := follows_step hs.lt hm hT h.follows reset
  rw [← hs.message] at hfollows hdone
  rw [← hT'] at hfollows
  -- the byte stays latched
  have hbusy := (stage_ne_idle hs.last).1
  rw [← hs.state] at hbusy
  have hout : (x.ir0.step i).dataOut = v := (dataOut_step (.inr (.inl hbusy))).trans hs.dataOut
  have htrails : Trails acc (n + 1) (x.ir0.step i).dataOut x.gen.step.txTimer.toNat
      (r.step reset (!x.ir0.message)) := by
    rw [hout]
    exact hfollows.trails h.command ⟨a, h.accepted, hn'⟩
  constructor
  case reported =>
    intro hd
    obtain ⟨hbyte, hage⟩ := hdone hd
    exact ⟨a, h.accepted, by omega, by omega, hbyte.trans hout.symm⟩
  case mode =>
    have hlive : ∀ m' k', Sending v c m' k' (x.ir0.step i) → m' ≤ 18 →
        offset v m' + k' = offset v m + k + 1 → Live acc (n + 1) (x.step j)
          (r.step reset (!x.ir0.message)) v c m' k' a := by
      intro m' k' hs' hm' hpos
      exact ⟨h.command, hs', hm', by rw [step_gen]; omega, h.accepted, hn', hfollows⟩
    cases hr : j.reset with
    | true =>
      -- reset freezes the envelope, so it can only be a burst that goes on
      obtain ⟨hstate, hmsg, -⟩ := tx_reset x.ir0 (i := i) hr
      refine .inr ⟨.inl hstate, htrails, fun hhigh => ?_⟩
      exact prevLevel_step reset x.ir0.message (hmsg.symm.trans hhigh)
    | false =>
      -- the packet goes on: in the same stage, in the next one, or into its waits
      rcases Nat.lt_or_ge (k + 1) (dwell v m) with hk | hk
      · exact .inl ⟨v, c, m, k + 1, a, hlive m (k + 1) (step_count hs hr hk) hm (by omega)⟩
      · have hk' : k + 1 = dwell v m := by have := hs.lt; omega
        have hnext := step_next (i := i) hs hr hk' (by omega)
        rcases Nat.lt_or_ge m 18 with hm18 | hm18
        · refine .inl ⟨v, c, m + 1, 0, a, hlive (m + 1) 0 hnext hm18 ?_⟩
          rw [offset_succ]
          omega
        · -- the end-of-frame burst is over, and its last cycle is high
          refine .inr ⟨.inr ⟨v, c, m + 1, 0, by omega, hnext⟩, htrails, fun _ => ?_⟩
          have h15 := (dwell_bounds (v := v) (n := m) (by omega)).1
          refine prevLevel_step reset x.ir0.message ?_
          rw [hs.message, level, if_neg (by omega), burst]
          exact decide_eq_true (by omega)

/-- A burst that is on has been seen. -/
theorem Still.rise (h : Still acc n x r) :
    (!x.ir0.message) = false → r.state ≠ .idle → r.prevLevel = false := by
  intro hb
  exact h.fall (by simpa using hb)

/-- A start is accepted: the timer is at zero, and so far the receiver cannot have got
    beyond a header. -/
private theorem start_step (h : Still acc n x r) (hdata : Command j.data) (hacc : acc n = true)
    (hr : j.reset = false) (hidle : x.ir0.state = .idle) (hpulse : x.gen.txPulse = true)
    (reset : Bool) : Joint acc (n + 1) (x.step j) (r.step reset (!x.ir0.message)) := by
  -- `tx_pulse` is high only while the timer stands at zero
  have hzero : x.gen.txTimer.toNat = 0 := by rw [x.gen.settled hpulse]; rfl
  have hone : x.gen.step.txTimer.toNat = 1 := by rw [txTimer_step (by omega), hzero]
  have hs := step_accept (i := ⟨j.reset, x.gen.txPulse, j.data⟩) hidle hr hpulse
  have htr := h.trails
  rw [hzero] at htr
  obtain ⟨hfollows, hdone⟩ := trails_start (w := j.data) htr h.rise reset
  constructor
  case reported =>
    intro hd
    rw [hdone] at hd
    cases hd
  case mode =>
    refine .inl ⟨j.data, _, 0, 0, n, hdata, hs, by omega, ?_, hacc, ?_, ?_⟩ <;> rw [step_gen, hone]
    · rfl
    · exact hfollows

/-- Without a start the receiver is left to itself. -/
private theorem still_step (h : Still acc n x r)
    (hno : j.reset = true ∨ x.ir0.state ≠ .idle ∨ x.gen.txPulse = false) (reset : Bool) :
    Joint acc (n + 1) (x.step j) (r.step reset (!x.ir0.message)) := by
  obtain ⟨hsilent, hfall⟩ := silent_step (i := ⟨j.reset, x.gen.txPulse, j.data⟩) h.silent hno
  obtain ⟨htrails, hdone⟩ := trails_step h.trails txTimer_step h.rise reset
  have hout := dataOut_step (i := ⟨j.reset, x.gen.txPulse, j.data⟩) hno
  constructor
  case reported =>
    intro hd
    obtain ⟨hbyte, a, ha, hn, hT⟩ := hdone hd
    exact ⟨a, ha, by omega, by omega, hbyte.trans hout.symm⟩
  case mode =>
    refine .inr ⟨hsilent, ?_, fun hh => prevLevel_step reset x.ir0.message (hfall hh)⟩
    rw [show (x.step j).ir0.dataOut = x.ir0.dataOut from hout]
    exact htrails

/-- One clock edge of both boards. -/
theorem joint_step (h : Joint acc n x r) (hdata : Command j.data)
    (hacc : acc n = (!j.reset && decide (x.ir0.state = .idle) && x.gen.txPulse))
    (reset : Bool) : Joint acc (n + 1) (x.step j) (r.step reset (!x.ir0.message)) := by
  rcases h.mode with ⟨v, c, m, k, a, hlive⟩ | hstill
  · exact live_step hlive reset
  · by_cases hstart : j.reset = false ∧ x.ir0.state = .idle ∧ x.gen.txPulse = true
    · obtain ⟨hr, hidle, hpulse⟩ := hstart
      exact start_step hstill hdata (by simp [hacc, hr, hidle, hpulse]) hr hidle hpulse reset
    · refine still_step hstill ?_ reset
      by_contra hcon
      push Not at hcon
      exact hstart (by simpa using hcon)

end Joint

/-! ## Whole runs -/

/-- The transmitting board in front of clock edge `n`; `low` are the five command
    bits on its `data` port. -/
def sender (x : PulsedTx) (txReset : ℕ → Bool) (low : ℕ → BitVec 5) (n : ℕ) : PulsedTx :=
  run PulsedTx.step x (fun n => { reset := txReset n, data := 0#3 ++ low n }) n

/-- A start is accepted in cycle `n`. -/
def accepted (x : PulsedTx) (txReset : ℕ → Bool) (low : ℕ → BitVec 5) (n : ℕ) : Bool :=
  !txReset n && decide ((sender x txReset low n).ir0.state = .idle) &&
    (sender x txReset low n).gen.txPulse

/-- The ideal channel: the envelope inverted, `K` cycles late. -/
def channel (K : ℕ) (x : PulsedTx) (txReset : ℕ → Bool) (low : ℕ → BitVec 5) (n : ℕ) : Bool :=
  !delayed K false (fun n => (sender x txReset low n).ir0.message) n

/-- The receiving board in front of clock edge `n`, with `l` on its input. -/
def listener (rx : IrRx) (rxReset l : ℕ → Bool) (n : ℕ) : IrRx :=
  run IrRx.step rx (fun n => { irInput := l n, reset := rxReset n }) n

section Runs

variable {x : PulsedTx} {rx : IrRx} {txReset rxReset : ℕ → Bool} {low : ℕ → BitVec 5}
  {K a b n : ℕ}

/-- What the classifier puts on the port is a command byte. -/
private theorem command_append (w : BitVec 5) : Command (0#3 ++ w) := by
  have := w.isLt
  rw [Command, BitVec.toNat_append]
  simpa using this

/-- The synchroniser is not reset: it delays the line whatever the resets are. -/
private theorem listener_sync (h0 : rx.irSync0 = true) (h1 : rx.irSync = true) (l : ℕ → Bool)
    (n : ℕ) : (listener rx rxReset l n).irSync0 = delayed 1 true l n ∧
      (listener rx rxReset l n).irSync = delayed 2 true l n := by
  induction n with
  | zero => exact ⟨h0, h1⟩
  | succ n ih =>
    refine ⟨?_, ih.1.trans ?_⟩
    · show l n = _
      simp [delayed]
    · rcases n with _ | n <;> simp [delayed]

/-- The state machine sees the envelope `K + 2` cycles late. -/
private theorem listener_fsm (h0 : rx.irSync0 = true) (h1 : rx.irSync = true) (n : ℕ) :
    (listener rx rxReset (channel K x txReset low) (n + 1)).fsm =
      (listener rx rxReset (channel K x txReset low) n).fsm.step (rxReset n)
        (!delayed (K + 2) false (fun n => (sender x txReset low n).ir0.message) n) := by
  show Fsm.step _ (listener rx rxReset (channel K x txReset low) n).irSync _ = _
  rw [(listener_sync h0 h1 _ n).2, ← delayed_delayed]
  exact congrArg (fun b => Fsm.step _ b _) (@delayed_not false _ 2 n)

variable (x txReset rxReset low) in
/-- Before the envelope arrives the state machine rests. -/
private theorem listener_rest (h0 : rx.irSync0 = true) (h1 : rx.irSync = true)
    (hrx : rx.fsm.state = .idle) (hn : n ≤ K + 2) :
    (listener rx rxReset (channel K x txReset low) n).fsm.state = .idle ∧
      (0 < n → (listener rx rxReset (channel K x txReset low) n).fsm.done = false) := by
  induction n with
  | zero => exact ⟨hrx, fun h => absurd h (lt_irrefl 0)⟩
  | succ n ih =>
    rw [listener_fsm h0 h1, delayed, if_pos (by omega)]
    cases rxReset n with
    | true => exact ⟨rfl, fun _ => rfl⟩
    | false =>
      obtain ⟨hdone, hnext⟩ := idle_step (b := true) (ih (by omega)).1
      exact ⟨hnext.resolve_right (by simp), fun _ => hdone⟩

/-- The boards are related in every cycle, the receiver `K + 2` cycles later. -/
private theorem joint_run (htx : x.ir0.state = .idle) (hmsg : x.ir0.message = false)
    (h0 : rx.irSync0 = true) (h1 : rx.irSync = true) (hrx : rx.fsm.state = .idle) (n : ℕ) :
    Joint (accepted x txReset low) n (sender x txReset low n)
      (listener rx rxReset (channel K x txReset low) (n + (K + 2))).fsm := by
  induction n with
  | zero =>
    -- the first `K + 2` cycles show the receiver an idle line
    obtain ⟨hidle, hdone⟩ := listener_rest x txReset rxReset low (n := 0 + (K + 2)) h0 h1 hrx
      (Nat.zero_add _).le
    have hdone := hdone (by omega)
    refine ⟨.inr ⟨.inl htx, .idle hidle, fun h => ?_⟩, fun h => ?_⟩
    · rw [show (sender x txReset low 0).ir0.message = false from hmsg] at h
      cases h
    · rw [hdone] at h
      cases h
  | succ n ih =>
    rw [show n + 1 + (K + 2) = n + (K + 2) + 1 by omega, listener_fsm h0 h1, delayed_add]
    exact joint_step ih (command_append (low n)) rfl _

/-- Two accepted starts are a pulse period apart. -/
private theorem accepted_spaced (ha : accepted x txReset low a = true)
    (hb : accepted x txReset low b = true) (hab : a < b) : a + 1_000_001 ≤ b := by
  have hpulse : ∀ {n}, accepted x txReset low n = true →
      (sender x txReset low n).gen.txTimer.toNat = 0 := by
    intro n hn
    rw [(sender x txReset low n).gen.settled ((Bool.and_eq_true_iff.mp hn).2)]
    rfl
  -- behind a pulse the timer counts up to its period before the next one
  have hcount : ∀ k ≤ 1_000_000, (sender x txReset low (a + k)).gen.txTimer.toNat = k := by
    intro k
    induction k with
    | zero => exact fun _ => hpulse ha
    | succ k ih =>
      intro hk
      have := ih (by omega)
      have hstep : (sender x txReset low (a + (k + 1))).gen.txTimer.toNat = _ :=
        txTimer_step (g := (sender x txReset low (a + k)).gen) (by omega)
      omega
  by_contra hlt
  have h := hcount (b - a) (by omega)
  rw [show a + (b - a) = b by omega, hpulse hb] at h
  omega

/-- Until the next start is accepted the transmitter holds the byte of the last one. -/
private theorem dataOut_accepted (ha : accepted x txReset low a = true) (han : a < n)
    (hq : ∀ b, a < b → b < n → accepted x txReset low b = false) :
    (sender x txReset low n).ir0.dataOut = 0#3 ++ low a := by
  have han' : a + 1 ≤ n := han
  induction n, han' using Nat.le_induction with
  | base =>
    obtain ⟨⟨hr, hidle⟩, hpulse⟩ : (txReset a = false ∧
        (sender x txReset low a).ir0.state = .idle) ∧
        (sender x txReset low a).gen.txPulse = true := by
      simpa [accepted] using ha
    exact (step_accept (i := ⟨txReset a, _, 0#3 ++ low a⟩) hidle hr hpulse).dataOut
  | succ n hn ih =>
    have hbyte := ih (by omega) fun b hb hbn => hq b hb (by omega)
    have hno := hq n (by omega) (by omega)
    refine (dataOut_step (i := ⟨txReset n, (sender x txReset low n).gen.txPulse, 0#3 ++ low n⟩)
      ?_).trans hbyte
    by_contra hcon
    push Not at hcon
    obtain ⟨hr, hidle, hpulse⟩ := hcon
    simp only [Bool.not_eq_true, Bool.not_eq_false] at hr hpulse
    have hbusy : (sender x txReset low n).ir0.state ≠ .idle := by
      simpa [accepted, hr, hpulse] using hno
    exact hbusy hidle

end Runs

/-- **No invented command.**  Whatever resets either board goes through, a byte
    that `ir_rx` reports in cycle `t` is the byte of the last start that `ir_tx` had
    accepted `K + 2` cycles before; over a channel shorter than half a pulse period
    it is the last start of all. -/
theorem no_invented_command (x : PulsedTx) (rx : IrRx) (txReset rxReset : ℕ → Bool)
    (low : ℕ → BitVec 5) (K : ℕ) (htx : x.ir0.state = .idle) (hmsg : x.ir0.message = false)
    (hsync : rx.irSync0 = true ∧ rx.irSync = true) (hrx : rx.fsm.state = .idle) (t : ℕ)
    (ht : 0 < t)
    (hdone : (listener rx rxReset (channel K x txReset low) t).fsm.done = true) :
    ∃ a, accepted x txReset low a = true ∧ a + (K + 2) < t ∧
      (listener rx rxReset (channel K x txReset low) t).fsm.data = 0#3 ++ low a ∧
      ∀ b, accepted x txReset low b = true → a < b →
        t ≤ b + (K + 2) ∧ (K ≤ 509_977 → t ≤ b) := by
  -- nothing that has been sent has arrived yet
  rcases Nat.lt_or_ge t (K + 2) with hearly | hlate
  · have := (listener_rest x txReset rxReset low hsync.1 hsync.2 hrx hearly.le).2 ht
    rw [this] at hdone
    cases hdone
  · obtain ⟨n, rfl⟩ : ∃ n, t = n + (K + 2) := ⟨t - (K + 2), by omega⟩
    obtain ⟨a, ha, han, hna, hdata⟩ :=
      (joint_run htx hmsg hsync.1 hsync.2 hrx n).reported hdone
    -- the report comes within half a pulse period, the next start after a whole one
    have hnext : ∀ b, accepted x txReset low b = true → a < b → a + 1_000_001 ≤ b :=
      fun b hb => accepted_spaced ha hb
    refine ⟨a, ha, by omega, ?_, fun b hb hab => ?_⟩
    · rw [hdata, dataOut_accepted ha han fun b hab hbn => ?_]
      by_contra hb
      have := hnext b (by simpa using hb) hab
      omega
    · have := hnext b hb hab
      constructor <;> omega

/-! ## A report behind the resets -/

section Report

variable {x : PulsedTx} {rx : IrRx} {txReset rxReset : ℕ → Bool} {low : ℕ → BitVec 5} {K m : ℕ}

/-- From cycle `m` on without reset, the transmitting board runs as `ir_tx` does alone. -/
private theorem sender_transmit (hr : ∀ n, m ≤ n → txReset n = false) (n : ℕ) :
    (sender x txReset low (m + n)).ir0 = transmit (sender x txReset low m).ir0
      (fun k => (sender x txReset low (m + k)).gen.txPulse) (fun k => 0#3 ++ low (m + k)) n := by
  induction n with
  | zero => rfl
  | succ n ih =>
    have hstep : (sender x txReset low (m + n + 1)).ir0 =
        (sender x txReset low (m + n)).ir0.step ⟨txReset (m + n),
          (sender x txReset low (m + n)).gen.txPulse, 0#3 ++ low (m + n)⟩ := rfl
    rw [← Nat.add_assoc, hstep, hr _ (by omega), ih]
    rfl

/-- From cycle `m` on without reset, the receiving board runs as `ir_rx` does alone. -/
private theorem listener_receive (h0 : rx.irSync0 = true) (h1 : rx.irSync = true)
    (hr : ∀ n, m ≤ n → rxReset n = false) (n : ℕ) :
    (listener rx rxReset (channel K x txReset low) (m + n)).fsm =
      receive (listener rx rxReset (channel K x txReset low) m).fsm
        (fun k => !delayed (K + 2) false (fun n => (sender x txReset low n).ir0.message) (m + k))
        n := by
  induction n with
  | zero => rfl
  | succ n ih =>
    rw [← Nat.add_assoc, listener_fsm h0 h1, hr _ (by omega), ih]
    rfl

/-- The receiver waits in `IDLE` for a falling edge. -/
structure Waits (r : Fsm) : Prop where
  state : r.state = .idle
  prevLevel : r.prevLevel = true
  done : r.done = false

variable (K) in
/-- A start that finds both boards at rest is reported, when no reset follows. -/
theorem reported_behind (h0 : rx.irSync0 = true) (h1 : rx.irSync = true)
    (ha : accepted x txReset low m = true) (htx : ∀ n, m ≤ n → txReset n = false)
    (hrx : ∀ n, m ≤ n → rxReset n = false)
    (hlow : ∀ n ≤ m, m ≤ n + (K + 2) → (sender x txReset low n).ir0.message = false)
    (hw : Waits (listener rx rxReset (channel K x txReset low) m).fsm) :
    ∃ t, m + (K + 2) < t ∧
      (listener rx rxReset (channel K x txReset low) t).fsm.done = true := by
  obtain ⟨⟨-, hidle⟩, hpulse⟩ : (txReset m = false ∧ (sender x txReset low m).ir0.state = .idle) ∧
      (sender x txReset low m).gen.txPulse = true := by
    simpa [accepted] using ha
  set s := (sender x txReset low m).ir0
  set start : ℕ → Bool := fun k => (sender x txReset low (m + k)).gen.txPulse
  set data : ℕ → BitVec 8 := fun k => 0#3 ++ low (m + k)
  -- the line goes on as that of a transmitter that starts at rest
  have hline : (fun k => !delayed (K + 2) false (fun n => (sender x txReset low n).ir0.message)
      (m + k)) = heard (fun _ => K) (envelope s start data) := by
    funext k
    rw [delayed_behind fun n hn => hlow n hn.le, heard, ← delayed_delayed,
      show (true : Bool) = !false from rfl]
    unfold line
    simp only [jitter_const]
    rw [delayed_not]
    exact congrArg (fun b => !b) (congrArg (fun w => delayed 2 false (delayed K false w) k)
      (funext fun u => congrArg IrTx.message (sender_transmit htx u)))
  have hacc : accepts s start data 0 = true := by
    rw [accepts, Bool.and_eq_true, decide_eq_true_eq]
    exact ⟨hidle, hpulse⟩
  have hframed := framed start data (D := K) hidle (hlow m le_rfl (by omega))
    (fun _ => ⟨le_rfl, Nat.le_add_right K 7_000⟩)
  obtain ⟨hready, -⟩ := hframed.ready hw.prevLevel hw.state hw.done hacc
  obtain ⟨-, hdone, -⟩ := hframed.arrived hw.prevLevel hacc hready
  refine ⟨m + (seen data (fun _ => K) 0 18 + 2), ?_, ?_⟩
  · simp only [seen, arrive, mark]
    omega
  · rw [listener_receive h0 h1 hrx, hline]
    exact hdone

end Report

/-- The first pulse finds the transmitter at rest. -/
def firstStart : PulsedTx where
  gen := .pulsed
  ir0 := .powerUp

/-- A reset in the header burst of the first packet. -/
def resetTx (n : ℕ) : Bool := n = 3

/-- A reset while the receiver sees what is left of it. -/
def resetRx (n : ℕ) : Bool := n = 13

/-- The command bits change behind the first packet. -/
def lateCommand (n : ℕ) : BitVec 5 := if n < 10 then 0b00001 else 0b10110

/-- A channel that takes 7 cycles. -/
def brokenLine : ℕ → Bool := channel 7 firstStart resetTx lateCommand

/-- The broken off transmitter rests up to the next pulse. -/
private theorem firstStart_rests {n : ℕ} (h5 : 5 ≤ n) (hn : n ≤ 1_000_000) :
    Resting 0 (sender firstStart resetTx lateCommand n).ir0 ∧
      (sender firstStart resetTx lateCommand n).gen.txTimer.toNat = n ∧
      (sender firstStart resetTx lateCommand n).gen.txPulse = false := by
  induction n, h5 using Nat.le_induction with
  | base => exact ⟨⟨by decide, by decide, by decide⟩, by decide, by decide⟩
  | succ n h5 ih =>
    obtain ⟨hrest, htimer, hpulse⟩ := ih (by omega)
    have hreset : resetTx n = false := decide_eq_false (by omega)
    have hlt : (sender firstStart resetTx lateCommand n).gen.txTimer.toNat < 1_000_000 := by omega
    refine ⟨?_, (txTimer_step hlt).trans (by omega), ?_⟩
    · exact hrest.burstCounter ▸ step_idle (i := ⟨resetTx n, _, _⟩) hrest.state hreset hpulse
    · show (sender firstStart resetTx lateCommand n).gen.step.txPulse = false
      rw [TxPulse.step, if_neg (by omega)]

/-- There it is accepted. -/
private theorem firstStart_accepts {m : ℕ} (hm : m = 1_000_000) :
    accepted firstStart resetTx lateCommand (m + 1) = true ∧
      (sender firstStart resetTx lateCommand (m + 1)).ir0.message = false := by
  obtain ⟨hrest, htimer, hpulse⟩ := firstStart_rests (n := m) (by omega) (by omega)
  have hreset : ∀ n, 4 ≤ n → resetTx n = false := fun n hn => decide_eq_false (by omega)
  have hnext : Resting 0 (sender firstStart resetTx lateCommand (m + 1)).ir0 :=
    hrest.burstCounter ▸ step_idle (i := ⟨resetTx m, _, _⟩) hrest.state (hreset m (by omega)) hpulse
  have hgen : (sender firstStart resetTx lateCommand (m + 1)).gen = .pulsed := by
    show (sender firstStart resetTx lateCommand m).gen.step = _
    rw [TxPulse.step, if_pos (by omega)]
  refine ⟨?_, hnext.message⟩
  rw [accepted, hnext.state, hgen, hreset _ (by omega)]
  rfl

/-- The receiver waits for it. -/
private theorem restingRx_waits {n : ℕ} (h14 : 14 ≤ n) (hn : n ≤ 1_000_001) :
    Waits (listener restingRx resetRx brokenLine n).fsm := by
  induction n, h14 using Nat.le_induction with
  | base => exact ⟨rfl, rfl, rfl⟩
  | succ n h14 ih =>
    obtain ⟨hidle, hprev, -⟩ := ih (by omega)
    -- the line has been high again since cycle 14
    have hquiet : (sender firstStart resetTx lateCommand (n - 9)).ir0.message = false :=
      (firstStart_rests (n := n - 9) (by omega) (by omega)).1.message
    have hreset : resetRx n = false := decide_eq_false (by omega)
    have hnext : (listener restingRx resetRx brokenLine (n + 1)).fsm =
        (listener restingRx resetRx brokenLine n).fsm.advance true := by
      rw [brokenLine, listener_fsm rfl rfl, delayed, if_neg (by omega), hquiet, hreset]
      rfl
    obtain ⟨hdone, hstate⟩ := idle_step (b := true) hidle
    rw [hnext]
    exact ⟨hstate.resolve_right (by simp), advance_prevLevel, hdone⟩

/-- The first packet is broken off by a reset of the transmitter, and what is left of it by
    one of the receiver.  The byte that is reported is that of the next packet. -/
theorem firstStart_not_invented : accepted firstStart resetTx lateCommand 0 = true ∧
    ∃ t a, (listener restingRx resetRx brokenLine t).fsm.done = true ∧
      accepted firstStart resetTx lateCommand a = true ∧ 1_000_001 ≤ a ∧ a + 9 < t ∧
      (listener restingRx resetRx brokenLine t).fsm.data = 0b00010110 := by
  obtain ⟨m, hm⟩ : ∃ m, m = 1_000_000 := ⟨_, rfl⟩
  obtain ⟨hacc, hmsg⟩ := firstStart_accepts hm
  have hwaits : Waits (listener restingRx resetRx brokenLine (m + 1)).fsm :=
    restingRx_waits (by omega) (by omega)
  have hlow : ∀ n ≤ m + 1, m + 1 ≤ n + (7 + 2) →
      (sender firstStart resetTx lateCommand n).ir0.message = false := by
    intro n hn hn'
    obtain rfl | hlt := Nat.eq_or_lt_of_le hn
    · exact hmsg
    · exact (firstStart_rests (by omega) (by omega)).1.message
  -- no reset follows, so the packet is reported
  obtain ⟨t, ht, hdone⟩ := reported_behind 7 rfl rfl hacc
    (fun n hn => decide_eq_false (by omega)) (fun n hn => decide_eq_false (by omega)) hlow hwaits
  obtain ⟨a, ha, hat, hdata, hlast⟩ := no_invented_command firstStart restingRx resetTx resetRx
    lateCommand 7 rfl rfl ⟨rfl, rfl⟩ rfl t (by omega) hdone
  have hnext : 1_000_001 ≤ a := by
    by_contra hlt
    have := (hlast _ hacc (by omega)).1
    omega
  refine ⟨rfl, t, a, hdone, ha, hnext, hat, hdata.trans ?_⟩
  rw [lateCommand, if_neg (by omega)]
  rfl

end Scope.Native.LinkReset
