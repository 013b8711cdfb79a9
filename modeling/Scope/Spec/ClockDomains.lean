import Scope.ForStd.Channel
import Scope.Spec.IrLink

/-!
# The link between two clocks

The boards have a clock each.  The receiver samples the line with its own, so a
run of the envelope comes to more or fewer cycles there.  As long as both clocks
and the jitter of the edges together leave every run within its window, the link
loses and invents nothing.

## Key results

- `Tolerance`: the rates and the jitter that the windows allow
- `Heard.framed`: the line of a transmitter, seen by another clock, carries its packets
- `Heard.received_le` / `Heard.le_received`: nothing is invented, nothing is lost
-/

namespace Scope.Native.IrLink

open Sync Wave IrTx IrRx

/-- The receiver has between `lo` and `hi` cycles to `q` of the transmitter, and the delays of
    two edges differ by up to `j` cycles of the transmitter: all runs of a packet still come
    in on the right side of the limits of the receiver. -/
structure Tolerance (lo hi q j : ℕ) : Prop where
  headerBurst : hi * (burstMin + 1) < q * (tickHeaderBurst + 1 - j) ∧
    q * (tickHeaderBurst + 1 + j) < lo * (burstMax + 1)
  headerSpace : hi * (spaceMin + 1) < q * (tickHeaderSpace + 1 - j) ∧
    q * (tickHeaderSpace + 1 + j) < lo * (spaceMax + 1)
  dataBurst : hi * (dataBurstMin + 1) < q * (tickDataBurst + 1 - j) ∧
    q * (tickDataBurst + 1 + j) < lo * (dataBurstMax + 1)
  dataSpace : hi * (bitThreshold + 2) < q * (tickDataSpace + 1 - j)

/-- Two clocks that differ by a tenth, and a jitter of 94 microseconds. -/
theorem tolerance_tenth : Tolerance 9 11 10 4_700 := by
  constructor <;> simp [burstMin, burstMax, spaceMin, spaceMax, dataBurstMin, dataBurstMax,
    bitThreshold, tickHeaderBurst, tickHeaderSpace, tickDataBurst, tickDataSpace]

section Line

variable {lo hi q j D a b n : ℕ} {c : Clock} {d : ℕ → ℕ} {tx : IrTx} {start : ℕ → Bool}
  {data : ℕ → BitVec 8} {w : ℕ → Bool}

/-- The jitter is less than a burst of data. -/
theorem Tolerance.jitter_le (h : Tolerance lo hi q j) : j ≤ 15_000 := by
  by_contra hj
  have hzero : tickDataBurst + 1 - j = 0 := by
    rw [tickDataBurst]
    omega
  have hburst := h.dataBurst.1
  rw [hzero] at hburst
  omega

/-- The cycle of the receiver in which its state machine sees the edge of the envelope that
    is sent in cycle `e`. -/
def arrival (c : Clock) (d : ℕ → ℕ) (e : ℕ) : ℕ := c.first (e + d e) + 2

/-- `w` is the line behind the synchroniser: it carries the envelope, and the delays are
    within the tolerance. -/
structure Heard (c : Clock) (lo hi q j D : ℕ) (d : ℕ → ℕ) (m w : ℕ → Bool) : Prop where
  carries : Carries false m true w (arrival c d)
  paced : c.Paced lo hi q
  start : c.cycle 0 = 0
  jitter : ∀ e, D ≤ d e ∧ d e ≤ D + j
  tolerance : Tolerance lo hi q j

/-- How many cycles of the receiver stage `n` of a packet takes. -/
theorem Heard.stretched (h : Heard c lo hi q j D d (envelope tx start data) w) (hn : n ≤ 20) :
    Clock.Stretched lo hi q j (dwell (data a) n)
      (arrival c d (mark (data a) a (n + 1)) - arrival c d (mark (data a) a n)) := by
  have hj := h.tolerance.jitter_le
  have hdwell := (dwell_bounds (v := data a) hn).1
  have hpos : 0 < mark (data a) a n := by
    rw [mark]
    omega
  have hfirst : c.cycle 0 < mark (data a) a n + d (mark (data a) a n) := by
    rw [h.start]
    omega
  have hlong : mark (data a) a n + j ≤ mark (data a) a (n + 1) := by
    rw [mark_succ]
    omega
  have hs := Clock.stretched_of_jitter h.paced h.jitter hfirst hlong
  rwa [mark_succ, Nat.add_sub_cancel_left, ← mark_succ,
    ← Nat.add_sub_add_right (c.first _) 2 (c.first _)] at hs

/-- A burst of data and the burst behind it. -/
theorem Heard.dataBurst (h : Heard c lo hi q j D d (envelope tx start data) w) (hn : n ≤ 20)
    (hd : dwell (data a) n = tickDataBurst + 1) :
    dataBurstMin ≤ arrival c d (mark (data a) a (n + 1)) - arrival c d (mark (data a) a n) - 1 ∧
      arrival c d (mark (data a) a (n + 1)) - arrival c d (mark (data a) a n) - 1 ≤
        dataBurstMax := by
  have hs := h.stretched (a := a) hn
  rw [hd] at hs
  exact hs.window h.tolerance.dataBurst.1 h.tolerance.dataBurst.2

/-- A space of data is on its side of the threshold. -/
theorem Heard.dataSpace (h : Heard c lo hi q j D d (envelope tx start data) w) {i : ℕ}
    (hi : i < 8) : ∃ k,
      arrival c d (mark (data a) a (3 + 2 * i + 1)) - arrival c d (mark (data a) a (3 + 2 * i)) =
        k ∧ k - 1 < timeout ∧ decide (k - 1 > bitThreshold) = (data a).getLsbD (7 - i) := by
  have hs := h.stretched (a := a) (n := 3 + 2 * i) (by omega)
  rw [dwell_space hi, spaceTicks_threshold] at hs
  refine ⟨_, rfl, ?_⟩
  cases hb : (data a).getLsbD (7 - i)
  · rw [hb, if_neg (by simp)] at hs
    have hw := hs.window h.tolerance.dataBurst.1 h.tolerance.dataBurst.2
    rw [dataBurstMax] at hw
    exact ⟨by rw [timeout]; omega, decide_eq_false (by rw [bitThreshold]; omega)⟩
  · rw [hb, if_pos rfl] at hs
    -- a header burst would be longer still
    have htop : q * (35_000 + 1 + j) < lo * (burstMax + 1) :=
      (Nat.mul_le_mul_left q (by rw [tickHeaderBurst]; omega)).trans_lt h.tolerance.headerBurst.2
    have hw := hs.window h.tolerance.dataSpace htop
    rw [bitThreshold, burstMax] at hw
    exact ⟨by rw [timeout]; omega, decide_eq_true (by rw [bitThreshold]; omega)⟩

variable (data) in
/-- The runs of the packet accepted in cycle `a`, as the receiver counts them. -/
def runsHeard (c : Clock) (d : ℕ → ℕ) (a : ℕ) : List ℕ :=
  gaps (fun n => arrival c d (mark (data a) a n)) 18

/-- A packet comes in with the runs of a packet, and they encode its byte. -/
theorem Heard.packet (h : Heard c lo hi q j D d (envelope tx start data) w) :
    Packet (runsHeard data c d a) ∧ Encodes (runsHeard data c d a) (data a) := by
  have hburst := h.stretched (a := a) (n := 0) (by omega)
  have hspace := h.stretched (a := a) (n := 1) (by omega)
  rw [show dwell (data a) 0 = tickHeaderBurst + 1 from rfl] at hburst
  rw [show dwell (data a) 1 = tickHeaderSpace + 1 from rfl] at hspace
  refine ⟨⟨length_gaps _ _, ?_, ?_, fun i hi => ?_, fun i hi => ?_⟩, fun i hi => ?_⟩
  · rw [runsHeard, getD_gaps (by omega)]
    exact hburst.window h.tolerance.headerBurst.1 h.tolerance.headerBurst.2
  · rw [runsHeard, getD_gaps (by omega)]
    exact hspace.window h.tolerance.headerSpace.1 h.tolerance.headerSpace.2
  · rw [runsHeard, getD_gaps (by omega)]
    exact h.dataBurst (by omega) (dwell_mark hi)
  · obtain ⟨k, hk, hlt, -⟩ := h.dataSpace (a := a) hi
    rw [runsHeard, getD_gaps (by omega), hk]
    exact hlt
  · obtain ⟨k, hk, -, hbit⟩ := h.dataSpace (a := a) hi
    rw [runsHeard, getD_gaps (by omega), hk]
    exact hbit.symm

/-- Where a burst begins the line is low, where a space begins it is high. -/
theorem Heard.level (h : Heard c lo hi q j D d (envelope tx start data) w)
    (ha : accepts tx start data a = true) (hn : n ≤ 19) :
    w (arrival c d (mark (data a) a n)) = !burst n := by
  have hl := h.carries.level (edge_envelope ha hn)
  have hdwell := (dwell_bounds (v := data a) (n := n) (by omega)).1
  have henv : envelope tx start data (mark (data a) a n) = burst n := by
    rw [show mark (data a) a n = a + 1 + offset (data a) n + 1 by rw [mark]; omega]
    exact envelope_at ha hn (k := 1) (by omega)
  rw [henv, Bool.xor_false, Bool.xor_true] at hl
  rw [← hl, Bool.not_not]

/-- The line falls with the packets of the transmitter and with nothing else. -/
theorem Heard.framed (h : Heard c lo hi q j D d (envelope tx start data) w)
    (hidle : tx.state = .idle) (hlow : tx.message = false) :
    Framed (accepts tx start data) data (fun a => arrival c d (mark (data a) a 0))
      (fun a => arrival c d (mark (data a) a 18)) w where
  falls a ha := by
    have hw := h.level ha (n := 0) (by omega)
    have hedge := (h.carries.edge (edge_envelope ha (n := 0) (by omega))).level
    rw [hw] at hedge
    exact ⟨hw, by simpa [burst] using hedge.symm⟩
  packet a ha := by
    refine ⟨runsHeard data c d a, ?_, h.packet⟩
    exact h.carries.runs (edge_envelope ha (by omega)) fun i hi =>
      nextEdge_envelope ha (by omega)
  apart a b ha hb hab := by
    have hspaced := accepts_spaced ha hb hab
    have hend := offset_strictMono (v := data a) (show 19 < 20 by omega) le_rfl
    -- the last burst alone keeps the packets apart
    have hburst := (h.dataBurst (a := a) (n := 18) (by omega) rfl).1
    have hle := h.carries.le (edge_envelope ha (n := 19) le_rfl)
      (edge_envelope hb (n := 0) (by omega)) (by simp only [mark]; omega)
    rw [dataBurstMin, show 18 + 1 = 19 from rfl] at hburst
    omega
  covers u hw hb := by
    obtain ⟨e, he, rfl⟩ := (h.carries.edge_iff u).mp (show Edge true w u by simp [Edge, hw, hb])
    obtain ⟨a, n, ha, hn, rfl⟩ := edge_cases hidle hlow he
    rw [h.level ha hn, Bool.not_eq_false', burst, decide_eq_true_iff] at hw
    have hmono := fun {m k : ℕ} (hmk : m ≤ k) => offset_mono (v := data a) hmk
    refine ⟨a, ha, ?_, ?_⟩
    · have := hmono (Nat.zero_le n)
      exact h.carries.le (edge_envelope ha (by omega)) he (by simp only [mark]; omega)
    · have := hmono hw.2
      exact h.carries.le he (edge_envelope ha (by omega)) (by simp only [mark]; omega)

end Line

/-! ## What is put out -/

/-- Behind the synchroniser `ir_rx` is its state machine. -/
theorem presented_eq_received {rx : IrRx} (h0 : rx.irSync0 = true) (h1 : rx.irSync = true)
    (l : ℕ → Bool) (K : ℕ) : presented rx l K = received rx.fsm (delayed 2 true l) K := by
  simp only [presented, receiver_eq h0 h1, received]

section Received

variable {lo hi q j D T K : ℕ} {c : Clock} {d : ℕ → ℕ} {tx : IrTx} {start : ℕ → Bool}
  {data : ℕ → BitVec 8} {l w : ℕ → Bool} {f : Fsm}

/-- A wire that carries the envelope, sampled and synchronised. -/
theorem heard_of_carries (hidle : tx.state = .idle) (hlow : tx.message = false)
    (hl : Carries false (envelope tx start data) true l (fun e => e + d e))
    (hpace : c.Paced lo hi q) (h0 : c.cycle 0 = 0) (hd : ∀ e, D ≤ d e ∧ d e ≤ D + j)
    (htol : Tolerance lo hi q j) :
    Heard c lo hi q j D d (envelope tx start data) (delayed 2 true (c.sampled l)) := by
  have hj := htol.jitter_le
  have hres : c.Resolves true l := by
    intro x x' hx hx' hlt
    obtain ⟨e, he, rfl⟩ := (hl.edge_iff x).mp hx
    obtain ⟨e', he', rfl⟩ := (hl.edge_iff x').mp hx'
    have hspaced := edges_spaced hidle hlow he he' ((hl.lt_iff he he').mp hlt)
    obtain ⟨a, n, -, -, rfl⟩ := edge_cases hidle hlow he
    have hpos : 0 < mark (data a) a n := by
      rw [mark]
      omega
    have hs := Clock.stretched_of_jitter hpace hd (by rw [h0]; omega)
      (show mark (data a) a n + j ≤ e' by omega)
    -- the shortest run is longer than one sample
    have hmul : q * (tickDataBurst + 1 - j) ≤ q * (e' - mark (data a) a n - j) :=
      Nat.mul_le_mul_left q (by rw [tickDataBurst]; omega)
    have hlong := Nat.lt_of_mul_lt_mul_left (htol.dataBurst.1.trans_le (hmul.trans hs.slow))
    rw [dataBurstMin] at hlong
    omega
  exact ⟨(hl.trans (Clock.carries_sampled hres)).trans (carries_delayed true _ 2), hpace, h0,
    hd, htol⟩

/-- A packet accepted when cycle `K` has begun arrives later. -/
theorem lt_arrival (c : Clock) (d : ℕ → ℕ) (data : ℕ → BitVec 8) (n : ℕ) {a : ℕ}
    (hK : c.cycle K ≤ a) : K < arrival c d (mark (data a) a n) := by
  have hlt : K < c.first (mark (data a) a n + d (mark (data a) a n)) := by
    apply c.lt_first_iff.mpr
    rw [mark]
    omega
  rw [arrival]
  omega

/-- How long it takes a packet to come in. -/
theorem Heard.arrival_le {a : ℕ} (h : Heard c lo hi q j D d (envelope tx start data) w)
    (haT : a < T) (hK : T + (D + j + 550_019) ≤ c.cycle K) :
    arrival c d (mark (data a) a 18) ≤ K + 2 := by
  have hoff : _ ∧ offset (data a) 18 ≤ _ := offset_mark (data a) (i := 8) le_rfl
  have hdelay := h.jitter (mark (data a) a 18)
  have hle : c.first (mark (data a) a 18 + d (mark (data a) a 18)) ≤ K := by
    apply c.first_le_iff.mpr
    rw [mark] at hdelay ⊢
    omega
  rw [arrival]
  omega

/-- Nothing is invented: what has been put out in front of cycle `K` has been accepted when
    it begins. -/
theorem Heard.received_le (h : Heard c lo hi q j D d (envelope tx start data) w)
    (hidle : tx.state = .idle) (hlow : tx.message = false) (hprev : f.prevLevel = true)
    (hrx : f.state = .idle) (hdone : f.done = false) (K : ℕ) :
    received f w K <+: sent tx start data (c.cycle K) := by
  refine (h.framed hidle hlow).received_le hprev hrx hdone fun a _ hTa => ?_
  have := lt_arrival c d data 18 hTa
  omega

/-- Nothing is lost: what was accepted early enough has been put out. -/
theorem Heard.le_received (h : Heard c lo hi q j D d (envelope tx start data) w)
    (hidle : tx.state = .idle) (hlow : tx.message = false) (hprev : f.prevLevel = true)
    (hrx : f.state = .idle) (hdone : f.done = false)
    (hK : T + (D + j + 550_019) ≤ c.cycle K) : sent tx start data T <+: received f w (K + 5) := by
  refine (h.framed hidle hlow).le_received hprev hrx hdone fun a _ haT => ?_
  have := h.arrival_le haT hK
  omega

end Received

end Scope.Native.IrLink
