import Scope.Spec.IrFrames
import Scope.Spec.IrTxEdges

/-!
# The infrared link

The envelope of `ir_tx` reaches `ir_rx` inverted, with a delay of its own for
every edge.  As long as the delays differ by no more than 7000 cycles the edges
keep their order, every run stays within its window, and every packet is
received before the next one arrives.

## Key results

- `packet_lengths`: a packet arrives with the runs of a packet
- `framed`: what the receiver sees is framed by the packets that were accepted
- `round_trip`: the bytes put out are the bytes accepted
-/

namespace Scope.Native.IrLink

open Sync Wave IrTx IrRx

/-- The line between the demodulator and the receiver. -/
def line (d : ℕ → ℕ) (m : ℕ → Bool) (t : ℕ) : Bool := !jitter false d m t

/-- The level behind the synchroniser. -/
def heard (d : ℕ → ℕ) (m : ℕ → Bool) : ℕ → Bool := delayed 2 true (line d m)

/-- The cycle in which the state machine sees the edge of the envelope in cycle `e`. -/
def arrive (d : ℕ → ℕ) (e : ℕ) : ℕ := e + d e + 2

/-- The receiver in front of clock edge `n`, without reset. -/
def receiver (rx : IrRx) (l : ℕ → Bool) (n : ℕ) : IrRx :=
  run IrRx.step rx (fun n => { irInput := l n, reset := false }) n

/-- The synchroniser delays the line by two cycles. -/
theorem receiver_eq {rx : IrRx} (h0 : rx.irSync0 = true) (h1 : rx.irSync = true)
    (l : ℕ → Bool) (n : ℕ) :
    receiver rx l n = ⟨delayed 1 true l n, delayed 2 true l n,
      receive rx.fsm (delayed 2 true l) n⟩ := by
  induction n with
  | zero =>
    obtain ⟨s0, s1, f⟩ := rx
    subst h0 h1
    rfl
  | succ n ih =>
    have hstep : receiver rx l (n + 1) =
        (receiver rx l n).step { irInput := l n, reset := false } := rfl
    rw [hstep, ih]
    rcases n with _ | n <;> simp [IrRx.step, delayed, receive_succ] <;> rfl

/-! ## Edges on the far side -/

section Channel

variable {d : ℕ → ℕ} {m : ℕ → Bool}

/-- The inverter keeps the edges. -/
private theorem edge_line_iff {t : ℕ} : Edge true (line d m) t ↔ Edge false (jitter false d m) t :=
  @edge_not_iff false _ _

/-- The edges that are heard are those of the envelope, each with its own delay. -/
private theorem edge_heard_iff (ho : Ordered false d m) {t : ℕ} :
    Edge true (heard d m) t ↔ ∃ e, Edge false m e ∧ t = arrive d e := by
  unfold heard arrive
  rw [edge_delayed_iff, edge_line_iff, edge_jitter_iff ho]
  constructor
  · rintro ⟨h2, e, he, ht⟩
    exact ⟨e, he, by omega⟩
  · rintro ⟨e, he, rfl⟩
    exact ⟨by omega, e, he, by omega⟩

/-- No edge overtakes another. -/
private theorem arrive_lt (ho : Ordered false d m) {e e' : ℕ} (he : Edge false m e)
    (he' : Edge false m e') (h : e < e') : arrive d e < arrive d e' := by
  have := ho e e' he he' h
  simp only [arrive]
  omega

private theorem arrive_le (ho : Ordered false d m) {e e' : ℕ} (he : Edge false m e)
    (he' : Edge false m e') (h : e ≤ e') : arrive d e ≤ arrive d e' := by
  rcases Nat.lt_or_ge e e' with hlt | hge
  · exact (arrive_lt ho he he' hlt).le
  · rw [show e = e' by omega]

/-- Consecutive edges arrive as consecutive edges. -/
private theorem nextEdge_heard (ho : Ordered false d m) {e e' : ℕ} (he : Edge false m e)
    (hn : NextEdge false m e e') : NextEdge true (heard d m) (arrive d e) (arrive d e') := by
  refine ⟨arrive_lt ho he hn.edge hn.lt, (edge_heard_iff ho).mpr ⟨e', hn.edge, rfl⟩, ?_⟩
  intro u hu hu' hue
  -- an edge seen in between would come from an edge in between
  obtain ⟨x, hx, rfl⟩ := (edge_heard_iff ho).mp hue
  rcases Nat.lt_or_ge e x with h | h
  · rcases Nat.lt_or_ge x e' with h' | h'
    · exact hn.quiet x h h' hx
    · have := arrive_le ho hn.edge hx h'
      omega
  · have := arrive_le ho hx he h
    omega

/-- The line is the inverse of the envelope. -/
private theorem heard_level (ho : Ordered false d m) {e : ℕ} (he : Edge false m e) :
    heard d m (arrive d e) = !m e := by
  rw [heard, arrive, delayed_add, line, jitter_level ho he]

end Channel

/-! ## One packet -/

section Packets

variable {s : IrTx} {start : ℕ → Bool} {data : ℕ → BitVec 8} {d : ℕ → ℕ} {D a b : ℕ}

/-- When the receiver sees stage `n` of the packet accepted in cycle `a`. -/
def seen (data : ℕ → BitVec 8) (d : ℕ → ℕ) (a n : ℕ) : ℕ := arrive d (mark (data a) a n)

/-- The lengths of its first `n` runs. -/
def lengths (data : ℕ → BitVec 8) (d : ℕ → ℕ) (a n : ℕ) : List ℕ :=
  (List.range n).map fun j => seen data d a (j + 1) - seen data d a j

/-- A run lasts from one stage to the next. -/
private theorem getD_lengths {n j : ℕ} (h : j < n) :
    (lengths data d a n).getD j 0 = seen data d a (j + 1) - seen data d a j := by
  rw [List.getD_eq_getElem _ _ (by simpa [lengths] using h)]
  simp [lengths]

/-- The channel assumption: every edge takes between `D` and `D + 7000` cycles. -/
def Jitter (d : ℕ → ℕ) (D : ℕ) : Prop := ∀ e, D ≤ d e ∧ d e ≤ D + 7_000

variable (start data) in
/-- The edges of the envelope keep their order. -/
private theorem ordered (hs : s.state = .idle) (hm : s.message = false) (hd : Jitter d D) :
    Ordered false d (envelope s start data) :=
  -- the jitter is less than the shortest burst, so no edge overtakes another
  ordered_of_spaced hd fun e e' he he' hlt => by
    have := edges_spaced hs hm he he' hlt
    omega

variable (data a) in
/-- Jitter changes the length of a run by 7000 cycles at most. -/
private theorem length_bounds (hd : Jitter d D) {n : ℕ} (hn : n ≤ 20) :
    dwell (data a) n ≤ seen data d a (n + 1) - seen data d a n + 7_000 ∧
      seen data d a (n + 1) - seen data d a n ≤ dwell (data a) n + 7_000 := by
  have h0 := hd (mark (data a) a n)
  have h1 := hd (mark (data a) a (n + 1))
  have hdwell := (dwell_bounds (v := data a) hn).1
  simp only [seen, arrive]
  rw [mark_succ] at h1 ⊢
  omega

/-- The stages of a packet come in as runs. -/
private theorem runs_heard (hs : s.state = .idle) (hm : s.message = false) (hd : Jitter d D)
    (ha : accepts s start data a = true) {n : ℕ} (hn : n ≤ 19) :
    Runs true (heard d (envelope s start data)) (seen data d a 0) (lengths data d a n)
      (seen data d a n) := by
  have ho := ordered start data hs hm hd
  induction n with
  | zero => exact .start ((edge_heard_iff ho).mpr ⟨_, edge_envelope ha (by omega), rfl⟩)
  | succ n ih =>
    rw [lengths, List.range_succ, List.map_append]
    exact (ih (by omega)).run
      (nextEdge_heard ho (edge_envelope ha (by omega)) (nextEdge_envelope ha (by omega)))

/-- A data space stays on its side of the bit threshold. -/
theorem spaceTicks_threshold (v : BitVec 8) (i : ℕ) : spaceTicks v i =
    if v.getLsbD (7 - i) = true then 35_000 else 15_000 := rfl

variable (data a) in
/-- A packet arrives with the runs of a packet. -/
theorem packet_lengths (hd : Jitter d D) : Packet (lengths data d a 18) := by
  have h0 := length_bounds data a hd (n := 0) (by omega)
  have h1 := length_bounds data a hd (n := 1) (by omega)
  have hw0 : dwell (data a) 0 = 100_001 := by simp [dwell, tickHeaderBurst]
  have hw1 : dwell (data a) 1 = 50_001 := by simp [dwell, tickHeaderSpace]
  -- every window of the receiver is at least 7000 cycles wider than the run on both sides
  refine ⟨by simp [lengths], ?_, ?_, fun i hi => ?_, fun i hi => ?_⟩
  · rw [getD_lengths (by omega)]
    simp only [burstMin, burstMax]
    omega
  · rw [getD_lengths (by omega)]
    simp only [spaceMin, spaceMax]
    omega
  · have h := length_bounds data a hd (n := 2 + 2 * i) (by omega)
    rw [dwell_mark hi, tickDataBurst] at h
    rw [getD_lengths (by omega)]
    simp only [dataBurstMin, dataBurstMax]
    omega
  · have h := length_bounds data a hd (n := 3 + 2 * i) (by omega)
    have hspace := spaceTicks_bounds (data a) i
    rw [dwell_space hi] at h
    rw [getD_lengths (by omega)]
    simp only [timeout]
    omega

variable (data a) in
/-- The data spaces of a packet encode its byte. -/
private theorem encodes_lengths (hd : Jitter d D) : Encodes (lengths data d a 18) (data a) := by
  intro i hi
  -- jitter does not carry a space across the threshold
  have h := length_bounds data a hd (n := 3 + 2 * i) (by omega)
  rw [dwell_space hi, spaceTicks_threshold] at h
  rw [getD_lengths (by omega), bitThreshold]
  cases hb : (data a).getLsbD (7 - i)
  · rw [hb, if_neg (by simp)] at h
    exact (decide_eq_false (by omega)).symm
  · rw [hb, if_pos rfl] at h
    exact (decide_eq_true (by omega)).symm

end Packets

/-! ## All packets -/

/-- The bytes accepted before cycle `T`. -/
def sent (s : IrTx) (start : ℕ → Bool) (data : ℕ → BitVec 8) (T : ℕ) : List (BitVec 8) :=
  log (accepts s start data) data T

section RoundTrip

variable {s : IrTx} {start : ℕ → Bool} {data : ℕ → BitVec 8} {d : ℕ → ℕ} {D a b : ℕ} {f : Fsm}

/-- The stages of a packet are seen in their order. -/
private theorem seen_lt_of_lt (hs : s.state = .idle) (hm : s.message = false) (hd : Jitter d D)
    (ha : accepts s start data a = true) {n k : ℕ} (hn : n < k) (hk : k ≤ 19) :
    seen data d a n < seen data d a k := by
  refine arrive_lt (ordered start data hs hm hd) (edge_envelope ha (by omega))
    (edge_envelope ha hk) ?_
  have := offset_strictMono (v := data a) hn (by omega)
  simp only [mark]
  omega

private theorem seen_le_of_le (hs : s.state = .idle) (hm : s.message = false) (hd : Jitter d D)
    (ha : accepts s start data a = true) {n k : ℕ} (hn : n ≤ k) (hk : k ≤ 19) :
    seen data d a n ≤ seen data d a k := by
  obtain rfl | hlt := Nat.eq_or_lt_of_le hn
  · exact le_rfl
  · exact (seen_lt_of_lt hs hm hd ha hlt hk).le

/-- Packets arrive in the order in which they were accepted. -/
private theorem seen_lt_seen (hs : s.state = .idle) (hm : s.message = false) (hd : Jitter d D)
    (ha : accepts s start data a = true) (hb : accepts s start data b = true) (hab : a < b)
    {n k : ℕ} (hn : n ≤ 19) (hk : k ≤ 19) : seen data d a n < seen data d b k := by
  refine arrive_lt (ordered start data hs hm hd) (edge_envelope ha hn) (edge_envelope hb hk) ?_
  have hspace := accepts_spaced ha hb hab
  have := offset_strictMono (v := data a) (show n < 20 by omega) le_rfl
  simp only [mark]
  omega

/-- The line falls with the bursts of the packets and at no other time. -/
private theorem falling_cases (hs : s.state = .idle) (hm : s.message = false) (hd : Jitter d D)
    {u : ℕ} (hw : heard d (envelope s start data) u = false)
    (hb : before true (heard d (envelope s start data)) u = true) :
    ∃ a n, accepts s start data a = true ∧ n ≤ 18 ∧ u = seen data d a n := by
  have ho := ordered start data hs hm hd
  obtain ⟨e, he, rfl⟩ := (edge_heard_iff ho).mp (show Edge true _ u by simp [Edge, hw, hb])
  obtain ⟨a, n, ha, hn, rfl⟩ := edge_cases hs hm he
  -- the line falls when a burst begins, and the bursts are even stages up to 18
  rw [heard_level ho he, Bool.not_eq_false', show mark (data a) a n =
    a + 1 + offset (data a) n + 1 by rw [mark]; omega, envelope_at ha hn
    (by have := (dwell_bounds (v := data a) (n := n) (by omega)).1; omega), level,
    if_neg (by omega), burst, decide_eq_true_iff] at hw
  exact ⟨a, n, ha, hw.2, rfl⟩

/-- With a packet the line falls from its rest level. -/
private theorem falling_seen (hs : s.state = .idle) (hm : s.message = false) (hd : Jitter d D)
    (ha : accepts s start data a = true) :
    heard d (envelope s start data) (seen data d a 0) = false ∧
      before true (heard d (envelope s start data)) (seen data d a 0) = true := by
  have ho := ordered start data hs hm hd
  have he := edge_envelope ha (n := 0) (by omega)
  have henv : envelope s start data (mark (data a) a 0) = true :=
    envelope_at ha (n := 0) (k := 1) (by omega) (by simp [dwell, tickHeaderBurst])
  have hw : heard d (envelope s start data) (seen data d a 0) = false := by
    rw [seen, heard_level ho he, henv]
    rfl
  have hedge : Edge true (heard d (envelope s start data)) (seen data d a 0) :=
    (edge_heard_iff ho).mpr ⟨_, he, rfl⟩
  have hlevel := hedge.level
  rw [hw] at hlevel
  exact ⟨hw, by simpa using hlevel.symm⟩

variable (start data) in
/-- What the receiver sees is framed by the packets that were accepted. -/
theorem framed (hs : s.state = .idle) (hm : s.message = false) (hd : Jitter d D) :
    Framed (accepts s start data) data (fun a => seen data d a 0) (fun a => seen data d a 18)
      (heard d (envelope s start data)) where
  falls a ha := falling_seen hs hm hd ha
  packet a ha := ⟨lengths data d a 18, runs_heard hs hm hd ha (by omega),
    packet_lengths data a hd, encodes_lengths data a hd⟩
  apart a b ha hb hab := by
    -- the wait behind a packet keeps the next one away until the byte is out
    have hgap := length_bounds data a hd (n := 18) (by omega)
    have hdwell : dwell (data a) 18 = 15_001 := by simp [dwell, tickDataBurst]
    have hnext : seen data d a 19 < seen data d b 0 :=
      seen_lt_seen hs hm hd ha hb hab (by omega) (by omega)
    rw [show 18 + 1 = 19 from rfl] at hgap
    omega
  covers u hw hb := by
    obtain ⟨a, n, ha, hn, rfl⟩ := falling_cases hs hm hd hw hb
    exact ⟨a, ha, seen_le_of_le hs hm hd ha (Nat.zero_le n) (by omega),
      seen_le_of_le hs hm hd ha hn (by omega)⟩

/-- From the start pulse to the byte, apart from the delay of the channel. -/
def latency : ℕ := 557_024

/-- No stage is seen before its packet is accepted. -/
private theorem lt_seen (data : ℕ → BitVec 8) (d : ℕ → ℕ) (a n : ℕ) : a < seen data d a n := by
  simp only [seen, arrive, mark]
  omega

variable (data) in
/-- A packet has come in, and its byte is out, within the latency. -/
private theorem seen_le (hd : Jitter d D) (a : ℕ) : seen data d a 18 + 3 ≤ a + 1 + D + latency := by
  have hoff : _ ∧ offset (data a) 18 ≤ _ := offset_mark (data a) (i := 8) le_rfl
  have hdelay := hd (mark (data a) a 18)
  simp only [seen, arrive, mark, latency] at hdelay ⊢
  omega

end RoundTrip

/-- The bytes presented by `ir_rx` at its done pulses before cycle `T`. -/
def presented (rx : IrRx) (l : ℕ → Bool) (T : ℕ) : List (BitVec 8) :=
  log (fun n => (receiver rx l n).fsm.done) (fun n => (receiver rx l n).fsm.data) T

/-- Behind the synchroniser `ir_rx` is its state machine. -/
theorem presented_eq {rx : IrRx} (h0 : rx.irSync0 = true) (h1 : rx.irSync = true) (d : ℕ → ℕ)
    (m : ℕ → Bool) (T : ℕ) : presented rx (line d m) T = received rx.fsm (heard d m) T := by
  simp only [presented, receiver_eq h0 h1, received, heard]

/-- **Round trip.**  For every schedule of `start`, every waveform of `data` and
    every jitter of up to 7000 cycles, the receiver presents the bytes that the
    transmitter accepted: in their order, each once, and each in time. -/
theorem round_trip (tx : IrTx) (rx : IrRx) (start : ℕ → Bool) (data : ℕ → BitVec 8)
    (d : ℕ → ℕ) (D : ℕ) (htx : tx.state = .idle) (hlow : tx.message = false)
    (hsync : rx.irSync0 = true ∧ rx.irSync = true) (hrx : rx.fsm.state = .idle)
    (hprev : rx.fsm.prevLevel = true) (hdone : rx.fsm.done = false)
    (hd : ∀ e, D ≤ d e ∧ d e ≤ D + 7_000) (T : ℕ) :
    presented rx (line d (envelope tx start data)) T <+: sent tx start data T ∧
      sent tx start data T <+:
        presented rx (line d (envelope tx start data)) (T + D + latency) := by
  have hframed := framed start data htx hlow hd
  rw [presented_eq hsync.1 hsync.2, presented_eq hsync.1 hsync.2]
  constructor
  · -- a packet accepted in cycle `T` or later arrives later
    refine hframed.received_le hprev hrx hdone fun a _ hTa => ?_
    have := lt_seen data d a 18
    omega
  · refine hframed.le_received hprev hrx hdone fun a _ haT => ?_
    have := seen_le data hd a
    omega

/-- The receiver after a reset with the line high. -/
def restingRx : IrRx where
  irSync0 := true
  irSync := true
  fsm := Fsm.resetRegs

/-- One byte sent in cycle 0 over a channel that delays falling and rising edges
    differently. -/
theorem round_trip_one :
    [0x15] <+: presented restingRx (line (fun e => 7_000 * (e % 2))
      (envelope IrTx.powerUp (fun n => n = 0) (fun _ => 0x15))) (1 + 0 + latency) := by
  have h := (round_trip IrTx.powerUp restingRx (fun n => n = 0) (fun _ => 0x15)
    (fun e => 7_000 * (e % 2)) 0 rfl rfl ⟨rfl, rfl⟩ rfl rfl rfl (fun e => by omega) 1).2
  have hsent : sent IrTx.powerUp (fun n => n = 0) (fun _ => 0x15) 1 = [0x15] := by decide
  rwa [hsent] at h

end Scope.Native.IrLink
