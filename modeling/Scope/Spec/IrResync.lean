import Scope.Spec.IrCarrier

/-!
# Joining the line

A receiver that begins to listen at any moment, in any of its named states, with
whatever it has counted and shifted in so far.  The header of the next packet
brings it back to `IDLE` if nothing has before, so it puts out one byte that was
not sent at the most, and misses one packet that comes in whole.

## Key results

- `Waiting.step`: bursts that are too short for a header are passed over
- `header_idles`: a receiver out of step does not survive a header
- `Framed.resync`: what is put out from the moment of joining on
- `joins_line`: the same for the link
-/

namespace Scope.Native.IrRx

open Sync Wave IrLink

/-! ## One clock edge -/

/-- The state is none of the unused encodings. -/
def Named (s : Fsm) : Prop := ∀ low, s.state ≠ .unused low

section Advance

variable {s : Fsm} {b : Bool}

/-- A byte is put out on the way to `IDLE`. -/
private theorem idle_of_done (h : (s.advance b).done = true) : (s.advance b).state = .idle := by
  by_cases hv : s.state = .validate
  · simp only [Fsm.advance, Fsm.timeOut, Fsm.validate]
    rw [if_pos hv]
    split_ifs <;> rfl
  · rw [(advance_outputs hv).1] at h
    cases h

/-- The same registers when `done` has been read. -/
def cleared (s : Fsm) : Fsm := { s with done := false }

/-- A clock edge does not read `done`. -/
private theorem advance_cleared (s : Fsm) (b : Bool) : (cleared s).advance b = s.advance b := rfl

/-- From `VALIDATE` every clock edge leads to `IDLE`. -/
private theorem validate_leads (hs : s.state = .validate) : (s.advance b).state = .idle := by
  obtain ht | ht := Nat.lt_or_ge s.tickCount.toNat timeout
  · exact (advance_validate hs ht).1
  · exact advance_timeout (by simp [hs]) ht

/-- Where an edge leads from a state that is not `IDLE`. -/
private theorem edge_leads (hb : b ≠ s.prevLevel) (hnamed : Named s) (hi : s.state ≠ .idle) :
    (s.advance b).state = .idle ∨ (s.advance b).state = .validate ∨
      (s.advance b).tickCount.toNat = 0 ∧ ((s.advance b).state = .headerSpace ∨
        (s.advance b).state = .dataBurst ∨ (s.advance b).state = .dataSpace) := by
  obtain ht | ht := Nat.lt_or_ge s.tickCount.toNat timeout
  swap
  · exact .inl (advance_timeout hi ht)
  by_cases hv : s.state = .validate
  · exact .inl (validate_leads hv)
  rw [advance_edge hb hv ht]
  simp only [Fsm.edge, Fsm.reject]
  cases hs : s.state
  case idle => exact absurd hs hi
  case validate => exact absurd hs hv
  case unused low => exact absurd hs (hnamed low)
  all_goals
    simp only
    split_ifs <;> simp

/-- Where it leads from a data space. -/
private theorem dataSpace_leads (hb : b ≠ s.prevLevel) (hs : s.state = .dataSpace) :
    (s.advance b).state = .idle ∨ (s.advance b).state = .validate ∨
      (s.advance b).tickCount.toNat = 0 ∧ (s.advance b).state = .dataBurst := by
  obtain ht | ht := Nat.lt_or_ge s.tickCount.toNat timeout
  swap
  · exact .inl (advance_timeout (by simp [hs]) ht)
  rw [advance_edge hb (by simp [hs]) ht]
  simp only [Fsm.edge, hs]
  split_ifs <;> simp

/-- A run that is too long for a header space or for a burst of data. -/
private theorem late_edge (hb : b ≠ s.prevLevel)
    (h : s.state = .headerSpace ∧ spaceMax < s.tickCount.toNat ∨
      s.state = .dataBurst ∧ dataBurstMax < s.tickCount.toNat) : (s.advance b).state = .idle := by
  obtain ht | ht := Nat.lt_or_ge s.tickCount.toNat timeout
  swap
  · refine advance_timeout ?_ ht
    obtain ⟨hs, -⟩ | ⟨hs, -⟩ := h <;> simp [hs]
  obtain ⟨hs, hlate⟩ | ⟨hs, hlate⟩ := h
  all_goals
    rw [advance_edge hb (by simp [hs]) ht]
    simp only [Fsm.edge, Fsm.reject, hs]
    rw [if_neg (by omega)]

/-- A burst that is too short for a header. -/
private theorem short_burst (hb : b ≠ s.prevLevel) (hs : s.state = .headerBurst)
    (hshort : s.tickCount.toNat < burstMin) : (s.advance b).state = .idle := by
  rw [advance_edge hb (by simp [hs]) (hshort.trans (by decide))]
  simp only [Fsm.edge, Fsm.reject, hs]
  rw [if_neg (by omega)]

/-- Without an edge the state is kept, or left for `IDLE`. -/
private theorem quiet_leads (hb : b = s.prevLevel) :
    (s.advance b).state = .idle ∨ (s.advance b).state = s.state ∧
      (s.advance b).tickCount.toNat = s.tickCount.toNat + 1 := by
  by_cases hi : s.state = .idle
  · left
    rw [(advance_idle hi).1, if_neg]
    rintro ⟨rfl, h⟩
    rw [h] at hb
    cases hb
  obtain ht | ht := Nat.lt_or_ge s.tickCount.toNat timeout
  swap
  · exact .inl (advance_timeout hi ht)
  by_cases hv : s.state = .validate
  · exact .inl (validate_leads hv)
  rw [advance_quiet hb hv ht]
  exact .inr ⟨rfl, tickCount_succ ht⟩

/-- No clock edge leads to an unused encoding. -/
theorem Named.advance (h : Named s) : Named (s.advance b) := by
  intro low
  by_cases hi : s.state = .idle
  · rw [(advance_idle hi).1]
    split_ifs <;> simp
  by_cases hb : b = s.prevLevel
  · obtain hs | ⟨hs, -⟩ := quiet_leads hb
    · simp [hs]
    · rw [hs]
      exact h low
  · obtain hs | hs | ⟨-, hs | hs | hs⟩ := edge_leads hb h hi <;> simp [hs]

end Advance

/-! ## A receiver that joins in cycle `m` -/

/-- The receiver `n` cycles after it has begun to listen to `w`, in cycle `m` and from the
    registers `g`. -/
def joined (g : Fsm) (w : ℕ → Bool) (m n : ℕ) : Fsm := receive g (fun k => w (m + k)) n

section Joined

variable {g : Fsm} {w : ℕ → Bool} {m n x y t : ℕ}

private theorem joined_succ (g : Fsm) (w : ℕ → Bool) (m n : ℕ) :
    joined g w m (n + 1) = (joined g w m n).advance (w (m + n)) := rfl

/-- From its second cycle on it knows the level before. -/
private theorem joined_prevLevel (hn : 0 < n) :
    (joined g w m n).prevLevel = before true w (m + n) := by
  obtain ⟨n, rfl⟩ : ∃ k, n = k + 1 := ⟨n - 1, by omega⟩
  rw [joined_succ, advance_prevLevel, ← Nat.add_assoc, before_succ]

/-- So it sees the edges of the line. -/
private theorem joined_edge_iff (hn : 0 < n) :
    Edge true w (m + n) ↔ w (m + n) ≠ (joined g w m n).prevLevel := by
  rw [joined_prevLevel hn]
  rfl

/-- A receiver in a named state stays in one. -/
private theorem joined_named (hg : Named g) (n : ℕ) : Named (joined g w m n) := by
  induction n with
  | zero => exact hg
  | succ n ih => exact ih.advance

/-! ## Waiting for a header -/

/-- In cycle `t` the receiver is idle, or counts a low run that is too short for a header. -/
inductive Waiting (w : ℕ → Bool) (t : ℕ) (s : Fsm) : Prop
  | idle : s.state = .idle → Waiting w t s
  | burst {u r : ℕ} : s.state = .headerBurst → s.tickCount.toNat = t - u - 1 → w u = false →
      NextEdge true w u r → u < t → t ≤ r → r ≤ u + burstMin → Waiting w t s

/-- Bursts that are too short for a header are passed over. -/
theorem Waiting.step (hn : 0 < n) (h : Waiting w (m + n) (joined g w m n))
    (hshort : w (m + n) = false → before true w (m + n) = true →
      ∃ r, NextEdge true w (m + n) r ∧ r ≤ m + n + burstMin) :
    Waiting w (m + (n + 1)) (joined g w m (n + 1)) ∧ (joined g w m (n + 1)).done = false := by
  have hprev := joined_prevLevel (g := g) (w := w) (m := m) hn
  rw [joined_succ]
  cases h with
  | idle hi =>
    refine ⟨?_, (advance_outputs (by simp [hi])).1⟩
    obtain ⟨hstate, htick⟩ := advance_idle (b := w (m + n)) hi
    by_cases hfall : w (m + n) = false ∧ before true w (m + n) = true
    · -- a falling edge begins the next low run
      obtain ⟨r, hnext, hr⟩ := hshort hfall.1 hfall.2
      have hlt := hnext.lt
      rw [hprev, if_pos hfall] at hstate
      rw [hprev] at htick
      refine .burst hstate ?_ hfall.1 hnext (by omega) (by omega) hr
      rw [htick hfall.1 hfall.2, show m + (n + 1) - (m + n) - 1 = 0 by omega]
      rfl
    · rw [hprev, if_neg hfall] at hstate
      exact .idle hstate
  | @burst u r hstate htick hlow hnext hut htr hr =>
    refine ⟨?_, (advance_outputs (by simp [hstate])).1⟩
    obtain rfl | hlt := Nat.eq_or_lt_of_le htr
    · apply Waiting.idle
      exact short_burst ((joined_edge_iff hn).mp hnext.edge) hstate (by omega)
    · have hquiet := mt (joined_edge_iff (g := g) hn).mpr (hnext.quiet _ hut hlt)
      obtain hidle | ⟨hs, ht⟩ := quiet_leads (not_not.mp hquiet)
      · exact .idle hidle
      · refine .burst (hs.trans hstate) ?_ hlow hnext (by omega) (by omega) hr
        omega

/-- Up to a falling edge that ends the wait. -/
theorem Waiting.run (hx : 0 < x) (h : Waiting w (m + x) (joined g w m x)) (hxy : x ≤ y)
    (hshort : ∀ u, m + x ≤ u → u < m + y → w u = false → before true w u = true →
      ∃ r, NextEdge true w u r ∧ r ≤ u + burstMin) :
    Waiting w (m + y) (joined g w m y) ∧
      ∀ k, x < k → k ≤ y → (joined g w m k).done = false := by
  induction y, hxy using Nat.le_induction with
  | base => exact ⟨h, fun k hk hk' => by omega⟩
  | succ y hxy ih =>
    obtain ⟨hwait, hdone⟩ := ih fun u hu hu' => hshort u hu (by omega)
    obtain ⟨hwait', hdone'⟩ := hwait.step (by omega) fun hw hb =>
      hshort (m + y) (by omega) (by omega) hw hb
    refine ⟨hwait', fun k hk hk' => ?_⟩
    obtain rfl | hlt := Nat.eq_or_lt_of_le hk'
    · exact hdone'
    · exact hdone k hk (by omega)

/-- A falling edge finds it idle. -/
theorem Waiting.falling {s : Fsm} (h : Waiting w t s) (hw : w t = false)
    (hb : before true w t = true) : s.state = .idle := by
  cases h with
  | idle hi => exact hi
  | @burst u r hstate htick hlow hnext hut htr hr =>
    obtain rfl | hlt := Nat.eq_or_lt_of_le htr
    · rw [hnext.before, hlow] at hb
      cases hb
    · exact absurd (show Edge true w t by simp [Edge, hw, hb]) (hnext.quiet t hut hlt)

/-! ## A header -/

/-- Between two edges the state is kept and every cycle is counted, as long as the receiver
    does not fall back to `IDLE`. -/
private theorem joined_hold (hnext : NextEdge true w (m + x) (m + y))
    (hbusy : ∀ k, x < k → k ≤ y → (joined g w m k).state ≠ .idle)
    (hzero : (joined g w m (x + 1)).tickCount.toNat = 0) :
    (joined g w m y).state = (joined g w m (x + 1)).state ∧
      (joined g w m y).tickCount.toNat = m + y - (m + x) - 1 := by
  have hlt := hnext.lt
  have hspan : ∀ k ≤ y - x - 1,
      (joined g w m (x + 1 + k)).state = (joined g w m (x + 1)).state ∧
        (joined g w m (x + 1 + k)).tickCount.toNat = k := by
    intro k hk
    induction k with
    | zero => exact ⟨rfl, hzero⟩
    | succ k ih =>
      obtain ⟨hstate, htick⟩ := ih (by omega)
      have hquiet := hnext.quiet (m + (x + 1 + k)) (by omega) (by omega)
      have hsame := not_not.mp (mt (joined_edge_iff (g := g) (by omega)).mpr hquiet)
      obtain hidle | ⟨hstate', htick'⟩ := quiet_leads hsame
      · exact absurd hidle (hbusy (x + 1 + k + 1) (by omega) (by omega))
      · exact ⟨hstate'.trans hstate, htick'.trans (by omega)⟩
  have hend := hspan (y - x - 1) le_rfl
  rw [show x + 1 + (y - x - 1) = y by omega] at hend
  exact ⟨hend.1, hend.2.trans (by omega)⟩

/-- A receiver that is out of step is back in `IDLE` when a header has gone by. -/
theorem header_idles {f r s : ℕ} (hg : Named g) (hm : m < f) (hf : Edge true w f)
    (hburst : NextEdge true w f r) (hspace : NextEdge true w r s)
    (hlong : burstMin ≤ r - f - 1) (hlong' : spaceMin ≤ s - r - 1) :
    ∃ n, 0 < n ∧ m + n ≤ s + 1 ∧ (joined g w m n).state = .idle := by
  by_contra hnone
  push Not at hnone
  have hlt := hburst.lt
  have hlt' := hspace.lt
  obtain ⟨x, rfl⟩ : ∃ x, f = m + x := ⟨f - m, by omega⟩
  obtain ⟨y, rfl⟩ : ∃ y, r = m + y := ⟨r - m, by omega⟩
  obtain ⟨z, rfl⟩ : ∃ z, s = m + z := ⟨s - m, by omega⟩
  have hedge := (joined_edge_iff (g := g) (by omega)).mp hf
  have hedge' := (joined_edge_iff (g := g) (by omega)).mp hburst.edge
  have hedge'' := (joined_edge_iff (g := g) (by omega)).mp hspace.edge
  have hlate : spaceMax < burstMin := by decide
  have hlate' : dataBurstMax < spaceMin := by decide
  obtain hidle | hval | ⟨hzero, hstates⟩ :=
    edge_leads hedge (joined_named hg x) (hnone x (by omega) (by omega))
  · exact hnone (x + 1) (by omega) (by omega) hidle
  · exact hnone (x + 2) (by omega) (by omega) (validate_leads hval)
  -- the header burst is too long for all but a data space
  obtain ⟨hstate, htick⟩ := joined_hold hburst (fun k hk hk' => hnone k (by omega) (by omega))
    hzero
  rw [joined_succ] at hstate
  obtain hs | hs | hs := hstates
  · have hidle := late_edge hedge' (.inl ⟨hstate.trans hs, by omega⟩)
    exact hnone (y + 1) (by omega) (by omega) hidle
  · have : dataBurstMax < burstMin := by decide
    have hidle := late_edge hedge' (.inr ⟨hstate.trans hs, by omega⟩)
    exact hnone (y + 1) (by omega) (by omega) hidle
  -- and the header space for what may follow that
  obtain hidle | hval | ⟨hzero', hs'⟩ := dataSpace_leads hedge' (hstate.trans hs)
  · exact hnone (y + 1) (by omega) (by omega) hidle
  · exact hnone (y + 2) (by omega) (by omega) (validate_leads hval)
  obtain ⟨hstate', htick'⟩ := joined_hold hspace (fun k hk hk' => hnone k (by omega) (by omega))
    hzero'
  rw [joined_succ] at hstate'
  have hidle := late_edge hedge'' (.inr ⟨hstate'.trans hs', by omega⟩)
  exact hnone (z + 1) (by omega) (by omega) hidle

/-! ## What it puts out -/

/-- Up to the first `IDLE` at most one byte is put out. -/
private theorem received_first (hdone : g.done = false)
    (hbusy : ∀ k, 0 < k → k < x → (joined g w m k).state ≠ .idle) :
    received g (fun k => w (m + k)) x = [] := by
  refine log_quiet (m := 0) (Nat.zero_le x) fun k _ hk => ?_
  cases k with
  | zero => exact hdone
  | succ k =>
    by_contra hbyte
    rw [Bool.not_eq_false] at hbyte
    exact hbusy (k + 1) (by omega) hk (idle_of_done hbyte)

/-- Up to the first `IDLE` it puts out one byte at most. -/
private theorem length_received_first (hdone : g.done = false)
    (hbusy : ∀ k, 0 < k → k < x → (joined g w m k).state ≠ .idle) :
    (received g (fun k => w (m + k)) (x + 1)).length ≤ 1 := by
  have hnil := received_first hdone hbusy
  rw [received, log]
  split_ifs
  · rw [← received, hnil]
    rfl
  · rw [← received, hnil]
    exact Nat.zero_le 1

/-- Without `done` nothing is put out. -/
private theorem received_hold (hxy : x ≤ y)
    (hquiet : ∀ k, x < k → k ≤ y → (joined g w m k).done = false) :
    received g (fun k => w (m + k)) (y + 1) = received g (fun k => w (m + k)) (x + 1) :=
  log_quiet (by omega) fun k hk hk' => hquiet k (by omega) (by omega)

/-- Clearing `done` changes nothing but the first cycle. -/
private theorem receive_cleared (s : Fsm) (w : ℕ → Bool) (k : ℕ) :
    receive (cleared s) w (k + 1) = receive s w (k + 1) := by
  induction k with
  | zero => exact advance_cleared s (w 0)
  | succ k ih => rw [receive_succ, ih, ← receive_succ]

/-- From cycle `y` on the registers of that cycle put out the rest. -/
private theorem received_split (g : Fsm) (w : ℕ → Bool) (m y K : ℕ) :
    received g (fun k => w (m + k)) (y + (K + 1)) = received g (fun k => w (m + k)) (y + 1) ++
      received (cleared (joined g w m y)) (fun k => w (m + y + k)) (K + 1) := by
  have hsame : ∀ k, receive (cleared (joined g w m y)) (fun k => w (m + y + k)) (1 + k) =
      receive g (fun k => w (m + k)) (y + 1 + k) := by
    intro k
    rw [Nat.add_comm 1 k, receive_cleared, Nat.add_assoc y, Nat.add_comm 1 k,
      receive_add g _ y (k + 1)]
    simp only [joined, Nat.add_assoc]
  rw [Nat.add_comm K 1, ← Nat.add_assoc]
  simp only [received]
  rw [log_add _ _ (y + 1), log_add _ _ 1]
  simp only [hsame]
  rfl

end Joined

/-! ## Back in step -/

/-- Within a packet no burst but the first is long enough for a header. -/
def Brief (acc : ℕ → Bool) (F E : ℕ → ℕ) (w : ℕ → Bool) : Prop :=
  ∀ a u, acc a = true → F a < u → u ≤ E a → w u = false → before true w u = true →
    ∃ r, NextEdge true w u r ∧ r ≤ u + burstMin

section Resync

variable {acc : ℕ → Bool} {v : ℕ → BitVec 8} {F E : ℕ → ℕ} {w : ℕ → Bool} {g : Fsm}
  {a b c m x y : ℕ}

/-- Packets come in the order of their events. -/
theorem Framed.lt_iff (h : Framed acc v F E w) (ha : acc a = true) (hb : acc b = true) :
    F a < F b ↔ a < b := by
  have hlt : ∀ {a b}, acc a = true → acc b = true → a < b → F a < F b := by
    intro a b ha hb hab
    have := h.apart a b ha hb hab
    have := h.le ha
    omega
  refine ⟨fun hF => ?_, hlt ha hb⟩
  obtain hab | rfl | hba := Nat.lt_trichotomy a b
  · exact hab
  · omega
  · have := hlt hb ha hba
    omega

private theorem Framed.le_iff (h : Framed acc v F E w) (ha : acc a = true) (hb : acc b = true) :
    F a ≤ F b ↔ a ≤ b := by
  rw [← not_lt, h.lt_iff hb ha, not_lt]

/-- The packets from a cycle on are those from an event on. -/
theorem Framed.threshold (h : Framed acc v F E w) (c : ℕ) :
    ∃ A, ∀ a, acc a = true → (A ≤ a ↔ c ≤ F a) := by
  induction c with
  | zero => exact ⟨0, fun a _ => by simp⟩
  | succ c ih =>
    obtain ⟨A, hA⟩ := ih
    by_cases hex : ∃ b, acc b = true ∧ F b = c
    · obtain ⟨b, hb, rfl⟩ := hex
      exact ⟨b + 1, fun a ha => (h.lt_iff hb ha).symm⟩
    · push Not at hex
      refine ⟨A, fun a ha => ?_⟩
      have := hex a ha
      rw [hA a ha]
      omega

/-- A packet that comes in whole brings the receiver back to `IDLE`. -/
private theorem Framed.idles (h : Framed acc v F E w) (hg : Named g) (ha : acc a = true)
    (hm : m < F a) : ∃ n, 0 < n ∧ m + n ≤ E a + 1 ∧ (joined g w m n).state = .idle := by
  obtain ⟨ds, hruns, hp, -⟩ := h.packet a ha
  have hedge := hruns.first_edge
  obtain ⟨hlen, hburst, hspace, -, -⟩ := hp
  match ds, hlen with
  | d :: d' :: ds, _ =>
    obtain ⟨r, hr, rfl, hruns'⟩ := hruns.uncons rfl
    obtain ⟨s, hs, rfl, hrest⟩ := hruns'.uncons rfl
    obtain ⟨n, hn, hns, hidle⟩ := header_idles hg hm hedge hr hs hburst.1 hspace.1
    have := hrest.le
    exact ⟨n, hn, by omega, hidle⟩

/-- A receiver that is idle waits for the next packet that comes in whole. -/
theorem Framed.waits (h : Framed acc v F E w) (hbrief : Brief acc F E w) (hx : 0 < x)
    (hidle : (joined g w m x).state = .idle) (hxy : x ≤ y)
    (hfree : ∀ a, acc a = true → m + x ≤ F a → m + y ≤ F a) :
    Waiting w (m + y) (joined g w m y) ∧
      ∀ k, x < k → k ≤ y → (joined g w m k).done = false := by
  refine Waiting.run hx (.idle hidle) hxy fun u hu hu' hw hb => ?_
  obtain ⟨a, ha, hFu, huE⟩ := h.covers u hw hb
  refine hbrief a u ha ?_ huE hw hb
  by_contra hle
  have := hfree a ha (by omega)
  omega

/-- What comes from an event on comes behind its packet. -/
private theorem Framed.le_of_from (h : Framed acc v F E w) (hb : acc b = true)
    (ha : (decide (b ≤ a) && acc a) = true) : acc a = true ∧ F b ≤ F a := by
  rw [Bool.and_eq_true, decide_eq_true_iff] at ha
  exact ⟨ha.2, (h.le_iff hb ha.2).mpr ha.1⟩

/-- From a packet on, the line carries that packet and those behind it. -/
theorem Framed.drop (h : Framed acc v F E w) (hb : acc b = true) :
    Framed (fun a => decide (b ≤ a) && acc a) v (fun a => F a - F b) (fun a => E a - F b)
      (fun k => w (F b + k)) := by
  have hbefore : ∀ k, before true (fun k => w (F b + k)) k = before true w (F b + k) := by
    intro k
    cases k with
    | zero => exact (h.falls b hb).2.symm
    | succ k => rfl
  refine ⟨fun a ha => ?_, fun a ha => ?_, fun a c ha hc hac => ?_, fun u hw hu => ?_⟩
  · obtain ⟨ha, hle⟩ := h.le_of_from hb ha
    rw [hbefore, Nat.add_sub_cancel' hle]
    exact h.falls a ha
  · obtain ⟨ha, hle⟩ := h.le_of_from hb ha
    obtain ⟨ds, hruns, hp, hv⟩ := h.packet a ha
    refine ⟨ds, ?_, hp, hv⟩
    rw [← Nat.add_sub_cancel' hle] at hruns
    have hdrop := hruns.drop
    rwa [(h.falls b hb).2] at hdrop
  · obtain ⟨ha, hle⟩ := h.le_of_from hb ha
    obtain ⟨hc, -⟩ := h.le_of_from hb hc
    have := h.apart a c ha hc hac
    have := h.le ha
    omega
  · rw [hbefore] at hu
    obtain ⟨a, ha, hFu, huE⟩ := h.covers _ hw hu
    refine ⟨a, ?_, by omega, by omega⟩
    rw [Bool.and_eq_true, decide_eq_true_iff]
    refine ⟨?_, ha⟩
    by_contra hab
    have := h.apart a b ha hb (by omega)
    omega

/-- A receiver that is idle when a packet begins puts out this one and those behind it. -/
private theorem Framed.joined_received (h : Framed acc v F E w) (hb : acc b = true) (hy : 0 < y)
    (hFb : m + y = F b) (hidle : (joined g w m y).state = .idle) (T K : ℕ) :
    ((∀ a, acc a = true → T ≤ a → m + (y + (K + 1)) ≤ E a + 2) →
      received g (fun k => w (m + k)) (y + (K + 1)) <+:
        received g (fun k => w (m + k)) (y + 1) ++ log (fun a => decide (b ≤ a) && acc a) v T) ∧
    ((∀ a, acc a = true → a < T → E a + 2 < m + (y + (K + 1))) →
      received g (fun k => w (m + k)) (y + 1) ++ log (fun a => decide (b ≤ a) && acc a) v T <+:
        received g (fun k => w (m + k)) (y + (K + 1))) := by
  have hprev : (cleared (joined g w m y)).prevLevel = true := by
    rw [← (h.falls b hb).2, ← hFb]
    exact joined_prevLevel hy
  have hd := h.drop hb
  rw [received_split, hFb]
  constructor
  · intro hlate
    rw [List.prefix_append_right_inj]
    refine hd.received_le hprev hidle rfl fun a ha hTa => ?_
    have := hlate a (h.le_of_from hb ha).1 hTa
    omega
  · intro hout
    rw [List.prefix_append_right_inj]
    refine hd.le_received hprev hidle rfl fun a ha haT => ?_
    obtain ⟨ha, hle⟩ := h.le_of_from hb ha
    have := hout a ha haT
    have := h.le ha
    omega

/-- When no packet is left, nothing is put out any more. -/
private theorem Framed.joined_silent (h : Framed acc v F E w) (hbrief : Brief acc F E w)
    (hx : 0 < x)
    (hidle : (joined g w m x).state = .idle) (hnone : ∀ a, acc a = true → F a < m + x) (K : ℕ) :
    received g (fun k => w (m + k)) K <+: received g (fun k => w (m + k)) (x + 1) := by
  obtain hle | hlt := Nat.le_or_le K (x + 1)
  · exact log_mono hle
  · have hxK : x ≤ K := by omega
    have hquiet := (h.waits hbrief hx hidle hxK fun a ha hxa => absurd hxa (by
      have := hnone a ha
      omega)).2
    rw [← received_hold hxK hquiet]
    exact log_mono (Nat.le_succ K)

/-- A receiver that is idle in cycle `x` puts out the packets that begin from then on. -/
private theorem Framed.idle_received {A : ℕ} (h : Framed acc v F E w) (hbrief : Brief acc F E w)
    (hx : 0 < x) (hidle : (joined g w m x).state = .idle)
    (hA : ∀ a, acc a = true → (A ≤ a ↔ m + x ≤ F a)) (T K : ℕ) :
    ((∀ a, acc a = true → T ≤ a → m + K ≤ E a + 2) →
      received g (fun k => w (m + k)) K <+:
        received g (fun k => w (m + k)) (x + 1) ++ log (fun a => decide (A ≤ a) && acc a) v T) ∧
    (x + 1 ≤ K → (∀ a, acc a = true → a < T → E a + 2 < m + K) →
      received g (fun k => w (m + k)) (x + 1) ++ log (fun a => decide (A ≤ a) && acc a) v T <+:
        received g (fun k => w (m + k)) K) := by
  by_cases hex : ∃ b, acc b = true ∧ m + x ≤ F b
  swap
  · push Not at hex
    have hnil : log (fun a => decide (A ≤ a) && acc a) v T = [] :=
      log_quiet (m := 0) (Nat.zero_le T) fun a _ _ => by
        cases ha : acc a
        · exact Bool.and_false _
        · have := hex a ha
          rw [Bool.and_true, decide_eq_false_iff_not, hA a ha]
          omega
    rw [hnil, List.append_nil]
    exact ⟨fun _ => h.joined_silent hbrief hx hidle hex K, fun hle _ => log_mono hle⟩
  -- the first packet that begins from `x` on
  obtain ⟨b, ⟨hb, hxb⟩, hmin⟩ : ∃ b, (acc b = true ∧ m + x ≤ F b) ∧
      ∀ a, acc a = true → m + x ≤ F a → b ≤ a :=
    ⟨Nat.find hex, Nat.find_spec hex, fun a ha hxa => Nat.find_min' hex ⟨ha, hxa⟩⟩
  obtain ⟨y, hFb⟩ : ∃ y, m + y = F b := ⟨F b - m, by omega⟩
  have hle : ∀ {a}, acc a = true → (b ≤ a ↔ m + x ≤ F a) := by
    intro a ha
    refine ⟨fun hba => ?_, hmin a ha⟩
    exact hxb.trans ((h.le_iff hb ha).mpr hba)
  have hlog : (fun a => decide (A ≤ a) && acc a) = fun a => decide (b ≤ a) && acc a := by
    funext a
    cases ha : acc a
    · rw [Bool.and_false, Bool.and_false]
    · rw [decide_eq_decide.mpr ((hA a ha).trans (hle ha).symm)]
  have hxy : x ≤ y := by omega
  obtain ⟨hwait, hquiet⟩ := h.waits hbrief hx hidle hxy fun a ha hxa => by
    rw [hFb]
    exact (h.le_iff hb ha).mpr (hmin a ha hxa)
  obtain ⟨hfall, hbefore⟩ := h.falls b hb
  rw [← hFb] at hfall hbefore
  rw [hlog, ← received_hold hxy hquiet]
  obtain hK | hK := Nat.le_or_le K (y + 1)
  · refine ⟨fun _ => (log_mono hK).trans (List.prefix_append _ _), fun hxK hout => ?_⟩
    -- it has not begun before cycle `K`
    have hTb : T ≤ b := by
      by_contra hlt
      have := hout b hb (by omega)
      have := h.le hb
      omega
    have hnil : log (fun a => decide (b ≤ a) && acc a) v T = [] :=
      log_quiet (m := 0) (Nat.zero_le T) fun a _ haT => by
        rw [decide_eq_false (by omega), Bool.false_and]
    rw [hnil, List.append_nil, received_hold hxy hquiet]
    exact log_mono hxK
  · obtain ⟨K, rfl⟩ : ∃ k, K = y + (k + 1) := ⟨K - (y + 1), by omega⟩
    have hrest := h.joined_received hb (by omega) hFb (hwait.falling hfall hbefore) T K
    exact ⟨hrest.1, fun _ => hrest.2⟩

/-- A receiver with the registers `g` in cycle `m` is back in step with one byte of its own, from
    event `A` on; of the packets that come in whole it misses the first one at most. -/
structure InStep (acc : ℕ → Bool) (v : ℕ → BitVec 8) (F E : ℕ → ℕ) (w : ℕ → Bool) (g : Fsm)
    (m : ℕ) (junk : List (BitVec 8)) (A : ℕ) : Prop where
  short : junk.length ≤ 1
  missed : ∀ a b, acc a = true → acc b = true → m < F a → a < b → A ≤ b
  le : ∀ T K, (∀ a, acc a = true → T ≤ a → m + K ≤ E a + 2) →
    received g (fun k => w (m + k)) K <+: junk ++ log (fun a => decide (A ≤ a) && acc a) v T
  ge : ∀ T K c, acc c = true → m < F c → c < T →
    (∀ a, acc a = true → a < T → E a + 2 < m + K) →
      junk ++ log (fun a => decide (A ≤ a) && acc a) v T <+: received g (fun k => w (m + k)) K

/-- A receiver that is never idle again has no packet before it that comes in whole. -/
private theorem Framed.never_idle (h : Framed acc v F E w) (hg : Named g) (hdone : g.done = false)
    (hbusy : ∀ n, 0 < n → (joined g w m n).state ≠ .idle) : InStep acc v F E w g m [] 0 := by
  have hnone : ∀ a, acc a = true → ¬ m < F a := by
    intro a ha hlt
    obtain ⟨n, hn, -, hidle⟩ := h.idles hg ha hlt
    exact hbusy n hn hidle
  refine ⟨Nat.zero_le 1, fun a b ha _ hlt _ => absurd hlt (hnone a ha), fun T K _ => ?_,
    fun T K c hc hlt _ _ => absurd hlt (hnone c hc)⟩
  rw [received_first hdone fun k hk _ => hbusy k hk]
  exact List.nil_prefix

/-- A receiver that is idle for the first time in cycle `x` is in step from the next packet on. -/
private theorem Framed.first_idle (h : Framed acc v F E w) (hbrief : Brief acc F E w) (hg : Named g)
    (hdone : g.done = false) (hx : 0 < x) (hidle : (joined g w m x).state = .idle)
    (hbusy : ∀ k, 0 < k → k < x → (joined g w m k).state ≠ .idle) :
    ∃ A, InStep acc v F E w g m (received g (fun k => w (m + k)) (x + 1)) A := by
  obtain ⟨A, hA⟩ := h.threshold (m + x)
  -- the first `IDLE` comes within every packet that comes in whole
  have hfirst : ∀ c, acc c = true → m < F c → m + x ≤ E c + 1 := by
    intro c hc hlt
    obtain ⟨n, hn, hle, hn'⟩ := h.idles hg hc hlt
    have : x ≤ n := not_lt.mp fun hlt => hbusy n hn hlt hn'
    omega
  refine ⟨A, length_received_first hdone hbusy, fun a b ha hb hlt hab => ?_,
    fun T K hlate => ?_, fun T K c hc hlt hcT hout => ?_⟩
  · have := hfirst a ha hlt
    have := h.apart a b ha hb hab
    exact (hA b hb).mpr (by omega)
  · exact (h.idle_received hbrief hx hidle hA T K).1 hlate
  · have := hfirst c hc hlt
    have := hout c hc hcT
    exact (h.idle_received hbrief hx hidle hA T K).2 (by omega) hout

/-- **Joining the line.**  A receiver that begins to listen in any cycle, in any named state,
    is back in step. -/
theorem Framed.resync (h : Framed acc v F E w) (hbrief : Brief acc F E w) (hg : Named g)
    (hdone : g.done = false) (m : ℕ) : ∃ junk A, InStep acc v F E w g m junk A := by
  by_cases hex : ∃ x, 0 < x ∧ (joined g w m x).state = .idle
  · obtain ⟨hx, hidle⟩ := Nat.find_spec hex
    exact ⟨_, h.first_idle hbrief hg hdone hx hidle fun k hk hlt hk' =>
      Nat.find_min hex hlt ⟨hk, hk'⟩⟩
  · push Not at hex
    exact ⟨[], 0, h.never_idle hg hdone hex⟩

end Resync

end Scope.Native.IrRx

/-! ## On the link -/

namespace Scope.Native.IrLink

open Sync Wave IrTx IrRx

/-- The bytes accepted from cycle `A` on and before cycle `T`. -/
def sentFrom (A : ℕ) (s : IrTx) (start : ℕ → Bool) (data : ℕ → BitVec 8) (T : ℕ) :
    List (BitVec 8) :=
  log (fun a => decide (A ≤ a) && accepts s start data a) data T

section Link

variable {lo hi q j D : ℕ} {c : Clock} {d : ℕ → ℕ} {tx : IrTx} {start : ℕ → Bool}
  {data : ℕ → BitVec 8} {l w : ℕ → Bool} {rx : IrRx}

/-- The bursts of data are brief in the cycles of the receiver, too. -/
private theorem Heard.brief (h : Heard c lo hi q j D d (envelope tx start data) w)
    (hidle : tx.state = .idle) (hlow : tx.message = false) :
    Brief (accepts tx start data) (fun a => arrival c d (mark (data a) a 0))
      (fun a => arrival c d (mark (data a) a 18)) w := by
  intro a u ha hFu huE hw hb
  obtain ⟨e, he, rfl⟩ := (h.carries.edge_iff u).mp (show Edge true w u by simp [Edge, hw, hb])
  obtain ⟨b, n, hacc, hn, rfl⟩ := edge_cases hidle hlow he
  rw [h.level hacc hn, Bool.not_eq_false', burst, decide_eq_true_iff] at hw
  -- no other packet begins within this one
  have hn0 : n ≠ 0 := by
    rintro rfl
    have hfr := h.framed hidle hlow
    have hapart := hfr.apart a b ha hacc ((hfr.lt_iff ha hacc).mp hFu)
    dsimp only at hapart huE
    omega
  have hburst : dwell (data b) n = tickDataBurst + 1 := by
    obtain ⟨i, rfl⟩ : ∃ i, n = 2 + 2 * i := ⟨n / 2 - 1, by omega⟩
    obtain hi | rfl := Nat.lt_or_eq_of_le (show i ≤ 8 by omega)
    · exact dwell_mark hi
    · rfl
  have hlen := (h.dataBurst (a := b) (by omega) hburst).2
  have hmax : dataBurstMax < burstMin := by decide
  exact ⟨_, h.carries.nextEdge he (nextEdge_envelope hacc (by omega)), by omega⟩

/-- A receiver whose synchroniser holds the last two levels of the line when it joins. -/
private theorem receiver_joined {m : ℕ} (h0 : rx.irSync0 = delayed 1 true l m)
    (h1 : rx.irSync = delayed 2 true l m) (n : ℕ) :
    receiver rx (fun k => l (m + k)) n = ⟨delayed 1 true l (m + n), delayed 2 true l (m + n),
      receive rx.fsm (fun k => delayed 2 true l (m + k)) n⟩ := by
  induction n with
  | zero =>
    obtain ⟨s0, s1, f⟩ := rx
    subst h0 h1
    rfl
  | succ n ih =>
    have hstep : receiver rx (fun k => l (m + k)) (n + 1) =
        (receiver rx (fun k => l (m + k)) n).step { irInput := l (m + n), reset := false } := rfl
    rw [hstep, ih, ← Nat.add_assoc, receive_succ]
    generalize m + n = t
    cases t <;> rfl

/-- Behind the synchroniser `ir_rx` is its state machine. -/
private theorem presented_joined {m : ℕ} (h0 : rx.irSync0 = delayed 1 true l m)
    (h1 : rx.irSync = delayed 2 true l m) (K : ℕ) : presented rx (fun k => l (m + k)) K =
      received rx.fsm (fun k => delayed 2 true l (m + k)) K := by
  simp only [presented, receiver_joined h0 h1, received]

end Link

/-- **Joining the link.**  The state machine of `ir_rx` has any registers in cycle `m`, when it
    is reset, upset or put into operation while the other board sends.  It presents at most
    one byte that does not belong there, and then every byte from an event `A` on, once, in its
    order and in time; of the packets that come in whole it misses the first one at most. -/
theorem Channel.joins_line (ch : Channel) (tx : IrTx) (rx : IrRx) (start : ℕ → Bool)
    (data : ℕ → BitVec 8) (m : ℕ) (htx : tx.state = .idle) (hlow : tx.message = false)
    (hcount : tx.c0.count.toNat ≤ divider 50_000_000 38_000)
    (h0 : rx.irSync0 = delayed 1 true (ch.wire (pin tx start data)) m)
    (h1 : rx.irSync = delayed 2 true (ch.wire (pin tx start data)) m)
    (hnamed : ∀ low, rx.fsm.state ≠ .unused low) (hdone : rx.fsm.done = false) :
    let l : ℕ → Bool := fun k => ch.wire (pin tx start data) (m + k)
    ∃ (junk : List (BitVec 8)) (A : ℕ), junk.length ≤ 1 ∧
      (∀ a b, accepts tx start data a = true → accepts tx start data b = true →
        ch.clock.cycle m ≤ a → a < b → A ≤ b) ∧
      ∀ T K, presented rx l K <+: junk ++ sentFrom A tx start data (ch.clock.cycle (m + K)) ∧
        (∀ a, accepts tx start data a = true → ch.clock.cycle m ≤ a → a < T →
          T + ch.latency ≤ ch.clock.cycle (m + K) →
            junk ++ sentFrom A tx start data T <+: presented rx l (K + 5)) := by
  intro l
  have h := ch.heard_pin start data htx hlow hcount
  obtain ⟨junk, A, hstep⟩ :=
    (h.framed htx hlow).resync (h.brief htx hlow) hnamed hdone m
  refine ⟨junk, A, hstep.short, fun a b ha hb hma hab => ?_, fun T K => ⟨?_, ?_⟩⟩
  · exact hstep.missed a b ha hb (lt_arrival _ _ data 0 hma) hab
  · rw [presented_joined h0 h1]
    refine hstep.le _ _ fun a _ hle => ?_
    have := lt_arrival ch.clock (ch.edgeDelay tx start data) data 18 hle
    omega
  · intro a ha hma haT hK
    rw [presented_joined h0 h1]
    refine hstep.ge T (K + 5) a ha (lt_arrival _ _ data 0 hma) haT fun b _ hbT => ?_
    have := h.arrival_le hbT hK
    omega

/-- Behind a line, in the middle of a data space and with more bits than a byte has. -/
def garbledRx (l : ℕ → Bool) (m : ℕ) : IrRx where
  irSync0 := delayed 1 true l m
  irSync := delayed 2 true l m
  fsm :=
    { state := .dataSpace, tickCount := 77, prevLevel := false, bitCount := 13,
      shiftReg := 0xA5, recv := true, done := false, data := 0x5A }

/-- A start pulse every 20 milliseconds. -/
def everyMillion (n : ℕ) : Bool := n % 1_000_000 = 0

/-- Every packet has another byte. -/
def counting (n : ℕ) : BitVec 8 := BitVec.ofNat 8 (n / 1_000_000)

/-- The first five of the pulses find the transmitter at rest. -/
private theorem everyMillion_rests {k : ℕ} (hk : k ≤ 4) : Resting (BitVec.ofNat 3 k)
    (transmit IrTx.powerUp everyMillion counting (k * 1_000_000)) := by
  induction k with
  | zero => exact ⟨rfl, rfl, rfl⟩
  | succ k ih =>
    have hrest := ih (by omega)
    have ha : accepts IrTx.powerUp everyMillion counting (k * 1_000_000) = true :=
      accepts_iff.mpr ⟨hrest.state, decide_eq_true (by omega)⟩
    have hcredit : BitVec.ofNat 3 k + 1 = BitVec.ofNat 3 (k + 1) := by
      rw [BitVec.ofNat_add]
      rfl
    have hend := wait_ends ha
    rw [hrest.burstCounter, hcredit, BitVec.toNat_ofNat, burstLimit, if_neg (by omega)] at hend
    -- the packet and its wait take less than a pulse period
    have hwait := offset_wait (counting (k * 1_000_000))
    have hgap : dwell (counting (k * 1_000_000)) 19 = 100_001 := by simp [dwell, tickWaitGap]
    have hlen : offset (counting (k * 1_000_000)) 20 =
        offset (counting (k * 1_000_000)) 19 + 100_001 := by rw [offset_succ _ 19, hgap]
    exact rest_hold hend (by omega) fun j hj hj' => decide_eq_false (by omega)

/-- A receiver that joins in the middle of the first packet is in step from the third one on. -/
theorem slowChannel_joins : ∃ (junk : List (BitVec 8)) (A : ℕ), junk.length ≤ 1 ∧
    A ≤ 2_000_000 ∧
    let l := slowChannel.wire (pin IrTx.powerUp everyMillion counting)
    junk ++ (sentFrom A IrTx.powerUp everyMillion counting 2_000_000 ++ [2, 3]) <+:
      presented (garbledRx l 200_000) (fun k => l (200_000 + k)) (3_100_000 + 5) := by
  have hacc : ∀ k ≤ 4, accepts IrTx.powerUp everyMillion counting (k * 1_000_000) = true :=
    fun k hk => accepts_iff.mpr ⟨(everyMillion_rests hk).state, decide_eq_true (by omega)⟩
  obtain ⟨junk, A, hshort, hmissed, hboth⟩ := slowChannel.joins_line IrTx.powerUp (garbledRx
    (slowChannel.wire (pin IrTx.powerUp everyMillion counting)) 200_000) everyMillion counting
    200_000 rfl rfl (by decide) (by rw [garbledRx]) (by rw [garbledRx]) (fun _ => nofun) rfl
  have hcycle : slowChannel.clock.cycle 200_000 = 220_000 := by decide
  have hA : A ≤ 2_000_000 := hmissed 1_000_000 2_000_000 (hacc 1 (by omega)) (hacc 2 (by omega))
    (by omega) (by omega)
  have hjoined := (hboth 3_000_001 3_100_000).2 1_000_000 (hacc 1 (by omega)) (by omega) (by omega)
    (by simp only [Channel.latency, slowChannel, slowClock]; omega)
  refine ⟨junk, A, hshort, hA, ?_⟩
  -- the third and the fourth packet are the last ones before cycle 3,000,001
  have hthird : sentFrom A IrTx.powerUp everyMillion counting 3_000_000 = _ ++ [2] :=
    log_last (a := 2_000_000) (by omega) (by simpa using ⟨hA, hacc 2 (by omega)⟩)
      fun k hk hk' => by simp [accepts, everyMillion, show ¬ k % 1_000_000 = 0 by omega]
  have hfourth : sentFrom A IrTx.powerUp everyMillion counting (3_000_000 + 1) = _ ++ [3] :=
    log_succ_of (by simpa using ⟨hA.trans (by omega), hacc 3 (by omega)⟩)
  rw [hfourth, ← sentFrom, hthird, List.append_assoc] at hjoined
  exact hjoined

end Scope.Native.IrLink
