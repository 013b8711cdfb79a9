import Scope.ForStd.Wave
import Mathlib.Data.List.GetD
import Mathlib.Order.GaloisConnection.Defs

/-!
# Channels

A channel carries a waveform when the wire at its far end has the same edges in
the same order, each in a cycle of its own.  Delays, jitter and inverters carry,
so does a wire that is sampled by another clock, and channels compose.

## Key results

- `Carries.nextEdge` / `Carries.level`: consecutive edges stay consecutive and
  bring their levels
- `Carries.trans`: two channels in a row are one
- `Clock.first_bounds` / `Clock.stretched_of_jitter`: the cycles of another clock between
  two instants
- `carries_sampled`: sampling carries when no two edges fall into one sample
-/

namespace Wave

/-- The wire `w` has the edges of `m` in their order, the edge in cycle `e` in cycle `A e`. -/
structure Carries (r : Bool) (m : ℕ → Bool) (r' : Bool) (w : ℕ → Bool) (A : ℕ → ℕ) : Prop where
  edge_iff : ∀ t, Edge r' w t ↔ ∃ e, Edge r m e ∧ A e = t
  lt : ∀ e e', Edge r m e → Edge r m e' → e < e' → A e < A e'

section Carries

variable {r r' r'' : Bool} {m w v : ℕ → Bool} {A B : ℕ → ℕ} {e e' : ℕ}

/-- Every edge arrives. -/
theorem Carries.edge (h : Carries r m r' w A) (he : Edge r m e) : Edge r' w (A e) :=
  (h.edge_iff (A e)).mpr ⟨e, he, rfl⟩

/-- Edges keep their order. -/
theorem Carries.lt_iff (h : Carries r m r' w A) (he : Edge r m e) (he' : Edge r m e') :
    A e < A e' ↔ e < e' := by
  refine ⟨fun hA => ?_, h.lt e e' he he'⟩
  by_contra hle
  obtain hlt | rfl := Nat.lt_or_eq_of_le (Nat.le_of_not_lt hle)
  · exact absurd (h.lt e' e he' he hlt) hA.le.not_gt
  · exact lt_irrefl _ hA

theorem Carries.le (h : Carries r m r' w A) (he : Edge r m e) (he' : Edge r m e')
    (hle : e ≤ e') : A e ≤ A e' :=
  le_of_not_gt fun hlt => absurd ((h.lt_iff he' he).mp hlt) hle.not_gt

/-- Consecutive edges arrive as consecutive edges. -/
theorem Carries.nextEdge (h : Carries r m r' w A) (he : Edge r m e) (hn : NextEdge r m e e') :
    NextEdge r' w (A e) (A e') := by
  refine ⟨h.lt e e' he hn.edge hn.lt, h.edge hn.edge, fun u hu hu' hue => ?_⟩
  obtain ⟨x, hx, rfl⟩ := (h.edge_iff u).mp hue
  exact hn.quiet x ((h.lt_iff he hx).mp hu) ((h.lt_iff hx hn.edge).mp hu') hx

/-- Behind an edge the wire differs from its rest level exactly when the first wire does. -/
theorem Carries.level (h : Carries r m r' w A) (he : Edge r m e) :
    (w (A e) ^^ r') = (m e ^^ r) := by
  induction e using Nat.strong_induction_on with
  | _ e ih =>
    rw [(h.edge he).level, he.level, Bool.not_xor, Bool.not_xor]
    congr 1
    -- the level in front of an edge is the one that the edge before has brought
    obtain hfirst | ⟨p, hp, hn⟩ := first_or_next he
    · rw [before_of_quiet hfirst, before_of_quiet, Bool.xor_self, Bool.xor_self]
      intro u hu hue
      obtain ⟨x, hx, rfl⟩ := (h.edge_iff u).mp hue
      exact hfirst x ((h.lt_iff hx he).mp hu) hx
    · rw [hn.before, (h.nextEdge hp hn).before]
      exact ih p hn.lt hp

/-- Two channels in a row. -/
theorem Carries.trans (h : Carries r m r' w A) (h' : Carries r' w r'' v B) :
    Carries r m r'' v (fun e => B (A e)) where
  edge_iff t := by
    rw [h'.edge_iff]
    constructor
    · rintro ⟨x, hx, rfl⟩
      obtain ⟨e, he, rfl⟩ := (h.edge_iff x).mp hx
      exact ⟨e, he, rfl⟩
    · rintro ⟨e, he, rfl⟩
      exact ⟨A e, h.edge he, rfl⟩
  lt e e' he he' hlt := h'.lt _ _ (h.edge he) (h.edge he') (h.lt e e' he he' hlt)

/-- The distances between consecutive members of a sequence. -/
def gaps (p : ℕ → ℕ) (n : ℕ) : List ℕ := (List.range n).map fun i => p (i + 1) - p i

@[simp] theorem length_gaps (p : ℕ → ℕ) (n : ℕ) : (gaps p n).length = n := by simp [gaps]

/-- The distance between two consecutive places. -/
theorem getD_gaps {p : ℕ → ℕ} {n i : ℕ} (h : i < n) : (gaps p n).getD i 0 = p (i + 1) - p i := by
  rw [List.getD_eq_getElem _ _ (by simpa using h)]
  simp [gaps]

/-- Consecutive edges of the first wire are the ends of runs of the second. -/
theorem Carries.runs (h : Carries r m r' w A) {p : ℕ → ℕ} {n : ℕ} (h0 : Edge r m (p 0))
    (hnext : ∀ i < n, NextEdge r m (p i) (p (i + 1))) :
    Runs r' w (A (p 0)) (gaps (fun i => A (p i)) n) (A (p n)) := by
  induction n with
  | zero => exact .start (h.edge h0)
  | succ n ih =>
    have hp : Edge r m (p n) := by
      cases n with
      | zero => exact h0
      | succ n => exact (hnext n (by omega)).edge
    rw [gaps, List.range_succ, List.map_append]
    exact (ih fun i hi => hnext i (by omega)).run (h.nextEdge hp (hnext n (by omega)))

variable (r m)

/-- An inverter carries every edge at once. -/
theorem carries_not : Carries r m (!r) (fun t => !m t) id where
  edge_iff t := by
    rw [edge_not_iff]
    exact ⟨fun ht => ⟨t, ht, rfl⟩, fun ⟨e, he, ht⟩ => ht ▸ he⟩
  lt _ _ _ _ hlt := hlt

theorem carries_delayed (k : ℕ) : Carries r m r (delayed k r m) (fun e => e + k) where
  edge_iff t := by
    rw [edge_delayed_iff]
    constructor
    · rintro ⟨hk, he⟩
      exact ⟨t - k, he, Nat.sub_add_cancel hk⟩
    · rintro ⟨e, he, rfl⟩
      exact ⟨Nat.le_add_left k e, by rwa [Nat.add_sub_cancel]⟩
  lt _ _ _ _ hlt := Nat.add_lt_add_right hlt k

variable {r m}

/-- A delay of its own for every edge carries them when it keeps their order. -/
theorem carries_jitter {d : ℕ → ℕ} (ho : Ordered r d m) :
    Carries r m r (jitter r d m) (fun e => e + d e) where
  edge_iff _ := edge_jitter_iff ho
  lt e e' he he' hlt := ho e e' he he' hlt

end Carries

/-! ## Another clock -/

/-- A second clock: its cycle `k` falls into cycle `cycle k` of the first. -/
structure Clock where
  cycle : ℕ → ℕ
  mono : Monotone cycle
  unbounded : ∀ t, ∃ k, t ≤ cycle k

namespace Clock

variable (c : Clock) {r : Bool} {m : ℕ → Bool} {lo hi q t t' k : ℕ}

/-- The first cycle of the second clock that does not fall before cycle `t` of the first. -/
def first (t : ℕ) : ℕ := Nat.find (c.unbounded t)

/-- A cycle has begun by `k` when cycle `k` begins behind it. -/
theorem first_le_iff : c.first t ≤ k ↔ t ≤ c.cycle k := by
  rw [first, Nat.find_le_iff]
  exact ⟨fun ⟨j, hj, ht⟩ => ht.trans (c.mono hj), fun h => ⟨k, le_rfl, h⟩⟩

/-- The first cycle behind a moment and the begin of a cycle are adjoint. -/
theorem first_connection : GaloisConnection c.first c.cycle := fun _ _ => c.first_le_iff

/-- The first cycle behind `t` comes after `k` when cycle `k` begins before `t`. -/
theorem lt_first_iff : k < c.first t ↔ c.cycle k < t := by
  rw [← not_le, first_le_iff, not_le]

/-- The first cycle behind `t` is the one that `t` falls in front of. -/
theorem first_eq_succ_iff : c.first t = k + 1 ↔ c.cycle k < t ∧ t ≤ c.cycle (k + 1) := by
  rw [← lt_first_iff, ← first_le_iff]
  omega

/-- The second clock has between `lo` and `hi` cycles to `q` of the first.  A stretch that is
    not a whole number of cycles may have one of the first clock more or less. -/
structure Paced (lo hi q : ℕ) : Prop where
  fast : ∀ k n, lo * n ≤ q * (c.cycle (k + n) - c.cycle k) + q
  slow : ∀ k n, q * (c.cycle (k + n) - c.cycle k) ≤ hi * n + q

/-- How many cycles of the second clock lie between two instants of the first. -/
theorem first_bounds {c : Clock} (h : c.Paced lo hi q) (h0 : c.cycle 0 < t) (hle : t ≤ t') :
    lo * (c.first t' - c.first t - 1) ≤ q * (t' - t) ∧
      q * (t' - t) ≤ hi * (c.first t' - c.first t + 1) := by
  obtain ⟨a, ha⟩ := Nat.exists_eq_add_of_lt (c.lt_first_iff.mpr h0)
  have hmono := c.first_connection.monotone_l hle
  obtain ⟨n, hn⟩ := Nat.exists_eq_add_of_le hmono
  obtain ⟨hlo, hhi⟩ := c.first_eq_succ_iff.mp (show c.first t = a + 1 by omega)
  have hend : c.cycle (a + n) < t' ∧ t' ≤ c.cycle (a + 1 + n) := by
    rw [show a + 1 + n = a + n + 1 by omega, ← first_eq_succ_iff]
    omega
  rw [show c.first t' - c.first t = n by omega]
  constructor
  · -- from the first sample behind `t` to the last one in front of `t'`
    obtain _ | n := n
    · simp
    · have hpace := h.fast (a + 1) n
      rw [show a + 1 + n = a + (n + 1) by omega, ← Nat.mul_succ] at hpace
      have hsample := c.mono (show a + 1 ≤ a + (n + 1) by omega)
      exact hpace.trans (Nat.mul_le_mul_left q (by omega))
  · -- from the last sample in front of `t` to the first one behind `t'`
    have hpace := h.slow a (n + 1)
    rw [show a + (n + 1) = a + 1 + n by omega] at hpace
    have hmul : q * (t' - t + 1) ≤ q * (c.cycle (a + 1 + n) - c.cycle a) :=
      Nat.mul_le_mul_left q (by omega)
    rw [Nat.mul_succ] at hmul
    omega

/-- A run of `L` cycles that comes to `n` cycles of the other clock, when its ends move
    against each other by no more than `j` cycles of the first. -/
structure Stretched (lo hi q j L n : ℕ) : Prop where
  fast : lo * (n - 1) ≤ q * (L + j)
  slow : q * (L - j) ≤ hi * (n + 1)

/-- A gap between two edges, in the cycles of the receiving clock. -/
theorem stretched_of_jitter {c : Clock} {d : ℕ → ℕ} {D j e e' : ℕ} (h : c.Paced lo hi q)
    (hd : ∀ e, D ≤ d e ∧ d e ≤ D + j) (h0 : c.cycle 0 < e + d e) (hlt : e + j ≤ e') :
    Stretched lo hi q j (e' - e) (c.first (e' + d e') - c.first (e + d e)) := by
  have hde := hd e
  have hde' := hd e'
  obtain ⟨hfast, hslow⟩ := first_bounds h h0 (show e + d e ≤ e' + d e' by omega)
  exact ⟨hfast.trans (Nat.mul_le_mul_left q (by omega)),
    (Nat.mul_le_mul_left q (by omega)).trans hslow⟩

/-- The length of a run within a window, when the window is wide enough for its stretch. -/
theorem Stretched.window {j L n a b : ℕ} (h : Stretched lo hi q j L n)
    (ha : hi * (a + 1) < q * (L - j)) (hb : q * (L + j) < lo * (b + 1)) :
    a ≤ n - 1 ∧ n - 1 ≤ b := by
  have hfast : n - 1 < b + 1 := Nat.lt_of_mul_lt_mul_left (h.fast.trans_lt hb)
  have hslow : a + 1 < n + 1 := Nat.lt_of_mul_lt_mul_left (ha.trans_le h.slow)
  omega

/-! ## Sampling -/

/-- The wire as the second clock sees it. -/
def sampled (m : ℕ → Bool) (k : ℕ) : Bool := m (c.cycle k)

/-- No two edges of the wire fall into one sample. -/
def Resolves (r : Bool) (m : ℕ → Bool) : Prop :=
  ∀ e e', Edge r m e → Edge r m e' → e < e' → c.first e < c.first e'

/-- A clock that resolves the edges samples no two of them in one cycle. -/
theorem Resolves.unique {c : Clock} (h : c.Resolves r m) {e e' : ℕ} (he : Edge r m e)
    (he' : Edge r m e') (heq : c.first e = c.first e') : e = e' := by
  obtain hlt | rfl | hgt := Nat.lt_trichotomy e e'
  · exact absurd heq (h e e' he he' hlt).ne
  · rfl
  · exact absurd heq (h e' e he' he hgt).ne'

/-- Without an edge since the sample before, a sample shows nothing new. -/
private theorem edge_of_sample (h : Edge r (c.sampled m) k) :
    ∃ e, Edge r m e ∧ c.first e = k := by
  by_contra hnone
  push Not at hnone
  apply h
  cases k with
  | zero =>
    refine @level_of_quiet_rest r m _ fun u hu hue => hnone u hue ?_
    exact Nat.le_zero.mp (c.first_le_iff.mpr hu)
  | succ k =>
    refine @level_of_quiet r m _ _ (c.mono (Nat.le_succ k)) fun u hu hu' hue => hnone u hue ?_
    exact c.first_eq_succ_iff.mpr ⟨hu, hu'⟩

/-- The sample behind an edge shows it, if it is the only one since the sample before. -/
private theorem sample_of_edge {c : Clock} (h : c.Resolves r m) {e : ℕ} (he : Edge r m e) :
    Edge r (c.sampled m) (c.first e) := by
  have hcycle : e ≤ c.cycle (c.first e) := c.first_le_iff.mp le_rfl
  have hafter : m (c.cycle (c.first e)) = m e :=
    @level_of_quiet r m _ _ hcycle fun u hu hu' hue => by
      have hle : c.first u ≤ c.first e := c.first_le_iff.mpr hu'
      exact absurd (h e u he hue hu) hle.not_gt
  -- the level in front of the edge is the one that the sample before has shown
  have hbefore : before r (c.sampled m) (c.first e) = before r m e := by
    cases hk : c.first e with
    | zero =>
      rw [before_zero, before_of_quiet]
      intro u hu hue
      exact absurd (h u e hue he hu) (by omega)
    | succ k =>
      have hlt := (c.first_eq_succ_iff.mp hk).1
      have hn : NextEdge r m (c.cycle k) e := by
        refine ⟨hlt, he, fun u hu hue hedge => absurd (h u e hedge he hue) ?_⟩
        rw [hk, (c.first_eq_succ_iff (t := u) (k := k)).mpr ⟨hu, by rw [hk] at hcycle; omega⟩]
        exact lt_irrefl _
      rw [before_succ, hn.before]
      rfl
  rw [Edge, hbefore]
  exact hafter.trans_ne he

/-- A clock that resolves the edges carries them. -/
theorem carries_sampled {c : Clock} (h : c.Resolves r m) :
    Carries r m r (c.sampled m) c.first where
  edge_iff _ := ⟨c.edge_of_sample, fun ⟨_, he, hk⟩ => hk ▸ sample_of_edge h he⟩
  lt e e' he he' hlt := h e e' he he' hlt

end Clock

end Wave
