import Mathlib.Data.Nat.Count
import Mathlib.Algebra.Order.Ring.Nat

/-!
# Sampled waveforms

A waveform is the level of a wire in each clock cycle, `ℕ → Bool`, together with
the level `rest` the wire had before cycle `0`.  This file has its edges, the
run lengths between consecutive edges, and two channels: a fixed delay and a
channel that delays every edge by an amount of its own.

## Key results

- `level_of_quiet`: a wire without edges keeps its level
- `first_or_next` / `Runs`: from an edge on, a waveform is a list of run lengths
- `Runs.drop`: the run lengths do not depend on where one starts to look
- `edge_delayed_iff`: a fixed delay moves the edges and nothing else
- `nextEdge_jitter` / `jitter_level`: while the order of the edges is kept, jitter
  only moves them
-/

namespace Wave

/-- The level one cycle earlier. -/
def before (rest : Bool) (w : ℕ → Bool) : ℕ → Bool
  | 0 => rest
  | n + 1 => w n

/-- The wire changes its level in cycle `t`. -/
def Edge (rest : Bool) (w : ℕ → Bool) (t : ℕ) : Prop := w t ≠ before rest w t

instance (rest : Bool) (w : ℕ → Bool) (t : ℕ) : Decidable (Edge rest w t) :=
  inferInstanceAs (Decidable (_ ≠ _))

variable {rest : Bool} {w m : ℕ → Bool}

@[simp] theorem before_zero : before rest w 0 = rest := rfl

@[simp] theorem before_succ (t : ℕ) : before rest w (t + 1) = w t := rfl

theorem edge_zero_iff : Edge rest w 0 ↔ w 0 ≠ rest := Iff.rfl

theorem edge_succ_iff {t : ℕ} : Edge rest w (t + 1) ↔ w (t + 1) ≠ w t := Iff.rfl

/-- At an edge the level is the opposite of the one before. -/
theorem Edge.level {t : ℕ} (h : Edge rest w t) : w t = !before rest w t := by
  cases hw : w t <;> cases hb : before rest w t <;> simp_all [Edge]

/-- Without edges in `(a, b]` the level in `b` is the one in `a`. -/
theorem level_of_quiet {a b : ℕ} (hab : a ≤ b)
    (hq : ∀ u, a < u → u ≤ b → ¬ Edge rest w u) : w b = w a := by
  induction b, hab using Nat.le_induction with
  | base => rfl
  | succ b hab ih =>
    have hb : ¬ Edge rest w (b + 1) := hq (b + 1) (by omega) le_rfl
    rw [edge_succ_iff, not_not] at hb
    rw [hb, ih fun u hu hub => hq u hu (by omega)]

/-- Without any edge up to `b` the wire is still at its rest level. -/
theorem level_of_quiet_rest {b : ℕ} (hq : ∀ u ≤ b, ¬ Edge rest w u) : w b = rest := by
  have h0 : w 0 = rest := not_not.mp (mt edge_zero_iff.mpr (hq 0 (by omega)))
  rw [@level_of_quiet rest w 0 b (Nat.zero_le b) fun u _ hub => hq u hub, h0]

/-- A waveform is determined by its edges. -/
theorem eq_of_edges {w w' : ℕ → Bool} (h : ∀ t, Edge rest w t ↔ Edge rest w' t) : w = w' := by
  funext t
  induction t with
  | zero =>
    have h0 := h 0
    rw [edge_zero_iff, edge_zero_iff] at h0
    cases hw : w 0 <;> cases hw' : w' 0 <;> cases rest <;> simp_all
  | succ t ih =>
    have ht := h (t + 1)
    rw [edge_succ_iff, edge_succ_iff, ih] at ht
    cases hw : w (t + 1) <;> cases hw' : w' (t + 1) <;> cases h0 : w' t <;> simp_all

/-! ## Consecutive edges and run lengths -/

/-- `e'` is the first edge after cycle `e`. -/
structure NextEdge (rest : Bool) (w : ℕ → Bool) (e e' : ℕ) : Prop where
  lt : e < e'
  edge : Edge rest w e'
  quiet : ∀ u, e < u → u < e' → ¬ Edge rest w u

/-- Just before the next edge the level is the one behind the last. -/
theorem NextEdge.before {e e' : ℕ} (h : NextEdge rest w e e') : before rest w e' = w e := by
  obtain ⟨k, rfl⟩ : ∃ k, e' = k + 1 := ⟨e' - 1, by have := h.lt; omega⟩
  have hlt := h.lt
  rw [before_succ]
  exact @level_of_quiet rest w e k (by omega) fun u hu hu' => h.quiet u hu (by omega)

/-- A wave without an edge is at rest. -/
theorem before_of_quiet {t : ℕ} (hq : ∀ u < t, ¬ Edge rest w u) : before rest w t = rest := by
  cases t with
  | zero => rfl
  | succ t =>
    rw [before_succ]
    exact level_of_quiet_rest fun u hu => hq u (by omega)

/-- An edge is the first one or follows another. -/
theorem first_or_next {e : ℕ} (he : Edge rest w e) :
    (∀ u < e, ¬ Edge rest w u) ∨ ∃ p, Edge rest w p ∧ NextEdge rest w p e := by
  by_cases hex : ∃ u < e, Edge rest w u
  · obtain ⟨u, hu, hue⟩ := hex
    -- the last edge before `e` is the one that `e` follows
    have hlast : Edge rest w (Nat.findGreatest (Edge rest w) (e - 1)) :=
      Nat.findGreatest_spec (m := u) (by omega) hue
    have hle : Nat.findGreatest (Edge rest w) (e - 1) ≤ e - 1 := Nat.findGreatest_le _
    exact .inr ⟨_, hlast, by omega, he, fun x hx hx' =>
      Nat.findGreatest_is_greatest hx (by omega)⟩
  · push Not at hex
    exact .inl hex

/-- `Runs rest w f ds e`: cycle `f` is an edge, and the wire then has runs of
    the lengths `ds`, the last of them closed by the edge in cycle `e`. -/
inductive Runs (rest : Bool) (w : ℕ → Bool) (f : ℕ) : List ℕ → ℕ → Prop
  | start : Edge rest w f → Runs rest w f [] f
  | run {ds : List ℕ} {e e' : ℕ} : Runs rest w f ds e → NextEdge rest w e e' →
      Runs rest w f (ds ++ [e' - e]) e'

/-- Runs end behind their begin. -/
theorem Runs.le {f e : ℕ} {ds : List ℕ} (h : Runs rest w f ds e) : f ≤ e := by
  induction h with
  | start _ => exact le_rfl
  | run _ hn ih => exact ih.trans hn.lt.le

/-- Runs end with an edge. -/
theorem Runs.edge {f e : ℕ} {ds : List ℕ} (h : Runs rest w f ds e) : Edge rest w e := by
  cases h with
  | start h => exact h
  | run _ hn => exact hn.edge

/-- Runs begin with an edge. -/
theorem Runs.first_edge {f e : ℕ} {ds : List ℕ} (h : Runs rest w f ds e) : Edge rest w f := by
  induction h with
  | start h => exact h
  | run _ _ ih => exact ih

/-- The run lengths add up to the distance between the first and the last edge. -/
theorem Runs.sum {f e : ℕ} {ds : List ℕ} (h : Runs rest w f ds e) : f + ds.sum = e := by
  induction h with
  | start _ => rfl
  | run _ hn ih =>
    have := hn.lt
    rw [List.sum_append, List.sum_singleton]
    omega

/-- The first run, and the others behind it. -/
theorem Runs.uncons {f e d : ℕ} {ds ts : List ℕ} (h : Runs rest w f ts e) (hts : ts = d :: ds) :
    ∃ e', NextEdge rest w f e' ∧ e' - f = d ∧ Runs rest w e' ds e := by
  induction h generalizing ds with
  | start _ => cases hts
  | @run ts x x' hr hn ih =>
    cases ts with
    | nil =>
      obtain rfl : f = x := hr.sum
      obtain ⟨rfl, rfl⟩ := List.cons.inj hts
      exact ⟨x', hn, rfl, .start hn.edge⟩
    | cons t ts =>
      obtain ⟨rfl, rfl⟩ := List.cons.inj hts
      obtain ⟨e', hfirst, hd, hrest⟩ := ih rfl
      exact ⟨e', hfirst, hd, hrest.run hn⟩

/-! ## A later start -/

/-- The wire from cycle `a` on rests at the level it had one cycle earlier. -/
theorem edge_drop (a t : ℕ) :
    Edge (before rest w a) (fun n => w (a + n)) t ↔ Edge rest w (a + t) := by
  cases t <;> rfl

/-- Consecutive edges stay consecutive when the begin of the wave is cut off. -/
theorem nextEdge_drop {a e e' : ℕ} (h : NextEdge rest w (a + e) (a + e')) :
    NextEdge (before rest w a) (fun n => w (a + n)) e e' where
  lt := by
    have := h.lt
    omega
  edge := (edge_drop a e').mpr h.edge
  quiet u hu hu' := mt (edge_drop a u).mp (h.quiet (a + u) (by omega) (by omega))

/-- Seen from a later start, the run lengths are the same. -/
theorem Runs.drop {a f e : ℕ} {ds : List ℕ} (h : Runs rest w (a + f) ds e) :
    Runs (before rest w a) (fun n => w (a + n)) f ds (e - a) := by
  induction h with
  | start he =>
    rw [Nat.add_sub_cancel_left]
    exact .start ((edge_drop a f).mpr he)
  | @run ds e e' hr hn ih =>
    have hle := hr.le
    have hlt := hn.lt
    have hnext : NextEdge (before rest w a) (fun n => w (a + n)) (e - a) (e' - a) := by
      apply nextEdge_drop
      rwa [show a + (e - a) = e by omega, show a + (e' - a) = e' by omega]
    rw [show e' - e = e' - a - (e - a) by omega]
    exact ih.run hnext

/-! ## A fixed delay -/

/-- The waveform `m` behind `k` registers that all hold `rest` in cycle `0`. -/
def delayed (k : ℕ) (rest : Bool) (m : ℕ → Bool) (t : ℕ) : Bool :=
  if t < k then rest else m (t - k)

theorem delayed_add (k : ℕ) (m : ℕ → Bool) (t : ℕ) : delayed k rest m (t + k) = m t := by
  rw [delayed, if_neg (by omega), Nat.add_sub_cancel]

/-- Behind a fixed delay an edge comes that much later. -/
theorem edge_delayed_iff {k t : ℕ} :
    Edge rest (delayed k rest m) t ↔ k ≤ t ∧ Edge rest m (t - k) := by
  rcases t with _ | t
  · rcases k with _ | k <;> simp [Edge, delayed]
  · rw [edge_succ_iff]
    rcases Nat.lt_trichotomy (t + 1) k with h | h | h
    · simp [delayed, h, show t < k by omega, show ¬ k ≤ t + 1 by omega]
    -- the registers hand over from the rest level to `m 0`
    · subst h
      simp [delayed, edge_zero_iff]
    · obtain ⟨j, rfl⟩ : ∃ j, t = j + k := ⟨t - k, by omega⟩
      rw [show j + k + 1 - k = j + 1 by omega, show j + k + 1 = j + 1 + k by omega,
        delayed_add, delayed_add, edge_succ_iff]
      exact ⟨fun h => ⟨by omega, h⟩, fun h => h.2⟩

/-- An inverter may stand in front of a delay or behind it. -/
theorem delayed_not (k : ℕ) (t : ℕ) :
    delayed k (!rest) (fun u => !m u) t = !delayed k rest m t := by
  unfold delayed
  split_ifs <;> rfl

/-- A wave that has rested for the delay starts anew. -/
theorem delayed_behind {k m : ℕ} {w : ℕ → Bool} (h : ∀ n < m, m ≤ n + k → w n = rest) (t : ℕ) :
    delayed k rest w (m + t) = delayed k rest (fun u => w (m + u)) t := by
  unfold delayed
  rcases Nat.lt_or_ge t k with ht | ht
  · rw [if_pos ht]
    split_ifs
    · rfl
    · exact h _ (by omega) (by omega)
  · rw [if_neg (by omega), if_neg (by omega), Nat.add_sub_assoc ht]

/-- Two fixed delays in a row are one. -/
theorem delayed_delayed (j k : ℕ) (m : ℕ → Bool) :
    delayed j rest (delayed k rest m) = delayed (k + j) rest m := by
  funext t
  simp only [delayed]
  by_cases hj : t < j
  · simp [hj, show t < k + j by omega]
  · by_cases hk : t - j < k
    · simp [hj, hk, show t < k + j by omega]
    · simp [hj, hk, show ¬ t < k + j by omega, show t - j - k = t - (k + j) by omega]

/-- Inverting a wire and its rest level keeps the edges. -/
theorem edge_not_iff {t : ℕ} : Edge (!rest) (fun u => !m u) t ↔ Edge rest m t := by
  cases t <;> simp [Edge]

/-! ## A delay of its own for every edge -/

/-- How many edges of `m` arrive in cycle `t` when the edge in cycle `e` takes `d e`. -/
def arrivals (rest : Bool) (d : ℕ → ℕ) (m : ℕ → Bool) (t : ℕ) : ℕ :=
  Nat.count (fun e => Edge rest m e ∧ e + d e = t) (t + 1)

/-- The wire at the far end of a channel that delays the edge in cycle `e` by `d e`:
    every arriving edge flips it. -/
def jitter (rest : Bool) (d : ℕ → ℕ) (m : ℕ → Bool) : ℕ → Bool
  | 0 => rest ^^ decide (arrivals rest d m 0 % 2 = 1)
  | t + 1 => jitter rest d m t ^^ decide (arrivals rest d m (t + 1) % 2 = 1)

variable {d : ℕ → ℕ}

/-- With jitter the level changes with every edge that arrives. -/
theorem edge_jitter_iff_odd {t : ℕ} :
    Edge rest (jitter rest d m) t ↔ arrivals rest d m t % 2 = 1 := by
  cases t with
  | zero => cases rest <;> simp [Edge, jitter]
  | succ t => cases h : jitter rest d m t <;> simp [Edge, jitter, h]

/-- The channel keeps the order of the edges. -/
def Ordered (rest : Bool) (d : ℕ → ℕ) (m : ℕ → Bool) : Prop :=
  ∀ e e', Edge rest m e → Edge rest m e' → e < e' → e + d e < e' + d e'

/-- Delays that differ by no more than the distance of the edges keep their order. -/
theorem ordered_of_spaced {lo j : ℕ} (hd : ∀ e, lo ≤ d e ∧ d e ≤ lo + j)
    (hm : ∀ e e', Edge rest m e → Edge rest m e' → e < e' → e + j < e' ) :
    Ordered rest d m := by
  intro e e' he he' hlt
  have := hm e e' he he' hlt
  have := hd e
  have := hd e'
  omega

/-- An edge on the far side is exactly an edge that arrives. -/
theorem edge_jitter_iff (ho : Ordered rest d m) {t : ℕ} :
    Edge rest (jitter rest d m) t ↔ ∃ e, Edge rest m e ∧ e + d e = t := by
  rw [edge_jitter_iff_odd]
  constructor
  · intro h
    by_contra hne
    push Not at hne
    have h0 : arrivals rest d m t = 0 :=
      Nat.count_iff_forall_not.mpr fun e _ ⟨he, ht⟩ => hne e he ht
    omega
  · rintro ⟨e, he, ht⟩
    -- two edges that arrive together would break the order
    have huniq : ∀ e', Edge rest m e' ∧ e' + d e' = t → e' = e := by
      rintro e' ⟨he', ht'⟩
      rcases Nat.lt_trichotomy e' e with h | h | h
      · have := ho e' e he' he h; omega
      · exact h
      · have := ho e e' he he' h; omega
    have h0 : Nat.count (fun e => Edge rest m e ∧ e + d e = t) e = 0 :=
      Nat.count_iff_forall_not.mpr fun e' hlt h => absurd (huniq e' h) (by omega)
    have h1 : Nat.count (fun k => Edge rest m (e + 1 + k) ∧ e + 1 + k + d (e + 1 + k) = t)
        (t - e) = 0 :=
      Nat.count_iff_forall_not.mpr fun k _ h => absurd (huniq _ h) (by omega)
    have hone : arrivals rest d m t = 1 := by
      rw [arrivals, show t + 1 = e + 1 + (t - e) by omega, Nat.count_add, h1, Nat.count_succ,
        h0, if_pos ⟨he, ht⟩]
    omega

/-- Consecutive edges stay consecutive. -/
theorem nextEdge_jitter (ho : Ordered rest d m) {e e' : ℕ} (he : Edge rest m e)
    (hn : NextEdge rest m e e') :
    NextEdge rest (jitter rest d m) (e + d e) (e' + d e') := by
  refine ⟨ho e e' he hn.edge hn.lt, (edge_jitter_iff ho).mpr ⟨e', hn.edge, rfl⟩, ?_⟩
  intro u hu hu' hedge
  obtain ⟨x, hx, rfl⟩ := (edge_jitter_iff ho).mp hedge
  have hxe : e < x := by
    rcases Nat.lt_trichotomy x e with h | h | h
    · have := ho x e hx he h; omega
    · subst h; omega
    · exact h
  have hxe' : x < e' := by
    rcases Nat.lt_trichotomy e' x with h | h | h
    · have := ho e' x hn.edge hx h; omega
    · subst h; omega
    · exact h
  exact hn.quiet x hxe hxe' hx

/-- An arriving edge brings the level it had when it was sent. -/
theorem jitter_level (ho : Ordered rest d m) {e : ℕ} (he : Edge rest m e) :
    jitter rest d m (e + d e) = m e := by
  induction e using Nat.strong_induction_on with
  | _ e ih =>
    have hedge : Edge rest (jitter rest d m) (e + d e) := (edge_jitter_iff ho).mpr ⟨e, he, rfl⟩
    rw [hedge.level, he.level]
    congr 1
    -- the level in front of an edge is the one that the edge before has brought
    rcases first_or_next he with hfirst | ⟨p, hp, hn⟩
    · rw [before_of_quiet hfirst, before_of_quiet]
      intro u hu hue
      obtain ⟨x, hx, rfl⟩ := (edge_jitter_iff ho).mp hue
      rcases Nat.lt_trichotomy x e with h | h | h
      · exact hfirst x h hx
      · subst h; omega
      · have := ho e x he hx h; omega
    · rw [hn.before, (nextEdge_jitter ho hp hn).before, ih p hn.lt hp]

/-- The same delay for every edge is a fixed delay. -/
theorem jitter_const (k : ℕ) : jitter rest (fun _ => k) m = delayed k rest m := by
  have ho : Ordered rest (fun _ => k) m := fun _ _ _ _ h => Nat.add_lt_add_right h k
  refine @eq_of_edges rest _ _ fun t => ?_
  rw [edge_jitter_iff ho, edge_delayed_iff]
  constructor
  · rintro ⟨e, he, rfl⟩
    exact ⟨Nat.le_add_left k e, by rwa [Nat.add_sub_cancel]⟩
  · rintro ⟨hk, he⟩
    exact ⟨t - k, he, by omega⟩

end Wave
