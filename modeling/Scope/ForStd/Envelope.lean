import Scope.ForStd.Channel
import Scope.ForStd.Run

/-!
# Envelopes of a carrier

A carrier that is switched on and off by a wire, and the envelope detector that
gets the wire back: its output stays high for `H` cycles behind every high of
what comes in.  When the carrier is never low for `H` cycles and the edges of the
wire are further apart, the detector only delays them.

## Key results

- `edge_detected`: an edge of the detector comes from the last edge of the wire
- `carries_detected`: the detector carries the wire
-/

namespace Wave

open Sync

/-- The output of a detector that holds a high for `H` cycles. -/
def detected (H : ℕ) (x : ℕ → Bool) (t : ℕ) : Bool :=
  decide (∃ u ≤ t, t < u + H ∧ x u = true)

/-- How long the edge of `m` in cycle `e` takes to show in `y`, if it shows in `H` cycles. -/
def delay (H : ℕ) (m y : ℕ → Bool) (e : ℕ) : ℕ :=
  if h : ∃ k ≤ H, y (e + k) = m e then Nat.find h else 0

section Detected

variable {H : ℕ} {x : ℕ → Bool} {t u : ℕ}

/-- The detector shows that the wave was high within the hold time. -/
theorem detected_iff : detected H x t = true ↔ ∃ u ≤ t, t < u + H ∧ x u = true :=
  decide_eq_true_iff

/-- The detector is high for the hold time behind every high cycle. -/
theorem detected_of_high (hut : u ≤ t) (ht : t < u + H) (hx : x u = true) :
    detected H x t = true :=
  detected_iff.mpr ⟨u, hut, ht, hx⟩

/-- The detector rises with what comes in. -/
theorem high_of_rise (h : Edge false (detected H x) t) (hy : detected H x t = true) :
    x t = true := by
  obtain ⟨u, hut, htu, hx⟩ := detected_iff.mp hy
  obtain rfl | hlt := Nat.eq_or_lt_of_le hut
  · exact hx
  · -- a high in an earlier cycle would have been held in the cycle before already
    obtain ⟨s, rfl⟩ : ∃ s, t = s + 1 := ⟨t - 1, by omega⟩
    have hbefore : detected H x s = true := detected_of_high (by omega) (by omega) hx
    exact absurd (hy.trans hbefore.symm) h

/-- The detector falls `H` cycles behind the last high. -/
theorem high_of_fall (h : Edge false (detected H x) t) (hy : detected H x t = false) :
    ∃ v, v + H = t ∧ x v = true ∧ ∀ u, v < u → u ≤ t → x u = false := by
  have hlow : ∀ u, u ≤ t → t < u + H → x u = false := fun u hut htu => by
    by_contra hx
    rw [Bool.not_eq_false] at hx
    exact absurd (detected_of_high hut htu hx) (by rw [hy]; simp)
  cases t with
  | zero => exact absurd hy h
  | succ s =>
    have hbefore : detected H x s = true := by
      rw [edge_succ_iff, hy] at h
      simpa using h.symm
    obtain ⟨v, hvs, hsv, hx⟩ := detected_iff.mp hbefore
    by_cases hend : s + 1 < v + H
    · exact absurd (hlow v (by omega) hend) (by rw [hx]; simp)
    · exact ⟨v, by omega, hx, fun u hu hu' => hlow u hu' (by omega)⟩

/-- The detector shows an edge no later than the hold time. -/
theorem delay_le (H : ℕ) (m y : ℕ → Bool) (e : ℕ) : delay H m y e ≤ H := by
  unfold delay
  split_ifs with h
  · exact (Nat.find_spec h).1
  · exact Nat.zero_le H

end Detected

/-- The last edge up to a cycle. -/
theorem last_edge {r : Bool} {w : ℕ → Bool} {u t : ℕ} (hut : u ≤ t) (hu : Edge r w u) :
    ∃ e ≤ t, u ≤ e ∧ Edge r w e ∧ ∀ k, e < k → k ≤ t → ¬ Edge r w k :=
  ⟨Nat.findGreatest (Edge r w) t, Nat.findGreatest_le t, Nat.le_findGreatest hut hu,
    Nat.findGreatest_spec hut hu, fun _ hk hkt => Nat.findGreatest_is_greatest hk hkt⟩

section Modulated

variable {H : ℕ} {carrier m : ℕ → Bool} {e e' t a b : ℕ}

/-- The carrier while the wire is high. -/
def modulated (carrier m : ℕ → Bool) (t : ℕ) : Bool := carrier t && m t

variable (hrec : Recurs H carrier)
  (hspaced : ∀ e e', Edge false m e → Edge false m e' → e < e' → e + H < e')

include hrec hspaced

/-- An edge of the detector shows the level behind the last edge of the wire. -/
theorem edge_detected (h : Edge false (detected H (modulated carrier m)) t) :
    ∃ e ≤ t, Edge false m e ∧ (∀ u, e < u → u ≤ t → ¬ Edge false m u) ∧
      detected H (modulated carrier m) t = m e := by
  cases hy : detected H (modulated carrier m) t
  · obtain ⟨v, hv, hx, hlow⟩ := high_of_fall h hy
    have hmv : m v = true := (Bool.and_eq_true_iff.mp hx).2
    -- the carrier has come round since, and the wire was low by then
    obtain ⟨k, hvk, hkt, hk⟩ := hrec (v + 1)
    have hmk : m k = false := by
      have hxk := hlow k (by omega) (by omega)
      rwa [modulated, hk, Bool.true_and] at hxk
    have hedge : ∃ u, v < u ∧ u ≤ k ∧ Edge false m u := by
      by_contra hnone
      push Not at hnone
      have hsame := @level_of_quiet false m v k (by omega) fun u hu hu' => hnone u hu hu'
      rw [hmv, hmk] at hsame
      cases hsame
    obtain ⟨u, hvu, huk, hu⟩ := hedge
    obtain ⟨e, het, hue, he, hquiet⟩ := last_edge (show u ≤ t by omega) hu
    refine ⟨e, het, he, hquiet, ?_⟩
    -- there is no room for a second edge
    have hue' : e = u := by
      by_contra hne
      have := hspaced u e hu he (by omega)
      omega
    subst hue'
    have hlevel := @level_of_quiet false m e k huk fun j hj hj' => hquiet j hj (by omega)
    exact (hlevel.symm.trans hmk).symm
  · have hmt : m t = true := (Bool.and_eq_true_iff.mp (high_of_rise h hy)).2
    have hedge : ∃ u ≤ t, Edge false m u := by
      by_contra hnone
      push Not at hnone
      have hsame := @level_of_quiet_rest false m t fun u hu => hnone u hu
      rw [hmt] at hsame
      cases hsame
    obtain ⟨u, hut, hu⟩ := hedge
    obtain ⟨e, het, -, he, hquiet⟩ := last_edge hut hu
    refine ⟨e, het, he, hquiet, ?_⟩
    have hlevel := @level_of_quiet false m e t het fun j hj hj' => hquiet j hj hj'
    exact (hlevel.symm.trans hmt).symm

/-- Once the detector shows an edge, it keeps the level until the next. -/
theorem detected_stays (he : Edge false m e) (hq : ∀ u, e < u → u ≤ b → ¬ Edge false m u)
    (hea : e ≤ a) (hab : a ≤ b) (ha : detected H (modulated carrier m) a = m e) :
    detected H (modulated carrier m) b = m e := by
  induction b, hab using Nat.le_induction with
  | base => exact ha
  | succ b hab ih =>
    have hb := ih fun u hu hub => hq u hu (by omega)
    by_contra hne
    have hedge : Edge false (detected H (modulated carrier m)) (b + 1) := by
      rw [edge_succ_iff, hb]
      exact hne
    obtain ⟨x, hxb, hx, hquiet, hlevel⟩ := edge_detected hrec hspaced hedge
    obtain hlt | rfl | hgt := Nat.lt_trichotomy e x
    · exact hq x hlt hxb hx
    · exact hne hlevel
    · exact hquiet e hgt (by omega) he

/-- Every edge shows within `H` cycles. -/
theorem detected_shows (he : Edge false m e) :
    ∃ k ≤ H, detected H (modulated carrier m) (e + k) = m e := by
  have hlevel : ∀ u, e ≤ u → u ≤ e + H → m u = m e := fun u hu hu' =>
    @level_of_quiet false m e u hu fun x hx hxu hedge => by
      have := hspaced e x he hedge hx
      omega
  cases hme : m e
  · refine ⟨H, le_rfl, ?_⟩
    by_contra hy
    rw [Bool.not_eq_false] at hy
    obtain ⟨u, hu, hu', hx⟩ := detected_iff.mp hy
    have hmu := (Bool.and_eq_true_iff.mp hx).2
    rw [hlevel u (by omega) hu, hme] at hmu
    cases hmu
  · obtain ⟨k, hek, hk, hc⟩ := hrec e
    refine ⟨k - e, by omega, ?_⟩
    rw [show e + (k - e) = k by omega]
    refine detected_of_high le_rfl (by omega) ?_
    rw [modulated, hc, hlevel k hek hk.le, hme]
    rfl

/-- In front of an edge the detector shows the old level. -/
theorem detected_before (he : Edge false m e) :
    before false (detected H (modulated carrier m)) e = before false m e := by
  cases e with
  | zero => rfl
  | succ s =>
    rw [before_succ, before_succ]
    obtain hfirst | ⟨p, hp, hn⟩ := first_or_next he
    · have hlow : ∀ u ≤ s, m u = false := fun u hu =>
        @level_of_quiet_rest false m u fun x hx => hfirst x (by omega)
      rw [hlow s le_rfl]
      by_contra hy
      rw [Bool.not_eq_false] at hy
      obtain ⟨u, hu, -, hx⟩ := detected_iff.mp hy
      have hmu := (Bool.and_eq_true_iff.mp hx).2
      rw [hlow u hu] at hmu
      cases hmu
    · have hgap := hspaced p (s + 1) hp he hn.lt
      have hquiet : ∀ u, p < u → u ≤ s → ¬ Edge false m u := fun u hu hus =>
        hn.quiet u hu (by omega)
      obtain ⟨k, hk, hshow⟩ := detected_shows hrec hspaced hp
      rw [detected_stays hrec hspaced hp hquiet (Nat.le_add_right p k) (by omega) hshow,
        @level_of_quiet false m p s (by omega) hquiet]

/-- **Detection.**  The detector carries the wire, and delays no edge by more than `H`. -/
theorem carries_detected : Carries false m false (detected H (modulated carrier m))
    (fun e => e + delay H m (detected H (modulated carrier m)) e) where
  edge_iff t := by
    constructor
    · intro h
      obtain ⟨e, het, he, hquiet, hlevel⟩ := edge_detected hrec hspaced h
      have hex := detected_shows hrec hspaced he
      -- had the new level shown before, there would be no edge
      have hfirst : ∀ k, e + k < t → detected H (modulated carrier m) (e + k) ≠ m e := by
        intro k hk hshow
        obtain ⟨s, rfl⟩ : ∃ s, t = s + 1 := ⟨t - 1, by omega⟩
        have hstay := detected_stays hrec hspaced he (fun u hu hus => hquiet u hu (by omega))
          (Nat.le_add_right e k) (show e + k ≤ s by omega) hshow
        exact h (hlevel.trans hstay.symm)
      refine ⟨e, he, ?_⟩
      obtain ⟨hkH, hshow⟩ := Nat.find_spec hex
      rw [delay, dif_pos hex]
      have hge : t ≤ e + Nat.find hex := le_of_not_gt fun hlt => hfirst _ hlt hshow
      have hle : Nat.find hex ≤ t - e :=
        Nat.find_min' hex ⟨by omega, by rwa [show e + (t - e) = t by omega]⟩
      omega
    · rintro ⟨e, he, rfl⟩
      have hex := detected_shows hrec hspaced he
      obtain ⟨-, hshow⟩ := Nat.find_spec hex
      rw [delay, dif_pos hex, Edge, hshow]
      cases hk : Nat.find hex with
      | zero =>
        rw [Nat.add_zero, detected_before hrec hspaced he]
        exact he
      | succ k =>
        have hmin := Nat.find_min hex (show k < Nat.find hex by omega)
        have hkH := (Nat.find_spec hex).1
        rw [← Nat.add_assoc, before_succ]
        exact fun heq => hmin ⟨by omega, heq.symm⟩
  lt e e' he he' hlt := by
    have := hspaced e e' he he' hlt
    have := delay_le H m (detected H (modulated carrier m)) e
    omega

end Modulated

end Wave
