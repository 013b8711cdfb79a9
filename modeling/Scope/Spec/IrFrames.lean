import Scope.Spec.IrRxRecovery

/-!
# Frames on a line

A line that falls with the packets of a list of events and at no other time is
decoded by `ir_rx` event by event.  Nothing is assumed of where the packets come
from.

## Key results

- `Framed.arrived`: a packet that finds the receiver idle is put out
- `Framed.ready`: every packet finds it idle
- `Framed.received_le` / `Framed.le_received`: what has been put out before a cycle
-/

namespace Scope.Native.IrRx

open Sync Wave

/-- The bytes put out before cycle `T`. -/
def received (f : Fsm) (w : ℕ → Bool) (T : ℕ) : List (BitVec 8) :=
  log (fun n => (receive f w n).done) (fun n => (receive f w n).data) T

/-- For every event `a` there is a packet with the byte `v a` on the line, from cycle `F a` to
    cycle `E a`, and the line falls with these packets only. -/
structure Framed (acc : ℕ → Bool) (v : ℕ → BitVec 8) (F E : ℕ → ℕ) (w : ℕ → Bool) : Prop where
  falls : ∀ a, acc a = true → w (F a) = false ∧ before true w (F a) = true
  packet : ∀ a, acc a = true → ∃ ds, Runs true w (F a) ds (E a) ∧ Packet ds ∧ Encodes ds (v a)
  apart : ∀ a b, acc a = true → acc b = true → a < b → E a + 2 ≤ F b
  covers : ∀ u, w u = false → before true w u = true → ∃ a, acc a = true ∧ F a ≤ u ∧ u ≤ E a

section Framed

variable {acc : ℕ → Bool} {v : ℕ → BitVec 8} {F E : ℕ → ℕ} {w : ℕ → Bool} {f : Fsm}
  {a b x y T K : ℕ}

/-- A packet ends behind its begin. -/
theorem Framed.le (h : Framed acc v F E w) (ha : acc a = true) : F a ≤ E a := by
  obtain ⟨ds, hruns, -⟩ := h.packet a ha
  exact hruns.le

/-- A packet that finds the receiver idle is put out when it has come in, and nothing is put
    out in the meantime. -/
theorem Framed.arrived (h : Framed acc v F E w) (hf : f.prevLevel = true) (ha : acc a = true)
    (hidle : (receive f w (F a)).state = .idle) :
    (receive f w (E a + 2)).state = .idle ∧ (receive f w (E a + 2)).done = true ∧
      (receive f w (E a + 2)).data = v a ∧
      received f w (E a + 2) = received f w (F a + 1) := by
  obtain ⟨hw, hb⟩ := h.falls a ha
  obtain ⟨ds, hruns, hp, hv⟩ := h.packet a ha
  have hdep := departs_of_falling hf hidle hw hb
  obtain ⟨hlen, hwin⟩ := packet_iff_windows.mp hp
  obtain ⟨hidle', hdone, henc⟩ := receive_packet hf hdep hruns hp
  have hle := hruns.le
  refine ⟨hidle', hdone, henc.unique hv, ?_⟩
  exact log_quiet (by omega) fun j hj hj' =>
    (busy_runs hf hdep hruns hlen.le hwin (by omega) (by omega)).2

/-- Between two packets nothing happens. -/
theorem Framed.quiet (h : Framed acc v F E w) (hf : f.prevLevel = true) (hxy : x ≤ y)
    (hidle : (receive f w x).state = .idle)
    (hfree : ∀ b, acc b = true → E b < x ∨ y ≤ F b) :
    (receive f w y).state = .idle ∧ received f w (y + 1) = received f w (x + 1) := by
  obtain ⟨hidle', hdone⟩ := idle_hold hf hidle hxy fun u hu hu' ⟨hw, hb⟩ => by
    obtain ⟨b, hacc, hFu, huE⟩ := h.covers u hw hb
    obtain hend | hstart := hfree b hacc <;> omega
  exact ⟨hidle', log_quiet (by omega) fun u hu hu' => hdone u (by omega) (by omega)⟩

/-- Nothing is put out in the first cycle. -/
private theorem received_one (hdone : f.done = false) : received f w 1 = [] := by
  simp [received, log, receive, hdone]

/-- Every packet finds the receiver idle, and all that came before has been put out. -/
theorem Framed.ready (h : Framed acc v F E w) (hf : f.prevLevel = true) (hidle : f.state = .idle)
    (hdone : f.done = false) (ha : acc a = true) :
    (receive f w (F a)).state = .idle ∧ received f w (F a + 1) = log acc v a := by
  induction a using Nat.strong_induction_on with
  | _ a ih =>
    -- a packet from `a` on does not come before that of `a`
    have hlater : ∀ b, acc b = true → a ≤ b → F a ≤ F b := by
      intro b hb hab
      obtain rfl | hlt := Nat.eq_or_lt_of_le hab
      · exact le_rfl
      · have := h.apart a b ha hb hlt
        have := h.le ha
        omega
    -- the induction goes to the packet before, when there is one
    obtain hnone | ⟨b, hba, hb, hlast⟩ := last_event acc a
    · obtain ⟨hidle', hlog⟩ := h.quiet (x := 0) hf (Nat.zero_le (F a)) hidle fun c hc =>
        .inr (hlater c hc (by
          by_contra hlt
          rw [hnone c (by omega)] at hc
          cases hc))
      refine ⟨hidle', ?_⟩
      rw [hlog, received_one hdone]
      exact (log_quiet (m := 0) (Nat.zero_le a) fun k _ hk => hnone k hk).symm
    · obtain ⟨hbidle, hblog⟩ := ih b hba hb
      obtain ⟨hend, hbdone, hdata, hquiet⟩ := h.arrived hf hb hbidle
      have hapart := h.apart b a hb ha hba
      obtain ⟨hidle', hlog⟩ := h.quiet hf hapart hend fun c hc => by
        obtain hlt | rfl | hgt := Nat.lt_trichotomy c b
        · have := h.apart c b hc hb hlt
          have := h.le hb
          omega
        · omega
        · refine .inr (hlater c hc ?_)
          by_contra hca
          rw [hlast c hgt (by omega)] at hc
          cases hc
      refine ⟨hidle', ?_⟩
      have hsucc : received f w (E b + 2 + 1) = received f w (E b + 2) ++ [v b] :=
        hdata ▸ log_succ_of hbdone
      -- what that packet put out is the last entry
      rw [hlog, hsucc, hquiet, hblog]
      exact (log_last hba hb hlast).symm

/-- When a packet has come in, all up to it has been put out. -/
theorem Framed.delivered (h : Framed acc v F E w) (hf : f.prevLevel = true)
    (hidle : f.state = .idle) (hdone : f.done = false) (ha : acc a = true) :
    received f w (E a + 2) = log acc v a ∧ received f w (E a + 3) = log acc v (a + 1) := by
  obtain ⟨haidle, hlog⟩ := h.ready hf hidle hdone ha
  obtain ⟨-, hadone, hdata, hquiet⟩ := h.arrived hf ha haidle
  have hsucc : received f w (E a + 2 + 1) = received f w (E a + 2) ++ [v a] :=
    hdata ▸ log_succ_of hadone
  rw [hquiet, hlog] at hsucc
  exact ⟨hquiet.trans hlog, hsucc.trans (log_succ_of ha).symm⟩

/-- Nothing is invented: when the packets from `T` on are not out before cycle `K`, then what
    is out before it belongs to the packets before `T`. -/
theorem Framed.received_le (h : Framed acc v F E w) (hf : f.prevLevel = true)
    (hidle : f.state = .idle) (hdone : f.done = false)
    (hlate : ∀ a, acc a = true → T ≤ a → K ≤ E a + 2) : received f w K <+: log acc v T := by
  by_cases hex : ∃ b, T ≤ b ∧ acc b = true
  · -- up to the first packet from `T` on
    obtain ⟨hTb, hb⟩ := Nat.find_spec hex
    have hlog : log acc v (Nat.find hex) = log acc v T := log_quiet hTb fun k hTk hk => by
      simpa [hTk] using Nat.find_min hex hk
    rw [← hlog, ← (h.delivered hf hidle hdone hb).1]
    exact log_mono (hlate _ hb hTb)
  · push Not at hex
    obtain hnone | ⟨a, haT, ha, hlast⟩ := last_event acc T
    · -- no packet at all
      have hquiet := (h.quiet (x := 0) hf (Nat.zero_le K) hidle fun c hc => by
        obtain hc' | hc' := Nat.lt_or_ge c T
        · rw [hnone c hc'] at hc
          cases hc
        · exact absurd hc (hex c hc')).2
      have hpre : received f w K <+: received f w (K + 1) := log_mono (Nat.le_succ K)
      rw [hquiet, received_one hdone] at hpre
      exact hpre.trans List.nil_prefix
    · -- the last packet of all is in front of `T`
      have hend := (h.arrived hf ha (h.ready hf hidle hdone ha).1).1
      have hlog : log acc v T = log acc v (a + 1) :=
        (log_last haT ha hlast).trans (log_succ_of ha).symm
      rw [hlog, ← (h.delivered hf hidle hdone ha).2]
      obtain hK | hK := Nat.le_or_le K (E a + 3)
      · exact log_mono hK
      · have hquiet := (h.quiet (x := E a + 2) (y := K) hf (by omega) hend fun c hc => by
          obtain hlt | rfl | hgt := Nat.lt_trichotomy c a
          · have := h.apart c a hc ha hlt
            have := h.le ha
            omega
          · omega
          · obtain hc' | hc' := Nat.lt_or_ge c T
            · rw [hlast c hgt hc'] at hc
              cases hc
            · exact absurd hc (hex c hc')).2
        exact hquiet ▸ log_mono (Nat.le_succ K)

/-- Nothing is lost: when the packets before `T` are out before cycle `K`, they are among
    what is out. -/
theorem Framed.le_received (h : Framed acc v F E w) (hf : f.prevLevel = true)
    (hidle : f.state = .idle) (hdone : f.done = false)
    (hout : ∀ a, acc a = true → a < T → E a + 2 < K) : log acc v T <+: received f w K := by
  obtain hnone | ⟨a, haT, ha, hlast⟩ := last_event acc T
  · rw [show log acc v T = [] from log_quiet (m := 0) (Nat.zero_le T) fun k _ hk => hnone k hk]
    exact List.nil_prefix
  · have hlog : log acc v T = log acc v (a + 1) :=
      (log_last haT ha hlast).trans (log_succ_of ha).symm
    rw [hlog, ← (h.delivered hf hidle hdone ha).2]
    exact log_mono (hout a ha haT)

end Framed

end Scope.Native.IrRx
