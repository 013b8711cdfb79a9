import Mathlib.Data.Nat.Count
import Mathlib.Data.Nat.Find
import Mathlib.Data.List.Infix

/-!
# Runs of a clocked machine

A clocked machine is a step function `ι → σ → σ`: the inputs present in front
of a clock edge and the registers in front of it give the registers behind it.
`Sync.run` iterates it over an input stream, `Sync.log` lists the values present
in the cycles in which an event is raised.  Nothing here mentions a particular
machine.

## Key results

- `run_add`: a run continues from any of its states
- `run_inv`: a step-wise invariant under a step-wise condition holds throughout
- `run_rel`: two runs that step in lockstep stay related
- `rank_run`: a rank that every tick lowers
- `run_component`: a part of a machine is a machine of its own
- `run_span`: a fact indexed by the position inside a bounded stretch of a run
- `Recurs.le_count`: events that keep coming
- `log_mono` / `log_quiet` / `log_last`: how an event log grows
-/

namespace Sync

variable {σ τ ι κ α : Type*}

/-- The registers in front of clock edge `n`, from the registers `s` in front
    of edge `0`. -/
def run (step : ι → σ → σ) (s : σ) (i : ℕ → ι) : ℕ → σ
  | 0 => s
  | n + 1 => step (i n) (run step s i n)

@[simp] theorem run_zero (step : ι → σ → σ) (s : σ) (i : ℕ → ι) : run step s i 0 = s := rfl

theorem run_succ (step : ι → σ → σ) (s : σ) (i : ℕ → ι) (n : ℕ) :
    run step s i (n + 1) = step (i n) (run step s i n) := rfl

/-- A run continues from the state it has reached. -/
theorem run_add (step : ι → σ → σ) (s : σ) (i : ℕ → ι) (m n : ℕ) :
    run step s i (m + n) = run step (run step s i m) (fun k => i (m + k)) n := by
  induction n with
  | zero => rfl
  | succ n ih => rw [← Nat.add_assoc, run_succ, run_succ, ih]

/-- If every step whose inputs meet `C` keeps `P`, then `P` holds in every state
    of a run whose steps all meet `C`. -/
theorem run_inv {step : ι → σ → σ} {s : σ} {i : ℕ → ι} {P : σ → Prop} {C : ι → σ → Prop}
    (h0 : P s) (hstep : ∀ j r, P r → C j r → P (step j r))
    (hC : ∀ n, C (i n) (run step s i n)) (n : ℕ) : P (run step s i n) := by
  induction n with
  | zero => exact h0
  | succ n ih => exact hstep _ _ ih (hC n)

/-- Two runs whose steps keep a relation are related in every cycle. -/
theorem run_rel {step : ι → σ → σ} {step' : κ → τ → τ} {s : σ} {t : τ}
    {i : ℕ → ι} {j : ℕ → κ} {R : σ → τ → Prop} (h0 : R s t)
    (hstep : ∀ n, R (run step s i n) (run step' t j n) →
      R (step (i n) (run step s i n)) (step' (j n) (run step' t j n)))
    (n : ℕ) : R (run step s i n) (run step' t j n) := by
  induction n with
  | zero => exact h0
  | succ n ih => exact hstep n ih

/-- A part `f` of the registers that steps by itself, on inputs `g` that the machine gives
    it, is in a run of its own. -/
theorem run_component {step : ι → σ → σ} {part : κ → τ → τ} {g : ι → σ → κ}
    (f : σ → τ) (hstep : ∀ j r, f (step j r) = part (g j r) (f r)) (s : σ) (i : ℕ → ι) (n : ℕ) :
    f (run step s i n) = run part (f s) (fun k => g (i k) (run step s i k)) n := by
  induction n with
  | zero => rfl
  | succ n ih => rw [run_succ, run_succ, hstep, ih]

/-- A fact about the position `k` inside a stretch of length `n` that starts in
    cycle `a`: it holds at the start and every cycle of the stretch hands it on. -/
theorem run_span {step : ι → σ → σ} {s : σ} {i : ℕ → ι} {P : ℕ → σ → Prop} {a n : ℕ}
    (h0 : P 0 (run step s i a))
    (hstep : ∀ k < n, P k (run step s i (a + k)) →
      P (k + 1) (step (i (a + k)) (run step s i (a + k)))) :
    ∀ k ≤ n, P k (run step s i (a + k)) := by
  intro k
  induction k with
  | zero => intro _; exact h0
  | succ k ih => intro hk; exact hstep k (by omega) (ih (by omega))

/-- Progress: if no step raises the rank and the steps with a tick lower it, then the rank
    sinks with the number of ticks, and once at 0 it stays there. -/
theorem rank_run {step : ι → σ → σ} {s : σ} {i : ℕ → ι} {P : σ → Prop} {C : ι → Prop}
    {tick : ι → Bool} {rank : σ → ℕ}
    (hstep : ∀ j r, C j → P r →
      P (step j r) ∧ rank (step j r) ≤ rank r - if tick j then 1 else 0)
    {m n : ℕ} (hmn : m ≤ n) (h0 : P (run step s i m)) (hC : ∀ k, m ≤ k → k < n → C (i k)) :
    P (run step s i n) ∧ rank (run step s i n) ≤ rank (run step s i m) -
      (Nat.count (fun k => tick (i k) = true) n - Nat.count (fun k => tick (i k) = true) m) := by
  induction n, hmn using Nat.le_induction with
  | base => exact ⟨h0, by omega⟩
  | succ n hmn ih =>
    obtain ⟨hP, hrank⟩ := ih fun k hk hkn => hC k hk (by omega)
    obtain ⟨hP', hrank'⟩ := hstep (i n) _ (hC n hmn (by omega)) hP
    have hmono := Nat.count_monotone (fun k => tick (i k) = true) hmn
    refine ⟨hP', ?_⟩
    rw [Nat.count_succ, run_succ]
    omega

/-! ## Events that keep coming -/

/-- From every cycle on, the event comes within `T` cycles. -/
def Recurs (T : ℕ) (p : ℕ → Bool) : Prop := ∀ n, ∃ k, n ≤ k ∧ k < n + T ∧ p k = true

section Recurs

variable {T : ℕ} {p : ℕ → Bool}

/-- A counter that goes down until the event comes. -/
theorem recurs_of_countdown (left : ℕ → ℕ) (hT : ∀ n, left n < T)
    (hstep : ∀ n, p n = false → left (n + 1) < left n) : Recurs T p := by
  have hfirst : ∀ c n, left n = c → ∃ k, n ≤ k ∧ k ≤ n + c ∧ p k = true := by
    intro c
    induction c using Nat.strong_induction_on with
    | _ c ih =>
      intro n hn
      cases hp : p n
      · have hlt := hstep n hp
        obtain ⟨k, hk, hk', hpk⟩ := ih _ (hn ▸ hlt) (n + 1) rfl
        exact ⟨k, by omega, by omega, hpk⟩
      · exact ⟨n, by omega, by omega, hp⟩
  intro n
  have hlt := hT n
  obtain ⟨k, hk, hk', hpk⟩ := hfirst _ n rfl
  exact ⟨k, hk, by omega, hpk⟩

/-- The next event. -/
theorem Recurs.next (h : Recurs T p) (n : ℕ) :
    ∃ k, n ≤ k ∧ k < n + T ∧ p k = true ∧ ∀ j, n ≤ j → j < k → p j = false := by
  obtain ⟨k, hk, hkT, hpk⟩ := h n
  have hex : ∃ k, n ≤ k ∧ p k = true := ⟨k, hk, hpk⟩
  obtain ⟨hle, hp⟩ := Nat.find_spec hex
  refine ⟨Nat.find hex, hle, ?_, hp, fun j hnj hj => ?_⟩
  · exact (Nat.find_min' hex ⟨hk, hpk⟩).trans_lt hkT
  · simpa [hnj] using Nat.find_min hex hj

/-- Without an event the count stays. -/
theorem count_quiet {m n : ℕ} (h : m ≤ n) (hq : ∀ k, m ≤ k → k < n → p k = false) :
    Nat.count (fun k => p k = true) n = Nat.count (fun k => p k = true) m := by
  induction n, h using Nat.le_induction with
  | base => rfl
  | succ n hmn ih =>
    rw [Nat.count_succ, hq n hmn (by omega), ih fun k hk hkn => hq k hk (by omega)]
    rfl

/-- In `m` times `T` cycles there are `m` of them. -/
theorem Recurs.le_count (h : Recurs T p) (n m : ℕ) :
    Nat.count (fun k => p k = true) n + m ≤ Nat.count (fun k => p k = true) (n + m * T) := by
  induction m with
  | zero => simp
  | succ m ih =>
    obtain ⟨k, hk, hkT, hpk⟩ := h (n + m * T)
    have hsucc := Nat.count_succ (fun k => p k = true) k
    rw [if_pos hpk] at hsucc
    have hmono := Nat.count_monotone (fun k => p k = true) hk
    have hmono' := Nat.count_monotone (fun k => p k = true)
      (show k + 1 ≤ n + (m + 1) * T by rw [Nat.add_mul]; omega)
    omega

end Recurs

/-! ## Event logs -/

/-- The values `v` had in the cycles before `n` in which the event `p` was raised,
    oldest first. -/
def log (p : ℕ → Bool) (v : ℕ → α) : ℕ → List α
  | 0 => []
  | n + 1 => if p n then log p v n ++ [v n] else log p v n

variable {p : ℕ → Bool} {v : ℕ → α}

/-- A log only grows. -/
theorem log_mono {m n : ℕ} (h : m ≤ n) : log p v m <+: log p v n := by
  induction n, h using Nat.le_induction with
  | base => exact List.prefix_rfl
  | succ n _ ih =>
    rw [log]
    split
    · exact ih.trans (List.prefix_append _ _)
    · exact ih

/-- A log goes on behind any cycle. -/
theorem log_add (p : ℕ → Bool) (v : ℕ → α) (m n : ℕ) :
    log p v (m + n) = log p v m ++ log (fun k => p (m + k)) (fun k => v (m + k)) n := by
  induction n with
  | zero => simp [log]
  | succ n ih =>
    rw [← Nat.add_assoc, log, log, ih]
    split <;> simp

/-- No event in a stretch leaves the log as it was. -/
theorem log_quiet {m n : ℕ} (h : m ≤ n) (hq : ∀ k, m ≤ k → k < n → p k = false) :
    log p v n = log p v m := by
  induction n, h using Nat.le_induction with
  | base => rfl
  | succ n hmn ih =>
    rw [log, hq n hmn (by omega), if_neg (by simp)]
    exact ih fun k hk hkn => hq k hk (by omega)

/-- Before any cycle there has been no event or there is a last one. -/
theorem last_event (p : ℕ → Bool) (n : ℕ) : (∀ k < n, p k = false) ∨
    ∃ a < n, p a = true ∧ ∀ k, a < k → k < n → p k = false := by
  induction n with
  | zero => exact .inl fun k hk => absurd hk (Nat.not_lt_zero k)
  | succ n ih =>
    cases hn : p n
    · rcases ih with h | ⟨a, han, ha, h⟩
      · refine .inl fun k hk => ?_
        rcases Nat.lt_or_ge k n with hkn | hkn
        · exact h k hkn
        · rwa [show k = n by omega]
      · refine .inr ⟨a, by omega, ha, fun k hk hk' => ?_⟩
        rcases Nat.lt_or_ge k n with hkn | hkn
        · exact h k hk hkn
        · rwa [show k = n by omega]
    · exact .inr ⟨n, by omega, hn, fun k hk hk' => absurd hk (by omega)⟩

/-- Every entry of the log comes from an event. -/
theorem event_of_prefix {n : ℕ} {l : List α} {z : α} (h : l ++ [z] <+: log p v n) :
    ∃ a < n, p a = true ∧ v a = z ∧ log p v a = l := by
  induction n with
  | zero => simp [log] at h
  | succ n ih =>
    rw [log] at h
    split at h
    case isTrue hp =>
      rw [List.prefix_concat_iff] at h
      obtain h | h := h
      · obtain ⟨rfl, hz⟩ := List.append_inj' h rfl
        exact ⟨n, by omega, hp, (List.singleton_inj.mp hz).symm, rfl⟩
      · obtain ⟨a, ha, h⟩ := ih h
        exact ⟨a, by omega, h⟩
    case isFalse =>
      obtain ⟨a, ha, h⟩ := ih h
      exact ⟨a, by omega, h⟩

/-- An event appends its entry. -/
theorem log_succ_of {n : ℕ} (h : p n = true) : log p v (n + 1) = log p v n ++ [v n] := if_pos h

/-- Behind the last event the log ends with it. -/
theorem log_last {a n : ℕ} (han : a < n) (ha : p a = true)
    (hq : ∀ k, a < k → k < n → p k = false) : log p v n = log p v a ++ [v a] := by
  rw [log_quiet (m := a + 1) han fun k hk hkn => hq k (by omega) hkn, log_succ_of ha]

/-- Behind an event the log is longer. -/
theorem length_log_lt {m n : ℕ} (hm : p m = true) (hmn : m < n) :
    (log p v m).length < (log p v n).length := by
  have hlen := (log_mono (p := p) (v := v) (Nat.succ_le_of_lt hmn)).length_le
  rw [Nat.succ_eq_add_one, log_succ_of hm, List.length_append, List.length_singleton] at hlen
  omega

/-- Where the log does not grow there is no event. -/
theorem quiet_of_length {m n : ℕ} (h : (log p v n).length ≤ (log p v m).length) {k : ℕ}
    (hk : m ≤ k) (hkn : k < n) : p k = false := by
  by_contra hp
  have hlt := length_log_lt (v := v) (by simpa using hp) hkn
  have hle := (log_mono (p := p) (v := v) hk).length_le
  omega

/-- Two events with the same number of events before them are one. -/
theorem event_unique {m n : ℕ} (hm : p m = true) (hn : p n = true)
    (h : (log p v m).length = (log p v n).length) : m = n := by
  rcases Nat.lt_trichotomy m n with hlt | heq | hgt
  · exact absurd h (length_log_lt hm hlt).ne
  · exact heq
  · exact absurd h (length_log_lt hn hgt).ne'

/-- Two logs, of what goes in and of what comes out, where nothing that comes out has not gone
    in: when the entry of `b` has come out, the last one that has is of `b` or newer. -/
theorem last_of_prefix {q : ℕ → Bool} {w : ℕ → α} {b m n : ℕ} (hb : p b = true)
    (hout : log q w n <+: log p v m) (hin : log p v (b + 1) <+: log q w n) :
    ∃ t < n, q t = true ∧ (∀ k, t < k → k < n → q k = false) ∧
      ∃ a < m, b ≤ a ∧ p a = true ∧ v a = w t := by
  have hlen := hin.length_le
  rw [log_succ_of hb, List.length_append, List.length_singleton] at hlen
  obtain hnone | ⟨t, htn, ht, hquiet⟩ := last_event q n
  · rw [log_quiet (m := 0) (Nat.zero_le _) fun k _ hk => hnone k hk] at hlen
    simp [log] at hlen
  rw [log_last htn ht hquiet] at hout hlen
  obtain ⟨a, han, ha, hdata, hlog⟩ := event_of_prefix hout
  refine ⟨t, htn, ht, hquiet, a, han, ?_, ha, hdata⟩
  by_contra hab
  have hlt := length_log_lt (v := v) ha (show a < b by omega)
  rw [List.length_append, List.length_singleton, ← hlog] at hlen
  omega

/-- The log of the images is the image of the log. -/
theorem log_map {β : Type*} (f : α → β) (p : ℕ → Bool) (v : ℕ → α) (n : ℕ) :
    (log p v n).map f = log p (fun k => f (v k)) n := by
  induction n with
  | zero => rfl
  | succ n ih =>
    rw [log, log, ← ih]
    split_ifs
    · rw [List.map_append]
      rfl
    · rfl

/-! ## Streaks -/

/-- For how many cycles up to and including `n` the condition `p` has held without
    a break. -/
def streak (p : ℕ → Bool) : ℕ → ℕ
  | 0 => if p 0 then 1 else 0
  | n + 1 => if p (n + 1) then streak p n + 1 else 0

theorem streak_succ_of {n : ℕ} (h : p (n + 1) = true) : streak p (n + 1) = streak p n + 1 :=
  if_pos h

/-- The condition has held as long as the streak says. -/
theorem of_streak {n t : ℕ} (ht : t ≤ n) (h : n < t + streak p n) : p t = true := by
  induction n with
  | zero =>
    obtain rfl : t = 0 := by omega
    by_contra hp
    rw [streak, if_neg hp] at h
    omega
  | succ n ih =>
    by_cases hp : p (n + 1) = true
    · rw [streak_succ_of hp] at h
      rcases Nat.lt_or_ge n t with hnt | hnt
      · rwa [show t = n + 1 by omega]
      · exact ih hnt (by omega)
    · rw [streak, if_neg hp] at h
      omega

end Sync
