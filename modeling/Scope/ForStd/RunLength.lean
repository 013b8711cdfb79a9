import Mathlib.Algebra.BigOperators.Group.List.Basic
import Mathlib.Algebra.Order.Ring.Nat
import Scope.ForStd.Run

/-!
# Run-length codes

A list of runs `(level, cycles)` stands for the levels of a wire.  Blocks of runs
that start in given cycles are laid out behind one another, with the wire at rest
in between.

## Key results

- `spells_append`: a wire spells a list of runs part by part
- `Blocks.eq_layout`: a wire that spells the block of every event and rests
  otherwise shows the layout of the blocks
-/

namespace RunLength

open Sync

variable {α : Type*}

/-- The levels that a list of runs stands for. -/
def expand (runs : List (α × ℕ)) : List α := runs.flatMap fun r => List.replicate r.2 r.1

/-- The number of cycles that it takes. -/
def duration (runs : List (α × ℕ)) : ℕ := (runs.map Prod.snd).sum

@[simp] theorem expand_nil : expand ([] : List (α × ℕ)) = [] := rfl

@[simp] theorem expand_cons (r : α × ℕ) (runs : List (α × ℕ)) :
    expand (r :: runs) = List.replicate r.2 r.1 ++ expand runs := rfl

/-- Runs behind each other are spelt out behind each other. -/
theorem expand_append (runs runs' : List (α × ℕ)) :
    expand (runs ++ runs') = expand runs ++ expand runs' := List.flatMap_append

@[simp] theorem duration_nil : duration ([] : List (α × ℕ)) = 0 := rfl

@[simp] theorem duration_cons (r : α × ℕ) (runs : List (α × ℕ)) :
    duration (r :: runs) = r.2 + duration runs := by
  simp [duration]

theorem duration_append (runs runs' : List (α × ℕ)) :
    duration (runs ++ runs') = duration runs + duration runs' := by
  simp [duration]

/-- The duration is the number of cycles spelt out. -/
theorem length_expand (runs : List (α × ℕ)) : (expand runs).length = duration runs := by
  induction runs with
  | nil => rfl
  | cons r runs ih => rw [expand_cons, List.length_append, List.length_replicate, ih, duration_cons]

/-! ## A wire that spells a list of runs -/

/-- From cycle `a` on the wire has the levels of `runs`. -/
def Spells (w : ℕ → α) (a : ℕ) (runs : List (α × ℕ)) : Prop :=
  ∀ k < duration runs, (expand runs)[k]? = some (w (a + k))

section Spells

variable {w : ℕ → α} {a n : ℕ} {x : α} {runs runs' : List (α × ℕ)}

theorem spells_nil (w : ℕ → α) (a : ℕ) : Spells w a [] :=
  fun k hk => absurd hk (Nat.not_lt_zero k)

/-- A run is a level that stays. -/
theorem spells_run (h : ∀ k < n, w (a + k) = x) : Spells w a [(x, n)] := by
  intro k hk
  have hkn : k < n := by simpa using hk
  rw [expand_cons, expand_nil, List.append_nil, List.getElem?_replicate, if_pos hkn, h k hkn]

/-- Runs behind each other are spelt when each list is in its place. -/
theorem spells_append (h : Spells w a runs) (h' : Spells w (a + duration runs) runs') :
    Spells w a (runs ++ runs') := by
  intro k hk
  rw [duration_append] at hk
  rw [expand_append]
  by_cases hkr : k < duration runs
  · rw [List.getElem?_append_left (by rwa [length_expand])]
    exact h k hkr
  · rw [List.getElem?_append_right (by rw [length_expand]; omega), length_expand,
      h' (k - duration runs) (by omega), Nat.add_assoc, Nat.add_sub_cancel' (by omega)]

end Spells

/-! ## Layout -/

/-- The blocks `(start, runs)` behind one another, with the wire at `rest` up to the
    start of each. -/
def layout (rest : α) (blocks : List (ℕ × List (α × ℕ))) : List (α × ℕ) :=
  blocks.foldl (fun runs b => runs ++ (rest, b.1 - duration runs) :: b.2) []

/-- The last block comes behind the rest that fills the gap. -/
theorem layout_concat (rest : α) (blocks : List (ℕ × List (α × ℕ))) (b : ℕ × List (α × ℕ)) :
    layout rest (blocks ++ [b]) =
      layout rest blocks ++ (rest, b.1 - duration (layout rest blocks)) :: b.2 := by
  rw [layout, List.foldl_concat]
  rfl

section Layout

variable {w : ℕ → α} {rest : α} {p : ℕ → Bool} {start : ℕ → ℕ} {runs : ℕ → List (α × ℕ)}
  {n : ℕ} {L : List (α × ℕ)}

/-- Every event `p` starts a block of runs: the blocks do not overlap, and the wire is at
    rest outside of them. -/
structure Blocks (w : ℕ → α) (rest : α) (p : ℕ → Bool) (start : ℕ → ℕ)
    (runs : ℕ → List (α × ℕ)) : Prop where
  spells : ∀ a, p a = true → Spells w (start a) (runs a)
  apart : ∀ a b, p a = true → p b = true → a < b → start a + duration (runs a) ≤ start b
  rests : ∀ k, (∀ a, p a = true → start a ≤ k → start a + duration (runs a) ≤ k) → w k = rest

/-- `L` reaches from cycle 0 to the end of the last block of an event before cycle `n`. -/
structure LaidOut (w : ℕ → α) (p : ℕ → Bool) (start : ℕ → ℕ) (runs : ℕ → List (α × ℕ)) (n : ℕ)
    (L : List (α × ℕ)) : Prop where
  spells : Spells w 0 L
  ended : ∀ a < n, p a = true → start a + duration (runs a) ≤ duration L
  before : ∀ b, n ≤ b → p b = true → duration L ≤ start b

/-- A cycle without a block leaves the layout as it is. -/
theorem LaidOut.quiet (h : LaidOut w p start runs n L) (hn : p n = false) :
    LaidOut w p start runs (n + 1) L where
  spells := h.spells
  ended a ha hpa := by
    have hne : a ≠ n := by
      rintro rfl
      rw [hn] at hpa
      cases hpa
    exact h.ended a (by omega) hpa
  before b hb hpb := h.before b (by omega) hpb

/-- The next block, with the rest in front of it. -/
theorem LaidOut.block (hb : Blocks w rest p start runs) (h : LaidOut w p start runs n L)
    (hn : p n = true) :
    LaidOut w p start runs (n + 1) (L ++ (rest, start n - duration L) :: runs n) := by
  have hgap := h.before n le_rfl hn
  have hlen : duration (L ++ (rest, start n - duration L) :: runs n) =
      start n + duration (runs n) := by
    rw [duration_append, duration_cons]
    omega
  have hrest : Spells w (duration L) [(rest, start n - duration L)] := by
    refine spells_run fun k hk => hb.rests _ fun a hpa hak => ?_
    -- a block that has begun is one of those in `L`
    rcases Nat.lt_trichotomy a n with han | rfl | han
    · have := h.ended a han hpa
      omega
    · omega
    · have := hb.apart n a hn hpa han
      omega
  refine ⟨?_, fun a ha hpa => ?_, fun b hb' hpb => ?_⟩
  · apply spells_append h.spells
    rw [Nat.zero_add]
    apply spells_append hrest
    rw [duration_cons, duration_nil, Nat.add_zero, Nat.add_sub_cancel' hgap]
    exact hb.spells n hn
  · rw [hlen]
    rcases Nat.lt_or_ge a n with han | han
    · have := h.ended a han hpa
      omega
    · rw [show a = n by omega]
  · rw [hlen]
    exact hb.apart n b hn hpb hb'

/-- In front of every cycle the layout is that of the blocks so far. -/
theorem Blocks.laidOut (h : Blocks w rest p start runs) (n : ℕ) :
    LaidOut w p start runs n (layout rest (log p (fun a => (start a, runs a)) n)) := by
  induction n with
  | zero =>
    exact ⟨spells_nil w 0, fun a ha => absurd ha (Nat.not_lt_zero a), fun b _ _ => Nat.zero_le _⟩
  | succ n ih =>
    cases hn : p n with
    | false =>
      rw [log, if_neg (by simp [hn])]
      exact ih.quiet hn
    | true =>
      rw [log_succ_of hn, layout_concat]
      exact ih.block h hn

/-- The wire shows the layout of the blocks, and is at rest behind it. -/
theorem Blocks.eq_layout (h : Blocks w rest p start runs) (hs : ∀ a, p a = true → a ≤ start a)
    {k : ℕ} (hk : k < n) :
    w k = (expand (layout rest (log p (fun a => (start a, runs a)) n))).getD k rest := by
  have hL := h.laidOut n
  rw [List.getD_eq_getElem?_getD]
  by_cases hlt : k < duration (layout rest (log p (fun a => (start a, runs a)) n))
  · rw [hL.spells k hlt, Nat.zero_add]
    rfl
  · rw [List.getElem?_eq_none (by rw [length_expand]; omega)]
    refine h.rests k fun a hpa hak => ?_
    have := hs a hpa
    have := hL.ended a (by omega) hpa
    omega

end Layout

end RunLength
