import Mathlib.Algebra.Order.Field.Basic
import Mathlib.Data.List.TakeWhile
import Mathlib.Tactic.Linarith
import Mathlib.Tactic.Ring
import Scope.Native.Visualizer
import Scope.Spec.MonitorReads

/-!
# The printed columns and the four parts

The monitor program prints the quadrants in the order top left, top right, bottom
left, bottom right.  The visualiser reads them as top right, bottom right, bottom
left, top left.  The sum survives this, the position does not: what it takes for
the horizontal offset is the vertical one.

## Key results

- `parse_row`: the quadrants under the names that the visualiser gives them
- `dot_row`: where the dot of a row is
- `columns_agree_iff`: when the position is nevertheless the offset
-/

namespace Scope.Native

open Text

namespace Visualizer

/-! ## Numerals -/

/-- A digit is not white space. -/
private theorem isSpace_of_isDigit {c : Char} (h : c.isDigit = true) : isSpace c = false := by
  have hrange : 48 ≤ c.toNat ∧ c.toNat ≤ 57 := Char.isDigit_iff_toNat.mp h
  simp only [isSpace, decide_eq_false_iff_not]
  omega

/-- There is no underscore among the digits. -/
private theorem digitPart_digits {t : List Char} (hne : t ≠ []) (h : ∀ c ∈ t, c.isDigit = true) :
    digitPart t = some t := by
  induction t with
  | nil => exact absurd rfl hne
  | cons c t ih =>
    have hc := h c List.mem_cons_self
    cases t with
    | nil => simp [digitPart, hc]
    | cons d t =>
      have hd : d ≠ '_' := by
        rintro rfl
        exact absurd (h '_' (by simp)) (by decide)
      have hrest := ih (List.cons_ne_nil d t) fun x hx => h x (List.mem_cons_of_mem c hx)
      simp [digitPart, hd, hc, hrest]

/-- Without white space there is nothing to strip. -/
private theorem strip_of_not_isSpace {t : List Char} (h : ∀ c ∈ t, isSpace c = false) :
    strip t = t := by
  have hkeep : ∀ u : List Char, (∀ c ∈ u, isSpace c = false) → u.dropWhile isSpace = u := by
    intro u hu
    rw [List.dropWhile_eq_self_iff]
    intro hl
    simp [hu _ (List.getElem_mem hl)]
  rw [strip, hkeep t h, hkeep t.reverse fun c hc => h c (List.mem_reverse.mp hc),
    List.reverse_reverse]

/-- Digits are read as their value. -/
private theorem number_digits {t : List Char} (hne : t ≠ []) (h : ∀ c ∈ t, c.isDigit = true) :
    number t = some (value t : ℚ) := by
  have hdot : t.splitOn '.' = [t] :=
    List.splitOn_eq_singleton fun hc => absurd (h '.' hc) (by decide)
  simp [number, hdot, digitPart_digits hne h]

private theorem floatNumber_digits {t : List Char} (hne : t ≠ []) (h : ∀ c ∈ t, c.isDigit = true) :
    floatNumber t = some (value t : ℚ) := by
  have hexp : t.splitOnP (fun c => c = 'e' ∨ c = 'E') = [t] := by
    apply List.splitOnP_eq_singleton
    intro c hc
    rw [decide_eq_false_iff_not]
    rintro (rfl | rfl)
    · exact absurd (h 'e' hc) (by decide)
    · exact absurd (h 'E' hc) (by decide)
  rw [floatNumber, hexp]
  exact number_digits hne h

/-- A text of digits has no sign in front. -/
private theorem signed_digits {α : Type} [Neg α] (read : List Char → Option α) {t : List Char}
    (h : ∀ c ∈ t, c.isDigit = true) : signed read t = read t := by
  unfold signed
  split
  · exact absurd (h '+' List.mem_cons_self) (by decide)
  · exact absurd (h '-' List.mem_cons_self) (by decide)
  · rfl

/-- The numeral of a natural number is read as that number. -/
private theorem float_decimal (n : ℕ) : float (decimal n) = some (n : ℚ) := by
  have hne : Nat.toDigits 10 n ≠ [] := Nat.toDigits_ne_nil
  have hdigit : ∀ c ∈ Nat.toDigits 10 n, c.isDigit = true := fun c hc =>
    Nat.isDigit_of_mem_toDigits (by decide) (by decide) hc
  rw [decimal_ofNat, float, strip_of_not_isSpace fun c hc => isSpace_of_isDigit (hdigit c hc),
    signed_digits _ hdigit, floatNumber_digits hne hdigit, value, Nat.ofDigitChars_ten_toDigits]

/-- Only what is there is replaced. -/
private theorem replace_of_not_mem {a b : Char} {t : List Char} (h : a ∉ t) :
    replace a b t = t := by
  have hkeep : ∀ c ∈ t, (if c = a then b else c) = c := by
    intro c hc
    rw [if_neg]
    rintro rfl
    exact h hc
  rw [replace, List.map_congr_left hkeep, List.map_id']

end Visualizer

namespace Monitor

open Visualizer

/-! ## The words of a row -/

/-- What a padded number is written with. -/
private theorem mem_padded {w : ℕ} {x : BitVec 32} {c : Char} (h : c ∈ padded w x) :
    c = ' ' ∨ c = '-' ∨ c.isDigit = true :=
  (mem_leftpad h).imp_right mem_decimal

/-- A padded number is one word. -/
private theorem words_padded (w : ℕ) (x : BitVec 32) :
    words isSpace (padded w x) = [decimal x.toInt] := by
  have hword : ∀ c ∈ decimal x.toInt, isSpace c = false := by
    intro c hc
    obtain rfl | hdigit := mem_decimal hc
    · decide
    · exact isSpace_of_isDigit hdigit
  rw [padded, words_leftpad (by decide), words_word (decimal_ne_nil _) hword]

private theorem words_onOff (b : Bool) : words isSpace (onOff b) = [onOff b] := by
  cases b <;> decide

/-- What a row is made of, apart from digits. -/
def marks : List Char := ['\t', ' ', '-', 'O', 'N', 'F']

/-- What a row is written with. -/
private theorem mem_row {r : Readings} {c : Char} (h : c ∈ row r) :
    c ∈ marks ∨ c.isDigit = true := by
  have hpadded : ∀ (w : ℕ) (x : BitVec 32), c ∈ padded w x → c ∈ marks ∨ c.isDigit = true := by
    intro w x hc
    obtain rfl | rfl | hdigit := mem_padded hc
    · exact .inl (by decide)
    · exact .inl (by decide)
    · exact .inr hdigit
  have honOff : ∀ b : Bool, c ∈ onOff b → c ∈ marks ∨ c.isDigit = true := by
    intro b hc
    have hmarks : onOff b ⊆ marks := by cases b <;> decide
    exact .inl (hmarks hc)
  obtain rfl | ⟨f, hf, hc⟩ := mem_intercalate h
  · exact .inl (by decide)
  · revert f
    simp only [List.forall_mem_cons]
    exact ⟨hpadded _ _, hpadded _ _, hpadded _ _, hpadded _ _, hpadded _ _, hpadded _ _,
      honOff _, honOff _, by simp⟩

/-- Nothing else is in it. -/
theorem not_mem_row {a : Char} (ha : a ∉ marks) (hdigit : a.isDigit = false) (r : Readings) :
    a ∉ row r := by
  intro h
  obtain hmem | hd := mem_row h
  · exact ha hmem
  · rw [hdigit] at hd
    exact Bool.false_ne_true hd

/-- The visualiser finds eight words in a row. -/
private theorem split_row (r : Readings) : split (row r) =
    [decimal r.topLeft.toInt, decimal r.topRight.toInt, decimal r.bottomLeft.toInt,
      decimal r.bottomRight.toInt, decimal r.dx.toInt, decimal r.dy.toInt, onOff r.targetEn,
      onOff r.mstepEn] := by
  rw [split, row, words_intercalate (by decide)]
  simp only [List.flatMap_cons, List.flatMap_nil, words_padded, words_onOff]
  rfl

end Monitor

namespace PioReads

open Monitor Visualizer QpdState

variable {s : LaserRx} {r : Readings}

/-! ## The four parts -/

/-- The samples under the names that they get. -/
def columns (q : Samples) : Parts where
  tr := q.q3.toNat
  br := q.q0.toNat
  bl := q.q2.toNat
  tl := q.q1.toNat

/-- The first four columns of a row are read as the quadrants. -/
theorem parse_row (h : PioReads s r) : parse (row r) = some (columns s.samples) := by
  rw [parse, replace_of_not_mem (not_mem_row (by decide) (by decide) r), split_row]
  simp only [h.topLeft_toInt, h.topRight_toInt, h.bottomLeft_toInt, h.bottomRight_toInt,
    float_decimal]
  rfl

/-- The total is the light of all quadrants. -/
theorem columns_total (q : Samples) : (columns q).total =
    ((q.q0.toNat + q.q1.toNat + q.q2.toNat + q.q3.toNat : ℕ) : ℚ) := by
  simp only [Parts.total, columns]
  push_cast
  ring

section Position

variable {q : Samples} (hq : 50 ≤ q.q0.toNat + q.q1.toNat + q.q2.toNat + q.q3.toNat)

include hq in
/-- With light enough it can be divided by. -/
private theorem columns_total_ne_zero : (columns q).total ≠ 0 := by
  rw [columns_total, Nat.cast_ne_zero]
  omega

include hq in
/-- The horizontal position is the vertical offset. -/
private theorem columns_rawX : (columns q).rawX * (columns q).total = (q.dy : ℚ) := by
  rw [Parts.rawX, div_mul_cancel₀ _ (columns_total_ne_zero hq), columns, Samples.dy]
  push_cast
  ring

include hq in
/-- The vertical position sets the left diagonal against the right one. -/
private theorem columns_rawY : (columns q).rawY * (columns q).total =
    ((q.q1.toNat + q.q3.toNat - (q.q0.toNat + q.q2.toNat) : ℤ) : ℚ) := by
  rw [Parts.rawY, div_mul_cancel₀ _ (columns_total_ne_zero hq), columns]
  push_cast
  ring

end Position

/-! ## The dot -/

/-- The position found in a line is the offset of `qpd_state`, and the sum is its sum. -/
def Agrees (line : List Char) (q : Samples) : Prop :=
  ∃ p, parse line = some p ∧
    p.total = ((q.q0.toNat + q.q1.toNat + q.q2.toNat + q.q3.toNat : ℕ) : ℚ) ∧
    p.rawX * p.total = (q.dxNum.toInt : ℚ) ∧ p.rawY * p.total = (q.dyNum.toInt : ℚ)

/-- When the dot agrees with the board, in differences. -/
private theorem agrees_iff (h : PioReads s r) (hsum : 50 ≤ s.samples.q0.toNat +
    s.samples.q1.toNat + s.samples.q2.toNat + s.samples.q3.toNat) :
    Agrees (row r) s.samples ↔ s.samples.dy = s.samples.dx ∧
      (s.samples.q1.toNat + s.samples.q3.toNat - (s.samples.q0.toNat + s.samples.q2.toNat) : ℤ) =
        s.samples.dy := by
  rw [Agrees, h.parse_row, dxNum_toInt, dyNum_toInt]
  simp only [Option.some.injEq, exists_eq_left', columns_rawX hsum, columns_rawY hsum,
    Int.cast_inj]
  rw [and_iff_right (columns_total _)]

/-- The order of the columns does not matter exactly if the three quadrants that change
    places hold the same value. -/
theorem columns_agree_iff (h : PioReads s r) (hsum : 50 ≤ s.samples.q0.toNat +
    s.samples.q1.toNat + s.samples.q2.toNat + s.samples.q3.toNat) :
    Agrees (row r) s.samples ↔
      s.samples.q0 = s.samples.q1 ∧ s.samples.q1 = s.samples.q3 := by
  rw [agrees_iff h hsum, Samples.dx, Samples.dy, BitVec.toNat_eq, BitVec.toNat_eq]
  omega

/-- An even spot of light. -/
def evenSpot : LaserRx := .holding ⟨20, 20, 20, 20⟩

theorem evenSpot_agrees : Agrees (row evenSpot.reads) evenSpot.samples :=
  (columns_agree_iff evenSpot.pioReads_reads (by decide)).mpr (by decide)

/-- Light in the upper left quadrant only. -/
def upperLeft : LaserRx := .holding ⟨0, 0, 0, 100⟩

/-- The offset is 100 to the left, the position 100 to the right. -/
theorem upperLeft_disagrees :
    PioReads upperLeft upperLeft.reads ∧ upperLeft.samples.dxNum.toInt = -100 ∧
      (parse (row upperLeft.reads)).map (fun p => p.rawX * p.total) = some 100 ∧
      ¬ Agrees (row upperLeft.reads) upperLeft.samples := by
  have hreads := upperLeft.pioReads_reads
  have hsum : 50 ≤ upperLeft.samples.q0.toNat + upperLeft.samples.q1.toNat +
      upperLeft.samples.q2.toNat + upperLeft.samples.q3.toNat := by decide
  refine ⟨hreads, by decide, ?_, ?_⟩
  · rw [hreads.parse_row, Option.map_some, columns_rawX hsum]
    rfl
  · rw [agrees_iff hreads hsum]
    decide

end PioReads

end Scope.Native
