import Mathlib.Data.Int.Notation
import Mathlib.Data.List.Basic

/-!
# Words and numerals

Texts are lists of characters.  `words` cuts a text at the characters of a class
of breaks, `decimal` is the numeral of an integer.

## Key results

- `words_append` / `words_intercalate`: words are cut at a break
- `words_word`: a text without breaks is one word
- `decimal_ofNat`: a numeral of a natural number is a run of digits
-/

namespace Text

section Words

variable {p : Char → Bool} {c : Char} {t : List Char}

/-- The maximal pieces of `t` without a character of class `p`. -/
def words (p : Char → Bool) (t : List Char) : List (List Char) :=
  (t.splitOnP p).filter (· ≠ [])

@[simp] theorem words_nil (p : Char → Bool) : words p [] = [] := by
  simp [words]

/-- A break belongs to no word. -/
theorem words_append (hc : p c = true) (s t : List Char) :
    words p (s ++ c :: t) = words p s ++ words p t := by
  rw [words, List.splitOnP_append_cons s t hc, List.filter_append]
  rfl

/-- A separator in front changes nothing. -/
theorem words_cons (hc : p c = true) (t : List Char) : words p (c :: t) = words p t := by
  have h := words_append hc [] t
  rwa [words_nil] at h

/-- A text without separators is one word. -/
theorem words_word (hne : t ≠ []) (h : ∀ c ∈ t, p c = false) : words p t = [t] := by
  rw [words, List.splitOnP_eq_singleton h]
  simp [hne]

/-- Padding belongs to no word. -/
theorem words_leftpad (hc : p c = true) (n : ℕ) (t : List Char) :
    words p (t.leftpad n c) = words p t := by
  rw [List.leftpad]
  induction n - t.length with
  | zero => rfl
  | succ n ih => rw [List.replicate_succ, List.cons_append, words_cons hc, ih]

/-- Fields between breaks are cut one by one. -/
theorem words_intercalate (hc : p c = true) (fields : List (List Char)) :
    words p ([c].intercalate fields) = fields.flatMap (words p) := by
  induction fields with
  | nil => exact words_nil p
  | cons f fields ih =>
    cases fields with
    | nil => simp [List.intercalate]
    | cons g fields =>
      rw [List.flatMap_cons, ← ih]
      exact words_append hc f _

end Words

section Lines

variable {c : Char} {s b : List Char} {lines : List (List Char)}

end Lines

section Intercalate

variable {s c : Char}

/-- A character of a joined text is the separator or in a field. -/
theorem mem_intercalate {fields : List (List Char)} (h : c ∈ [s].intercalate fields) :
    c = s ∨ ∃ f ∈ fields, c ∈ f := by
  induction fields with
  | nil => simp at h
  | cons f fields ih =>
    cases fields with
    | nil => exact .inr ⟨f, List.mem_singleton_self f, by simpa using h⟩
    | cons g fields =>
      rw [List.intercalate_cons_cons, List.mem_append, List.mem_append] at h
      obtain (hf | hs) | hrest := h
      · exact .inr ⟨f, List.mem_cons_self, hf⟩
      · exact .inl (List.mem_singleton.mp hs)
      · obtain rfl | ⟨f', hmem, hc⟩ := ih hrest
        · exact .inl rfl
        · exact .inr ⟨f', List.mem_cons_of_mem f hmem, hc⟩

/-- Padding brings in one character. -/
theorem mem_leftpad {n : ℕ} {t : List Char} (h : c ∈ t.leftpad n s) : c = s ∨ c ∈ t := by
  rw [List.leftpad, List.mem_append] at h
  obtain hpad | ht := h
  · exact .inl (List.eq_of_mem_replicate hpad)
  · exact .inr ht

end Intercalate

/-! ## Numerals -/

/-- The decimal numeral of an integer. -/
def decimal (x : ℤ) : List Char :=
  if x < 0 then '-' :: Nat.toDigits 10 x.natAbs else Nat.toDigits 10 x.natAbs

/-- A number has at least one digit. -/
theorem decimal_ne_nil (x : ℤ) : decimal x ≠ [] := by
  unfold decimal
  split
  · exact List.cons_ne_nil _ _
  · exact Nat.toDigits_ne_nil

/-- A number is written with digits and a sign. -/
theorem mem_decimal {c : Char} {x : ℤ} (h : c ∈ decimal x) : c = '-' ∨ c.isDigit = true := by
  unfold decimal at h
  split at h
  · obtain rfl | hdigit := List.mem_cons.mp h
    · exact .inl rfl
    · exact .inr (Nat.isDigit_of_mem_toDigits (by decide) (by decide) hdigit)
  · exact .inr (Nat.isDigit_of_mem_toDigits (by decide) (by decide) h)

/-- A natural number is written with its digits alone. -/
theorem decimal_ofNat (n : ℕ) : decimal (n : ℤ) = Nat.toDigits 10 n := by
  rw [decimal, if_neg (by omega), Int.natAbs_natCast]

end Text
