import Mathlib.Algebra.Order.Ring.Rat
import Scope.ForStd.Text

/-!
# QPD visualiser

Model of `QPDVisualizer` in `qpd.py`: it reads the lines of the monitor program
and shows where the beam is.  Numbers are exact rationals.
-/

namespace Scope.Native

namespace Visualizer

open Text

/-! ## Built-in functions of the language -/

/-- `str.isspace` for one character. -/
def isSpace (c : Char) : Bool :=
  let n := c.toNat
  (0x09 ≤ n ∧ n ≤ 0x0D) ∨ (0x1C ≤ n ∧ n ≤ 0x20) ∨ n = 0x85 ∨ n = 0xA0 ∨ n = 0x1680 ∨
    (0x2000 ≤ n ∧ n ≤ 0x200A) ∨ n = 0x2028 ∨ n = 0x2029 ∨ n = 0x202F ∨ n = 0x205F ∨ n = 0x3000

/-- `str.split()`. -/
def split (t : List Char) : List (List Char) := words isSpace t

/-- `str.replace` of one character by another. -/
def replace (a b : Char) (t : List Char) : List Char := t.map fun c => if c = a then b else c

/-- `str.strip()`. -/
def strip (t : List Char) : List Char :=
  ((t.dropWhile isSpace).reverse.dropWhile isSpace).reverse

/-- `digit (["_"] digit)*`: the digits. -/
def digitPart : List Char → Option (List Char)
  | [] => none
  | [c] => if c.isDigit then some [c] else none
  | c :: '_' :: t => if c.isDigit then (digitPart t).map (c :: ·) else none
  | c :: t => if c.isDigit then (digitPart t).map (c :: ·) else none

def value (digits : List Char) : ℕ := Nat.ofDigitChars 10 digits 0

/-- `[digitpart] "." digitpart | digitpart ["."]`. -/
def number (t : List Char) : Option ℚ :=
  match t.splitOn '.' with
  | [whole] => (digitPart whole).map fun d => (value d : ℚ)
  | [whole, []] => (digitPart whole).map fun d => (value d : ℚ)
  | [[], frac] => (digitPart frac).map fun f => (value f : ℚ) / 10 ^ f.length
  | [whole, frac] =>
    (digitPart whole).bind fun d => (digitPart frac).map fun f =>
      (value d : ℚ) + (value f : ℚ) / 10 ^ f.length
  | _ => none

/-- An optional sign. -/
def signed {α : Type} [Neg α] (read : List Char → Option α) : List Char → Option α
  | '+' :: t => read t
  | '-' :: t => (read t).map (- ·)
  | t => read t

def exponent : List Char → Option ℤ := signed fun t => (digitPart t).map fun d => (value d : ℤ)

/-- `number [("e" | "E") exponent]`. -/
def floatNumber (t : List Char) : Option ℚ :=
  match t.splitOnP (fun c => c = 'e' ∨ c = 'E') with
  | [m] => number m
  | [m, e] => (number m).bind fun q => (exponent e).map fun k => q * 10 ^ k
  | _ => none

/-- `float` of a text, or `none` for a `ValueError`; there is no infinity and no NaN among
    the rationals. -/
def float (t : List Char) : Option ℚ := signed floatNumber (strip t)

/-- `int` of a number: towards zero. -/
def int (q : ℚ) : ℤ := q.num.tdiv q.den

/-! ## One line -/

/-- The first four numbers of a line, by the names they get. -/
structure Parts where
  tr : ℚ
  br : ℚ
  bl : ℚ
  tl : ℚ
  deriving DecidableEq

namespace Parts

def total (p : Parts) : ℚ := p.tr + p.br + p.tl + p.bl

def rawX (p : Parts) : ℚ := ((p.tr + p.br) - (p.tl + p.bl)) / p.total

/-- Both arms of the conditional expression are this. -/
def rawY (p : Parts) : ℚ := ((p.tr + p.tl) - (p.br + p.bl)) / p.total

end Parts

/-- `tr, br, bl, tl = map(float, raw_parts[:4])`, for a line with four words or more. -/
def parse (line : List Char) : Option Parts :=
  match split (replace '|' ' ' line) with
  | t0 :: t1 :: t2 :: t3 :: _ =>
    (float t0).bind fun tr => (float t1).bind fun br => (float t2).bind fun bl =>
      (float t3).map fun tl => { tr, br, bl, tl }
  | _ => none

end Visualizer

/-- What the window shows. -/
structure Visualizer where
  statusVar : String
  statusFg : String
  dotState : String
  /-- The corners of the dot. -/
  dotCoords : ℚ × ℚ × ℚ × ℚ
  labelVar : String
  deriving DecidableEq

namespace Visualizer

open Text

/-- `f"TR:{int(tr)} BR:{int(br)} TL:{int(tl)} BL:{int(bl)} Sum:{int(total)}"`. -/
def Parts.label (p : Parts) : String :=
  String.ofList ("TR:".toList ++ decimal (int p.tr) ++ " BR:".toList ++ decimal (int p.br) ++
    " TL:".toList ++ decimal (int p.tl) ++ " BL:".toList ++ decimal (int p.bl) ++
    " Sum:".toList ++ decimal (int p.total))

end Visualizer

end Scope.Native
