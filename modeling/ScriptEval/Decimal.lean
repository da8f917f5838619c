import ScriptEval.Double

/-! Decimals: the shortest one that is read back as a given double, how decimals are written, and how a numeral
is read. The shortest is searched by exact integer arithmetic: grids of decimals are tried from the coarsest on,
and on each the neighbours of the value. -/
namespace ScriptEval

/-- The digits of `n`, after as many zeros as it takes to fill `width`. -/
def padded (base width n : Nat) : List Char :=
  List.replicate (width - (Nat.toDigits base n).length) '0' ++ Nat.toDigits base n

theorem padded_of_le {base width n : Nat} (h : width ≤ (Nat.toDigits base n).length) :
    padded base width n = Nat.toDigits base n := by
  simp [padded,Nat.sub_eq_zero_of_le h]

theorem length_padded (base width n : Nat) :
    (padded base width n).length = max width (Nat.toDigits base n).length := by
  simp [padded]; omega

/-- The decimal number `digits * 10 ^ exponent`. -/
structure Decimal where
  digits : Nat
  exponent : Int
  deriving DecidableEq

namespace Decimal

def trim (d : Decimal) : Decimal :=
  if h : 0 < d.digits ∧ d.digits % 10 = 0 then trim ⟨d.digits / 10,d.exponent + 1⟩ else d
termination_by d.digits
decreasing_by omega

def log10 (n : Nat) : Nat := (Nat.toDigits 10 n).length - 1

def leading (d : Decimal) : Int := d.exponent + log10 d.digits

end Decimal

namespace Binary

def unit (b : Binary) : Nat :=
  Nat.pow 2 b.exponent.toNat * Nat.pow 5 (-b.exponent).toNat

def scale (b : Binary) : Int := min b.exponent 0

def count (b : Binary) : Nat := b.mantissa * b.unit

theorem unit_pos (b : Binary) : 0 < b.unit :=
  Nat.mul_pos (Nat.pow_pos (by decide)) (Nat.pow_pos (by decide))

theorem count_pos (b : Binary) : 0 < b.count := Nat.mul_pos b.mantissa_pos b.unit_pos

def low (b : Binary) : Nat := 4 * b.count - if b.narrowBelow then b.unit else 2 * b.unit

def high (b : Binary) : Nat := 4 * b.count + 2 * b.unit

/-- A count that is read back as the same double: no further than halfway to a neighbour, where the halfway
points themselves go to an even mantissa. -/
def Covers (b : Binary) (n : Nat) : Prop :=
  if b.mantissa % 2 = 0 then b.low ≤ 4 * n ∧ 4 * n ≤ b.high else b.low < 4 * n ∧ 4 * n < b.high

instance (b : Binary) (n : Nat) : Decidable (b.Covers n) := by
  unfold Covers; infer_instance

/-- The two multiples of `step` around `n`, in steps: the nearer first, of two equally near ones the even one. -/
def neighbours (n step : Nat) : List Nat :=
  let c := n / step
  let r := n % step
  if 2 * r < step ∨ 2 * r = step ∧ c % 2 = 0 then [c,c + 1] else [c + 1,c]

def onGrid? (b : Binary) (step : Nat) : Option Nat :=
  (neighbours b.count step).find? fun c => b.Covers (c * step)

/-- The first hit on the grids from `10 ^ j` down to one, where the value itself is a hit. -/
def search (b : Binary) : Nat → Decimal
  | 0 => ⟨b.count,b.scale⟩
  | j + 1 =>
    match b.onGrid? (Nat.pow 10 (j + 1)) with
    | some c => ⟨c,b.scale + (j + 1)⟩
    | none => b.search j

def shortest (b : Binary) : Decimal := (b.search (Decimal.log10 b.count)).trim

end Binary

/-- The decisions of a number format: positional notation is for leading exponents from `plainFrom` up to, but not
including, `plainBelow`. A tail follows the digits of a whole number, or a sole digit before an exponent. -/
structure Layout where
  plainFrom : Int
  plainBelow : Int
  wholeTail : String
  soleTail : String
  mark : String
  plus : String
  exponentWidth : Nat
  nan : String
  infinity : String

namespace Layout

/-- Positional notation: a point before the last `-exponent` digits, or zeros up to the units. -/
def plain (l : Layout) (d : Decimal) : List Char :=
  if 0 ≤ d.exponent then
    Nat.toDigits 10 d.digits ++ List.replicate d.exponent.toNat '0' ++ l.wholeTail.toList
  else
    let places := (-d.exponent).toNat
    let ds := padded 10 (places + 1) d.digits
    ds.take (ds.length - places) ++ '.' :: ds.drop (ds.length - places)

def scientific (l : Layout) (d : Decimal) : List Char :=
  let ds := Nat.toDigits 10 d.digits
  let tail := if ds.length = 1 then l.soleTail.toList else '.' :: ds.drop 1
  let sign := if d.leading < 0 then ['-'] else l.plus.toList
  ds.take 1 ++ tail ++ l.mark.toList ++ sign ++ padded 10 l.exponentWidth d.leading.natAbs

def positive (l : Layout) (d : Decimal) : List Char :=
  if l.plainFrom ≤ d.leading ∧ d.leading < l.plainBelow then l.plain d else l.scientific d

def signed (x : Double) (text : List Char) : String :=
  String.ofList (if x.isNegative then '-' :: text else text)

/-- The text of a double: the shortest digits that are read back, laid out. -/
def write (l : Layout) (x : Double) : String :=
  match x.magnitude with
  | .nan => l.nan
  | .infinite => signed x l.infinity.toList
  | .zero => signed x (l.plain ⟨0,0⟩)
  | .finite b => signed x (l.positive b.shortest)

end Layout

namespace Numeral

def digits (cs : List Char) : List Char := cs.takeWhile Char.isDigit

def rest (cs : List Char) : List Char := cs.dropWhile Char.isDigit

def natural? (cs : List Char) : Option Nat :=
  if !cs.isEmpty && cs.all Char.isDigit then some (Nat.ofDigitChars 10 cs 0) else none

def integer? : List Char → Option Int
  | '-' :: cs => (natural? cs).map fun n : Nat => -(n : Int)
  | '+' :: cs => (natural? cs).map fun n : Nat => (n : Int)
  | cs => (natural? cs).map fun n : Nat => (n : Int)

def exponent? : List Char → Option Int
  | [] => some 0
  | c :: cs => if c = 'e' ∨ c = 'E' then integer? cs else none

/-- A numeral without sign. There is a digit before a point, and one behind it. -/
def unsigned? (cs : List Char) : Option Decimal :=
  let ws := digits cs
  if ws = [] then none else
    match rest cs with
    | '.' :: cs =>
      let ps := digits cs
      if ps = [] then none else
        (exponent? (rest cs)).map fun k => ⟨Nat.ofDigitChars 10 (ws ++ ps) 0,k - ps.length⟩
    | cs => (exponent? cs).map fun k => ⟨Nat.ofDigitChars 10 ws 0,k⟩

/-- A numeral: whether it has a minus sign, and the decimal behind it. -/
def read? (text : String) : Option (Bool × Decimal) :=
  match text.toList with
  | '-' :: cs => (unsigned? cs).map (true,·)
  | cs => (unsigned? cs).map (false,·)

end Numeral
end ScriptEval
