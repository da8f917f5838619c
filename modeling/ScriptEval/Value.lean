import ScriptEval.Text.Quoted

/-! The values of the language: what counts as true, what counts as the same, and how a value looks
when it is printed and when it is listed. -/
namespace ScriptEval

inductive Value
  | nil | bool (b : Bool) | number (x : Double) | text (s : String)
  deriving DecidableEq

namespace Value

def isNumber : Value → Bool
  | number _ => true
  | _ => false

/-- Everything is true but nil and false: zero is, and so is the empty text. -/
def truthy : Value → Bool
  | nil => false
  | bool b => b
  | _ => true

def same : Value → Value → Bool
  | nil, nil => true
  | bool a, bool b => a == b
  | number a, number b => a.same b
  | text a, text b => a == b
  | _, _ => false

/-- Listed numbers are positional from a ten-thousandth up to ten to the sixteenth, always with a
point; the others have a signed exponent of two digits or more. -/
def listLayout : Layout where
  plainFrom := -4
  plainBelow := 16
  wholeTail := ".0"
  soleTail := ""
  mark := "e"
  plus := "+"
  exponentWidth := 2
  nan := "nan"
  infinity := "inf"

end Value

namespace Numeral

def thousandth : Double := ⟨0x3f50624dd2f1a9fc⟩

def tenMillions : Double := ⟨0x416312d000000000⟩

/-- A decimal behind its first digit, with its exponent. A sole digit is followed by a zero. -/
def spread (d : Decimal) : List Char :=
  let ds := Nat.toDigits 10 d.digits
  let exponent := (if d.leading < 0 then ['-'] else []) ++ Nat.toDigits 10 d.leading.natAbs
  ds.take 1 ++ '.' :: (if ds.length = 1 then ['0'] else ds.drop 1) ++ 'E' :: exponent

/-- A finite number as it is listed, if it is zero or from a thousandth up to ten millions. If not, the digits
that it is listed with are spread anew, without the zeros at their end. -/
def text (x : Double) : List Char :=
  let listed := (Value.listLayout.write x).toList
  if x.abs.eqv .zero || thousandth.le x.abs && x.abs.lt tenMillions then listed
  else
    match unsigned? (Value.listLayout.write x.abs).toList with
    | some d => (if x.lt .zero then ['-'] else []) ++ spread d.trim
    | none => listed

def shortened (cs : List Char) : List Char :=
  if ['.','0'].isSuffixOf cs then cs.dropLast.dropLast else cs

end Numeral

namespace Value

def display : Value → String
  | nil => "nil"
  | bool b => if b then "true" else "false"
  | number x =>
    match x.magnitude with
    | .nan => "NaN"
    | .infinite => if Double.zero.lt x then "Infinity" else "-Infinity"
    | _ => String.ofList (Numeral.shortened (Numeral.text x))
  | text s => s

def remark : Value → String
  | nil => "None"
  | bool b => if b then "True" else "False"
  | number x => listLayout.write x
  | text s => s

def listing : Value → String
  | text s => quoted s
  | v => v.remark

end Value
end ScriptEval
