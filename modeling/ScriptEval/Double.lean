/-! Doubles as 64 bits, and their arithmetic. What is no number at all has many patterns of bits, which differ
in sign and payload. -/
namespace ScriptEval

/-- A positive finite value `mantissa * 2 ^ exponent`. At a power of two the next double below is half as far
away as the next one above. -/
structure Binary where
  mantissa : Nat
  exponent : Int
  narrowBelow : Bool
  mantissa_pos : 0 < mantissa

inductive Magnitude
  | nan | infinite | zero | finite (b : Binary)

/-- Eleven bits of exponent above 52 of fraction. Powers are `Nat.pow` and not `^`, which stands for the power of
a monoid where algebra is imported. -/
def Magnitude.ofBits (bits : Nat) : Magnitude :=
  let e : Nat := bits / Nat.pow 2 52 % Nat.pow 2 11
  let f : Nat := bits % Nat.pow 2 52
  if e = 2047 then
    if f = 0 then .infinite else .nan
  else if e = 0 then
    if h : f = 0 then .zero else .finite ⟨f,-1074,false,Nat.pos_of_ne_zero h⟩
  else
    .finite ⟨Nat.pow 2 52 + f,(e : Int) - 1075,f = 0 ∧ 1 < e,Nat.add_pos_left (by decide) f⟩

structure Double where
  bits : BitVec 64
  deriving DecidableEq

namespace Double

open Float.Model (UnpackedFloat)

def magnitude (x : Double) : Magnitude := .ofBits x.bits.toNat

def isNegative (x : Double) : Bool := Nat.pow 2 63 ≤ x.bits.toNat

def isNaN (x : Double) : Bool :=
  match x.magnitude with
  | .nan => true
  | _ => false

def isFinite (x : Double) : Bool :=
  match x.magnitude with
  | .nan | .infinite => false
  | _ => true

def zero : Double := ⟨0⟩

def one : Double := ⟨0x3ff0000000000000⟩

def infinity : Double := ⟨0x7ff0000000000000⟩

def notANumber : Double := ⟨0x7ff8000000000000⟩

def signBit : BitVec 64 := 0x8000000000000000

def neg (x : Double) : Double := ⟨x.bits ^^^ signBit⟩

def abs (x : Double) : Double := ⟨x.bits &&& ~~~signBit⟩

def unpacked (x : Double) : UnpackedFloat := .unpack .binary64 x.bits

def packed (u : UnpackedFloat) : Double := ⟨u.pack .binary64⟩

protected def compare (a b : Double) : Option Ordering := a.unpacked.compare b.unpacked

def lt (a b : Double) : Bool := a.compare b == some .lt

def le (a b : Double) : Bool := (a.compare b).any Ordering.isLE

/-- Equality by the ordering, where the two zeros are equal and what is no number is not equal to itself. -/
def eqv (a b : Double) : Bool := a.compare b == some .eq

/-- Whether two numbers are the same as values: what is no number is the same as all that is none, and the two
zeros differ. -/
def same (a b : Double) : Bool :=
  if a.isNaN then b.isNaN else a.eqv b && a.isNegative == b.isNegative

/-- Sets the bit by which an operation marks what is no number. -/
def quiet (x : Double) : Double := ⟨x.bits ||| 0x0008000000000000⟩

/-- An operation on doubles in parts. What is no number is passed on, the first before the second: which of the
patterns of no number comes out is left open by the standard of the arithmetic. -/
def lift (f : UnpackedFloat → UnpackedFloat → UnpackedFloat) (a b : Double) : Double :=
  if a.isNaN then a.quiet else if b.isNaN then b.quiet else packed (f a.unpacked b.unpacked)

def add : Double → Double → Double := lift (.add .binary64)

def sub : Double → Double → Double := lift (.sub .binary64)

def mul : Double → Double → Double := lift (.mul .binary64)

def div : Double → Double → Double := lift (.div .binary64)

def signedOne (x : Double) : Double := if x.isNegative then one.neg else one

/-- Division that looks at the signs where the divisor is a zero: it gives an infinity, or no number if the
dividend is none or is a zero itself. -/
def quotient (a b : Double) : Double :=
  if b.eqv zero then
    if a.eqv zero || a.isNaN then notANumber else ((signedOne a).mul (signedOne b)).mul infinity
  else a.div b

end Double
end ScriptEval
