import ScriptEval.Token
import ScriptEval.Value

/-! The operators of the language: which tokens stand for them, what they ask of their operands and
what they yield. -/
namespace ScriptEval

inductive Demand
  | number | numbers | numbersOrTexts
  deriving DecidableEq

def Demand.message : Demand → String
  | number => "Operand must be a number."
  | numbers => "Operands must be numbers."
  | numbersOrTexts => "Operands must be two numbers or two strings."

inductive UnaryOp
  | negate | not
  deriving DecidableEq

namespace UnaryOp

def ofKind? : Token.Kind → Option UnaryOp
  | .minus => some negate
  | .bang => some not
  | _ => none

def apply : UnaryOp → Value → Except Demand Value
  | negate, .number x => .ok (.number x.neg)
  | negate, _ => .error .number
  | not, v => .ok (.bool !v.truthy)

end UnaryOp

inductive NumberOp
  | subtract | multiply | divide | less | lessEqual | greater | greaterEqual
  deriving DecidableEq

def NumberOp.apply : NumberOp → Double → Double → Value
  | subtract, a, b => .number (a.sub b)
  | multiply, a, b => .number (a.mul b)
  | divide, a, b => .number (a.quotient b)
  | less, a, b => .bool (a.lt b)
  | lessEqual, a, b => .bool (a.le b)
  | greater, a, b => .bool (b.lt a)
  | greaterEqual, a, b => .bool (b.le a)

inductive BinaryOp
  | same | differ | add | onNumbers (f : NumberOp)
  deriving DecidableEq

namespace BinaryOp

def ofKind? : Token.Kind → Option BinaryOp
  | .equalEqual => some same
  | .bangEqual => some differ
  | .plus => some add
  | .minus => some (onNumbers .subtract)
  | .star => some (onNumbers .multiply)
  | .slash => some (onNumbers .divide)
  | .less => some (onNumbers .less)
  | .lessEqual => some (onNumbers .lessEqual)
  | .greater => some (onNumbers .greater)
  | .greaterEqual => some (onNumbers .greaterEqual)
  | _ => none

def apply : BinaryOp → Value → Value → Except Demand Value
  | same, a, b => .ok (.bool (a.same b))
  | differ, a, b => .ok (.bool !a.same b)
  | add, .number a, .number b => .ok (.number (a.add b))
  | add, .text a, .text b => .ok (.text (a ++ b))
  | add, _, _ => .error .numbersOrTexts
  | onNumbers f, .number a, .number b => .ok (f.apply a b)
  | onNumbers _, _, _ => .error .numbers

end BinaryOp
end ScriptEval
