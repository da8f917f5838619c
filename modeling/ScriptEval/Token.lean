/-! Tokens as a scanner hands them over: what was read and where it stood. A token is used for its kind, for its
text, and for pointing at it in the source, as a failure of a running program does. -/
namespace ScriptEval

/-- The kinds of token, in their fixed order. The words of the language begin with `kw`. -/
inductive Token.Kind
  | leftParen | rightParen | leftBrace | rightBrace | comma | dot | minus | plus | semicolon
  | slash | star
  | bang | bangEqual | equal | equalEqual | greater | greaterEqual | less | lessEqual
  | identifier | string | number
  | kwAnd | kwClass | kwElse | kwFalse | kwFun | kwFor | kwIf | kwNil | kwOr | kwPrint
  | kwReturn | kwSuper | kwThis | kwTrue | kwVar | kwWhile
  | endOfFile
  deriving DecidableEq

/-- A token with its text, its line, and its place in the source if the scanner kept track. -/
structure Token where
  kind : Token.Kind
  lexeme : String
  line : Int
  offset : Option Int
  deriving DecidableEq

namespace Token

def Kind.all : List Kind :=
  [.leftParen,.rightParen,.leftBrace,.rightBrace,.comma,.dot,.minus,.plus,.semicolon,
   .slash,.star,
   .bang,.bangEqual,.equal,.equalEqual,.greater,.greaterEqual,.less,.lessEqual,
   .identifier,.string,.number,
   .kwAnd,.kwClass,.kwElse,.kwFalse,.kwFun,.kwFor,.kwIf,.kwNil,.kwOr,.kwPrint,
   .kwReturn,.kwSuper,.kwThis,.kwTrue,.kwVar,.kwWhile,
   .endOfFile]

@[simp] theorem Kind.mem_all (k : Kind) : k ∈ all := by cases k <;> decide

def Kind.ordinal (k : Kind) : Nat := all.idxOf k + 1

/-- How many characters to underline: an empty token still takes one. -/
def width (t : Token) : Nat := max t.lexeme.length 1

theorem one_le_width (t : Token) : 1 ≤ t.width := Nat.le_max_right _ _

end Token

inductive Failure
  | general (blame : Token) (message : String)
  | operands (blame : Token) (message : String)
  | undefined (name : Token)
  deriving DecidableEq

namespace Failure

def token : Failure → Token
  | general t _ | operands t _ | undefined t => t

def message : Failure → String
  | general _ m | operands _ m => m
  | undefined t => "Undefined variable '" ++ t.lexeme ++ "'."

def text (f : Failure) : String := f.message ++ "\n[line " ++ toString f.token.line ++ "]"

end Failure

end ScriptEval
