import ScriptEval.Syntax
import ScriptEval.Forest
import ScriptEval.Operator

/-! The value of an expression in a scope. Operands are evaluated from left to right, all of them
before the operator looks at any, and what they assigned stays when the operator refuses them. -/
namespace ScriptEval

/-- A failure of the program, an operator of a kind that has no meaning, or an open place. -/
inductive Halt
  | failed (f : Failure)
  | unsupported (kind : Token.Kind)
  | hole (h : Hole)
  deriving DecidableEq

def Halt.ofDemand (op : Token) (d : Demand) : Halt := failed (.operands op d.message)

namespace Token

/-- The result of the operator that the token stands for. A kind without meaning is told before
the operands are looked at. -/
def unary (op : Token) (v : Value) : Except Halt Value :=
  match UnaryOp.ofKind? op.kind with
  | some f => (f.apply v).mapError (Halt.ofDemand op)
  | none => .error (.unsupported op.kind)

def binary (op : Token) (a b : Value) : Except Halt Value :=
  match BinaryOp.ofKind? op.kind with
  | some f => (f.apply a b).mapError (Halt.ofDemand op)
  | none => .error (.unsupported op.kind)

end Token

structure Evaluation where
  outcome : Except Halt Value
  forest : Forest

def Evaluation.andThen (r : Evaluation) (next : Value → Forest → Evaluation) : Evaluation :=
  match r.outcome with
  | .ok v => next v r.forest
  | .error h => ⟨.error h,r.forest⟩

@[simp] theorem Evaluation.andThen_ok (v : Value) (F : Forest) (next : Value → Forest → Evaluation) :
    Evaluation.andThen ⟨.ok v,F⟩ next = next v F := rfl

@[simp] theorem Evaluation.andThen_error (h : Halt) (F : Forest)
    (next : Value → Forest → Evaluation) :
    Evaluation.andThen ⟨.error h,F⟩ next = ⟨.error h,F⟩ := rfl

namespace Expr

def readName (here : ScopeId) (t : Token) (F : Forest) : Evaluation :=
  ⟨(F.read here t).mapError .failed,F⟩

def writeName (here : ScopeId) (t : Token) (v : Value) (F : Forest) : Evaluation :=
  match F.write here t v with
  | .ok G => ⟨.ok v,G⟩
  | .error f => ⟨.error (.failed f),F⟩

def eval (here : ScopeId) : Expr → Forest → Evaluation
  | literal v _, F => ⟨.ok v,F⟩
  | grouping e, F => e.eval here F
  | unary op r, F => (r.eval here F).andThen fun v F => ⟨op.unary v,F⟩
  | binary l op r, F =>
    (l.eval here F).andThen fun a F => (r.eval here F).andThen fun b F => ⟨op.binary a b,F⟩
  | name t, F => readName here t F
  | assign t e, F => (e.eval here F).andThen (writeName here t)
  | hole h, F => ⟨.error (.hole h),F⟩

end Expr
end ScriptEval
