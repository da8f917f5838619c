import ScriptEval.Forest
import ScriptEval.Expr.Eval
import ScriptEval.Syntax

/-! Programs on a plain stack of scopes, the innermost first. There are no identifiers and nothing
is shared: a block puts an empty scope on top and takes it off again, however its statements end. -/
namespace ScriptEval

/-- The bindings of nested scopes, the innermost first. -/
abbrev Stack := List Bindings

namespace Stack

def get? (σ : Stack) (n : String) : Option Value := σ.findSome? fun m => m[n]?

def define (n : String) (v : Value) : Stack → Stack
  | [] => []
  | m :: σ => m.insert n v :: σ

def assign? (n : String) (v : Value) : Stack → Option Stack
  | [] => none
  | m :: σ => if n ∈ m then some (m.insert n v :: σ) else (assign? n v σ).map (m :: ·)

/-- How a program ended, the stack as it is then, and the lines that it printed. -/
structure Result (α : Type) where
  outcome : Except Halt α
  stack : Stack
  lines : List String

namespace Result

variable {α β : Type}

def done (a : α) (σ : Stack) : Result α := ⟨.ok a,σ,[]⟩

def halted (h : Halt) (σ : Stack) : Result α := ⟨.error h,σ,[]⟩

def andThen (r : Result α) (next : α → Stack → Result β) : Result β :=
  match r.outcome with
  | .ok a =>
    let q := next a r.stack
    ⟨q.outcome,q.stack,r.lines ++ q.lines⟩
  | .error h => ⟨.error h,r.stack,r.lines⟩

def leave (r : Result α) : Result α := { r with stack := r.stack.tail }

end Result

def read (t : Token) (σ : Stack) : Result Value :=
  match get? σ t.lexeme with
  | some v => .done v σ
  | none => .halted (.failed (.undefined t)) σ

def write (t : Token) (v : Value) (σ : Stack) : Result Value :=
  match assign? t.lexeme v σ with
  | some σ => .done v σ
  | none => .halted (.failed (.undefined t)) σ

def eval : Expr → Stack → Result Value
  | .literal v _, σ => .done v σ
  | .grouping e, σ => eval e σ
  | .unary op r, σ => (eval r σ).andThen fun v σ => ⟨op.unary v,σ,[]⟩
  | .binary l op r, σ =>
    (eval l σ).andThen fun a σ => (eval r σ).andThen fun b σ => ⟨op.binary a b,σ,[]⟩
  | .name t, σ => read t σ
  | .assign t e, σ => (eval e σ).andThen (write t)
  | .hole h, σ => .halted (.hole h) σ

mutual

def run : Stmt → Stack → Result Unit
  | .expression e, σ => (eval e σ).andThen fun _ σ => .done () σ
  | .print e _, σ => (eval e σ).andThen fun v σ => ⟨.ok (),σ,[v.display]⟩
  | .var t none, σ => .done () (define t.lexeme .nil σ)
  | .var t (some e), σ => (eval e σ).andThen fun v σ => .done () (define t.lexeme v σ)
  | .block body _, σ => (runAll body (∅ :: σ)).leave
  | .ifThen c y, σ => (eval c σ).andThen fun v σ => if v.truthy then run y σ else .done () σ
  | .ifElse c y n, σ => (eval c σ).andThen fun v σ => if v.truthy then run y σ else run n σ
  | .hole h, σ => .halted (.hole h) σ

def runAll : List Stmt → Stack → Result Unit
  | [], σ => .done () σ
  | s :: ss, σ => (run s σ).andThen fun _ σ => runAll ss σ

end

end Stack
end ScriptEval
