import ScriptEval.Token
import ScriptEval.Value

/-! Trees as a parser hands them over, not yet told apart into expressions and statements. Any tree has a token to
point at, if one was kept, and a text that lists it. Some of them are expressions, which have a value, and some
are statements, which are run for what they do. -/
namespace ScriptEval

/-- A place in a tree that was left open: for any phrase, for an expression, or for a statement. -/
inductive Hole
  | phrase | expr | stmt
  deriving DecidableEq

inductive Tree
  | literal (value : Value) (token : Option Token)
  | grouping (inner : Tree)
  | unary (op : Token) (right : Tree)
  | binary (left : Tree) (op : Token) (right : Tree)
  | name (token : Token)
  | assign (target : Token) (value : Tree)
  | expression (inner : Tree)
  | print (inner : Tree) (keyword : Option Token)
  | var (name : Token)
  | varTo (name : Token) (initial : Tree)
  | block (body : List Tree) (brace : Option Token)
  | ifThen (condition yes : Tree)
  | ifElse (condition yes no : Tree)
  | hole (h : Hole)

namespace Tree

/-- The token most worth pointing at. A literal or a block may lack one; a hole has no answer. -/
def head : Tree → Except Hole (Option Token)
  | literal _ t | block _ t => .ok t
  | grouping e | expression e | print e none => e.head
  | unary op _ | binary _ op _ => .ok op
  | name t | assign t _ | print _ (some t) | var t | varTo t _ => .ok t
  | ifThen c _ | ifElse c _ _ => c.head
  | hole h => .error h

mutual

/-- The tree on one line. The initial value of a variable is left out. -/
def listing : Tree → String
  | literal v _ => "<lit " ++ v.listing ++ ">"
  | grouping e => "(" ++ e.listing ++ ")"
  | unary op r => "(" ++ op.lexeme ++ " " ++ r.listing ++ ")"
  | binary l op r => "(" ++ l.listing ++ " " ++ op.lexeme ++ " " ++ r.listing ++ ")"
  | name t => "<ref:" ++ t.lexeme ++ ">"
  | assign t e => "(" ++ t.lexeme ++ " = " ++ e.listing ++ ")"
  | expression e => "<do " ++ e.listing ++ ">"
  | print e _ => "<print " ++ e.listing ++ ">"
  | var t | varTo t _ => "<var " ++ t.lexeme ++ ">"
  | block body _ => "\x7b" ++ "; ".intercalate (listings body) ++ "\x7d"
  | ifThen c y => "<if " ++ c.listing ++ " then " ++ y.listing ++ ">"
  | ifElse c y n => "<if " ++ c.listing ++ " then " ++ y.listing ++ " else " ++ n.listing ++ ">"
  | hole _ => "<hole>"

def listings : List Tree → List String
  | [] => []
  | t :: ts => t.listing :: listings ts

end

end Tree

inductive Expr
  | literal (value : Value) (token : Option Token)
  | grouping (inner : Expr)
  | unary (op : Token) (right : Expr)
  | binary (left : Expr) (op : Token) (right : Expr)
  | name (token : Token)
  | assign (target : Token) (value : Expr)
  | hole (h : Hole)
  deriving DecidableEq

def Expr.tree : Expr → Tree
  | literal v t => .literal v t
  | grouping e => .grouping e.tree
  | unary op r => .unary op r.tree
  | binary l op r => .binary l.tree op r.tree
  | name t => .name t
  | assign t e => .assign t e.tree
  | hole h => .hole h

namespace Tree

def expr? : Tree → Option Expr
  | literal v t => some (.literal v t)
  | grouping e => e.expr?.map .grouping
  | unary op r => r.expr?.map (.unary op)
  | binary l op r => l.expr?.bind fun a => r.expr?.map (.binary a op)
  | name t => some (.name t)
  | assign t e => e.expr?.map (.assign t)
  | hole h => some (.hole h)
  | _ => none

@[simp] theorem expr?_tree (e : Expr) : e.tree.expr? = some e := by
  induction e <;> simp_all [Expr.tree,expr?]

end Tree

inductive Stmt
  | expression (e : Expr)
  | print (e : Expr) (keyword : Option Token)
  | var (name : Token) (initial : Option Expr)
  | block (body : List Stmt) (brace : Option Token)
  | ifThen (condition : Expr) (yes : Stmt)
  | ifElse (condition : Expr) (yes no : Stmt)
  | hole (h : Hole)

namespace Stmt

mutual

def tree : Stmt → Tree
  | expression e => .expression e.tree
  | print e t => .print e.tree t
  | var t none => .var t
  | var t (some e) => .varTo t e.tree
  | block body t => .block (trees body) t
  | ifThen c y => .ifThen c.tree y.tree
  | ifElse c y n => .ifElse c.tree y.tree n.tree
  | hole h => .hole h

def trees : List Stmt → List Tree
  | [] => []
  | s :: ss => s.tree :: trees ss

end

end Stmt

namespace Tree

mutual

def stmt? : Tree → Option Stmt
  | expression e => e.expr?.map .expression
  | print e t => e.expr?.map (.print · t)
  | var t => some (.var t none)
  | varTo t e => e.expr?.map fun e => .var t (some e)
  | block body t => (stmts? body).map (.block · t)
  | ifThen c y => c.expr?.bind fun a => y.stmt?.map (.ifThen a)
  | ifElse c y n => c.expr?.bind fun a => y.stmt?.bind fun b => n.stmt?.map (.ifElse a b)
  | hole h => some (.hole h)
  | _ => none

def stmts? : List Tree → Option (List Stmt)
  | [] => some []
  | t :: ts => t.stmt?.bind fun s => (stmts? ts).map (s :: ·)

end

mutual

@[simp] theorem stmt?_tree : ∀ s : Stmt, s.tree.stmt? = some s
  | .expression e => by simp [Stmt.tree,stmt?]
  | .print e t => by simp [Stmt.tree,stmt?]
  | .var t none => by simp [Stmt.tree,stmt?]
  | .var t (some e) => by simp [Stmt.tree,stmt?]
  | .block body t => by simp [Stmt.tree,stmt?,stmts?_trees body]
  | .ifThen c y => by simp [Stmt.tree,stmt?,stmt?_tree y]
  | .ifElse c y n => by simp [Stmt.tree,stmt?,stmt?_tree y,stmt?_tree n]
  | .hole h => by simp [Stmt.tree,stmt?]

@[simp] theorem stmts?_trees : ∀ ss : List Stmt, stmts? (Stmt.trees ss) = some ss
  | [] => rfl
  | s :: ss => by simp [Stmt.trees,stmts?,stmt?_tree s,stmts?_trees ss]

end

end Tree
end ScriptEval
