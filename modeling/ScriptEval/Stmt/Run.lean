import ScriptEval.Expr.Eval
import ScriptEval.Journal
import ScriptEval.Syntax

/-! Runs of statements. A block runs in a new scope, which is current until the block is left, and
it is left the same way whether its statements completed or not. -/
namespace ScriptEval

/-- Where a program runs: all scopes, and the one that is current. -/
structure World where
  forest : Forest
  current : ScopeId

def World.fresh : World := ⟨({} : Forest).grow none,0⟩

structure Run where
  outcome : Except Halt Unit
  world : World
  notices : List Notice

namespace Run

def done (w : World) : Run := ⟨.ok (),w,[]⟩

def andThen (r : Run) (next : World → Run) : Run :=
  match r.outcome with
  | .ok () =>
    let q := next r.world
    ⟨q.outcome,q.world,r.notices ++ q.notices⟩
  | .error h => ⟨.error h,r.world,r.notices⟩

def evaluating (e : Expr) (w : World) (next : Value → World → Run) : Run :=
  let r := e.eval w.current w.forest
  let w := { w with forest := r.forest }
  match r.outcome with
  | .ok v => next v w
  | .error h => ⟨.error h,w,[]⟩

def entering (F : Forest) (i : ScopeId) : Notice := .entering (F.depth i) (F.names i)

def leaving (F : Forest) (i : ScopeId) : Notice := .leaving (F.depth i) (F.names i)

/-- Runs the body with the given scope current. Afterwards the scope is current that was before. -/
def within (scope : ScopeId) (body : World → Run) (w : World) : Run :=
  let r := body { w with current := scope }
  { outcome := r.outcome
    world := { r.world with current := w.current }
    notices := entering w.forest scope :: r.notices ++ [leaving r.world.forest scope] }

@[simp] theorem current_within (i : ScopeId) (body : World → Run) (w : World) :
    (within i body w).world.current = w.current := rfl

def inBlock (body : World → Run) (w : World) : Run :=
  within w.forest.size body { w with forest := w.forest.grow w.current }

end Run

def World.define (w : World) (t : Token) (v : Value) : World :=
  { w with forest := w.forest.define w.current t.lexeme v }

namespace Stmt

mutual

def run : Stmt → World → Run
  | expression e, w => Run.evaluating e w fun _ w => Run.done w
  | print e _, w => Run.evaluating e w fun v w => ⟨.ok (),w,[.line v.display]⟩
  | var t none, w => Run.done (w.define t .nil)
  | var t (some e), w => Run.evaluating e w fun v w => Run.done (w.define t v)
  | block body _, w => Run.inBlock (runAll body) w
  | ifThen c y, w => Run.evaluating c w fun v w => if v.truthy then y.run w else Run.done w
  | ifElse c y n, w => Run.evaluating c w fun v w => if v.truthy then y.run w else n.run w
  | hole h, w => ⟨.error (.hole h),w,[]⟩

def runAll : List Stmt → World → Run
  | [], w => Run.done w
  | s :: ss, w => (s.run w).andThen (runAll ss)

end

def runCounting : List Stmt → World → Run × Nat
  | [], w => (Run.done w,0)
  | s :: ss, w =>
    let r := s.run w
    match r.outcome with
    | .ok () =>
      let (q,n) := runCounting ss r.world
      ({ q with notices := r.notices ++ q.notices },n + 1)
    | .error h => (⟨.error h,r.world,r.notices⟩,0)

@[simp] theorem runCounting_fst (ss : List Stmt) (w : World) :
    (runCounting ss w).1 = runAll ss w := by
  induction ss generalizing w with
  | nil => simp [runCounting,runAll]
  | cons s ss ih =>
    simp only [runCounting,runAll,Run.andThen]
    split <;> simp_all

end Stmt
end ScriptEval
