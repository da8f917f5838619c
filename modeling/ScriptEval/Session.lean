import ScriptEval.Journal
import ScriptEval.Stmt.Run

/-! A session: a journal, an evaluator with its world, and scopes that are known by name. It is
driven step by step, and a step that fails keeps what it did until then. -/
namespace ScriptEval

/-- What a driver of programs can ask for. Scopes go by their names in the session. -/
inductive Step
  | interpret (program : List Stmt)
  | evaluate (e : Expr)
  | execute (s : Stmt)
  | executeIn (scope : String) (body : List Stmt)
  | restart (globals : Option String)
  | newScope (name : String) (around : Option String)
  | define (scope name : String) (value : Value)
  | get (scope : String) (name : Token)
  | assign (scope : String) (name : Token) (value : Value)
  | contains (scope name : String)
  | enclosing (scope : String)
  | describe (scope : String)
  | report (f : Failure)
  | remark (values : List Value) (level : Int)
  | complain
  | explain (f : Failure)
  | assertOk (message : String)
  | reset
  | status

inductive Reply
  | nothing
  | flag (b : Bool)
  | value (v : Value)
  | text (s : String)
  | names (ns : List String)
  | status (ok sick : Bool) (exitStatus : Nat) (failures : List Failure)

inductive Refusal
  | halted (h : Halt)
  | notOk (message : String)
  | unknownScope (name : String)

/-- The evaluator's world starts in its global scope. Names of scopes are known in order. -/
structure Session where
  journal : Journal
  world : World
  globals : ScopeId
  scopes : Std.ExtTreeMap String ScopeId

structure Effect where
  reply : Except Refusal Reply
  session : Session
  notices : List Notice := []

namespace Session

def globalName : String := "globals"

def start (verbosity : Int) (source : Option String) (d : Sketcher := .plain) : Session where
  journal := { verbosity, source, sketcher := d }
  world := World.fresh
  globals := World.fresh.current
  scopes := (∅ : Std.ExtTreeMap String ScopeId).insert globalName World.fresh.current

def ofSettings (given : Option Settings) (d : Sketcher := .plain) : Session :=
  let j := given.elim {} (Settings.journal · d)
  start j.verbosity j.source d

def atHome (s : Session) : Bool := s.world.current = s.globals

def namesOf (s : Session) (i : ScopeId) : List String :=
  s.scopes.toList.filterMap fun (a,j) => if j = i then some a else none

def withScope (s : Session) (name : String) (next : ScopeId → Effect) : Effect :=
  match s.scopes[name]? with
  | some i => next i
  | none => { reply := .error (.unknownScope name), session := s }

def afterRun (s : Session) (r : Run) (reply : Reply) : Effect where
  reply := match r.outcome with
    | .ok () => .ok reply
    | .error h => .error (.halted h)
  session := { s with world := r.world }
  notices := r.notices

/-- Runs a program. This is the one place where a failure is caught: it goes to the journal. Other
causes to halt pass through, and then nothing is told of the statements that completed. -/
def interpret (s : Session) (program : List Stmt) : Effect :=
  let (r,n) := Stmt.runCounting program s.world
  match r.outcome with
  | .ok () => { s.afterRun r (.flag true) with notices := r.notices ++ [.finished n] }
  | .error (.failed f) =>
    { reply := .ok (.flag false)
      session := { s with world := r.world, journal := s.journal.record f }
      notices := r.notices ++ [.failure f,.stopped n] }
  | .error _ => s.afterRun r (.flag false)

/-- Makes a scope the global one of a new evaluator, which shares the journal and all scopes. -/
def rehome (s : Session) (i : ScopeId) : Session :=
  { s with
    world := { s.world with current := i }
    globals := i
    scopes := s.scopes.insert globalName i }

def addScope (s : Session) (name : String) (around : Option ScopeId) : Session :=
  { s with
    world := { s.world with forest := s.world.forest.grow around }
    scopes := s.scopes.insert name s.world.forest.size }

def setForest (s : Session) (F : Forest) : Session :=
  { s with world := { s.world with forest := F } }

def perform (s : Session) : Step → Effect
  | .interpret p => s.interpret p
  | .evaluate e =>
    let r := e.eval s.world.current s.world.forest
    { reply := match r.outcome with
        | .ok v => .ok (.value v)
        | .error h => .error (.halted h)
      session := s.setForest r.forest }
  | .execute t => s.afterRun (t.run s.world) .nothing
  | .executeIn a body =>
    s.withScope a fun i => s.afterRun (Run.within i (Stmt.runAll body) s.world) .nothing
  | .restart (some a) =>
    s.withScope a fun i => { reply := .ok .nothing, session := s.rehome i }
  | .restart none =>
    { reply := .ok .nothing
      session := (s.addScope globalName none).rehome s.world.forest.size }
  | .newScope a (some b) =>
    s.withScope b fun i => { reply := .ok .nothing, session := s.addScope a (some i) }
  | .newScope a none => { reply := .ok .nothing, session := s.addScope a none }
  | .define a n v =>
    s.withScope a fun i =>
      { reply := .ok .nothing, session := s.setForest (s.world.forest.define i n v) }
  | .get a t =>
    s.withScope a fun i =>
      { reply := match s.world.forest.read i t with
          | .ok v => .ok (.value v)
          | .error f => .error (.halted (.failed f))
        session := s }
  | .assign a t v =>
    s.withScope a fun i =>
      match s.world.forest.write i t v with
      | .ok F => { reply := .ok .nothing, session := s.setForest F }
      | .error f => { reply := .error (.halted (.failed f)), session := s }
  | .contains a n =>
    s.withScope a fun i =>
      { reply := .ok (.flag (n ∈ s.world.forest.bindings i)), session := s }
  | .enclosing a =>
    s.withScope a fun i =>
      let around := (s.world.forest.enclosing? i).elim [] s.namesOf
      { reply := .ok (.names around), session := s }
  | .describe a =>
    s.withScope a fun i =>
      let F := s.world.forest
      { reply := .ok (.text (describeScope (F.depth i) (F.names i))), session := s }
  | .report f =>
    { reply := .ok .nothing
      session := { s with journal := s.journal.record f }
      notices := [.failure f] }
  | .remark vs l => { reply := .ok .nothing, session := s, notices := [.remark l vs] }
  | .complain => { reply := .ok .nothing, session := s, notices := s.journal.complaints }
  | .explain f => { reply := .ok (.text (s.journal.explain f)), session := s }
  | .assertOk m =>
    match s.journal.failures with
    | [] => { reply := .ok .nothing, session := s }
    | f :: _ =>
      { reply := .error (.notOk (if m = "" then f.message else m))
        session := s
        notices := s.journal.complaints }
  | .reset => { reply := .ok .nothing, session := { s with journal := s.journal.clear } }
  | .status =>
    let j := s.journal
    { reply := .ok (.status j.ok j.sick j.exitStatus j.failures), session := s }

end Session

/-- All that can be seen of a step: its reply, what it wrote, and the session after it. -/
structure Answer where
  reply : Except Refusal Reply
  output : String
  chatter : String
  failures : Nat
  atHome : Bool
  scopes : List (String × List (String × Value))

namespace Session

def view (s : Session) : List (String × List (String × Value)) :=
  s.scopes.toList.map fun (a,i) => (a,(s.world.forest.bindings i).toList)

end Session

def Effect.answer (e : Effect) : Answer where
  reply := e.reply
  output := asLines (e.notices.filterMap Notice.line?)
  chatter := asLines (e.session.journal.shown e.notices)
  failures := e.session.journal.failures.length
  atHome := e.session.atHome
  scopes := e.session.view

def Session.play (s : Session) : List Step → List Effect
  | [] => []
  | t :: ts => let e := s.perform t; e :: e.session.play ts

def Session.answers (s : Session) (steps : List Step) : List Answer :=
  (s.play steps).map Effect.answer

end ScriptEval
