import ScriptEval.Forest
import ScriptEval.Text.Picture

/-! The journal of whoever drives the programs: the failures so far, how much is shown of what runs
make known, and the source that failures are shown in. -/
namespace ScriptEval

inductive Notice
  | line (text : String)
  | entering (depth : Nat) (names : List String)
  | leaving (depth : Nat) (names : List String)
  | failure (f : Failure)
  | stopped (completed : Nat)
  | finished (completed : Nat)
  | remark (level : Int) (values : List Value)
  | explained (f : Failure)

namespace Notice

/-- The least verbosity that shows the notice; none if it is shown at any. -/
def level? : Notice → Option Int
  | line _ | explained _ => none
  | entering .. | leaving .. => some 2
  | failure _ | stopped _ | finished _ => some 1
  | remark l _ => some l

def shownAt (verbosity : Int) (n : Notice) : Bool := n.level?.all (· ≤ verbosity)

def line? : Notice → Option String
  | line s => some s
  | _ => none

def text (explain : Failure → String) : Notice → String
  | line s => s
  | entering d ns => "Entering " ++ describeScope d ns
  | leaving d ns => "Leaving " ++ describeScope d ns
  | failure f => "Runtime error: " ++ f.message ++ " at " ++ quoted f.token.lexeme
  | stopped n => "Stopped after " ++ toString n ++ " statement(s)."
  | finished n => "Executed " ++ toString n ++ " statement(s)."
  | remark _ vs => " ".intercalate (vs.map Value.remark)
  | explained f => explain f

end Notice

namespace Failure

def caption (f : Failure) (given : String) : String := if given = "" then f.message else given

def picture? (f : Failure) (d : Sketcher) (source caption : String) : Option String :=
  f.token.offset.map fun i =>
    let (row,column) := d.place source i
    d.draw (d.line source row) column f.token.width (margin row) caption

end Failure

structure Journal where
  verbosity : Int := 0
  source : Option String := none
  failures : List Failure := []
  sketcher : Sketcher := .plain

/-- What a journal can be set up with. Where the source comes from is never shown. -/
structure Settings where
  verbosity : Option Int := none
  source : Option String := none
  path : Option String := none

def Settings.journal (g : Settings) (d : Sketcher := .plain) : Journal where
  verbosity := g.verbosity.getD 0
  source := g.source
  sketcher := d

namespace Journal

def ok (j : Journal) : Bool := j.failures.isEmpty

def sick (j : Journal) : Bool := !j.failures.isEmpty

/-- The status to end with: 70 tells that a program failed. -/
def exitStatus (j : Journal) : Nat := if j.ok then 0 else 70

def record (j : Journal) (f : Failure) : Journal := { j with failures := j.failures ++ [f] }

def clear (j : Journal) : Journal := { j with failures := [] }

/-- The text of a failure, with a picture below if the source and the place are known. -/
def explain (j : Journal) (f : Failure) : String :=
  match j.source.bind fun s => f.picture? j.sketcher s f.message with
  | some p => f.text ++ "\n" ++ p
  | none => f.text

def complaints (j : Journal) : List Notice := j.failures.map .explained

def shown (j : Journal) (ns : List Notice) : List String :=
  (ns.filter fun n => n.line?.isNone && n.shownAt j.verbosity).map (Notice.text j.explain)

end Journal

def asLines (texts : List String) : String := String.join (texts.map (· ++ "\n"))

end ScriptEval
