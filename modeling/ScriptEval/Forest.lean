import ScriptEval.Token
import ScriptEval.Value
import Std.Data.ExtTreeMap

/-! Scopes and what they lie in. A scope holds its own bindings and the identifiers of all scopes
around it; a forest only grows, and a name means the nearest binding on the way out. -/
namespace ScriptEval

abbrev ScopeId := Nat

abbrev Bindings := Std.ExtTreeMap String Value

/-- A scope: its own bindings, and the scopes around it, the nearest first. -/
structure Scope where
  bindings : Bindings := ∅
  outer : List ScopeId := []

/-- All scopes made so far. The identifier of a scope is the number of those made before it. -/
structure Forest where
  scopes : Array Scope := #[]

namespace Forest

def size (F : Forest) : Nat := F.scopes.size

def scope (F : Forest) (i : ScopeId) : Scope := F.scopes[i]?.getD {}

def bindings (F : Forest) (i : ScopeId) : Bindings := (F.scope i).bindings

def outer (F : Forest) (i : ScopeId) : List ScopeId := (F.scope i).outer

def enclosing? (F : Forest) (i : ScopeId) : Option ScopeId := (F.outer i).head?

/-- The way out: the scope itself, then those around it. -/
def path (F : Forest) (i : ScopeId) : List ScopeId := i :: F.outer i

def depth (F : Forest) (i : ScopeId) : Nat := (F.outer i).length

def names (F : Forest) (i : ScopeId) : List String := (F.bindings i).keys

/-- The nearest scope on the way out that binds the name. -/
def resolve? (F : Forest) (i : ScopeId) (n : String) : Option ScopeId :=
  (F.path i).find? fun j => n ∈ F.bindings j

def get? (F : Forest) (i : ScopeId) (n : String) : Option Value :=
  (F.path i).findSome? fun j => (F.bindings j)[n]?

def define (F : Forest) (i : ScopeId) (n : String) (v : Value) : Forest where
  scopes := F.scopes.modify i fun s => { s with bindings := s.bindings.insert n v }

/-- Replaces the nearest binding on the way out, and makes none if there is none. -/
def assign? (F : Forest) (i : ScopeId) (n : String) (v : Value) : Option Forest :=
  (F.resolve? i n).map fun j => F.define j n v

/-- Adds an empty scope within the given one, or one that lies in no other. -/
def grow (F : Forest) (around : Option ScopeId) : Forest where
  scopes := F.scopes.push { outer := around.elim [] F.path }

@[simp] theorem size_define (F : Forest) (i : ScopeId) (n : String) (v : Value) :
    (F.define i n v).size = F.size := by simp [size,define]

@[simp] theorem size_grow (F : Forest) (a : Option ScopeId) : (F.grow a).size = F.size + 1 := by
  simp [size,grow]

@[simp] theorem outer_define (F : Forest) (i j : ScopeId) (n : String) (v : Value) :
    (F.define i n v).outer j = F.outer j := by
  simp only [outer,scope,define,Array.getElem?_modify]
  split
  · cases F.scopes[j]? <;> rfl
  · rfl

@[simp] theorem path_define (F : Forest) (i j : ScopeId) (n : String) (v : Value) :
    (F.define i n v).path j = F.path j := by simp [path]

theorem bindings_define_self {F : Forest} {i : ScopeId} (h : i < F.size) (n : String) (v : Value) :
    (F.define i n v).bindings i = (F.bindings i).insert n v := by
  have h : i < F.scopes.size := h
  simp [bindings,scope,define,Array.getElem_modify,h]

theorem bindings_define_of_ne (F : Forest) {i j : ScopeId} (h : i ≠ j) (n : String) (v : Value) :
    (F.define i n v).bindings j = F.bindings j := by
  simp [bindings,scope,define,Array.getElem?_modify,h]

theorem scope_grow_of_lt {F : Forest} {i : ScopeId} (h : i < F.size) (a : Option ScopeId) :
    (F.grow a).scope i = F.scope i := by
  have h : i < F.scopes.size := h
  simp [scope,grow,Array.getElem?_push,Nat.ne_of_lt h]

@[simp] theorem scope_grow_size (F : Forest) (a : Option ScopeId) :
    (F.grow a).scope F.size = { outer := a.elim [] F.path } := by
  simp [scope,grow,size]

def read (F : Forest) (i : ScopeId) (t : Token) : Except Failure Value :=
  match F.get? i t.lexeme with
  | some v => .ok v
  | none => .error (.undefined t)

def write (F : Forest) (i : ScopeId) (t : Token) (v : Value) : Except Failure Forest :=
  match F.assign? i t.lexeme v with
  | some G => .ok G
  | none => .error (.undefined t)

end Forest

def describeScope (depth : Nat) (names : List String) : String :=
  "<Environment depth=" ++ toString depth ++ " [" ++ ", ".intercalate (names.map quoted) ++ "]>"

end ScriptEval
