import ScriptEval.Proofs.Causes
import ScriptEval.Session

/-! Groupings make no difference. Once a tree is there, all readers of it look through a grouping at what is
grouped: the one that looks for a token to point at, and the ones that evaluate and run. So a program with
all groupings taken out does what it did. -/
namespace ScriptEval

namespace Tree

mutual

/-- The tree with what is grouped in place of each grouping, at every depth. -/
def ungroup : Tree → Tree
  | literal v t => literal v t
  | grouping e => e.ungroup
  | unary op r => unary op r.ungroup
  | binary l op r => binary l.ungroup op r.ungroup
  | name t => name t
  | assign t e => assign t e.ungroup
  | expression e => expression e.ungroup
  | print e k => print e.ungroup k
  | var t => var t
  | varTo t e => varTo t e.ungroup
  | block body b => block (ungroupAll body) b
  | ifThen c y => ifThen c.ungroup y.ungroup
  | ifElse c y n => ifElse c.ungroup y.ungroup n.ungroup
  | hole h => hole h

def ungroupAll : List Tree → List Tree
  | [] => []
  | t :: ts => t.ungroup :: ungroupAll ts

end

def isGrouping : Tree → Bool
  | grouping _ => true
  | _ => false

@[simp] theorem head_ungroup (t : Tree) : t.ungroup.head = t.head := by
  fun_induction head t with
  | case3 e ih | case4 e ih | case5 e ih => simpa [ungroup,head] using ih
  | _ => simp_all [ungroup,head]

theorem isGrouping_ungroup : ∀ t : Tree, t.ungroup.isGrouping = false
  | grouping e => by
    rw [ungroup]
    exact isGrouping_ungroup e
  | literal .. | unary .. | binary .. | name .. | assign .. | expression .. | print .. | var ..
  | varTo .. | block .. | ifThen .. | ifElse .. | hole .. => by simp [ungroup,isGrouping]

mutual

theorem parts_ungroup : ∀ t : Tree,
    t.ungroup.parts = (t.parts.filter (!·.isGrouping)).map ungroup
  | literal v t | name t | var t | hole h => by simp [ungroup,parts,isGrouping]
  | grouping e => by simp [ungroup,parts,isGrouping,parts_ungroup e]
  | unary op e | assign op e | expression e | print e op | varTo op e => by
    simp [ungroup,parts,isGrouping,parts_ungroup e]
  | binary l op r | ifThen l r => by
    simp [ungroup,parts,isGrouping,parts_ungroup l,parts_ungroup r]
  | ifElse c y n => by
    simp [ungroup,parts,isGrouping,parts_ungroup c,parts_ungroup y,parts_ungroup n]
  | block body b => by simp [ungroup,parts,isGrouping,partsAll_ungroupAll body]

theorem partsAll_ungroupAll : ∀ ts : List Tree,
    partsAll (ungroupAll ts) = ((partsAll ts).filter (!·.isGrouping)).map ungroup
  | [] => rfl
  | t :: ts => by simp [ungroupAll,partsAll,parts_ungroup t,partsAll_ungroupAll ts]

end

theorem isGrouping_of_mem_parts_ungroup {t u : Tree} (h : u ∈ t.ungroup.parts) :
    u.isGrouping = false := by
  rw [parts_ungroup] at h
  obtain ⟨v,_,rfl⟩ := List.mem_map.mp h
  exact isGrouping_ungroup v

end Tree

namespace Expr

def ungroup : Expr → Expr
  | literal v t => literal v t
  | grouping e => e.ungroup
  | unary op r => unary op r.ungroup
  | binary l op r => binary l.ungroup op r.ungroup
  | name t => name t
  | assign t e => assign t e.ungroup
  | hole h => hole h

@[simp] theorem tree_ungroup (e : Expr) : e.ungroup.tree = e.tree.ungroup := by
  induction e <;> simp_all [ungroup,tree,Tree.ungroup]

@[simp] theorem eval_ungroup (e : Expr) (i : ScopeId) (F : Forest) :
    e.ungroup.eval i F = e.eval i F := by
  induction e generalizing F with
  | grouping e ih => simp [ungroup,eval,ih]
  | unary op r ih => simp [ungroup,eval,ih]
  | binary l op r ihl ihr => simp [ungroup,eval,ihl,ihr]
  | assign t e ih => simp [ungroup,eval,ih]
  | literal | name | hole => rfl

end Expr

@[simp] theorem Run.evaluating_ungroup (e : Expr) : evaluating e.ungroup = evaluating e := by
  funext w next
  simp [evaluating]

namespace Stmt

mutual

def ungroup : Stmt → Stmt
  | expression e => expression e.ungroup
  | print e k => print e.ungroup k
  | var t e => var t (e.map Expr.ungroup)
  | block body b => block (ungroupAll body) b
  | ifThen c y => ifThen c.ungroup y.ungroup
  | ifElse c y n => ifElse c.ungroup y.ungroup n.ungroup
  | hole h => hole h

def ungroupAll : List Stmt → List Stmt
  | [] => []
  | t :: ts => t.ungroup :: ungroupAll ts

end

mutual

@[simp] theorem tree_ungroup : ∀ t : Stmt, t.ungroup.tree = t.tree.ungroup
  | expression e | print e _ => by simp [ungroup,tree,Tree.ungroup]
  | var t none | var t (some e) => by simp [ungroup,tree,Tree.ungroup]
  | block body b => by simp [ungroup,tree,Tree.ungroup,trees_ungroupAll body]
  | ifThen c y => by simp [ungroup,tree,Tree.ungroup,tree_ungroup y]
  | ifElse c y n => by simp [ungroup,tree,Tree.ungroup,tree_ungroup y,tree_ungroup n]
  | hole h => by simp [ungroup,tree,Tree.ungroup]

@[simp] theorem trees_ungroupAll : ∀ ts : List Stmt, trees (ungroupAll ts) = Tree.ungroupAll (trees ts)
  | [] => rfl
  | t :: ts => by simp [ungroupAll,trees,Tree.ungroupAll,tree_ungroup t,trees_ungroupAll ts]

end

mutual

@[simp] theorem run_ungroup : ∀ t : Stmt, t.ungroup.run = t.run
  | expression e | print e _ => by
    funext w
    simp [ungroup,run]
  | var t none | var t (some e) => by
    funext w
    simp [ungroup,run]
  | block body b => by
    funext w
    simp [ungroup,run,runAll_ungroupAll body]
  | ifThen c y => by
    funext w
    simp [ungroup,run,run_ungroup y]
  | ifElse c y n => by
    funext w
    simp [ungroup,run,run_ungroup y,run_ungroup n]
  | hole h => by
    funext w
    simp [ungroup,run]

@[simp] theorem runAll_ungroupAll : ∀ ts : List Stmt, runAll (ungroupAll ts) = runAll ts
  | [] => rfl
  | t :: ts => by
    funext w
    simp [ungroupAll,runAll,run_ungroup t,runAll_ungroupAll ts]

end

@[simp] theorem runCounting_ungroupAll (ts : List Stmt) (w : World) :
    runCounting (ungroupAll ts) w = runCounting ts w := by
  induction ts generalizing w with
  | nil => rfl
  | cons t ts ih => simp [ungroupAll,runCounting,ih]

end Stmt

def Step.ungroup : Step → Step
  | interpret p => interpret (Stmt.ungroupAll p)
  | evaluate e => evaluate e.ungroup
  | execute t => execute t.ungroup
  | executeIn a body => executeIn a (Stmt.ungroupAll body)
  | t => t

namespace Session

@[simp] theorem perform_ungroup (s : Session) (t : Step) : s.perform t.ungroup = s.perform t := by
  cases t with
  | interpret p => simp [Step.ungroup,perform,interpret]
  | evaluate e => simp [Step.ungroup,perform]
  | execute t => simp [Step.ungroup,perform]
  | executeIn a body => simp [Step.ungroup,perform]
  | _ => rfl

theorem play_map_ungroup (s : Session) (ts : List Step) : s.play (ts.map Step.ungroup) = s.play ts := by
  induction ts generalizing s with
  | nil => rfl
  | cons t ts ih => simp [play,ih]

/-- Where all groupings are taken out of a tree, the other nodes are left, in the same order, and the token to
point at is the one it was, if the tree has one at all. Expressions, statements and programs then do what
they did, in every scope and all scopes: they end alike, make the same known and leave the same bindings.
So in every session, whatever its verbosity, all steps reply, write and record the same. -/
theorem groupings_unseen :
    (∀ t : Tree, (∀ u ∈ t.ungroup.parts, u.isGrouping = false) ∧
      t.ungroup.parts = (t.parts.filter (!·.isGrouping)).map Tree.ungroup ∧
      t.ungroup.head = t.head) ∧
    (∀ e : Expr, e.ungroup.tree = e.tree.ungroup ∧ ∀ i F, e.ungroup.eval i F = e.eval i F) ∧
    (∀ t : Stmt, t.ungroup.tree = t.tree.ungroup ∧ ∀ w, t.ungroup.run w = t.run w) ∧
    (∀ ts : List Stmt, Stmt.trees (Stmt.ungroupAll ts) = Tree.ungroupAll (Stmt.trees ts) ∧
      ∀ w, Stmt.runAll (Stmt.ungroupAll ts) w = Stmt.runAll ts w) ∧
    ∀ (s : Session) (ts : List Step), s.play (ts.map Step.ungroup) = s.play ts ∧
      s.answers (ts.map Step.ungroup) = s.answers ts := by
  refine ⟨fun t => ⟨fun u => Tree.isGrouping_of_mem_parts_ungroup,t.parts_ungroup,t.head_ungroup⟩,
    fun e => ⟨e.tree_ungroup,e.eval_ungroup⟩,
    fun t => ⟨t.tree_ungroup,fun w => by rw [Stmt.run_ungroup]⟩,
    fun ts => ⟨Stmt.trees_ungroupAll ts,fun w => by rw [Stmt.runAll_ungroupAll]⟩,fun s ts => ?_⟩
  exact ⟨s.play_map_ungroup ts,by rw [answers,play_map_ungroup,answers]⟩

end Session
end ScriptEval
