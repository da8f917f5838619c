import ScriptEval.Proofs.Assigning
import ScriptEval.Proofs.Chain
import ScriptEval.Proofs.RunInduction

/-! Programs change the scopes on the way out of the current scope and no others. Scopes are added,
but none is lost or moved. -/
namespace ScriptEval

open Forest

namespace Forest

theorem Follows.of_assigns {F G : Forest} {i : ScopeId} {ns : List String} (h : F.Assigns i ns G)
    (hi : i < F.size) : F.Follows i G := by
  induction h with
  | refl F => exact .refl F i
  | @define F G j n _ hj v _ ih =>
    have hi' : i < (F.define j n v).size := by rwa [size_define]
    exact (of_define (mem_path_of_resolve? hj) n v).trans hi (ih hi')

end Forest

theorem Expr.follows_eval {i : ScopeId} (e : Expr) {F : Forest} (hi : i < F.size) :
    F.Follows i (e.eval i F).forest := .of_assigns (e.assigns_eval i F) hi

def World.Inside (w : World) : Prop := w.current < w.forest.size

structure World.Follows (w w' : World) : Prop where
  current_eq : w'.current = w.current
  forest : w.forest.Follows w.current w'.forest

namespace World.Follows

variable {w w' w'' : World}

theorem refl (w : World) : w.Follows w := ⟨rfl,.refl _ _⟩

theorem inside (h : w.Follows w') (hw : w.Inside) : w'.Inside := by
  rw [Inside,h.current_eq]
  exact Nat.lt_of_lt_of_le hw h.forest.size_le

theorem trans (hw : w.Inside) (h : w.Follows w') (h' : w'.Follows w'') : w.Follows w'' where
  current_eq := h'.current_eq.trans h.current_eq
  forest := h.forest.trans hw (h.current_eq ▸ h'.forest)

theorem define (w : World) (t : Token) (v : Value) : w.Follows (w.define t v) :=
  ⟨rfl,.of_define (mem_path_self _ _) t.lexeme v⟩

theorem eval (e : Expr) (hw : w.Inside) :
    w.Follows { w with forest := (e.eval w.current w.forest).forest } :=
  ⟨rfl,e.follows_eval hw⟩

end World.Follows

namespace Run

theorem follows_evaluating {e : Expr} {w : World} {next : Value → World → Run} (hw : w.Inside)
    (h : ∀ v (w' : World), w'.Inside → w'.Follows (next v w').world) :
    w.Follows (evaluating e w next).world := by
  have he := World.Follows.eval e hw
  cases ho : (e.eval w.current w.forest).outcome with
  | ok v =>
    rw [evaluating_of_ok ho]
    exact he.trans hw (h v _ (he.inside hw))
  | error x => rw [evaluating_of_error ho]; exact he

theorem follows_andThen {w : World} {r : Run} {next : World → Run} (hw : w.Inside)
    (hr : w.Follows r.world) (h : ∀ w' : World, w'.Inside → w'.Follows (next w').world) :
    w.Follows (r.andThen next).world := by
  cases ho : r.outcome with
  | ok _ => rw [andThen_of_ok ho]; exact hr.trans hw (h _ (hr.inside hw))
  | error x => rw [andThen_of_error ho]; exact hr

theorem follows_inBlock {w : World} {body : World → Run} (hw : w.Inside)
    (h : ∀ w' : World, w'.Inside → w'.Follows (body w').world) : w.Follows (inBlock body w).world where
  current_eq := rfl
  forest := .of_grow hw (h ⟨w.forest.grow w.current,w.forest.size⟩ (by simp [World.Inside])).forest

theorem compositional_follows : Compositional fun w r => w.Inside → w.Follows r.world where
  done w _ := .refl w
  line w _ _ := .refl w
  define w t v _ := .define w t v
  hole w _ _ := .refl w
  evaluating _ _ _ h hw := follows_evaluating hw h
  andThen hr h hw := follows_andThen hw (hr hw) h
  inBlock _ _ h hw := follows_inBlock hw h

end Run

namespace Stmt

theorem follows_run (t : Stmt) {w : World} (hw : w.Inside) :
    w.forest.Follows w.current (t.run w).world.forest :=
  (Run.compositional_follows.run t w hw).forest

theorem follows_runAll (ts : List Stmt) {w : World} (hw : w.Inside) :
    w.forest.Follows w.current (runAll ts w).world.forest :=
  (Run.compositional_follows.runAll ts w hw).forest

end Stmt
end ScriptEval
