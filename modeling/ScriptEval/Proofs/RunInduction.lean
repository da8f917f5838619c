import ScriptEval.Proofs.Outcome

/-! Induction over runs. A property that holds of what single statements do, and that evaluating, going on and
blocks pass on, holds of every run. So on every way out of a block the scope is current again that was before. -/
namespace ScriptEval

/-- A property of a run and the world it starts in that the parts of a program pass on. -/
structure Run.Compositional (P : World → Run → Prop) : Prop where
  done (w : World) : P w (Run.done w)
  line (w : World) (s : String) : P w ⟨.ok (),w,[.line s]⟩
  define (w : World) (t : Token) (v : Value) : P w (Run.done (w.define t v))
  hole (w : World) (h : Hole) : P w ⟨.error (.hole h),w,[]⟩
  evaluating (e : Expr) (w : World) {next : Value → World → Run}
    (h : ∀ v w', P w' (next v w')) : P w (Run.evaluating e w next)
  andThen {w : World} {r : Run} {next : World → Run} (hr : P w r) (h : ∀ w', P w' (next w')) :
    P w (r.andThen next)
  inBlock (w : World) {body : World → Run} (h : ∀ w', P w' (body w')) : P w (Run.inBlock body w)

namespace Run.Compositional

variable {P : World → Run → Prop}

mutual

theorem run (h : Compositional P) : ∀ (t : Stmt) (w : World), P w (t.run w)
  | .expression e, w => by
    rw [Stmt.run]
    exact h.evaluating e w fun _ w' => h.done w'
  | .print e _, w => by
    rw [Stmt.run]
    exact h.evaluating e w fun v w' => h.line w' v.display
  | .var t none, w => by
    rw [Stmt.run]
    exact h.define w t .nil
  | .var t (some e), w => by
    rw [Stmt.run]
    exact h.evaluating e w fun v w' => h.define w' t v
  | .block body _, w => by
    rw [Stmt.run]
    exact h.inBlock w (runAll h body)
  | .ifThen c y, w => by
    rw [Stmt.run]
    refine h.evaluating c w fun v w' => ?_
    split
    · exact run h y w'
    · exact h.done w'
  | .ifElse c y n, w => by
    rw [Stmt.run]
    refine h.evaluating c w fun v w' => ?_
    split
    · exact run h y w'
    · exact run h n w'
  | .hole o, w => by
    rw [Stmt.run]
    exact h.hole w o

theorem runAll (h : Compositional P) : ∀ (ts : List Stmt) (w : World), P w (Stmt.runAll ts w)
  | [], w => by
    rw [Stmt.runAll]
    exact h.done w
  | t :: ts, w => by
    rw [Stmt.runAll]
    exact h.andThen (run h t w) (runAll h ts)

end

end Run.Compositional

namespace Run

/-- What is true of every line, and of the notices at both ends of a block, is true of all that a run
makes known. -/
theorem compositional_notices {P : Notice → Prop} (hline : ∀ s, P (.line s))
    (hentering : ∀ d ns, P (.entering d ns)) (hleaving : ∀ d ns, P (.leaving d ns)) :
    Compositional fun _ r => ∀ n ∈ r.notices, P n where
  done _ := by simp [done]
  line _ s := by simpa using hline s
  define _ _ _ := by simp [done]
  hole _ _ := by simp
  evaluating e w next h := by
    cases he : (e.eval w.current w.forest).outcome with
    | ok v =>
      rw [evaluating_of_ok he]
      exact h v _
    | error x =>
      rw [evaluating_of_error he]
      simp
  andThen {w r next} hr h := by
    cases ho : r.outcome with
    | ok _ =>
      rw [andThen_of_ok ho]
      exact List.forall_mem_append.mpr ⟨hr,h r.world⟩
    | error x => rwa [andThen_of_error ho]
  inBlock w body h := by
    refine List.forall_mem_append.mpr ⟨List.forall_mem_cons.mpr ⟨hentering _ _,h _⟩,?_⟩
    exact List.forall_mem_singleton.mpr (hleaving _ _)


theorem current_andThen {r : Run} {next : World → Run}
    (h : ∀ w, (next w).world.current = w.current) :
    (r.andThen next).world.current = r.world.current := by
  cases hr : r.outcome with
  | ok _ => rw [andThen_of_ok hr]; exact h r.world
  | error x => rw [andThen_of_error hr]

theorem current_evaluating {e : Expr} {w : World} {next : Value → World → Run}
    (h : ∀ v w, (next v w).world.current = w.current) :
    (evaluating e w next).world.current = w.current := by
  cases he : (e.eval w.current w.forest).outcome with
  | ok v => rw [evaluating_of_ok he,h]
  | error x => rw [evaluating_of_error he]

theorem compositional_current : Compositional fun w r => r.world.current = w.current where
  done _ := rfl
  line _ _ := rfl
  define _ _ _ := rfl
  hole _ _ := rfl
  evaluating _ _ _ h := current_evaluating h
  andThen hr h := (current_andThen h).trans hr
  inBlock _ _ _ := rfl

end Run

namespace Stmt

@[simp] theorem current_run (t : Stmt) (w : World) : (t.run w).world.current = w.current :=
  Run.compositional_current.run t w

@[simp] theorem current_runAll (ts : List Stmt) (w : World) :
    (runAll ts w).world.current = w.current :=
  Run.compositional_current.runAll ts w

end Stmt
end ScriptEval
