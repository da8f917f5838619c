import ScriptEval.Proofs.Assigning
import ScriptEval.Proofs.Chain
import ScriptEval.Proofs.Outcome

/-! The names that programs write. A name that a program neither assigns nor declares is bound as it
was before, in every scope. -/
namespace ScriptEval

namespace Forest

/-- `G` binds the name where `F` does, and to the same values. -/
def Keeps (F : Forest) (n : String) (G : Forest) : Prop :=
  ∀ i, (G.bindings i)[n]? = (F.bindings i)[n]?

namespace Keeps

variable {F G H : Forest} {n : String}

theorem refl (F : Forest) (n : String) : F.Keeps n F := fun _ => rfl

theorem trans (h : F.Keeps n G) (h' : G.Keeps n H) : F.Keeps n H :=
  fun i => (h' i).trans (h i)

theorem of_define (F : Forest) (i : ScopeId) {m : String} (hm : n ≠ m) (v : Value) :
    F.Keeps n (F.define i m v) := by
  intro j
  rw [getElem?_bindings_define,if_neg fun h => hm h.2.2.symm]

theorem of_grow {a : Option ScopeId} (h : (F.grow a).Keeps n G) : F.Keeps n G := by
  intro i
  rw [h i,bindings_grow]

theorem of_assigns {i : ScopeId} {ns : List String} (h : F.Assigns i ns G) (hn : n ∉ ns) :
    F.Keeps n G := by
  induction h with
  | refl F => exact .refl F n
  | define hm _ v _ ih => exact (of_define _ _ (ne_of_mem_of_not_mem hm hn).symm v).trans ih

end Keeps
end Forest

theorem Expr.keeps_eval {n : String} (i : ScopeId) {e : Expr} (hn : n ∉ e.assigned) (F : Forest) :
    F.Keeps n (e.eval i F).forest := .of_assigns (e.assigns_eval i F) hn

namespace Run

variable {n : String} {w : World}

theorem keeps_evaluating {e : Expr} {next : Value → World → Run} (hn : n ∉ e.assigned)
    (h : ∀ v (w' : World), w'.forest.Keeps n (next v w').world.forest) :
    w.forest.Keeps n (evaluating e w next).world.forest := by
  have he := e.keeps_eval w.current hn w.forest
  cases ho : (e.eval w.current w.forest).outcome with
  | ok v =>
    rw [evaluating_of_ok ho]
    exact he.trans (h v _)
  | error x =>
    rw [evaluating_of_error ho]
    exact he

theorem keeps_andThen {r : Run} {next : World → Run} (hr : w.forest.Keeps n r.world.forest)
    (h : ∀ w' : World, w'.forest.Keeps n (next w').world.forest) :
    w.forest.Keeps n (r.andThen next).world.forest := by
  cases ho : r.outcome with
  | ok _ =>
    rw [andThen_of_ok ho]
    exact hr.trans (h r.world)
  | error x =>
    rw [andThen_of_error ho]
    exact hr

end Run

namespace Stmt

mutual

def written : Stmt → List String
  | expression e | print e _ => e.assigned
  | var t none => [t.lexeme]
  | var t (some e) => t.lexeme :: e.assigned
  | block body _ => writtenAll body
  | ifThen c y => c.assigned ++ y.written
  | ifElse c y n => c.assigned ++ (y.written ++ n.written)
  | hole _ => []

def writtenAll : List Stmt → List String
  | [] => []
  | t :: ts => t.written ++ writtenAll ts

end

variable {n : String}

mutual

theorem keeps_run : ∀ {t : Stmt}, n ∉ t.written → ∀ w : World,
    w.forest.Keeps n (t.run w).world.forest
  | expression e, hn, w => by
    rw [run]
    exact Run.keeps_evaluating hn fun _ w' => .refl w'.forest n
  | print e _, hn, w => by
    rw [run]
    exact Run.keeps_evaluating hn fun _ w' => .refl w'.forest n
  | var t none, hn, w => by
    rw [run]
    exact .of_define w.forest w.current (List.ne_of_not_mem_cons hn) .nil
  | var t (some e), hn, w => by
    obtain ⟨ht,he⟩ := not_or.mp (mt List.mem_cons.mpr hn)
    rw [run]
    exact Run.keeps_evaluating he fun v w' => .of_define w'.forest w'.current ht v
  | block body _, hn, w => by
    rw [run]
    exact .of_grow (keeps_runAll hn ⟨w.forest.grow w.current,w.forest.size⟩)
  | ifThen c y, hn, w => by
    obtain ⟨hc,hy⟩ := not_or.mp (mt List.mem_append.mpr hn)
    rw [run]
    refine Run.keeps_evaluating hc fun v w' => ?_
    split
    · exact keeps_run hy w'
    · exact .refl w'.forest n
  | ifElse c y o, hn, w => by
    obtain ⟨hc,hyo⟩ := not_or.mp (mt List.mem_append.mpr hn)
    obtain ⟨hy,ho⟩ := not_or.mp (mt List.mem_append.mpr hyo)
    rw [run]
    refine Run.keeps_evaluating hc fun v w' => ?_
    split
    · exact keeps_run hy w'
    · exact keeps_run ho w'
  | hole h, _, w => by
    rw [run]
    exact .refl w.forest n

/-- What a program does not write is bound as before, however the program ends. -/
theorem keeps_runAll : ∀ {ts : List Stmt}, n ∉ writtenAll ts → ∀ w : World,
    w.forest.Keeps n (runAll ts w).world.forest
  | [], _, w => by
    rw [runAll]
    exact .refl w.forest n
  | t :: ts, hn, w => by
    obtain ⟨ht,hts⟩ := not_or.mp (mt List.mem_append.mpr hn)
    rw [runAll]
    exact Run.keeps_andThen (keeps_run ht w) (keeps_runAll hts)

end

end Stmt
end ScriptEval
