import ScriptEval.Expr.Eval

/-! What expressions do to the scopes that there are. They assign names, one after the other, each where
it is resolved to then, and do nothing else. So what every single assignment respects, every expression
respects. -/
namespace ScriptEval

namespace Forest

variable {F G H : Forest} {i j : ScopeId} {n : String} {ns ms : List String} {t : Token} {v : Value}

theorem mem_path_of_resolve? (h : F.resolve? i n = some j) : j ∈ F.path i := List.mem_of_find?_eq_some h

theorem mem_bindings_of_resolve? (h : F.resolve? i n = some j) : n ∈ F.bindings j := by
  simpa using List.find?_some h

theorem resolve?_eq_none_iff : F.resolve? i n = none ↔ ∀ j ∈ F.path i, n ∉ F.bindings j := by
  simp [resolve?,List.find?_eq_none]

theorem get?_eq_none_iff : F.get? i n = none ↔ F.resolve? i n = none := by
  simp [get?,resolve?,List.findSome?_eq_none_iff,List.find?_eq_none]

theorem assign?_eq_none_iff (v : Value) : F.assign? i n v = none ↔ F.resolve? i n = none :=
  Option.map_eq_none_iff

theorem write_of_resolve? (h : F.resolve? i t.lexeme = some j) (v : Value) :
    F.write i t v = .ok (F.define j t.lexeme v) := by
  simp only [write,assign?,h,Option.map_some]

theorem write_of_resolve?_eq_none (h : F.resolve? i t.lexeme = none) (v : Value) :
    F.write i t v = .error (.undefined t) := by
  simp only [write,assign?,h,Option.map_none]

/-- `G` comes after `F` by new values for some of the names `ns`, each in the scope that the name is
resolved to, seen from `i`. -/
inductive Assigns (i : ScopeId) (ns : List String) : Forest → Forest → Prop
  | refl (F : Forest) : Assigns i ns F F
  | define {F G : Forest} {j : ScopeId} {n : String} (hn : n ∈ ns) (hj : F.resolve? i n = some j)
      (v : Value) (h : Assigns i ns (F.define j n v) G) : Assigns i ns F G

namespace Assigns

theorem trans (h : F.Assigns i ns G) (h' : G.Assigns i ns H) : F.Assigns i ns H := by
  induction h with
  | refl F => exact h'
  | define hn hj v _ ih => exact .define hn hj v (ih h')

theorem mono (h : F.Assigns i ns G) (hs : ns ⊆ ms) : F.Assigns i ms G := by
  induction h with
  | refl F => exact .refl F
  | define hn hj v _ ih => exact .define (hs hn) hj v ih

theorem of_write (h : F.write i t v = .ok G) : F.Assigns i [t.lexeme] G := by
  cases hr : F.resolve? i t.lexeme with
  | none =>
    rw [write_of_resolve?_eq_none hr] at h
    cases h
  | some j =>
    rw [write_of_resolve? hr] at h
    obtain rfl := Except.ok.inj h
    exact .define (List.mem_singleton_self _) hr v (.refl _)

end Assigns
end Forest

open Forest

theorem Evaluation.assigns_andThen {F : Forest} {i : ScopeId} {ns : List String} {r : Evaluation}
    {next : Value → Forest → Evaluation} (h : F.Assigns i ns r.forest)
    (hn : ∀ v (G : Forest), G.Assigns i ns (next v G).forest) :
    F.Assigns i ns (r.andThen next).forest := by
  obtain ⟨_ | v,G⟩ := r
  · exact h
  · exact h.trans (hn v G)

namespace Expr

def assigned : Expr → List String
  | literal _ _ | name _ | hole _ => []
  | grouping e | unary _ e => e.assigned
  | binary l _ r => l.assigned ++ r.assigned
  | assign t e => t.lexeme :: e.assigned

theorem assigns_writeName (i : ScopeId) (t : Token) (v : Value) (F : Forest) :
    F.Assigns i [t.lexeme] (writeName i t v F).forest := by
  unfold writeName
  split
  · rename_i h
    exact .of_write h
  · exact .refl F

theorem assigns_eval (i : ScopeId) (e : Expr) (F : Forest) :
    F.Assigns i e.assigned (e.eval i F).forest := by
  induction e generalizing F with
  | literal v t => exact .refl F
  | grouping e ih => exact ih F
  | unary op r ih => exact Evaluation.assigns_andThen (ih F) fun _ G => .refl G
  | binary l op r ihl ihr =>
    refine Evaluation.assigns_andThen ((ihl F).mono (List.subset_append_left _ _)) fun _ G => ?_
    refine Evaluation.assigns_andThen ((ihr G).mono (List.subset_append_right _ _)) fun _ H => ?_
    exact .refl H
  | name t => exact .refl F
  | assign t e ih =>
    refine Evaluation.assigns_andThen ((ih F).mono (List.subset_cons_self _ _)) fun v G => ?_
    exact (assigns_writeName i t v G).mono (List.cons_subset_cons _ (List.nil_subset _))
  | hole h => exact .refl F

end Expr
end ScriptEval
