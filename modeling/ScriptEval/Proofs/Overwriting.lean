import ScriptEval.Proofs.Assigning
import ScriptEval.Proofs.Chain
import ScriptEval.Proofs.Causes

/-! Expressions only overwrite. They bind no name and add no scope, and a name that is assigned gets its new
value in the scope that it was resolved to from the start. So a name is undefined when the evaluation comes
to it if it was undefined before. -/
namespace ScriptEval

namespace Forest

/-- `G` comes after `F` by new values for names that are bound, each in the scope that the name is resolved
to, seen from `i`. -/
structure Overwrites (F : Forest) (i : ScopeId) (G : Forest) : Prop where
  size_eq : G.size = F.size
  outer_eq : ∀ j, G.outer j = F.outer j
  mem_iff : ∀ j n, n ∈ G.bindings j ↔ n ∈ F.bindings j
  kept : ∀ j n, F.resolve? i n ≠ some j → (G.bindings j)[n]? = (F.bindings j)[n]?

namespace Overwrites

variable {F G H : Forest} {i : ScopeId}

theorem refl (F : Forest) (i : ScopeId) : F.Overwrites i F :=
  ⟨rfl,fun _ => rfl,fun _ _ => Iff.rfl,fun _ _ _ => rfl⟩

theorem path_eq (h : F.Overwrites i G) (j : ScopeId) : G.path j = F.path j := by
  rw [path,h.outer_eq j,path]

theorem resolve?_eq (h : F.Overwrites i G) (j : ScopeId) (n : String) :
    G.resolve? j n = F.resolve? j n := by
  have hp : (fun k => decide (n ∈ G.bindings k)) = fun k => decide (n ∈ F.bindings k) := by
    funext k
    exact decide_eq_decide.mpr (h.mem_iff k n)
  rw [resolve?,resolve?,h.path_eq j,hp]

theorem trans (h : F.Overwrites i G) (h' : G.Overwrites i H) : F.Overwrites i H where
  size_eq := h'.size_eq.trans h.size_eq
  outer_eq j := (h'.outer_eq j).trans (h.outer_eq j)
  mem_iff j n := (h'.mem_iff j n).trans (h.mem_iff j n)
  kept j n hn := by
    have hG : G.resolve? i n ≠ some j := by rwa [h.resolve?_eq]
    exact (h'.kept j n hG).trans (h.kept j n hn)

theorem of_define {j : ScopeId} {n : String} (hj : F.resolve? i n = some j) (v : Value) :
    F.Overwrites i (F.define j n v) where
  size_eq := size_define F j n v
  outer_eq k := outer_define F j k n v
  mem_iff k m := by
    have hn : n ∈ F.bindings j := mem_bindings_of_resolve? hj
    rw [mem_bindings_define,or_iff_right_iff_imp]
    rintro ⟨_,rfl,rfl⟩
    exact hn
  kept k m hm := by
    rw [getElem?_bindings_define,if_neg]
    rintro ⟨_,rfl,rfl⟩
    exact hm hj

theorem of_assigns {ns : List String} (h : F.Assigns i ns G) : F.Overwrites i G := by
  induction h with
  | refl F => exact .refl F i
  | define _ hj v _ ih => exact (of_define hj v).trans ih

end Overwrites
end Forest

namespace Expr

theorem overwrites_eval (i : ScopeId) (e : Expr) (F : Forest) :
    F.Overwrites i (e.eval i F).forest := .of_assigns (e.assigns_eval i F)

variable {i : ScopeId} {e u : Expr} {F G : Forest} {t : Token}

theorem Reaches.overwrites (h : e.Reaches i F u G) : F.Overwrites i G := by
  induction h with
  | refl e F => exact .refl F i
  | grouping _ ih | unary _ ih | left _ ih | assign _ ih => exact ih
  | @right op l r u F G a _ _ ih => exact (l.overwrites_eval i F).trans ih

/-- A part fails of itself for an undefined name if it reads or assigns the name, after the new value was
found, and the name is resolved to no scope. -/
theorem halts_undefined_iff : u.Halts i F (.failed (.undefined t)) ↔
    (u = name t ∨ ∃ e v, u = assign t e ∧ (e.eval i F).outcome = .ok v) ∧
      F.resolve? i t.lexeme = none := by
  cases u with
  | name s =>
    simp only [Halts,outcome_readName_eq_error_iff,Forest.get?_eq_none_iff]
    constructor
    · rintro ⟨hs,h⟩
      cases h
      exact ⟨.inl rfl,hs⟩
    · rintro ⟨hs | ⟨_,_,hs,_⟩,h⟩
      · cases hs
        exact ⟨h,rfl⟩
      · cases hs
  | assign s e =>
    have hr := (e.overwrites_eval i F).resolve?_eq i s.lexeme
    simp only [Halts,outcome_writeName_eq_error_iff,Forest.assign?_eq_none_iff,hr]
    constructor
    · rintro ⟨v,hv,hs,h⟩
      cases h
      exact ⟨.inr ⟨e,v,rfl,hv⟩,hs⟩
    · rintro ⟨hs | ⟨_,v,hs,hv⟩,h⟩
      · cases hs
      · cases hs
        exact ⟨v,hv,h,rfl⟩
  | unary op r =>
    simp [Halts,Token.unary_eq_error_iff,Halt.ofDemand]
  | binary l op r => simp [Halts,Token.binary_eq_error_iff,Halt.ofDemand]
  | hole o => simp [Halts]
  | literal v s => simp [Halts]
  | grouping e => simp [Halts]

end Expr
end ScriptEval
