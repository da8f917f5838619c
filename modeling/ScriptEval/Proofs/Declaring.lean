import ScriptEval.Proofs.Chain
import ScriptEval.Proofs.Follow

/-! Which names are bound where. A statement binds new names in the current scope only, and only
those that it declares outside of any block; elsewhere it gives new values to names that are bound. -/
namespace ScriptEval

namespace Forest

/-- `G` comes after `F`: in its old scopes it binds the names that `F` binds, and in the scope `i`
besides these some of the names `ns`. -/
structure Declares (F : Forest) (i : ScopeId) (ns : List String) (G : Forest) : Prop where
  size_le : F.size ≤ G.size
  kept : ∀ j < F.size, ∀ n, n ∈ F.bindings j → n ∈ G.bindings j
  added : ∀ j < F.size, ∀ n, n ∈ G.bindings j → n ∈ F.bindings j ∨ j = i ∧ n ∈ ns

namespace Declares

variable {F G H : Forest} {i j : ScopeId} {ns ms : List String}

theorem refl (F : Forest) (i : ScopeId) (ns : List String) : F.Declares i ns F :=
  ⟨Nat.le_refl _,fun _ _ _ h => h,fun _ _ _ h => .inl h⟩

theorem trans (h : F.Declares i ns G) (h' : G.Declares i ms H) : F.Declares i (ns ++ ms) H where
  size_le := Nat.le_trans h.size_le h'.size_le
  kept j hj n hn := h'.kept j (Nat.lt_of_lt_of_le hj h.size_le) n (h.kept j hj n hn)
  added j hj n hn := by
    rcases h'.added j (Nat.lt_of_lt_of_le hj h.size_le) n hn with hn | ⟨rfl,hn⟩
    · rcases h.added j hj n hn with hn | ⟨hi,hn⟩
      · exact .inl hn
      · exact .inr ⟨hi,List.mem_append_left _ hn⟩
    · exact .inr ⟨rfl,List.mem_append_right _ hn⟩

theorem mono (h : F.Declares i ns G) (hs : ns ⊆ ms) : F.Declares i ms G where
  size_le := h.size_le
  kept := h.kept
  added j hj n hn := (h.added j hj n hn).imp_right fun h => ⟨h.1,hs h.2⟩

theorem of_define (F : Forest) (i : ScopeId) (n : String) (v : Value) :
    F.Declares i [n] (F.define i n v) where
  size_le := Nat.le_of_eq (size_define F i n v).symm
  kept j _ m hm := (mem_bindings_define F i j n m v).mpr (.inr hm)
  added j _ m hm := by
    rcases (mem_bindings_define F i j n m v).mp hm with ⟨_,rfl,rfl⟩ | hm
    · exact .inr ⟨rfl,List.mem_singleton_self _⟩
    · exact .inl hm

theorem of_redefine {n : String} (hn : n ∈ F.bindings j) (i : ScopeId) (v : Value) :
    F.Declares i [] (F.define j n v) where
  size_le := Nat.le_of_eq (size_define F j n v).symm
  kept k _ m hm := (mem_bindings_define F j k n m v).mpr (.inr hm)
  added k _ m hm := by
    rcases (mem_bindings_define F j k n m v).mp hm with ⟨_,rfl,rfl⟩ | hm
    · exact .inl hn
    · exact .inl hm

/-- Whatever is declared in a new scope, no old scope has it. -/
theorem of_grow {a : Option ScopeId} (h : (F.grow a).Declares F.size ns G) (i : ScopeId) :
    F.Declares i [] G where
  size_le := Nat.le_trans (by rw [size_grow]; exact Nat.le_succ _) h.size_le
  kept j hj n hn :=
    h.kept j (by rw [size_grow]; exact Nat.lt_succ_of_lt hj) n (by rwa [bindings_grow])
  added j hj n hn := by
    rcases h.added j (by rw [size_grow]; exact Nat.lt_succ_of_lt hj) n hn with hn | ⟨rfl,_⟩
    · rw [bindings_grow] at hn
      exact .inl hn
    · exact absurd hj (Nat.lt_irrefl _)

theorem mem_iff (h : F.Declares i ns G) (hj : j < F.size) (hn : j ≠ i ∨ ns = []) (n : String) :
    n ∈ G.bindings j ↔ n ∈ F.bindings j := by
  refine ⟨fun hG => ?_,h.kept j hj n⟩
  rcases h.added j hj n hG with hF | ⟨rfl,hns⟩
  · exact hF
  · rcases hn with hn | rfl
    · exact absurd rfl hn
    · exact absurd hns List.not_mem_nil

theorem of_assigns (h : F.Assigns i ms G) : F.Declares i [] G := by
  induction h with
  | refl F => exact .refl F i []
  | define _ hj v _ ih => exact (of_redefine (mem_bindings_of_resolve? hj) i v).trans ih

end Declares
end Forest

theorem Expr.declares_eval (i : ScopeId) (e : Expr) (F : Forest) :
    F.Declares i [] (e.eval i F).forest := .of_assigns (e.assigns_eval i F)

namespace Run

variable {w : World} {ns ms : List String}

theorem declares_evaluating {e : Expr} {next : Value → World → Run}
    (h : ∀ v (w' : World), w'.current = w.current →
      w'.forest.Declares w.current ns (next v w').world.forest) :
    w.forest.Declares w.current ns (evaluating e w next).world.forest := by
  have he := e.declares_eval w.current w.forest
  cases ho : (e.eval w.current w.forest).outcome with
  | ok v =>
    rw [evaluating_of_ok ho]
    exact he.trans (h v { w with forest := (e.eval w.current w.forest).forest } rfl)
  | error x =>
    rw [evaluating_of_error ho]
    exact he.mono (List.nil_subset ns)

theorem declares_andThen {r : Run} {next : World → Run} (hc : r.world.current = w.current)
    (hr : w.forest.Declares w.current ns r.world.forest)
    (h : ∀ w' : World, w'.forest.Declares w'.current ms (next w').world.forest) :
    w.forest.Declares w.current (ns ++ ms) (r.andThen next).world.forest := by
  cases ho : r.outcome with
  | ok _ =>
    have hn := h r.world
    rw [hc] at hn
    rw [andThen_of_ok ho]
    exact hr.trans hn
  | error x =>
    rw [andThen_of_error ho]
    exact hr.mono (List.subset_append_left ns ms)

theorem declares_inBlock {body : World → Run}
    (h : ∀ w' : World, w'.forest.Declares w'.current ns (body w').world.forest) :
    w.forest.Declares w.current [] (inBlock body w).world.forest :=
  (h ⟨w.forest.grow w.current,w.forest.size⟩).of_grow w.current

end Run

namespace Stmt

/-- The names that the statement declares in the scope it runs in: those of its declarations that
are not in a block. -/
def declared : Stmt → List String
  | var t _ => [t.lexeme]
  | ifThen _ y => y.declared
  | ifElse _ y n => y.declared ++ n.declared
  | _ => []

mutual

theorem declares_run : ∀ (t : Stmt) (w : World),
    w.forest.Declares w.current t.declared (t.run w).world.forest
  | expression e, w => by
    rw [run]
    exact Run.declares_evaluating fun _ w' _ => .refl w'.forest _ _
  | print e _, w => by
    rw [run]
    exact Run.declares_evaluating fun _ w' _ => .refl w'.forest _ _
  | var t none, w => by
    rw [run]
    exact .of_define w.forest w.current t.lexeme .nil
  | var t (some e), w => by
    rw [run]
    exact Run.declares_evaluating fun v w' hc => hc ▸ .of_define w'.forest w'.current t.lexeme v
  | block body _, w => by
    rw [run]
    exact Run.declares_inBlock (declares_runAll body)
  | ifThen c y, w => by
    rw [run]
    refine Run.declares_evaluating fun v w' hc => ?_
    split
    · exact hc ▸ declares_run y w'
    · exact .refl w'.forest _ _
  | ifElse c y n, w => by
    rw [run]
    refine Run.declares_evaluating fun v w' hc => ?_
    split
    · exact hc ▸ (declares_run y w').mono (List.subset_append_left _ _)
    · exact hc ▸ (declares_run n w').mono (List.subset_append_right _ _)
  | hole h, w => by
    rw [run]
    exact .refl w.forest _ _

theorem declares_runAll : ∀ (ts : List Stmt) (w : World),
    w.forest.Declares w.current (ts.flatMap declared) (runAll ts w).world.forest
  | [], w => by
    rw [runAll]
    exact .refl w.forest _ _
  | t :: ts, w => by
    rw [runAll,List.flatMap_cons]
    exact Run.declares_andThen (current_run t w) (declares_run t w) (declares_runAll ts)

end

/-- However a statement ends, the scopes that there were bind the names they bound, and only the
current one may bind others: names that the statement declares outside of any block. So blocks
bind nothing in any scope that there was. -/
theorem names_run (t : Stmt) (w : World) (hw : w.current < w.forest.size) :
    let G := (t.run w).world.forest
    (∀ i < w.forest.size, i ≠ w.current → ∀ n, n ∈ G.bindings i ↔ n ∈ w.forest.bindings i) ∧
    (∀ i < w.forest.size, ∀ n, n ∈ w.forest.bindings i → n ∈ G.bindings i) ∧
    (∀ n, n ∈ G.bindings w.current → n ∈ w.forest.bindings w.current ∨ n ∈ t.declared) ∧
    ∀ (body : List Stmt) (brace : Option Token), t = .block body brace →
      ∀ i < w.forest.size, ∀ n, n ∈ G.bindings i ↔ n ∈ w.forest.bindings i := by
  intro G
  have h : w.forest.Declares w.current t.declared G := declares_run t w
  refine ⟨fun i hi hne => h.mem_iff hi (.inl hne),h.kept,fun n hn => ?_,fun body brace ht i hi => ?_⟩
  · exact (h.added w.current hw n hn).imp_right And.right
  · subst t
    exact h.mem_iff hi (.inr rfl)

theorem names_run_branch :
    let x : Token := ⟨.identifier,"x",1,none⟩
    let y : Token := ⟨.identifier,"y",1,none⟩
    let minus : Token := ⟨.minus,"-",1,none⟩
    let yes : Stmt := .block [.var x none,.expression (.unary minus (.literal .nil none))] none
    let t : Stmt := .ifElse (.literal (.bool true) none) yes (.var y none)
    World.fresh.current < World.fresh.forest.size ∧
      (t.run World.fresh).outcome = .error (.ofDemand minus .number) ∧ t.declared = ["y"] ∧
      ∀ n, n ∈ (t.run World.fresh).world.forest.bindings World.fresh.current →
        n ∈ World.fresh.forest.bindings World.fresh.current ∨ n ∈ ["y"] := by
  intro x y minus yes t
  have hw : World.fresh.current < World.fresh.forest.size := Nat.zero_lt_one
  exact ⟨hw,rfl,rfl,(names_run t World.fresh hw).2.2.1⟩

end Stmt
end ScriptEval
