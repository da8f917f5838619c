import ScriptEval.Proofs.Places
import ScriptEval.Proofs.Resolving

/-! What failures tell. A failure comes from one expression of the program, whose own token it blames, and its
message is one that this kind of expression has. A name that is told to be undefined is bound nowhere on the
way out, where the failure arises and so also where the run started. -/
namespace ScriptEval

/-- The failures that an expression can have of itself, each with its own token to blame. -/
inductive Expr.CanFail : Expr → Failure → Prop
  | number {op : Token} {r : Expr} (h : op.kind = .minus) :
      CanFail (unary op r) (.operands op "Operand must be a number.")
  | numbersOrTexts {op : Token} {l r : Expr} (h : op.kind = .plus) :
      CanFail (binary l op r) (.operands op "Operands must be two numbers or two strings.")
  | numbers {op : Token} {l r : Expr}
      (h : op.kind ∈ [.minus,.slash,.star,.greater,.greaterEqual,.less,.lessEqual]) :
      CanFail (binary l op r) (.operands op "Operands must be numbers.")
  | name (t : Token) : CanFail (name t) (.undefined t)
  | assign (t : Token) (e : Expr) : CanFail (assign t e) (.undefined t)

theorem UnaryOp.kind_of_apply {k : Token.Kind} {f : UnaryOp} {v : Value} {d : Demand}
    (hk : ofKind? k = some f) (hd : f.apply v = .error d) : k = .minus ∧ d = .number := by
  have hf : f = .negate ∧ d = .number := by
    unfold apply at hd
    split at hd
    · cases hd
    · cases hd
      exact ⟨rfl,rfl⟩
    · cases hd
  obtain ⟨rfl,rfl⟩ := hf
  cases k <;> simp_all [ofKind?]

theorem BinaryOp.kind_of_apply {k : Token.Kind} {f : BinaryOp} {a b : Value} {d : Demand}
    (hk : ofKind? k = some f) (hd : f.apply a b = .error d) :
    k = .plus ∧ d = .numbersOrTexts ∨
      k ∈ [.minus,.slash,.star,.greater,.greaterEqual,.less,.lessEqual] ∧ d = .numbers := by
  have hf : f = .add ∧ d = .numbersOrTexts ∨ (∃ g, f = .onNumbers g) ∧ d = .numbers := by
    unfold apply at hd
    split at hd
    all_goals first | cases hd
    · exact .inl ⟨rfl,rfl⟩
    · exact .inr ⟨⟨_,rfl⟩,rfl⟩
  rcases hf with ⟨rfl,rfl⟩ | ⟨⟨g,rfl⟩,rfl⟩
  · left
    cases k <;> simp_all [ofKind?]
  · right
    cases k <;> simp_all [ofKind?]

/-- What the failure tells about a program with these parts, which was run in the scope `i` and left the
forest `G`. -/
structure Failure.Told (f : Failure) (parts : List Tree) (i : ScopeId) (G : Forest) : Prop where
  blamed : ∃ u : Expr, u.tree ∈ parts ∧ u.tree.head = .ok (some f.token) ∧ u.CanFail f
  unbound : ∀ t, f = .undefined t → f.message = "Undefined variable '" ++ t.lexeme ++ "'." ∧
    ∀ j ∈ G.path i, t.lexeme ∉ G.bindings j

namespace Expr

variable {i : ScopeId} {e u : Expr} {F : Forest} {f : Failure} {t : Token}

theorem Halts.canFail (h : u.Halts i F (.failed f)) : u.CanFail f := by
  cases u with
  | unary op r =>
    obtain ⟨v,_,hx⟩ := h
    rcases Token.unary_eq_error_iff.mp hx with ⟨k,d,hk,hd,hf⟩ | ⟨_,hf⟩
    · obtain ⟨hm,rfl⟩ := UnaryOp.kind_of_apply hk hd
      rw [Halt.failed.inj hf]
      exact .number hm
    · cases hf
  | binary l op r =>
    obtain ⟨a,b,_,_,hx⟩ := h
    rcases Token.binary_eq_error_iff.mp hx with ⟨k,d,hk,hd,hf⟩ | ⟨_,hf⟩
    · rw [Halt.failed.inj hf]
      rcases BinaryOp.kind_of_apply hk hd with ⟨hp,rfl⟩ | ⟨hn,rfl⟩
      · exact .numbersOrTexts hp
      · exact .numbers hn
    · cases hf
  | name s =>
    obtain ⟨_,hf⟩ := outcome_readName_eq_error_iff.mp h
    rw [Halt.failed.inj hf]
    exact .name s
  | assign s e =>
    obtain ⟨v,_,hx⟩ := h
    obtain ⟨_,hf⟩ := outcome_writeName_eq_error_iff.mp hx
    rw [Halt.failed.inj hf]
    exact .assign s e
  | hole o => cases h
  | literal v s => exact h.elim
  | grouping e => exact h.elim

/-- Where evaluating fails, one part of the expression can fail so, and its token is to blame. -/
theorem exists_canFail (h : (e.eval i F).outcome = .error (.failed f)) :
    ∃ u : Expr, u.tree ∈ e.tree.parts ∧ u.tree.head = .ok (some f.token) ∧ u.CanFail f := by
  obtain ⟨u,G,hr,hu⟩ := exists_reaches h
  exact ⟨u,hr.parts_subset u.tree.mem_parts_self,hu.head,hu.canFail⟩

end Expr

namespace Run

/-- If the run fails for an undefined name, the name is resolved to no scope in the end, seen from where the
run started. -/
def Unresolved (w : World) (r : Run) : Prop :=
  ∀ t, r.outcome = .error (.failed (.undefined t)) → r.world.forest.resolve? w.current t.lexeme = none

theorem unresolved_inBlock {w : World} {body : World → Run} (hw : w.Inside)
    (hf : ∀ w' : World, w'.Inside → w'.Follows (body w').world)
    (h : ∀ w' : World, w'.Inside → Unresolved w' (body w')) : Unresolved w (inBlock body w) := by
  intro t ht
  have hi := w.inside_grow
  have hlt : w.current < (w.forest.grow w.current).size := by
    rw [Forest.size_grow]
    exact Nat.lt_succ_of_lt hw
  have hG := (hf _ hi).forest
  have hr := Forest.resolve?_eq_none_iff.mp (h _ hi t ht)
  rw [hG.path_eq hi] at hr
  apply Forest.resolve?_eq_none_iff.mpr
  intro j hj
  have hp : j ∈ w.forest.path w.current := by
    rw [← Forest.path_grow_of_lt hw w.current,← hG.path_eq hlt]
    exact hj
  apply hr j
  rw [Forest.path,Forest.outer_grow_size]
  exact List.mem_cons_of_mem _ hp

theorem compositional_unresolved :
    Compositional fun w r => w.Inside → w.Follows r.world ∧ Unresolved w r where
  done w _ := ⟨.refl w,fun t ht => by cases ht⟩
  line w _ _ := ⟨.refl w,fun t ht => by cases ht⟩
  define w t v _ := ⟨.define w t v,fun t ht => by cases ht⟩
  hole w _ _ := ⟨.refl w,fun t ht => by cases ht⟩
  evaluating e w next h hw := by
    refine ⟨follows_evaluating hw fun v w' hw' => (h v w' hw').1,?_⟩
    have ho := e.overwrites_eval w.current w.forest
    cases he : (e.eval w.current w.forest).outcome with
    | ok v =>
      rw [evaluating_of_ok he]
      exact (h v _ ((World.Follows.eval e hw).inside hw)).2
    | error x =>
      rw [evaluating_of_error he]
      intro t ht
      obtain rfl := Except.error.inj ht
      exact (ho.resolve?_eq _ _).trans (Expr.resolve?_of_undefined he).2
  andThen {w r next} hr h hw := by
    obtain ⟨hf,hu⟩ := hr hw
    refine ⟨follows_andThen hw hf fun w' hw' => (h w' hw').1,?_⟩
    cases ho : r.outcome with
    | ok _ =>
      have hn := (h r.world (hf.inside hw)).2
      rw [andThen_of_ok ho]
      rwa [Unresolved,hf.current_eq] at hn
    | error x => rwa [andThen_of_error ho]
  inBlock w body h hw :=
    have hf (w' : World) (hw' : w'.Inside) : w'.Follows (body w').world := (h w' hw').1
    ⟨follows_inBlock hw hf,unresolved_inBlock hw hf fun w' hw' => (h w' hw').2⟩

end Run

namespace Stmt

variable {t u : Stmt} {ts : List Stmt} {w : World} {f : Failure}

theorem Halts.exists_canFail (h : u.Halts w (.failed f)) :
    ∃ e : Expr, e.tree ∈ u.tree.parts ∧ e.tree.head = .ok (some f.token) ∧ e.CanFail f := by
  rcases h with ⟨o,_,hx⟩ | ⟨e,he,hx⟩
  · cases hx
  · obtain ⟨u',hu,hh,hf⟩ := Expr.exists_canFail hx
    exact ⟨u',parts_operand he hu,hh,hf⟩

end Stmt

/-- A failure of a run from the world `w` is told rightly, if one of the parts can fail so. -/
theorem Run.Unresolved.told {r : Run} {w : World} {f : Failure} {parts : List Tree}
    (h : r.Unresolved w) (hf : r.outcome = .error (.failed f))
    (hu : ∃ u : Expr, u.tree ∈ parts ∧ u.tree.head = .ok (some f.token) ∧ u.CanFail f) :
    f.Told parts w.current r.world.forest where
  blamed := hu
  unbound t ht := by
    subst ht
    exact ⟨rfl,Forest.resolve?_eq_none_iff.mp (h t hf)⟩

/-- Whatever fails, an expression, a statement or a list of them, the token to blame is that of one expression
in it, and the failure is one that such an expression can have. If it is for an undefined name, then in the end
the name is bound nowhere on the way out of the scope that was current at the start, wherever in blocks and
branches the name was met. -/
theorem failures_told :
    (∀ (e : Expr) (i : ScopeId) (F : Forest) (f : Failure),
      (e.eval i F).outcome = .error (.failed f) → f.Told e.tree.parts i (e.eval i F).forest) ∧
    (∀ (t : Stmt) (w : World) (f : Failure), w.current < w.forest.size →
      (t.run w).outcome = .error (.failed f) →
      f.Told t.tree.parts w.current (t.run w).world.forest) ∧
    ∀ (ts : List Stmt) (w : World) (f : Failure), w.current < w.forest.size →
      (Stmt.runAll ts w).outcome = .error (.failed f) →
      f.Told (Tree.partsAll (Stmt.trees ts)) w.current (Stmt.runAll ts w).world.forest := by
  refine ⟨fun e i F f h => ⟨Expr.exists_canFail h,fun t ht => ?_⟩,fun t w f hw h => ?_,
    fun ts w f hw h => ?_⟩
  · subst ht
    refine ⟨rfl,Forest.resolve?_eq_none_iff.mp ?_⟩
    rw [(e.overwrites_eval i F).resolve?_eq]
    exact (Expr.resolve?_of_undefined h).2
  · have hr := (Run.compositional_unresolved.run t w hw).2
    refine hr.told h ?_
    obtain ⟨u,w',hu,hh⟩ := t.exists_reaches h
    obtain ⟨e,he,hd,hf⟩ := hh.exists_canFail
    exact ⟨e,hu.parts_subset he,hd,hf⟩
  · have hr := (Run.compositional_unresolved.runAll ts w hw).2
    refine hr.told h ?_
    obtain ⟨u,w',hu,hh⟩ := Stmt.exists_reachesIn ts h
    obtain ⟨e,he,hd,hf⟩ := hh.exists_canFail
    exact ⟨e,hu.parts_subset he,hd,hf⟩

theorem failures_told_nested :
    let name (n : String) : Token := ⟨.identifier,n,1,none⟩
    let assign : Stmt := .expression (.assign (name "x") (.name (name "y")))
    let t : Stmt := .block [.var (name "y") none,.ifThen (.literal (.bool true) none)
      (.block [assign] none)] none
    let w := World.fresh
    w.current < w.forest.size ∧
      (t.run w).outcome = .error (.failed (.undefined (name "x"))) ∧
      (Failure.undefined (name "x")).Told t.tree.parts w.current (t.run w).world.forest := by
  intro name assign t w
  have hw : w.current < w.forest.size := Nat.zero_lt_one
  have ht : (t.run w).outcome = .error (.failed (.undefined (name "x"))) := by decide +kernel
  exact ⟨hw,ht,failures_told.2.1 t w _ hw ht⟩

end ScriptEval
