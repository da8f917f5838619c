import ScriptEval.Proofs.Reaching

/-! What a program can halt for. Besides the failures of its operators and names there are two causes,
and both can be seen in the tree: an operator of a kind that has no meaning, and an open place. So a
program without these completes or fails, and a failure is caught. -/
namespace ScriptEval

theorem mapError_eq_error_iff {ε ε' α : Type} {f : ε → ε'} {p : Except ε α} {y : ε'} :
    p.mapError f = .error y ↔ ∃ x, p = .error x ∧ y = f x := by
  cases p with
  | ok a =>
    show Except.ok a = .error y ↔ _
    simp
  | error x =>
    show Except.error (f x) = .error y ↔ _
    simp [eq_comm]

namespace Token

def Kind.unary : List Kind := [.minus,.bang]

def Kind.binary : List Kind :=
  [.plus,.minus,.star,.slash,.equalEqual,.bangEqual,.greater,.greaterEqual,.less,.lessEqual]

theorem ofKind?_eq_none_iff_unary (k : Kind) : UnaryOp.ofKind? k = none ↔ k ∉ Kind.unary := by
  cases k <;> simp [UnaryOp.ofKind?,Kind.unary]

theorem ofKind?_eq_none_iff_binary (k : Kind) : BinaryOp.ofKind? k = none ↔ k ∉ Kind.binary := by
  cases k <;> simp [BinaryOp.ofKind?,Kind.binary]

variable {op : Token} {a b v : Value} {x : Halt}

/-- An operator refuses its operands, or it has no meaning whatever they are. -/
theorem unary_eq_error_iff : op.unary v = .error x ↔
    (∃ f d, UnaryOp.ofKind? op.kind = some f ∧ f.apply v = .error d ∧ x = .ofDemand op d) ∨
    op.kind ∉ Kind.unary ∧ x = .unsupported op.kind := by
  rw [← ofKind?_eq_none_iff_unary,unary]
  cases UnaryOp.ofKind? op.kind with
  | none => simp [eq_comm]
  | some f => simp [mapError_eq_error_iff]

theorem binary_eq_error_iff : op.binary a b = .error x ↔
    (∃ f d, BinaryOp.ofKind? op.kind = some f ∧ f.apply a b = .error d ∧ x = .ofDemand op d) ∨
    op.kind ∉ Kind.binary ∧ x = .unsupported op.kind := by
  rw [← ofKind?_eq_none_iff_binary,binary]
  cases BinaryOp.ofKind? op.kind with
  | none => simp [eq_comm]
  | some f => simp [mapError_eq_error_iff]

theorem unary_eq_unsupported_iff {k : Kind} :
    op.unary v = .error (.unsupported k) ↔ op.kind = k ∧ k ∉ Kind.unary := by
  simp only [unary_eq_error_iff,Halt.ofDemand,Halt.unsupported.injEq,reduceCtorEq,and_false,
    exists_false,false_or]
  constructor
  · rintro ⟨h,rfl⟩
    exact ⟨rfl,h⟩
  · rintro ⟨rfl,h⟩
    exact ⟨h,rfl⟩

theorem binary_eq_unsupported_iff {k : Kind} :
    op.binary a b = .error (.unsupported k) ↔ op.kind = k ∧ k ∉ Kind.binary := by
  simp only [binary_eq_error_iff,Halt.ofDemand,Halt.unsupported.injEq,reduceCtorEq,and_false,
    exists_false,false_or]
  constructor
  · rintro ⟨h,rfl⟩
    exact ⟨rfl,h⟩
  · rintro ⟨rfl,h⟩
    exact ⟨h,rfl⟩

end Token

namespace Tree

mutual

def parts : Tree → List Tree
  | literal v t => [literal v t]
  | grouping e => grouping e :: e.parts
  | unary op r => unary op r :: r.parts
  | binary l op r => binary l op r :: (l.parts ++ r.parts)
  | name t => [name t]
  | assign t e => assign t e :: e.parts
  | expression e => expression e :: e.parts
  | print e k => print e k :: e.parts
  | var t => [var t]
  | varTo t e => varTo t e :: e.parts
  | block body b => block body b :: partsAll body
  | ifThen c y => ifThen c y :: (c.parts ++ y.parts)
  | ifElse c y n => ifElse c y n :: (c.parts ++ y.parts ++ n.parts)
  | hole h => [hole h]

def partsAll : List Tree → List Tree
  | [] => []
  | t :: ts => t.parts ++ partsAll ts

end

theorem mem_parts_self (t : Tree) : t ∈ t.parts := by cases t <;> simp [parts]

def Supported : Tree → Prop
  | unary op _ => op.kind ∈ Token.Kind.unary
  | binary _ op _ => op.kind ∈ Token.Kind.binary
  | hole _ => False
  | _ => True

/-- What a tree can halt for. -/
inductive Cause (t : Tree) : Halt → Prop
  | operands (op : Token) (d : Demand) : Cause t (.failed (.operands op d.message))
  | undefined (name : Token) : Cause t (.failed (.undefined name))
  | unary {op : Token} {r : Tree} (h : unary op r ∈ t.parts) (hk : op.kind ∉ Token.Kind.unary) :
      Cause t (.unsupported op.kind)
  | binary {op : Token} {l r : Tree} (h : binary l op r ∈ t.parts)
      (hk : op.kind ∉ Token.Kind.binary) : Cause t (.unsupported op.kind)
  | hole {h : Hole} (hh : hole h ∈ t.parts) : Cause t (.hole h)

namespace Cause

variable {t u : Tree} {x : Halt}

theorem mono (h : u.Cause x) (hs : u.parts ⊆ t.parts) : t.Cause x := by
  cases h with
  | operands op d => exact .operands op d
  | undefined n => exact .undefined n
  | unary h hk => exact .unary (hs h) hk
  | binary h hk => exact .binary (hs h) hk
  | hole hh => exact .hole (hs hh)

theorem exists_failed (h : t.Cause x) (hs : ∀ u ∈ t.parts, u.Supported) : ∃ f, x = .failed f := by
  cases h with
  | operands op d => exact ⟨_,rfl⟩
  | undefined n => exact ⟨_,rfl⟩
  | unary h hk => exact absurd (hs _ h) hk
  | binary h hk => exact absurd (hs _ h) hk
  | hole hh => exact (hs _ hh).elim

end Cause
end Tree

namespace Expr

variable {here : ScopeId} {e u : Expr} {F G : Forest} {x : Halt} {k : Token.Kind}

theorem outcome_readName_eq_error_iff {t : Token} : (readName here t F).outcome = .error x ↔
    F.get? here t.lexeme = none ∧ x = .failed (.undefined t) := by
  unfold readName Forest.read
  cases F.get? here t.lexeme <;> simp [mapError_eq_error_iff]

theorem outcome_writeName_eq_error_iff {t : Token} {v : Value} :
    (writeName here t v F).outcome = .error x ↔
      F.assign? here t.lexeme v = none ∧ x = .failed (.undefined t) := by
  unfold writeName Forest.write
  cases F.assign? here t.lexeme v <;> simp [eq_comm]

/-- What an expression halts for of itself is to be seen at its root. -/
theorem Halts.cause (h : e.Halts here F x) : e.tree.Cause x := by
  have hself := e.tree.mem_parts_self
  cases e with
  | unary op r =>
    obtain ⟨v,_,hx⟩ := h
    rcases Token.unary_eq_error_iff.mp hx with ⟨f,d,_,_,rfl⟩ | ⟨hk,rfl⟩
    · exact .operands op d
    · exact .unary hself hk
  | binary l op r =>
    obtain ⟨a,b,_,_,hx⟩ := h
    rcases Token.binary_eq_error_iff.mp hx with ⟨f,d,_,_,rfl⟩ | ⟨hk,rfl⟩
    · exact .operands op d
    · exact .binary hself hk
  | name t =>
    obtain ⟨_,rfl⟩ := outcome_readName_eq_error_iff.mp h
    exact .undefined t
  | assign t e =>
    obtain ⟨v,_,hx⟩ := h
    obtain ⟨_,rfl⟩ := outcome_writeName_eq_error_iff.mp hx
    exact .undefined t
  | hole o =>
    obtain rfl : x = .hole o := h
    exact .hole hself
  | literal v t => exact h.elim
  | grouping e => exact h.elim

theorem Reaches.parts_subset (h : e.Reaches here F u G) : u.tree.parts ⊆ e.tree.parts := by
  induction h with
  | refl e F => exact List.Subset.refl _
  | grouping _ ih => exact List.subset_cons_of_subset _ ih
  | unary _ ih => exact List.subset_cons_of_subset _ ih
  | left _ ih => exact List.subset_cons_of_subset _ (List.subset_append_of_subset_left _ ih)
  | right _ _ ih => exact List.subset_cons_of_subset _ (List.subset_append_of_subset_right _ ih)
  | assign _ ih => exact List.subset_cons_of_subset _ ih

theorem cause_of_outcome (h : (e.eval here F).outcome = .error x) : e.tree.Cause x := by
  obtain ⟨u,G,hr,hu⟩ := exists_reaches h
  exact hu.cause.mono hr.parts_subset

/-- The operator at the root has no meaning, and all its operands have values, of whatever kind. -/
def Meaningless (here : ScopeId) (F : Forest) (k : Token.Kind) : Expr → Prop
  | unary op r => op.kind = k ∧ k ∉ Token.Kind.unary ∧ ∃ v, (r.eval here F).outcome = .ok v
  | binary l op r => op.kind = k ∧ k ∉ Token.Kind.binary ∧ ∃ a b,
      (l.eval here F).outcome = .ok a ∧ (r.eval here (l.eval here F).forest).outcome = .ok b
  | _ => False

theorem halts_unsupported_iff : e.Halts here F (.unsupported k) ↔ e.Meaningless here F k := by
  cases e with
  | unary op r =>
    simp only [Halts,Meaningless,Token.unary_eq_unsupported_iff]
    constructor
    · rintro ⟨v,hv,hk,hn⟩
      exact ⟨hk,hn,v,hv⟩
    · rintro ⟨hk,hn,v,hv⟩
      exact ⟨v,hv,hk,hn⟩
  | binary l op r =>
    simp only [Halts,Meaningless,Token.binary_eq_unsupported_iff]
    constructor
    · rintro ⟨a,b,ha,hb,hk,hn⟩
      exact ⟨hk,hn,a,b,ha,hb⟩
    · rintro ⟨hk,hn,a,b,ha,hb⟩
      exact ⟨a,b,ha,hb,hk,hn⟩
  | name t => simp [Halts,Meaningless,outcome_readName_eq_error_iff]
  | assign t e => simp [Halts,Meaningless,outcome_writeName_eq_error_iff]
  | hole o => simp [Halts,Meaningless]
  | literal v t => simp [Halts,Meaningless]
  | grouping e => simp [Halts,Meaningless]

end Expr

namespace Stmt

variable {t u : Stmt} {ts : List Stmt} {w w' : World} {x : Halt}

theorem parts_operand {e : Expr} (h : t.operand? = some e) : e.tree.parts ⊆ t.tree.parts := by
  cases t with
  | expression e' =>
    obtain rfl : e' = e := Option.some.inj h
    exact List.subset_cons_self _ _
  | print e' k =>
    obtain rfl : e' = e := Option.some.inj h
    exact List.subset_cons_self _ _
  | var n i =>
    cases i with
    | none => cases h
    | some e' =>
      obtain rfl : e' = e := Option.some.inj h
      exact List.subset_cons_self _ _
  | ifThen c y =>
    obtain rfl : c = e := Option.some.inj h
    exact List.subset_cons_of_subset _ (List.subset_append_left _ _)
  | ifElse c y n =>
    obtain rfl : c = e := Option.some.inj h
    refine List.subset_cons_of_subset _ (List.subset_append_of_subset_left _ ?_)
    exact List.subset_append_left _ _
  | block body b => cases h
  | hole o => cases h

mutual

theorem Reaches.parts_subset : ∀ {t u : Stmt} {w w' : World}, t.Reaches w u w' →
    u.tree.parts ⊆ t.tree.parts
  | _, _, _, _, .refl _ _ => List.Subset.refl _
  | _, _, _, _, .block h => List.subset_cons_of_subset _ h.parts_subset
  | _, _, _, _, .ifThen _ _ h =>
    List.subset_cons_of_subset _ (List.subset_append_of_subset_right _ h.parts_subset)
  | _, _, _, _, .ifElse (v := v) _ h => by
    have h := h.parts_subset
    refine List.subset_cons_of_subset _ ?_
    split at h
    · exact List.subset_append_of_subset_left _ (List.subset_append_of_subset_right _ h)
    · exact List.subset_append_of_subset_right _ h

theorem ReachesIn.parts_subset : ∀ {ts : List Stmt} {u : Stmt} {w w' : World},
    ReachesIn ts w u w' → u.tree.parts ⊆ Tree.partsAll (trees ts)
  | _, _, _, _, .head h => List.subset_append_of_subset_left _ h.parts_subset
  | _, _, _, _, .tail _ h => List.subset_append_of_subset_right _ h.parts_subset

end

theorem Halts.cause (h : t.Halts w x) : t.tree.Cause x := by
  rcases h with ⟨o,rfl,rfl⟩ | ⟨e,he,hx⟩
  · exact .hole (Tree.mem_parts_self _)
  · exact (Expr.cause_of_outcome hx).mono (parts_operand he)

theorem cause_of_outcome (h : (t.run w).outcome = .error x) : t.tree.Cause x := by
  obtain ⟨u,w',hr,hu⟩ := exists_reaches t h
  exact hu.cause.mono hr.parts_subset

theorem cause_of_outcome_runAll (h : (runAll ts w).outcome = .error x) :
    (Tree.block (trees ts) none).Cause x := by
  obtain ⟨u,w',hr,hu⟩ := exists_reachesIn ts h
  exact hu.cause.mono (List.subset_cons_of_subset _ hr.parts_subset)

def Misuses (w : World) (k : Token.Kind) (t : Stmt) : Prop :=
  ∃ e u G, t.operand? = some e ∧ e.Reaches w.current w.forest u G ∧ u.Meaningless w.current G k

theorem halts_unsupported_iff {k : Token.Kind} : t.Halts w (.unsupported k) ↔ t.Misuses w k := by
  constructor
  · rintro (⟨o,_,h⟩ | ⟨e,he,hx⟩)
    · cases h
    · obtain ⟨u,G,hr,hu⟩ := Expr.exists_reaches hx
      exact ⟨e,u,G,he,hr,Expr.halts_unsupported_iff.mp hu⟩
  · rintro ⟨e,u,G,he,hr,hu⟩
    exact .inr ⟨e,he,hr.outcome (Expr.halts_unsupported_iff.mpr hu).outcome⟩

end Stmt

namespace Session

/-- A program of supported nodes completes or fails: nothing passes through. -/
theorem reply_interpret_of_supported {program : List Stmt}
    (h : ∀ u ∈ Tree.partsAll (Stmt.trees program), u.Supported) (s : Session) :
    (s.interpret program).reply = .ok (.flag true) ∨
      (s.interpret program).reply = .ok (.flag false) := by
  rcases (Stmt.runAll program s.world).outcome_cases with ho | ⟨f,ho⟩ | ⟨x,hx,ho⟩
  · left
    rw [interpret_of_ok ho]
  · right
    rw [interpret_of_failed ho]
  · have hs : ∀ u ∈ (Tree.block (Stmt.trees program) none).parts, u.Supported := by
      intro u hu
      rcases List.mem_cons.mp hu with rfl | hu
      · trivial
      · exact h u hu
    obtain ⟨f,hf⟩ := (Stmt.cause_of_outcome_runAll ho).exists_failed hs
    exact absurd hf (hx f)

/-- Expressions and statements end with success or for a cause that their tree shows, and programs
of supported nodes are told to have completed or failed. A run ends for an operator without meaning
exactly when it comes to one that has values to be applied to, whatever these are. -/
theorem causes_to_halt :
    (∀ (e : Expr) (i : ScopeId) (F : Forest), (∃ v, (e.eval i F).outcome = .ok v) ∨
      ∃ x, (e.eval i F).outcome = .error x ∧ e.tree.Cause x) ∧
    (∀ (t : Stmt) (w : World), (t.run w).outcome = .ok () ∨
      ∃ x, (t.run w).outcome = .error x ∧ t.tree.Cause x) ∧
    (∀ program : List Stmt, (∀ u ∈ Tree.partsAll (Stmt.trees program), u.Supported) →
      ∀ s : Session, (s.interpret program).reply = .ok (.flag true) ∨
        (s.interpret program).reply = .ok (.flag false)) ∧
    (∀ (e : Expr) (i : ScopeId) (F : Forest) (k : Token.Kind),
      (e.eval i F).outcome = .error (.unsupported k) ↔
        ∃ u G, e.Reaches i F u G ∧ u.Meaningless i G k) ∧
    (∀ (t : Stmt) (w : World) (k : Token.Kind), (t.run w).outcome = .error (.unsupported k) ↔
      ∃ u w', t.Reaches w u w' ∧ u.Misuses w' k) ∧
    ∀ (ts : List Stmt) (w : World) (k : Token.Kind),
      (Stmt.runAll ts w).outcome = .error (.unsupported k) ↔
        ∃ u w', Stmt.ReachesIn ts w u w' ∧ u.Misuses w' k := by
  refine ⟨fun e i F => ?_,fun t w => ?_,fun _ h s => reply_interpret_of_supported h s,
    fun e i F k => ?_,fun t w k => ?_,fun ts w k => ?_⟩
  · cases h : (e.eval i F).outcome with
    | ok v => exact .inl ⟨v,rfl⟩
    | error x => exact .inr ⟨x,rfl,Expr.cause_of_outcome h⟩
  · cases h : (t.run w).outcome with
    | ok _ => exact .inl rfl
    | error x => exact .inr ⟨x,rfl,Stmt.cause_of_outcome h⟩
  · simp only [Expr.outcome_eq_error_iff,Expr.halts_unsupported_iff]
  · simp only [Stmt.outcome_run_eq_error_iff,Stmt.halts_unsupported_iff]
  · simp only [Stmt.outcome_runAll_eq_error_iff,Stmt.halts_unsupported_iff]

theorem causes_to_halt_supported :
    let plus : Token := ⟨.plus,"+",1,none⟩
    let sum : Expr := .binary (.literal .nil none) plus (.literal (.bool true) none)
    let program : List Stmt := [.block [.print (.grouping sum) none] none]
    (∀ u ∈ Tree.partsAll (Stmt.trees program), u.Supported) ∧
      ((start 0 none).interpret program).reply ≠ .ok (.flag true) ∧
      ((start 0 none).interpret program).reply = .ok (.flag false) := by
  intro plus sum program
  have hs : ∀ u ∈ Tree.partsAll (Stmt.trees program), u.Supported := by
    simp [program,sum,plus,Stmt.trees,Stmt.tree,Expr.tree,Tree.partsAll,Tree.parts,Tree.Supported,
      Token.Kind.binary]
  have hne : ((start 0 none).interpret program).reply ≠ .ok (.flag true) := fun h => by cases h
  exact ⟨hs,hne,(causes_to_halt.2.2.1 program hs (start 0 none)).resolve_left hne⟩

end Session
end ScriptEval
