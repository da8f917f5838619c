import Mathlib.Data.List.Basic
import ScriptEval.Proofs.Reaching

/-! The order of evaluation. The nodes of an expression, those of its operands from left to right and then
its own, are a program for a machine that keeps operands and does for each node what that node does by
itself. The machine comes to what evaluating comes to: to the same value, or to the first node that halts,
and in both cases to the same scopes, with all that was assigned until then. -/
namespace ScriptEval

inductive Node
  | literal (value : Value)
  | grouping
  | unary (op : Token)
  | binary (op : Token)
  | name (token : Token)
  | assign (target : Token)
  | hole (h : Hole)

/-- The nodes of an expression: those of its operands from left to right, and then its own. -/
def Expr.postorder : Expr → List Node
  | literal v _ => [.literal v]
  | grouping e => e.postorder ++ [.grouping]
  | unary op r => r.postorder ++ [.unary op]
  | binary l op r => l.postorder ++ r.postorder ++ [.binary op]
  | name t => [.name t]
  | assign t e => e.postorder ++ [.assign t]
  | hole h => [.hole h]

/-- The values that wait for the node that takes them, the last one first, and the scopes as they are. -/
structure Machine where
  operands : List Value
  forest : Forest

/-- How far a machine comes: past its last node, to one that halts, or to one that lacks operands. -/
inductive Progress
  | past (m : Machine)
  | halted (x : Halt) (F : Forest)
  | stuck

namespace Progress

def andThen (p : Progress) (next : Machine → Progress) : Progress :=
  match p with
  | past m => next m
  | halted x F => halted x F
  | stuck => stuck

@[simp] theorem andThen_past (m : Machine) (next : Machine → Progress) :
    (past m).andThen next = next m := rfl

@[simp] theorem andThen_halted (x : Halt) (F : Forest) (next : Machine → Progress) :
    (halted x F).andThen next = halted x F := rfl

theorem andThen_eq_past_iff {p : Progress} {next : Machine → Progress} {m : Machine} :
    p.andThen next = past m ↔ ∃ m', p = past m' ∧ next m' = past m := by
  cases p <;> simp [andThen]

theorem andThen_eq_halted_iff {p : Progress} {next : Machine → Progress} {x : Halt} {F : Forest} :
    p.andThen next = halted x F ↔ p = halted x F ∨ ∃ m, p = past m ∧ next m = halted x F := by
  cases p <;> simp [andThen]

theorem andThen_assoc (p : Progress) (next next' : Machine → Progress) :
    (p.andThen next).andThen next' = p.andThen fun m => (next m).andThen next' := by
  cases p <;> rfl

def yield (left : List Value) (F : Forest) : Except Halt Value → Progress
  | .ok v => past ⟨v :: left,F⟩
  | .error x => halted x F

theorem yield_eq_halted {left : List Value} {F G : Forest} {o : Except Halt Value} {x : Halt}
    (h : yield left F o = halted x G) : G = F := by
  cases o with
  | ok v => cases h
  | error y => exact (halted.inj h).2.symm

end Progress

namespace Machine

/-- The step of one node in a scope: it takes its operands off and puts its value on. -/
def step (here : ScopeId) (m : Machine) (n : Node) : Progress :=
  match n, m.operands with
  | .literal v, σ => .past ⟨v :: σ,m.forest⟩
  | .grouping, v :: σ => .past ⟨v :: σ,m.forest⟩
  | .unary op, v :: σ => .yield σ m.forest (op.unary v)
  | .binary op, b :: a :: σ => .yield σ m.forest (op.binary a b)
  | .name t, σ => .yield σ m.forest ((m.forest.read here t).mapError .failed)
  | .assign t, v :: σ =>
    match m.forest.write here t v with
    | .ok F => .past ⟨v :: σ,F⟩
    | .error f => .halted (.failed f) m.forest
  | .hole h, _ => .halted (.hole h) m.forest
  | _, _ => .stuck

def run (here : ScopeId) : List Node → Machine → Progress
  | [], m => .past m
  | n :: ns, m => (m.step here n).andThen (run here ns)

variable {here : ScopeId} {m m' : Machine} {x : Halt} {F : Forest} {ns ns' : List Node} {n : Node}

theorem run_append (here : ScopeId) (ns ns' : List Node) (m : Machine) :
    run here (ns ++ ns') m = (run here ns m).andThen (run here ns') := by
  induction ns generalizing m with
  | nil => rfl
  | cons n ns ih =>
    have hn : run here (ns ++ ns') = fun m => (run here ns m).andThen (run here ns') := by
      funext m
      exact ih m
    simp only [List.cons_append,run,hn,Progress.andThen_assoc]

@[simp] theorem run_singleton (here : ScopeId) (n : Node) (m : Machine) :
    run here [n] m = m.step here n := by
  cases h : m.step here n <;> simp [run,h,Progress.andThen]

/-- Past a node in the middle: it has done its step, and so have all nodes before it and behind it. -/
theorem run_append_cons_eq_past (h : run here (ns ++ n :: ns') m = .past m') :
    ∃ m₁ m₂, run here ns m = .past m₁ ∧ m₁.step here n = .past m₂ ∧ run here ns' m₂ = .past m' := by
  rw [run_append] at h
  obtain ⟨m₁,h₁,h⟩ := Progress.andThen_eq_past_iff.mp h
  obtain ⟨m₂,h₂,h⟩ := Progress.andThen_eq_past_iff.mp h
  exact ⟨m₁,m₂,h₁,h₂,h⟩

/-- The machine halts at a node exactly when all nodes before that one have done their steps. -/
theorem run_eq_halted_iff : run here ns m = .halted x F ↔
    ∃ ns₁ n ns₂ m', ns = ns₁ ++ n :: ns₂ ∧ run here ns₁ m = .past m' ∧
      m'.step here n = .halted x F := by
  constructor
  · intro h
    induction ns generalizing m with
    | nil => cases h
    | cons n ns ih =>
      rcases Progress.andThen_eq_halted_iff.mp h with hn | ⟨m₁,hn,h⟩
      · exact ⟨[],n,ns,m,rfl,rfl,hn⟩
      · obtain ⟨ns₁,n',ns₂,m',rfl,h₁,h₂⟩ := ih h
        exact ⟨n :: ns₁,n',ns₂,m',rfl,Progress.andThen_eq_past_iff.mpr ⟨m₁,hn,h₁⟩,h₂⟩
  · rintro ⟨ns₁,n,ns₂,m',rfl,h₁,h₂⟩
    rw [run_append,h₁,Progress.andThen_past]
    exact Progress.andThen_eq_halted_iff.mpr (.inl h₂)

theorem step_eq_halted (h : m.step here n = .halted x F) : F = m.forest := by
  unfold step at h
  split at h
  · cases h
  · cases h
  · exact Progress.yield_eq_halted h
  · exact Progress.yield_eq_halted h
  · exact Progress.yield_eq_halted h
  · split at h
    · cases h
    · exact (Progress.halted.inj h).2.symm
  · exact (Progress.halted.inj h).2.symm
  · cases h

theorem step_assign_eq_past {t : Token} (h : m.step here (.assign t) = .past m') :
    ∃ v σ, m.operands = v :: σ ∧ m.forest.write here t v = .ok m'.forest ∧ m'.operands = v :: σ := by
  obtain ⟨_ | ⟨v,σ⟩,G⟩ := m
  · cases h
  · simp only [step] at h
    split at h
    · obtain rfl := Progress.past.inj h
      exact ⟨v,σ,rfl,‹_›,rfl⟩
    · cases h

end Machine

def Evaluation.progress (σ : List Value) (r : Evaluation) : Progress := .yield σ r.forest r.outcome

namespace Evaluation

variable {r : Evaluation} {σ τ : List Value}

/-- Going on with the value comes to what the machine comes to that goes on with it as an operand. -/
theorem progress_andThen {next : Value → Forest → Evaluation} {next' : Machine → Progress}
    (h : ∀ v F, next' ⟨v :: σ,F⟩ = (next v F).progress τ) :
    (r.progress σ).andThen next' = (r.andThen next).progress τ := by
  obtain ⟨_ | v,F⟩ := r
  · rfl
  · exact h v F

theorem progress_eq_halted_iff {x : Halt} {F : Forest} :
    r.progress σ = .halted x F ↔ r = ⟨.error x,F⟩ := by
  obtain ⟨_ | v,G⟩ := r <;> simp [progress,Progress.yield]

theorem progress_of_ok {v : Value} (h : r.outcome = .ok v) :
    r.progress σ = .past ⟨v :: σ,r.forest⟩ := by
  simp only [progress,h,Progress.yield]

theorem progress_of_error {x : Halt} (h : r.outcome = .error x) :
    r.progress σ = .halted x r.forest := by
  simp only [progress,h,Progress.yield]

end Evaluation

namespace Expr

open Machine

/-- The machine does with the nodes of an expression what evaluating it does. -/
theorem run_postorder (here : ScopeId) (e : Expr) (σ : List Value) (F : Forest) :
    run here e.postorder ⟨σ,F⟩ = (e.eval here F).progress σ := by
  induction e generalizing σ F with
  | literal v t => rfl
  | grouping e ih =>
    rw [postorder,run_append,ih,eval]
    cases h : (e.eval here F).outcome with
    | ok v => simp [Evaluation.progress_of_ok h,step]
    | error x => simp [Evaluation.progress_of_error h]
  | unary op r ih =>
    rw [postorder,run_append,ih]
    exact Evaluation.progress_andThen fun v G => run_singleton here (.unary op) ⟨v :: σ,G⟩
  | binary l op r ihl ihr =>
    rw [postorder,run_append,run_append,ihl,Progress.andThen_assoc]
    refine Evaluation.progress_andThen fun a G => ?_
    rw [ihr]
    exact Evaluation.progress_andThen fun b H => run_singleton here (.binary op) ⟨b :: a :: σ,H⟩
  | name t => exact run_singleton here (.name t) ⟨σ,F⟩
  | assign t e ih =>
    rw [postorder,run_append,ih]
    refine Evaluation.progress_andThen fun v G => ?_
    rw [run_singleton,writeName]
    simp only [step]
    cases G.write here t v <;> rfl
  | hole h => rfl

variable {here : ScopeId} {F G : Forest} {x : Halt}

theorem run_operands {l r : Expr} {a b : Value} (ha : (l.eval here F).outcome = .ok a)
    (hb : (r.eval here (l.eval here F).forest).outcome = .ok b) :
    run here (l.postorder ++ r.postorder) ⟨[],F⟩ =
      .past ⟨[b,a],(r.eval here (l.eval here F).forest).forest⟩ := by
  rw [run_append,run_postorder,Evaluation.progress_of_ok ha,Progress.andThen_past,run_postorder,
    Evaluation.progress_of_ok hb]

theorem eval_binary_of_ok {l r : Expr} {op : Token} {a b : Value}
    (ha : (l.eval here F).outcome = .ok a)
    (hb : (r.eval here (l.eval here F).forest).outcome = .ok b) :
    (binary l op r).eval here F = ⟨op.binary a b,(r.eval here (l.eval here F).forest).forest⟩ := by
  simp only [eval,Evaluation.andThen,ha,hb]

/-- An expression is evaluated by the steps of its nodes, and ends as the first one of them that halts. A
node halts in the scopes that the nodes before it leave, and changes nothing there. So when an operator
refuses its operands, all nodes of both of them have done their steps, and what these assigned stays. -/
theorem eval_by_postorder (here : ScopeId) :
    (∀ (e : Expr) (σ : List Value) (F : Forest),
      run here e.postorder ⟨σ,F⟩ = (e.eval here F).progress σ) ∧
    (∀ (e : Expr) (F G : Forest) (x : Halt), e.eval here F = ⟨.error x,G⟩ ↔
      ∃ ns n ns' m, e.postorder = ns ++ n :: ns' ∧ run here ns ⟨[],F⟩ = .past m ∧
        m.step here n = .halted x G ∧ m.forest = G) ∧
    (∀ (l r : Expr) (op : Token) (F : Forest) (x : Halt), (binary l op r).Halts here F x →
      ∃ a b G, run here (l.postorder ++ r.postorder) ⟨[],F⟩ = .past ⟨[b,a],G⟩ ∧
        op.binary a b = .error x ∧ (binary l op r).eval here F = ⟨.error x,G⟩ ∧
        ∀ ns t ns', l.postorder ++ r.postorder = ns ++ .assign t :: ns' →
          ∃ v σ H H', run here ns ⟨[],F⟩ = .past ⟨v :: σ,H⟩ ∧ H.write here t v = .ok H' ∧
            run here ns' ⟨v :: σ,H'⟩ = .past ⟨[b,a],G⟩) ∧
    ∀ (s : Session) (e : Expr), s.world.current = here →
      (∃ v G, run here e.postorder ⟨[],s.world.forest⟩ = .past ⟨[v],G⟩ ∧
        s.perform (.evaluate e) = { reply := .ok (.value v), session := s.setForest G }) ∨
      ∃ x G, run here e.postorder ⟨[],s.world.forest⟩ = .halted x G ∧
        s.perform (.evaluate e) = { reply := .error (.halted x), session := s.setForest G } := by
  refine ⟨run_postorder here,fun e F G x => ?_,fun l r op F x h => ?_,fun s e hs => ?_⟩
  · rw [← Evaluation.progress_eq_halted_iff (σ := []),← run_postorder,run_eq_halted_iff]
    constructor
    · rintro ⟨ns,n,ns',m,he,hm,hn⟩
      exact ⟨ns,n,ns',m,he,hm,hn,(step_eq_halted hn).symm⟩
    · rintro ⟨ns,n,ns',m,he,hm,hn,_⟩
      exact ⟨ns,n,ns',m,he,hm,hn⟩
  · obtain ⟨a,b,ha,hb,hx⟩ := h
    have hops := run_operands ha hb
    refine ⟨a,b,_,hops,hx,hx ▸ eval_binary_of_ok ha hb,fun ns t ns' hns => ?_⟩
    rw [hns] at hops
    obtain ⟨⟨τ,H⟩,⟨τ',H'⟩,h₁,h₂,h₃⟩ := run_append_cons_eq_past hops
    obtain ⟨v,σ,rfl,hw,rfl⟩ := step_assign_eq_past h₂
    exact ⟨v,σ,H,H',h₁,hw,h₃⟩
  · subst hs
    rw [run_postorder,Session.perform]
    cases h : (e.eval s.world.current s.world.forest).outcome with
    | ok v => exact .inl ⟨v,_,Evaluation.progress_of_ok h,rfl⟩
    | error x => exact .inr ⟨x,_,Evaluation.progress_of_error h,rfl⟩

/-- A name is assigned in the left operand and read in the right one, where it has the new value, and then
the operator refuses both. The new value stays. -/
theorem eval_by_postorder_refused :
    let x : Token := ⟨.identifier,"x",1,none⟩
    let minus : Token := ⟨.minus,"-",1,none⟩
    let l : Expr := .assign x (.literal (.bool true) none)
    let F := (World.fresh.define x .nil).forest
    (binary l minus (.name x)).Halts 0 F (.ofDemand minus .numbers) ∧
      ∃ G, run 0 [.literal (.bool true),.assign x,.name x] ⟨[],F⟩ = .past ⟨[.bool true,.bool true],G⟩ ∧
        (binary l minus (.name x)).eval 0 F = ⟨.error (.ofDemand minus .numbers),G⟩ ∧
        (G.bindings 0)[("x" : String)]? = some (.bool true) := by
  intro x minus l F
  have ha : (l.eval 0 F).outcome = .ok (.bool true) := by decide +kernel
  have hb : ((name x).eval 0 (l.eval 0 F).forest).outcome = .ok (.bool true) := by decide +kernel
  obtain ⟨a,b,G,hops,_,he,_⟩ := (eval_by_postorder 0).2.2.1 l (.name x) minus F _
    ⟨.bool true,.bool true,ha,hb,rfl⟩
  cases hops.symm.trans (run_operands ha hb)
  exact ⟨⟨.bool true,.bool true,ha,hb,rfl⟩,_,hops,he,by decide +kernel⟩

end Expr
end ScriptEval
