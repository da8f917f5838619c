import ScriptEval.Proofs.Moments
import ScriptEval.Proofs.StackRefinement

/-! Blocks that declare nothing of their own. The scope of such a block stays empty, and an empty scope on the
way out makes no difference to programs: names mean what they meant, and what is declared further in stays
further in. So the statements of the block do what they do without it. -/
namespace ScriptEval

namespace Stack

/-- The second stack has one more scope, which binds nothing, below the first `d` ones. -/
inductive Pads : Nat → Stack → Stack → Prop
  | here (σ : Stack) : Pads 0 σ (∅ :: σ)
  | under {d : Nat} {σ τ : Stack} (m : Bindings) (h : Pads d σ τ) : Pads (d + 1) (m :: σ) (m :: τ)

variable {d : Nat} {σ τ : Stack}

namespace Pads

theorem get?_eq (h : Pads d σ τ) (n : String) : get? τ n = get? σ n := by
  induction h with
  | here σ => simp [get?]
  | under m _ ih =>
    simp only [get?,List.findSome?_cons] at ih ⊢
    rw [ih]

theorem assign? (h : Pads d σ τ) (n : String) (v : Value) :
    Option.Rel (Pads d) (assign? n v σ) (assign? n v τ) := by
  induction h with
  | here σ =>
    have hn : n ∉ (∅ : Bindings) := Std.ExtTreeMap.not_mem_empty
    simp only [Stack.assign?,if_neg hn]
    cases Stack.assign? n v σ with
    | none => exact .none
    | some ρ => exact .some (.here ρ)
  | @under d σ τ m h ih =>
    simp only [Stack.assign?]
    by_cases hn : n ∈ m
    · rw [if_pos hn,if_pos hn]
      exact .some (.under _ h)
    · rw [if_neg hn,if_neg hn]
      generalize Stack.assign? n v σ = p at ih ⊢
      generalize Stack.assign? n v τ = q at ih ⊢
      cases ih with
      | none => exact .none
      | some h => exact .some (.under m h)

theorem define (h : Pads (d + 1) σ τ) (n : String) (v : Value) :
    Pads (d + 1) (define n v σ) (define n v τ) := by
  cases h with
  | under m h => exact .under _ h

theorem tail (h : Pads (d + 1) σ τ) : Pads d σ.tail τ.tail := by
  cases h with
  | under m h => exact h

theorem tail_eq (h : Pads 0 σ τ) : τ.tail = σ := by
  cases h with
  | here σ => rfl

end Pads

structure Result.Pads {α : Type} (d : Nat) (r q : Result α) : Prop where
  outcome_eq : q.outcome = r.outcome
  stack : Stack.Pads d r.stack q.stack
  lines_eq : q.lines = r.lines

namespace Result.Pads

variable {α β : Type}

theorem of_outcome (o : Except Halt α) (ls : List String) (h : Stack.Pads d σ τ) :
    Result.Pads d ⟨o,σ,ls⟩ ⟨o,τ,ls⟩ := ⟨rfl,h,rfl⟩

theorem andThen {r q : Result α} {next : α → Stack → Result β} (h : Result.Pads d r q)
    (hn : ∀ a σ τ, Stack.Pads d σ τ → Result.Pads d (next a σ) (next a τ)) :
    Result.Pads d (r.andThen next) (q.andThen next) := by
  obtain ⟨_,σ,_⟩ := r
  obtain ⟨o,τ,ls⟩ := q
  obtain ⟨rfl,hs,rfl⟩ := h
  cases o with
  | error x => exact ⟨rfl,hs,rfl⟩
  | ok a =>
    obtain ⟨ho,hs,hl⟩ := hn a σ τ hs
    exact ⟨ho,hs,by simp only [Result.andThen,hl]⟩

theorem leave {r q : Result α} (h : Result.Pads (d + 1) r q) : Result.Pads d r.leave q.leave :=
  ⟨h.outcome_eq,h.stack.tail,h.lines_eq⟩

end Result.Pads

theorem pads_read (h : Pads d σ τ) (t : Token) : Result.Pads d (read t σ) (read t τ) := by
  unfold read
  rw [h.get?_eq]
  cases get? σ t.lexeme with
  | none => exact .of_outcome _ _ h
  | some v => exact .of_outcome _ _ h

theorem pads_write (h : Pads d σ τ) (t : Token) (v : Value) :
    Result.Pads d (write t v σ) (write t v τ) := by
  unfold write
  have ha := h.assign? t.lexeme v
  generalize assign? t.lexeme v σ = p at ha ⊢
  generalize assign? t.lexeme v τ = q at ha ⊢
  cases ha with
  | none => exact .of_outcome _ _ h
  | some h => exact .of_outcome _ _ h

theorem pads_eval (h : Pads d σ τ) (e : Expr) : Result.Pads d (eval e σ) (eval e τ) := by
  induction e generalizing σ τ with
  | literal v t => exact .of_outcome _ _ h
  | grouping e ih => exact ih h
  | unary op r ih => exact (ih h).andThen fun _ _ _ h => .of_outcome _ _ h
  | binary l op r ihl ihr =>
    refine (ihl h).andThen fun _ _ _ h => ?_
    exact (ihr h).andThen fun _ _ _ h => .of_outcome _ _ h
  | name t => exact pads_read h t
  | assign t e ih => exact (ih h).andThen fun v _ _ h => pads_write h t v
  | hole o => exact .of_outcome _ _ h

theorem pads_define (h : Pads d σ τ) (t : Token) (hd : d = 0 → [t.lexeme] = []) (v : Value) :
    Result.Pads d (.done () (define t.lexeme v σ)) (.done () (define t.lexeme v τ)) := by
  cases d with
  | zero => cases hd rfl
  | succ d => exact .of_outcome _ _ (h.define t.lexeme v)

mutual

theorem pads_run : ∀ (t : Stmt) {d : Nat} {σ τ : Stack}, Pads d σ τ → (d = 0 → t.declared = []) →
    Result.Pads d (run t σ) (run t τ)
  | .expression e, d, σ, τ, h, _ => by
    rw [run,run]
    exact (pads_eval h e).andThen fun _ _ _ h => .of_outcome _ _ h
  | .print e _, d, σ, τ, h, _ => by
    rw [run,run]
    exact (pads_eval h e).andThen fun _ _ _ h => .of_outcome _ _ h
  | .var t none, d, σ, τ, h, hd => by
    rw [run,run]
    exact pads_define h t hd .nil
  | .var t (some e), d, σ, τ, h, hd => by
    rw [run,run]
    exact (pads_eval h e).andThen fun v _ _ h => pads_define h t hd v
  | .block body _, d, σ, τ, h, _ => by
    rw [run,run]
    -- What the block declares is declared further in than the empty scope, so it may declare anything.
    have hb : Result.Pads (d + 1) (runAll body (∅ :: σ)) (runAll body (∅ :: τ)) :=
      pads_runAll body (.under ∅ h) fun hd => absurd hd (Nat.succ_ne_zero d)
    exact hb.leave
  | .ifThen c y, d, σ, τ, h, hd => by
    rw [run,run]
    refine (pads_eval h c).andThen fun v _ _ h => ?_
    split
    · exact pads_run y h hd
    · exact .of_outcome _ _ h
  | .ifElse c y n, d, σ, τ, h, hd => by
    rw [run,run]
    refine (pads_eval h c).andThen fun v _ _ h => ?_
    split
    · exact pads_run y h fun h0 => (List.append_eq_nil_iff.mp (hd h0)).1
    · exact pads_run n h fun h0 => (List.append_eq_nil_iff.mp (hd h0)).2
  | .hole o, d, σ, τ, h, _ => by
    rw [run,run]
    exact .of_outcome _ _ h

/-- An empty scope in the stack makes no difference to statements that declare nothing in it. -/
theorem pads_runAll : ∀ (ts : List Stmt) {d : Nat} {σ τ : Stack}, Pads d σ τ →
    (d = 0 → ts.flatMap Stmt.declared = []) → Result.Pads d (runAll ts σ) (runAll ts τ)
  | [], d, σ, τ, h, _ => by
    rw [runAll,runAll]
    exact .of_outcome _ _ h
  | t :: ts, d, σ, τ, h, hd => by
    rw [runAll,runAll]
    have ht : d = 0 → t.declared = [] := fun h0 => (List.append_eq_nil_iff.mp (hd h0)).1
    have hts : d = 0 → ts.flatMap Stmt.declared = [] := fun h0 =>
      (List.append_eq_nil_iff.mp (hd h0)).2
    exact (pads_run t h ht).andThen fun _ _ _ h => pads_runAll ts h hts

end

end Stack

namespace Forest

variable {F G H : Forest} {i : ScopeId}

/-- What is seen from the scope where something was done tells what became of all scopes that there were. -/
theorem bindings_eq_of_stack_eq (hi : i < F.size) (hG : F.Follows i G) (hH : F.Follows i H)
    (h : G.stack i = H.stack i) : ∀ j < F.size, G.bindings j = H.bindings j := by
  intro j hj
  by_cases hp : j ∈ F.path i
  · rw [stack,stack,hG.path_eq hi,hH.path_eq hi] at h
    exact List.map_inj_left.mp h j hp
  · rw [hG.bindings_eq j hj hp,hH.bindings_eq j hj hp]

end Forest

namespace Notice

/-- The notice is a line of the program, or shown from the verbosity on that shows the scopes of blocks. -/
def OfRun (n : Notice) : Prop := n.level? = some 2 ∨ ∃ s, n = line s

theorem filter_level?_ne {ns : List Notice} (h : ∀ n ∈ ns, n.OfRun) :
    ns.filter (fun n => n.level? ≠ some 2) = (ns.filterMap line?).map line := by
  induction ns with
  | nil => rfl
  | cons n ns ih =>
    obtain ⟨hn,hns⟩ := List.forall_mem_cons.mp h
    rcases hn with hn | ⟨s,rfl⟩
    · have hl : n.line? = none := by
        cases n with
        | line s => cases hn
        | _ => rfl
      simp only [List.filterMap_cons,hl,← ih hns]
      simp [hn]
    · simp only [List.filterMap_cons,line?,List.map_cons,← ih hns]
      simp [level?]

end Notice

theorem Run.compositional_ofRun : Compositional fun _ r => ∀ n ∈ r.notices, n.OfRun :=
  compositional_notices (fun s => .inr ⟨s,rfl⟩) (fun _ _ => .inl rfl) fun _ _ => .inl rfl

namespace Stmt

theorem stack_run_block {ts : List Stmt} (h : ts.flatMap declared = []) (brace : Option Token)
    (σ : Stack) : Stack.run (block ts brace) σ = Stack.runAll ts σ := by
  obtain ⟨ho,hs,hl⟩ := Stack.pads_runAll ts (.here σ) fun _ => h
  rw [Stack.run,Stack.Result.leave,ho,hs.tail_eq,hl]

/-- A block whose statements declare nothing outside of blocks within it ends as they do without it, at any
moment of a session and in any scope. It prints the same lines and leaves the same bindings in all scopes that
there were. Only the notices about the scopes of blocks differ. -/
theorem block_transparent {ts : List Stmt} {w : World} (hF : w.forest.Arises)
    (hw : w.current < w.forest.size) (h : ts.flatMap declared = []) (brace : Option Token) :
    let r := (block ts brace).run w
    let q := runAll ts w
    r.outcome = q.outcome ∧ r.world.current = q.world.current ∧
      r.notices.filterMap Notice.line? = q.notices.filterMap Notice.line? ∧
      (∀ i < w.forest.size, r.world.forest.bindings i = q.world.forest.bindings i) ∧
      r.notices.filter (fun n => n.level? ≠ some 2) =
        q.notices.filter fun n => n.level? ≠ some 2 := by
  intro r q
  have hs : w.Site := ⟨hF.chained,hw⟩
  have hr : r.Refines w (Stack.runAll ts (w.forest.stack w.current)) :=
    stack_run_block h brace _ ▸ refines_run (block ts brace) hs
  have hq : q.Refines w (Stack.runAll ts (w.forest.stack w.current)) := refines_runAll ts hs
  have hl : r.notices.filterMap Notice.line? = q.notices.filterMap Notice.line? :=
    hr.lines.trans hq.lines.symm
  have hb : ∀ i < w.forest.size, r.world.forest.bindings i = q.world.forest.bindings i :=
    Forest.bindings_eq_of_stack_eq hw (follows_run _ hw) (follows_runAll ts hw)
      (hr.stack.trans hq.stack.symm)
  have hc : r.world.current = q.world.current :=
    (current_run _ w).trans (current_runAll ts w).symm
  refine ⟨hr.outcome.trans hq.outcome.symm,hc,hl,hb,?_⟩
  have hnr : ∀ n ∈ r.notices, n.OfRun := Run.compositional_ofRun.run (block ts brace) w
  have hnq : ∀ n ∈ q.notices, n.OfRun := Run.compositional_ofRun.runAll ts w
  rw [Notice.filter_level?_ne hnr,Notice.filter_level?_ne hnq,hl]

theorem block_transparent_inner :
    let x : Token := ⟨.identifier,"x",1,none⟩
    let minus : Token := ⟨.minus,"-",1,none⟩
    let ts : List Stmt := [.expression (.assign x (.literal (.bool true) none)),
      .block [.var x none,.print (.name x) none] none,.print (.name x) none,
      .expression (.unary minus (.name x))]
    let s := (Session.start 0 none).after [.define "globals" "x" .nil,.newScope "a" (some "globals")]
    let w : World := ⟨s.world.forest,1⟩
    let r := (block ts none).run w
    w.forest.Arises ∧ w.current < w.forest.size ∧ ts.flatMap declared = [] ∧
      r.outcome = .error (.ofDemand minus .number) ∧
      r.notices.filterMap Notice.line? = ["nil","true"] ∧
      (r.world.forest.bindings 0)[("x" : String)]? = some (.bool true) := by
  intro x minus ts s w r
  have hF : w.forest.Arises := .between ((Session.Reachable.start 0 none).after _)
  have hw : w.current < w.forest.size := by decide +kernel
  have ht : ts.flatMap declared = [] := rfl
  obtain ⟨ho,_,hl,hb,_⟩ := block_transparent hF hw ht none
  refine ⟨hF,hw,ht,ho.trans (by decide +kernel),hl.trans (by decide +kernel),?_⟩
  rw [hb 0 (by decide +kernel)]
  decide +kernel

end Stmt
end ScriptEval
