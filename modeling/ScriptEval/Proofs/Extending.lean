import ScriptEval.Proofs.Declaring
import ScriptEval.Proofs.Reachable
import ScriptEval.Proofs.Recording

/-! Forests only grow. Whatever is done in a session adds scopes and bindings: it takes no scope away,
puts none elsewhere, and leaves every name bound that was bound. -/
namespace ScriptEval

namespace Forest

/-- `G` comes after `F`: the scopes of `F` lie where they lay and bind the names that they bound, and
the way out leads to older scopes if it did in `F`. -/
structure Extends (F G : Forest) : Prop where
  size_le : F.size ≤ G.size
  outer_eq : ∀ i < F.size, G.outer i = F.outer i
  kept : ∀ i < F.size, ∀ n, n ∈ F.bindings i → n ∈ G.bindings i
  chained : F.Chained → G.Chained

namespace Extends

variable {F G H : Forest} {i : ScopeId}

theorem refl (F : Forest) : F.Extends F :=
  ⟨Nat.le_refl _,fun _ _ => rfl,fun _ _ _ h => h,id⟩

theorem trans (h : F.Extends G) (h' : G.Extends H) : F.Extends H where
  size_le := Nat.le_trans h.size_le h'.size_le
  outer_eq i hi := (h'.outer_eq i (Nat.lt_of_lt_of_le hi h.size_le)).trans (h.outer_eq i hi)
  kept i hi n hn := h'.kept i (Nat.lt_of_lt_of_le hi h.size_le) n (h.kept i hi n hn)
  chained := h'.chained ∘ h.chained

theorem of_follows {ns : List String} (hf : F.Follows i G) (hd : F.Declares i ns G) : F.Extends G :=
  ⟨hf.size_le,hf.outer_eq,hd.kept,hf.chained⟩

theorem of_define (F : Forest) (i : ScopeId) (n : String) (v : Value) : F.Extends (F.define i n v) :=
  of_follows (.of_define (mem_path_self F i) n v) (.of_define F i n v)

theorem of_assigns {ns : List String} (h : F.Assigns i ns G) : F.Extends G := by
  induction h with
  | refl F => exact .refl F
  | define _ _ v _ ih => exact (of_define _ _ _ v).trans ih

theorem of_grow (F : Forest) {around : Option ScopeId} (h : ∀ i ∈ around, i < F.size) :
    F.Extends (F.grow around) where
  size_le := by rw [size_grow]; exact Nat.le_succ _
  outer_eq i hi := outer_grow_of_lt hi around
  kept i _ n hn := by rwa [bindings_grow]
  chained hF := hF.grow h

end Extends
end Forest

open Forest

theorem Expr.extends_writeName (i : ScopeId) (t : Token) (v : Value) (F : Forest) :
    F.Extends (writeName i t v F).forest := .of_assigns (assigns_writeName i t v F)

theorem Expr.extends_eval {i : ScopeId} (e : Expr) {F : Forest} (hi : i < F.size) :
    F.Extends (e.eval i F).forest :=
  .of_follows (e.follows_eval hi) (e.declares_eval i F)

theorem Stmt.extends_run (t : Stmt) {w : World} (hw : w.Inside) :
    w.forest.Extends (t.run w).world.forest :=
  .of_follows (t.follows_run hw) (t.declares_run w)

theorem Stmt.extends_runAll (ts : List Stmt) {w : World} (hw : w.Inside) :
    w.forest.Extends (runAll ts w).world.forest :=
  .of_follows (follows_runAll ts hw) (declares_runAll ts w)

namespace Session

variable {s : Session}

@[simp] theorem forest_interpret (s : Session) (program : List Stmt) :
    (s.interpret program).session.world.forest = (Stmt.runAll program s.world).world.forest := by
  obtain ⟨j,h⟩ := s.session_interpret program
  rw [h]

theorem extends_withScope {a : String} {next : ScopeId → Effect}
    (h : ∀ i, s.scopes[a]? = some i → s.world.forest.Extends (next i).session.world.forest) :
    s.world.forest.Extends (s.withScope a next).session.world.forest :=
  withScope_cases (P := fun e => s.world.forest.Extends e.session.world.forest) (.refl _) h

theorem Sound.extends_perform (hs : s.Sound) (t : Step) :
    s.world.forest.Extends (s.perform t).session.world.forest := by
  have hc : s.world.Inside := hs.known_lt _ (.inl rfl)
  cases t with
  | interpret p =>
    rw [perform,forest_interpret]
    exact Stmt.extends_runAll p hc
  | evaluate e => exact e.extends_eval hc
  | execute t => exact t.extends_run hc
  | executeIn a body =>
    refine extends_withScope fun i hi => ?_
    exact Stmt.extends_runAll body (w := ⟨s.world.forest,i⟩) (hs.known_lt i (.inr ⟨a,hi⟩))
  | restart a =>
    cases a with
    | none => exact .of_grow _ (by simp)
    | some a => exact extends_withScope fun _ _ => .refl _
  | newScope a around =>
    cases around with
    | none => exact .of_grow _ (by simp)
    | some b =>
      refine extends_withScope fun i hi => .of_grow _ fun j hj => ?_
      exact Option.some.inj hj ▸ hs.known_lt i (.inr ⟨b,hi⟩)
  | define a n v => exact extends_withScope fun i _ => .of_define _ i n v
  | assign a t v =>
    refine extends_withScope fun i _ => ?_
    split
    · rename_i h
      exact .of_assigns (.of_write h)
    · exact .refl _
  | get a _ | contains a _ | enclosing a | describe a => exact extends_withScope fun _ _ => .refl _
  | assertOk m =>
    simp only [perform]
    split <;> exact .refl _
  | report _ | reset | remark _ _ | complain | explain _ | status => exact .refl _

theorem Reachable.after (h : s.Reachable) (ts : List Step) : (s.after ts).Reachable := by
  induction ts generalizing s with
  | nil => exact h
  | cons t ts ih => exact ih (h.step t)

theorem Reachable.extends_after (h : s.Reachable) (ts : List Step) :
    s.world.forest.Extends (s.after ts).world.forest := by
  induction ts generalizing s with
  | nil => exact .refl _
  | cons t ts ih => exact (h.sound.extends_perform t).trans (ih (h.step t))

end Session
end ScriptEval
