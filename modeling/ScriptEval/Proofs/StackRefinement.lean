import ScriptEval.Proofs.Reachable
import ScriptEval.Proofs.Stack

/-! The forest seen from one scope is a stack: the bindings along the way out. Programs do to it
what they do on a plain stack, although the forest shares scopes and keeps those of blocks that
were left. -/
namespace ScriptEval

namespace Forest

/-- The bindings along the way out of a scope. -/
def stack (F : Forest) (i : ScopeId) : Stack := (F.path i).map F.bindings

structure Site (F : Forest) (i : ScopeId) : Prop where
  chained : F.Chained
  lt_size : i < F.size

variable {F G : Forest} {i : ScopeId}

theorem Site.lt_of_mem_path (h : F.Site i) {j : ScopeId} (hj : j ∈ F.path i) : j < F.size :=
  Nat.lt_of_le_of_lt (h.chained.le_of_mem_path hj) h.lt_size

theorem Site.follows (h : F.Site i) (hG : F.Follows i G) : G.Site i :=
  ⟨hG.chained h.chained,Nat.lt_of_lt_of_le h.lt_size hG.size_le⟩

theorem Site.grow (h : F.Site i) : (F.grow (some i)).Site F.size :=
  ⟨h.chained.grow (by simpa using h.lt_size),by simp⟩

@[simp] theorem get?_stack (F : Forest) (i : ScopeId) (n : String) :
    Stack.get? (F.stack i) n = F.get? i n := by
  simp only [Stack.get?,stack,get?,List.findSome?_map]
  rfl

theorem stack_define (h : F.Site i) (n : String) (v : Value) :
    (F.define i n v).stack i = Stack.define n v (F.stack i) := by
  have hne : ∀ j ∈ F.outer i, (F.define i n v).bindings j = F.bindings j := fun j hj =>
    bindings_define_of_ne F (Nat.ne_of_gt (h.chained.lt_of_mem_outer hj)) n v
  simp only [stack,path,outer_define,List.map_cons,Stack.define,bindings_define_self h.lt_size]
  rw [List.map_congr_left hne]

/-- Along distinct scopes, the first one that binds the name is the one that gets the value. -/
theorem assign?_map {is : List ScopeId} (hnd : is.Nodup) (hlt : ∀ j ∈ is, j < F.size) (n : String)
    (v : Value) : Stack.assign? n v (is.map F.bindings) =
      (is.find? fun j => n ∈ F.bindings j).map fun j => is.map (F.define j n v).bindings := by
  induction is with
  | nil => rfl
  | cons i is ih =>
    obtain ⟨hi,hnd⟩ := List.nodup_cons.mp hnd
    by_cases hn : n ∈ F.bindings i
    · have hne : ∀ j ∈ is, (F.define i n v).bindings j = F.bindings j := fun j hj =>
        bindings_define_of_ne F (by rintro rfl; exact hi hj) n v
      simp only [List.map_cons,Stack.assign?,hn,if_true,List.find?_cons,decide_true,Option.map_some,
        bindings_define_self (hlt i List.mem_cons_self),List.map_congr_left hne]
    · simp only [List.map_cons,Stack.assign?,hn,if_false,List.find?_cons,decide_false]
      rw [ih hnd fun j hj => hlt j (List.mem_cons_of_mem _ hj),Option.map_map]
      refine Option.map_congr fun j hj => ?_
      have hji : j ≠ i := by
        rintro rfl
        exact hi (List.mem_of_find?_eq_some hj)
      simp [bindings_define_of_ne F hji]

theorem assign?_stack (h : F.Site i) (n : String) (v : Value) :
    Stack.assign? n v (F.stack i) = (F.assign? i n v).map fun G => G.stack i := by
  rw [stack,assign?_map (h.chained.path_nodup i) (fun j hj => h.lt_of_mem_path hj)]
  simp only [assign?,resolve?,Option.map_map]
  congr 1
  funext j
  simp [stack]

theorem stack_grow (h : F.Site i) : (F.grow (some i)).stack F.size = ∅ :: F.stack i := by
  have hb : ∀ j ∈ F.path i, (F.grow (some i)).bindings j = F.bindings j := fun j hj =>
    bindings_grow_of_lt (h.lt_of_mem_path hj) (some i)
  have hp : (F.grow (some i)).path F.size = F.size :: F.path i := by
    rw [path,outer_grow_size,Option.elim_some]
  rw [stack,hp,List.map_cons,bindings_grow_size,List.map_congr_left hb,stack]

/-- When a block is left, what was below its scope is the stack again. -/
theorem stack_of_follows_grow (h : F.Site i) (hG : (F.grow (some i)).Follows F.size G) :
    G.stack i = (G.stack F.size).tail := by
  have hs : F.size < (F.grow (some i)).size := by simp
  have hp := hG.path_eq (Nat.lt_trans h.lt_size hs)
  have hq := hG.path_eq hs
  rw [path_grow_of_lt h.lt_size] at hp
  simp only [stack,hp,hq]
  simp [path]

end Forest

/-- An evaluation in scope `i` of `F` ends like one on the stack of that scope. -/
structure Evaluation.Refines (r : Evaluation) (i : ScopeId) (q : Stack.Result Value) : Prop where
  outcome : r.outcome = q.outcome
  stack : r.forest.stack i = q.stack
  lines : q.lines = []

namespace Evaluation.Refines

variable {F : Forest} {i : ScopeId}

theorem andThen {r : Evaluation} {q : Stack.Result Value} {next : Value → Forest → Evaluation}
    {next' : Value → Stack → Stack.Result Value} (h : r.Refines i q) (hF : r.forest.Site i)
    (hn : ∀ v G, G.Site i → (next v G).Refines i (next' v (G.stack i))) :
    (r.andThen next).Refines i (q.andThen next') := by
  obtain ⟨o,G⟩ := r
  obtain ⟨o',σ,ls⟩ := q
  obtain ⟨rfl,rfl,rfl⟩ := h
  cases o with
  | error x => exact ⟨rfl,rfl,rfl⟩
  | ok v => exact hn v G hF

end Evaluation.Refines

namespace Expr

theorem refines_readName (i : ScopeId) (t : Token) (F : Forest) :
    (readName i t F).Refines i (Stack.read t (F.stack i)) := by
  unfold readName Stack.read Forest.read
  rw [Forest.get?_stack]
  cases F.get? i t.lexeme with
  | none => exact ⟨rfl,rfl,rfl⟩
  | some v => exact ⟨rfl,rfl,rfl⟩

theorem refines_writeName {i : ScopeId} {F : Forest} (h : F.Site i) (t : Token) (v : Value) :
    (writeName i t v F).Refines i (Stack.write t v (F.stack i)) := by
  unfold writeName Stack.write Forest.write
  rw [Forest.assign?_stack h]
  cases F.assign? i t.lexeme v with
  | none => exact ⟨rfl,rfl,rfl⟩
  | some G => exact ⟨rfl,rfl,rfl⟩

theorem refines_eval {i : ScopeId} (e : Expr) {F : Forest} (h : F.Site i) :
    (e.eval i F).Refines i (Stack.eval e (F.stack i)) := by
  induction e generalizing F with
  | literal v t => exact ⟨rfl,rfl,rfl⟩
  | grouping e ih => exact ih h
  | unary op r ih =>
    exact (ih h).andThen (h.follows (r.follows_eval h.lt_size)) fun _ _ _ => ⟨rfl,rfl,rfl⟩
  | binary l op r ihl ihr =>
    refine (ihl h).andThen (h.follows (l.follows_eval h.lt_size)) fun a G hG => ?_
    exact (ihr hG).andThen (hG.follows (r.follows_eval hG.lt_size)) fun _ _ _ => ⟨rfl,rfl,rfl⟩
  | name t => exact refines_readName i t F
  | assign t e ih =>
    exact (ih h).andThen (h.follows (e.follows_eval h.lt_size)) fun v G hG =>
      refines_writeName hG t v
  | hole o => exact ⟨rfl,rfl,rfl⟩

end Expr

structure Run.Refines (r : Run) (w : World) (q : Stack.Result Unit) : Prop where
  outcome : r.outcome = q.outcome
  stack : r.world.forest.stack w.current = q.stack
  lines : r.notices.filterMap Notice.line? = q.lines

abbrev World.Site (w : World) : Prop := w.forest.Site w.current

theorem Run.lines_within (i : ScopeId) (body : World → Run) (w : World) :
    (within i body w).notices.filterMap Notice.line? =
      (body { w with current := i }).notices.filterMap Notice.line? := by
  simp [within,entering,leaving,Notice.line?,List.filterMap_cons]

namespace Run.Refines

variable {w : World}

theorem done (w : World) : (Run.done w).Refines w (.done () (w.forest.stack w.current)) :=
  ⟨rfl,rfl,rfl⟩

theorem andThen {r : Run} {q : Stack.Result Unit} {next : World → Run}
    {next' : Unit → Stack → Stack.Result Unit} (h : r.Refines w q)
    (hc : r.world.current = w.current) (hr : r.world.Site)
    (hn : ∀ w' : World, w'.Site →
      (next w').Refines w' (next' () (w'.forest.stack w'.current))) :
    (r.andThen next).Refines w (q.andThen next') := by
  obtain ⟨o,w',ns⟩ := r
  obtain ⟨o',σ,ls⟩ := q
  obtain ⟨rfl,rfl,rfl⟩ := h
  cases o with
  | error x => exact ⟨rfl,rfl,rfl⟩
  | ok _ =>
    obtain ⟨ho,hs,hl⟩ := hn w' hr
    have hc : w'.current = w.current := hc
    rw [hc] at ho hs hl
    exact ⟨ho,hs,by rw [andThen_of_ok rfl,List.filterMap_append,hl]; rfl⟩

theorem evaluating {e : Expr} {next : Value → World → Run}
    {next' : Value → Stack → Stack.Result Unit} (hw : w.Site)
    (hn : ∀ v (w' : World), w'.Site →
      (next v w').Refines w' (next' v (w'.forest.stack w'.current))) :
    (Run.evaluating e w next).Refines w ((Stack.eval e (w.forest.stack w.current)).andThen next') := by
  have hs := hw.follows (e.follows_eval hw.lt_size)
  have he := e.refines_eval hw
  revert hs he
  generalize Stack.eval e (w.forest.stack w.current) = q
  obtain ⟨o',σ,ls⟩ := q
  rintro hs ⟨ho,hσ,rfl⟩
  cases o' with
  | error x =>
    rw [evaluating_of_error ho]
    exact ⟨rfl,hσ,rfl⟩
  | ok v =>
    rw [evaluating_of_ok ho]
    obtain ⟨h₁,h₂,h₃⟩ := hn v ⟨_,w.current⟩ hs
    simp only [hσ] at h₁ h₂ h₃
    exact ⟨h₁,h₂,h₃⟩

theorem inBlock {body : World → Run} {body' : Stack → Stack.Result Unit} (hw : w.Site)
    (hf : ∀ w' : World, w'.Site → w'.forest.Follows w'.current (body w').world.forest)
    (hb : ∀ w' : World, w'.Site → (body w').Refines w' (body' (w'.forest.stack w'.current))) :
    (Run.inBlock body w).Refines w (body' (∅ :: w.forest.stack w.current)).leave := by
  obtain ⟨ho,hs,hl⟩ := hb ⟨w.forest.grow w.current,w.forest.size⟩ hw.grow
  have hF := hf ⟨w.forest.grow w.current,w.forest.size⟩ hw.grow
  rw [Forest.stack_grow hw] at ho hs hl
  refine ⟨ho,?_,?_⟩
  · rw [Stack.Result.leave,← hs]
    exact Forest.stack_of_follows_grow hw hF
  · rw [Stack.Result.leave,← hl]
    exact lines_within _ body _

end Run.Refines

namespace Stmt

mutual

theorem refines_run : ∀ (t : Stmt) {w : World}, w.Site →
    (t.run w).Refines w (Stack.run t (w.forest.stack w.current))
  | expression e, w, hw => by
    rw [run,Stack.run]
    exact .evaluating hw fun _ w' _ => .done w'
  | print e _, w, hw => by
    rw [run,Stack.run]
    exact .evaluating hw fun _ _ _ => ⟨rfl,rfl,rfl⟩
  | var t none, w, hw => by
    rw [run,Stack.run]
    exact ⟨rfl,Forest.stack_define hw t.lexeme .nil,rfl⟩
  | var t (some e), w, hw => by
    rw [run,Stack.run]
    exact .evaluating hw fun v _ hw' => ⟨rfl,Forest.stack_define hw' t.lexeme v,rfl⟩
  | block body _, w, hw => by
    rw [run,Stack.run]
    exact .inBlock hw (fun _ hw' => follows_runAll body hw'.lt_size) fun _ hw' =>
      refines_runAll body hw'
  | ifThen c y, w, hw => by
    rw [run,Stack.run]
    refine .evaluating hw fun v w' hw' => ?_
    split
    · exact refines_run y hw'
    · exact .done w'
  | ifElse c y n, w, hw => by
    rw [run,Stack.run]
    refine .evaluating hw fun v w' hw' => ?_
    split
    · exact refines_run y hw'
    · exact refines_run n hw'
  | hole h, w, hw => by
    rw [run,Stack.run]
    exact ⟨rfl,rfl,rfl⟩

theorem refines_runAll : ∀ (ts : List Stmt) {w : World}, w.Site →
    (runAll ts w).Refines w (Stack.runAll ts (w.forest.stack w.current))
  | [], w, hw => by
    rw [runAll,Stack.runAll]
    exact .done w
  | t :: ts, w, hw => by
    have hc := current_run t w
    have hs : (t.run w).world.Site := by
      rw [World.Site,hc]
      exact hw.follows (follows_run t hw.lt_size)
    rw [runAll,Stack.runAll]
    exact (refines_run t hw).andThen hc hs fun _ hw' => refines_runAll ts hw'

end

end Stmt

/-- The run does to the stack of the scope what is done on a plain stack, and the scopes beside the
way out keep their bindings. -/
structure Run.Mirrors (r : Run) (w : World) (q : Stack.Result Unit) : Prop
    extends r.Refines w q where
  others : ∀ j < w.forest.size, j ∉ w.forest.path w.current →
    r.world.forest.bindings j = w.forest.bindings j

theorem Run.Refines.mirrors {r : Run} {w : World} {q : Stack.Result Unit} (h : r.Refines w q)
    (hF : w.forest.Follows w.current r.world.forest) : r.Mirrors w q :=
  ⟨h,hF.bindings_eq⟩

namespace Session

theorem Sound.site {s : Session} (h : s.Sound) {i : ScopeId} (hi : i < s.world.forest.size) :
    s.world.forest.Site i := ⟨h.chained,hi⟩

/-- In any scope of any session, programs do what they do on a plain stack: a statement, a list, and
a list that is run with that scope made current. -/
theorem Reachable.mirrors_stack {s : Session} (h : s.Reachable) {i : ScopeId}
    (hi : i < s.world.forest.size) :
    let w : World := ⟨s.world.forest,i⟩
    let σ := s.world.forest.stack i
    (∀ t : Stmt, (t.run w).Mirrors w (Stack.run t σ)) ∧
    (∀ ts : List Stmt, (Stmt.runAll ts w).Mirrors w (Stack.runAll ts σ)) ∧
    ∀ ts : List Stmt, (Run.within i (Stmt.runAll ts) s.world).Mirrors w (Stack.runAll ts σ) := by
  intro w σ
  have hw : w.Site := h.sound.site hi
  have hall : ∀ ts, (Stmt.runAll ts w).Mirrors w (Stack.runAll ts σ) := fun ts =>
    (Stmt.refines_runAll ts hw).mirrors (Stmt.follows_runAll ts hi)
  refine ⟨fun t => (t.refines_run hw).mirrors (t.follows_run hi),hall,fun ts => ?_⟩
  obtain ⟨⟨ho,hs,hl⟩,hb⟩ := hall ts
  exact ⟨⟨ho,hs,by rw [Run.lines_within]; exact hl⟩,hb⟩

theorem mirrors_start :
    let x : Token := ⟨.identifier,"x",1,none⟩
    let y : Token := ⟨.identifier,"y",1,none⟩
    let t : Stmt := .block [.var x (some (.literal (.bool true) none)),.print (.name x) none,
      .expression (.assign y (.literal .nil none))] none
    let s := start 0 none
    s.Reachable ∧ 0 < s.world.forest.size ∧
      (t.run ⟨s.world.forest,0⟩).outcome = .error (.failed (.undefined y)) ∧
      (t.run ⟨s.world.forest,0⟩).notices.filterMap Notice.line? = ["true"] ∧
      (t.run ⟨s.world.forest,0⟩).world.forest.stack 0 = [∅] := by
  intro x y t s
  have h := (Reachable.mirrors_stack (.start 0 none) (i := 0) Nat.zero_lt_one).1 t
  have hσ : s.world.forest.stack 0 = [∅] := rfl
  have hq : Stack.run t [∅] = ⟨.error (.failed (.undefined y)),[∅],["true"]⟩ := by
    simp [t,x,y,Stack.run,Stack.runAll,Stack.eval,Stack.read,Stack.write,Stack.get?,Stack.assign?,
      Stack.define,Stack.Result.andThen,Stack.Result.done,Stack.Result.halted,Stack.Result.leave,
      Value.display]
  exact ⟨.start 0 none,Nat.zero_lt_one,h.outcome.trans (by rw [hσ,hq]),
    h.lines.trans (by rw [hσ,hq]),h.stack.trans (by rw [hσ,hq])⟩

end Session
end ScriptEval
