import ScriptEval.Proofs.Follow
import ScriptEval.Session

/-! The sessions that steps lead to. All that a step can do to a session is one of a few changes, and what these
preserve holds in every session that is reached. So evaluators hold nothing of their own: between two steps a
new one can take over the journal and the global scope of the old one, and no step can tell. -/
namespace ScriptEval

namespace Session

inductive Reachable : Session → Prop
  | start (verbosity : Int) (source : Option String) (d : Sketcher := .plain) :
      Reachable (start verbosity source d)
  | step {s : Session} (h : Reachable s) (t : Step) : Reachable (s.perform t).session

/-- A scope that a step can be about: the current one, or one with a name. -/
def Known (s : Session) (i : ScopeId) : Prop :=
  i = s.world.current ∨ ∃ a : String, s.scopes[a]? = some i

/-- What one step can do: write in the journal, also after something was done in a scope, add a
scope, or start anew in an old scope or in one of its own. -/
inductive Change (s : Session) : Session → Prop
  | journal (j : Journal) : Change s { s with journal := j }
  | inScope {i : ScopeId} {F : Forest} (hi : s.Known i)
      (hF : i < s.world.forest.size → s.world.forest.Follows i F) (j : Journal) :
      Change s { s.setForest F with journal := j }
  | addScope (a : String) {around : Option ScopeId} (h : ∀ i ∈ around, s.Known i) :
      Change s (s.addScope a around)
  | rehome {i : ScopeId} (hi : s.Known i) : Change s (s.rehome i)
  | restart : Change s ((s.addScope globalName none).rehome s.world.forest.size)

variable {s s' : Session}

theorem Change.refl (s : Session) : s.Change s := .journal s.journal

theorem change_of_run {i : ScopeId} {w : World} (hc : w.current = s.world.current) (hi : s.Known i)
    (hF : i < s.world.forest.size → s.world.forest.Follows i w.forest) (j : Journal) :
    s.Change { s with world := w, journal := j } := by
  obtain ⟨F,c⟩ := w
  obtain rfl : c = s.world.current := hc
  exact .inScope hi hF j

theorem change_interpret (s : Session) (program : List Stmt) :
    s.Change (s.interpret program).session := by
  obtain ⟨j,h⟩ := s.session_interpret program
  rw [h]
  exact change_of_run (Stmt.current_runAll program s.world) (Or.inl rfl)
    (fun hi => Stmt.follows_runAll program hi) j

theorem change_withScope {name : String} {next : ScopeId → Effect}
    (h : ∀ i, s.scopes[name]? = some i → s.Change (next i).session) :
    s.Change (s.withScope name next).session :=
  withScope_cases (P := fun e => s.Change e.session) (.refl s) h

theorem change_perform (s : Session) (t : Step) : s.Change (s.perform t).session := by
  cases t with
  | interpret p => exact s.change_interpret p
  | evaluate e => exact .inScope (Or.inl rfl) (fun hi => e.follows_eval hi) s.journal
  | execute t =>
    exact change_of_run (Stmt.current_run t s.world) (Or.inl rfl) (fun hi => t.follows_run hi) s.journal
  | executeIn a body =>
    refine change_withScope fun i hi => ?_
    exact change_of_run (Run.current_within i _ s.world) (Or.inr ⟨a,hi⟩)
      (fun h => Stmt.follows_runAll body (w := ⟨s.world.forest,i⟩) h) s.journal
  | restart a =>
    cases a with
    | none => exact .restart
    | some a =>
      exact change_withScope fun i hi => .rehome (Or.inr ⟨a,hi⟩)
  | newScope a around =>
    cases around with
    | none => exact .addScope a (by simp)
    | some b =>
      refine change_withScope fun i hi => ?_
      exact .addScope a fun j hj => Option.some.inj hj ▸ Or.inr ⟨b,hi⟩
  | define a n v =>
    refine change_withScope fun i hi => ?_
    exact .inScope (Or.inr ⟨a,hi⟩) (fun _ => .of_define (Forest.mem_path_self _ i) n v) s.journal
  | assign a t v =>
    refine change_withScope fun i hi => ?_
    split
    · rename_i F hF
      exact .inScope (Or.inr ⟨a,hi⟩) (.of_assigns (.of_write hF)) s.journal
    · exact .refl s
  | get a _ =>
    exact change_withScope fun _ _ => .refl s
  | contains a _ =>
    exact change_withScope fun _ _ => .refl s
  | enclosing a =>
    exact change_withScope fun _ _ => .refl s
  | describe a =>
    exact change_withScope fun _ _ => .refl s
  | report f => exact .journal (s.journal.record f)
  | reset => exact .journal s.journal.clear
  | assertOk m =>
    simp only [perform]
    split
    · exact .refl s
    · exact .refl s
  | remark _ _ => exact .refl s
  | complain => exact .refl s
  | explain _ => exact .refl s
  | status => exact .refl s

theorem getElem?_insert_cases {m : Std.ExtTreeMap String ScopeId} {a b : String} {i j : ScopeId}
    (h : (m.insert a i)[b]? = some j) : j = i ∨ m[b]? = some j := by
  rw [Std.ExtTreeMap.getElem?_insert] at h
  split at h
  · exact .inl (Option.some.inj h).symm
  · exact .inr h

/-- What holds in every session: the forest is chained, the evaluator is in its global scope, and
the scopes it knows are in the forest. -/
structure Sound (s : Session) : Prop where
  chained : s.world.forest.Chained
  home : s.world.current = s.globals
  known_lt : ∀ i, s.Known i → i < s.world.forest.size

namespace Sound

theorem start (v : Int) (src : Option String) (d : Sketcher) : (start v src d).Sound where
  chained := Forest.Chained.empty.grow (by simp)
  home := rfl
  known_lt i hi := by
    rcases hi with rfl | ⟨a,hi⟩
    · exact Nat.zero_lt_one
    · rcases getElem?_insert_cases hi with rfl | hi
      · exact Nat.zero_lt_one
      · simp at hi

theorem addScope (h : s.Sound) (a : String) {around : Option ScopeId}
    (ha : ∀ i ∈ around, s.Known i) : (s.addScope a around).Sound where
  chained := h.chained.grow fun i hi => h.known_lt i (ha i hi)
  home := h.home
  known_lt i hi := by
    have hs : (s.addScope a around).world.forest.size = s.world.forest.size + 1 := by
      simp [Session.addScope]
    rw [hs]
    rcases hi with hi | ⟨b,hi⟩
    · exact Nat.lt_succ_of_lt (h.known_lt i (Or.inl hi))
    · rcases getElem?_insert_cases hi with rfl | hi
      · exact Nat.lt_succ_self _
      · exact Nat.lt_succ_of_lt (h.known_lt i (Or.inr ⟨b,hi⟩))

theorem rehome (h : s.Sound) {i : ScopeId} (hi : i < s.world.forest.size) : (s.rehome i).Sound where
  chained := h.chained
  home := rfl
  known_lt j hj := by
    rcases hj with rfl | ⟨b,hj⟩
    · exact hi
    · rcases getElem?_insert_cases hj with rfl | hj
      · exact hi
      · exact h.known_lt j (Or.inr ⟨b,hj⟩)

theorem change (h : s.Sound) (hs : s.Change s') : s'.Sound := by
  cases hs with
  | journal j => exact ⟨h.chained,h.home,h.known_lt⟩
  | @inScope i F hi hF j =>
    have hF := hF (h.known_lt i hi)
    exact ⟨hF.chained h.chained,h.home,fun k hk =>
      Nat.lt_of_lt_of_le (h.known_lt k hk) hF.size_le⟩
  | addScope a ha => exact h.addScope a ha
  | rehome hi => exact h.rehome (h.known_lt _ hi)
  | restart =>
    exact (h.addScope globalName (by simp)).rehome (by simp [Session.addScope])

end Sound

theorem Reachable.sound (h : s.Reachable) : s.Sound := by
  induction h with
  | start v src d => exact .start v src d
  | @step s _ t ih => exact ih.change (s.change_perform t)

theorem Reachable.play (h : s.Reachable) {ts : List Step} {e : Effect} (he : e ∈ s.play ts) :
    e.session.Reachable := by
  induction ts generalizing s with
  | nil => simp [Session.play] at he
  | cons t ts ih =>
    rcases List.mem_cons.mp he with rfl | he
    · exact h.step t
    · exact ih (h.step t) he

/-- However a program, a statement, a block or an expression ends, the current scope is again what
it was. So between any two steps the evaluator is in its global scope. -/
theorem current_restored :
    (∀ (t : Stmt) (w : World), (t.run w).world.current = w.current) ∧
    (∀ (ts : List Stmt) (w : World), (Stmt.runAll ts w).world.current = w.current) ∧
    (∀ (i : ScopeId) (ts : List Stmt) (w : World),
      (Run.within i (Stmt.runAll ts) w).world.current = w.current) ∧
    (∀ (s : Session) (e : Expr) (t : Stmt) (a : String) (ts : List Stmt),
      (s.perform (.evaluate e)).session.world.current = s.world.current ∧
      (s.perform (.execute t)).session.world.current = s.world.current ∧
      (s.perform (.executeIn a ts)).session.world.current = s.world.current ∧
      (s.perform (.interpret ts)).session.world.current = s.world.current) ∧
    (∀ s : Session, s.Reachable → s.world.current = s.globals) ∧
    ∀ (verbosity : Int) (source : Option String) (d : Sketcher) (steps : List Step),
      ∀ e ∈ (start verbosity source d).play steps, e.answer.atHome = true := by
  have home : ∀ s : Session, s.Reachable → s.world.current = s.globals := fun s h => h.sound.home
  refine ⟨Stmt.current_run,Stmt.current_runAll,fun i ts w => rfl,fun s e t a ts => ?_,home,?_⟩
  · refine ⟨rfl,Stmt.current_run t s.world,?_,?_⟩
    · exact withScope_cases (P := fun e => e.session.world.current = s.world.current) rfl
        fun _ _ => rfl
    · obtain ⟨j,h⟩ := s.session_interpret ts
      simp only [perform,h]
      exact Stmt.current_runAll ts s.world
  · intro v src d steps e he
    exact decide_eq_true (home e.session ((Reachable.start v src d).play he))

theorem current_restored_nested :
    let t : Token := ⟨.identifier,"x",1,none⟩
    let body : List Stmt := [.block [.block [.expression (.name t)] none] none]
    let s := ((start 0 none).perform (.newScope "other" none)).session
    let e := s.perform (.executeIn "other" body)
    e.reply = .error (.halted (.failed (.undefined t))) ∧ s.Reachable ∧
      e.session.world.current = e.session.globals :=
  ⟨by rfl,(Reachable.start 0 none).step _,
    current_restored.2.2.2.2.1 _ (((Reachable.start 0 none).step _).step _)⟩

section Renewal

/-- The session with a new evaluator, which is given the journal and the global scope of the old
one. The names of scopes stay as they are. -/
def renew (s : Session) : Session := { s.rehome s.globals with scopes := s.scopes }

def playRenewing (s : Session) : List (Option Step) → List Effect
  | [] => []
  | none :: ts => s.renew.playRenewing ts
  | some t :: ts => let e := s.perform t; e :: e.session.playRenewing ts

variable {s : Session}

theorem renew_eq_self_iff : s.renew = s ↔ s.world.current = s.globals := by
  obtain ⟨j,⟨F,c⟩,g,m⟩ := s
  simp [renew,rehome,eq_comm]

theorem Reachable.renew_eq (h : s.Reachable) : s.renew = s := renew_eq_self_iff.mpr h.sound.home

theorem Reachable.playRenewing_eq (h : s.Reachable) (ts : List (Option Step)) :
    s.playRenewing ts = s.play (ts.filterMap id) := by
  induction ts generalizing s with
  | nil => rfl
  | cons t ts ih =>
    cases t with
    | none =>
      rw [playRenewing,h.renew_eq,ih h]
      rfl
    | some t =>
      rw [playRenewing,ih (h.step t)]
      rfl

/-- Wherever evaluators are renewed between the steps of a session, the steps answer the same. -/
theorem renewals_unseen (given : Option Settings) (d : Sketcher) (ts : List (Option Step)) :
    ((ofSettings given d).playRenewing ts).map Effect.answer =
      (ofSettings given d).answers (ts.filterMap id) := by
  have h : (ofSettings given d).Reachable := .start _ _ _
  rw [h.playRenewing_eq,answers]

end Renewal

end Session
end ScriptEval
