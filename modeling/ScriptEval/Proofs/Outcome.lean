import ScriptEval.Session

/-! Runs by their outcome: what comes of evaluating, of going on and of interpreting in each case.
A program halts where its statements first do, and interpreting it catches failures only. -/
namespace ScriptEval

namespace Run

variable {e : Expr} {w : World} {next : Value → World → Run}

theorem evaluating_of_ok {v : Value} (h : (e.eval w.current w.forest).outcome = .ok v) :
    evaluating e w next = next v { w with forest := (e.eval w.current w.forest).forest } := by
  simp only [evaluating,h]

theorem evaluating_of_error {x : Halt} (h : (e.eval w.current w.forest).outcome = .error x) :
    evaluating e w next =
      ⟨.error x,{ w with forest := (e.eval w.current w.forest).forest },[]⟩ := by
  simp only [evaluating,h]

variable {r : Run} {rest : World → Run}

theorem andThen_of_ok (h : r.outcome = .ok ()) :
    r.andThen rest =
      ⟨(rest r.world).outcome,(rest r.world).world,r.notices ++ (rest r.world).notices⟩ := by
  simp only [andThen,h]

theorem andThen_of_error {x : Halt} (h : r.outcome = .error x) : r.andThen rest = r := by
  obtain ⟨_,w,ns⟩ := r
  subst h
  rfl

/-- A run completes, fails, or halts for a cause that lies in the tree. -/
theorem outcome_cases (r : Run) : r.outcome = .ok () ∨ (∃ f, r.outcome = .error (.failed f)) ∨
    ∃ x, (∀ f, x ≠ .failed f) ∧ r.outcome = .error x := by
  rcases h : r.outcome with x | _
  · rcases x with f | k | o
    · exact .inr (.inl ⟨f,rfl⟩)
    · exact .inr (.inr ⟨_,by simp,rfl⟩)
    · exact .inr (.inr ⟨_,by simp,rfl⟩)
  · exact .inl rfl

end Run

namespace Stmt

theorem runAll_singleton (t : Stmt) (w : World) : runAll [t] w = t.run w := by
  rw [runAll]
  cases h : (t.run w).outcome with
  | ok _ =>
    rw [Run.andThen_of_ok h,runAll,Run.done,List.append_nil,← h]
  | error x => rw [Run.andThen_of_error h]

theorem runCounting_of_ok {t : Stmt} {w : World} (h : (t.run w).outcome = .ok ()) (ts : List Stmt) :
    (runCounting (t :: ts) w).2 = (runCounting ts (t.run w).world).2 + 1 := by
  simp only [runCounting,h]

theorem runCounting_of_error {t : Stmt} {w : World} {x : Halt} (h : (t.run w).outcome = .error x)
    (ts : List Stmt) : (runCounting (t :: ts) w).2 = 0 := by
  simp only [runCounting,h]

end Stmt

namespace Session

variable {s : Session} {program : List Stmt}

theorem interpret_of_ok (h : (Stmt.runAll program s.world).outcome = .ok ()) :
    s.interpret program =
      { reply := .ok (.flag true)
        session := { s with world := (Stmt.runAll program s.world).world }
        notices := (Stmt.runAll program s.world).notices ++
          [.finished (Stmt.runCounting program s.world).2] } := by
  rw [← Stmt.runCounting_fst] at *
  simp only [interpret,h,afterRun]

theorem interpret_of_failed {f : Failure}
    (h : (Stmt.runAll program s.world).outcome = .error (.failed f)) :
    s.interpret program =
      { reply := .ok (.flag false)
        session :=
          { s with
            world := (Stmt.runAll program s.world).world
            journal := s.journal.record f }
        notices := (Stmt.runAll program s.world).notices ++
          [.failure f,.stopped (Stmt.runCounting program s.world).2] } := by
  rw [← Stmt.runCounting_fst] at *
  simp only [interpret,h]

theorem interpret_of_escaped {x : Halt} (h : (Stmt.runAll program s.world).outcome = .error x)
    (hx : ∀ f, x ≠ .failed f) :
    s.interpret program =
      { reply := .error (.halted x)
        session := { s with world := (Stmt.runAll program s.world).world }
        notices := (Stmt.runAll program s.world).notices } := by
  rw [← Stmt.runCounting_fst] at *
  cases x with
  | failed f => exact absurd rfl (hx f)
  | unsupported k => simp only [interpret,h,afterRun]
  | hole o => simp only [interpret,h,afterRun]

/-- Running a program does to the session what running its statements does to the world, apart from
the journal. -/
theorem session_interpret (s : Session) (program : List Stmt) :
    ∃ j, (s.interpret program).session =
      { s with world := (Stmt.runAll program s.world).world, journal := j } := by
  rcases (Stmt.runAll program s.world).outcome_cases with h | ⟨f,h⟩ | ⟨x,hx,h⟩
  · exact ⟨s.journal,by rw [interpret_of_ok h]⟩
  · exact ⟨s.journal.record f,by rw [interpret_of_failed h]⟩
  · exact ⟨s.journal,by rw [interpret_of_escaped h hx]⟩

theorem withScope_cases {P : Effect → Prop} {name : String} {next : ScopeId → Effect}
    (hnone : P { reply := .error (.unknownScope name), session := s })
    (hsome : ∀ i, s.scopes[name]? = some i → P (next i)) : P (s.withScope name next) := by
  unfold withScope
  cases h : s.scopes[name]? with
  | none => exact hnone
  | some i => exact hsome i h

end Session
end ScriptEval
