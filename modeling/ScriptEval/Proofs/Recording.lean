import Mathlib.Data.List.DropRight
import ScriptEval.Proofs.Outcome
import ScriptEval.Session

/-! What the journal holds: the failures of programs and the reported ones, in order, since the last
reset. No other step adds a failure, also when it fails itself. -/
namespace ScriptEval

def Run.failures (r : Run) : List Failure :=
  match r.outcome with
  | .error (.failed f) => [f]
  | _ => []

namespace Step

def isReset : Step → Bool
  | reset => true
  | _ => false

theorem journal_cases (t : Step) :
    (∃ program, t = interpret program) ∨ (∃ f, t = report f) ∨ t = reset ∨
      (∀ program, t ≠ interpret program) ∧ (∀ f, t ≠ report f) ∧ t ≠ reset := by
  cases t <;> simp

def failures (s : Session) : Step → List Failure
  | interpret program => (Stmt.runAll program s.world).failures
  | report f => [f]
  | _ => []

end Step

/-- What is recorded in some steps, each with the session it is performed in, after the last reset
among them. -/
def recorded (history : List (Session × Step)) : List Failure :=
  (history.rtakeWhile fun p => !p.2.isReset).flatMap fun p => p.2.failures p.1

theorem recorded_concat (h : List (Session × Step)) (s : Session) (t : Step) :
    recorded (h ++ [(s,t)]) = if t.isReset then [] else recorded h ++ t.failures s := by
  unfold recorded
  cases ht : t.isReset
  · rw [List.rtakeWhile_concat_pos (fun p : Session × Step => !p.2.isReset) h (s,t) (by simp [ht])]
    simp
  · rw [List.rtakeWhile_concat_neg (fun p : Session × Step => !p.2.isReset) h (s,t) (by simp [ht])]
    simp

/-- What is told of a failure: its message, the line of its token, and a picture below if the source and the place
of the token are known. -/
def explanation (source : Option String) (d : Sketcher) (f : Failure) : String :=
  let message := match f with
    | .general _ m | .operands _ m => m
    | .undefined t => "Undefined variable '" ++ t.lexeme ++ "'."
  message ++ "\n[line " ++ toString f.token.line ++ "]" ++
    match source,f.token.offset with
    | some text,some i =>
      let (row,column) := d.place text i
      "\n" ++ d.draw (d.line text row) column (max f.token.lexeme.length 1) (margin row) message
    | _,_ => ""

theorem Journal.explain_eq (j : Journal) (f : Failure) :
    j.explain f = explanation j.source j.sketcher f := by
  have hm : f.message = (match f with
      | .general _ m | .operands _ m => m
      | .undefined t => "Undefined variable '" ++ t.lexeme ++ "'.") := by cases f <;> rfl
  unfold explain explanation
  rw [← hm]
  cases hs : j.source with
  | none => simp [Failure.text]
  | some text =>
    cases ho : f.token.offset with
    | none => simp [Failure.picture?,Failure.text,ho]
    | some i =>
      simp only [Failure.picture?,Failure.text,ho,Token.width,Option.bind_some,Option.map_some,
        String.append_assoc]

theorem asLines_map {α : Type} (xs : List α) (g : α → String) :
    asLines (xs.map g) = String.join (xs.map fun x => g x ++ "\n") := by
  rw [asLines,List.map_map]
  rfl

namespace Session

def after (s : Session) (ts : List Step) : Session := ts.foldl (fun s t => (s.perform t).session) s

def history (s : Session) : List Step → List (Session × Step)
  | [] => []
  | t :: ts => (s,t) :: (s.perform t).session.history ts

@[simp] theorem after_nil (s : Session) : s.after [] = s := rfl

@[simp] theorem after_cons (s : Session) (t : Step) (ts : List Step) :
    s.after (t :: ts) = (s.perform t).session.after ts := rfl

@[simp] theorem after_concat (s : Session) (ts : List Step) (t : Step) :
    s.after (ts ++ [t]) = ((s.after ts).perform t).session := by simp [after]

@[simp] theorem history_concat (s : Session) (ts : List Step) (t : Step) :
    s.history (ts ++ [t]) = s.history ts ++ [(s.after ts,t)] := by
  induction ts generalizing s with
  | nil => rfl
  | cons u ts ih => simp [history,ih]

theorem session_of_play {s : Session} {ts : List Step} {k : Nat} {e : Effect}
    (h : (s.play ts)[k]? = some e) : e.session = s.after (ts.take (k + 1)) := by
  induction ts generalizing s k with
  | nil => simp [play] at h
  | cons t ts ih =>
    cases k with
    | zero =>
      obtain rfl : s.perform t = e := by simpa [play] using h
      simp
    | succ k =>
      have hk := ih (s := (s.perform t).session) (k := k) (by simpa [play] using h)
      simpa using hk

variable {s : Session}

theorem failures_interpret (s : Session) (program : List Stmt) :
    (s.interpret program).session.journal.failures =
      s.journal.failures ++ (Stmt.runAll program s.world).failures := by
  rcases (Stmt.runAll program s.world).outcome_cases with h | ⟨f,h⟩ | ⟨x,hx,h⟩
  · simp [interpret_of_ok h,Run.failures,h]
  · simp [interpret_of_failed h,Run.failures,h,Journal.record]
  · rw [interpret_of_escaped h hx]
    cases x with
    | failed f => exact absurd rfl (hx f)
    | unsupported k => simp [Run.failures,h]
    | hole o => simp [Run.failures,h]

/-- A program that is told to have failed recorded its failure, and any other program recorded
nothing, whether it completed or a cause to halt passed through. -/
theorem reply_interpret_cases (s : Session) (program : List Stmt) :
    ((s.interpret program).reply = .ok (.flag false) ∧
      ∃ f, (Stmt.runAll program s.world).outcome = .error (.failed f) ∧
        (Stmt.runAll program s.world).failures = [f]) ∨
    (((s.interpret program).reply = .ok (.flag true) ∨
        ∃ x, (∀ f, x ≠ .failed f) ∧ (s.interpret program).reply = .error (.halted x)) ∧
      (Stmt.runAll program s.world).failures = []) := by
  rcases (Stmt.runAll program s.world).outcome_cases with h | ⟨f,h⟩ | ⟨x,hx,h⟩
  · right
    exact ⟨.inl (by rw [interpret_of_ok h]),by simp [Run.failures,h]⟩
  · left
    exact ⟨by rw [interpret_of_failed h],f,h,by simp [Run.failures,h]⟩
  · right
    refine ⟨.inr ⟨x,hx,by rw [interpret_of_escaped h hx]⟩,?_⟩
    cases x with
    | failed f => exact absurd rfl (hx f)
    | unsupported k => simp [Run.failures,h]
    | hole o => simp [Run.failures,h]

theorem journal_withScope {name : String} {next : ScopeId → Effect}
    (h : ∀ i, (next i).session.journal = s.journal) :
    (s.withScope name next).session.journal = s.journal :=
  withScope_cases (P := fun e => e.session.journal = s.journal) rfl fun i _ => h i

theorem journal_perform {t : Step} (hi : ∀ program, t ≠ .interpret program)
    (hr : ∀ f, t ≠ .report f) (hreset : t ≠ .reset) : (s.perform t).session.journal = s.journal := by
  cases t with
  | interpret p => exact absurd rfl (hi p)
  | report f => exact absurd rfl (hr f)
  | reset => exact absurd rfl hreset
  | executeIn _ _ | define _ _ _ | get _ _ | contains _ _ | enclosing _ | describe _ =>
    exact journal_withScope fun _ => rfl
  | assign a t v =>
    refine journal_withScope fun i => ?_
    split <;> rfl
  | restart a =>
    cases a with
    | none => rfl
    | some a => exact journal_withScope fun _ => rfl
  | newScope a around =>
    cases around with
    | none => rfl
    | some b => exact journal_withScope fun _ => rfl
  | assertOk m =>
    simp only [perform]
    split <;> rfl
  | evaluate _ | execute _ | remark _ _ | complain | explain _ | status => rfl

/-- What one step does to the failures in the journal. -/
theorem failures_perform (s : Session) (t : Step) : (s.perform t).session.journal.failures =
    if t.isReset then [] else s.journal.failures ++ t.failures s := by
  rcases t.journal_cases with ⟨program,rfl⟩ | ⟨f,rfl⟩ | rfl | ⟨hi,hr,hreset⟩
  · exact s.failures_interpret program
  · rfl
  · rfl
  · rw [journal_perform hi hr hreset]
    cases t <;> simp_all [Step.isReset,Step.failures]

theorem journal_perform_eq (s : Session) (t : Step) : (s.perform t).session.journal =
    { s.journal with failures := (s.perform t).session.journal.failures } := by
  rcases t.journal_cases with ⟨program,rfl⟩ | ⟨f,rfl⟩ | rfl | ⟨hi,hr,hreset⟩
  · rcases (Stmt.runAll program s.world).outcome_cases with h | ⟨f,h⟩ | ⟨x,hx,h⟩
    · simp [perform,interpret_of_ok h]
    · simp [perform,interpret_of_failed h,Journal.record]
    · simp [perform,interpret_of_escaped h hx]
  · rfl
  · rfl
  · rw [journal_perform hi hr hreset]

theorem journal_after (s : Session) (ts : List Step) :
    (s.after ts).journal = { s.journal with failures := (s.after ts).journal.failures } := by
  induction ts generalizing s with
  | nil => rfl
  | cons t ts ih => rw [after_cons,ih,journal_perform_eq]

theorem explain_after (s : Session) (ts : List Step) (f : Failure) :
    (s.after ts).journal.explain f = explanation s.journal.source s.journal.sketcher f := by
  rw [journal_after,Journal.explain_eq]

/-- From a session with no failures on, the journal holds what was recorded. -/
theorem failures_after (h : s.journal.failures = []) (ts : List Step) :
    (s.after ts).journal.failures = recorded (s.history ts) := by
  induction ts using List.reverseRecOn with
  | nil => exact h
  | append_singleton ts t ih => rw [after_concat,failures_perform,history_concat,recorded_concat,ih]

theorem shown_complaints (j : Journal) : j.shown j.complaints = j.failures.map j.explain := by
  have hs : ∀ f : Failure, ((Notice.explained f).line?.isNone &&
      (Notice.explained f).shownAt j.verbosity) = true := fun _ => rfl
  have ht : ∀ f : Failure, (Notice.explained f).text j.explain = j.explain f := fun _ => rfl
  simp [Journal.shown,Journal.complaints,List.filter_map,Function.comp_def,hs,ht]

theorem perform_status (s : Session) : (s.perform .status).reply =
    .ok (.status (decide (s.journal.failures = [])) (decide (s.journal.failures ≠ []))
      (if s.journal.failures = [] then 0 else 70) s.journal.failures) := by
  cases h : s.journal.failures <;>
    simp [perform,Journal.ok,Journal.sick,Journal.exitStatus,h]

theorem chatter_complain (s : Session) : (s.perform .complain).answer.chatter =
    asLines (s.journal.failures.map s.journal.explain) := by
  rw [← shown_complaints]
  rfl

theorem perform_assertOk (s : Session) (m : String) :
    ((s.perform (.assertOk m)).reply = match s.journal.failures with
      | [] => .ok .nothing
      | f :: _ => .error (.notOk (if m = "" then f.message else m))) ∧
    (s.perform (.assertOk m)).answer.chatter =
      asLines (s.journal.failures.map s.journal.explain) := by
  rw [← shown_complaints]
  cases h : s.journal.failures <;> simp [perform,h,Effect.answer,Journal.complaints,Journal.shown]

/-- At every point of a session the journal holds the failures of the programs that were told to
have failed and the reported ones, since the last reset and in order. Nothing else is recorded, and
all that is asked of the journal is answered from that list. -/
theorem failures_recorded (verbosity : Int) (source : Option String) (d : Sketcher)
    (steps : List Step) :
    let s₀ := start verbosity source d
    let s := s₀.after steps
    let fs := s.journal.failures
    let told := String.join (fs.map fun f => explanation source d f ++ "\n")
    (∀ (k : Nat) (e : Effect), (s₀.play steps)[k]? = some e →
      e.session = s₀.after (steps.take (k + 1))) ∧
    fs = recorded (s₀.history steps) ∧
    (∀ program : List Stmt,
      let e := s.perform (.interpret program)
      (e.reply = .ok (.flag false) ∧ ∃ f, (Stmt.runAll program s.world).outcome = .error (.failed f) ∧
        e.session.journal.failures = fs ++ [f]) ∨
      ((e.reply = .ok (.flag true) ∨ ∃ x, (∀ f, x ≠ .failed f) ∧ e.reply = .error (.halted x)) ∧
        e.session.journal.failures = fs)) ∧
    (∀ f : Failure, (s.perform (.report f)).session.journal.failures = fs ++ [f]) ∧
    (s.perform .reset).session.journal.failures = [] ∧
    (∀ t : Step, (∀ program, t ≠ .interpret program) → (∀ f, t ≠ .report f) → t ≠ .reset →
      (s.perform t).session.journal.failures = fs) ∧
    (s.perform .status).reply =
      .ok (.status (decide (fs = [])) (decide (fs ≠ [])) (if fs = [] then 0 else 70) fs) ∧
    (s.perform .complain).answer.chatter = told ∧
    ∀ m : String,
      let e := s.perform (.assertOk m)
      (e.reply = match fs with
        | [] => .ok .nothing
        | f :: _ => .error (.notOk (if m = "" then f.message else m))) ∧
      e.answer.chatter = told := by
  intro s₀ s fs told
  have ht : asLines (fs.map s.journal.explain) = told := by
    rw [asLines_map]
    exact congrArg String.join (List.map_congr_left fun f _ => congrArg (· ++ "\n")
      (explain_after s₀ steps f))
  refine ⟨fun k e => session_of_play,failures_after rfl steps,fun program => ?_,fun f => rfl,rfl,
    fun t hi hr hreset => congrArg Journal.failures (journal_perform hi hr hreset),s.perform_status,
    s.chatter_complain.trans ht,fun m => ⟨(s.perform_assertOk m).1,(s.perform_assertOk m).2.trans ht⟩⟩
  have hf := s.failures_interpret program
  rcases s.reply_interpret_cases program with ⟨hr,f,ho,h⟩ | ⟨hr,h⟩
  · left
    exact ⟨hr,f,ho,by rw [← h]; exact hf⟩
  · right
    exact ⟨hr,by rw [h,List.append_nil] at hf; exact hf⟩

/-- A program fails twice, with a reset between and another failure reported after that. -/
theorem failures_recorded_reset :
    let x : Token := ⟨.identifier,"x",1,some 4⟩
    let y : Token := ⟨.identifier,"y",2,none⟩
    let bad : Step := .interpret [.expression (.name x)]
    let s := (start 0 (some "1 + x;")).after [bad,.reset,.report (.general y "late"),bad]
    s.journal.failures = [.general y "late",.undefined x] ∧
      (s.perform .complain).session.journal.failures = s.journal.failures ∧
      (s.perform .complain).answer.chatter = "late\n[line 2]\n" ++
        "Undefined variable 'x'.\n[line 1]\n     1 |1 + x;\n            ^ Undefined variable 'x'.\n" := by
  intro x y bad s
  obtain ⟨_,hf,_,_,_,hkept,_,hc,_⟩ :=
    failures_recorded 0 (some "1 + x;") .plain [bad,.reset,.report (.general y "late"),bad]
  have hfs : s.journal.failures = [.general y "late",.undefined x] := hf.trans (by rfl)
  have hkept : (s.perform .complain).session.journal.failures = s.journal.failures :=
    hkept .complain (by simp) (by simp) (by simp)
  have hc : (s.perform .complain).answer.chatter = String.join (s.journal.failures.map fun f =>
    explanation (some "1 + x;") .plain f ++ "\n") := hc
  rw [hfs] at hc
  exact ⟨hfs,hkept,hc.trans (by decide +kernel)⟩

end Session
end ScriptEval
