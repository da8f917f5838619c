import Mathlib.Data.List.ModifyLast
import ScriptEval.Proofs.Outcome
import ScriptEval.Proofs.RunInduction
import ScriptEval.Session

/-! A program in two parts. When the first part completes, running the second after it is running
both as one program, up to the count of statements that is told at the end; when it does not, the
second part is never looked at. -/
namespace ScriptEval

namespace Notice

def count? : Notice → Option Nat
  | stopped n | finished n => some n
  | _ => none

def advance (k : Nat) : Notice → Notice
  | stopped n => stopped (n + k)
  | finished n => finished (n + k)
  | n => n

@[simp] theorem line?_advance (k : Nat) (n : Notice) : (n.advance k).line? = n.line? := by
  cases n <;> rfl

theorem advance_of_count? {n : Notice} (h : n.count? = none) (k : Nat) : n.advance k = n := by
  cases n with
  | stopped _ => simp [count?] at h
  | finished _ => simp [count?] at h
  | _ => rfl

theorem modifyLast_advance {ns : List Notice} (h : ∀ n ∈ ns, n.count? = none) (k : Nat) :
    ns.modifyLast (advance k) = ns := by
  rcases List.eq_nil_or_concat ns with rfl | ⟨ms,n,rfl⟩
  · rfl
  · rw [List.concat_eq_append,List.modifyLast_concat,advance_of_count? (h n (by simp))]

theorem modifyLast_advance_zero (ns : List Notice) : ns.modifyLast (advance 0) = ns := by
  rcases List.eq_nil_or_concat ns with rfl | ⟨ms,n,rfl⟩
  · rfl
  · rw [List.concat_eq_append,List.modifyLast_concat]
    cases n <;> rfl

theorem lines_modifyLast_advance (ns : List Notice) (k : Nat) :
    (ns.modifyLast (advance k)).filterMap line? = ns.filterMap line? := by
  rcases List.eq_nil_or_concat ns with rfl | ⟨ms,n,rfl⟩
  · rfl
  · rw [List.concat_eq_append,List.modifyLast_concat,List.filterMap_append,List.filterMap_append]
    simp [List.filterMap_cons]

end Notice

namespace Journal

theorem shown_append (j : Journal) (ns ms : List Notice) :
    j.shown (ns ++ ms) = j.shown ns ++ j.shown ms := by simp [shown]

theorem shown_record (j : Journal) (f : Failure) (ns : List Notice) :
    (j.record f).shown ns = j.shown ns := rfl

end Journal

theorem asLines_append (as bs : List String) : asLines (as ++ bs) = asLines as ++ asLines bs := by
  simp [asLines,String.join_append]

def Journal.said (j : Journal) (text : String) : String :=
  if 1 ≤ j.verbosity then text ++ "\n" else ""

theorem Journal.asLines_shown_of_level (j : Journal) {n : Notice} (hl : n.line? = none)
    (h : n.level? = some 1) : asLines (j.shown [n]) = j.said (n.text j.explain) := by
  by_cases hv : 1 ≤ j.verbosity <;>
    simp [shown,said,asLines,Notice.shownAt,hl,h,hv,String.join]

namespace Run

/-- The run tells of no count: only whoever runs a whole program does. -/
def Countless (r : Run) : Prop := ∀ n ∈ r.notices, n.count? = none

theorem andThen_assoc (r : Run) (f g : World → Run) :
    (r.andThen f).andThen g = r.andThen fun w => (f w).andThen g := by
  cases hr : r.outcome with
  | error x => rw [andThen_of_error hr,andThen_of_error hr,andThen_of_error hr]
  | ok _ =>
    rw [andThen_of_ok hr,andThen_of_ok hr]
    cases hf : (f r.world).outcome with
    | error x => simp [andThen,hf]
    | ok _ => simp [andThen,hf,List.append_assoc]

end Run

namespace Stmt

theorem countless_runAll (ts : List Stmt) (w : World) : (runAll ts w).Countless :=
  (Run.compositional_notices (fun _ => rfl) (fun _ _ => rfl) fun _ _ => rfl).runAll ts w

theorem runAll_append (ss ts : List Stmt) (w : World) :
    runAll (ss ++ ts) w = (runAll ss w).andThen (runAll ts) := by
  induction ss generalizing w with
  | nil => rfl
  | cons s ss ih =>
    have h : runAll (ss ++ ts) = fun w => (runAll ss w).andThen (runAll ts) := funext ih
    rw [List.cons_append,runAll,runAll,Run.andThen_assoc,h]

theorem count_append_of_ok {ss : List Stmt} {w : World} (h : (runAll ss w).outcome = .ok ())
    (ts : List Stmt) : (runCounting (ss ++ ts) w).2 =
      (runCounting ts (runAll ss w).world).2 + ss.length := by
  induction ss generalizing w with
  | nil => rfl
  | cons s ss ih =>
    rw [runAll] at h
    cases hs : (s.run w).outcome with
    | error x =>
      rw [Run.andThen_of_error hs,hs] at h
      cases h
    | ok _ =>
      rw [Run.andThen_of_ok hs] at h
      rw [List.cons_append,runCounting_of_ok hs,ih h,runAll,Run.andThen_of_ok hs]
      rfl

theorem count_append_of_error {ss : List Stmt} {w : World} {x : Halt}
    (h : (runAll ss w).outcome = .error x) (ts : List Stmt) :
    (runCounting (ss ++ ts) w).2 = (runCounting ss w).2 := by
  induction ss generalizing w with
  | nil => cases h
  | cons s ss ih =>
    cases hs : (s.run w).outcome with
    | error y => rw [List.cons_append,runCounting_of_error hs,runCounting_of_error hs]
    | ok _ =>
      rw [runAll,Run.andThen_of_ok hs] at h
      rw [List.cons_append,runCounting_of_ok hs,runCounting_of_ok hs,ih h]

theorem count_of_ok {ss : List Stmt} {w : World} (h : (runAll ss w).outcome = .ok ()) :
    (runCounting ss w).2 = ss.length := by
  have := count_append_of_ok h []
  rwa [List.append_nil,runCounting,Nat.zero_add] at this

end Stmt

namespace Session

variable {s : Session} {ss ts : List Stmt}

theorem interpret_append_of_error {x : Halt} (h : (Stmt.runAll ss s.world).outcome = .error x)
    (ts : List Stmt) : s.interpret (ss ++ ts) = s.interpret ss := by
  have hr : Stmt.runAll (ss ++ ts) s.world = Stmt.runAll ss s.world := by
    rw [Stmt.runAll_append,Run.andThen_of_error h]
  have hc := Stmt.count_append_of_error h ts
  by_cases hx : ∃ f, x = .failed f
  · obtain ⟨f,rfl⟩ := hx
    rw [interpret_of_failed h,interpret_of_failed (hr ▸ h),hr,hc]
  · have hx : ∀ f, x ≠ .failed f := fun f hf => hx ⟨f,hf⟩
    rw [interpret_of_escaped h hx,interpret_of_escaped (hr ▸ h) hx,hr]

theorem reply_interpret_eq_true_iff :
    (s.interpret ss).reply = .ok (.flag true) ↔ (Stmt.runAll ss s.world).outcome = .ok () := by
  rcases (Stmt.runAll ss s.world).outcome_cases with h | ⟨f,h⟩ | ⟨x,hx,h⟩
  · simp [interpret_of_ok h,h]
  · simp [interpret_of_failed h,h]
  · simp [interpret_of_escaped h hx,h]

theorem shown_interpret (s : Session) (program : List Stmt) (ns : List Notice) :
    (s.interpret program).session.journal.shown ns = s.journal.shown ns := by
  rcases (Stmt.runAll program s.world).outcome_cases with h | ⟨f,h⟩ | ⟨x,hx,h⟩
  · rw [interpret_of_ok h]
  · rw [interpret_of_failed h,Journal.shown_record]
  · rw [interpret_of_escaped h hx]

theorem count?_dropLast_interpret (s : Session) (program : List Stmt) :
    ∀ n ∈ (s.interpret program).notices.dropLast, n.count? = none := by
  have hr := Stmt.countless_runAll program s.world
  rcases (Stmt.runAll program s.world).outcome_cases with h | ⟨f,h⟩ | ⟨x,hx,h⟩
  · rw [interpret_of_ok h,List.dropLast_concat]
    exact hr
  · rw [interpret_of_failed h,List.dropLast_append_of_ne_nil (by simp)]
    intro n hn
    rcases List.mem_append.mp hn with hn | hn
    · exact hr n hn
    · obtain rfl : n = .failure f := by simpa using hn
      rfl
  · rw [interpret_of_escaped h hx]
    exact fun n hn => hr n (List.dropLast_subset _ hn)

/-- After a first part that completes, the whole program ends like the second part, and tells what
the first part told until its end and then what the second tells, with the count of both. -/
theorem interpret_append_of_ok (h : (Stmt.runAll ss s.world).outcome = .ok ()) (ts : List Stmt) :
    let second := (s.interpret ss).session.interpret ts
    s.interpret (ss ++ ts) =
      { second with
        notices := (Stmt.runAll ss s.world).notices ++
          second.notices.modifyLast (Notice.advance ss.length) } := by
  intro second
  have hr : Stmt.runAll (ss ++ ts) s.world =
      ⟨(Stmt.runAll ts (Stmt.runAll ss s.world).world).outcome,
        (Stmt.runAll ts (Stmt.runAll ss s.world).world).world,
        (Stmt.runAll ss s.world).notices ++
          (Stmt.runAll ts (Stmt.runAll ss s.world).world).notices⟩ := by
    rw [Stmt.runAll_append,Run.andThen_of_ok h]
  have hc := Stmt.count_append_of_ok h ts
  have h₁ : (s.interpret ss).session = { s with world := (Stmt.runAll ss s.world).world } := by
    rw [interpret_of_ok h]
  have ho : (Stmt.runAll (ss ++ ts) s.world).outcome =
      (Stmt.runAll ts (s.interpret ss).session.world).outcome := by rw [hr,h₁]
  rcases (Stmt.runAll ts (s.interpret ss).session.world).outcome_cases with h₂ | ⟨f,h₂⟩ | ⟨x,hx,h₂⟩
  · have hs : second = _ := interpret_of_ok h₂
    rw [interpret_of_ok (ho.trans h₂),hs,List.modifyLast_concat,hc,hr,h₁]
    simp [Notice.advance]
  · have hs : second = _ := interpret_of_failed h₂
    rw [interpret_of_failed (ho.trans h₂),hs,List.modifyLast_append_of_right_ne_nil _ _ _ (by simp),
      hc,hr,h₁]
    simp [Notice.advance,List.modifyLast,List.modifyLast.go]
  · have hs : second = _ := interpret_of_escaped h₂ hx
    rw [interpret_of_escaped (ho.trans h₂) hx,hs,
      Notice.modifyLast_advance (Stmt.countless_runAll ts _),hr,h₁]

theorem chatter_interpret (s : Session) (program : List Stmt) :
    (s.interpret program).answer.chatter = asLines (s.journal.shown (s.interpret program).notices) :=
  congrArg asLines (shown_interpret s program _)

/-- How what is written of a program ends, also where `k` more statements are counted. -/
theorem shown_interpret_cases (s : Session) (ts : List Stmt) :
    ∃ between : String,
      ((s.interpret ts).reply = .ok (.flag true) ∧
        ∀ k, asLines (s.journal.shown ((s.interpret ts).notices.modifyLast (Notice.advance k))) =
          between ++ s.journal.said ("Executed " ++ toString (ts.length + k) ++ " statement(s).")) ∨
      ((s.interpret ts).reply = .ok (.flag false) ∧ ∃ n : Nat,
        ∀ k, asLines (s.journal.shown ((s.interpret ts).notices.modifyLast (Notice.advance k))) =
          between ++ s.journal.said ("Stopped after " ++ toString (n + k) ++ " statement(s).")) ∨
      ((∃ x, (s.interpret ts).reply = .error (.halted x)) ∧
        ∀ k, asLines (s.journal.shown ((s.interpret ts).notices.modifyLast (Notice.advance k))) =
          between) := by
  rcases (Stmt.runAll ts s.world).outcome_cases with h | ⟨f,h⟩ | ⟨x,hx,h⟩
  · refine ⟨asLines (s.journal.shown (Stmt.runAll ts s.world).notices),.inl ?_⟩
    rw [interpret_of_ok h,Stmt.count_of_ok h]
    refine ⟨rfl,fun k => ?_⟩
    rw [List.modifyLast_concat,Journal.shown_append,asLines_append]
    exact congrArg _ (s.journal.asLines_shown_of_level rfl rfl)
  · refine ⟨asLines (s.journal.shown ((Stmt.runAll ts s.world).notices ++ [.failure f])),
      .inr (.inl ?_)⟩
    rw [interpret_of_failed h]
    refine ⟨rfl,(Stmt.runCounting ts s.world).2,fun k => ?_⟩
    rw [List.append_cons,List.modifyLast_concat,Journal.shown_append,asLines_append]
    exact congrArg _ (s.journal.asLines_shown_of_level rfl rfl)
  · refine ⟨asLines (s.journal.shown (Stmt.runAll ts s.world).notices),.inr (.inr ?_)⟩
    rw [interpret_of_escaped h hx]
    exact ⟨⟨x,rfl⟩,fun k => by rw [Notice.modifyLast_advance (Stmt.countless_runAll ts _)]⟩

section Parts

variable (h : (Stmt.runAll ss s.world).outcome = .ok ()) (ts : List Stmt)

include h

theorem notices_interpret_of_ok :
    (s.interpret ss).notices = (Stmt.runAll ss s.world).notices ++ [.finished ss.length] := by
  rw [interpret_of_ok h,Stmt.count_of_ok h]

theorem notices_interpret_append :
    (s.interpret (ss ++ ts)).notices = (s.interpret ss).notices.dropLast ++
      ((s.interpret ss).session.interpret ts).notices.modifyLast (Notice.advance ss.length) := by
  rw [interpret_append_of_ok h,notices_interpret_of_ok h,List.dropLast_concat]

theorem output_interpret_append :
    (s.interpret (ss ++ ts)).answer.output =
      (s.interpret ss).answer.output ++ ((s.interpret ss).session.interpret ts).answer.output := by
  have hl : (s.interpret ss).notices.dropLast.filterMap Notice.line? =
      (s.interpret ss).notices.filterMap Notice.line? := by
    rw [notices_interpret_of_ok h,List.dropLast_concat,List.filterMap_append]
    simp [Notice.line?]
  simp only [Effect.answer,notices_interpret_append h]
  rw [List.filterMap_append,asLines_append,hl,Notice.lines_modifyLast_advance]

theorem chatter_interpret_of_ok :
    (s.interpret ss).answer.chatter = asLines (s.journal.shown (s.interpret ss).notices.dropLast) ++
      s.journal.said ("Executed " ++ toString ss.length ++ " statement(s).") := by
  rw [chatter_interpret,notices_interpret_of_ok h,List.dropLast_concat,Journal.shown_append,
    asLines_append]
  exact congrArg _ (s.journal.asLines_shown_of_level rfl rfl)

theorem chatter_interpret_append :
    (s.interpret (ss ++ ts)).answer.chatter =
      asLines (s.journal.shown (s.interpret ss).notices.dropLast) ++
        asLines (s.journal.shown
          (((s.interpret ss).session.interpret ts).notices.modifyLast (Notice.advance ss.length))) := by
  rw [chatter_interpret,notices_interpret_append h,Journal.shown_append,asLines_append]

end Parts

/-- A program in two parts is one program: the first part keeps to itself that it is over, and the
second counts the statements of both. If the first part does not complete, the rest is not run. -/
theorem interpret_append (s : Session) (ss ts : List Stmt) :
    let first := s.interpret ss
    let second := first.session.interpret ts
    let whole := s.interpret (ss ++ ts)
    let counted := second.notices.modifyLast (Notice.advance ss.length)
    let said := fun text : String => if 1 ≤ s.journal.verbosity then text ++ "\n" else ""
    (first.reply = .ok (.flag true) →
      whole.reply = second.reply ∧ whole.session = second.session ∧
      first.notices.getLast? = some (.finished ss.length) ∧
      (∀ n ∈ second.notices.dropLast, n.count? = none) ∧
      whole.notices = first.notices.dropLast ++ counted ∧
      whole.answer.output = first.answer.output ++ second.answer.output ∧
      ∃ before between : String,
        first.answer.chatter =
          before ++ said ("Executed " ++ toString ss.length ++ " statement(s).") ∧
        (second.reply = .ok (.flag true) ∧
            second.answer.chatter =
              between ++ said ("Executed " ++ toString ts.length ++ " statement(s).") ∧
            whole.answer.chatter = before ++ between ++
              said ("Executed " ++ toString (ts.length + ss.length) ++ " statement(s).") ∨
          second.reply = .ok (.flag false) ∧ (∃ n : Nat,
            second.answer.chatter =
              between ++ said ("Stopped after " ++ toString n ++ " statement(s).") ∧
            whole.answer.chatter = before ++ between ++
              said ("Stopped after " ++ toString (n + ss.length) ++ " statement(s).")) ∨
          (∃ x, second.reply = .error (.halted x)) ∧ second.answer.chatter = between ∧
            whole.answer.chatter = before ++ between)) ∧
    (first.reply ≠ .ok (.flag true) → whole = first) := by
  intro first second whole counted said
  constructor
  · intro h
    have h := reply_interpret_eq_true_iff.mp h
    have hw : whole = _ := interpret_append_of_ok h ts
    have hlast : first.notices.getLast? = some (.finished ss.length) := by
      rw [notices_interpret_of_ok h,List.getLast?_concat]
    refine ⟨by rw [hw],by rw [hw],hlast,count?_dropLast_interpret first.session ts,
      notices_interpret_append h ts,output_interpret_append h ts,?_⟩
    have hj : first.session.journal = s.journal := by simp only [first,interpret_of_ok h]
    have hwhole := chatter_interpret_append h ts
    have hsecond : second.answer.chatter =
        asLines (s.journal.shown (second.notices.modifyLast (Notice.advance 0))) := by
      rw [Notice.modifyLast_advance_zero,← hj]
      exact chatter_interpret first.session ts
    obtain ⟨between,hc⟩ := shown_interpret_cases first.session ts
    rw [hj] at hc
    have hends : ∀ t, asLines (s.journal.shown counted) = between ++ t →
        whole.answer.chatter = asLines (s.journal.shown first.notices.dropLast) ++ between ++ t :=
      fun t ht => by rw [hwhole,ht,String.append_assoc]
    refine ⟨_,between,chatter_interpret_of_ok h,?_⟩
    rcases hc with ⟨hr,hc⟩ | ⟨hr,n,hc⟩ | ⟨hr,hc⟩
    · left
      exact ⟨hr,hsecond.trans (hc 0),hends _ (hc ss.length)⟩
    · right; left
      exact ⟨hr,n,hsecond.trans (hc 0),hends _ (hc ss.length)⟩
    · right; right
      exact ⟨hr,hsecond.trans (hc 0),hwhole.trans (congrArg _ (hc ss.length))⟩
  · intro h
    cases ho : (Stmt.runAll ss s.world).outcome with
    | ok _ => exact absurd (reply_interpret_eq_true_iff.mpr ho) h
    | error x => exact interpret_append_of_error ho ts

theorem interpret_append_print_fail :
    let s := start 1 none
    let x : Token := ⟨.identifier,"x",1,none⟩
    let good : List Stmt := [.print (.literal .nil none) none]
    let bad : List Stmt := [.expression (.name x)]
    ((s.interpret good).reply = .ok (.flag true) ∧
      (s.interpret (good ++ bad)).notices = [.line "nil",.failure (.undefined x),.stopped 1] ∧
      (s.interpret good).answer.chatter = "Executed 1 statement(s).\n" ∧
      ((s.interpret good).session.interpret bad).answer.chatter =
        "Runtime error: Undefined variable 'x'. at 'x'\nStopped after 0 statement(s).\n" ∧
      (s.interpret (good ++ bad)).answer.chatter =
        "Runtime error: Undefined variable 'x'. at 'x'\nStopped after 1 statement(s).\n") ∧
    ((s.interpret bad).reply ≠ .ok (.flag true) ∧
      (s.interpret (bad ++ good)).notices = [.failure (.undefined x),.stopped 0]) := by
  intro s x good bad
  have hg : (s.interpret good).reply = .ok (.flag true) := rfl
  have hb : (s.interpret bad).reply ≠ .ok (.flag true) := by
    have : (s.interpret bad).reply = .ok (.flag false) := rfl
    simp [this]
  obtain ⟨_,_,_,_,hn,_⟩ := (interpret_append s good bad).1 hg
  exact ⟨⟨hg,hn,by decide +kernel,by decide +kernel,by decide +kernel⟩,hb,
    congrArg Effect.notices ((interpret_append s bad good).2 hb)⟩

end Session
end ScriptEval
