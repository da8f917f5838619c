import ScriptEval.Proofs.Likeness
import ScriptEval.Proofs.Recording

/-! Steps of a session that run alike programs, in sessions that are alike: their answers are alike,
they write the same output, they record failures that are alike, and they leave alike sessions. -/
namespace ScriptEval
namespace Likeness

variable (L : Likeness)

/-- Sessions whose scopes are alike and have the same names. Their journals do not matter. -/
structure Sessions (s s' : Session) : Prop where
  world : L.Worlds s.world s'.world
  globals_eq : s.globals = s'.globals
  scopes_eq : s.scopes = s'.scopes

inductive Steps : Step → Step → Prop
  | interpret {ts ts' : List Stmt} (h : L.StmtLists ts ts') : Steps (.interpret ts) (.interpret ts')
  | evaluate {e e' : Expr} (h : L.Exprs e e') : Steps (.evaluate e) (.evaluate e')
  | execute {t t' : Stmt} (h : L.Stmts t t') : Steps (.execute t) (.execute t')
  | executeIn (a : String) {ts ts' : List Stmt} (h : L.StmtLists ts ts') :
      Steps (.executeIn a ts) (.executeIn a ts')

inductive Replies : Reply → Reply → Prop
  | nothing : Replies .nothing .nothing
  | flag (b : Bool) : Replies (.flag b) (.flag b)
  | value {a b : Value} (h : L.value a b) : Replies (.value a) (.value b)

inductive Refusals : Refusal → Refusal → Prop
  | halted {x y : Halt} (h : L.Halts x y) : Refusals (.halted x) (.halted y)
  | unknownScope (a : String) : Refusals (.unknownScope a) (.unknownScope a)

structure Effects (e e' : Effect) : Prop where
  reply : Outcomes L.Refusals L.Replies e.reply e'.reply
  output_eq : e.answer.output = e'.answer.output
  session : L.Sessions e.session e'.session

def Failures : List Failure → List Failure → Prop :=
  List.Forall₂ fun f g => L.Halts (.failed f) (.failed g)

/-- Tokens stand for themselves only, whatever may be said of values. -/
structure KeepsTokens : Prop where
  operator_eq {s t : Token} (h : L.operator s t) : s = t
  name_eq {s t : Token} (h : L.name s t) : s = t

namespace KeepsTokens

variable {L} (hL : L.KeepsTokens)

include hL

theorem halts_eq {x y : Halt} (h : L.Halts x y) : x = y := by
  cases h with
  | operands h m => rw [hL.operator_eq h]
  | undefined h => rw [hL.name_eq h]
  | unsupported k => rfl
  | hole o => rfl

theorem refusals_eq {x y : Refusal} (h : L.Refusals x y) : x = y := by
  cases h with
  | halted h => rw [hL.halts_eq h]
  | unknownScope a => rfl

theorem failures_eq {fs gs : List Failure} (h : L.Failures fs gs) : fs = gs := by
  induction h with
  | nil => rfl
  | cons h _ ih => rw [Halt.failed.inj (hL.halts_eq h),ih]

end KeepsTokens

variable {L} {s s' : Session}

theorem Runs.failures {r q : Run} (h : L.Runs r q) : L.Failures r.failures q.failures := by
  obtain ⟨o,w,ns⟩ := r
  obtain ⟨o',w',ns'⟩ := q
  obtain ⟨ho,-,-⟩ := h
  cases ho with
  | ok _ => exact .nil
  | error hx =>
    cases hx with
    | operands h m => exact .cons (.operands h m) .nil
    | undefined h => exact .cons (.undefined h) .nil
    | unsupported k => exact .nil
    | hole o => exact .nil

namespace Sessions

theorem afterRun (h : L.Sessions s s') {r q : Run} (hr : L.Runs r q) {p p' : Reply}
    (hp : L.Replies p p') : L.Effects (s.afterRun r p) (s'.afterRun q p') := by
  obtain ⟨o,w,ns⟩ := r
  obtain ⟨o',w',ns'⟩ := q
  obtain ⟨ho,hw,hl⟩ := hr
  refine ⟨?_,congrArg asLines hl,⟨hw,h.globals_eq,h.scopes_eq⟩⟩
  cases ho with
  | ok _ => exact .ok hp
  | error hx => exact .error (.halted hx)

theorem withScope (h : L.Sessions s s') (a : String) {next next' : ScopeId → Effect}
    (hn : ∀ i, L.Effects (next i) (next' i)) :
    L.Effects (s.withScope a next) (s'.withScope a next') := by
  unfold Session.withScope
  rw [← h.scopes_eq]
  cases s.scopes[a]? with
  | none => exact ⟨.error (.unknownScope a),rfl,h⟩
  | some i => exact hn i

theorem evaluate (h : L.Sessions s s') {e e' : Expr} (he : L.Exprs e e') :
    L.Effects (s.perform (.evaluate e)) (s'.perform (.evaluate e')) := by
  have hr := he.eval h.world.forest s.world.current
  rw [Session.perform,Session.perform,← h.world.current_eq]
  generalize e.eval s.world.current s.world.forest = r at hr ⊢
  generalize e'.eval s.world.current s'.world.forest = q at hr ⊢
  obtain ⟨o,F⟩ := r
  obtain ⟨o',G⟩ := q
  obtain ⟨ho,hF⟩ := hr
  refine ⟨?_,rfl,⟨⟨hF,h.world.current_eq⟩,h.globals_eq,h.scopes_eq⟩⟩
  cases ho with
  | ok hv => exact .ok (.value hv)
  | error hx => exact .error (.halted hx)

theorem interpret (h : L.Sessions s s') {ts ts' : List Stmt} (ht : L.StmtLists ts ts') :
    L.Effects (s.interpret ts) (s'.interpret ts') := by
  obtain ⟨ho,hw,hl⟩ := ht.runAll h.world
  generalize hr : (Stmt.runAll ts s.world).outcome = p at ho
  generalize hq : (Stmt.runAll ts' s'.world).outcome = q at ho
  cases ho with
  | ok _ =>
    rw [Session.interpret_of_ok hr,Session.interpret_of_ok hq]
    exact ⟨.ok (.flag true),by simp [Effect.answer,Notice.line?,List.filterMap_cons,hl],hw,
      h.globals_eq,h.scopes_eq⟩
  | error hx =>
    cases hx with
    | operands _ m | undefined _ =>
      rw [Session.interpret_of_failed hr,Session.interpret_of_failed hq]
      exact ⟨.ok (.flag false),by simp [Effect.answer,Notice.line?,List.filterMap_cons,hl],hw,
        h.globals_eq,h.scopes_eq⟩
    | unsupported k | hole o =>
      rw [Session.interpret_of_escaped hr (by simp),Session.interpret_of_escaped hq (by simp)]
      exact ⟨.error (.halted (by constructor)),congrArg asLines hl,hw,h.globals_eq,h.scopes_eq⟩

/-- Alike programs have alike effects in alike sessions, whichever way they are run. -/
theorem perform (h : L.Sessions s s') {t t' : Step} (ht : L.Steps t t') :
    L.Effects (s.perform t) (s'.perform t') := by
  cases ht with
  | interpret hp => exact h.interpret hp
  | evaluate he => exact h.evaluate he
  | execute ht => exact h.afterRun (ht.run h.world) .nothing
  | executeIn a hb =>
    refine h.withScope a fun i => h.afterRun ?_ .nothing
    exact .within h.world i fun _ _ => hb.runAll

theorem failures (h : L.Sessions s s') {t t' : Step} (ht : L.Steps t t') :
    L.Failures (t.failures s) (t'.failures s') := by
  cases ht with
  | interpret hp => exact (hp.runAll h.world).failures
  | evaluate | execute | executeIn => exact .nil

end Sessions
end Likeness
end ScriptEval
