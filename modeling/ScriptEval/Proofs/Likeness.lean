import ScriptEval.Proofs.Chain
import ScriptEval.Proofs.Outcome
import ScriptEval.Session

/-! Programs that are alike up to what a likeness lets stand for each other: tokens, names and values.
Where operators treat alike values alike, such programs run alike: from scopes that are alike they
end alike, print the same lines, and leave scopes that are alike. -/
namespace ScriptEval

/-- Two outcomes of one kind: two values, or two errors, that stand for each other. -/
inductive Outcomes {ε ε' α α' : Type} (E : ε → ε' → Prop) (V : α → α' → Prop) :
    Except ε α → Except ε' α' → Prop
  | ok {a : α} {b : α'} (h : V a b) : Outcomes E V (.ok a) (.ok b)
  | error {x : ε} {y : ε'} (h : E x y) : Outcomes E V (.error x) (.error y)

theorem Outcomes.mapError {ε ε' η η' α α' : Type} {E : ε → ε' → Prop} {E' : η → η' → Prop}
    {V : α → α' → Prop} {p : Except ε α} {q : Except ε' α'} {f : ε → η} {g : ε' → η'}
    (h : Outcomes E V p q) (hf : ∀ x y, E x y → E' (f x) (g y)) :
    Outcomes E' V (p.mapError f) (q.mapError g) := by
  cases h with
  | ok h => exact .ok h
  | error h => exact .error (hf _ _ h)

theorem Outcomes.refl {ε α : Type} (p : Except ε α) : Outcomes Eq Eq p p := by
  cases p with
  | ok a => exact .ok rfl
  | error x => exact .error rfl

theorem Outcomes.of_ok {ε ε' α α' : Type} {E : ε → ε' → Prop} {V : α → α' → Prop}
    {p : Except ε α} {q : Except ε' α'} {a : α} (h : Outcomes E V p q) (hp : p = .ok a) :
    ∃ b, q = .ok b ∧ V a b := by
  subst hp
  cases h with
  | ok h => exact ⟨_,rfl,h⟩

theorem Outcomes.of_error {ε ε' α α' : Type} {E : ε → ε' → Prop} {V : α → α' → Prop}
    {p : Except ε α} {q : Except ε' α'} {x : ε} (h : Outcomes E V p q) (hp : p = .error x) :
    ∃ y, q = .error y ∧ E x y := by
  subst hp
  cases h with
  | error h => exact ⟨_,rfl,h⟩

/-- What may stand for what: tokens of operators of one kind, tokens of names, names each for one
other, and values that no operator, condition or printed line tells apart. -/
structure Likeness where
  operator : Token → Token → Prop
  name : Token → Token → Prop
  label : String → String → Prop
  value : Value → Value → Prop
  kind_eq {s t : Token} (h : operator s t) : s.kind = t.kind
  label_of_name {s t : Token} (h : name s t) : label s.lexeme t.lexeme
  label_unique {m n m' n' : String} (h : label m n) (h' : label m' n') : m = m' ↔ n = n'
  nil : value .nil .nil
  truthy_eq {a b : Value} (h : value a b) : a.truthy = b.truthy
  display_eq {a b : Value} (h : value a b) : a.display = b.display
  unary (f : UnaryOp) {a b : Value} (h : value a b) : Outcomes Eq value (f.apply a) (f.apply b)
  binary (f : BinaryOp) {a b c d : Value} (h : value a b) (h' : value c d) :
    Outcomes Eq value (f.apply a c) (f.apply b d)

namespace Likeness

variable (L : Likeness)

inductive Halts : Halt → Halt → Prop
  | operands {s t : Token} (h : L.operator s t) (m : String) :
      Halts (.failed (.operands s m)) (.failed (.operands t m))
  | undefined {s t : Token} (h : L.name s t) :
      Halts (.failed (.undefined s)) (.failed (.undefined t))
  | unsupported (k : Token.Kind) : Halts (.unsupported k) (.unsupported k)
  | hole (h : Hole) : Halts (.hole h) (.hole h)

/-- Expressions of one shape. The tokens that were kept with literals do not matter. -/
inductive Exprs : Expr → Expr → Prop
  | literal {a b : Value} (h : L.value a b) (s t : Option Token) :
      Exprs (.literal a s) (.literal b t)
  | grouping {e e' : Expr} (h : Exprs e e') : Exprs (.grouping e) (.grouping e')
  | unary {s t : Token} {r r' : Expr} (ho : L.operator s t) (h : Exprs r r') :
      Exprs (.unary s r) (.unary t r')
  | binary {s t : Token} {l l' r r' : Expr} (hl : Exprs l l') (ho : L.operator s t)
      (hr : Exprs r r') : Exprs (.binary l s r) (.binary l' t r')
  | name {s t : Token} (h : L.name s t) : Exprs (.name s) (.name t)
  | assign {s t : Token} {e e' : Expr} (hn : L.name s t) (h : Exprs e e') :
      Exprs (.assign s e) (.assign t e')
  | hole (h : Hole) : Exprs (.hole h) (.hole h)

mutual

inductive Stmts : Stmt → Stmt → Prop
  | expression {e e' : Expr} (h : L.Exprs e e') : Stmts (.expression e) (.expression e')
  | print {e e' : Expr} (h : L.Exprs e e') (s t : Option Token) : Stmts (.print e s) (.print e' t)
  | var {s t : Token} (h : L.name s t) : Stmts (.var s none) (.var t none)
  | varTo {s t : Token} {e e' : Expr} (hn : L.name s t) (h : L.Exprs e e') :
      Stmts (.var s (some e)) (.var t (some e'))
  | block {ss ts : List Stmt} (h : StmtLists ss ts) (s t : Option Token) :
      Stmts (.block ss s) (.block ts t)
  | ifThen {c c' : Expr} {y y' : Stmt} (hc : L.Exprs c c') (hy : Stmts y y') :
      Stmts (.ifThen c y) (.ifThen c' y')
  | ifElse {c c' : Expr} {y y' n n' : Stmt} (hc : L.Exprs c c') (hy : Stmts y y')
      (hn : Stmts n n') : Stmts (.ifElse c y n) (.ifElse c' y' n')
  | hole (h : Hole) : Stmts (.hole h) (.hole h)

inductive StmtLists : List Stmt → List Stmt → Prop
  | nil : StmtLists [] []
  | cons {s t : Stmt} {ss ts : List Stmt} (h : Stmts s t) (hs : StmtLists ss ts) :
      StmtLists (s :: ss) (t :: ts)

end

structure Forests (F G : Forest) : Prop where
  size_eq : F.size = G.size
  outer_eq (i : ScopeId) : F.outer i = G.outer i
  bindings (i : ScopeId) {m n : String} (h : L.label m n) :
    Option.Rel L.value (F.bindings i)[m]? (G.bindings i)[n]?

structure Evaluations (r q : Evaluation) : Prop where
  outcome : Outcomes L.Halts L.value r.outcome q.outcome
  forest : L.Forests r.forest q.forest

structure Worlds (w w' : World) : Prop where
  forest : L.Forests w.forest w'.forest
  current_eq : w.current = w'.current

structure Runs (r q : Run) : Prop where
  outcome : Outcomes L.Halts Eq r.outcome q.outcome
  world : L.Worlds r.world q.world
  lines : r.notices.filterMap Notice.line? = q.notices.filterMap Notice.line?

variable {L} {F G : Forest} {m n : String} {a b : Value} {s t : Token}

namespace Forests

theorem path_eq (h : L.Forests F G) (i : ScopeId) : F.path i = G.path i := by
  rw [Forest.path,h.outer_eq i,Forest.path]

theorem mem_iff (h : L.Forests F G) (hl : L.label m n) (i : ScopeId) :
    m ∈ F.bindings i ↔ n ∈ G.bindings i := by
  rw [Std.ExtTreeMap.mem_iff_isSome_getElem?,Std.ExtTreeMap.mem_iff_isSome_getElem?]
  have hb := h.bindings i hl
  generalize (F.bindings i)[m]? = p at hb ⊢
  generalize (G.bindings i)[n]? = q at hb ⊢
  cases hb <;> simp

theorem get? (h : L.Forests F G) (hl : L.label m n) (i : ScopeId) :
    Option.Rel L.value (F.get? i m) (G.get? i n) := by
  unfold Forest.get?
  rw [← h.path_eq i]
  induction F.path i with
  | nil => exact .none
  | cons j js ih =>
    rw [List.findSome?_cons,List.findSome?_cons]
    have hb := h.bindings j hl
    generalize (F.bindings j)[m]? = p at hb ⊢
    generalize (G.bindings j)[n]? = q at hb ⊢
    cases hb with
    | none => exact ih
    | some hv => exact .some hv

theorem resolve?_eq (h : L.Forests F G) (hl : L.label m n) (i : ScopeId) :
    F.resolve? i m = G.resolve? i n := by
  have hp : (fun j => decide (m ∈ F.bindings j)) = fun j => decide (n ∈ G.bindings j) := by
    funext j
    exact decide_eq_decide.mpr (h.mem_iff hl j)
  rw [Forest.resolve?,Forest.resolve?,h.path_eq i,hp]

theorem define (h : L.Forests F G) (hl : L.label m n) (hv : L.value a b) (i : ScopeId) :
    L.Forests (F.define i m a) (G.define i n b) where
  size_eq := by simpa using h.size_eq
  outer_eq j := by simpa using h.outer_eq j
  bindings j m' n' hl' := by
    simp only [Forest.getElem?_bindings_define,h.size_eq,L.label_unique hl hl']
    split
    · exact .some hv
    · exact h.bindings j hl'

theorem assign? (h : L.Forests F G) (hl : L.label m n) (hv : L.value a b) (i : ScopeId) :
    Option.Rel L.Forests (F.assign? i m a) (G.assign? i n b) := by
  rw [Forest.assign?,Forest.assign?,h.resolve?_eq hl i]
  cases G.resolve? i n with
  | none => exact .none
  | some j => exact .some (h.define hl hv j)

theorem grow (h : L.Forests F G) (around : Option ScopeId) :
    L.Forests (F.grow around) (G.grow around) where
  size_eq := by simpa using h.size_eq
  outer_eq i := by
    by_cases hi : i < F.size
    · rw [Forest.outer_grow_of_lt hi,Forest.outer_grow_of_lt (h.size_eq ▸ hi),h.outer_eq i]
    · by_cases hs : i = F.size
      · subst i
        rw [Forest.outer_grow_size,h.size_eq,Forest.outer_grow_size]
        cases around with
        | none => rfl
        | some j => exact h.path_eq j
      · have hlt : F.size < i := Nat.lt_of_le_of_ne (Nat.le_of_not_lt hi) (Ne.symm hs)
        rw [Forest.outer_of_size_le (by rw [Forest.size_grow]; exact hlt),
          Forest.outer_of_size_le (by rw [Forest.size_grow,← h.size_eq]; exact hlt)]
  bindings i m n hl := by
    rw [Forest.bindings_grow,Forest.bindings_grow]
    exact h.bindings i hl

end Forests

theorem outcomes_unary (ho : L.operator s t) (hv : L.value a b) :
    Outcomes L.Halts L.value (s.unary a) (t.unary b) := by
  rw [Token.unary,Token.unary,L.kind_eq ho]
  cases UnaryOp.ofKind? t.kind with
  | none => exact .error (.unsupported t.kind)
  | some f => exact (L.unary f hv).mapError fun d _ hd => hd ▸ .operands ho d.message

theorem outcomes_binary {c d : Value} (ho : L.operator s t) (hv : L.value a b)
    (hv' : L.value c d) : Outcomes L.Halts L.value (s.binary a c) (t.binary b d) := by
  rw [Token.binary,Token.binary,L.kind_eq ho]
  cases BinaryOp.ofKind? t.kind with
  | none => exact .error (.unsupported t.kind)
  | some f => exact (L.binary f hv hv').mapError fun d _ hd => hd ▸ .operands ho d.message

theorem Evaluations.andThen {r q : Evaluation} {next next' : Value → Forest → Evaluation}
    (h : L.Evaluations r q) (hn : ∀ a b F G, L.value a b → L.Forests F G →
      L.Evaluations (next a F) (next' b G)) : L.Evaluations (r.andThen next) (q.andThen next') := by
  obtain ⟨o,F⟩ := r
  obtain ⟨o',G⟩ := q
  obtain ⟨ho,hF⟩ := h
  cases ho with
  | ok hv => exact hn _ _ F G hv hF
  | error hx => exact ⟨.error hx,hF⟩

theorem evaluations_readName (hn : L.name s t) (hF : L.Forests F G) (i : ScopeId) :
    L.Evaluations (Expr.readName i s F) (Expr.readName i t G) := by
  unfold Expr.readName Forest.read
  have hg := hF.get? (L.label_of_name hn) i
  generalize F.get? i s.lexeme = p at hg ⊢
  generalize G.get? i t.lexeme = q at hg ⊢
  cases hg with
  | none => exact ⟨.error (.undefined hn),hF⟩
  | some hv => exact ⟨.ok hv,hF⟩

theorem evaluations_writeName (hn : L.name s t) (hv : L.value a b) (hF : L.Forests F G)
    (i : ScopeId) : L.Evaluations (Expr.writeName i s a F) (Expr.writeName i t b G) := by
  unfold Expr.writeName Forest.write
  have hg := hF.assign? (L.label_of_name hn) hv i
  generalize F.assign? i s.lexeme a = p at hg ⊢
  generalize G.assign? i t.lexeme b = q at hg ⊢
  cases hg with
  | none => exact ⟨.error (.undefined hn),hF⟩
  | some hG => exact ⟨.ok hv,hG⟩

theorem Exprs.eval {e e' : Expr} (h : L.Exprs e e') {F G : Forest} (hF : L.Forests F G)
    (i : ScopeId) : L.Evaluations (e.eval i F) (e'.eval i G) := by
  induction h generalizing F G with
  | literal hv s t => exact ⟨.ok hv,hF⟩
  | grouping _ ih => exact ih hF
  | unary ho _ ih => exact (ih hF).andThen fun a b F G hv hG => ⟨outcomes_unary ho hv,hG⟩
  | binary _ ho _ ihl ihr =>
    refine (ihl hF).andThen fun a b F G hv hG => ?_
    exact (ihr hG).andThen fun c d F G hv' hH => ⟨outcomes_binary ho hv hv',hH⟩
  | name hn => exact evaluations_readName hn hF i
  | assign hn _ ih => exact (ih hF).andThen fun a b F G hv hG => evaluations_writeName hn hv hG i
  | hole o => exact ⟨.error (.hole o),hF⟩

namespace Runs

variable {w w' : World}

theorem done (h : L.Worlds w w') : L.Runs (Run.done w) (Run.done w') := ⟨.ok rfl,h,rfl⟩

theorem andThen {r q : Run} {next next' : World → Run} (h : L.Runs r q)
    (hn : ∀ w w', L.Worlds w w' → L.Runs (next w) (next' w')) :
    L.Runs (r.andThen next) (q.andThen next') := by
  obtain ⟨o,w,ns⟩ := r
  obtain ⟨o',w',ns'⟩ := q
  obtain ⟨ho,hw,hl⟩ := h
  cases ho with
  | error hx => exact ⟨.error hx,hw,hl⟩
  | ok _ =>
    obtain ⟨ho,hw,hl'⟩ := hn w w' hw
    refine ⟨ho,hw,?_⟩
    simp only [Run.andThen_of_ok,List.filterMap_append]
    rw [hl,hl']

theorem evaluating {e e' : Expr} {next next' : Value → World → Run} (he : L.Exprs e e')
    (hw : L.Worlds w w') (hn : ∀ a b w w', L.value a b → L.Worlds w w' →
      L.Runs (next a w) (next' b w')) :
    L.Runs (Run.evaluating e w next) (Run.evaluating e' w' next') := by
  have h := he.eval hw.forest w.current
  obtain ⟨F,c⟩ := w
  obtain ⟨G,c'⟩ := w'
  obtain rfl : c = c' := hw.current_eq
  obtain ⟨ho,hF⟩ := h
  have hw : L.Worlds ⟨(e.eval c F).forest,c⟩ ⟨(e'.eval c G).forest,c⟩ := ⟨hF,rfl⟩
  generalize hr : (e.eval c F).outcome = p at ho
  generalize hq : (e'.eval c G).outcome = q at ho
  cases ho with
  | ok hv =>
    rw [Run.evaluating_of_ok hr,Run.evaluating_of_ok hq]
    exact hn _ _ _ _ hv hw
  | error hx =>
    rw [Run.evaluating_of_error hr,Run.evaluating_of_error hq]
    exact ⟨.error hx,hw,rfl⟩

theorem within {body body' : World → Run} (hw : L.Worlds w w') (i : ScopeId)
    (hb : ∀ w w', L.Worlds w w' → L.Runs (body w) (body' w')) :
    L.Runs (Run.within i body w) (Run.within i body' w') := by
  obtain ⟨ho,hF,hl⟩ := hb { w with current := i } { w' with current := i } ⟨hw.forest,rfl⟩
  refine ⟨ho,⟨hF.forest,hw.current_eq⟩,?_⟩
  simpa [Run.within,Run.entering,Run.leaving,Notice.line?,List.filterMap_cons] using hl

theorem inBlock {body body' : World → Run} (hw : L.Worlds w w')
    (hb : ∀ w w', L.Worlds w w' → L.Runs (body w) (body' w')) :
    L.Runs (Run.inBlock body w) (Run.inBlock body' w') := by
  have hg : L.Worlds { w with forest := w.forest.grow w.current }
      { w' with forest := w'.forest.grow w'.current } :=
    ⟨hw.current_eq ▸ hw.forest.grow w.current,hw.current_eq⟩
  rw [Run.inBlock,Run.inBlock,← hw.forest.size_eq]
  exact within hg w.forest.size hb

end Runs

theorem Worlds.define {w w' : World} (h : L.Worlds w w') (hn : L.name s t) (hv : L.value a b) :
    L.Worlds (w.define s a) (w'.define t b) where
  forest := by
    rw [World.define,World.define,← h.current_eq]
    exact h.forest.define (L.label_of_name hn) hv w.current
  current_eq := h.current_eq

mutual

theorem Stmts.run : ∀ {t t' : Stmt}, L.Stmts t t' → ∀ {w w' : World}, L.Worlds w w' →
    L.Runs (t.run w) (t'.run w')
  | _, _, .expression h, _, _, hw => by
    rw [Stmt.run,Stmt.run]
    exact .evaluating h hw fun _ _ _ _ _ hw => .done hw
  | _, _, .print h _ _, _, _, hw => by
    rw [Stmt.run,Stmt.run]
    exact .evaluating h hw fun _ _ _ _ hv hw =>
      ⟨.ok rfl,hw,by simp [Notice.line?,L.display_eq hv]⟩
  | _, _, .var hn, _, _, hw => by
    rw [Stmt.run,Stmt.run]
    exact .done (hw.define hn L.nil)
  | _, _, .varTo hn h, _, _, hw => by
    rw [Stmt.run,Stmt.run]
    exact .evaluating h hw fun _ _ _ _ hv hw => .done (hw.define hn hv)
  | _, _, .block h _ _, _, _, hw => by
    rw [Stmt.run,Stmt.run]
    exact .inBlock hw fun _ _ => h.runAll
  | _, _, .ifThen hc hy, _, _, hw => by
    rw [Stmt.run,Stmt.run]
    refine .evaluating hc hw fun a b _ _ hv hw => ?_
    rw [L.truthy_eq hv]
    split
    · exact hy.run hw
    · exact .done hw
  | _, _, .ifElse hc hy hn, _, _, hw => by
    rw [Stmt.run,Stmt.run]
    refine .evaluating hc hw fun a b _ _ hv hw => ?_
    rw [L.truthy_eq hv]
    split
    · exact hy.run hw
    · exact hn.run hw
  | _, _, .hole o, _, _, hw => by
    rw [Stmt.run]
    exact ⟨.error (.hole o),hw,rfl⟩

theorem StmtLists.runAll : ∀ {ts ts' : List Stmt}, L.StmtLists ts ts' → ∀ {w w' : World},
    L.Worlds w w' → L.Runs (Stmt.runAll ts w) (Stmt.runAll ts' w')
  | _, _, .nil, _, _, hw => by
    rw [Stmt.runAll]
    exact .done hw
  | _, _, .cons h hs, _, _, hw => by
    rw [Stmt.runAll,Stmt.runAll]
    exact (h.run hw).andThen fun _ _ => hs.runAll

end

end Likeness
end ScriptEval
