import ScriptEval.Proofs.Links
import ScriptEval.Proofs.Scoping

/-! Which binding a name means, seen from a scope: that of the nearest scope along the links that binds it.
A new binding is seen from wherever no nearer one is in the way, and a new value from wherever the name
means the same binding. -/
namespace ScriptEval

namespace Forest

/-- Going out from a scope along the links one comes to `i`, and no scope before `i` binds the name. -/
inductive Exposes (F : Forest) (n : String) (i : ScopeId) : ScopeId → Prop
  | here : Exposes F n i i
  | outward {j k : ScopeId} (hn : n ∉ F.bindings j) (hj : F.enclosing? j = some k)
      (h : Exposes F n i k) : Exposes F n i j

def Nearest (F : Forest) (n : String) (i j : ScopeId) : Prop := F.Exposes n i j ∧ n ∈ F.bindings i

/-- Seen from both scopes the name means the same binding. -/
def SameNearest (F : Forest) (n : String) (i j : ScopeId) : Prop :=
  ∃ k, F.Nearest n k i ∧ F.Nearest n k j

/-- In `G` the name means the value wherever the new binding is seen, and there is no other difference
in what names mean, nor in what is told of those that mean nothing. -/
structure Rebinds (F G : Forest) (n : String) (v : Value) (Seen : ScopeId → Prop) : Prop where
  seen : ∀ (j : ScopeId) (t : Token), t.lexeme = n → Seen j → G.read j t = .ok v
  unseen : ∀ (j : ScopeId) (t : Token), ¬(t.lexeme = n ∧ Seen j) → G.read j t = F.read j t

variable {F G : Forest} {i j k : ScopeId} {n m : String} {v : Value} {t : Token}

theorem read_eq_ok_iff {u : Value} : F.read i t = .ok u ↔ F.get? i t.lexeme = some u := by
  unfold read
  cases F.get? i t.lexeme with
  | none => simp
  | some u' => simp

theorem Rebinds.of_get? {Seen : ScopeId → Prop} (hs : ∀ j, Seen j → G.get? j n = some v)
    (hu : ∀ j m, ¬(m = n ∧ Seen j) → G.get? j m = F.get? j m) : F.Rebinds G n v Seen where
  seen j t ht hj := read_eq_ok_iff.mpr (ht ▸ hs j hj)
  unseen j t h := by rw [read,hu j t.lexeme h,read]

theorem Rebinds.congr {Seen Seen' : ScopeId → Prop} (h : F.Rebinds G n v Seen)
    (hs : ∀ j, Seen j ↔ Seen' j) : F.Rebinds G n v Seen' where
  seen j t ht hj := h.seen j t ht ((hs j).mpr hj)
  unseen j t hn := h.unseen j t (by rwa [hs j])

theorem enclosing?_define (F : Forest) (i : ScopeId) (n : String) (v : Value) (j : ScopeId) :
    (F.define i n v).enclosing? j = F.enclosing? j := by
  rw [enclosing?,outer_define,enclosing?]

namespace Chained

theorem resolve?_eq (h : F.Chained) (j : ScopeId) (n : String) : F.resolve? j n =
    if n ∈ F.bindings j then some j else (F.enclosing? j).bind fun k => F.resolve? k n := by
  rw [resolve?,path,List.find?_cons,h.outer_eq_elim j]
  by_cases hn : n ∈ F.bindings j
  · simp [hn]
  · cases F.enclosing? j <;> simp [hn,resolve?]

theorem get?_eq (h : F.Chained) (j : ScopeId) (n : String) : F.get? j n =
    (F.bindings j)[n]?.or ((F.enclosing? j).bind fun k => F.get? k n) := by
  rw [get?,path,List.findSome?_cons,h.outer_eq_elim j]
  cases (F.bindings j)[n]? with
  | some u => rfl
  | none => cases F.enclosing? j <;> rfl

theorem resolve?_eq_some_iff (h : F.Chained) : F.resolve? j n = some i ↔ F.Nearest n i j := by
  induction j using Nat.strongRecOn with
  | ind j ih =>
    rw [h.resolve?_eq]
    by_cases hn : n ∈ F.bindings j
    · rw [if_pos hn]
      constructor
      · rintro hj
        obtain rfl := Option.some.inj hj
        exact ⟨.here,hn⟩
      · rintro ⟨hj | ⟨hn',_,_⟩,_⟩
        · rfl
        · exact absurd hn hn'
    · rw [if_neg hn]
      cases hj : F.enclosing? j with
      | none =>
        simp only [Option.bind_none,reduceCtorEq,false_iff]
        rintro ⟨hj' | ⟨_,hk,_⟩,hi⟩
        · exact hn hi
        · rw [hj] at hk
          cases hk
      | some k =>
        rw [Option.bind_some,ih k (h.lt_of_enclosing? hj)]
        constructor
        · rintro ⟨hk,hi⟩
          exact ⟨.outward hn hj hk,hi⟩
        · rintro ⟨hj' | ⟨_,hk,hk'⟩,hi⟩
          · exact absurd hi hn
          · rw [hj] at hk
            obtain rfl := Option.some.inj hk
            exact ⟨hk',hi⟩

theorem nearest_unique (h : F.Chained) (hi : F.Nearest n i j) (hk : F.Nearest n k j) : i = k :=
  Option.some.inj ((h.resolve?_eq_some_iff.mpr hi).symm.trans (h.resolve?_eq_some_iff.mpr hk))

theorem get?_define_of_exposes (h : F.Chained) (hi : i < F.size) (v : Value)
    (hj : F.Exposes n i j) : (F.define i n v).get? j n = some v := by
  have hG := h.define i n v
  induction hj with
  | here => rw [hG.get?_eq,getElem?_bindings_define,if_pos ⟨hi,rfl,rfl⟩,Option.some_or]
  | @outward j k hn hj _ ih =>
    rw [hG.get?_eq,getElem?_bindings_define,enclosing?_define,hj]
    -- Only the scope `i` has another binding, and in that one the value is found at once.
    by_cases hij : i = j
    · rw [if_pos ⟨hi,hij,rfl⟩,Option.some_or]
    · rw [if_neg fun hc => hij hc.2.1,Std.ExtTreeMap.getElem?_eq_none hn]
      exact ih

theorem get?_define_of_not_exposes (h : F.Chained) (hj : ¬(m = n ∧ F.Exposes n i j)) :
    (F.define i n v).get? j m = F.get? j m := by
  induction j using Nat.strongRecOn with
  | ind j ih =>
    have hij : ¬(i < F.size ∧ i = j ∧ n = m) := by
      rintro ⟨_,rfl,rfl⟩
      exact hj ⟨rfl,.here⟩
    rw [(h.define i n v).get?_eq,h.get?_eq,getElem?_bindings_define,enclosing?_define,if_neg hij]
    cases hm : (F.bindings j)[m]? with
    | some u => rfl
    | none =>
      cases hk : F.enclosing? j with
      | none => rfl
      | some k =>
        refine ih k (h.lt_of_enclosing? hk) ?_
        rintro ⟨rfl,he⟩
        exact hj ⟨rfl,.outward (fun hn => by simp [Std.ExtTreeMap.getElem?_eq_some_getElem hn] at hm) hk he⟩

/-- A binding is seen from the scopes from which no nearer scope is in its way. -/
theorem rebinds_define (h : F.Chained) (hi : i < F.size) (n : String) (v : Value) :
    F.Rebinds (F.define i n v) n v (F.Exposes n i) :=
  .of_get? (fun _ hj => h.get?_define_of_exposes hi v hj) fun _ _ hj => h.get?_define_of_not_exposes hj

/-- What is the nearest scope seen from `i` is so seen from the scopes that it is open to. -/
theorem sameNearest_iff (h : F.Chained) (hk : F.Nearest n k i) :
    F.SameNearest n i j ↔ F.Exposes n k j := by
  constructor
  · rintro ⟨l,hl,hj⟩
    obtain rfl := h.nearest_unique hk hl
    exact hj.1
  · intro hj
    exact ⟨k,hk,hj,hk.2⟩

end Chained

theorem exists_read_eq_ok_iff : (∃ u, F.read i t = .ok u) ↔ ∃ k, F.resolve? i t.lexeme = some k := by
  simp only [read_eq_ok_iff,← Option.ne_none_iff_exists',ne_eq,get?_eq_none_iff]

/-- A name can be assigned where it can be read. The new value is then read from all scopes from which
the name means the same binding, and nothing else is read anew: no other name, nothing from other scopes,
and nothing that could not be read before. Where it cannot be read, the assignment fails with its token
and changes nothing. This is so for what programs assign and for what is assigned from outside. -/
theorem write_updates_nearest (hF : F.Arises) (i : ScopeId) (t : Token) (v : Value) :
    ((∃ G, F.write i t v = .ok G) ↔ ∃ u, F.read i t = .ok u) ∧
    (∀ G, F.write i t v = .ok G →
      F.Rebinds G t.lexeme v (F.SameNearest t.lexeme i) ∧
      (∀ j n, n ∈ G.bindings j ↔ n ∈ F.bindings j) ∧
      (∀ j, G.enclosing? j = F.enclosing? j) ∧ G.size = F.size ∧
      Expr.writeName i t v F = ⟨.ok v,G⟩ ∧
      ∀ (s : Session) (a : String), s.world.forest = F → s.scopes[a]? = some i →
        s.perform (.assign a t v) = { reply := .ok .nothing, session := s.setForest G }) ∧
    ∀ f, F.write i t v = .error f →
      f = .undefined t ∧ Expr.writeName i t v F = ⟨.error (.failed f),F⟩ ∧
      ∀ (s : Session) (a : String), s.world.forest = F → s.scopes[a]? = some i →
        s.perform (.assign a t v) = { reply := .error (.halted (.failed f)), session := s } := by
  rw [exists_read_eq_ok_iff]
  cases hr : F.resolve? i t.lexeme with
  | none =>
    have hw := write_of_resolve?_eq_none hr v
    refine ⟨by simp [hw],by simp [hw],fun f hf => ?_⟩
    obtain rfl : .undefined t = f := Except.error.inj (hw.symm.trans hf)
    refine ⟨rfl,by simp only [Expr.writeName,hw],fun s a hs ha => ?_⟩
    subst hs
    simp only [Session.perform,Session.withScope,ha,hw]
  | some k =>
    have hw := write_of_resolve? hr v
    have hk : F.Nearest t.lexeme k i := hF.chained.resolve?_eq_some_iff.mp hr
    refine ⟨by simp [hw],fun G hG => ?_,by simp [hw]⟩
    obtain rfl : F.define k t.lexeme v = G := Except.ok.inj (hw.symm.trans hG)
    refine ⟨?_,fun j n => ?_,enclosing?_define F k t.lexeme v,size_define F k t.lexeme v,
      by simp only [Expr.writeName,hw],fun s a hs ha => ?_⟩
    · refine (hF.chained.rebinds_define (lt_size_of_mem_bindings hk.2) t.lexeme v).congr fun j => ?_
      exact (hF.chained.sameNearest_iff hk).symm
    · rw [mem_bindings_define,or_iff_right_iff_imp]
      rintro ⟨_,rfl,rfl⟩
      exact hk.2
    · subst hs
      simp only [Session.perform,Session.withScope,ha,hw]

theorem write_updates_nearest_outer :
    let x : Token := ⟨.identifier,"x",1,none⟩
    let s := (Session.start 0 none).after [.define "globals" "x" .nil,.newScope "a" (some "globals"),
      .newScope "b" (some "a"),.define "b" "x" .nil]
    let F := s.world.forest
    F.Arises ∧ ∃ G, F.write 1 x (.text "y") = .ok G ∧
      G.read 0 x = .ok (.text "y") ∧ G.read 1 x = .ok (.text "y") ∧ G.read 2 x = F.read 2 x := by
  intro x s F
  have hs : s.Reachable := (Session.Reachable.start 0 none).after _
  have hF : F.Arises := .between hs
  have h₀ : F.Nearest "x" 0 0 := ⟨.here,by decide +kernel⟩
  have h₁ : F.Nearest "x" 0 1 := ⟨.outward (by decide +kernel) (by decide +kernel) .here,h₀.2⟩
  obtain ⟨hw,hG,_⟩ := write_updates_nearest hF 1 x (.text "y")
  obtain ⟨G,hwG⟩ := hw.mpr ⟨.nil,by decide +kernel⟩
  obtain ⟨hr,_⟩ := hG G hwG
  refine ⟨hF,G,hwG,hr.seen 0 x rfl ⟨0,h₁,h₀⟩,hr.seen 1 x rfl ⟨0,h₁,h₁⟩,hr.unseen 2 x ?_⟩
  rintro ⟨_,k,hk,hk'⟩
  obtain rfl := hF.chained.nearest_unique h₁ hk
  have h₂ : F.resolve? 2 "x" = some 2 := by decide +kernel
  cases h₂.symm.trans (hF.chained.resolve?_eq_some_iff.mpr hk')

/-- A declaration is seen from the scopes that come to it along the links before any other scope that
binds the name, whether it is the first one in its scope, replaces one or hides one further out. All else is
read as before, and the scope binds one more name at most. -/
theorem define_shadows (hF : F.Arises) (hi : i < F.size) (n : String) (v : Value) :
    let G := F.define i n v
    F.Rebinds G n v (F.Exposes n i) ∧
    (∀ m, m ∈ G.bindings i ↔ m = n ∨ m ∈ F.bindings i) ∧
    (∀ j, j ≠ i → G.bindings j = F.bindings j) ∧
    (∀ j, G.enclosing? j = F.enclosing? j) ∧ G.size = F.size ∧
    ∀ (s : Session) (a : String), s.world.forest = F → s.scopes[a]? = some i →
      s.perform (.define a n v) = { reply := .ok .nothing, session := s.setForest G } := by
  intro G
  refine ⟨hF.chained.rebinds_define hi n v,fun m => ?_,fun j hj => ?_,enclosing?_define F i n v,
    size_define F i n v,fun s a hs ha => ?_⟩
  · rw [mem_bindings_define]
    simp only [hi,true_and,eq_comm]
  · exact bindings_define_of_ne F (Ne.symm hj) n v
  · subst hs
    simp only [Session.perform,Session.withScope,ha]
    rfl

/-- A declaration that hides a global one is seen from its own scope and from one within it, but not from the
global scope nor from another scope within its own, where a nearer one is in the way. -/
theorem define_shadows_between :
    let x : Token := ⟨.identifier,"x",1,none⟩
    let s := (Session.start 0 none).after [.define "globals" "x" .nil,.newScope "a" (some "globals"),
      .newScope "b" (some "a"),.newScope "c" (some "a"),.define "c" "x" .nil]
    let F := s.world.forest
    let G := F.define 1 "x" (.text "y")
    F.Arises ∧ 1 < F.size ∧ G.read 1 x = .ok (.text "y") ∧ G.read 2 x = .ok (.text "y") ∧
      G.read 0 x = F.read 0 x ∧ G.read 3 x = F.read 3 x := by
  intro x s F G
  have hs : s.Reachable := (Session.Reachable.start 0 none).after _
  have hF : F.Arises := .between hs
  have hi : 1 < F.size := by decide +kernel
  obtain ⟨hr,_⟩ := define_shadows hF hi "x" (.text "y")
  refine ⟨hF,hi,hr.seen 1 x rfl .here,hr.seen 2 x rfl ?_,hr.unseen 0 x ?_,hr.unseen 3 x ?_⟩
  · exact .outward (by decide +kernel) (by decide +kernel) .here
  · rintro ⟨_,_ | ⟨hn,_,_⟩⟩
    exact hn (by decide +kernel)
  · rintro ⟨_,_ | ⟨hn,_,_⟩⟩
    exact hn (by decide +kernel)

end Forest
end ScriptEval
