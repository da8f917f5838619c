import Mathlib.Data.List.Sort
import ScriptEval.Proofs.Bounds
import ScriptEval.Proofs.Links
import ScriptEval.Proofs.Numeral
import ScriptEval.Proofs.Unquoting

/-! Descriptions of scopes. The text is cut where the depth and each of the names end, so it tells both; and
the names stand in one order, however they came to be bound. Therefore two scopes are described alike exactly
when they lie equally deep and bind the same names, and a description is always one line. -/
namespace ScriptEval

namespace Numeral

theorem toDigits_append_inj {m n : Nat} {c : Char} {r r' : List Char} (hc : c.isDigit = false)
    (h : Nat.toDigits 10 m ++ c :: r = Nat.toDigits 10 n ++ c :: r') : m = n ∧ r = r' := by
  have hd : ∀ (k : Nat) (s : List Char),
      (Nat.toDigits 10 k ++ c :: s).takeWhile Char.isDigit = Nat.toDigits 10 k ∧
      (Nat.toDigits 10 k ++ c :: s).dropWhile Char.isDigit = c :: s := by
    intro k s
    rw [List.takeWhile_append_of_pos isDigit_of_mem_toDigits,
      List.dropWhile_append_of_pos isDigit_of_mem_toDigits]
    simp [hc]
  obtain ⟨ht,hr⟩ := hd m r
  obtain ⟨ht',hr'⟩ := hd n r'
  rw [h] at ht hr
  have hmn : Nat.toDigits 10 m = Nat.toDigits 10 n := ht.symm.trans ht'
  refine ⟨?_,List.cons_inj_right c |>.mp (hr.symm.trans hr')⟩
  rw [← Nat.ofDigitChars_ten_toDigits (n := m),hmn,Nat.ofDigitChars_ten_toDigits]

end Numeral

theorem lines_of_not_mem {s : List Char} (hn : '\n' ∉ s) (hr : '\r' ∉ s) : lines s = [s] := by
  fun_induction lines s with
  | case1 => rfl
  | case2 s ih => simp at hr
  | case3 c s _ hc ih => rcases hc with rfl | rfl <;> simp at hn hr
  | case4 c s _ hc ih =>
    rw [ih (fun h => hn (.tail _ h)) (fun h => hr (.tail _ h))]
    rfl

namespace Quoted

variable {ns ms : List (List Char)} {r r' : List Char}

def others (ns : List (List Char)) : List Char := ns.flatMap fun n => ',' :: ' ' :: encode n

def enumerate : List (List Char) → List Char
  | [] => []
  | n :: ns => encode n ++ others ns

@[simp] theorem others_cons (n : List Char) (ns : List (List Char)) :
    others (n :: ns) = ',' :: ' ' :: (encode n ++ others ns) := by simp [others]

theorem others_append_inj (h : others ns ++ ']' :: r = others ms ++ ']' :: r') : ns = ms ∧ r = r' := by
  induction ns generalizing ms with
  | nil =>
    cases ms with
    | nil => simpa [others] using h
    | cons m ms => simp [others] at h
  | cons n ns ih =>
    cases ms with
    | nil => simp [others] at h
    | cons m ms =>
      simp only [others_cons,List.cons_append,List.append_assoc,List.cons.injEq,true_and] at h
      obtain ⟨rfl,ho⟩ := encode_append_inj h
      obtain ⟨rfl,rfl⟩ := ih ho
      exact ⟨rfl,rfl⟩

theorem encode_append_ne_cons (n s r : List Char) : encode n ++ s ≠ ']' :: r := by
  have hm : mark n ≠ ']' := by rcases mark_eq n with h | h <;> (rw [h]; decide)
  simp [encode,hm]

/-- The list of names ends at the bracket that is in no quotes. -/
theorem enumerate_append_inj (h : enumerate ns ++ ']' :: r = enumerate ms ++ ']' :: r') :
    ns = ms ∧ r = r' := by
  cases ns with
  | nil =>
    cases ms with
    | nil => simpa [enumerate] using h
    | cons m ms =>
      rw [enumerate,enumerate,List.nil_append,List.append_assoc] at h
      exact absurd h.symm (encode_append_ne_cons m _ r)
  | cons n ns =>
    cases ms with
    | nil =>
      rw [enumerate,enumerate,List.nil_append,List.append_assoc] at h
      exact absurd h (encode_append_ne_cons n _ r')
    | cons m ms =>
      rw [enumerate,enumerate,List.append_assoc,List.append_assoc] at h
      obtain ⟨rfl,ho⟩ := encode_append_inj h
      obtain ⟨rfl,rfl⟩ := others_append_inj ho
      exact ⟨rfl,rfl⟩

theorem not_mem_enumerate {b : Char} (hb : b = '\n' ∨ b = '\r') (ns : List (List Char)) :
    b ∉ enumerate ns := by
  have hs : b ≠ ',' ∧ b ≠ ' ' := by rcases hb with rfl | rfl <;> decide
  cases ns with
  | nil => exact List.not_mem_nil
  | cons n ns => simp [enumerate,others,not_mem_encode hb,hs]

theorem toList_intercalate (ns : List String) :
    (", ".intercalate (ns.map quoted)).toList = enumerate (ns.map String.toList) := by
  cases ns with
  | nil => rfl
  | cons n ns =>
    induction ns generalizing n with
    | nil => simp [enumerate,others]
    | cons m ns ih =>
      have ih := ih m
      simp only [List.map_cons,String.toList_intercalate] at ih ⊢
      rw [List.intercalate_cons_cons,ih]
      simp [enumerate]

end Quoted

section Description

variable {d e : Nat} {ns ms : List String}

theorem toList_describeScope (d : Nat) (ns : List String) :
    (describeScope d ns).toList = "<Environment depth=".toList ++
      (Nat.toDigits 10 d ++ ' ' :: '[' :: (Quoted.enumerate (ns.map String.toList) ++ [']','>'])) := by
  unfold describeScope
  rw [String.toList_append,String.toList_append,String.toList_append,String.toList_append,
    Quoted.toList_intercalate,Nat.toString_eq_repr,Nat.toList_repr,List.append_assoc,List.append_assoc,
    List.append_assoc]
  rfl

/-- A description tells the depth and the list of names. -/
theorem describeScope_inj : describeScope d ns = describeScope e ms ↔ d = e ∧ ns = ms := by
  constructor
  · intro h
    have h := congrArg String.toList h
    rw [toList_describeScope,toList_describeScope,List.append_cancel_left_eq] at h
    obtain ⟨hd,h⟩ := Numeral.toDigits_append_inj (by rfl) h
    rw [List.cons_inj_right] at h
    obtain ⟨hn,_⟩ := Quoted.enumerate_append_inj h
    exact ⟨hd,List.map_injective_iff.mpr (fun _ _ => String.toList_injective) hn⟩
  · rintro ⟨rfl,rfl⟩
    rfl

/-- The text of a trace tells whether a scope is entered or left, its depth and its names. -/
theorem trace_text_inj {n m : Notice} (hn : n = .entering d ns ∨ n = .leaving d ns)
    (hm : m = .entering e ms ∨ m = .leaving e ms) (explain : Failure → String) :
    n.text explain = m.text explain ↔ n = m := by
  have hne (s t : String) : "Entering " ++ s ≠ "Leaving " ++ t := by
    intro h
    have h := congrArg String.toList h
    rw [String.toList_append,String.toList_append] at h
    exact absurd (List.cons.inj h).1 (by decide)
  rcases hn with rfl | rfl <;> rcases hm with rfl | rfl
  · rw [Notice.entering.injEq,← describeScope_inj]
    exact String.append_right_inj "Entering "
  · exact iff_of_false (hne _ _) (by simp)
  · exact iff_of_false (hne _ _).symm (by simp)
  · rw [Notice.leaving.injEq,← describeScope_inj]
    exact String.append_right_inj "Leaving "

theorem not_mem_describeScope {b : Char} (hb : b = '\n' ∨ b = '\r') (d : Nat) (ns : List String) :
    b ∉ (describeScope d ns).toList := by
  have hd : b ∉ Nat.toDigits 10 d := by
    intro h
    have h := Numeral.isDigit_of_mem_toDigits b h
    rcases hb with rfl | rfl <;> simp at h
  have hn := Quoted.not_mem_enumerate hb (ns.map String.toList)
  have hl : b ∉ "<Environment depth=".toList := by rcases hb with rfl | rfl <;> decide
  rw [toList_describeScope,List.mem_append,not_or]
  refine ⟨hl,?_⟩
  rcases hb with rfl | rfl <;> simp [hd,hn]

theorem lines_text {n : Notice} (hn : n = .entering d ns ∨ n = .leaving d ns) (explain : Failure → String) :
    lines (n.text explain).toList = [(n.text explain).toList] := by
  have hb : ∀ b, b = '\n' ∨ b = '\r' → b ∉ (n.text explain).toList := by
    intro b hb
    have hl : b ∉ "Entering ".toList ∧ b ∉ "Leaving ".toList := by rcases hb with rfl | rfl <;> decide
    have hd := not_mem_describeScope hb d ns
    rcases hn with rfl | rfl
    · have ht : (Notice.entering d ns).text explain = "Entering " ++ describeScope d ns := rfl
      rw [ht,String.toList_append,List.mem_append,not_or]
      exact ⟨hl.1,hd⟩
    · have ht : (Notice.leaving d ns).text explain = "Leaving " ++ describeScope d ns := rfl
      rw [ht,String.toList_append,List.mem_append,not_or]
      exact ⟨hl.2,hd⟩
  exact lines_of_not_mem (hb '\n' (.inl rfl)) (hb '\r' (.inr rfl))

end Description

namespace Forest

variable {F G : Forest} {i j : ScopeId}

theorem mem_names {n : String} : n ∈ F.names i ↔ n ∈ F.bindings i := Std.ExtTreeMap.mem_keys

/-- The names of a scope stand in the order of their characters, and each of them once. -/
theorem pairwise_names (F : Forest) (i : ScopeId) : (F.names i).Pairwise (· < ·) := by
  have h : (F.names i).Pairwise fun a b => compare a b = .lt := Std.ExtTreeMap.ordered_keys
  exact h.imp fun hab => compareOfLessAndEq_eq_lt.mp hab

theorem names_eq_iff : F.names i = G.names j ↔ ∀ n, n ∈ F.bindings i ↔ n ∈ G.bindings j := by
  simp only [← mem_names]
  refine ⟨fun h n => by rw [h],fun h => ?_⟩
  exact (pairwise_names F i).eq_of_mem_iff (pairwise_names G j) h

/-- As many scopes lie around the one as around the other, and both bind the same names themselves. -/
structure SameOutline (F : Forest) (i : ScopeId) (G : Forest) (j : ScopeId) : Prop where
  depth : ∃ d, F.Counts 0 (F.enclosing? i) d ∧ G.Counts 0 (G.enclosing? j) d
  names : ∀ n, n ∈ F.bindings i ↔ n ∈ G.bindings j

theorem Arises.describeScope_eq_iff (hF : F.Arises) (hG : G.Arises) (i j : ScopeId) :
    describeScope (F.depth i) (F.names i) = describeScope (G.depth j) (G.names j) ↔
      F.SameOutline i G j := by
  have hd : (∃ d, F.Counts 0 (F.enclosing? i) d ∧ G.Counts 0 (G.enclosing? j) d) ↔
      F.depth i = G.depth j := by
    simp only [hF.chained.counts_iff,hG.chained.counts_iff,exists_eq_left]
  rw [describeScope_inj,← hd,names_eq_iff]
  exact ⟨fun ⟨hd,hn⟩ => ⟨hd,hn⟩,fun ⟨hd,hn⟩ => ⟨hd,hn⟩⟩

end Forest

namespace Session

/-- The description of a scope tells how many scopes lie around it and which names it binds, and nothing
else: not in which order they were bound, nor their values. This holds of any two scopes, each at some
moment of a session, whatever characters are in the names. A description never breaks, so a trace of a
scope that is entered or left is one line. -/
theorem descriptions_tell_outlines :
    (∀ F G : Forest, F.Arises → G.Arises → ∀ i j : ScopeId,
      describeScope (F.depth i) (F.names i) = describeScope (G.depth j) (G.names j) ↔
        F.SameOutline i G j) ∧
    (∀ s s' : Session, s.Reachable → s'.Reachable → ∀ (a b : String) (i j : ScopeId),
      s.scopes[a]? = some i → s'.scopes[b]? = some j →
      ((s.perform (.describe a)).reply = (s'.perform (.describe b)).reply ↔
        s.world.forest.SameOutline i s'.world.forest j)) ∧
    (∀ (d : Nat) (ns : List String),
      '\n' ∉ (describeScope d ns).toList ∧ '\r' ∉ (describeScope d ns).toList) ∧
    ∀ (n : Notice) (d : Nat) (ns : List String), n = .entering d ns ∨ n = .leaving d ns →
      ∀ explain, lines (n.text explain).toList = [(n.text explain).toList] := by
  refine ⟨fun F G hF hG i j => hF.describeScope_eq_iff hG i j,fun s s' hs hs' a b i j ha hb => ?_,
    fun d ns => ?_,fun n d ns hn explain => lines_text hn explain⟩
  · have hi : (s.perform (.describe a)).reply =
        .ok (.text (describeScope (s.world.forest.depth i) (s.world.forest.names i))) := by
      rw [perform,withScope,ha]
    have hj : (s'.perform (.describe b)).reply =
        .ok (.text (describeScope (s'.world.forest.depth j) (s'.world.forest.names j))) := by
      rw [perform,withScope,hb]
    rw [hi,hj,Except.ok.injEq,Reply.text.injEq]
    exact (Forest.Arises.between hs).describeScope_eq_iff (.between hs') i j
  · exact ⟨not_mem_describeScope (.inl rfl) d ns,not_mem_describeScope (.inr rfl) d ns⟩

/-- Two names with a quote, a comma and a break, which one session binds in one order and another in the other
order, where one of them is then assigned. A third session binds names that only look alike when they are
joined. -/
theorem descriptions_tell_outlines_orders :
    let s := (start 0 none).after
      [.define globalName "b', 'a" .nil,.define globalName "\n" .nil,.define globalName "b', 'a" (.bool true)]
    let s' := (start 2 none).after
      [.define globalName "\n" .nil,.define globalName "b', 'a" .nil,
        .assign globalName ⟨.identifier,"\n",1,none⟩ (.text "v")]
    let t := (start 0 none).after
      [.define globalName "a" .nil,.define globalName "\n" .nil,.define globalName "b" .nil]
    s.Reachable ∧ s'.Reachable ∧ t.Reachable ∧
      s.world.forest.names 0 = ["\n","b', 'a"] ∧ s.world.forest.SameOutline 0 s'.world.forest 0 ∧
      (s.perform (.describe globalName)).reply = (s'.perform (.describe globalName)).reply ∧
      ¬s.world.forest.SameOutline 0 t.world.forest 0 ∧
      lines ((Notice.entering 0 ["\n","b', 'a"]).text Failure.text).toList =
        ["Entering <Environment depth=0 ['\\n', \"b', 'a\"]>".toList] := by
  intro s s' t
  obtain ⟨hF,hR,_,hN⟩ := descriptions_tell_outlines
  have hs : s.Reachable := (Reachable.start 0 none).after _
  have hs' : s'.Reachable := (Reachable.start 2 none).after _
  have ht : t.Reachable := (Reachable.start 0 none).after _
  have ho := (hF _ _ (.between hs) (.between hs') 0 0).mp (by decide +kernel)
  refine ⟨hs,hs',ht,by decide +kernel,ho,?_,?_,?_⟩
  · exact (hR s s' hs hs' globalName globalName 0 0 (by decide +kernel) (by decide +kernel)).mpr ho
  · exact fun h => absurd ((hF _ _ (.between hs) (.between ht) 0 0).mpr h) (by decide +kernel)
  · rw [hN _ 0 ["\n","b', 'a"] (.inl rfl)]
    decide +kernel

end Session
end ScriptEval
