import Mathlib.Data.List.Basic
import ScriptEval.Text.Picture

/-! Where the lines of a text begin and end, counted in characters. The bounds are read off the text alone,
and the lines that the text is cut into stand between them. -/
namespace ScriptEval

/-- The lines, each with its break. A break at the end leaves an empty line behind it. -/
def lines : List Char → List (List Char)
  | [] => [[]]
  | '\r' :: '\n' :: s => ['\r','\n'] :: lines s
  | c :: s => if c = '\r' ∨ c = '\n' then [c] :: lines s else (lines s).modifyHead (c :: ·)

theorem lines_ne_nil (s : List Char) : lines s ≠ [] := by
  fun_induction lines s <;> simp_all

@[simp] theorem flatten_lines (s : List Char) : (lines s).flatten = s := by
  fun_induction lines s with
  | case1 => rfl
  | case2 s ih => simp [ih]
  | case3 c s _ _ ih => simp [ih]
  | case4 c s _ _ ih =>
    obtain ⟨l,ls,h⟩ := List.exists_cons_of_ne_nil (lines_ne_nil s)
    simp_all

variable {s : List Char} {ls : List (List Char)}

theorem breakAt_cons_succ (c : Char) (s : List Char) (j : Nat) :
    BreakAt (c :: s) (j + 1) ↔ BreakAt s j := by simp [BreakAt]

theorem breakEnds_cons (c : Char) (s : List Char) :
    breakEnds (c :: s) =
      (if BreakAt (c :: s) 0 then [1] else []) ++ (breakEnds s).map (1 + ·) := by
  have hf : (fun j => decide (BreakAt (c :: s) j)) ∘ Nat.succ = fun j => decide (BreakAt s j) :=
    funext fun j => decide_eq_decide.mpr (breakAt_cons_succ c s j)
  have hm : (· + 1) ∘ Nat.succ = (1 + ·) ∘ (· + 1) := funext fun j => Nat.add_comm _ 1
  unfold breakEnds
  rw [List.length_cons,List.range_succ_eq_map,List.filter_cons,List.filter_map,hf,List.map_map,← hm,
    ← List.map_map]
  by_cases h : BreakAt (c :: s) 0 <;> simp [h]

def starts : List (List Char) → List Nat
  | [] | [_] => []
  | l :: ls => l.length :: (starts ls).map (l.length + ·)

theorem starts_cons (l : List Char) (h : ls ≠ []) :
    starts (l :: ls) = l.length :: (starts ls).map (l.length + ·) := by
  obtain ⟨_,_,rfl⟩ := List.exists_cons_of_ne_nil h
  rfl

theorem starts_modifyHead (c : Char) (ls : List (List Char)) :
    starts (ls.modifyHead (c :: ·)) = (starts ls).map (1 + ·) := by
  cases ls with
  | nil => rfl
  | cons l ls =>
    cases ls with
    | nil => rfl
    | cons l' ls =>
      simp only [List.modifyHead_cons,starts_cons,List.map_cons,List.map_map,List.length_cons,ne_eq,
        reduceCtorEq,not_false_eq_true,List.cons.injEq]
      refine ⟨Nat.add_comm _ 1,List.map_congr_left fun n _ => ?_⟩
      dsimp only [Function.comp_apply]
      omega

theorem starts_lines (s : List Char) : starts (lines s) = breakEnds s := by
  fun_induction lines s with
  | case1 => rfl
  | case2 s ih =>
    have h₁ : ¬BreakAt ('\r' :: '\n' :: s) 0 := by simp [BreakAt]
    have h₂ : BreakAt ('\n' :: s) 0 := .inl rfl
    rw [starts_cons _ (lines_ne_nil s),ih,breakEnds_cons,breakEnds_cons,if_neg h₁,if_pos h₂]
    simp only [List.nil_append,List.singleton_append,List.map_cons,List.map_map]
    refine congrArg _ (List.map_congr_left fun n _ => ?_)
    dsimp only [Function.comp_apply,List.length_cons,List.length_nil]
    omega
  | case3 c s hcrlf hc ih =>
    have h : BreakAt (c :: s) 0 := by
      rcases hc with rfl | rfl
      · refine .inr ⟨rfl,fun h => ?_⟩
        obtain ⟨cs,hs⟩ := List.head?_eq_some_iff.mp (List.head?_eq_getElem?.trans h)
        exact hcrlf cs rfl hs
      · exact .inl rfl
    rw [starts_cons _ (lines_ne_nil s),ih,breakEnds_cons,if_pos h]
    rfl
  | case4 c s _ hc ih =>
    have h : ¬BreakAt (c :: s) 0 := by
      rintro (h | ⟨h,_⟩)
      · exact hc (.inr (Option.some.inj h))
      · exact hc (.inl (Option.some.inj h))
    rw [starts_modifyHead,ih,breakEnds_cons,if_neg h,List.nil_append]

theorem slice_append (l t : List Char) (a b : Nat) :
    slice (l ++ t) (l.length + a) (l.length + b) = slice t a b := by
  rw [slice,List.take_length_add_append,List.drop_length_add_append,slice]

theorem slice_append_left (l t : List Char) : slice (l ++ t) 0 l.length = l := by
  rw [slice,List.take_left,List.drop_zero]

def marks (ls : List (List Char)) : List Nat := 0 :: (starts ls ++ [ls.flatten.length])

theorem marks_lines (s : List Char) : marks (lines s) = bounds s := by
  rw [marks,starts_lines,flatten_lines,bounds]

theorem marks_cons (l : List Char) (h : ls ≠ []) :
    marks (l :: ls) = 0 :: (marks ls).map (l.length + ·) := by
  simp [marks,starts_cons l h]

/-- The place `o` falls in line `k`, counted from zero, which reaches from the mark `a` to the mark `b`. The
last line takes what lies past its end. -/
structure Holds (s : List Char) (ms : List Nat) (o k a b : Nat) : Prop where
  start : ms[k]? = some a
  stop : ms[k + 1]? = some b
  start_le : a ≤ o
  start_le_stop : a ≤ b
  stop_le : b ≤ s.length
  lt_stop : o < s.length → o < b
  stop_eq : s.length ≤ o → b = s.length

theorem countP_starts_of_lt {l : List Char} {o : Nat} (h : ls ≠ []) (ho : o < l.length) :
    (starts (l :: ls)).countP (· ≤ o) = 0 := by
  rw [starts_cons l h,List.countP_eq_zero]
  intro n hn
  rw [decide_eq_true_eq]
  rcases List.mem_cons.mp hn with rfl | hn
  · omega
  · obtain ⟨m,_,rfl⟩ := List.mem_map.mp hn
    omega

theorem countP_starts_of_le {l : List Char} {o : Nat} (h : ls ≠ []) (ho : l.length ≤ o) :
    (starts (l :: ls)).countP (· ≤ o) = (starts ls).countP (· ≤ o - l.length) + 1 := by
  rw [starts_cons l h,List.countP_cons_of_pos (by simpa using ho),List.countP_map]
  refine congrArg (· + 1) (List.countP_congr fun n _ => ?_)
  simp only [Function.comp_apply,decide_eq_true_eq]
  omega

theorem Holds.cons {l : List Char} {o k a b : Nat} (hls : ls ≠ []) (ho : l.length ≤ o)
    (h : Holds ls.flatten (marks ls) (o - l.length) k a b) :
    Holds (l :: ls).flatten (marks (l :: ls)) o (k + 1) (l.length + a) (l.length + b) := by
  have hlen : (l :: ls).flatten.length = l.length + ls.flatten.length := by simp
  have hstart := h.start_le
  have hstop := h.start_le_stop
  have hle := h.stop_le
  refine ⟨?_,?_,by omega,by omega,by omega,fun hlt => ?_,fun hge => ?_⟩
  · rw [marks_cons l hls,List.getElem?_cons_succ,List.getElem?_map,h.start,Option.map_some]
  · rw [marks_cons l hls,List.getElem?_cons_succ,List.getElem?_map,h.stop,Option.map_some]
  · have := h.lt_stop (by omega)
    omega
  · have := h.stop_eq (by omega)
    omega

/-- The line of a place is the one behind as many starts as there are up to the place. -/
theorem exists_holds (h : ls ≠ []) (o : Nat) :
    ∃ a b, Holds ls.flatten (marks ls) o ((starts ls).countP (· ≤ o)) a b ∧
      slice ls.flatten a b ∈ ls := by
  induction ls generalizing o with
  | nil => exact absurd rfl h
  | cons l ls ih =>
    by_cases hls : ls = []
    · subst hls
      have hs := slice_append_left l []
      refine ⟨0,l.length,?_,?_⟩
      · constructor <;> simp [marks,starts]
      · rw [List.flatten_cons,List.flatten_nil,hs]
        exact List.mem_singleton_self l
    by_cases ho : o < l.length
    · rw [countP_starts_of_lt hls ho]
      refine ⟨0,l.length,?_,?_⟩
      · constructor <;> simp [marks,starts_cons l hls] <;> omega
      · rw [List.flatten_cons,slice_append_left]
        exact List.mem_cons_self
    · have hlo : l.length ≤ o := Nat.le_of_not_lt ho
      obtain ⟨a,b,hh,hm⟩ := ih hls (o - l.length)
      rw [countP_starts_of_le hls hlo]
      refine ⟨l.length + a,l.length + b,hh.cons hls hlo,?_⟩
      rw [List.flatten_cons,slice_append]
      exact List.mem_cons_of_mem l hm

theorem exists_first (h : ls ≠ []) :
    ∃ b, (marks ls)[1]? = some b ∧ b ≤ ls.flatten.length ∧ ls.headD [] = ls.flatten.take b := by
  obtain ⟨l,ls,rfl⟩ := List.exists_cons_of_ne_nil h
  refine ⟨l.length,?_,by simp,by simp⟩
  cases ls <;> simp [marks,starts]

/-- A line is broken at its end only. -/
theorem exists_body (s : List Char) : ∀ l ∈ lines s,
    ∃ body br, l = body ++ br ∧ '\n' ∉ body ∧ ∀ c ∈ br, c = '\r' ∨ c = '\n' := by
  fun_induction lines s with
  | case1 => exact List.forall_mem_singleton.mpr ⟨[],[],rfl,by simp,by simp⟩
  | case2 s ih => exact List.forall_mem_cons.mpr ⟨⟨[],['\r','\n'],rfl,by simp,by simp⟩,ih⟩
  | case3 c s _ hc ih => exact List.forall_mem_cons.mpr ⟨⟨[],[c],rfl,by simp,by simpa using hc⟩,ih⟩
  | case4 c s _ hc ih =>
    obtain ⟨l,ls,hls⟩ := List.exists_cons_of_ne_nil (lines_ne_nil s)
    rw [hls,List.forall_mem_cons] at ih
    obtain ⟨⟨body,br,rfl,hb,hbr⟩,ih⟩ := ih
    rw [hls,List.modifyHead_cons,List.forall_mem_cons]
    refine ⟨⟨c :: body,br,rfl,?_,hbr⟩,ih⟩
    rw [List.mem_cons,not_or]
    exact ⟨fun hn => hc (.inr hn.symm),hb⟩

end ScriptEval
