import DesignTokens.Text.Lines

/-!
# Line ends

Writing all line ends in the same way takes nothing away but carriage returns
(`count_unifyLineEnds`). A text without line ends is a line.
-/

namespace DesignTokens.Text

theorem unifyLineEnds_of_not_mem {cs : List Char} (h : '\r' ∉ cs) : unifyLineEnds cs = cs := by
  fun_induction unifyLineEnds cs with
  | case1 cs => exact absurd (List.mem_cons_self ..) h
  | case2 c cs _ ih => rw [ih fun hmem => h (List.mem_cons_of_mem c hmem)]
  | case3 => rfl

theorem count_unifyLineEnds {c : Char} (hc : c ≠ '\r') (cs : List Char) :
    (unifyLineEnds cs).count c = cs.count c := by
  fun_induction unifyLineEnds cs with
  | case1 cs ih => rw [List.count_cons, List.count_cons_of_ne hc.symm, List.count_cons, ih]
  | case2 d cs _ ih => rw [List.count_cons, List.count_cons, ih]
  | case3 => rfl

theorem mem_unifyLineEnds {c : Char} (hc : c ≠ '\r') {cs : List Char} :
    c ∈ unifyLineEnds cs ↔ c ∈ cs := by
  rw [← List.count_pos_iff, ← List.count_pos_iff, count_unifyLineEnds hc]

theorem pieces_append {isSep : Char → Bool} {w : List Char} (h : ∀ c ∈ w, isSep c = false)
    {x : Char} (hx : isSep x = true) (more : List Char) :
    pieces isSep (w ++ x :: more) = w :: pieces isSep more := by
  induction w with
  | nil => simp [pieces, hx]
  | cons c w ih =>
      obtain ⟨hc, hw⟩ := List.forall_mem_cons.mp h
      rw [List.cons_append, pieces, hc, ih hw]

theorem pieces_of_forall {isSep : Char → Bool} {w : List Char} (h : ∀ c ∈ w, isSep c = false) :
    pieces isSep w = [w] := by
  induction w with
  | nil => rfl
  | cons c w ih =>
      obtain ⟨hc, hw⟩ := List.forall_mem_cons.mp h
      rw [pieces, hc, ih hw]

/-- A character that is not in a text separates nothing in it. -/
theorem no_separator {x : Char} {w : List Char} (h : x ∉ w) : ∀ c ∈ w, decide (c = x) = false :=
  fun _ hc => decide_eq_false fun heq => h (heq ▸ hc)

section

variable {w : List Char} (hw : '\n' ∉ w ∧ '\r' ∉ w)

include hw

theorem lines_of_not_mem (hne : w ≠ []) : lines w = [w] := by
  rw [lines, unifyLineEnds_of_not_mem hw.2, pieces_of_forall (no_separator hw.1), dropEmptyLast,
    List.getLast?_singleton, if_neg (by simpa using hne)]

theorem lines_append : lines (w ++ ['\n']) = [w] := by
  have hreturn : '\r' ∉ w ++ ['\n'] := by simp [hw.2]
  rw [lines, unifyLineEnds_of_not_mem hreturn, pieces_append (no_separator hw.1) (by decide)]
  rfl

end

end DesignTokens.Text
