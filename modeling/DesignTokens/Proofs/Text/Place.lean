import DesignTokens.Text.Position

/-!
# Places of a text

A place of a text is told by the characters in front of it. The number of their
bytes tells the place as well (`eq_of_byteLength_eq`), and so do a line and a
column (`LineColumn.eq_of_behind_eq`).
-/

namespace DesignTokens.Text

/-! ## Bytes -/

theorem byteLength_pos {cs : List Char} (h : cs ≠ []) : 0 < byteLength cs := by
  obtain ⟨c, cs, rfl⟩ := List.exists_cons_of_ne_nil h
  have hsize := c.utf8Size_pos
  rw [byteLength]
  omega

theorem byteOffset_le_byteOffset (text : List Char) {p q : Nat} (hpq : p ≤ q) :
    byteOffset text p ≤ byteOffset text q := by
  obtain ⟨n, rfl⟩ := Nat.exists_eq_add_of_le hpq
  rw [byteOffset, byteOffset, List.take_add, byteLength_append]
  exact Nat.le_add_right ..

/-- More of a text is in front of a later place. -/
theorem exists_take_of_lt {text : List Char} {p q : Nat} (hpq : p < q) (hq : q ≤ text.length) :
    ∃ u, u ≠ [] ∧ text.take q = text.take p ++ u := by
  obtain ⟨n, rfl⟩ := Nat.exists_eq_add_of_lt hpq
  refine ⟨(text.drop p).take (n + 1), fun hnil => ?_, by rw [Nat.add_assoc, List.take_add]⟩
  have hlength := congrArg List.length hnil
  rw [List.length_take, List.length_drop, List.length_nil] at hlength
  omega

theorem byteOffset_lt_byteOffset {text : List Char} {p q : Nat} (hpq : p < q)
    (hq : q ≤ text.length) : byteOffset text p < byteOffset text q := by
  obtain ⟨u, hu, htake⟩ := exists_take_of_lt hpq hq
  rw [byteOffset, byteOffset, htake, byteLength_append]
  exact Nat.lt_add_of_pos_right (byteLength_pos hu)

theorem byteOffset_append_length (a b : List Char) :
    byteOffset (a ++ b) a.length = byteLength a := by
  rw [byteOffset, List.take_left]

theorem positionOf?_cons (c : Char) (cs : List Char) (n : Nat) :
    positionOf? (c :: cs) (c.utf8Size + n) = (positionOf? cs n).map (· + 1) := by
  obtain ⟨m, hm⟩ : ∃ m, c.utf8Size + n = m + 1 :=
    Nat.exists_eq_succ_of_ne_zero (by have := c.utf8Size_pos; omega)
  rw [hm, positionOf?, ← hm, if_pos (Nat.le_add_right ..), Nat.add_sub_cancel_left]
  exact Nat.succ_ne_zero m

theorem positionOf?_append : ∀ a b : List Char,
    positionOf? (a ++ b) (byteLength a) = some a.length
  | [], _ => by simp [positionOf?]
  | c :: a, b => by
      rw [List.cons_append, byteLength, positionOf?_cons, positionOf?_append a b]
      rfl

/-! ## Measures of a place -/

/-- A measure that grows with each character in front of a place tells the place. -/
theorem eq_of_measure_eq {α : Type} {measure : List Char → α}
    (hgrows : ∀ a u, measure a = measure (a ++ u) → u = []) {a b a' b' : List Char}
    (htext : a ++ b = a' ++ b') (h : measure a = measure a') : a = a' := by
  rcases List.append_eq_append_iff.mp htext with ⟨u, rfl, -⟩ | ⟨u, rfl, -⟩
  · rw [hgrows a u h, List.append_nil]
  · rw [hgrows a' u h.symm, List.append_nil]

theorem eq_of_byteLength_eq {a b a' b' : List Char} (htext : a ++ b = a' ++ b')
    (h : byteLength a = byteLength a') : a = a' := by
  refine eq_of_measure_eq (fun a u h => ?_) htext h
  rw [byteLength_append] at h
  by_cases hu : u = []
  · exact hu
  · have hpos := byteLength_pos hu
    omega

/-- What a text has behind the last `x` goes on with the characters that are added. -/
theorem behindLast_append {x : Char} {u : List Char} (h : x ∉ u) (a : List Char) :
    ((a ++ u).reverse.takeWhile (· ≠ x)).reverse = (a.reverse.takeWhile (· ≠ x)).reverse ++ u := by
  have hu : ∀ c ∈ u.reverse, decide (c ≠ x) = true := fun c hc =>
    decide_eq_true fun hc' => h (hc' ▸ List.mem_reverse.mp hc)
  rw [List.reverse_append, List.takeWhile_append_of_pos hu, List.reverse_append,
    List.reverse_reverse]

theorem LineColumn.eq_of_behind_eq {a b a' b' : List Char} (htext : a ++ b = a' ++ b')
    (h : behind a = behind a') : a = a' := by
  refine eq_of_measure_eq (fun a u h => ?_) htext h
  obtain ⟨hline, hcolumn⟩ := LineColumn.mk.inj h
  rw [List.count_append] at hline
  have hbreak : '\n' ∉ u := List.count_eq_zero.mp (by omega)
  rw [lastLine, lastLine, behindLast_append hbreak, List.length_append] at hcolumn
  exact List.length_eq_zero_iff.mp (by omega)

end DesignTokens.Text
