import DesignTokens.Proofs.Text.Place
import DesignTokens.Proofs.Text.Trim

/-!
# Lines and columns

`lineColumn?` goes from the bytes in front of a place to its line and column.
The way back goes over the lines above the place and over the characters to the
left of it on its own line (`LineColumn.offset?`). The two undo each other
(`LineColumn.offset?_eq_some_iff_lineColumn`): every place of a text is reached
by its line and column, and nothing is reached by the line and column of no
place. What stands later in a text is on a later line, or further to the right
on the same line (`LineColumn.before_iff`).
-/

namespace DesignTokens.Text

/-! ## Lines one below the other -/

/-- Lines one below the other, each with its line end. -/
def stacked (lines : List (List Char)) : List Char := lines.flatMap (· ++ ['\n'])

@[simp] theorem stacked_nil : stacked [] = [] := rfl

@[simp] theorem stacked_cons (line : List Char) (lines : List (List Char)) :
    stacked (line :: lines) = line ++ '\n' :: stacked lines := by
  simp [stacked]

@[simp] theorem stacked_append (above below : List (List Char)) :
    stacked (above ++ below) = stacked above ++ stacked below := by
  simp [stacked]

/-- A text is the lines above its last one, and its last one. -/
theorem exists_stacked : ∀ cs : List Char, ∃ above last, cs = stacked above ++ last ∧
    (∀ line ∈ above, '\n' ∉ line) ∧ '\n' ∉ last
  | [] => ⟨[], [], rfl, by simp, by simp⟩
  | c :: cs => by
      obtain ⟨above, last, rfl, habove, hlast⟩ := exists_stacked cs
      by_cases hc : c = '\n'
      · exact ⟨[] :: above, last, by simp [hc], by simpa using habove, hlast⟩
      · -- the character belongs to the first line, which is the last one if there is no other
        cases above with
        | nil => exact ⟨[], c :: last, rfl, by simp, by simp [hlast, Ne.symm hc]⟩
        | cons line above =>
            obtain ⟨hline, habove⟩ := List.forall_mem_cons.mp habove
            refine ⟨(c :: line) :: above, last, by simp, ?_, hlast⟩
            exact List.forall_mem_cons.mpr ⟨by simp [hline, Ne.symm hc], habove⟩

theorem pieces_stacked {above : List (List Char)} (h : ∀ line ∈ above, '\n' ∉ line)
    (cs : List Char) :
    pieces (· = '\n') (stacked above ++ cs) = above ++ pieces (· = '\n') cs := by
  induction above with
  | nil => rfl
  | cons line above ih =>
      obtain ⟨hline, habove⟩ := List.forall_mem_cons.mp h
      rw [stacked_cons, List.append_assoc, List.cons_append,
        pieces_append (no_separator hline) (by decide), ih habove, List.cons_append]

theorem lastLine_stacked (above : List (List Char)) : lastLine (stacked above) = [] := by
  rcases List.eq_nil_or_concat above with rfl | ⟨front, line, rfl⟩
  · rfl
  · simp [lastLine]

theorem count_stacked {above : List (List Char)} (h : ∀ line ∈ above, '\n' ∉ line) :
    (stacked above).count '\n' = above.length := by
  induction above with
  | nil => rfl
  | cons line above ih =>
      obtain ⟨hline, habove⟩ := List.forall_mem_cons.mp h
      rw [stacked_cons, List.count_append, List.count_eq_zero.mpr hline, List.count_cons_self,
        ih habove, Nat.zero_add, List.length_cons]

namespace LineColumn

theorem behind_stacked {above : List (List Char)} {left : List Char}
    (habove : ∀ line ∈ above, '\n' ∉ line) (hleft : '\n' ∉ left) :
    behind (stacked above ++ left) = ⟨above.length + 1, left.length + 1⟩ := by
  have hlast : lastLine (stacked above ++ left) = left := by
    rw [lastLine, behindLast_append hleft, ← lastLine, lastLine_stacked, List.nil_append]
  rw [behind, hlast, List.count_append, count_stacked habove, List.count_eq_zero.mpr hleft,
    Nat.add_zero]

/-! ## The way back -/

/-- The number of bytes in front of a place: the lines above it are gone over with their line
ends, and as many characters of its own line as its column says. There is no such place on a line
that the text does not have, nor behind the end of a line. -/
def offset? (text : List Char) : LineColumn → Option Nat
  | ⟨above + 1, left + 1⟩ =>
    let lines := pieces (· = '\n') text
    lines[above]?.bind fun line =>
      if left ≤ line.length then some (byteLength (stacked (lines.take above) ++ line.take left))
      else none
  | _ => none

/-- The line and the column of a place lead back to it. -/
theorem offset?_behind (a b : List Char) : (behind a).offset? (a ++ b) = some (byteLength a) := by
  obtain ⟨above, left, rfl, habove, hleft⟩ := exists_stacked a
  obtain ⟨right, below, hb⟩ := exists_pieces_cons (· = '\n') b
  have hlines : pieces (· = '\n') (stacked above ++ left ++ b)
      = above ++ (left ++ right) :: below := by
    rw [List.append_assoc, pieces_stacked habove, pieces_free_append hb (no_separator hleft)]
  rw [behind_stacked habove hleft, offset?, hlines]
  simp

/-- A line of a text stands behind the lines above it. -/
theorem exists_stacked_line {front : List (List Char)} {last line : List Char} {above : Nat}
    (hline : (front ++ [last])[above]? = some line) :
    ∃ rest, stacked front ++ last = stacked ((front ++ [last]).take above) ++ (line ++ rest) := by
  obtain ⟨hlength, hget⟩ := List.getElem?_eq_some_iff.mp hline
  have hsplit := List.take_append_drop above (front ++ [last])
  rw [List.drop_eq_getElem_cons hlength, hget] at hsplit
  generalize (front ++ [last]).take above = upper at hsplit ⊢
  -- the line is the last one, or the last one is behind it
  rcases List.eq_nil_or_concat ((front ++ [last]).drop (above + 1)) with h | ⟨lower, last', h⟩
  · rw [h] at hsplit
    obtain ⟨rfl, hlast⟩ := List.append_inj' hsplit rfl
    exact ⟨[], by rw [List.append_nil, (List.cons.inj hlast).1]⟩
  · rw [h, List.concat_eq_append, ← List.cons_append, ← List.append_assoc] at hsplit
    obtain ⟨rfl, hlast⟩ := List.append_inj' hsplit rfl
    exact ⟨'\n' :: stacked lower ++ last, by simp⟩

/-- What is reached by a line and a column is the place that has them. -/
theorem exists_of_offset? {text : List Char} {place : LineColumn} {offset : Nat}
    (h : place.offset? text = some offset) :
    ∃ a b, text = a ++ b ∧ behind a = place ∧ byteLength a = offset := by
  obtain ⟨front, last, rfl, hfront, hlast⟩ := exists_stacked text
  have hlines : ∀ line ∈ front ++ [last], '\n' ∉ line :=
    List.forall_mem_append.mpr ⟨hfront, by simpa using hlast⟩
  have hpieces : pieces (· = '\n') (stacked front ++ last) = front ++ [last] := by
    rw [pieces_stacked hfront, pieces_of_forall (no_separator hlast)]
  unfold offset? at h
  split at h
  case h_2 => cases h
  case h_1 above left =>
    rw [hpieces] at h
    obtain ⟨line, hline, hread⟩ := Option.bind_eq_some_iff.mp h
    obtain ⟨rest, htext⟩ := exists_stacked_line hline
    obtain ⟨habove, -⟩ := List.getElem?_eq_some_iff.mp hline
    split at hread
    case isFalse => cases hread
    case isTrue hleft =>
      refine ⟨_, line.drop left ++ rest, ?_, ?_, Option.some.inj hread⟩
      · rw [htext, List.append_assoc, ← List.append_assoc (line.take left), List.take_append_drop]
      · have hupper : ∀ line ∈ (front ++ [last]).take above, '\n' ∉ line := fun line hmem =>
          hlines line (List.mem_of_mem_take hmem)
        have hself : '\n' ∉ line.take left := fun hmem =>
          hlines line (List.mem_of_getElem? hline) (List.mem_of_mem_take hmem)
        rw [behind_stacked hupper hself, List.length_take_of_le habove.le,
          List.length_take_of_le hleft]

theorem offset?_eq_some_iff {text : List Char} {place : LineColumn} {offset : Nat} :
    place.offset? text = some offset ↔
      ∃ a b, text = a ++ b ∧ behind a = place ∧ byteLength a = offset := by
  refine ⟨exists_of_offset?, ?_⟩
  rintro ⟨a, b, rfl, rfl, rfl⟩
  exact offset?_behind a b

example : offset? "é\nbc".toList ⟨2, 2⟩ = some 4 ∧ offset? "é\nbc".toList ⟨1, 3⟩ = none := by decide

end LineColumn

/-! ## There and back -/

/-- The number of bytes in front of a character of the text, or of its end. -/
def IsOffset (text : List Char) (offset : Nat) : Prop :=
  ∃ a b, text = a ++ b ∧ byteLength a = offset

theorem lineColumn?_append (a b : List Char) :
    lineColumn? (a ++ b) (byteLength a) = some (.behind a) := by
  rw [lineColumn?, byteLength_append, Nat.min_eq_left (Nat.le_add_right ..), positionOf?_append,
    Option.map_some, List.take_left]

namespace LineColumn

/-- The two ways undo each other. -/
theorem offset?_eq_some_iff_lineColumn {text : List Char} {place : LineColumn} {offset : Nat} :
    place.offset? text = some offset ↔
      IsOffset text offset ∧ lineColumn? text offset = some place := by
  rw [offset?_eq_some_iff]
  constructor
  · rintro ⟨a, b, rfl, rfl, rfl⟩
    exact ⟨⟨a, b, rfl, rfl⟩, lineColumn?_append a b⟩
  · rintro ⟨⟨a, b, rfl, rfl⟩, hplace⟩
    exact ⟨a, b, rfl, Option.some.inj ((lineColumn?_append a b).symm.trans hplace), rfl⟩

/-! ## The order of places -/

/-- The order in which a text is read: by lines, and by columns on the same line. -/
def Before (x y : LineColumn) : Prop := x.line < y.line ∨ (x.line = y.line ∧ x.column < y.column)

theorem Before.irrefl (x : LineColumn) : ¬x.Before x := by
  rintro (h | ⟨-, h⟩) <;> exact Nat.lt_irrefl _ h

theorem Before.asymm {x y : LineColumn} (h : x.Before y) : ¬y.Before x := by
  rcases h with h | ⟨h, h'⟩ <;> rintro (g | ⟨g, g'⟩) <;> omega

theorem before_append {u : List Char} (hu : u ≠ []) (a : List Char) :
    (behind a).Before (behind (a ++ u)) := by
  have hpos := List.length_pos_iff.mpr hu
  -- a line end makes the line later, and any other character only the column
  by_cases hbreak : '\n' ∈ u
  · have hcount := List.count_pos_iff.mpr hbreak
    refine .inl ?_
    simp only [behind, List.count_append]
    omega
  · have hcount := List.count_eq_zero.mpr hbreak
    refine .inr ⟨by simp only [behind, List.count_append, hcount, Nat.add_zero], ?_⟩
    simp only [behind, lastLine]
    rw [behindLast_append hbreak, List.length_append]
    omega

/-- Of two places of a text, the one with fewer bytes in front of it is read before the other. -/
theorem before_iff {a b a' b' : List Char} (htext : a ++ b = a' ++ b') :
    (behind a).Before (behind a') ↔ byteLength a < byteLength a' := by
  rcases List.append_eq_append_iff.mp htext with ⟨u, rfl, -⟩ | ⟨u, rfl, -⟩
  · by_cases hu : u = []
    · simp [hu, Before.irrefl]
    · have hpos := byteLength_pos hu
      exact iff_of_true (before_append hu a) (by rw [byteLength_append]; omega)
  · by_cases hu : u = []
    · simp [hu, Before.irrefl]
    · exact iff_of_false (before_append hu a').asymm (by rw [byteLength_append]; omega)

theorem before_take {text : List Char} {p q : Nat} (hpq : p < q) (hq : q ≤ text.length) :
    (behind (text.take p)).Before (behind (text.take q)) := by
  obtain ⟨u, hu, htake⟩ := exists_take_of_lt hpq hq
  rw [htake]
  exact before_append hu _

/-- Each character of a text has a line and a column of its own, and they grow as the text goes
on. -/
theorem exists_of_isOffset {text : List Char} {o o' : Nat} (h : IsOffset text o)
    (h' : IsOffset text o') : ∃ place place', lineColumn? text o = some place ∧
      lineColumn? text o' = some place' ∧ (place = place' ↔ o = o') ∧
      (place.Before place' ↔ o < o') := by
  obtain ⟨a, b, rfl, rfl⟩ := h
  obtain ⟨a', b', htext, rfl⟩ := h'
  refine ⟨behind a, behind a', lineColumn?_append a b, by rw [htext, lineColumn?_append], ?_,
    before_iff htext⟩
  constructor
  · intro hplace
    rw [eq_of_behind_eq htext hplace]
  · intro hbytes
    rw [eq_of_byteLength_eq htext hbytes]

end LineColumn

end DesignTokens.Text
