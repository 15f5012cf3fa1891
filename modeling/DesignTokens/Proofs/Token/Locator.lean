import DesignTokens.Proofs.Text.LineColumn
import DesignTokens.Proofs.Token.Editable

/-!
# Where editable tokens are

An entry of the list of editable properties shows the line and the column of its
token, and no position. They lead back to the token
(`EditableProperty.LocatedAt`): to bytes of the text where the token stands,
whole and inside the quotes of a literal. The literals of a text follow each
other, and so do the words of a literal, so the entries are listed in the order
in which their tokens are read (`pairwise_editableProperties`).
-/

namespace DesignTokens

open Text

/-- The line and the column that a locator shows. -/
def Locator.place (l : Locator) : LineColumn := ⟨l.line, l.column⟩

/-- A literal of a text is a quote, what that quote lets a literal hold, and the quote again. -/
def Text.Span.IsQuoted (s : Span) (text : List Char) : Prop :=
  ∃ quote body, isQuote quote = true ∧ (∀ c ∈ body, staysInLiteral quote c = true) ∧
    s.of text = quote :: (body ++ [quote])

/-- The line and the column of an entry lead to its token, which stands behind this number of
bytes. It lies between the quotes of a literal, has no blank in it, and is what the property and the
pixels of the entry are read from. -/
structure EditableProperty.LocatedAt (text : List Char) (x : EditableProperty) (offset : Nat) :
    Prop where
  reached : x.locator.place.offset? text = some offset
  token : ∃ a b, text = a ++ (x.token.toList ++ b) ∧ byteLength a = offset
  quoted : ∃ literal ∈ stringLiterals text, literal.IsQuoted text ∧
    byteOffset text literal.start < offset ∧
    offset + byteLength x.token.toList < byteOffset text literal.stop
  unbroken : ∀ c ∈ x.token.toList, isBlank c = false
  read : ∃ n, x.pixels = some n ∧ classify? x.token.toList = some (x.property, n)

section

variable {text : List Char}

/-! ## The place of an entry -/

theorem isQuoted_of_mem_stringLiterals {literal : Span} (h : literal ∈ stringLiterals text) :
    literal.IsQuoted text ∧ literal.stop ≤ text.length := by
  obtain ⟨a, quote, body, b, htext, hquote, hbody, rfl, hof⟩ := exists_of_mem_stringLiterals h
  refine ⟨⟨quote, body, hquote, hbody, hof⟩, ?_⟩
  rw [htext, Span.stop]
  simp only [List.length_append, List.length_cons]
  omega

/-- The token of an entry stands inside its literal, where the entry says. -/
theorem exists_position {literal : Span} {x : EditableProperty}
    (hliteral : literal ∈ stringLiterals text) (hx : x ∈ editableInLiteral text literal) :
    ∃ a b, WordAt a x.token.toList b text ∧ x.locator.place = .behind a ∧
      literal.start < a.length ∧ (a ++ x.token.toList).length < literal.stop := by
  obtain ⟨offset, n, hword, hshown, -, -⟩ := exists_of_mem_editableInLiteral hx
  obtain ⟨a, b, hplace, hpos, hstart, hstop⟩ := exists_of_mem_words hliteral hword
  rw [hpos, hplace.text_eq, List.take_left] at hshown
  exact ⟨a, b, hplace, hshown.symm, hstart, hstop⟩

/-- Each entry leads to its token. -/
theorem exists_locatedAt {x : EditableProperty} (hx : x ∈ editableProperties text) :
    ∃ offset, x.LocatedAt text offset := by
  obtain ⟨literal, hliteral, hx⟩ := List.mem_flatMap.mp hx
  obtain ⟨a, b, hplace, hshown, hstart, hstop⟩ := exists_position hliteral hx
  obtain ⟨-, n, -, -, hpixels, hread⟩ := exists_of_mem_editableInLiteral hx
  obtain ⟨hquoted, hend⟩ := isQuoted_of_mem_stringLiterals hliteral
  have htext : text = a ++ x.token.toList ++ b := by rw [hplace.text_eq, List.append_assoc]
  have hbefore : byteOffset text a.length = byteLength a := by
    rw [hplace.text_eq, byteOffset_append_length]
  have hbehind : byteOffset text (a ++ x.token.toList).length
      = byteLength a + byteLength x.token.toList := by
    rw [htext, byteOffset_append_length, byteLength_append]
  have hlength : a.length ≤ text.length := by
    rw [hplace.text_eq, List.length_append]
    exact Nat.le_add_right ..
  refine ⟨byteLength a, ?_, ⟨a, b, hplace.text_eq, rfl⟩, ⟨literal, hliteral, hquoted, ?_, ?_⟩,
    hplace.not_blank, n, hpixels, hread⟩
  · rw [hshown, hplace.text_eq, LineColumn.offset?_behind]
  · rw [← hbefore]
    exact byteOffset_lt_byteOffset hstart hlength
  · rw [← hbehind]
    exact byteOffset_lt_byteOffset hstop hend

/-! ## The order of the entries -/

theorem pairwise_wordsFrom : ∀ (cs : List Char) (atStart : Bool) (pos : Nat),
    (wordsFrom atStart pos cs).Pairwise fun v w => v.1 < w.1
  | [], _, _ => .nil
  | c :: cs, atStart, pos => by
      have hlater := pairwise_wordsFrom cs (isBlank c) (pos + 1)
      rw [wordsFrom]
      split
      case isFalse => exact hlater
      case isTrue =>
        refine List.pairwise_cons.mpr ⟨fun w hw => ?_, hlater⟩
        obtain ⟨a, -, -, hpos, -⟩ := exists_of_mem_wordsFrom hw
        omega

/-- The entries of a literal are listed in the order in which their words are read. -/
theorem pairwise_editableInLiteral {literal : Span} (hliteral : literal ∈ stringLiterals text) :
    (editableInLiteral text literal).Pairwise fun x y => x.locator.place.Before y.locator.place := by
  refine List.Pairwise.filterMap _ ?_ (List.Pairwise.and_mem.mp (pairwise_wordsFrom _ true 0))
  rintro v w ⟨-, hw, hlt⟩ x hx y hy
  obtain ⟨-, -, rfl⟩ := Option.map_eq_some_iff.mp hx
  obtain ⟨-, -, rfl⟩ := Option.map_eq_some_iff.mp hy
  obtain ⟨a, b, hplace, hpos, -⟩ := exists_of_mem_words hliteral hw
  refine LineColumn.before_take (by omega) ?_
  rw [hpos, hplace.text_eq, List.length_append]
  exact Nat.le_add_right ..

/-- The entries of a text are listed in the order in which their tokens are read. -/
theorem pairwise_editableProperties (text : List Char) :
    (editableProperties text).Pairwise fun x y => x.locator.place.Before y.locator.place := by
  refine List.pairwise_flatMap.mpr ⟨fun literal => pairwise_editableInLiteral,
    (List.Pairwise.and_mem.mp (Pattern.pairwise_spansFrom text none 0 0)).imp ?_⟩
  rintro s s' ⟨hs, hs', hlt⟩ x hx y hy
  obtain ⟨a, b, hplace, hshown, -, hstop⟩ := exists_position hs hx
  obtain ⟨a', b', hplace', hshown', hstart', -⟩ := exists_position hs' hy
  have htake : text.take a.length = a := by rw [hplace.text_eq, List.take_left]
  have htake' : text.take a'.length = a' := by rw [hplace'.text_eq, List.take_left]
  rw [hshown, hshown', ← htake, ← htake']
  refine LineColumn.before_take ?_ ?_
  · rw [List.length_append] at hstop
    omega
  · rw [hplace'.text_eq, List.length_append]
    exact Nat.le_add_right ..

end

/-- The entries of the list stand in the order of the text. The line and the column of each lead to
its token, which lies in a literal, has no blank, and is read as what the entry shows. The line and
the column of a character of the text lead back to that character and to no other, and they grow as
the text goes on. -/
theorem editable_located (text : List Char) :
    (∀ x ∈ editableProperties text, ∃ offset, x.LocatedAt text offset) ∧
    (editableProperties text).Pairwise (fun x y =>
      ∃ o o', x.LocatedAt text o ∧ y.LocatedAt text o' ∧ o < o') ∧
    (∀ (place : LineColumn) offset, place.offset? text = some offset ↔
      IsOffset text offset ∧ lineColumn? text offset = some place) ∧
    (∀ o o', IsOffset text o → IsOffset text o' → ∃ place place',
      lineColumn? text o = some place ∧ lineColumn? text o' = some place' ∧
      (place = place' ↔ o = o') ∧ (place.Before place' ↔ o < o')) := by
  refine ⟨fun x => exists_locatedAt, ?_, fun _ _ => LineColumn.offset?_eq_some_iff_lineColumn,
    fun _ _ => LineColumn.exists_of_isOffset⟩
  refine (List.Pairwise.and_mem.mp (pairwise_editableProperties text)).imp ?_
  rintro x y ⟨hx, hy, hbefore⟩
  obtain ⟨o, ho⟩ := exists_locatedAt hx
  obtain ⟨o', ho'⟩ := exists_locatedAt hy
  refine ⟨o, o', ho, ho', ?_⟩
  obtain ⟨a, b, htext, hplace, rfl⟩ := LineColumn.exists_of_offset? ho.reached
  obtain ⟨a', b', htext', hplace', rfl⟩ := LineColumn.exists_of_offset? ho'.reached
  rw [← hplace, ← hplace'] at hbefore
  exact (LineColumn.before_iff (htext.symm.trans htext')).mp hbefore

theorem editable_located_behind_line_end :
    let text := "é a=\x60ß\n\t md:h-4 p-1\x60".toList
    ∃ x y, editableProperties text = [x, y] ∧ x.token = "md:h-4" ∧ x.locator.place = ⟨2, 3⟩ ∧
      x.LocatedAt text 11 ∧ y.locator.place = ⟨2, 10⟩ ∧ y.LocatedAt text 18 := by
  intro text
  have hlist : editableProperties text = [⟨.height, "md:h-4", some 16, ⟨2, 3, "a"⟩⟩,
      ⟨.padding, "p-1", some 4, ⟨2, 10, "a"⟩⟩] := by decide
  have hentry : ∀ x ∈ editableProperties text, ∀ offset,
      x.locator.place.offset? text = some offset → x.LocatedAt text offset := by
    intro x hx offset hreached
    obtain ⟨o, ho⟩ := (editable_located text).1 x hx
    rwa [Option.some.inj (hreached.symm.trans ho.reached)]
  exact ⟨_, _, hlist, rfl, rfl, hentry _ (by rw [hlist]; simp) _ (by decide), rfl,
    hentry _ (by rw [hlist]; simp) _ (by decide)⟩

end DesignTokens
