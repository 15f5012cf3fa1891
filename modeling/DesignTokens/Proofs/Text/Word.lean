import DesignTokens.Proofs.Text.Template

/-!
# Words of a text

A name is found in a text where it has a word boundary at either end
(`holdsName_iff_bordered`). For a name that starts and ends with a word character
that is where no word character is next to it (`holdsName_iff`).
-/

namespace DesignTokens.Text

theorem isWord_of_isIdent_eq_false {c : Char} (h : isIdent c = false) : isWord c = false := by
  rw [isIdent, Bool.or_eq_false_iff] at h
  exact h.1

/-- The characters stand in the text with no word character on either side. -/
def WordIn (w text : List Char) : Prop :=
  ∃ a b, text = a ++ (w ++ b) ∧ wordAt a.getLast? = false ∧ wordAt b.head? = false

theorem startsWithName_eq_true_iff {name rest : List Char} {before : Option Char} :
    startsWithName name before rest = true ↔ ∃ behind, rest = name ++ behind ∧
      isBoundary before rest.head? = true ∧
      isBoundary (name.getLast?.or before) behind.head? = true := by
  rw [startsWithName, Bool.and_eq_true]
  cases h : after? name rest with
  | none =>
      refine ⟨fun h => (by cases h.2), ?_⟩
      rintro ⟨behind, hrest, -⟩
      rw [after_eq_some_iff.mpr hrest] at h
      cases h
  | some behind =>
      have hrest := after_eq_some_iff.mp h
      refine ⟨fun h => ⟨behind, hrest, h⟩, ?_⟩
      rintro ⟨behind', hrest', h⟩
      rwa [← List.append_cancel_left (hrest.symm.trans hrest')] at h

/-- The character in front of a place, whether the text is read with its first character or behind
it. -/
theorem getLast?_cons_or (c : Char) (a : List Char) (before : Option Char) :
    (c :: a).getLast?.or before = a.getLast?.or (some c) := by
  rw [List.getLast?_cons]
  cases a.getLast? <;> rfl

theorem holdsNameFrom_eq_true_iff {name : List Char} : ∀ {text : List Char} {before : Option Char},
    holdsNameFrom name before text = true ↔
      ∃ a rest, text = a ++ rest ∧ startsWithName name (a.getLast?.or before) rest = true
  | [], before => by
      simp only [holdsNameFrom, List.nil_eq_append_iff]
      constructor
      · exact fun h => ⟨[], [], ⟨rfl, rfl⟩, h⟩
      · rintro ⟨_, _, ⟨rfl, rfl⟩, h⟩
        exact h
  | c :: cs, before => by
      rw [holdsNameFrom, Bool.or_eq_true, holdsNameFrom_eq_true_iff]
      constructor
      · rintro (h | ⟨a, rest, rfl, h⟩)
        · exact ⟨[], c :: cs, rfl, h⟩
        · exact ⟨c :: a, rest, rfl, by rwa [getLast?_cons_or]⟩
      · rintro ⟨a, rest, htext, h⟩
        cases a with
        | nil =>
            obtain rfl : c :: cs = rest := htext
            exact .inl h
        | cons d a =>
            obtain ⟨rfl, rfl⟩ := List.cons.inj htext
            exact .inr ⟨a, rest, rfl, by rwa [getLast?_cons_or] at h⟩

/-- The characters stand in the text between two that are no word characters. -/
def Enclosed (w text : List Char) : Prop :=
  ∃ a x y b, text = a ++ x :: (w ++ y :: b) ∧ isWord x = false ∧ isWord y = false

section

variable {w text : List Char}

theorem Enclosed.append_left (h : Enclosed w text) (front : List Char) :
    Enclosed w (front ++ text) := by
  obtain ⟨a, x, y, b, rfl, hx, hy⟩ := h
  exact ⟨front ++ a, x, y, b, by simp, hx, hy⟩

theorem Enclosed.append_right (h : Enclosed w text) (behind : List Char) :
    Enclosed w (text ++ behind) := by
  obtain ⟨a, x, y, b, rfl, hx, hy⟩ := h
  exact ⟨a, x, y, b ++ behind, by simp, hx, hy⟩

theorem Enclosed.wordIn (h : Enclosed w text) : WordIn w text := by
  obtain ⟨a, x, y, b, rfl, hx, hy⟩ := h
  exact ⟨a ++ [x], y :: b, by simp, by simpa [wordAt] using hx, by simpa [wordAt] using hy⟩

end

/-- Between the two texts the name has a word boundary at either end. -/
structure Bordered (a name b : List Char) : Prop where
  before : isBoundary a.getLast? (name ++ b).head? = true
  behind : isBoundary (name.getLast?.or a.getLast?) b.head? = true

/-- A name is found where it has a word boundary at either end. -/
theorem holdsName_iff_bordered {name text : List Char} :
    holdsName name text = true ↔ ∃ a b, text = a ++ (name ++ b) ∧ Bordered a name b := by
  rw [holdsName, holdsNameFrom_eq_true_iff]
  constructor
  · rintro ⟨a, rest, rfl, hstart⟩
    obtain ⟨b, rfl, hbefore, hbehind⟩ := startsWithName_eq_true_iff.mp hstart
    rw [Option.or_none] at hbefore hbehind
    exact ⟨a, b, rfl, hbefore, hbehind⟩
  · rintro ⟨a, b, rfl, hbefore, hbehind⟩
    refine ⟨a, name ++ b, rfl, startsWithName_eq_true_iff.mpr ⟨b, rfl, ?_, ?_⟩⟩
    · rwa [Option.or_none]
    · rwa [Option.or_none]

/-- Of the two texts only the characters next to the name count, and only whether they are word
characters. -/
theorem Bordered.congr {a name b a' b' : List Char} (h : Bordered a name b)
    (ha : wordAt a'.getLast? = wordAt a.getLast?) (hb : wordAt b'.head? = wordAt b.head?) :
    Bordered a' name b' := by
  obtain ⟨hbefore, hbehind⟩ := h
  cases hlast : name.getLast? with
  | none =>
      obtain rfl := List.getLast?_eq_none_iff.mp hlast
      rw [isBoundary, List.nil_append] at hbefore
      refine ⟨?_, ?_⟩ <;> (rw [isBoundary] ; simpa [ha, hb] using hbefore)
  | some c =>
      obtain ⟨d, ds, rfl⟩ := List.exists_cons_of_ne_nil fun h : name = [] => by simp [h] at hlast
      rw [hlast, Option.some_or, isBoundary] at hbehind
      refine ⟨?_, ?_⟩
      · rw [isBoundary, ha]
        exact hbefore
      · rw [hlast, Option.some_or, isBoundary, hb]
        exact hbehind

/-- A name that starts and ends with a word character. -/
structure Bounded (name : List Char) : Prop where
  first : wordAt name.head? = true
  last : wordAt name.getLast? = true

theorem Bounded.ne_nil {name : List Char} (h : Bounded name) : name ≠ [] := by
  rintro rfl
  exact nomatch h.first

/-- A name is found exactly where no word character is next to it. -/
theorem holdsName_iff {name text : List Char} (h : Bounded name) :
    holdsName name text = true ↔ WordIn name text := by
  rw [holdsName_iff_bordered]
  refine exists_congr fun a => exists_congr fun b => and_congr_right fun _ => ?_
  have hfirst : (name ++ b).head? = name.head? := List.head?_append_of_ne_nil name h.ne_nil
  have hlast : name.getLast?.or a.getLast? = name.getLast? := by
    rw [List.getLast?_eq_some_getLast h.ne_nil, Option.some_or]
  constructor
  · rintro ⟨hbefore, hbehind⟩
    rw [isBoundary, hfirst, h.first] at hbefore
    rw [isBoundary, hlast, h.last] at hbehind
    exact ⟨by simpa using hbefore, by simpa using hbehind⟩
  · rintro ⟨ha, hb⟩
    exact ⟨by rw [isBoundary, hfirst, h.first, ha]; rfl, by rw [isBoundary, hlast, h.last, hb]; rfl⟩

/-- A name stays when something is put into the text, unless it reaches over the place where that
is done. No word must go on over the place. -/
theorem holdsName_insert {name front segment behind : List Char}
    (hsegment : wordAt (segment ++ behind).head? = false) (hbehind : wordAt behind.head? = false)
    (hend : ∀ f n b, name = f ++ n → behind = n ++ b → n = [])
    (h : holdsName name (front ++ behind) = true) :
    holdsName name (front ++ (segment ++ behind)) = true := by
  obtain ⟨a, b, hab, hborder⟩ := holdsName_iff_bordered.mp h
  rw [holdsName_iff_bordered]
  -- the name ends in front of the place, or it starts behind
  have hside : (∃ f, front = a ++ (name ++ f) ∧ b = f ++ behind) ∨
      ∃ a', a' ≠ [] ∧ a = front ++ a' ∧ behind = a' ++ (name ++ b) := by
    rcases List.append_eq_append_iff.mp hab with ⟨a', ha, hstart⟩ | ⟨f, hf, hstart⟩
    · by_cases hempty : a' = []
      · subst hempty
        obtain rfl := hend [] name b rfl hstart
        exact .inl ⟨[], by simpa using ha.symm, hstart.symm⟩
      · exact .inr ⟨a', hempty, ha, hstart⟩
    · rcases List.append_eq_append_iff.mp hstart with ⟨f', rfl, hb⟩ | ⟨n, hname, hn⟩
      · exact .inl ⟨f', hf, hb⟩
      · obtain rfl := hend f n b hname hn
        rw [List.append_nil] at hname
        exact .inl ⟨[], by rw [hf, hname, List.append_nil], hn.symm⟩
  rcases hside with ⟨f, rfl, rfl⟩ | ⟨a', hne, rfl, hstart⟩
  · refine ⟨a, f ++ (segment ++ behind), by simp, hborder.congr rfl ?_⟩
    cases f with
    | nil => rw [List.nil_append, List.nil_append, hsegment, hbehind]
    | cons c f => rfl
  · refine ⟨front ++ (segment ++ a'), b, by simp [hstart], hborder.congr ?_ rfl⟩
    rw [← List.append_assoc, List.getLast?_append_of_ne_nil _ hne,
      List.getLast?_append_of_ne_nil _ hne]

end DesignTokens.Text
