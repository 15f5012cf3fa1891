import DesignTokens.Compliance.Advice
import DesignTokens.Issue.Finding
import DesignTokens.Proofs.Rewrite.FreeName
import DesignTokens.Proofs.Text.Replace
import DesignTokens.Proofs.Text.Trim
import DesignTokens.Proofs.Token.Scan

/-!
# Advice read back

Each sentence of a report is read back by the form that wrote it and by no other,
since the four forms start with different letters. A spacing sentence gives back
its property and the first of its lengths, a sentence on colors the colors that
it names, and a sentence on missing values the values, trimmed and without blank
ones, unless a comma or a back quote of their own cuts them.
-/

namespace DesignTokens

open Text Number Rewrite

namespace Finding

variable {cs : List Char}

/-! ## The form of a sentence -/

/-- The letter that the sentences of a form start with. -/
def initial : Advice → Char
  | .missingValues .. => 'A'
  | .spacing .. => 'S'
  | .literalColors .. => 'R'
  | .themeColors .. => 'U'

theorem head?_text (a : Advice) : a.text.toList.head? = some (initial a) := by
  have happend : ∀ {s : String} {c : Char} (t : String), s.toList.head? = some c →
      (s ++ t).toList.head? = some c := by
    intro s c t h
    rw [String.toList_append, List.head?_append, h, Option.some_or]
  cases a with
  | missingValues dimension values =>
      have hopening : "Add missing `".toList.head? = some 'A' := by simp
      exact happend _ (happend _ (happend _ hopening))
  | spacing p pixels =>
      have hopening : "Set `".toList.head? = some 'S' := by simp
      exact happend _ (happend _ (happend _ hopening))
  | literalColors literals =>
      have hopening : "Replace hardcoded colors with theme tokens: ".toList.head? = some 'R' := by
        simp
      exact happend _ hopening
  | themeColors examples =>
      have hopening : "Use theme color tokens (e.g. ".toList.head? = some 'U' := by simp
      exact happend _ (happend _ hopening)

theorem head?_trim_text (a : Advice) : (trim a.text.toList).head? = some (initial a) := by
  have hletter : isWhiteSpace (initial a) = false := by cases a <;> rfl
  obtain ⟨rest, hrest⟩ := List.head?_eq_some_iff.mp (head?_text a)
  have htrim : trim ([initial a] ++ rest) = [initial a] ++ trimEnd rest :=
    trim_append rfl hletter rfl hletter rest
  rw [hrest, ← List.singleton_append, htrim]
  rfl

theorem after_eq_none_of_head {p : Char} {ps : List Char} (h : cs.head? ≠ some p) :
    after? (p :: ps) cs = none := by
  cases cs with
  | nil => rfl
  | cons c cs =>
      rw [after?, if_neg]
      rintro rfl
      exact h rfl

theorem missingValues?_eq_none (h : cs.head? ≠ some 'A') : missingValues? cs = none := by
  have hopening : "Add missing ".toList ++ ['\x60'] = 'A' :: "dd missing \x60".toList := by decide
  rw [missingValues?, named?, hopening, after_eq_none_of_head h]
  rfl

theorem spacing?_eq_none (h : cs.head? ≠ some 'S') : spacing? cs = none := by
  have hopening : "Set ".toList ++ ['\x60'] = 'S' :: "et \x60".toList := by decide
  rw [spacing?, named?, hopening, after_eq_none_of_head h]
  rfl

theorem themeColors?_eq_none (h : cs.head? ≠ some 'U') : themeColors? cs = none := by
  have hopening : "Use theme color tokens".toList = 'U' :: "se theme color tokens".toList := by
    decide
  rw [themeColors?, hopening, after_eq_none_of_head h]
  rfl

theorem literalColors?_eq_none (h : cs.head? ≠ some 'R') : literalColors? cs = none := by
  have hopening : "Replace hardcoded colors with theme tokens:".toList
      = 'R' :: "eplace hardcoded colors with theme tokens:".toList := by decide
  rw [literalColors?, hopening, after_eq_none_of_head h]
  rfl

section

variable {sentence : String}

theorem read?_missingValues (h : (trim sentence.toList).head? = some 'A') :
    read? sentence = missingValues? (trim sentence.toList) := by
  rw [read?, spacing?_eq_none (by simp [h]), themeColors?_eq_none (by simp [h]),
    literalColors?_eq_none (by simp [h]), Option.or_none, Option.or_none, Option.or_none]

theorem read?_spacing (h : (trim sentence.toList).head? = some 'S') :
    read? sentence = spacing? (trim sentence.toList) := by
  rw [read?, missingValues?_eq_none (by simp [h]), themeColors?_eq_none (by simp [h]),
    literalColors?_eq_none (by simp [h]), Option.none_or, Option.or_none, Option.or_none]

theorem read?_themeColors (h : (trim sentence.toList).head? = some 'U') :
    read? sentence = themeColors? (trim sentence.toList) := by
  rw [read?, missingValues?_eq_none (by simp [h]), spacing?_eq_none (by simp [h]),
    literalColors?_eq_none (by simp [h]), Option.none_or, Option.none_or, Option.or_none]

theorem read?_literalColors (h : (trim sentence.toList).head? = some 'R') :
    read? sentence = literalColors? (trim sentence.toList) := by
  rw [read?, missingValues?_eq_none (by simp [h]), spacing?_eq_none (by simp [h]),
    themeColors?_eq_none (by simp [h]), Option.none_or, Option.none_or, Option.none_or]

end

theorem named?_append {opening : String} {name : List Char} (hne : name ≠ [])
    (hname : '\x60' ∉ name) (rest : List Char) :
    named? opening (opening.toList ++ ['\x60'] ++ (name ++ '\x60' :: rest))
      = some (name, rest) := by
  have htake : (name ++ '\x60' :: rest).takeWhile (· ≠ '\x60') = name := by
    rw [takeWhile_append_stop (by decide), List.takeWhile_eq_self_iff]
    exact fun c hc => decide_eq_true (by rintro rfl; exact hname hc)
  have hempty : name.isEmpty = false := by simpa using hne
  rw [named?, after_eq_some_iff.mpr rfl]
  simp only [Option.bind_eq_bind, Option.bind_some, htake, hempty, List.drop_left]
  rfl

theorem named?_nil {opening : String} (rest : List Char) :
    named? opening (opening.toList ++ ['\x60'] ++ '\x60' :: rest) = none := by
  rw [named?, after_eq_some_iff.mpr rfl]
  simp

theorem of_named?_eq_some {opening : String} {name behind : List Char}
    (h : named? opening cs = some (name, behind)) : name ≠ [] ∧ '\x60' ∉ name := by
  obtain ⟨rest, -, h⟩ := Option.bind_eq_some_iff.mp h
  dsimp only at h
  split at h
  case isTrue => cases h
  case isFalse hne =>
    split at h
    case h_2 => cases h
    case h_1 =>
      obtain ⟨rfl, -⟩ := Prod.mk.inj (Option.some.inj h)
      refine ⟨by simpa using hne, fun hmem => ?_⟩
      exact absurd (List.mem_takeWhile_imp hmem) (by decide)

theorem oneLine?_eq_some_iff {line : List Char} :
    oneLine? cs = some line ↔ '\n' ∉ cs ∧ cs = line := by
  rw [oneLine?]
  split <;> simp_all

theorem oneLine?_of_not_mem (h : '\n' ∉ cs) : oneLine? cs = some cs :=
  oneLine?_eq_some_iff.mpr ⟨h, rfl⟩

/-! ## Lists on one line -/

/-- A string that is read back from a list on one line as it was written. -/
structure IsItem (s : String) : Prop where
  ne_empty : s ≠ ""
  trimmed_eq : trimmed s = s
  no_comma : ',' ∉ s.toList
  no_newline : '\n' ∉ s.toList

theorem isItem_of_mem {line : List Char} {s : String} (hline : oneLine? cs = some line)
    (h : s ∈ listItems line) : IsItem s := by
  obtain ⟨hnewline, rfl⟩ := oneLine?_eq_some_iff.mp hline
  obtain ⟨hne, htrimmed, hchars⟩ := of_mem_listItems h
  exact ⟨hne, htrimmed, fun hc => (hchars _ hc).2 rfl, fun hc => hnewline (hchars _ hc).1⟩

/-- The list that a sentence ends with is read back. -/
theorem listItems_of_isItem {items : List String} (h : ∀ s ∈ items, IsItem s) :
    '\n' ∉ skipBlanks (trimEnd (' ' :: (commaList items).toList)) ∧
      listItems (skipBlanks (trimEnd (' ' :: (commaList items).toList))) = items := by
  refine ⟨fun hmem => ?_, ?_⟩
  · obtain ⟨b, hb, -⟩ := exists_trimEnd (' ' :: (commaList items).toList)
    have hlist : '\n' ∈ ' ' :: (commaList items).toList := by
      rw [hb]
      exact List.mem_append_left b ((List.dropWhile_sublist _).mem hmem)
    rcases List.mem_cons.mp hlist with h' | h'
    · exact absurd h' (by decide)
    · rcases mem_or_of_mem_intercalate h' with h' | ⟨s, hs, h'⟩
      · exact absurd h' (by decide)
      · exact (h s hs).no_newline h'
  · have hmap : items.map trimmed = items :=
      (List.map_congr_left fun s hs => (h s hs).trimmed_eq).trans (List.map_id items)
    rw [listItems_skipBlanks, listItems_trimEnd, ← List.singleton_append,
      listItems_blank_append (by decide), listItems_commaList fun s hs => (h s hs).no_comma, hmap,
      List.filter_eq_self]
    exact fun s hs => decide_eq_true (h s hs).ne_empty

/-- The finding says what advice of this form says. -/
def HasForm (f : Finding) : Advice → Prop
  | .missingValues .. => ∃ dimension values, f = .missingValues dimension values
  | .spacing .. => ∃ p first others wording, f = .spacing p first others wording
  | .literalColors _ => ∃ literals, f = .literalColors literals
  | .themeColors _ => f = .themeColors

/-- A sentence is read back by the form that wrote it. -/
theorem hasForm_of_read {a : Advice} {f : Finding} (h : read? a.text = some f) : HasForm f a := by
  have hhead := head?_trim_text a
  cases a with
  | missingValues dimension values =>
      rw [read?_missingValues hhead] at h
      obtain ⟨_, -, h⟩ := Option.bind_eq_some_iff.mp h
      obtain ⟨_, -, h⟩ := Option.bind_eq_some_iff.mp h
      obtain ⟨_, -, h⟩ := Option.bind_eq_some_iff.mp h
      exact ⟨_, _, (Option.some.inj h).symm⟩
  | spacing p pixels =>
      rw [read?_spacing hhead] at h
      obtain ⟨_, -, h⟩ := Option.bind_eq_some_iff.mp h
      obtain ⟨_, -, h⟩ := Option.bind_eq_some_iff.mp h
      obtain ⟨_, -, h⟩ := Option.bind_eq_some_iff.mp h
      obtain ⟨_, -, h⟩ := Option.bind_eq_some_iff.mp h
      split at h
      case h_1 => cases h
      case h_2 => exact ⟨_, _, _, _, (Option.some.inj h).symm⟩
  | literalColors literals =>
      rw [read?_literalColors hhead] at h
      obtain ⟨_, -, h⟩ := Option.bind_eq_some_iff.mp h
      obtain ⟨_, -, h⟩ := Option.bind_eq_some_iff.mp h
      split at h
      case h_1 => cases h
      case h_2 => exact ⟨_, (Option.some.inj h).symm⟩
  | themeColors examples =>
      rw [read?_themeColors hhead] at h
      obtain ⟨_, -, h⟩ := Option.map_eq_some_iff.mp h
      exact h.symm

/-! ## Missing values -/

/-- A sentence on missing values up to the list of values. -/
def missingFront (dimension : String) : String := "Add missing `" ++ dimension ++ "` values:"

theorem head?_missingFront (dimension : String) :
    (missingFront dimension).toList.head? = some 'A' := by
  have hopening : "Add missing `".toList.head? = some 'A' := by simp
  rw [missingFront, String.toList_append, String.toList_append, List.append_assoc,
    List.head?_append, hopening, Option.some_or]

theorem trim_text_missingValues (dimension : String) (values : List String) :
    trim (Advice.missingValues dimension values).text.toList
      = (missingFront dimension).toList ++ trimEnd (' ' :: (commaList values).toList) := by
  have htext : (Advice.missingValues dimension values).text
      = "Add missing `" ++ dimension ++ "` values: " ++ commaList values := rfl
  have hclosing : "` values: " = "` values:" ++ " " := by decide
  have hblank : " ".toList = [' '] := by decide
  have hlast : (missingFront dimension).toList.getLast? = some ':' := by
    have hvalues : "` values:".toList.getLast? = some ':' := by simp
    rw [missingFront, String.toList_append, List.getLast?_append, hvalues, Option.some_or]
  rw [htext, hclosing, ← String.append_assoc, ← missingFront, String.toList_append,
    String.toList_append, List.append_assoc, hblank, List.singleton_append]
  exact trim_append (head?_missingFront dimension) (by decide) hlast (by decide) _

theorem read?_text_missingValues (dimension : String) (values : List String) :
    read? (Advice.missingValues dimension values).text
      = missingValues? ("Add missing ".toList ++ '\x60' :: (dimension.toList
        ++ '\x60' :: (" values:".toList ++ trimEnd (' ' :: (commaList values).toList)))) := by
  have hopening : "Add missing `".toList = "Add missing ".toList ++ ['\x60'] := by decide
  have hclosing : "` values:".toList = '\x60' :: " values:".toList := by decide
  rw [read?_missingValues (head?_trim_text _), trim_text_missingValues, missingFront,
    String.toList_append, String.toList_append, hopening, hclosing]
  simp only [List.append_assoc, List.cons_append, List.nil_append]

/-- What is read of a sentence behind a name that has no back quote. -/
theorem missingValues?_eq_some_iff {name rest : List Char} {f : Finding} (hname : '\x60' ∉ name) :
    missingValues? ("Add missing ".toList ++ '\x60' :: (name ++ '\x60' :: rest)) = some f ↔
      name ≠ [] ∧ ∃ list, rest = " values:".toList ++ list ∧ '\n' ∉ skipBlanks list ∧
        f = .missingValues (String.ofList name) (listItems (skipBlanks list)) := by
  rw [List.append_cons]
  constructor
  · intro h
    obtain ⟨⟨name', rest'⟩, hnamed, h⟩ := Option.bind_eq_some_iff.mp h
    have hne : name ≠ [] := by
      rintro rfl
      rw [List.nil_append, named?_nil] at hnamed
      cases hnamed
    rw [named?_append hne hname] at hnamed
    obtain ⟨rfl, rfl⟩ := Prod.mk.inj (Option.some.inj hnamed)
    obtain ⟨list, hlist, h⟩ := Option.bind_eq_some_iff.mp h
    obtain ⟨line, hline, h⟩ := Option.bind_eq_some_iff.mp h
    obtain ⟨hnewline, rfl⟩ := oneLine?_eq_some_iff.mp hline
    exact ⟨hne, list, after_eq_some_iff.mp hlist, hnewline, (Option.some.inj h).symm⟩
  · rintro ⟨hne, list, rfl, hnewline, rfl⟩
    rw [missingValues?, named?_append hne hname]
    simp only [Option.bind_eq_bind, Option.bind_some, after_eq_some_iff.mpr rfl,
      oneLine?_of_not_mem hnewline]

/-- A sentence on missing values gives back the dimension, and each of the values that has no comma
and is not blank. Only the sentence of a dimension that has what stands behind a name in its own
name is read as one of another dimension. -/
theorem exists_of_read_missingValues {dimension : String} {values : List String} {f : Finding}
    (h : read? (Advice.missingValues dimension values).text = some f) :
    ∃ name values', f = .missingValues name values' ∧
      ((name ++ "` values:").toList <+: dimension.toList ∨ name = dimension ∧
        ∀ v ∈ values, ',' ∉ v.toList → trimmed v ≠ "" → trimmed v ∈ values') := by
  have hclosing : "` values:".toList = '\x60' :: " values:".toList := by decide
  rw [read?_text_missingValues] at h
  by_cases hmem : '\x60' ∈ dimension.toList
  · obtain ⟨name, more, hsplit, hname⟩ := List.eq_append_cons_of_mem hmem
    rw [hsplit, List.append_assoc, List.cons_append] at h
    obtain ⟨-, list, hlist, -, rfl⟩ := (missingValues?_eq_some_iff hname).mp h
    have hbehind : " values:".toList <+: more :=
      prefix_of_not_mem (c := '\x60') (by decide) ⟨list, hlist.symm⟩
    refine ⟨_, _, rfl, .inl ?_⟩
    rw [hsplit, String.toList_append, String.toList_ofList, hclosing]
    exact (List.prefix_append_right_inj _).mpr ((List.prefix_append_right_inj ['\x60']).mpr hbehind)
  · obtain ⟨-, list, hlist, -, rfl⟩ := (missingValues?_eq_some_iff hmem).mp h
    obtain rfl := List.append_cancel_left hlist
    refine ⟨_, _, rfl, .inr ⟨String.ofList_toList, fun v hv hcomma hne => ?_⟩⟩
    rw [listItems_skipBlanks, listItems_trimEnd, ← List.singleton_append,
      listItems_blank_append (by decide)]
    exact mem_listItems_commaList hcomma hne hv

/-! ## Lengths -/

theorem newline_not_mem_describeTargets (p : Property) (pixels : List Nat) :
    '\n' ∉ (describeTargets p pixels).toList := by
  intro h
  rcases mem_or_of_mem_intercalate h with h | ⟨s, hs, h⟩
  · exact absurd h (by decide)
  · obtain ⟨n, -, rfl⟩ := List.mem_map.mp hs
    simp only [String.toList_append, List.mem_append] at h
    rcases h with ((h | h) | h) | h
    · exact absurd (isDigit_of_mem_toString h) (by decide)
    · exact absurd h (by decide)
    · exact absurd (p.isTokenChar_token n _ h) (by decide)
    · exact absurd h (by decide)

theorem digitsValue_toString (n : Nat) : digitsValue (toString n).toList = n := by
  rw [Nat.toString_eq_repr, Nat.repr_eq_ofList_toDigits, String.toList_ofList]
  exact Nat.ofDigitChars_ten_toDigits

theorem tightLength_eq_some_iff {before : Option Char} {rest : List Char} {n : Nat} :
    tightLength before rest = some n ↔ ∃ ds b, rest = ds ++ 'p' :: 'x' :: b ∧ ds ≠ [] ∧
      (∀ c ∈ ds, c.isDigit = true) ∧ n = ds.length + 2 := by
  constructor
  · intro h
    rw [tightLength] at h
    split at h
    case h_2 => cases h
    case h_1 hempty hdrop =>
      have hrest := List.prefix_iff_eq_append.mp (List.takeWhile_prefix Char.isDigit (l := rest))
      rw [hdrop] at hrest
      exact ⟨_, _, hrest.symm, by simpa using hempty, fun c hc => List.mem_takeWhile_imp hc,
        (Option.some.inj h).symm⟩
  · rintro ⟨ds, b, rfl, hne, hdigits, rfl⟩
    have htake : (ds ++ 'p' :: 'x' :: b).takeWhile Char.isDigit = ds := by
      rw [takeWhile_append_stop (by decide), List.takeWhile_eq_self_iff.mpr hdigits]
    have hempty : ds.isEmpty = false := by simpa using hne
    rw [tightLength]
    simp only [htake, hempty, List.drop_left]

/-- A length as it is read: the digits of a number that is not too great, and the unit. -/
theorem tightLength_toString (n : Nat) (before : Option Char) (rest : List Char) :
    tightLength before ((toString n).toList ++ 'p' :: 'x' :: rest)
      = some ((toString n).toList.length + 2) :=
  tightLength_eq_some_iff.mpr
    ⟨_, rest, rfl, by simp, fun _ hc => isDigit_of_mem_toString hc, rfl⟩

theorem leadingNumber?_toString {n : Nat} (hn : n ≤ maxPixels) (rest : List Char) :
    leadingNumber? ((toString n).toList ++ 'p' :: rest) = some n := by
  rw [leadingNumber?, takeWhile_append_stop (by decide), List.takeWhile_eq_self_iff.mpr fun c hc =>
    isDigit_of_mem_toString hc, digitsValue_toString]
  exact if_pos hn

theorem of_length (w : List Char) (n : Nat) (rest : List Char) :
    Span.of ⟨w.length, (toString n).toList.length + 2⟩
        (w ++ ((toString n).toList ++ 'p' :: 'x' :: rest))
      = (toString n).toList ++ 'p' :: ['x'] := by
  rw [Span.of, List.drop_left, List.take_length_add_append]
  rfl

/-- A text that starts with a length gives that length first. -/
theorem exists_lengths {n : Nat} (hn : n ≤ maxPixels) (rest : List Char) :
    ∃ others, lengths ((toString n).toList ++ 'p' :: 'x' :: rest) = n :: others := by
  have hlength := tightLength_toString n none rest
  have hof := of_length [] n rest
  obtain ⟨later, hlater⟩ : ∃ later, tightLength.spans ((toString n).toList ++ 'p' :: 'x' :: rest)
      = ⟨0, (toString n).toList.length + 2⟩ :: later := by
    obtain ⟨c, cs, hcs⟩ := List.exists_cons_of_ne_nil (l := (toString n).toList) (by simp)
    rw [Pattern.spans]
    rw [hcs, List.cons_append] at hlength ⊢
    rw [Pattern.spansFrom, hlength]
    exact ⟨_, rfl⟩
  rw [List.nil_append] at hof
  rw [lengths, hlater, List.filterMap_cons, ← List.length_nil, hof, leadingNumber?_toString hn]
  exact ⟨_, rfl⟩

/-- A length behind a space is one of the lengths of a text. -/
theorem mem_lengths {n : Nat} (hn : n ≤ maxPixels) (w rest : List Char) :
    n ∈ lengths (w ++ ' ' :: ((toString n).toList ++ 'p' :: 'x' :: rest)) := by
  have hbounded : tightLength.Bounded := by
    intro before rest k h
    obtain ⟨ds, b, rfl, -, -, rfl⟩ := tightLength_eq_some_iff.mp h
    simp
  have hspace : ∀ before rest k, tightLength before rest = some k → ' ' ∉ rest.take k := by
    intro before rest k h
    obtain ⟨ds, b, rfl, -, hdigits, rfl⟩ := tightLength_eq_some_iff.mp h
    rw [List.take_length_add_append, List.mem_append]
    rintro (hmem | hmem)
    · exact absurd (hdigits _ hmem) (by decide)
    · exact absurd hmem (by simp)
  have hspan : (⟨0 + (w.length + 1), (toString n).toList.length + 2⟩ : Span)
      ∈ tightLength.spansFrom none 0 0 (w ++ ' ' :: ((toString n).toList ++ 'p' :: 'x' :: rest)) :=
    Pattern.mem_spansFrom_behind hbounded hspace (tightLength_toString n _ rest) (Nat.zero_le _)
  have hof := of_length (w ++ [' ']) n rest
  rw [List.append_assoc, List.singleton_append, List.length_append, List.length_singleton] at hof
  rw [Nat.zero_add] at hspan
  exact List.mem_filterMap.mpr ⟨_, hspan, by rw [hof]; exact leadingNumber?_toString hn _⟩

theorem ofLooseName?_name (p : Property) : Property.ofLooseName? p.name = some p := by
  cases p <;> decide

/-- One of the lengths of a sentence with its token. -/
def target (p : Property) (n : Nat) : String := toString n ++ "px (" ++ p.token n ++ ")"

theorem describeTargets_eq (p : Property) (pixels : List Nat) :
    describeTargets p pixels = " or ".intercalate (pixels.map (target p)) := rfl

theorem toList_target (p : Property) (n : Nat) :
    (target p n).toList
      = (toString n).toList ++ 'p' :: 'x' :: (' ' :: '(' :: ((p.token n).toList ++ [')'])) := by
  have hunit : "px (".toList = ['p', 'x', ' ', '('] := by decide
  have hclosing : ")".toList = [')'] := by decide
  rw [target, String.toList_append, String.toList_append, String.toList_append, hunit, hclosing]
  simp

theorem getLast?_describeTargets (p : Property) {pixels : List Nat} (hne : pixels ≠ []) :
    (describeTargets p pixels).toList.getLast? = some ')' := by
  have htargets : pixels.map (target p) ≠ [] := by simpa using hne
  obtain ⟨s, hs, w, hw⟩ := exists_intercalate_last " or " htargets
  obtain ⟨n, -, rfl⟩ := List.mem_map.mp hs
  have hclosing : (target p n).toList.getLast? = some ')' := by
    rw [target, String.toList_append, List.getLast?_append]
    rfl
  rw [← describeTargets_eq] at hw
  rw [hw, List.getLast?_append, hclosing, Option.some_or]

/-- A sentence gives its first length first, and all of its lengths somewhere. -/
theorem exists_lengths_describeTargets (p : Property) {n : Nat} {pixels : List Nat}
    (hmax : ∀ m ∈ n :: pixels, m ≤ maxPixels) :
    ∃ others, lengths (describeTargets p (n :: pixels)).toList = n :: others ∧
      ∀ m ∈ n :: pixels, m ∈ n :: others := by
  obtain ⟨hn, hpixels⟩ := List.forall_mem_cons.mp hmax
  obtain ⟨others, hothers⟩ : ∃ others,
      lengths (describeTargets p (n :: pixels)).toList = n :: others := by
    obtain ⟨more, hmore⟩ := exists_intercalate_cons " or " (target p n) (pixels.map (target p))
    rw [describeTargets_eq, List.map_cons, hmore, toList_target, List.append_assoc]
    exact exists_lengths hn _
  refine ⟨others, hothers, fun m hm => ?_⟩
  rw [← hothers]
  rcases List.mem_cons.mp hm with rfl | hm
  · rw [hothers]
    exact List.mem_cons_self ..
  · have hor : " or ".toList = " or".toList ++ [' '] := by decide
    obtain ⟨w, more, hmore⟩ := exists_intercalate_mem " or " (t := target p n)
      (List.mem_map_of_mem (f := target p) hm)
    rw [describeTargets_eq, List.map_cons, hmore, toList_target, hor, ← List.append_assoc w,
      List.append_assoc _ [' '], List.singleton_append, List.append_assoc (toString m).toList]
    exact mem_lengths (hpixels m hm) _ _

/-- A sentence on lengths gives back the property, the first of its lengths and all the others. -/
theorem exists_read_spacing (p : Property) {n : Nat} {pixels : List Nat}
    (hmax : ∀ m ∈ n :: pixels, m ≤ maxPixels) :
    ∃ others, read? (Advice.spacing p (n :: pixels)).text
        = some (.spacing p n others (describeTargets p (n :: pixels))) ∧
      ∀ m ∈ n :: pixels, m ∈ n :: others := by
  have hhead : (Advice.spacing p (n :: pixels)).text.toList.head? = some 'S' :=
    head?_text (.spacing p (n :: pixels))
  have hopening : "Set `".toList = "Set ".toList ++ ['\x60'] := by decide
  have hclosing : "` to ".toList = '\x60' :: " to ".toList := by decide
  have hsentence : (Advice.spacing p (n :: pixels)).text
      = "Set `" ++ p.name ++ "` to " ++ describeTargets p (n :: pixels) := rfl
  have htext : (Advice.spacing p (n :: pixels)).text.toList
      = "Set ".toList ++ ['\x60'] ++ (p.name.toList ++ '\x60' :: (" to ".toList
        ++ (describeTargets p (n :: pixels)).toList)) := by
    rw [hsentence, String.toList_append, String.toList_append, String.toList_append, hopening,
      hclosing]
    simp only [List.append_assoc, List.cons_append]
  have hlast : (Advice.spacing p (n :: pixels)).text.toList.getLast? = some ')' := by
    rw [hsentence, String.toList_append, List.getLast?_append,
      getLast?_describeTargets p (List.cons_ne_nil _ _), Option.some_or]
  have htrim := trim_of_ends hhead (by decide) hlast (by decide)
  have hname : p.name.toList ≠ [] ∧ '\x60' ∉ p.name.toList := by
    cases p <;> decide
  obtain ⟨others, hothers, hmem⟩ := exists_lengths_describeTargets p hmax
  refine ⟨others, ?_, hmem⟩
  rw [read?_spacing (head?_trim_text (.spacing p (n :: pixels))), htrim, htext, spacing?,
    named?_append hname.1 hname.2]
  simp only [Option.bind_eq_bind, Option.bind_some, after_eq_some_iff.mpr rfl,
    oneLine?_of_not_mem (newline_not_mem_describeTargets p _), ofLooseName?_name, hothers,
    String.ofList_toList]

/-! ## Colors -/

theorem trim_text_themeColors (examples : List String) :
    ∃ more, trim (Advice.themeColors examples).text.toList
      = "Use theme color tokens".toList ++ more := by
  have htext : (Advice.themeColors examples).text = "Use theme color tokens (e.g. "
      ++ commaList examples ++ ") instead of literal colors" := rfl
  have hopening : "Use theme color tokens (e.g. " = "Use theme color tokens" ++ " (e.g. " := by
    decide
  have hhead : "Use theme color tokens".toList.head? = some 'U' := by simp
  have hlast : "Use theme color tokens".toList.getLast? = some 's' := by simp
  rw [htext, hopening, String.append_assoc, String.append_assoc, String.toList_append]
  exact ⟨_, trim_append hhead (by decide) hlast (by decide) _⟩

theorem read?_text_themeColors (examples : List String) :
    read? (Advice.themeColors examples).text = some .themeColors := by
  obtain ⟨more, htrim⟩ := trim_text_themeColors examples
  rw [read?_themeColors (head?_trim_text (.themeColors examples)), htrim, themeColors?,
    after_eq_some_iff.mpr rfl, Option.map_some]

/-- A sentence on colors up to the list of colors. -/
def literalFront : String := "Replace hardcoded colors with theme tokens:"

theorem head?_literalFront : literalFront.toList.head? = some 'R' := by
  rw [literalFront]
  simp

theorem trim_text_literalColors (literals : List String) :
    trim (Advice.literalColors literals).text.toList
      = literalFront.toList ++ trimEnd (' ' :: (commaList literals).toList) := by
  have htext : (Advice.literalColors literals).text
      = "Replace hardcoded colors with theme tokens: " ++ commaList literals := rfl
  have hopening : "Replace hardcoded colors with theme tokens: " = literalFront ++ " " := by
    decide
  have hblank : " ".toList = [' '] := by decide
  have hlast : literalFront.toList.getLast? = some ':' := by
    rw [literalFront]
    simp
  rw [htext, hopening, String.toList_append, String.toList_append, List.append_assoc, hblank,
    List.singleton_append]
  exact trim_append head?_literalFront (by decide) hlast (by decide) _

/-- A sentence on colors gives back the colors, which have no white space and no comma. -/
theorem read?_text_literalColors {literals : List String} (hne : literals ≠ [])
    (h : ∀ l ∈ literals, l ≠ "" ∧ ∀ c ∈ l.toList, isWhiteSpace c = false ∧ c ≠ ',') :
    read? (Advice.literalColors literals).text = some (.literalColors literals) := by
  have htrim := trim_text_literalColors literals
  have hhead := head?_trim_text (.literalColors literals)
  have hitems : ∀ l ∈ literals, IsItem l := by
    intro l hl
    obtain ⟨hl, hchars⟩ := h l hl
    refine ⟨hl, ?_, fun hcomma => (hchars _ hcomma).2 rfl, fun hnewline => ?_⟩
    · rw [trimmed, trim_of_forall_not fun c hc => (hchars c hc).1, String.ofList_toList]
    · exact absurd (hchars _ hnewline).1 (by decide)
  obtain ⟨hline, hlist⟩ := listItems_of_isItem hitems
  obtain ⟨l, ls, rfl⟩ := List.exists_cons_of_ne_nil hne
  rw [read?_literalColors hhead, htrim, literalColors?]
  have hafter : after? "Replace hardcoded colors with theme tokens:".toList (literalFront.toList
      ++ trimEnd (' ' :: (commaList (l :: ls)).toList))
        = some (trimEnd (' ' :: (commaList (l :: ls)).toList)) := after_eq_some_iff.mpr rfl
  simp only [Option.bind_eq_bind, Option.bind_some, hafter, oneLine?_of_not_mem hline, hlist]

end Finding

end DesignTokens
