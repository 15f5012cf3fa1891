import DesignTokens.Proofs.Json.Escapes
import DesignTokens.Proofs.Response.Search
import DesignTokens.Proofs.Text.Lines
import DesignTokens.Response.Repair

/-!
# Repairs of a compact text

A compact text has no defects outside its strings, so all that a repair can
change in it are the strings. Curly quotation marks aside, these lose the commas
that only spaces part from a closing bracket (`tidy`), because the search for
trailing commas does not respect strings (`joins_tidied`). The search for
comments does, and finds none (`joins_uncommented`).
-/

namespace DesignTokens.Response

open Json Text

/-! ## Strings that lose commas -/

/-- Whether the next character that is no space closes a list or an object. -/
def closesBehindSpaces (cs : List Char) : Bool :=
  match cs.dropWhile (· = ' ') with
  | c :: _ => c = '\x7d' || c = ']'
  | [] => false

/-- The text without the commas that only spaces part from a closing bracket. -/
def tidyChars : List Char → List Char
  | [] => []
  | c :: cs => if c = ',' && closesBehindSpaces cs then tidyChars cs else c :: tidyChars cs

def tidy (s : String) : String := String.ofList (tidyChars s.toList)

theorem tidyChars_of_ne {c : Char} (h : c ≠ ',') (cs : List Char) :
    tidyChars (c :: cs) = c :: tidyChars cs := by
  simp [tidyChars, h]

theorem tidyChars_comma (cs : List Char) :
    tidyChars (',' :: cs)
      = if closesBehindSpaces cs then tidyChars cs else ',' :: tidyChars cs := by
  simp [tidyChars]

theorem tidy_eq_self_iff {s : String} : tidy s = s ↔ tidyChars s.toList = s.toList := by
  rw [tidy, ← String.toList_inj, String.toList_ofList]

theorem count_tidyChars_le (cs : List Char) : (tidyChars cs).count ',' ≤ cs.count ',' := by
  induction cs with
  | nil => exact le_rfl
  | cons c cs ih =>
      by_cases hc : c = ','
      · subst hc
        rw [tidyChars_comma, List.count_cons_self]
        split
        · omega
        · rw [List.count_cons_self]
          omega
      · rw [tidyChars_of_ne hc, List.count_cons_of_ne hc, List.count_cons_of_ne hc]
        exact ih

/-- A text that keeps all its commas is left as it is. -/
theorem tidyChars_eq_self_of_count {cs : List Char}
    (h : (tidyChars cs).count ',' = cs.count ',') : tidyChars cs = cs := by
  induction cs with
  | nil => rfl
  | cons c cs ih =>
      have hle := count_tidyChars_le cs
      by_cases hc : c = ','
      · subst hc
        rw [tidyChars_comma] at h ⊢
        split at h
        case isTrue =>
          rw [List.count_cons_self] at h
          omega
        case isFalse hopen =>
          rw [List.count_cons_self, List.count_cons_self] at h
          rw [if_neg hopen, ih (by omega)]
      · rw [tidyChars_of_ne hc, List.count_cons_of_ne hc, List.count_cons_of_ne hc] at h
        rw [tidyChars_of_ne hc, ih h]

theorem eq_self_of_tidyChars_cons {c : Char} {cs : List Char}
    (h : tidyChars (c :: cs) = c :: cs) :
    tidyChars cs = cs ∧ (c = ',' → closesBehindSpaces cs = false) := by
  by_cases hc : c = ','
  · subst hc
    rw [tidyChars_comma] at h
    split at h
    case isTrue =>
      have hle := count_tidyChars_le cs
      rw [h, List.count_cons_self] at hle
      omega
    case isFalse hopen => exact ⟨(List.cons.inj h).2, fun _ => by simpa using hopen⟩
  · rw [tidyChars_of_ne hc] at h
    exact ⟨(List.cons.inj h).2, fun heq => absurd heq hc⟩

theorem closesBehindSpaces_append {spaces : List Char} (hspaces : ∀ d ∈ spaces, d = ' ') {c : Char}
    (hc : c = '\x7d' ∨ c = ']') (behind : List Char) :
    closesBehindSpaces (spaces ++ c :: behind) = true := by
  induction spaces with
  | nil => rcases hc with rfl | rfl <;> rfl
  | cons d spaces ih =>
      obtain ⟨rfl, hrest⟩ := List.forall_mem_cons.mp hspaces
      exact ih hrest

theorem exists_of_closesBehindSpaces {cs : List Char} (h : closesBehindSpaces cs = true) :
    ∃ spaces c behind, cs = spaces ++ c :: behind ∧ (∀ d ∈ spaces, d = ' ') ∧
      (c = '\x7d' ∨ c = ']') := by
  unfold closesBehindSpaces at h
  split at h
  case h_1 c behind hdrop =>
    refine ⟨cs.takeWhile (· = ' '), c, behind, ?_, fun d hd => ?_, by simpa using h⟩
    · rw [← hdrop, List.takeWhile_append_dropWhile]
    · simpa using List.mem_takeWhile_imp hd
  case h_2 => cases h

/-- A bracket stays behind wherever a comma is lost, so only blank texts become blank. -/
theorem isBlankText_tidy (s : String) : isBlankText (tidy s) = isBlankText s := by
  have hall : ∀ cs : List Char, (tidyChars cs).all isWhiteSpace = cs.all isWhiteSpace := by
    intro cs
    induction cs with
    | nil => rfl
    | cons c cs ih =>
        by_cases hc : c = ','
        · subst hc
          rw [tidyChars_comma]
          split
          case isTrue hcloses =>
            obtain ⟨spaces, c, rest, rfl, -, hc⟩ := exists_of_closesBehindSpaces hcloses
            have hbracket : isWhiteSpace c = false := by rcases hc with rfl | rfl <;> decide
            rw [ih]
            simp [hbracket]
          case isFalse => rfl
        · rw [tidyChars_of_ne hc, List.all_cons, List.all_cons, ih]
  rw [isBlankText, tidy, String.toList_ofList, hall]
  rfl

theorem tidyChars_eq_self_iff {cs : List Char} :
    tidyChars cs = cs ↔ ∀ before behind, cs = before ++ ',' :: behind →
      closesBehindSpaces behind = false := by
  induction cs with
  | nil => simp [tidyChars]
  | cons c cs ih =>
      constructor
      · intro h before behind hcs
        obtain ⟨hrest, hcomma⟩ := eq_self_of_tidyChars_cons h
        cases before with
        | nil =>
            obtain ⟨rfl, rfl⟩ := List.cons.inj hcs
            exact hcomma rfl
        | cons d before =>
            obtain ⟨-, hcs⟩ := List.cons.inj hcs
            exact ih.mp hrest before behind hcs
      · intro h
        have hrest : tidyChars cs = cs :=
          ih.mpr fun before behind hcs => h (c :: before) behind (by rw [hcs]; rfl)
        by_cases hc : c = ','
        · subst hc
          rw [tidyChars_comma, h [] cs rfl, hrest]
          rfl
        · rw [tidyChars_of_ne hc, hrest]

/-! ## Sound strings -/

/-- The repairs find nothing in the string: no curly quotation mark, and no comma that only spaces
part from a closing bracket. -/
structure Sound (s : String) : Prop where
  marks : ∀ c ∈ s.toList, c ∉ ['\u201c', '\u201d', '\u2018', '\u2019']
  commas : ∀ before spaces c behind, s.toList = before ++ ',' :: (spaces ++ c :: behind) →
    (∀ d ∈ spaces, d = ' ') → c ≠ '\x7d' ∧ c ≠ ']'

theorem straight_eq_self_iff {c : Char} :
    straight c = c ↔ c ∉ ['\u201c', '\u201d', '\u2018', '\u2019'] := by
  constructor
  · intro h hmem
    have hcurly : ∀ c ∈ ['\u201c', '\u201d', '\u2018', '\u2019'], straight c ≠ c := by decide
    exact hcurly c hmem h
  · intro h
    simp only [List.mem_cons, List.not_mem_nil, or_false, not_or] at h
    simp [straight, h]

theorem sound_iff {s : String} : Sound s ↔ (∀ c ∈ s.toList, straight c = c) ∧ tidy s = s := by
  rw [tidy_eq_self_iff, tidyChars_eq_self_iff]
  constructor
  · intro h
    refine ⟨fun c hc => straight_eq_self_iff.mpr (h.marks c hc), fun before behind hs => ?_⟩
    by_contra hcloses
    rw [Bool.not_eq_false] at hcloses
    obtain ⟨spaces, c, rest, rfl, hspaces, hc⟩ := exists_of_closesBehindSpaces hcloses
    have hne := h.commas before spaces c rest hs hspaces
    exact hc.elim hne.1 hne.2
  · rintro ⟨hmarks, hcommas⟩
    refine ⟨fun c hc => straight_eq_self_iff.mp (hmarks c hc), ?_⟩
    intro before spaces c rest hs hspaces
    have hopen := hcommas before _ hs
    refine ⟨?_, ?_⟩ <;> rintro rfl
    · rw [closesBehindSpaces_append hspaces (.inl rfl)] at hopen
      cases hopen
    · rw [closesBehindSpaces_append hspaces (.inr rfl)] at hopen
      cases hopen

/-! ## Trailing commas -/

theorem closesNext_blank {c : Char} (h : isBlank c = true) (cs : List Char) :
    closesNext (c :: cs) = closesNext cs := by
  unfold closesNext skipBlanks
  rw [List.dropWhile_cons_of_pos h]

theorem closesNext_of_not_blank {c : Char} (h : isBlank c = false) (cs : List Char) :
    closesNext (c :: cs) = (c = '\x7d' || c = ']') := by
  unfold closesNext skipBlanks
  rw [List.dropWhile_cons_of_neg (by simp [h])]

/-- Neither a blank nor a closing bracket. -/
structure Solid (c : Char) : Prop where
  blank : isBlank c = false
  close : c ≠ '\x7d' ∧ c ≠ ']'

theorem Solid.closesNext {c : Char} (h : Solid c) (cs : List Char) :
    closesNext (c :: cs) = false := by
  rw [closesNext_of_not_blank h.blank]
  simp [h.close]

theorem closesNext_append {w : List Char} (hw : closesNext w = false) (a : List Char) :
    closesNext (a ++ w) = closesNext a := by
  induction a with
  | nil => exact hw
  | cons c a ih =>
      rw [List.cons_append]
      cases hc : isBlank c with
      | true => rw [closesNext_blank hc, closesNext_blank hc, ih]
      | false => rw [closesNext_of_not_blank hc, closesNext_of_not_blank hc]

theorem dropTrailingCommas_of_ne {c : Char} (h : c ≠ ',') (cs : List Char) :
    dropTrailingCommas (c :: cs) = c :: dropTrailingCommas cs := by
  simp [dropTrailingCommas, h]

theorem dropTrailingCommas_comma (cs : List Char) :
    dropTrailingCommas (',' :: cs)
      = if closesNext cs then dropTrailingCommas cs else ',' :: dropTrailingCommas cs := by
  simp [dropTrailingCommas]

/-- Where no comma is dropped for what stands behind it, the text may be cut. -/
theorem dropTrailingCommas_append {w : List Char} (hw : closesNext w = false) (a : List Char) :
    dropTrailingCommas (a ++ w) = dropTrailingCommas a ++ dropTrailingCommas w := by
  induction a with
  | nil => rfl
  | cons c a ih =>
      by_cases hc : c = ','
      · subst hc
        rw [List.cons_append, dropTrailingCommas_comma, dropTrailingCommas_comma,
          closesNext_append hw, ih]
        split <;> rfl
      · rw [List.cons_append, dropTrailingCommas_of_ne hc, dropTrailingCommas_of_ne hc, ih]
        rfl

theorem dropTrailingCommas_newline (cs : List Char) :
    dropTrailingCommas (cs ++ ['\n']) = dropTrailingCommas cs ++ ['\n'] := by
  rw [dropTrailingCommas_append (by decide)]
  rfl

theorem dropTrailingCommas_of_forall {w : List Char} (h : ∀ c ∈ w, c ≠ ',') (more : List Char) :
    dropTrailingCommas (w ++ more) = w ++ dropTrailingCommas more := by
  induction w with
  | nil => rfl
  | cons c w ih =>
      rw [List.cons_append, dropTrailingCommas_of_ne (h c (List.mem_cons_self ..)),
        ih fun d hd => h d (List.mem_cons_of_mem c hd)]
      rfl

theorem not_isBlank_of_plain {c : Char} (hc : needsEscape c = false) (hspace : c ≠ ' ') :
    isBlank c = false := by
  by_contra hblank
  simp only [isBlank, Bool.not_eq_false, Bool.or_eq_true, decide_eq_true_eq] at hblank
  rcases hblank with ((((rfl | rfl) | rfl) | rfl) | rfl) | rfl
  · exact hspace rfl
  all_goals exact absurd hc (by decide)

theorem closesNext_flatMap (cs more : List Char) :
    closesNext (cs.flatMap escaped ++ '"' :: more) = closesBehindSpaces cs := by
  induction cs with
  | nil => rfl
  | cons c cs ih =>
      rw [List.flatMap_cons, List.append_assoc]
      by_cases hspace : c = ' '
      · subst hspace
        rw [escaped_plain (by decide), List.singleton_append, closesNext_blank (by decide), ih]
        rfl
      · have hstop : closesBehindSpaces (c :: cs) = (c = '\x7d' || c = ']') := by
          unfold closesBehindSpaces
          rw [List.dropWhile_cons_of_neg (by simp [hspace])]
        rw [hstop]
        cases hc : needsEscape c with
        | false =>
            rw [escaped_plain hc, List.singleton_append,
              closesNext_of_not_blank (not_isBlank_of_plain hc hspace)]
        | true =>
            obtain ⟨es, hes, -⟩ := exists_escaped hc
            rw [hes, List.cons_append, closesNext_of_not_blank (by decide)]
            have hbrace : c ≠ '\x7d' := by
              rintro rfl
              cases hc
            have hbracket : c ≠ ']' := by
              rintro rfl
              cases hc
            simp [hbrace, hbracket]

theorem dropTrailingCommas_flatMap (cs more : List Char) :
    dropTrailingCommas (cs.flatMap escaped ++ '"' :: more)
      = (tidyChars cs).flatMap escaped ++ '"' :: dropTrailingCommas more := by
  induction cs with
  | nil => exact dropTrailingCommas_of_ne (by decide) more
  | cons c cs ih =>
      rw [List.flatMap_cons, List.append_assoc]
      by_cases hc : c = ','
      · subst hc
        rw [escaped_plain (by decide), List.singleton_append, dropTrailingCommas_comma,
          closesNext_flatMap, tidyChars_comma, ih]
        split
        · rfl
        · rw [List.flatMap_cons, escaped_plain (by decide)]
          rfl
      · have hcomma : ∀ d ∈ escaped c, d ≠ ',' := by
          rintro d hd rfl
          rcases mem_escaped hd with ⟨heq, -⟩ | ⟨hescape, -⟩
          · exact hc heq.symm
          · exact absurd hescape (by decide)
        rw [dropTrailingCommas_of_forall hcomma, tidyChars_of_ne hc, ih, List.flatMap_cons,
          List.append_assoc]

theorem dropTrailingCommas_quoted (s : String) (more : List Char) :
    dropTrailingCommas (quoted s ++ more) = quoted (tidy s) ++ dropTrailingCommas more := by
  have hopen : ∀ (s : String) (rest : List Char),
      quoted s ++ rest = '"' :: (s.toList.flatMap escaped ++ '"' :: rest) := by
    intro s rest
    simp [quoted]
  rw [hopen, hopen, dropTrailingCommas_of_ne (by decide), dropTrailingCommas_flatMap, tidy,
    String.toList_ofList]

/-! ### Compact texts -/

/-- Dropping commas turns the one text into the other, whatever stands behind, and does not drop a
comma in front of it. -/
structure Tidied (a b : List Char) : Prop where
  solid : ∃ x rest, a = x :: rest ∧ Solid x
  drop : ∀ more, dropTrailingCommas (a ++ more) = b ++ dropTrailingCommas more

theorem Tidied.enclosed {a b : List Char} {x y : Char} (hx : Solid x) (hcomma : x ≠ ',' ∧ y ≠ ',')
    (h : ∀ more, dropTrailingCommas (a ++ more) = b ++ dropTrailingCommas more) :
    Tidied (x :: a ++ [y]) (x :: b ++ [y]) where
  solid := ⟨x, a ++ [y], rfl, hx⟩
  drop := by
    intro more
    rw [List.append_assoc, List.cons_append, dropTrailingCommas_of_ne hcomma.1, h,
      List.singleton_append, dropTrailingCommas_of_ne hcomma.2]
    simp

theorem tidied_of_forall {x : Char} {rest : List Char} (hx : Solid x)
    (h : ∀ c ∈ x :: rest, c ≠ ',') : Tidied (x :: rest) (x :: rest) :=
  ⟨⟨x, rest, rfl, hx⟩, dropTrailingCommas_of_forall h⟩

theorem solid_of_isDigit {c : Char} (h : c.isDigit = true) : Solid c where
  blank := isBlank_of_isIdent (isIdent_of_isDigit h)
  close := by
    refine ⟨?_, ?_⟩ <;> rintro rfl <;> cases h

theorem joins_tidied (P : String → Prop) : Joins P tidy Tidied where
  word := fun w hw => by
    simp only [wordLexemes, List.mem_cons, List.not_mem_nil, or_false] at hw
    rcases hw with rfl | rfl | rfl <;>
      exact tidied_of_forall ⟨by decide, by decide⟩ (by decide)
  number := fun n => by
    have hdigit : ∀ c ∈ JsonNumber.text (.ofNat n), c.isDigit = true :=
      fun c hc => isDigit_of_mem_text hc
    have hne : JsonNumber.text (.ofNat n) ≠ [] := by
      rw [text_ofNat]
      exact Nat.toDigits_ne_nil
    obtain ⟨x, rest, htext⟩ := List.exists_cons_of_ne_nil hne
    rw [htext] at hdigit ⊢
    refine tidied_of_forall (solid_of_isDigit (hdigit x (List.mem_cons_self ..))) fun c hc => ?_
    rintro rfl
    exact absurd (hdigit _ hc) (by decide)
  string := fun s _ => ⟨⟨_, _, rfl, by decide, by decide⟩, dropTrailingCommas_quoted s⟩
  emptyArray := tidied_of_forall ⟨by decide, by decide⟩ (by decide)
  emptyObject := tidied_of_forall ⟨by decide, by decide⟩ (by decide)
  array := fun h => .enclosed ⟨by decide, by decide⟩ (by decide) h.drop
  object := fun h => .enclosed ⟨by decide, by decide⟩ (by decide) h.drop
  member := fun {s a b} _ h => by
    refine ⟨⟨_, _, rfl, by decide, by decide⟩, fun more => ?_⟩
    rw [List.append_assoc, dropTrailingCommas_quoted, List.cons_append,
      dropTrailingCommas_of_ne (by decide), h.drop]
    simp
  comma := fun {a b a' b'} h h' => by
    obtain ⟨x, rest, rfl, hx⟩ := h.solid
    obtain ⟨y, rest', rfl, hy⟩ := h'.solid
    refine ⟨⟨x, _, rfl, hx⟩, fun more => ?_⟩
    have hkept : dropTrailingCommas (',' :: (y :: rest' ++ more))
        = ',' :: dropTrailingCommas (y :: rest' ++ more) := by
      rw [dropTrailingCommas_comma, List.cons_append, hy.closesNext]
      rfl
    rw [List.append_assoc, h.drop, List.cons_append, hkept, h'.drop]
    simp

/-! ## Comments -/

theorem dropComment_cons (q : Quoting) (c : Char) (cs : List Char) :
    dropComment q (c :: cs)
      = if q = .outside ∧ c = '/' ∧ cs.head? = some '/' then []
        else c :: dropComment (q.behind c) cs := by
  split
  case isTrue h =>
    obtain ⟨rfl, rfl, hhead⟩ := h
    cases cs with
    | nil => cases hhead
    | cons d cs =>
        obtain rfl := Option.some.inj hhead
        rfl
  case isFalse h =>
    rw [dropComment]
    rintro more rfl rfl rfl
    exact h ⟨rfl, rfl, rfl⟩

theorem dropComment_of_ne {c : Char} (h : c ≠ '/') (q : Quoting) (cs : List Char) :
    dropComment q (c :: cs) = c :: dropComment (q.behind c) cs := by
  rw [dropComment_cons, if_neg fun hc => h hc.2.1]

theorem dropComment_of_quoting {q : Quoting} (h : q ≠ .outside) (c : Char) (cs : List Char) :
    dropComment q (c :: cs) = c :: dropComment (q.behind c) cs := by
  rw [dropComment_cons, if_neg fun hc => h hc.1]

theorem dropComment_of_staysInside {more : List Char} :
    ∀ {w : List Char} {q : Quoting}, StaysInside q w →
      dropComment q (w ++ more) = w ++ dropComment .inside more
  | [], _, h => by
      obtain rfl := h
      rfl
  | c :: w, q, h => by
      rw [List.cons_append, dropComment_of_quoting h.1, dropComment_of_staysInside h.2]
      rfl

/-- A search for comments passes over the text. -/
def Uncommented (w : List Char) : Prop :=
  ∀ more, dropComment .outside (w ++ more) = w ++ dropComment .outside more

theorem Uncommented.append {w v : List Char} (hw : Uncommented w) (hv : Uncommented v) :
    Uncommented (w ++ v) := by
  intro more
  rw [List.append_assoc, hw, hv, List.append_assoc]

theorem Uncommented.eq_self {w : List Char} (h : Uncommented w) : dropComment .outside w = w := by
  have := h []
  rwa [List.append_nil, dropComment, List.append_nil] at this

/-- A text without comment has none when it is cut. -/
theorem dropComment_left {more : List Char} : ∀ {w : List Char} {q : Quoting},
    dropComment q (w ++ more) = w ++ more → dropComment q w = w
  | [], _, _ => rfl
  | c :: w, q, h => by
      rw [List.cons_append, dropComment_cons] at h
      split at h
      case isTrue => cases h
      case isFalse hnone =>
        have ih := dropComment_left (List.cons.inj h).2
        rw [dropComment_cons, if_neg, ih]
        rintro ⟨hq, hc, hhead⟩
        exact hnone ⟨hq, hc, by rw [List.head?_append, hhead, Option.some_or]⟩

theorem uncommented_of_forall : ∀ {w : List Char}, (∀ c ∈ w, c ≠ '/' ∧ c ≠ '"') → Uncommented w
  | [], _ => fun _ => rfl
  | c :: w, h => by
      obtain ⟨hc, hw⟩ := List.forall_mem_cons.mp h
      intro more
      rw [List.cons_append, dropComment_of_ne hc.1, behind_outside hc.2, uncommented_of_forall hw]
      rfl

theorem uncommented_quoted (s : String) : Uncommented (quoted s) := by
  intro more
  have htext : quoted s ++ more = '"' :: (s.toList.flatMap escaped ++ '"' :: more) := by
    simp [quoted]
  have hclose : dropComment .inside ('"' :: more) = '"' :: dropComment .outside more :=
    dropComment_of_quoting (by decide) '"' more
  rw [htext, dropComment_of_ne (by decide), Quoting.behind,
    dropComment_of_staysInside (staysInside_flatMap _), hclose]
  simp [quoted]

theorem joins_uncommented (P : String → Prop) : Joins P id fun w _ => Uncommented w :=
  joins_of_append Uncommented.append
    (fun h => uncommented_of_forall fun c hc =>
      ⟨(h c hc).ne (by decide), (h c hc).ne (by decide)⟩)
    (fun s _ => uncommented_quoted s)
    fun h => ((uncommented_of_forall (w := ['\x7b']) (by decide)).append h).append
      (uncommented_of_forall (by decide))

/-! ## Whole texts -/

/-- The text has no line end. -/
def OneLine (w : List Char) : Prop := '\n' ∉ w ∧ '\r' ∉ w

theorem OneLine.append {w v : List Char} (hw : OneLine w) (hv : OneLine v) : OneLine (w ++ v) := by
  simp only [OneLine, List.mem_append, not_or]
  exact ⟨⟨hw.1, hv.1⟩, ⟨hw.2, hv.2⟩⟩

theorem oneLine_quoted (s : String) : OneLine (quoted s) := by
  have hend : ∀ d, needsEscape d = true → d ∉ escapeChars → d ≠ '"' → d ∉ quoted s := by
    intro d hd hescape hquote hmem
    simp only [quoted, List.cons_append, List.mem_cons, List.mem_append, List.mem_flatMap,
      List.not_mem_nil, or_false] at hmem
    rcases hmem with rfl | ⟨c, -, hc⟩ | rfl
    · exact hquote rfl
    · rcases mem_escaped hc with ⟨rfl, hplain⟩ | ⟨hmem, -⟩
      · rw [hd] at hplain
        cases hplain
      · exact hescape hmem
    · exact hquote rfl
  exact ⟨hend _ (by decide) (by decide) (by decide), hend _ (by decide) (by decide) (by decide)⟩

theorem joins_oneLine (P : String → Prop) : Joins P id fun w _ => OneLine w :=
  joins_of_append OneLine.append
    (fun h => ⟨fun hmem => (h _ hmem).ne (by decide) rfl,
      fun hmem => (h _ hmem).ne (by decide) rfl⟩)
    (fun s _ => oneLine_quoted s)
    fun h => (OneLine.append (w := ['\x7b']) ⟨by decide, by decide⟩ h).append ⟨by decide, by decide⟩

theorem eq_of_straight_eq {c d : Char} (hd : d ≠ '"' ∧ d ≠ '\'') (h : straight c = d) : c = d := by
  unfold straight at h
  split at h
  · exact absurd h.symm hd.1
  · split at h
    · exact absurd h.symm hd.2
    · exact h

theorem OneLine.straight {w : List Char} (h : OneLine w) : OneLine (w.map straight) := by
  have hmem : ∀ d, d ≠ '"' ∧ d ≠ '\'' → d ∈ w.map Response.straight → d ∈ w := by
    intro d hd hmem
    obtain ⟨c, hc, hcd⟩ := List.mem_map.mp hmem
    rwa [← eq_of_straight_eq hd hcd]
  exact ⟨fun hd => h.1 (hmem _ (by decide) hd), fun hd => h.2 (hmem _ (by decide) hd)⟩

/-- The repairs of a text that is one line, with its line end or without. -/
theorem repaired_eq {w : List Char} (hw : OneLine w) (hne : w ≠ []) {b : List Char}
    (hb : b = [] ∨ b = ['\n']) :
    repaired (w ++ b) = dropTrailingCommas (dropComment .outside (w.map straight) ++ ['\n']) := by
  have hlines : lines ((w ++ b).map straight) = [w.map straight] := by
    rcases hb with rfl | rfl
    · rw [List.append_nil]
      exact lines_of_not_mem hw.straight (by simpa using hne)
    · rw [List.map_append]
      exact lines_append hw.straight
  rw [repaired, dropComments, hlines, List.flatMap_singleton]

end DesignTokens.Response
