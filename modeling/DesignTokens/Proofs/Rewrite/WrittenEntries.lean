import DesignTokens.Proofs.Rewrite.VariantBalance
import DesignTokens.Proofs.Source.Located

/-!
# Written lines as entries

Where an entry may start behind a line end, the lines of values that are named by
identifiers are entries with these names (`exists_entry_of_mem`), and an entry may
start behind them again. Read from code, the lines of values and of a dimension
open and close no brace that is not theirs (`closed_valueLines`,
`closed_dimensionLines`).

A match of the call or of a variant block starts in written lines just if it starts
in one of the names (`Matchless`, `noStart_dimensionLines`): in quotes, if the name has
one in it (`matchless_quoted`), and without them, if the name comes to its end with the
word that is looked for and is read on as a key (`matchless_identifier`).
-/

namespace DesignTokens.Rewrite

open Text Source

/-! ## Closed lines -/

theorem openAfter_of_brackets {divided : List (Char × Region)} (h : bracketsIn divided = [])
    (depth : Nat) : openAfter depth divided = some depth := by
  induction divided with
  | nil => rfl
  | cons x divided ih =>
      obtain ⟨c, r⟩ := x
      rcases brace_cases c r with ⟨rfl, rfl⟩ | ⟨rfl, rfl⟩ | ⟨hopen, hclose⟩
      · cases h
      · cases h
      · rw [openAfter_other hopen hclose]
        refine ih ?_
        rw [← List.singleton_append, bracketsIn_append] at h
        exact (List.append_eq_nil_iff.mp h).2

/-- What comes back to code without brackets is closed. -/
theorem closed_of_readsBack {w : List Char} (h : ReadsBack .code w []) : Closed w :=
  ⟨h.run, openAfter_of_brackets h.brackets 1⟩

theorem closed_of_isWhiteSpace {w : List Char} (hw : ∀ c ∈ w, isWhiteSpace c = true) : Closed w :=
  closed_of_isPlain fun c hc => isPlain_of_isWhiteSpace (hw c hc)

theorem valueLine_eq {v : String} (hv : isIdentifier v = true) (indent : List Char) :
    valueLine indent v = '\n' :: indent ++ (v.toList ++ ([] ++ ':' :: " \"\",".toList)) := by
  rw [valueLine, writtenKey, if_pos hv, List.append_assoc]
  rfl

section

variable {indent : List Char} (hindent : ∀ c ∈ indent, isIndent c = true)

include hindent

theorem isBlank_newLine : ∀ c ∈ '\n' :: indent, isBlank c = true := by
  intro c hc
  rcases List.mem_cons.mp hc with rfl | hc
  · decide
  · have hc := hindent c hc
    simp only [isIndent, Bool.or_eq_true, decide_eq_true_eq] at hc
    rcases hc with rfl | rfl <;> decide

theorem closed_valueLines {values : List String} (hvalues : ∀ v ∈ values, isIdentifier v = true) :
    Closed (values.flatMap (valueLine indent)) :=
  closed_of_readsBack (readsBack_valueLines (by decide) hindent fun v hv =>
    readsBack_identifier (by decide) (hvalues v hv))

/-! ## Lines of entries -/

variable {front : List Char}

theorem startsEntry_newLine (h : StartsEntry (front ++ ['\n'])) :
    StartsEntry (front ++ '\n' :: indent) := by
  have hlead : IsLead indent :=
    isLead_of_isBlank fun c hc => isBlank_newLine hindent c (List.mem_cons_of_mem _ hc)
  have hfresh : StartsFresh indent :=
    startsFresh_of_isWhiteSpace fun c hc => isWhiteSpace_of_isIndent (hindent c hc)
  have happend := h.append hlead hfresh
  rwa [List.append_assoc] at happend

/-- An entry may start behind a value. -/
theorem startsEntry_behind_value (h : StartsEntry (front ++ ['\n'])) {v : String}
    (hv : isIdentifier v = true) : StartsEntry (front ++ valueLine indent v ++ ['\n']) := by
  have hname := Policy.isName_of_isIdentifier hv
  have hplain : ∀ c ∈ v.toList ++ [':', ' '], isPlain c = true := by
    intro c hc
    rcases List.mem_append.mp hc with hc | hc
    · exact isPlain_of_isIdent (hname.all c hc)
    · rcases List.mem_pair.mp hc with rfl | rfl <;> decide
  have hquotes : Whole ("\"\"".toList) := by decide
  have hwhole : Whole (front ++ '\n' :: indent ++ (v.toList ++ [':', ' ']) ++ "\"\"".toList) :=
    ((startsEntry_newLine hindent h).whole.append (whole_of_isPlain hplain)
      ((startsFresh_of_isName hname).append (startsFresh_cons (by decide) _))).append hquotes
        (startsFresh_cons (by decide) _)
  have hlead : IsLead ['\n'] := by decide
  have hbehind := StartsEntry.behind hwhole hlead
  rw [valueLine_eq hv]
  simpa using hbehind

theorem startsEntry_behind_values (h : StartsEntry (front ++ ['\n'])) {values : List String}
    (hvalues : ∀ v ∈ values, isIdentifier v = true) :
    StartsEntry (front ++ values.flatMap (valueLine indent) ++ ['\n']) := by
  induction values generalizing front with
  | nil => simpa using h
  | cons v values ih =>
      obtain ⟨hv, hvalues⟩ := List.forall_mem_cons.mp hvalues
      have hbehind := ih (startsEntry_behind_value hindent h hv) hvalues
      rwa [List.flatMap_cons, ← List.append_assoc]

/-- Each written value is an unquoted entry. -/
theorem exists_entry_of_mem (h : StartsEntry (front ++ ['\n'])) {values : List String}
    (hvalues : ∀ v ∈ values, isIdentifier v = true) {v : String} (hv : v ∈ values) (pos : Nat)
    (tail : List Char) :
    ∃ e ∈ entriesFrom pos (front ++ (values.flatMap (valueLine indent) ++ tail)),
      e.quoted = false ∧ e.key = v.toList := by
  obtain ⟨before, behind, rfl⟩ := List.append_of_mem hv
  have hbefore : ∀ u ∈ before, isIdentifier u = true := fun u hu => hvalues u (by simp [hu])
  have hstarts := startsEntry_newLine hindent (startsEntry_behind_values hindent h hbefore)
  obtain ⟨done, -, hentries⟩ := hstarts.exists_entries pos
  have hid := hvalues v hv
  obtain ⟨valueStart, later, hentry, -⟩ := hentries []
    (" \"\",".toList ++ (behind.flatMap (valueLine indent) ++ tail))
    (Policy.isName_of_isIdentifier hid) (by simp)
  have htext : front ++ ((before ++ v :: behind).flatMap (valueLine indent) ++ tail)
      = front ++ before.flatMap (valueLine indent) ++ '\n' :: indent ++ (v.toList ++ ([] ++ ':' ::
        (" \"\",".toList ++ (behind.flatMap (valueLine indent) ++ tail)))) := by
    rw [List.flatMap_append, List.flatMap_cons, valueLine_eq hid]
    simp
  rw [htext, hentry]
  exact ⟨_, List.mem_append_right done (List.mem_cons_self ..), rfl, rfl⟩

end

/-! ## The lines of a dimension -/

theorem startsFresh_indent {indent name : List Char} (hindent : ∀ c ∈ indent, isIndent c = true)
    (hname : IsName name) (more : List Char) : StartsFresh (indent ++ (name ++ more)) := by
  obtain ⟨c, cs, rfl, hc⟩ := hname.start
  have hident := isIdent_of_isIdentStart hc
  exact (startsFresh_of_isWhiteSpace fun c hc => isWhiteSpace_of_isIndent (hindent c hc)).append
    (startsFresh_cons ⟨ne_of_isIdent hident (by decide), ne_of_isIdent hident (by decide)⟩ _)

theorem exists_newLine {indent : List Char} (hindent : ∀ c ∈ indent, isIndent c = true)
    {values : List String} (hvalues : ∀ v ∈ values, isIdentifier v = true) (hne : values ≠ []) :
    ∃ tail, values.flatMap (valueLine indent) = '\n' :: tail ∧ StartsFresh tail := by
  cases values with
  | nil => exact absurd rfl hne
  | cons v values =>
      have hv := hvalues v (List.mem_cons_self ..)
      rw [List.flatMap_cons, valueLine_eq hv, List.append_assoc, List.append_assoc]
      exact ⟨_, rfl, startsFresh_indent hindent (Policy.isName_of_isIdentifier hv) _⟩

/-- Quotes are put around a name without a quotation mark that is no identifier. -/
theorem writtenKey_quoted {s : String} (hs : isIdentifier s = false) (hquote : '"' ∉ s.toList) :
    writtenKey s = '"' :: (s.toList ++ ['"']) := by
  have hone : ∀ c ∈ s.toList, (if c = '"' then ['\\', '"'] else [c]) = [c] :=
    fun c hc => if_neg fun heq : c = '"' => hquote (heq ▸ hc)
  rw [writtenKey, if_neg (Bool.eq_false_iff.mp hs), List.flatMap_congr hone,
    List.flatMap_singleton']
  rfl

theorem dimensionLines_written (indent : List Char) (d : String) (values : List String) :
    dimensionLines indent d values = ('\n' :: indent) ++ (writtenKey d ++ ([':', ' ', '\x7b'] ++
      (values.flatMap (valueLine (indent ++ [' ', ' ']))
        ++ ('\n' :: indent ++ ['\x7d', ','])))) := by
  rw [dimensionLines]
  simp

theorem dimensionLines_eq {d : String} (hd : isIdentifier d = true) (indent : List Char)
    (values : List String) :
    dimensionLines indent d values = ('\n' :: indent) ++ (d.toList ++ ([':', ' ', '\x7b'] ++
      (values.flatMap (valueLine (indent ++ [' ', ' ']))
        ++ ('\n' :: indent ++ ['\x7d', ','])))) := by
  rw [dimensionLines_written, writtenKey, if_pos hd]

theorem isIndent_inner {indent : List Char} (hindent : ∀ c ∈ indent, isIndent c = true) :
    ∀ c ∈ indent ++ [' ', ' '], isIndent c = true := by
  intro c hc
  rcases List.mem_append.mp hc with hc | hc
  · exact hindent c hc
  · obtain rfl : c = ' ' := by simpa using hc
    rfl

/-- The lines of a dimension are closed, and so is the object in them. -/
theorem closed_dimensionLines {indent : List Char} (hindent : ∀ c ∈ indent, isIndent c = true)
    {d : String} (hd : isIdentifier d = true) {values : List String}
    (hvalues : ∀ v ∈ values, isIdentifier v = true) :
    Closed (values.flatMap (valueLine (indent ++ [' ', ' '])) ++ '\n' :: indent) ∧
      Closed (dimensionLines indent d values) := by
  have hline : ∀ c ∈ '\n' :: indent, isBlank c = true := isBlank_newLine hindent
  have hinner : Closed (values.flatMap (valueLine (indent ++ [' ', ' '])) ++ '\n' :: indent) :=
    (closed_valueLines (isIndent_inner hindent) hvalues).append
      (closed_of_isPlain fun c hc => isPlain_of_isBlank (hline c hc))
        (startsFresh_cons (by decide) _)
  have hfront : Closed ('\n' :: indent ++ d.toList ++ [':', ' ']) := by
    refine closed_of_isPlain fun c hc => ?_
    rcases List.mem_append.mp hc with hc | hc
    · rcases List.mem_append.mp hc with hc | hc
      · exact isPlain_of_isBlank (hline c hc)
      · exact isPlain_of_isIdent ((Policy.isName_of_isIdentifier hd).all c hc)
    · rcases List.mem_pair.mp hc with rfl | rfl <;> decide
  have hcomma : Closed [','] := closed_of_isPlain (by decide)
  have hall := hfront.object hinner hcomma
  refine ⟨hinner, ?_⟩
  rw [dimensionLines_eq hd]
  simpa using hall

/-! ## Lines without a match -/

/-- Written with a colon and the given text behind it, the name starts no match. -/
def Matchless (p : Pattern) (tail : List Char) (s : String) : Prop :=
  ∀ before rest, NoIdent before → NoStart p before (writtenKey s) (':' :: (tail ++ rest))

section

variable {name call : List Char} {read : List Char → Option (List Char)} {last : Char} {s : String}

theorem noIdent_colon (rest : List Char) : NoIdent (':' :: rest).head? := by
  rintro c ⟨⟩
  decide

/-- An identifier starts no match unless it comes to its end with the name that is looked for. -/
theorem matchless_identifier (hname : IsName name)
    (hread : ∀ c cs, isIdent c = true → read (c :: cs) = none) (hs : isIdentifier s = true)
    {tail : List Char}
    (hends : EndsInName name s.toList → ∀ rest, read (':' :: (tail ++ rest)) = none) :
    Matchless (namePattern name read) tail s := by
  intro before rest hbefore u v huv
  rw [writtenKey, if_pos hs] at huv
  exact namePattern_in_word hname hread (Policy.isName_of_isIdentifier hs)
    (fun h => hends h rest) huv hbefore (noIdent_colon _)

/-- A name in quotes starts no match if it has none in it. -/
theorem matchless_quoted (hp : Runs last (namePattern name read)) (hlast : last ≠ '"')
    (hs : isIdentifier s = false) (hquote : '"' ∉ s.toList)
    (hnone : (namePattern name read).occurs s.toList = false) (tail : List Char) :
    Matchless (namePattern name read) tail s := by
  intro before rest _
  rw [writtenKey_quoted hs hquote]
  exact hp.noStart_quoted hlast namePattern_quote hnone (noIdent_colon _) before

/-- A call needs a parenthesis, and a key has a colon behind it. -/
theorem matchless_call_identifier (hcall : IsName call) (hs : isIdentifier s = true)
    (tail : List Char) : Matchless (callPattern call) tail s := by
  rw [callPattern_eq]
  exact matchless_identifier hcall (fun _ _ hc => readCall_eq_none hc _) hs fun _ _ => rfl

theorem matchless_call (hcall : IsName call) (hquote : '"' ∉ s.toList)
    (hnone : (callPattern call).occurs s.toList = false) (tail : List Char) :
    Matchless (callPattern call) tail s := by
  cases hs : isIdentifier s with
  | true => exact matchless_call_identifier hcall hs tail
  | false =>
      have hp := runs_callPattern hcall
      rw [callPattern_eq] at hp hnone ⊢
      exact matchless_quoted hp (by decide) hs hquote hnone tail

/-- What a value has behind its colon. -/
def valueTail : List Char := [' ', '"', '"', ',']

/-- What a dimension has behind its colon. -/
def objectTail : List Char := [' ', '\x7b']

/-- A block needs a brace behind the colon, and a value has its quotes there. -/
theorem matchless_value_identifier (hs : isIdentifier s = true) :
    Matchless variantsPattern valueTail s := by
  rw [variantsPattern_eq]
  exact matchless_identifier isName_variantsName (fun _ _ hc => readVariants_eq_none hc _) hs
    fun _ _ => rfl

theorem matchless_dimension_identifier (hs : isIdentifier s = true)
    (hends : ¬EndsInName variantsName s.toList) : Matchless variantsPattern objectTail s := by
  rw [variantsPattern_eq]
  exact matchless_identifier isName_variantsName (fun _ _ hc => readVariants_eq_none hc _) hs
    (absurd · hends)

theorem matchless_variants_quoted (hs : isIdentifier s = false) (hquote : '"' ∉ s.toList)
    (hnone : variantsPattern.occurs s.toList = false) (tail : List Char) :
    Matchless variantsPattern tail s := by
  have hp := runs_variantsPattern
  rw [variantsPattern_eq] at hp hnone ⊢
  exact matchless_quoted hp (by decide) hs hquote hnone tail

theorem matchless_value (hquote : '"' ∉ s.toList)
    (hnone : variantsPattern.occurs s.toList = false) : Matchless variantsPattern valueTail s := by
  cases hs : isIdentifier s with
  | true => exact matchless_value_identifier hs
  | false => exact matchless_variants_quoted hs hquote hnone valueTail

theorem matchless_dimension (hquote : '"' ∉ s.toList)
    (hnone : variantsPattern.occurs s.toList = false)
    (hends : isIdentifier s = true → ¬EndsInName variantsName s.toList) :
    Matchless variantsPattern objectTail s := by
  cases hs : isIdentifier s with
  | true => exact matchless_dimension_identifier hs (hends hs)
  | false => exact matchless_variants_quoted hs hquote hnone objectTail

end

section

variable {last : Char} {p : Pattern} (hp : Runs last p) {indent : List Char}
  (hindent : ∀ c ∈ indent, isIndent c = true) {white back : List Char}
  (hwhite : ∀ before, NoStart p before white back)

include hp hindent

/-- Behind a line end, a matchless name starts no match. -/
theorem noStart_line {tail : List Char} {s : String} (hs : Matchless p tail s) {more : List Char}
    (hmore : ∀ before, NoStart p before (':' :: (tail ++ more)) back) (before : Option Char) :
    NoStart p before ('\n' :: indent ++ (writtenKey s ++ ':' :: (tail ++ more))) back := by
  have hgap : ∀ c ∈ '\n' :: indent, isIdent c = false := fun c hc =>
    isIdent_of_isWhiteSpace (isWhiteSpace_of_isBlank (isBlank_newLine hindent c hc))
  have hnoIdent : NoIdent (('\n' :: indent).getLast?.or before) := by
    intro c hc
    rw [List.getLast?_eq_some_getLast (by simp), Option.some_or] at hc
    obtain rfl := Option.some.inj hc
    exact hgap _ (List.getLast_mem _)
  have hkey := hs _ (more ++ back) hnoIdent
  rw [← List.append_assoc tail, ← List.cons_append] at hkey
  exact hp.noStart_gap hgap (hkey.append (hmore _))

include hwhite

/-- The lines of matchless values start no match. -/
theorem noStart_valueLines : ∀ {values : List String}, (∀ v ∈ values, Matchless p valueTail v) →
    ∀ before, NoStart p before (values.flatMap (valueLine indent) ++ white) back
  | [], _, before => hwhite before
  | v :: values, hvalues, before => by
      obtain ⟨hv, hvalues⟩ := List.forall_mem_cons.mp hvalues
      have hmarks : ∀ c ∈ ':' :: valueTail, isIdent c = false := by decide
      have hbehind : ∀ before, NoStart p before
          (':' :: (valueTail ++ (values.flatMap (valueLine indent) ++ white))) back :=
        fun before => hp.noStart_gap hmarks (noStart_valueLines hvalues _)
      simpa [valueLine, valueTail] using noStart_line hp hindent hv hbehind before

/-- The lines of a matchless dimension with matchless values start no match. -/
theorem noStart_dimensionLines {d : String} (hd : Matchless p objectTail d) {values : List String}
    (hvalues : ∀ v ∈ values, Matchless p valueTail v) (before : Option Char) :
    NoStart p before (dimensionLines indent d values ++ white) back := by
  have hmarks : ∀ c ∈ ':' :: objectTail, isIdent c = false := by decide
  have hend : ∀ c ∈ '\n' :: indent ++ ['\x7d', ','], isIdent c = false := by
    intro c hc
    rcases List.mem_append.mp hc with hc | hc
    · exact isIdent_of_isWhiteSpace (isWhiteSpace_of_isBlank (isBlank_newLine hindent c hc))
    · rcases List.mem_pair.mp hc with rfl | rfl <;> decide
  have hclosing : ∀ before, NoStart p before ('\n' :: indent ++ ['\x7d', ','] ++ white) back :=
    fun before => hp.noStart_gap hend (hwhite _)
  have hlines := noStart_valueLines hp (isIndent_inner hindent) hclosing hvalues
  have hobject : ∀ before, NoStart p before (':' :: (objectTail
      ++ (values.flatMap (valueLine (indent ++ [' ', ' ']))
        ++ ('\n' :: indent ++ ['\x7d', ','] ++ white)))) back :=
    fun before => hp.noStart_gap hmarks (hlines _)
  rw [dimensionLines_written]
  simpa [objectTail] using noStart_line hp hindent hd hobject before

end

end DesignTokens.Rewrite
