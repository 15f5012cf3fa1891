import DesignTokens.Proofs.Policy
import DesignTokens.Proofs.Rewrite.Edits
import DesignTokens.Proofs.Rewrite.Insertion
import DesignTokens.Proofs.Source.Reading

/-!
# Insertions that keep the balance

The insertion of variants writes braces, quotes and names of the mapping into a
text, and it looks for the object that it extends without regard to what is code.
Whether the braces and parentheses in code balance is not changed by it as long
as it can be read (`Insertion.Legible`): the closing brace of the object stands
where a line end changes nothing, and a name that is written there is read to its
end and has no bracket in code.

In code every name without a backslash and a line end can be read
(`legible_of_inCode`). A name with one of these cannot, since only its quotes are
escaped, and neither can an object in a line comment: a balanced text may come
out unbalanced (`not_balanced_variants`).
-/

namespace DesignTokens.Source

open Text

/-! ## Balanced brackets -/

/-- As many braces close as open, and as many parentheses. -/
def Balanced (cs : List Char) : Prop :=
  cs.count '\x7b' = cs.count '\x7d' ∧ cs.count '(' = cs.count ')'

instance (cs : List Char) : Decidable (Balanced cs) := by
  unfold Balanced
  infer_instance

/-- The structure check has nothing to say about the balance of a text exactly if the brackets of
its code balance. -/
theorem balanceErrors_eq_nil_iff (text : List Char) :
    balanceErrors text = [] ↔ Balanced (codeChars text) := by
  have hnone : ∀ what m n, (balanceError? what m n).toList = [] ↔ m = n := by
    intro what m n
    rw [balanceError?]
    split <;> simp_all
  rw [balanceErrors, List.append_eq_nil_iff, hnone, hnone, Balanced]

theorem balanced_codeBrackets_iff (text : List Char) :
    Balanced (codeBrackets text) ↔ Balanced (codeChars text) := by
  have hcount : ∀ c, isBracket c = true → (codeBrackets text).count c = (codeChars text).count c :=
    fun c hc => List.count_filter hc
  rw [Balanced, Balanced, hcount '\x7b' rfl, hcount '\x7d' rfl, hcount '(' rfl, hcount ')' rfl]

theorem Balanced.append_iff {b : List Char} (hb : Balanced b) (a c : List Char) :
    Balanced (a ++ (b ++ c)) ↔ Balanced (a ++ c) := by
  simp only [Balanced, List.count_append] at hb ⊢
  omega

theorem isBracket_of_isWhiteSpace {c : Char} (h : isWhiteSpace c = true) : isBracket c = false := by
  by_contra hc
  simp only [isBracket, Bool.not_eq_false, Bool.or_eq_true, decide_eq_true_eq] at hc
  rcases hc with ((rfl | rfl) | rfl) | rfl <;> exact absurd h (by decide)

theorem bracketsIn_of_forall_not : ∀ {w : List Char} (k : Cursor),
    (∀ c ∈ w, isBracket c = false) → bracketsIn (scan k w) = []
  | [], _, _ => rfl
  | c :: w, k, h => by
      rw [scan, bracketsIn_cons_of_not (h c (List.mem_cons_self ..)),
        bracketsIn_of_forall_not _ fun d hd => h d (List.mem_cons_of_mem c hd)]

end DesignTokens.Source

namespace DesignTokens.Rewrite

open Text Source

/-! ## Legible insertions -/

/-- The closing brace stands where a line end changes nothing, and the names that are put in are
read to their end from there, without a bracket in code. -/
structure Insertion.Legible (i : Insertion) (m : VariantMapping) (text : List Char) : Prop where
  steady : (Cursor.code.run (text.take i.closing)).Steady
  names : ∀ s ∈ trimmed m.dimension :: i.added,
    ReadsBack (Cursor.code.run (text.take i.closing)) (writtenKey s) []

instance (i : Insertion) (m : VariantMapping) (text : List Char) : Decidable (i.Legible m text) :=
  decidable_of_iff
    ((Cursor.code.run (text.take i.closing)).Steady ∧ ∀ s ∈ trimmed m.dimension :: i.added,
      ReadsBack (Cursor.code.run (text.take i.closing)) (writtenKey s) [])
    ⟨fun h => ⟨h.1, h.2⟩, fun h => ⟨h.1, h.2⟩⟩

/-- Each insertion of a row of mappings is legible in the text that the ones before have left. -/
def LegibleRow (call : List Char) : List VariantMapping → List Char → Prop
  | [], _ => True
  | m :: ms, text =>
    (∀ i ∈ insertion? call m text, i.Legible m text) ∧
      LegibleRow call ms ((variantEdit call m).after text)

instance decidableLegibleRow (call : List Char) : ∀ (ms : List VariantMapping) (text : List Char),
    Decidable (LegibleRow call ms text)
  | [], _ => isTrue trivial
  | m :: ms, text =>
    have := decidableLegibleRow call ms ((variantEdit call m).after text)
    inferInstanceAs (Decidable (_ ∧ _))

/-! ## Written names -/

theorem startsFresh_writtenKey (s : String) : StartsFresh (writtenKey s) := by
  rw [writtenKey]
  split
  case isTrue h =>
    refine startsFresh_of_forall fun c hc => ?_
    have hc := (Policy.isName_of_isIdentifier h).all c hc
    exact ⟨ne_of_isIdent hc (by decide), ne_of_isIdent hc (by decide)⟩
  case isFalse => exact startsFresh_cons (by decide) _

theorem readsBack_identifier {k : Cursor} (hk : k.Steady) {s : String}
    (h : isIdentifier s = true) : ReadsBack k (writtenKey s) [] := by
  rw [writtenKey, if_pos h]
  exact readsBack_of_neutral hk fun c hc =>
    .inr (not_mem_marks_of (by decide) ((Policy.isName_of_isIdentifier h).all c hc))

/-- Between its quotes, a name without a backslash and a line end is string. -/
theorem scan_escapedQuotes : ∀ {cs : List Char}, (∀ c ∈ cs, c ≠ '\\' ∧ c ≠ '\n') →
    (Cursor.string '"').run (cs.flatMap (fun c => if c = '"' then ['\\', '"'] else [c]) ++ ['"'])
        = .code ∧
      bracketsIn (scan (.string '"')
        (cs.flatMap (fun c => if c = '"' then ['\\', '"'] else [c]) ++ ['"'])) = []
  | [], _ => by decide
  | c :: cs, h => by
      obtain ⟨hback, hline⟩ := h c (List.mem_cons_self ..)
      obtain ⟨hrun, hbrackets⟩ := scan_escapedQuotes fun d hd => h d (List.mem_cons_of_mem c hd)
      rw [List.flatMap_cons]
      split
      case isTrue =>
        exact ⟨hrun, hbrackets⟩
      case isFalse hquote =>
        have hnext : ∀ behind, (Cursor.string '"').next c behind = .string '"' := by
          simp [Cursor.next, hback, hquote, hline]
        have hregion : ∀ behind, (Cursor.string '"').region c behind = .string := by
          simp [Cursor.region, hline]
        refine ⟨?_, ?_⟩
        · rw [List.singleton_append, List.cons_append, Cursor.run, hnext, hrun]
        · rw [List.singleton_append, List.cons_append, scan, hnext, hregion]
          simpa [bracketsIn] using hbrackets

/-- In code a name is read to its end if it has no backslash and no line end. -/
theorem readsBack_writtenKey {s : String} (h : ∀ c ∈ s.toList, c ≠ '\\' ∧ c ≠ '\n') :
    ReadsBack .code (writtenKey s) [] := by
  by_cases hident : isIdentifier s = true
  · exact readsBack_identifier (by decide) hident
  · obtain ⟨hrun, hbrackets⟩ := scan_escapedQuotes h
    rw [writtenKey, if_neg hident]
    exact ⟨hrun, hbrackets⟩

/-- In code an insertion is legible if its names have no backslash and no line end. -/
theorem legible_of_inCode {i : Insertion} {m : VariantMapping} {text : List Char}
    (hcode : Cursor.code.run (text.take i.closing) = .code)
    (hnames : ∀ s ∈ trimmed m.dimension :: i.added, ∀ c ∈ s.toList, c ≠ '\\' ∧ c ≠ '\n') :
    i.Legible m text := by
  refine ⟨by rw [hcode]; rfl, fun s hs => ?_⟩
  rw [hcode]
  exact readsBack_writtenKey (hnames s hs)

/-! ## Written lines -/

section

variable {k : Cursor} {indent : List Char}

theorem readsBack_line (hk : k.Steady) (hindent : ∀ c ∈ indent, isIndent c = true) :
    ReadsBack k ('\n' :: indent) [] := by
  refine readsBack_of_isWhiteSpace hk fun c hc => ?_
  rcases List.mem_cons.mp hc with rfl | hc
  · rfl
  · exact isWhiteSpace_of_isIndent (hindent c hc)

theorem readsBack_valueLine (hk : k.Steady) (hindent : ∀ c ∈ indent, isIndent c = true)
    {value : String} (hvalue : ReadsBack k (writtenKey value) []) :
    ReadsBack k (valueLine indent value) [] := by
  have hend : ReadsBack k ": \"\",".toList [] := by
    rcases hk.cases with rfl | rfl | rfl <;> decide
  exact ((readsBack_line hk hindent).append hvalue (startsFresh_writtenKey value)).append hend
    (startsFresh_cons (by decide) _)

theorem readsBack_valueLines (hk : k.Steady) (hindent : ∀ c ∈ indent, isIndent c = true)
    {values : List String} (hvalues : ∀ v ∈ values, ReadsBack k (writtenKey v) []) :
    ReadsBack k (values.flatMap (valueLine indent)) [] :=
  (readsBack_flatMap fun v hv =>
    ⟨readsBack_valueLine hk hindent (hvalues v hv), startsFresh_cons (by decide) _⟩).1

theorem startsFresh_valueLines (indent : List Char) (values : List String) :
    StartsFresh (values.flatMap (valueLine indent)) := by
  cases values with
  | nil => exact startsFresh_nil
  | cons v vs => exact startsFresh_cons (by decide) _

theorem exists_readsBack_dimensionLines (hk : k.Steady)
    (hindent : ∀ c ∈ indent, isIndent c = true) {dimension : String} {values : List String}
    (hnames : ∀ s ∈ dimension :: values, ReadsBack k (writtenKey s) []) :
    ∃ bs, Balanced bs ∧ ReadsBack k (dimensionLines indent dimension values) bs := by
  obtain ⟨hdimension, hvalues⟩ := List.forall_mem_cons.mp hnames
  have hinner : ∀ c ∈ indent ++ [' ', ' '], isIndent c = true := by
    intro c hc
    rcases List.mem_append.mp hc with hc | hc
    · exact hindent c hc
    · obtain rfl : c = ' ' := by simpa using hc
      rfl
  have hlines := readsBack_valueLines hk hinner hvalues
  -- the two braces are brackets of the code only if the cursor is in code
  obtain ⟨b, d, hbalanced, hopen, hclose⟩ : ∃ b d, Balanced (b ++ d) ∧
      ReadsBack k ": \x7b".toList b ∧ ReadsBack k "\x7d,".toList d := by
    rcases hk.cases with rfl | rfl | rfl
    · exact ⟨['\x7b'], ['\x7d'], by decide, by decide, by decide⟩
    · exact ⟨[], [], by decide, by decide, by decide⟩
    · exact ⟨[], [], by decide, by decide, by decide⟩
  have hhead := ((readsBack_line hk hindent).append hdimension
    (startsFresh_writtenKey dimension)).append hopen (startsFresh_cons (by decide) _)
  have hbody := (hhead.append hlines (startsFresh_valueLines _ _)).append
    (readsBack_line hk hindent) (startsFresh_cons (by decide) _)
  have hall := hbody.append hclose (startsFresh_cons (by decide) _)
  exact ⟨b ++ d, hbalanced, by simpa [dimensionLines] using hall⟩

end

/-! ## One insertion -/

/-- Lines that are put in bring in their own brackets, and the rest of the text is read as
before. -/
theorem Insertion.Shape.codeBrackets_eq {i : Insertion}
    {text lines front blank rest comma lineEnd bs : List Char}
    (shape : i.Shape text lines front blank rest comma lineEnd)
    (hsteady : (Cursor.code.run (front ++ blank)).Steady) {tail : List Char}
    (hlines : lines = '\n' :: tail) (htail : StartsFresh tail)
    (hreads : ReadsBack (Cursor.code.run (front ++ blank)) lines bs) :
    ∃ before behind, codeBrackets text = before ++ behind ∧
      codeBrackets (i.apply text) = before ++ (bs ++ behind) := by
  generalize hk : Cursor.code.run (front ++ blank) = k at hsteady hreads
  have hblank : StartsFresh blank := startsFresh_of_isWhiteSpace shape.blank_all
  have hrest : StartsFresh ('\x7d' :: rest) := startsFresh_cons (by decide) rest
  have hopened : (Cursor.code.run front).Opened := Cursor.Opened.run (k := .code) trivial front
  have hnextLine : (Cursor.code.run front).nextLine = k := by
    rw [← Cursor.nextLine_run hopened shape.blank_all, ← Cursor.run_append hblank, hk,
      hsteady.nextLine]
  -- what the lines start with comes to where the closing brace stands
  have hcomma : (Cursor.code.run front).run (comma ++ ['\n']) = k := by
    rcases shape.comma_eq with rfl | ⟨rfl, c, hlast, hc⟩
    · exact (Cursor.run_comma_line hopened).trans hnextLine
    · refine (Cursor.run_line hopened fun q hq => ?_).trans hnextLine
      have hne : front ≠ [] := by rintro rfl; cases hlast
      rw [Cursor.eq_backslash_of_run hq hne] at hlast
      obtain rfl := Option.some.inj hlast
      simp at hc
  have hclosing : (Cursor.code.run front).run blank = k := by rw [← Cursor.run_append hblank, hk]
  have hline : ReadsBack k ['\n'] [] := readsBack_of_neutral hsteady (by simp)
  have hreadsTail : ReadsBack k tail bs := by
    rw [hlines, ← List.singleton_append] at hreads
    have hrun := hreads.run
    have hbrackets := hreads.brackets
    rw [Cursor.run_append htail, hline.run] at hrun
    rw [scan_append htail, bracketsIn_append, hline.run, hline.brackets] at hbrackets
    exact ⟨hrun, hbrackets⟩
  have hreadsBlank : ReadsBack k (lineEnd ++ blank) [] :=
    (readsBack_of_isWhiteSpace hsteady shape.lineEnd_all).append
      (readsBack_of_isWhiteSpace hsteady shape.blank_all) hblank
  have hend : StartsFresh (lineEnd ++ blank) :=
    (startsFresh_of_isWhiteSpace shape.lineEnd_all).append hblank
  refine ⟨bracketsIn (scan .code front), bracketsIn (scan k ('\x7d' :: rest)), ?_, ?_⟩
  · have hnone : ∀ c ∈ blank, isBracket c = false :=
      fun c hc => isBracket_of_isWhiteSpace (shape.blank_all c hc)
    rw [codeBrackets_eq_scan, shape.text_eq, scan_append (hblank.append hrest), bracketsIn_append,
      scan_append hrest, bracketsIn_append, hclosing, bracketsIn_of_forall_not _ hnone,
      List.nil_append]
  · have hnone : ∀ c ∈ comma ++ ['\n'], isBracket c = false := by
      rcases shape.comma_eq with rfl | ⟨rfl, -⟩ <;> decide
    have happly : i.apply text = front ++ ((comma ++ ['\n'])
        ++ (tail ++ ((lineEnd ++ blank) ++ '\x7d' :: rest))) := by
      rw [shape.apply_eq, hlines]
      simp
    have hfresh : StartsFresh ((lineEnd ++ blank) ++ '\x7d' :: rest) := hend.append hrest
    have hfront : StartsFresh ((comma ++ ['\n'])
        ++ (tail ++ ((lineEnd ++ blank) ++ '\x7d' :: rest))) := by
      rcases shape.comma_eq with rfl | ⟨rfl, -⟩
      · exact startsFresh_cons (by decide) _
      · exact startsFresh_cons (by decide) _
    rw [codeBrackets_eq_scan, happly, scan_append hfront, bracketsIn_append,
      scan_append (htail.append hfresh), bracketsIn_append, bracketsIn_of_forall_not _ hnone,
      List.nil_append, hcomma, scan_append hfresh, bracketsIn_append, hreadsTail.brackets,
      hreadsTail.run, scan_append hrest, bracketsIn_append, hreadsBlank.brackets, hreadsBlank.run,
      List.nil_append]

theorem balanced_apply_iff {call text : List Char} {m : VariantMapping} {i : Insertion}
    (h : Inserts call m text i) (hlegible : i.Legible m text) :
    Balanced (codeChars (i.apply text)) ↔ Balanced (codeChars text) := by
  obtain ⟨lines, indent, hindent, hlines, front, blank, rest, comma, lineEnd, shape⟩ :=
    h.exists_shape
  obtain ⟨hsteady, hnames⟩ := hlegible
  rw [shape.take_closing] at hsteady hnames
  obtain ⟨bs, tail, hbalanced, htail, hfresh, hreads⟩ : ∃ bs tail, Balanced bs ∧
      lines = '\n' :: tail ∧ StartsFresh tail ∧
      ReadsBack (Cursor.code.run (front ++ blank)) lines bs := by
    have hkey : ∀ s, StartsFresh (indent ++ writtenKey s) := fun s =>
      (startsFresh_of_isWhiteSpace fun c hc => isWhiteSpace_of_isIndent (hindent c hc)).append
        (startsFresh_writtenKey s)
    obtain ⟨-, hadded⟩ := List.forall_mem_cons.mp hnames
    rcases hlines with rfl | ⟨hne, rfl⟩
    · obtain ⟨bs, hbalanced, hreads⟩ := exists_readsBack_dimensionLines hsteady hindent hnames
      refine ⟨bs, _, hbalanced, rfl, ?_, hreads⟩
      exact ((((hkey _).append (startsFresh_cons (by decide) _)).append
        (startsFresh_valueLines _ _)).append (startsFresh_cons (by decide) _)).append
          (startsFresh_cons (by decide) _)
    · obtain ⟨v, vs, hvs⟩ := List.exists_cons_of_ne_nil hne
      have hreads := readsBack_valueLines hsteady hindent hadded
      refine ⟨[], _, by decide, by rw [hvs]; rfl, ?_, hreads⟩
      exact ((hkey v).append (startsFresh_cons (by decide) _)).append (startsFresh_valueLines _ vs)
  obtain ⟨before, behind, htext, hafter⟩ := shape.codeBrackets_eq hsteady htail hfresh hreads
  rw [← balanced_codeBrackets_iff, ← balanced_codeBrackets_iff, htext, hafter,
    hbalanced.append_iff]

/-! ## The whole pass -/

theorem balanced_variantEdits_iff (call : List Char) : ∀ {ms : List VariantMapping}
    {text : List Char}, LegibleRow call ms text →
      (Balanced (codeChars (runEdits (variantEdits call ms) text).1) ↔ Balanced (codeChars text))
  | [], _, _ => Iff.rfl
  | m :: ms, text, ⟨hm, hms⟩ => by
      rw [variantEdits, List.map_cons, runEdits_cons, ← variantEdits,
        balanced_variantEdits_iff call hms, after_variantEdit]
      cases hi : insertion? call m text with
      | none => exact Iff.rfl
      | some i => exact balanced_apply_iff (inserts_of_insertion hi) (hm i hi)

/-- Whether the braces and parentheses in code balance is not changed by the insertion of variants,
if each insertion can be read where it is made. -/
theorem balanced_variants_iff (policy : Policy) {m : MappingSet} {text : List Char}
    (h : LegibleRow policy.variantCall.toList m.variants text) :
    Balanced (codeChars (runEdits (Pass.variants.edits m policy) text).1)
      ↔ Balanced (codeChars text) :=
  balanced_variantEdits_iff policy.variantCall.toList h

/-- A component with comments around its variants. -/
def commentedSource : List Char :=
  ("export const v = cva(\"h-9\", \x7b\n  variants: \x7b\n    // sizes (in px \x7b\n"
    ++ "    size: \x7b sm: \"h-8\" /* small */ \x7d, // \x7d\n  \x7d,\n\x7d);\n").toList

def quotedVariants : MappingSet where
  variants := [⟨"a", "size", ["sm", " large (\"xl\") ", "md"]⟩, ⟨"b", "tone \x7b", ["soft", "'"]⟩]

theorem balanced_variants_commentedSource :
    Balanced (codeChars
        (runEdits (Pass.variants.edits quotedVariants Policy.builtin) commentedSource).1)
      ↔ Balanced (codeChars commentedSource) :=
  balanced_variants_iff Policy.builtin (by decide +kernel)

/-- A component without variants. -/
def bareSource : List Char :=
  "export const v = cva(\"h-9\", \x7b\n  variants: \x7b\n  \x7d,\n\x7d);\n".toList

/-- A component whose variants are commented out. -/
def commentedOutSource : List Char :=
  "// variants: \x7b\x7d\nexport const v = cva(\"h-9\");\n".toList

/-- A name that ends with a backslash, a value with a line end, and an object in a line comment each
bring a balanced text out of balance. -/
theorem not_balanced_variants :
    Balanced (codeChars bareSource) ∧ Balanced (codeChars commentedOutSource) ∧
      ¬Balanced (codeChars (runEdits (Pass.variants.edits
        { variants := [⟨"a", "size\\", ["sm"]⟩] } Policy.builtin) bareSource).1) ∧
      ¬Balanced (codeChars (runEdits (Pass.variants.edits
        { variants := [⟨"a", "size", ["sm\n\x7b"]⟩] } Policy.builtin) bareSource).1) ∧
      ¬Balanced (codeChars (runEdits (Pass.variants.edits
        { variants := [⟨"a", "size", ["sm"]⟩] } Policy.builtin) commentedOutSource).1) := by
  decide

end DesignTokens.Rewrite
