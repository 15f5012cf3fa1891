import DesignTokens.Proofs.Rewrite.Color
import DesignTokens.Proofs.Rewrite.Insertion
import DesignTokens.Proofs.Source.Located
import DesignTokens.Proofs.Text.Word

/-!
# Names behind an insertion

A name that an insertion writes stands between two characters that are no word
characters, whether it is written with quotes or without, as long as it has no
quote of its own. A name that is not written is an unquoted key of the text
already (`Inserts.hasKey_or_enclosed`), and such a key is enclosed too unless it
is read out of a line comment (`HasKey.short_or_enclosed`). The names that the
text holds are held behind the insertion as well, since none of them reaches over
its place (`Inserts.holdsName_apply`).
-/

namespace DesignTokens.Rewrite

open Text Source Template

/-! ## Names that are keys -/

/-- The unquoted key is that of a dimension in the variant block, or one in the object of that
dimension. -/
def HasKey (call text dimension key : List Char) : Prop :=
  ∃ block, variantBlock? call text = some block ∧
    ∃ e ∈ entries text block.opening block.closing, e.quoted = false ∧ e.key = dimension ∧
      (key = dimension ∨ text[e.valueStart]? = some '\x7b' ∧ ∃ closing,
        matchingBrace? text e.valueStart = some closing ∧
          ∃ e' ∈ entries text e.valueStart closing, e'.quoted = false ∧ e'.key = key)

theorem HasKey.short_or_enclosed {text dimension key : List Char}
    (h : HasKey Policy.builtin.variantCall.toList text dimension key) :
    Short key ∨ Enclosed key text := by
  obtain ⟨block, hblock, e, he, hquoted, rfl, rfl | ⟨hopen, closing, hclosing, e', he', hquoted',
    rfl⟩⟩ := h
  · exact enclosed_of_mem_entries (opening_of_variantBlock hblock)
      (matchingBrace_of_variantBlock hblock) he hquoted
  · exact enclosed_of_mem_entries hopen hclosing he' hquoted'

/-! ## Names that are written -/

/-- A name without a quote is written as it stands, with quotes around it or not. -/
theorem enclosed_writtenKey {s : String} (hs : '"' ∉ s.toList) {indent : List Char}
    (hindent : ∀ c ∈ indent, isIndent c = true) {y : Char} (hy : isWord y = false)
    (behind : List Char) : Enclosed s.toList ('\n' :: indent ++ writtenKey s ++ y :: behind) := by
  obtain ⟨front, x, hfront, hx⟩ : ∃ front x, '\n' :: indent = front ++ [x] ∧ isWord x = false := by
    rcases List.eq_nil_or_concat indent with rfl | ⟨front, x, rfl⟩
    · exact ⟨[], '\n', rfl, by decide⟩
    · have hx := isWhiteSpace_of_isIndent (hindent x (by simp))
      exact ⟨'\n' :: front, x, by simp, isWord_of_isWhiteSpace hx⟩
  rw [hfront, writtenKey]
  split
  case isTrue => exact ⟨front, x, y, behind, by simp, hx, hy⟩
  case isFalse =>
    have hplain : s.toList.flatMap (fun c => if c = '"' then ['\\', '"'] else [c]) = s.toList := by
      refine (List.flatMap_congr fun c hc => ?_).trans (List.flatMap_singleton' s.toList)
      rw [if_neg (by rintro rfl; exact hs hc)]
    rw [hplain]
    exact ⟨front ++ [x], '"', '"', y :: behind, by simp, by decide, by decide⟩

theorem enclosed_valueLine {s : String} (hs : '"' ∉ s.toList) {indent : List Char}
    (hindent : ∀ c ∈ indent, isIndent c = true) : Enclosed s.toList (valueLine indent s) :=
  enclosed_writtenKey hs hindent (y := ':') (by decide) " \"\",".toList

theorem enclosed_valueLines {s : String} (hs : '"' ∉ s.toList) {indent : List Char}
    (hindent : ∀ c ∈ indent, isIndent c = true) {values : List String} (hmem : s ∈ values) :
    Enclosed s.toList (values.flatMap (valueLine indent)) := by
  obtain ⟨before, behind, rfl⟩ := List.append_of_mem hmem
  rw [List.flatMap_append, List.flatMap_cons]
  exact ((enclosed_valueLine hs hindent).append_right _).append_left _

theorem enclosed_dimensionLines {s : String} (hs : '"' ∉ s.toList) {indent : List Char}
    (hindent : ∀ c ∈ indent, isIndent c = true) {dimension : String} {values : List String}
    (hmem : s ∈ dimension :: values) :
    Enclosed s.toList (dimensionLines indent dimension values) := by
  have hinner : ∀ c ∈ indent ++ [' ', ' '], isIndent c = true := by
    intro c hc
    rcases List.mem_append.mp hc with hc | hc
    · exact hindent c hc
    · obtain rfl : c = ' ' := by simpa using hc
      rfl
  refine Enclosed.append_right (Enclosed.append_right ?_ _) _
  rcases List.mem_cons.mp hmem with rfl | hmem
  · exact (enclosed_writtenKey hs hindent (y := ':') (by decide) " \x7b".toList).append_right _
  · exact (enclosed_valueLines hs hinner hmem).append_left _

/-- The wanted values are the values of the mapping, trimmed, that are not blank. -/
theorem mem_wantedValues {m : VariantMapping} {v : String} :
    v ∈ wantedValues m ↔ v ≠ "" ∧ v ∈ m.values.map trimmed := by
  have hfilter : wantedValues m = ((m.values.map trimmed).filter (· ≠ "")).foldl
      (fun done v => if done.contains v then done else done ++ [v]) [] := by
    rw [wantedValues, List.foldl_filter]
    congr 1
    funext done v
    by_cases hv : v = "" <;> simp [hv]
  rw [hfilter, mem_foldl_distinct, or_iff_right List.not_mem_nil, List.mem_filter, and_comm]
  simp

/-! ## The text behind an insertion -/

namespace Insertion.Shape

variable {i : Insertion} {text lines front blank rest comma lineEnd : List Char}

theorem enclosed_apply (shape : i.Shape text lines front blank rest comma lineEnd)
    {name : List Char} (h : Enclosed name lines) : Enclosed name (i.apply text) := by
  rw [shape.apply_eq]
  exact (((h.append_left comma).append_right lineEnd).append_right _).append_left front

/-- What is put in starts with a line or a comma, and no name without a closing brace reaches over
the white space behind it. -/
theorem holdsName_apply (shape : i.Shape text lines front blank rest comma lineEnd)
    (hlines : lines.head? = some '\n') {name : List Char} (hbrace : '\x7d' ∉ name)
    (htrim : ∀ c ∈ name.getLast?, isWhiteSpace c = false) (h : holdsName name text = true) :
    holdsName name (i.apply text) = true := by
  rw [shape.text_eq] at h
  rw [shape.apply_eq]
  refine holdsName_insert ?_ ?_ ?_ h
  · obtain ⟨tail, rfl⟩ := List.head?_eq_some_iff.mp hlines
    rcases shape.comma_eq with rfl | ⟨rfl, -⟩ <;> rfl
  · cases hblank : blank with
    | nil => rfl
    | cons c cs => exact isWord_of_isWhiteSpace (shape.blank_all c (by simp [hblank]))
  · intro f n b hname hn
    have hwhite : ∀ c ∈ n, isWhiteSpace c = true := by
      rcases List.append_eq_append_iff.mp hn.symm with ⟨more, hblank, -⟩ | ⟨more, rfl, hmore⟩
      · exact fun c hc => shape.blank_all c (hblank ▸ List.mem_append_left more hc)
      · cases more with
        | nil => simpa using shape.blank_all
        | cons d more =>
            obtain ⟨rfl, -⟩ := List.cons.inj hmore
            exact absurd (by simp [hname]) hbrace
    by_contra hne
    have hlast : n.getLast hne ∈ name.getLast? := by
      rw [hname, List.getLast?_append_of_ne_nil _ hne, List.getLast?_eq_some_getLast hne]
      rfl
    have hspace := hwhite _ (List.getLast_mem hne)
    rw [htrim _ hlast] at hspace
    cases hspace

end Insertion.Shape

namespace Inserts

variable {call text : List Char} {m : VariantMapping} {i : Insertion}

/-- A name of the mapping is a key of the text already, or it is written. -/
theorem hasKey_or_enclosed (h : Inserts call m text i) {name : String}
    (hname : name ∈ trimmed m.dimension :: wantedValues m) (hquote : '"' ∉ name.toList) :
    HasKey call text (trimmed m.dimension).toList name.toList ∨
      Enclosed name.toList (i.apply text) := by
  cases h with
  | dimension block hblock =>
      have hindent : ∀ c ∈ lineIndent text block.opening, isIndent c = true := isIndent_lineIndent
      obtain ⟨front, blank, rest, comma, lineEnd, shape⟩ :=
        Rewrite.exists_shape (matchingBrace_of_variantBlock hblock) hindent
          (dimensionLines _ (trimmed m.dimension) (wantedValues m)) (wantedValues m)
      exact .inr (shape.enclosed_apply
        (enclosed_dimensionLines hquote (isIndent_entryIndent hindent _) hname))
  | values block hblock e he hquoted hkey hopen closing hclosing hmissing =>
      rcases List.mem_cons.mp hname with rfl | hname
      · exact .inl ⟨block, hblock, e, he, hquoted, hkey, .inl rfl⟩
      by_cases hmem : name ∈ missingValues text e closing (wantedValues m)
      · have hindent : ∀ c ∈ lineIndent text e.keyStart, isIndent c = true := isIndent_lineIndent
        obtain ⟨front, blank, rest, comma, lineEnd, shape⟩ :=
          Rewrite.exists_shape hclosing hindent (missingLines text e closing (wantedValues m))
            (missingValues text e closing (wantedValues m))
        exact .inr (shape.enclosed_apply
          (enclosed_valueLines hquote (isIndent_entryIndent hindent _) hmem))
      · have hany : ((entries text e.valueStart closing).any
            fun e => !e.quoted && e.key = name.toList) = true := by
          by_contra hnone
          exact hmem (List.mem_filter.mpr ⟨hname, by simpa using hnone⟩)
        obtain ⟨e', he', hfound⟩ := List.any_eq_true.mp hany
        simp only [Bool.and_eq_true, Bool.not_eq_true', decide_eq_true_eq] at hfound
        exact .inl ⟨block, hblock, e, he, hquoted, hkey,
          .inr ⟨hopen, closing, hclosing, e', he', hfound.1, hfound.2⟩⟩

/-- A name that the text holds is held behind the insertion. -/
theorem holdsName_apply (h : Inserts call m text i) {name : List Char} (hbrace : '\x7d' ∉ name)
    (htrim : ∀ c ∈ name.getLast?, isWhiteSpace c = false) (hholds : holdsName name text = true) :
    holdsName name (i.apply text) = true := by
  obtain ⟨lines, indent, -, hlines, front, blank, rest, comma, lineEnd, shape⟩ := h.exists_shape
  refine shape.holdsName_apply ?_ hbrace htrim hholds
  rcases hlines with rfl | ⟨hne, rfl⟩
  · rfl
  · obtain ⟨v, vs, hvs⟩ := List.exists_cons_of_ne_nil hne
    rw [hvs]
    rfl

end Inserts

end DesignTokens.Rewrite
